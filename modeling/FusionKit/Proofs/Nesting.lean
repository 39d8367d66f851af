import FusionKit.Proofs.Images
import FusionKit.Proofs.Lexing
import FusionKit.Proofs.Shapes
import FusionKit.Proofs.Sources

/-!
# Open forms and open delimiters

The scanner keeps a stack of open delimiters and the parser a stack of open forms. On a program the
two agree after every token, clobs apart, which the scanner does not stack. The scanner yields an
operator symbol only where a parenthesis is the innermost open delimiter; there the innermost open
form is an s-expression, so no other node has an operator symbol among its items.
-/
set_option autoImplicit false

namespace FusionKit

open Lexeme (Spelling isOperator isIdentStart)

/-- The context of a scanner after some tokens. -/
def LexContext.through (c : LexContext) (ts : List Token) : LexContext :=
  ts.foldl (fun c t => c.after t.type) c

namespace Node

/-- A symbol whose text starts with an operator character. -/
def IsOperator (n : Node) : Prop :=
  n.kind = .symbol ∧ ∃ c, Lexeme.isOperator c = true ∧ n.value.head? = some (byte c)

/-- All the way down, only s-expressions have operator symbols among their items. -/
def Confines (n : Node) : Prop := ∀ m, n.Below m → m.kind ≠ .sexpr → ∀ k ∈ m.items, ¬ k.IsOperator

variable {n : Node} {ns : List Node} {t : Token}

theorem confines_of_items (h : n.kind ≠ .sexpr → ∀ k ∈ n.items, ¬ k.IsOperator)
    (hitems : ∀ k ∈ n.items, k.Confines) : n.Confines :=
  forall_below h hitems

theorem Confines.items (h : n.Confines) : ∀ m ∈ n.items, m.Confines :=
  fun _ hm k hk => h k (.item hm hk)

theorem Confines.annotated (h : n.Confines) (annotations : List Text) :
    (n.annotated annotations).Confines := by
  unfold Node.annotated
  split
  · exact h
  · exact confines_of_items (h n (.refl n)) h.items

theorem isOperator_annotated (annotations : List Text) :
    (n.annotated annotations).IsOperator ↔ n.IsOperator := by
  unfold Node.annotated
  split <;> rfl

theorem IsTrivia.confines (h : n.IsTrivia) : n.Confines := by
  apply confines_of_items
  · simp [h.items]
  · simp [h.items]

theorem IsTrivia.not_isOperator (h : n.IsTrivia) : ¬ n.IsOperator := by
  intro hop
  have hk := h.kind
  rw [hop.1] at hk
  exact absurd hk (by decide)

theorem scalar?_confines (h : scalar? t = some n) : n.Confines := by
  have hitems := (shaped_scalar h).2
  apply confines_of_items
  · simp [hitems]
  · simp [hitems]

end Node

/-! ## Operator symbols of the scanner -/

/-- A text that starts with an ASCII byte starts with its character. -/
theorem Text.head?_ofChars {c d : Char} {w : List Char} (hc : c.toNat < 128)
    (h : (ofChars (d :: w)).head? = some (byte c)) : d = c := by
  by_contra hne
  obtain ⟨b, rest, hb, hbne⟩ := head_ofChars_ne hc hne w
  rw [hb] at h
  exact hbne (Option.some.inj h)

theorem Lexeme.toNat_of_isOperator {c : Char} (h : isOperator c = true) : c.toNat < 128 := by
  have hall : ("!#%&*+-./;<=>?@^`|~".toList.all fun c => decide (c.toNat < 128)) = true := by decide
  exact of_decide_eq_true (List.all_eq_true.mp hall c (isOperator_mem h))

/-- The scanner reads an operator symbol in s-expressions only. -/
theorem Token.Spelled.inSExpr_of_isOperator {c : LexContext} {t : Token} {n : Node} (ht : t.Spelled c)
    (hn : Node.scalar? t = some n) (hop : n.IsOperator) : c.inSExpr = true := by
  obtain ⟨hkind, d, hd, hhead⟩ := hop
  have htype : n.value = t.text ∧ t.type ∈ [TokenType.symbol, .quotedSymbol, .operator] := by
    unfold Node.scalar? at hn
    split at hn
    case h_6 htype | h_7 htype | h_8 htype =>
      cases hn
      exact ⟨rfl, by simp [htype]⟩
    case h_12 => contradiction
    all_goals
      cases hn
      simp [Node.leaf] at hkind
  rw [htype.1] at hhead
  have hascii := Lexeme.toNat_of_isOperator hd
  cases hclob : c.inClob with
  | true =>
    have hin := (ht.inside hclob).1
    simp only [List.mem_cons, List.not_mem_nil, or_false] at htype hin
    rcases htype.2 with h | h | h <;> simp [h] at hin
  | false =>
    obtain ⟨w, hw, hspelling⟩ := ht.outside hclob
    rw [hw] at hhead
    rcases List.mem_cons.mp htype.2 with htype | htype
    · rw [htype] at hspelling
      cases hspelling with
      | numeral ht => simp at ht
      | fixed h => simp [Lexeme.fixedSpellings] at h
      | symbol hname =>
        obtain ⟨e, es, rfl, he, -⟩ := hname.starts
        obtain rfl := Text.head?_ofChars hascii hhead
        rw [Lexeme.isIdentStart_of_isOperator hd] at he
        contradiction
    rcases List.mem_pair.mp htype with htype | htype
    · rw [htype] at hspelling
      cases hspelling with
      | numeral ht => simp at ht
      | fixed h => simp [Lexeme.fixedSpellings] at h
      | quotedSymbol hquoted =>
        obtain ⟨b, -, rfl⟩ := hquoted
        obtain rfl := Text.head?_ofChars hascii hhead
        exact absurd hd (by decide)
    · rw [htype] at hspelling
      cases hspelling with
      | numeral ht => simp at ht
      | fixed h => simp [Lexeme.fixedSpellings] at h
      | operator _ hin => exact hin

/-! ## Open forms -/

namespace Frame

/-- The nodes that an open form holds, those of an unfinished member among them. -/
def held (f : Frame) : List Node := ((f.member?.map Prod.snd).getD []) ++ f.items

/-- An open form whose nodes confine operator symbols to s-expressions. -/
structure Confines (f : Frame) : Prop where
  nodes : ∀ n ∈ f.held, n.Confines
  plain : f.kind ≠ .sexpr → ∀ n ∈ f.held, ¬ n.IsOperator

variable {f g : Frame} {n : Node} {ns : List Node}

theorem mem_held_of_items (h : n ∈ f.items) : n ∈ f.held :=
  List.mem_append_right _ h

theorem mem_held_keep {m : Node} (h : m ∈ (f.keep ns).held) : m ∈ ns ∨ m ∈ f.held := by
  cases f with
  | sexpr | list | clob => simpa [keep, held, member?, Frame.items] using h
  | struct o a items phase => cases phase <;> simpa [keep, held, member?, Frame.items, or_assoc] using h

/-- A value becomes one more node, or makes a member of those of an unfinished one. -/
theorem mem_held_push {m : Node} (h : m ∈ (f.push n).held) : m = n ∨ m ∈ f.held ∨
    f.kind ≠ .sexpr ∧ ∃ key reversed, m = Node.ofMember key n reversed ∧ ∀ k ∈ reversed, k ∈ f.held := by
  cases f with
  | sexpr | list | clob =>
    refine Or.imp_right Or.inl ?_
    simpa [Frame.push, held, member?, items] using h
  | struct o a items phase =>
    cases phase with
    | between | afterKey =>
      refine Or.imp_right Or.inl ?_
      simpa [Frame.push, held, member?, Frame.items, or_left_comm] using h
    | afterColon key reversed =>
      rcases List.mem_cons.mp h with rfl | h
      · exact .inr (.inr ⟨by simp [Frame.kind], key, reversed, rfl, fun k hk => List.mem_append_left _ hk⟩)
      · exact .inr (.inl (List.mem_append_right _ h))

theorem kind_keep (ns : List Node) (f : Frame) : (f.keep ns).kind = f.kind := by
  unfold keep
  split <;> rfl

theorem kind_push (n : Node) (f : Frame) : (f.push n).kind = f.kind := by
  unfold push
  split <;> rfl

theorem Confines.keep (h : f.Confines) (hns : ∀ n ∈ ns, n.IsTrivia) : (f.keep ns).Confines := by
  constructor
  · intro m hm
    rcases mem_held_keep hm with hm | hm
    · exact (hns m hm).confines
    · exact h.nodes m hm
  · intro hk m hm
    rw [kind_keep] at hk
    rcases mem_held_keep hm with hm | hm
    · exact (hns m hm).not_isOperator
    · exact h.plain hk m hm

/-- A member confines operator symbols when its parts do and none is one. -/
theorem confines_ofMember {key value : Node} {reversed : List Node}
    (hconfines : ∀ m ∈ value :: reversed, m.Confines) (hop : ∀ m ∈ value :: reversed, ¬ m.IsOperator) :
    (Node.ofMember key value reversed).Confines := by
  have hitems : (Node.ofMember key value reversed).items = (value :: reversed).reverse := rfl
  apply Node.confines_of_items
  · intro _ m hm
    rw [hitems, List.mem_reverse] at hm
    exact hop m hm
  · intro m hm
    rw [hitems, List.mem_reverse] at hm
    exact hconfines m hm

theorem Confines.push (h : f.Confines) (hn : n.Confines) (hop : f.kind ≠ .sexpr → ¬ n.IsOperator) :
    (f.push n).Confines := by
  constructor
  · intro m hm
    rcases mem_held_push hm with rfl | hm | ⟨hk, key, reversed, rfl, hreversed⟩
    · exact hn
    · exact h.nodes m hm
    · apply confines_ofMember
      · exact List.forall_mem_cons.mpr ⟨hn, fun k hk => h.nodes k (hreversed k hk)⟩
      · exact List.forall_mem_cons.mpr ⟨hop hk, fun k hk' => h.plain hk k (hreversed k hk')⟩
  · intro hk m hm
    rw [kind_push] at hk
    rcases mem_held_push hm with rfl | hm | ⟨-, key, reversed, rfl, -⟩
    · exact hop hk
    · exact h.plain hk m hm
    · exact fun h => absurd h.1 (by simp [Node.ofMember])

theorem Confines.comma (h : f.Confines) (hg : f.afterComma? = some g) : g.Confines := by
  unfold afterComma? at hg
  split at hg
  · cases hg
    exact ⟨h.nodes, h.plain⟩
  · cases hg
    exact ⟨h.nodes, h.plain⟩
  · contradiction

/-- A form that is closed confines operator symbols. -/
theorem Confines.form (h : f.Confines) (closing : Token) :
    (Node.ofForm f.kind f.annotations f.opening closing f.items).Confines ∧
      ¬ (Node.ofForm f.kind f.annotations f.opening closing f.items).IsOperator := by
  constructor
  · apply Node.Confines.annotated
    apply Node.confines_of_items
    · intro hk m hm
      exact h.plain hk m (mem_held_of_items (List.mem_reverse.mp hm))
    · intro m hm
      exact h.nodes m (mem_held_of_items (List.mem_reverse.mp hm))
  · intro hop
    have hkind := ((Node.isOperator_annotated _).mp hop).1
    cases f <;> contradiction

theorem opened?_confines {t : Token} {as : List Text} (h : Frame.opened? t as = some f) : f.Confines := by
  unfold opened? at h
  split at h
  case h_5 => contradiction
  all_goals
    cases h
    exact ⟨by simp [held, member?, items], by simp [held, member?, items]⟩

end Frame

namespace Reading

/-- What is read confines operator symbols to s-expressions. -/
structure Confines (r : Reading) : Prop where
  done : ∀ n ∈ r.done, ¬ n.IsOperator ∧ n.Confines
  frames : ∀ f ∈ r.frames, f.Confines

variable {r r' : Reading} {t : Token} {c : LexContext} {owes : Bool} {n : Node} {fs : List Frame}

theorem Confines.deliver (h : r.Confines) (hn : n.Confines)
    (hop : n.IsOperator → ∃ f, r.frames.head? = some f ∧ f.kind = .sexpr) : (r.deliver n).Confines := by
  unfold Reading.deliver
  have hframes := h.frames
  cases hfs : r.frames with
  | nil =>
    refine ⟨List.forall_mem_cons.mpr ⟨⟨fun hn => ?_, hn⟩, h.done⟩, by simp⟩
    obtain ⟨f, hf, -⟩ := hop hn
    rw [hfs] at hf
    contradiction
  | cons f fs =>
    rw [hfs] at hframes
    obtain ⟨hf, hrest⟩ := List.forall_mem_cons.mp hframes
    refine ⟨h.done, List.forall_mem_cons.mpr ⟨hf.push hn fun hk hn => ?_, hrest⟩⟩
    obtain ⟨g, hg, hgk⟩ := hop hn
    rw [hfs] at hg
    cases hg
    exact hk hgk

theorem Confines.reframe {f g : Frame} (h : r.Confines) (hr : r.frames = f :: fs)
    (hg : f.Confines → g.Confines) : ({ r with frames := g :: fs } : Reading).Confines := by
  have hframes := h.frames
  rw [hr] at hframes
  obtain ⟨hf, hfs⟩ := List.forall_mem_cons.mp hframes
  exact ⟨h.done, List.forall_mem_cons.mpr ⟨hg hf, hfs⟩⟩

/-- Where the scanner reads operators and a value may come, an s-expression is the innermost form. -/
theorem HasPlace.sexpr (hr : r.HasPlace) (hs : r.Stacked) (hc : (contextOf r.frames).inSExpr = true) :
    ∃ f, r.frames.head? = some f ∧ f.kind = .sexpr := by
  have hhead := hr.head hs
  cases hfs : r.frames with
  | nil =>
    rw [hfs] at hc
    contradiction
  | cons f fs =>
    rw [hfs] at hc hhead
    refine ⟨f, rfl, ?_⟩
    have hplace := hhead f rfl
    cases f with
    | sexpr => rfl
    | list => simp [contextOf, LexContext.inSExpr, Frame.opens] at hc
    | struct => simp [contextOf, LexContext.inSExpr, Frame.opens] at hc
    | clob => contradiction

theorem Step.confines (h : r.Step t r') (hs : r.Stacked) (hr : r.Confines)
    (ht : t.Spelled (contextOf r.frames)) : r'.Confines := by
  cases h with
  | annotate hplace htype => exact ⟨hr.done, hr.frames⟩
  | blank hp htype => exact ⟨hr.done, hr.frames⟩
  | @scalar n hplace hn =>
    apply hr.deliver
    · exact (Node.scalar?_confines hn).annotated _
    · intro hop
      rw [Node.isOperator_annotated] at hop
      exact hplace.sexpr hs (ht.inSExpr_of_isOperator hn hop)
  | opening hplace hf => exact ⟨hr.done, List.forall_mem_cons.mpr ⟨Frame.opened?_confines hf, hr.frames⟩⟩
  | @trivia ns hp hc hn =>
    have hns := Token.isTrivia_of_trivia? hn
    unfold keep
    cases hfs : r.frames with
    | nil =>
      refine ⟨fun m hm => ?_, by simp⟩
      rcases List.mem_append.mp hm with hm | hm
      · have hm := hns m (List.mem_reverse.mp hm)
        exact ⟨hm.not_isOperator, hm.confines⟩
      · exact hr.done m hm
    | cons f fs => exact hr.reframe hfs fun hf => hf.keep hns
  | @clobString o a items fs n hp hfs htype hn =>
    apply hr.deliver (Node.scalar?_confines hn)
    intro hop
    have hkind := hop.1
    unfold Node.scalar? at hn
    rcases htype with htype | htype <;> rw [htype] at hn <;> cases hn <;> simp [Node.leaf] at hkind
  | @closing f fs hp hfs htype =>
    have hframes := hr.frames
    rw [hfs] at hframes
    obtain ⟨hf, hrest⟩ := List.forall_mem_cons.mp hframes
    obtain ⟨hform, hop⟩ := hf.form t
    have hrest : ({ r with frames := fs } : Reading).Confines := ⟨hr.done, hrest⟩
    exact hrest.deliver hform fun h => absurd h hop
  | comma hp hfs hg htype => exact hr.reframe hfs fun hf => hf.comma hg
  | @key o a items fs hp hfs htype =>
    refine hr.reframe hfs fun hf => ?_
    have hkey : (Node.leaf .structKey t t.text).Confines :=
      Node.confines_of_items (by simp [Node.leaf]) (by simp [Node.leaf])
    have hplain : ¬ (Node.leaf .structKey t t.text).IsOperator := fun h => absurd h.1 (by simp [Node.leaf])
    constructor
    · exact List.forall_mem_cons.mpr ⟨hkey, hf.nodes⟩
    · exact fun hk => List.forall_mem_cons.mpr ⟨hplain, hf.plain hk⟩
  | colon hp hfs htype => exact hr.reframe hfs fun hf => ⟨hf.nodes, hf.plain⟩

/-! ## Both stacks -/

/-- Along the tokens of a source, the scanner and the parser stay together. -/
theorem Steps.follows {ts us : List Token} (h : r.Steps ts r') (hscan : Token.Scan c owes (ts ++ us))
    (hsound : r.Sound .plain False c owes) (hs : r.Stacked) (hr : r.Confines) :
    r'.Confines ∧ ∃ owes', r'.Sound .plain False (c.through ts) owes' := by
  induction h generalizing c owes with
  | nil => exact ⟨hr, owes, hsound⟩
  | @cons r q r' t ts h _ ih =>
    generalize hall : t :: ts ++ us = all at hscan
    cases hscan with
    | done => contradiction
    | fault c owes ht =>
      have hreadable := h.readable
      obtain ⟨rfl, -⟩ := List.cons.inj hall
      simp [ht] at hreadable
    | token ht hclob hscan =>
      obtain ⟨rfl, rfl⟩ := List.cons.inj hall
      refine ih hscan ?_ (h.stacked hs) ?_
      · exact hsound.step ht False.elim hclob h
      · rw [hsound.context] at ht
        exact h.confines hs hr ht

/-- The tokens that opened the open forms, the innermost first. -/
def openings (r : Reading) : List Token := r.frames.map Frame.opening

/-- The openings of the open forms, each with the type that its form has to be opened with. -/
def marks (r : Reading) : List (Token × TokenType) := r.frames.map fun f => (f.opening, f.opens)

theorem marks_deliver (n : Node) (r : Reading) : (r.deliver n).marks = r.marks := by
  unfold deliver marks
  cases r.frames with
  | nil => rfl
  | cons f fs =>
    have hopening : (f.push n).opening = f.opening := by
      unfold Frame.push
      split <;> rfl
    rw [List.map_cons, List.map_cons, hopening, Frame.opens_push]

theorem marks_keep (ns : List Node) (r : Reading) : (r.keep ns).marks = r.marks := by
  unfold keep marks
  cases r.frames with
  | nil => rfl
  | cons f fs =>
    have hopening : (f.keep ns).opening = f.opening := by
      unfold Frame.keep
      split <;> rfl
    rw [List.map_cons, List.map_cons, hopening, Frame.opens_keep]

/-- A step opens a form with its token, or closes the innermost form, or leaves them as they are. -/
theorem Step.marks (h : r.Step t r') :
    r'.marks = r.marks ∨ r'.marks = (t, t.type) :: r.marks ∨ r'.marks = r.marks.tail := by
  cases h with
  | annotate | blank => exact .inl rfl
  | scalar | clobString => exact .inl (marks_deliver _ r)
  | trivia => exact .inl (marks_keep _ r)
  | @opening f hplace hf =>
    right
    left
    unfold Frame.opened? at hf
    split at hf
    case h_5 => contradiction
    all_goals
      rename_i htype
      cases hf
      rw [htype]
      rfl
  | closing hp hfs htype =>
    right
    right
    unfold close
    rw [marks_deliver, Reading.marks, Reading.marks, hfs]
    rfl
  | comma hp hfs hg htype =>
    left
    unfold Reading.marks
    rw [hfs]
    unfold Frame.afterComma? at hg
    split at hg <;> cases hg <;> rfl
  | key hp hfs htype =>
    left
    rw [Reading.marks, Reading.marks, hfs]
    rfl
  | colon hp hfs htype =>
    left
    rw [Reading.marks, Reading.marks, hfs]
    rfl

/-- What opened the open forms are tokens read before, in their order. -/
theorem Steps.marks {ts : List Token} (h : r.Steps ts r') :
    r'.marks.reverse.Sublist (r.marks.reverse ++ ts.map fun t => (t, t.type)) := by
  induction h with
  | nil r => simp
  | @cons r q r' t ts h _ ih =>
    refine ih.trans ?_
    rw [List.map_cons, ← List.singleton_append, ← List.append_assoc]
    apply List.Sublist.append_right
    rcases h.marks with hmarks | hmarks | hmarks
    · rw [hmarks]
      exact List.sublist_append_left _ _
    · rw [hmarks, List.reverse_cons]
    · rw [hmarks]
      exact ((List.tail_sublist _).reverse).trans (List.sublist_append_left _ _)

/-- What opened the open forms of a program are tokens of it. -/
theorem Steps.openings {ts : List Token} (h : Steps {} ts r) : r.openings.reverse.Sublist ts := by
  have hmarks : r.marks.reverse.Sublist (ts.map fun t => (t, t.type)) := h.marks
  have hfirst : r.openings = r.marks.map Prod.fst := by
    rw [Reading.openings, Reading.marks, List.map_map]
    rfl
  have htokens : (ts.map fun t => (t, t.type)).map Prod.fst = ts := by
    rw [List.map_map]
    exact List.map_id ts
  rw [hfirst, ← List.map_reverse, ← htokens]
  exact hmarks.map Prod.fst

/-- Each form was opened with a token of its type. -/
theorem Steps.opens {ts : List Token} (h : Steps {} ts r) :
    r.frames.map Frame.opens = r.openings.map Token.type := by
  have hmarks : r.marks.reverse.Sublist (ts.map fun t => (t, t.type)) := h.marks
  rw [Reading.openings, List.map_map]
  apply List.map_congr_left
  intro f hf
  have hmem : (f.opening, f.opens) ∈ r.marks.reverse := by
    rw [List.mem_reverse]
    exact List.mem_map.mpr ⟨f, hf, rfl⟩
  obtain ⟨t, -, ht⟩ := List.mem_map.mp (hmarks.subset hmem)
  obtain ⟨hopening, hopens⟩ := Prod.mk.inj ht
  rw [Function.comp_apply, ← hopening, hopens]

theorem Steps.of_append {ts us : List Token} (h : r.Steps (ts ++ us) r') :
    ∃ q, r.Steps ts q ∧ q.Steps us r' := by
  induction ts generalizing r with
  | nil => exact ⟨r, .nil r, h⟩
  | cons t ts ih =>
    cases h with
    | cons hstep h =>
      obtain ⟨q, hts, hus⟩ := ih h
      exact ⟨q, .cons hstep hts, hus⟩

end Reading

namespace Lexer

variable {l : Lexer}

/-- The tokens that the first `n` readings return, and the lexer behind them. -/
def readMany (l : Lexer) : Nat → List Token × Lexer
  | 0 => ([], l)
  | n + 1 => (l.next.1 :: (l.next.2.readMany n).1, (l.next.2.readMany n).2)

/-- A token leads the lexer to the context behind it. -/
theorem context_next (heof : l.next.1.type ≠ .eof) (herror : l.next.1.type ≠ .error) :
    l.next.2.context = l.context.after l.next.1.type := by
  cases hended : l.ended with
  | true =>
    rw [next_of_ended hended] at heof
    exact absurd rfl heof
  | false =>
    cases hread : l.context.read l.cursor with
    | token type c =>
      rw [next_of_token hended hread]
      rfl
    | fault cause c =>
      rw [next_of_fault hended hread] at herror
      exact absurd rfl herror
    | ended =>
      rw [next_of_end hended hread] at heof
      exact absurd rfl heof

/-- Behind some of its tokens a lexer goes on with the others, in the context after them. -/
theorem readMany_through {before after : List Token} (h : l.drain.1 = before ++ after)
    (hbefore : ∀ t ∈ before, t.type ≠ .error) :
    ∃ l', l.readMany before.length = (before, l') ∧ l'.context = l.context.through before ∧
      l'.drain.1 = after := by
  induction before generalizing l with
  | nil => exact ⟨l, rfl, rfl, h⟩
  | cons t before ih =>
    obtain ⟨ht, hrest⟩ := List.forall_mem_cons.mp hbefore
    by_cases heof : l.next.1.type = .eof
    · rw [drain_of_eof heof] at h
      contradiction
    · rw [drain_of_ne_eof heof] at h
      obtain ⟨rfl, htail⟩ := List.cons.inj h
      obtain ⟨l', hmany, hcontext, hafter⟩ := ih htail hrest
      refine ⟨l', ?_, ?_, hafter⟩
      · rw [List.length_cons, readMany, hmany]
      · rw [hcontext, context_next heof ht]
        rfl

end Lexer

/-- On a program, operator symbols are direct items of s-expressions only; and after every token the
open delimiters of the scanner are what opened the open forms of the parser, clobs apart: tokens read
before, in their order, from the last one on. -/
theorem parse_nesting {file source : Text} {nodes : List Node} (h : parse file source = .ok nodes) :
    (∀ n ∈ nodes, ¬ n.IsOperator ∧ n.Confines) ∧
      ∀ before after, (TokenStream.ofSource file source).tokens = before ++ after →
        ∃ r, Reading.Steps {} before r ∧ r.openings.reverse.Sublist before ∧
          (LexContext.through {} before).opened =
            (r.openings.map Token.type).filter (· != .clobOpen) ∧
          ∃ l, (Lexer.ofSource file source).readMany before.length = (before, l) ∧
            l.context = LexContext.through {} before ∧ l.drain.1 = after := by
  obtain ⟨ts, r, hts, -, -, hsteps, hidle, rfl⟩ := steps_of_parse h
  have hscan : Token.Scan {} false ts := by
    rw [hts]
    exact TokenStream.ofSource_scan file source
  have hsound : ({} : Reading).Sound .plain False {} false :=
    ⟨⟨[], rfl, fun _ _ => .nil _, rfl, rfl, rfl, rfl⟩, by simp, by simp, rfl, by simp, by simp⟩
  have hstart : ({} : Reading).Confines := ⟨by simp, by simp⟩
  constructor
  · intro n hn
    have hall : Token.Scan {} false (ts ++ []) := by rwa [List.append_nil]
    obtain ⟨hconfines, -⟩ := hsteps.follows hall hsound .start hstart
    exact hconfines.done n (List.mem_reverse.mp hn)
  · intro before after hsplit
    have hsplit := hts.trans hsplit
    rw [hsplit] at hscan hsteps
    obtain ⟨q, hbefore, -⟩ := hsteps.of_append
    obtain ⟨-, owes, hq⟩ := hbefore.follows hscan hsound .start hstart
    refine ⟨q, hbefore, hbefore.openings, ?_, ?_⟩
    · rw [hq.context, contextOf, hbefore.opens]
    · refine Lexer.readMany_through (hts.symm.trans hsplit) fun t ht herror => ?_
      have := hbefore.readable t ht
      rw [herror] at this
      exact absurd this (by decide)

theorem parse_nesting_mixed :
    ∃ nodes, parse [] (utf8 "(+ [a] \x7bk: (- \x7b\x7b\"b\"\x7d\x7d)\x7d)") = .ok nodes ∧
      (∀ n ∈ nodes, ¬ n.IsOperator ∧ n.Confines) ∧
      ∀ before after,
        (TokenStream.ofSource [] (utf8 "(+ [a] \x7bk: (- \x7b\x7b\"b\"\x7d\x7d)\x7d)")).tokens = before ++ after →
        ∃ r, Reading.Steps {} before r ∧ r.openings.reverse.Sublist before ∧
          (LexContext.through {} before).opened =
            (r.openings.map Token.type).filter (· != .clobOpen) ∧
          ∃ l, (Lexer.ofSource [] (utf8 "(+ [a] \x7bk: (- \x7b\x7b\"b\"\x7d\x7d)\x7d)")).readMany before.length =
              (before, l) ∧
            l.context = LexContext.through {} before ∧ l.drain.1 = after := by
  cases hnodes : parse [] (utf8 "(+ [a] \x7bk: (- \x7b\x7b\"b\"\x7d\x7d)\x7d)") with
  | error e =>
    have hok : (parse [] (utf8 "(+ [a] \x7bk: (- \x7b\x7b\"b\"\x7d\x7d)\x7d)")).isOk = true := by decide +kernel
    rw [hnodes] at hok
    contradiction
  | ok nodes => exact ⟨nodes, rfl, parse_nesting hnodes⟩

end FusionKit
