import FusionKit.Proofs.Laying
import FusionKit.Proofs.Steps

/-!
# Where tokens lead a parser

Tokens lead a parser from one state to another, whatever comes after them. Here are the runs that
no form is opened or closed in: over comments and white space, whose nodes depend on their signs
alone, and over the annotations in front of a value.
-/
set_option autoImplicit false

namespace FusionKit

open Token (signsOf Spaced)

/-! ## Tokens and their signs -/

namespace Token

theorem signs_cases (t : Token) :
    t.signs = [.word t.type t.text] ∨ ∀ s ∈ t.signs, s.isTrivia = true := by
  unfold signs
  split
  · right
    intro s hs
    rw [List.eq_of_mem_replicate hs]
    rfl
  · right
    simp [Sign.isTrivia]
  · right
    simp [Sign.isTrivia]
  · exact .inl rfl

theorem of_signs_word {t : Token} {type : TokenType} {w : Text} (h : t.signs = [.word type w]) :
    t.type = type ∧ t.text = w := by
  rcases t.signs_cases with ht | ht
  · rw [ht] at h
    simpa using h
  · have := ht (.word type w) (by simp [h])
    contradiction

theorem not_whitespace {t : Token} {type : TokenType} {w : Text} (h : t.signs = [.word type w]) :
    t.type ≠ .whitespace := by
  intro ht
  rcases t.signs_cases with hs | hs
  · simp only [signs, ht] at hs
    cases hk : t.text.countBreaks with
    | zero => simp [hk] at hs
    | succ k => simp [hk, List.replicate_succ] at hs
  · have := hs (.word type w) (by simp [h])
    contradiction

/-- Tokens are split at a word among their signs. -/
theorem exists_word_split {ts : List Token} {ss us : List Sign} {type : TokenType} {w : Text}
    (h : signsOf ts = ss ++ .word type w :: us) :
    ∃ before t after, ts = before ++ t :: after ∧ signsOf before = ss ∧
      t.signs = [.word type w] ∧ signsOf after = us := by
  induction ts generalizing ss with
  | nil => simp at h
  | cons t ts ih =>
    rw [signsOf_cons] at h
    rcases List.append_eq_append_iff.mp h with ⟨rest, rfl, hrest⟩ | ⟨rest, hsigns, hrest⟩
    · obtain ⟨before, u, after, rfl, hb, hu, ha⟩ := ih hrest
      exact ⟨t :: before, u, after, rfl, by rw [signsOf_cons, hb], hu, ha⟩
    · cases rest with
      | nil =>
        rw [List.append_nil] at hsigns
        obtain ⟨before, u, after, rfl, hb, hu, ha⟩ := ih (show signsOf ts = [] ++ .word type w :: us from hrest.symm)
        exact ⟨t :: before, u, after, rfl, by rw [signsOf_cons, hb, List.append_nil, hsigns], hu, ha⟩
      | cons s rest =>
        obtain ⟨rfl, rfl⟩ := List.cons.inj hrest
        rcases t.signs_cases with ht | ht
        · rw [ht] at hsigns
          obtain rfl : ss = [] := by
            have := congrArg List.length hsigns
            simp at this
            exact List.eq_nil_of_length_eq_zero (by omega)
          simp only [List.nil_append, List.cons.injEq] at hsigns
          obtain ⟨hword, rfl⟩ := hsigns
          exact ⟨[], t, ts, rfl, rfl, by rw [ht, hword], rfl⟩
        · have := ht (.word type w) (by simp [hsigns])
          contradiction

theorem Spaced.append {ts us : List Token} (h : Spaced (ts ++ us)) : Spaced ts ∧ Spaced us :=
  ⟨(List.isChain_append.mp h).1, (List.isChain_append.mp h).2.1⟩

/-- The nodes of a comment or of white space. -/
def triviaNodes (t : Token) : List Node := (Node.trivia? t).getD []

/-- A token that is white space or a comment. -/
def IsTrivia (t : Token) : Prop := t.type ∈ [TokenType.whitespace, .lineComment, .blockComment]

theorem isTrivia_of_signs {t : Token} (h : ∀ s ∈ t.signs, s.isTrivia = true) : t.IsTrivia := by
  unfold IsTrivia
  unfold signs at h
  split at h
  · simp [*]
  · simp [*]
  · simp [*]
  · have := h (.word t.type t.text) (by simp)
    contradiction

theorem all_isTrivia {ts : List Token} (h : ∀ s ∈ signsOf ts, s.isTrivia = true) :
    ∀ t ∈ ts, t.IsTrivia := fun _ ht =>
  isTrivia_of_signs fun s hs => h s (List.mem_flatMap_of_mem ht hs)

theorem trivia?_of_isTrivia {t : Token} (h : t.IsTrivia) : Node.trivia? t = some t.triviaNodes := by
  simp only [IsTrivia, List.mem_cons, List.not_mem_nil, or_false] at h
  unfold triviaNodes Node.trivia?
  rcases h with h | h | h <;> rw [h] <;> rfl

end Token

namespace Node

/-- A comment or a newline run, as a parser makes them. -/
structure IsTrivia (n : Node) : Prop where
  kind : n.kind ∈ [Kind.newlines, .commentLine, .commentBlock]
  items : n.items = []

theorem IsTrivia.isContent {n : Node} (h : n.IsTrivia) : n.isContent = false := by
  have := h.kind
  simp only [List.mem_cons, List.not_mem_nil, or_false] at this
  unfold Node.isContent Node.isComment Node.isNewlines
  rcases this with h | h | h <;> rw [h] <;> rfl

theorem IsTrivia.not_key {n : Node} (h : n.IsTrivia) : n.kind ≠ .structKey := by
  intro heq
  have hk := h.kind
  rw [heq] at hk
  exact absurd hk (by decide)

theorem IsTrivia.isComment_or_isNewlines {n : Node} (h : n.IsTrivia) : n.isComment = true ∨ n.isNewlines = true := by
  have := h.isContent
  unfold Node.isContent at this
  simpa [Decidable.or_iff_not_imp_left] using this

theorem layout_trivia {n : Node} (h : n.IsTrivia) : n.layout = .ok n := by
  obtain ⟨label, items⟩ := n
  obtain ⟨hk, rfl⟩ := h
  refine layout_eq_ok.mpr (.leaf ?_)
  simp only [List.mem_cons, List.not_mem_nil, or_false] at hk
  rcases hk with hk | hk | hk <;> rw [show label.kind = _ from hk] <;> decide

theorem layoutAll_trivia {ns : List Node} (h : ∀ n ∈ ns, n.IsTrivia) : layoutAll ns = .ok ns :=
  layoutAll_eq_ok.mpr (List.forall₂_same.mpr fun n hn => layout_trivia (h n hn))

theorem layoutMember_trivia {ns : List Node} (h : ∀ n ∈ ns, n.IsTrivia) : layoutMember ns = .ok ns :=
  layoutMember_eq_ok.mpr (List.forall₂_same.mpr fun n hn => .other (h n hn).not_key (layout_trivia (h n hn)))

theorem layoutStruct_trivia {ns : List Node} (h : ∀ n ∈ ns, n.IsTrivia) : layoutStruct ns = .ok ns := by
  rw [layoutStruct_eq_ok]
  induction ns with
  | nil => exact .nil
  | cons n ns ih =>
    obtain ⟨hn, hns⟩ := List.forall_mem_cons.mp h
    obtain ⟨label, items⟩ := n
    obtain rfl : items = [] := hn.items
    exact .trivia hn.isComment_or_isNewlines (ih hns)

theorem unplacedAll_append (ns ms : List Node) :
    unplacedAll (ns ++ ms) = unplacedAll ns ++ unplacedAll ms := by
  induction ns with
  | nil => rfl
  | cons n ns ih => simp only [List.cons_append, unplacedAll, ih]

theorem triviaFrom_replicate (k n : Nat) (ss : List Sign) :
    triviaFrom k (List.replicate n .brk ++ ss) = triviaFrom (k + n) ss := by
  induction n generalizing k with
  | zero => rfl
  | succ n ih =>
    rw [List.replicate_succ, List.cons_append, triviaFrom, ih]
    congr 1
    omega

/-- What does not go on with a line break lets a newline run end. -/
theorem triviaFrom_flush (k : Nat) {ss : List Sign} (h : ss.head? ≠ some .brk) :
    triviaFrom k ss = flush k ++ triviaFrom 0 ss ∨ ∃ type w us, ss = .word type w :: us := by
  match ss, h with
  | [], _ => exact .inl (by simp [triviaFrom, flush])
  | .word type w :: ss, _ => exact .inr ⟨type, w, ss, rfl⟩
  | .line v :: .brk :: ss, _ => exact .inl (by simp [triviaFrom, flush])
  | .block ls :: ss, _ => exact .inl (by simp [triviaFrom, flush])
  | .line v :: .line w :: ss, _ => exact .inl (by simp [triviaFrom, flush])
  | .line v :: .block ls :: ss, _ => exact .inl (by simp [triviaFrom, flush])
  | .line v :: .word type w :: ss, _ => exact .inl (by simp [triviaFrom, flush])
  | [.line v], _ => exact .inl (by simp [triviaFrom, flush])

theorem annotated_eq (as : List Text) (kind : Kind) (span : Span) (v : Text) (nodes : List Node) :
    (⟨{ kind, span, value := v }, nodes⟩ : Node).annotated as =
      ⟨{ kind, span, annotations := as, value := v }, nodes⟩ := by
  unfold annotated
  cases as <;> rfl

theorem ofForm_reverse (kind : Kind) (as : List Text) (o c : Token) (nodes : List Node) :
    ofForm kind as o c nodes.reverse =
      ⟨{ kind, span := o.span.join c.span, annotations := as }, nodes⟩ := by
  rw [ofForm, List.reverse_reverse]
  exact annotated_eq as kind _ [] nodes

end Node

theorem Token.triviaNodes_isTrivia (t : Token) : ∀ n ∈ t.triviaNodes, n.IsTrivia := by
  intro n hn
  unfold Token.triviaNodes Node.trivia? at hn
  split at hn
  · unfold Node.newlines? at hn
    split at hn
    · simp at hn
    · obtain rfl := List.mem_singleton.mp hn
      exact ⟨by simp, rfl⟩
  · simp only [Option.getD_some, List.mem_cons, List.not_mem_nil, or_false] at hn
    rcases hn with rfl | rfl
    · exact ⟨by simp [Node.leaf], rfl⟩
    · exact ⟨by simp, rfl⟩
  · obtain rfl := List.mem_singleton.mp hn
    exact ⟨by simp, rfl⟩
  · simp at hn

theorem Token.isTrivia_of_trivia? {t : Token} {ns : List Node} (h : Node.trivia? t = some ns) :
    ∀ n ∈ ns, n.IsTrivia := by
  have := t.triviaNodes_isTrivia
  rw [triviaNodes, h] at this
  exact this

/-- The nodes of trivia tokens are what their signs are read as. -/
theorem Token.unplaced_triviaNodes {ts : List Token} (h : ∀ t ∈ ts, t.IsTrivia) (hs : Spaced ts) :
    Node.unplacedAll (ts.flatMap Token.triviaNodes) = Node.trivia (signsOf ts) := by
  induction ts with
  | nil => rfl
  | cons t ts ih =>
    have ih := ih (fun u hu => h u (by simp [hu])) (List.isChain_cons.mp hs).2
    rw [List.flatMap_cons, Node.unplacedAll_append, ih, signsOf_cons]
    have ht := h t (by simp)
    simp only [Token.IsTrivia, List.mem_cons, List.not_mem_nil, or_false] at ht
    rcases ht with ht | ht | ht
    · have hsigns : t.signs = List.replicate t.text.countBreaks .brk := by simp only [signs, ht]
      have hnodes : Node.unplacedAll t.triviaNodes = Node.flush t.text.countBreaks := by
        simp only [triviaNodes, Node.trivia?, ht, Node.newlines?]
        cases t.text.countBreaks with
        | zero => rfl
        | succ n => rfl
      rw [hsigns, hnodes, Node.trivia, Node.trivia, Node.triviaFrom_replicate, Nat.zero_add]
      have hhead : (signsOf ts).head? ≠ some .brk ∧ ∀ type w us, signsOf ts ≠ .word type w :: us := by
        cases ts with
        | nil => simp
        | cons u ts =>
          have hu := h u (by simp)
          have hne : u.type ≠ .whitespace := fun he =>
            (List.isChain_cons.mp hs).1 u rfl ⟨ht, he⟩
          simp only [Token.IsTrivia, List.mem_cons, List.not_mem_nil, or_false, hne, false_or] at hu
          rcases hu with hu | hu <;> simp [signs, hu]
      rcases Node.triviaFrom_flush t.text.countBreaks hhead.1 with hf | ⟨type, w, us, hf⟩
      · rw [hf]
      · exact absurd hf (hhead.2 type w us)
    · have hsigns : t.signs = [.line (Text.dropEndWhile Text.isSpace t.text), .brk] := by
        simp only [signs, ht]
      simp only [hsigns, triviaNodes, Node.trivia?, ht, Node.trivia]
      rfl
    · have hsigns : t.signs = [.block (commentLines t.text)] := by simp only [signs, ht]
      simp only [hsigns, triviaNodes, Node.trivia?, ht, Node.trivia]
      rfl

/-! ## Runs of the parser -/

namespace Reading

/-- Some tokens lead from one state of the parser to another. -/
def Leads (r : Reading) (ts : List Token) (r' : Reading) : Prop :=
  ∀ last rest, program last r (ts ++ rest) = program last r' rest

theorem Leads.refl (r : Reading) : r.Leads [] r := fun _ _ => rfl

theorem Leads.trans {r r' r'' : Reading} {t u : List Token} (h : r.Leads t r')
    (h' : r'.Leads u r'') : r.Leads (t ++ u) r'' := by
  intro last rest
  rw [List.append_assoc, h last, h' last]

theorem Leads.step {r r' : Reading} {t : Token} (ht : t.type ≠ .eof) (h : r.step t = .ok r') :
    r.Leads [t] r' := by
  intro last rest
  rw [List.singleton_append, program, if_neg ht, h]
  rfl

/-- The types of the tokens that values start with, annotations apart. -/
def bodyTypes : List TokenType :=
  [.null, .bool, .int, .real, .timestamp, .symbol, .quotedSymbol, .operator, .string,
    .longString, .blob, .parenOpen, .bracketOpen, .braceOpen, .clobOpen]

/-- A value may come next. -/
structure TakesValue (r : Reading) : Prop where
  idle : r.pending = none
  starts : ∀ t : Token, t.type ∈ .annotate :: bodyTypes → r.step t = r.expression t

theorem deliver_congr {r r' : Reading} (hd : r'.done = r.done) (hf : r'.frames = r.frames)
    (n : Node) : r'.deliver n = r.deliver n := by
  unfold deliver
  rw [hf, hd]

theorem enter_congr {r r' : Reading} (hd : r'.done = r.done) (hf : r'.frames = r.frames)
    (f : Frame) : r'.enter f = r.enter f := by
  unfold enter
  rw [hf, hd]

/-- If a token that is no white space comes first among annotations, it is the first of them. -/
theorem exists_annotation {u : Token} {us : List Token} {as : List Text} (hu : u.type ≠ .whitespace)
    (h : signsOf (u :: us) = as.map (.word .annotate)) :
    ∃ bs, as = u.text :: bs ∧ u.type = .annotate ∧ signsOf us = bs.map (.word .annotate) := by
  rw [Token.signsOf_cons] at h
  have hword : u.signs = [.word u.type u.text] := by
    rcases u.signs_cases with hsigns | hsigns
    · exact hsigns
    · have htrivia := Token.isTrivia_of_signs hsigns
      simp only [Token.IsTrivia, List.mem_cons, List.not_mem_nil, or_false, hu, false_or] at htrivia
      rcases htrivia with htype | htype <;> simp only [Token.signs, htype] at h <;> cases as <;> simp at h
  rw [hword] at h
  cases as with
  | nil => simp at h
  | cons a bs =>
    simp only [List.singleton_append, List.map_cons, List.cons.injEq, Sign.word.injEq] at h
    obtain ⟨⟨htype, rfl⟩, hsigns⟩ := h
    exact ⟨bs, rfl, htype, hsigns⟩

theorem hasPlace_of_pending {r : Reading} {p : Pending} (h : r.pending = some p) : r.HasPlace :=
  .inl (by rw [h]; rfl)

theorem annotations_of_pending {r : Reading} {p : Pending} (h : r.pending = some p) :
    r.annotations = p.annotations := by
  rw [annotations, h]
  rfl

/-- After annotations, further ones and blanks lead to the first token of the value. -/
theorem pending_leads {r : Reading} {us : List Token} {t : Token} {as bs : List Text} {mayBlank : Bool}
    (hr : r.pending = some ⟨as, mayBlank⟩) (hsigns : signsOf us = bs.map (.word .annotate))
    (hspaced : Spaced (us ++ [t])) (ht : t.type ∈ bodyTypes)
    (hblank : mayBlank = true ∨ ∀ u, us.head? = some u → u.type ≠ .whitespace) :
    ∃ r', r.Leads us r' ∧ r'.step t = r'.value (as ++ bs) t ∧ r'.done = r.done ∧
      r'.frames = r.frames := by
  induction us generalizing r as bs mayBlank with
  | nil =>
    obtain rfl : bs = [] := by simpa using hsigns.symm
    refine ⟨r, .refl r, ?_, rfl, rfl⟩
    rw [(hasPlace_of_pending hr).value_eq ht, annotations_of_pending hr, List.append_nil]
  | cons u us ih =>
    have hchain := List.isChain_cons.mp hspaced
    by_cases hu : u.type = .whitespace
    · have hmay : mayBlank = true := by
        rcases hblank with h | h
        · exact h
        · exact absurd hu (h u rfl)
      rw [Token.signsOf_cons] at hsigns
      have hempty : u.signs = [] := by
        have hrep : u.signs = List.replicate u.text.countBreaks .brk := by simp only [Token.signs, hu]
        rw [hrep] at hsigns ⊢
        cases hk : u.text.countBreaks with
        | zero => rfl
        | succ k =>
          rw [hk, List.replicate_succ] at hsigns
          cases bs <;> simp at hsigns
      rw [hempty, List.nil_append] at hsigns
      have hstep : r.step u = .ok { r with pending := some ⟨as, false⟩ } :=
        Step.step_eq (.blank (hmay ▸ hr) hu)
      obtain ⟨r', hleads, hr', hdone, hframes⟩ := ih (r := { r with pending := some ⟨as, false⟩ })
        rfl hsigns hchain.2 (.inr fun v hv h => by
          refine hchain.1 v ?_ ⟨hu, h⟩
          rw [List.append_eq, List.head?_append, hv]
          rfl)
      exact ⟨r', Leads.trans (u := us) (.step (by rw [hu]; decide) hstep) hleads, hr', hdone, hframes⟩
    · obtain ⟨bs, rfl, htype, hsigns⟩ := exists_annotation hu hsigns
      have hstep : r.step u = .ok { r with pending := some ⟨as ++ [u.text], true⟩ } := by
        rw [(hasPlace_of_pending hr).annotate_eq htype, annotations_of_pending hr]
      obtain ⟨r', hleads, hr', hdone, hframes⟩ := ih
        (r := { r with pending := some ⟨as ++ [u.text], true⟩ }) rfl hsigns hchain.2 (.inl rfl)
      refine ⟨r', Leads.trans (u := us) (.step (by rw [htype]; decide) hstep) hleads, ?_, hdone, hframes⟩
      rw [hr', List.append_assoc]
      rfl

end Reading

end FusionKit
