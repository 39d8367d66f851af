import FusionKit.Proofs.Scanning
import FusionKit.Proofs.Steps
import FusionKit.Proofs.Tiling

/-!
# Nodes as images of their source

A parsed node covers the part of the source that it was read from: its range shows its text, the
ranges of its items lie in it one after the other, and a newline run counts the line breaks that it
covers.

While a source is read, the finished nodes of every open form lie between the opening of the form
and the place that the reading has come to, and the forms lie one after the other up to there.
-/
set_option autoImplicit false

namespace FusionKit

open Lexeme (Spelling fixedSpellings)

variable {source : Text}

/-! ## Ranges -/

namespace Span

/-- A range that lies in a source. -/
def LiesIn (s : Span) (source : Text) : Prop :=
  0 ≤ s.start ∧ s.start ≤ s.stop ∧ s.stop ≤ source.length

/-- A range covers some text between two delimiters. -/
def Encloses (source : Text) (s : Span) (opening closing : String) : Prop :=
  ∃ body, s.text? source = some (utf8 opening ++ body ++ utf8 closing)

theorem liesIn_of_text? {s : Span} {body : Text} (h : s.text? source = some body) : s.LiesIn source := by
  unfold text? at h
  split at h
  · assumption
  · contradiction

theorem text?_eq_some {s : Span} {body : Text} : s.text? source = some body ↔
    ∃ before after, source = before ++ body ++ after ∧ s.start = before.length ∧
      s.stop = before.length + body.length := by
  constructor
  · intro h
    have hin := liesIn_of_text? h
    unfold LiesIn at hin
    rw [text?, if_pos hin] at h
    have hbody := Option.some.inj h
    have hlen : body.length = (s.stop - s.start).toNat := by
      rw [← hbody, List.length_take, List.length_drop]
      omega
    have hbefore : (source.take s.start.toNat).length = s.start.toNat := by
      rw [List.length_take]
      omega
    refine ⟨source.take s.start.toNat, (source.drop s.start.toNat).drop body.length, ?_, ?_, ?_⟩
    · rw [hlen, List.append_assoc, ← hbody, List.take_append_drop, List.take_append_drop]
    · omega
    · omega
  · rintro ⟨before, after, rfl, hstart, hstop⟩
    obtain ⟨start, stop⟩ := s
    obtain rfl : start = before.length := hstart
    obtain rfl : stop = before.length + body.length := hstop
    exact text?_middle before body after

/-- Two ranges, one after the other, are joined with what lies between them. -/
theorem text?_join {s t : Span} {a b : Text} (hs : s.text? source = some a)
    (ht : t.text? source = some b) (h : s.stop ≤ t.start) :
    ∃ body, (s.join t).text? source = some (a ++ body ++ b) := by
  obtain ⟨p, q, hpq, hstart, hstop⟩ := text?_eq_some.mp hs
  obtain ⟨p', q', hpq', hstart', hstop'⟩ := text?_eq_some.mp ht
  -- the first range ends before the second one starts
  have hprefix : p ++ a <+: p' := by
    have hfirst : p ++ a <+: source := ⟨q, hpq.symm⟩
    have hsecond : p' <+: source := ⟨b ++ q', by rw [hpq', List.append_assoc]⟩
    apply List.prefix_of_prefix_length_le hfirst hsecond
    rw [List.length_append]
    omega
  obtain ⟨m, rfl⟩ := hprefix
  refine ⟨m, text?_eq_some.mpr ⟨p, q', ?_, ?_, ?_⟩⟩
  · rw [hpq']
    simp only [List.append_assoc]
  · simp only [List.length_append] at hstart'
    simp only [join]
    omega
  · simp only [List.length_append] at hstop' hstart' ⊢
    simp only [join]
    omega

end Span

namespace Node

/-- A line comment and the newline run that it ends in have one range. -/
def Owns (c n : Node) : Prop := c.kind = .commentLine ∧ n.kind = .newlines ∧ n.span = c.span

/-- A newline run counts the line breaks in its range. -/
def CountsBreaks (source : Text) (n : Node) : Prop :=
  ∃ t, n.span.text? source = some t ∧ n.label.count = t.countBreaks ∧ 0 < n.label.count

/-- Nodes that lie one after the other. -/
structure Siblings (source : Text) (ns : List Node) : Prop where
  apart : ns.Pairwise fun m n => m.span.stop ≤ n.span.start ∨ m.Owns n
  breaks : ∀ before n after, ns = before ++ n :: after → n.kind = .newlines →
    (∃ c, before.getLast? = some c ∧ c.Owns n) ∨ n.CountsBreaks source

end Node

/-- The range of a label covers what the label says. -/
def Label.Shows (source : Text) (l : Label) : Prop :=
  match l.kind with
  | .null | .boolean | .integer | .real | .timestamp | .symbol | .structKey =>
    l.span.text? source = some l.value
  | .quotedString => l.span.text? source = some (utf8 "\"" ++ l.value ++ utf8 "\"")
  | .multilineString => l.span.text? source = some (utf8 "'''" ++ l.value ++ utf8 "'''")
  | .list => l.span.Encloses source "[" "]"
  | .sexpr => l.span.Encloses source "(" ")"
  | .struct => l.span.Encloses source "\x7b" "\x7d"
  | .clob => l.span.Encloses source "\x7b\x7b" "\x7d\x7d"
  | _ => True

namespace Node

/-- A node that covers its part of a source, with its items in order. -/
structure Faithful (source : Text) (n : Node) : Prop where
  liesIn : n.span.LiesIn source
  shows : n.label.Shows source
  nested : ∀ m ∈ n.items, n.span.start ≤ m.span.start ∧ m.span.stop ≤ n.span.stop
  siblings : Siblings source n.items

/-- A node that is faithful all the way down. -/
def Image (source : Text) (n : Node) : Prop := ∀ m, n.Below m → m.Faithful source

variable {n : Node}

theorem Image.faithful (h : n.Image source) : n.Faithful source := h n (.refl n)

theorem image_of_items (h : n.Faithful source) (hitems : ∀ m ∈ n.items, m.Image source) :
    n.Image source := forall_below h hitems

theorem Image.items (h : n.Image source) : ∀ m ∈ n.items, m.Image source :=
  fun _ hm k hk => h k (.item hm hk)

/-- Annotations lie outside of the value that they belong to. -/
theorem Image.annotated (h : n.Image source) (annotations : List Text) :
    (n.annotated annotations).Image source := by
  unfold Node.annotated
  split
  · exact h
  · have hn := h.faithful
    exact image_of_items ⟨hn.liesIn, hn.shows, hn.nested, hn.siblings⟩ h.items

theorem span_annotated (annotations : List Text) (n : Node) :
    (n.annotated annotations).span = n.span := by
  unfold annotated
  split <;> rfl

theorem kind_annotated (annotations : List Text) (n : Node) :
    (n.annotated annotations).kind = n.kind := by
  unfold annotated
  split <;> rfl

/-- A node without items. -/
theorem image_leaf {l : Label} (hin : l.span.LiesIn source) (hshows : l.Shows source) :
    Image source ⟨l, []⟩ := by
  refine image_of_items ⟨hin, hshows, by simp, .nil, ?_⟩ (by simp)
  intro before n after h
  simp at h

/-- Images that lie one after the other between two offsets. -/
inductive Stretch (source : Text) : Int → List Node → Int → Prop where
  | nil {i j : Int} (h : i ≤ j) : Stretch source i [] j
  | line {i j : Int} {c n : Node} {ns : List Node} (hi : i ≤ c.span.start) (hc : c.Image source)
      (hn : n.Image source) (howns : c.Owns n) (h : Stretch source c.span.stop ns j) :
      Stretch source i (c :: n :: ns) j
  | node {i j : Int} {n : Node} {ns : List Node} (hi : i ≤ n.span.start) (hn : n.Image source)
      (hbreaks : n.kind = .newlines → n.CountsBreaks source) (h : Stretch source n.span.stop ns j) :
      Stretch source i (n :: ns) j

namespace Stretch

variable {i j k : Int} {ns ms : List Node}

theorem append (h : Stretch source i ns j) (h' : Stretch source j ms k) : Stretch source i (ns ++ ms) k := by
  induction h with
  | @nil i j hij =>
    cases h' with
    | nil h => exact .nil (by omega)
    | line hi hc hn howns h => exact .line (by omega) hc hn howns h
    | node hi hn hbreaks h => exact .node (by omega) hn hbreaks h
  | line hi hc hn howns _ ih => exact .line hi hc hn howns (ih h')
  | node hi hn hbreaks _ ih => exact .node hi hn hbreaks (ih h')

theorem mono (h : Stretch source i ns j) (hjk : j ≤ k) : Stretch source i ns k := by
  simpa using h.append (.nil hjk)

theorem single (hi : i ≤ n.span.start) (hn : n.Image source) (hkind : n.kind ≠ .newlines) :
    Stretch source i [n] n.span.stop :=
  .node hi hn (fun h => absurd h hkind) (.nil (Int.le_refl _))

theorem image (h : Stretch source i ns j) : ∀ n ∈ ns, n.Image source := by
  induction h with
  | nil => simp
  | line hi hc hn howns _ ih => exact List.forall_mem_cons.mpr ⟨hc, List.forall_mem_cons.mpr ⟨hn, ih⟩⟩
  | node hi hn hbreaks _ ih => exact List.forall_mem_cons.mpr ⟨hn, ih⟩

theorem le (h : Stretch source i ns j) : i ≤ j := by
  induction h with
  | nil h => exact h
  | line hi hc hn howns _ ih =>
    have := hc.faithful.liesIn.2.1
    omega
  | node hi hn hbreaks _ ih =>
    have := hn.faithful.liesIn.2.1
    omega

/-- A row lies between its offsets. -/
theorem within (h : Stretch source i ns j) : ∀ n ∈ ns, i ≤ n.span.start ∧ n.span.stop ≤ j := by
  induction h with
  | nil => simp
  | @line i j c n ns hi hc hn howns h ih =>
    have hle := hc.faithful.liesIn.2.1
    have hrest := h.le
    rw [List.forall_mem_cons, List.forall_mem_cons, howns.2.2]
    refine ⟨⟨hi, hrest⟩, ⟨hi, hrest⟩, fun m hm => ?_⟩
    have := ih m hm
    omega
  | @node i j n ns hi hn hbreaks h ih =>
    have hle := hn.faithful.liesIn.2.1
    have hrest := h.le
    rw [List.forall_mem_cons]
    refine ⟨⟨hi, hrest⟩, fun m hm => ?_⟩
    have := ih m hm
    omega

theorem apart (h : Stretch source i ns j) :
    ns.Pairwise fun m n => m.span.stop ≤ n.span.start ∨ m.Owns n := by
  induction h with
  | nil => exact .nil
  | @line i j c n ns hi hc hn howns h ih =>
    have hafter : ∀ m ∈ ns, c.span.stop ≤ m.span.start := fun m hm => (h.within m hm).1
    refine .cons ?_ (.cons ?_ ih)
    · exact List.forall_mem_cons.mpr ⟨.inr howns, fun m hm => .inl (hafter m hm)⟩
    · rw [howns.2.2]
      exact fun m hm => .inl (hafter m hm)
  | node hi hn hbreaks h ih => exact .cons (fun m hm => .inl (h.within m hm).1) ih

theorem breaks (h : Stretch source i ns j) (before : List Node) (n : Node) (after : List Node)
    (hsplit : ns = before ++ n :: after) (hkind : n.kind = .newlines) :
    (∃ c, before.getLast? = some c ∧ c.Owns n) ∨ n.CountsBreaks source := by
  induction h generalizing before with
  | nil => simp at hsplit
  | @line i j c m ns hi hc hm howns h ih =>
    match before with
    | [] =>
      obtain ⟨rfl, -⟩ := List.cons.inj hsplit
      rw [howns.1] at hkind
      contradiction
    | [b] =>
      simp only [List.cons_append, List.nil_append, List.cons.injEq] at hsplit
      obtain ⟨rfl, rfl, -⟩ := hsplit
      exact .inl ⟨_, rfl, howns⟩
    | b :: b' :: before =>
      simp only [List.cons_append, List.cons.injEq] at hsplit
      obtain ⟨rfl, rfl, hsplit⟩ := hsplit
      rcases ih before hsplit with ⟨d, hd, hd'⟩ | hcounts
      · exact .inl ⟨d, by simp [List.getLast?_cons, hd], hd'⟩
      · exact .inr hcounts
  | @node i j m ns hi hm hbreaks h ih =>
    match before with
    | [] =>
      obtain ⟨rfl, -⟩ := List.cons.inj hsplit
      exact .inr (hbreaks hkind)
    | b :: before =>
      simp only [List.cons_append, List.cons.injEq] at hsplit
      obtain ⟨rfl, hsplit⟩ := hsplit
      rcases ih before hsplit with ⟨d, hd, hd'⟩ | hcounts
      · exact .inl ⟨d, by simp [List.getLast?_cons, hd], hd'⟩
      · exact .inr hcounts

theorem siblings (h : Stretch source i ns j) : Siblings source ns := ⟨h.apart, h.breaks⟩

end Stretch

end Node

/-! ## Tokens -/

namespace Token

/-- A token that covers its text, spelled as its type says. -/
structure Faithful (source : Text) (t : Token) : Prop where
  covers : t.span.text? source = some t.text
  spelled : ∃ inSExpr w, t.text = Text.ofChars w ∧ Spelling inSExpr t.type w

variable {t : Token} {n : Node}

theorem Faithful.liesIn (h : t.Faithful source) : t.span.LiesIn source :=
  Span.liesIn_of_text? h.covers

/-- Some types have one spelling. -/
theorem eq_of_fixed {inSExpr : Bool} {type : TokenType} {w u : List Char} (h : Spelling inSExpr type w)
    (hu : (type, u) ∈ fixedSpellings) : w = u := by
  cases h with
  | fixed h =>
    have hunique : ∀ p ∈ fixedSpellings, ∀ q ∈ fixedSpellings, p.1 = q.1 → p = q := by decide
    exact (Prod.mk.inj (hunique _ h _ hu rfl)).2
  | numeral ht =>
    simp only [List.mem_cons, List.not_mem_nil, or_false] at ht
    rcases ht with rfl | rfl | rfl <;> simp [fixedSpellings] at hu
  | _ => simp [fixedSpellings] at hu

theorem Faithful.fixed (h : t.Faithful source) {s : String} (hs : (t.type, s.toList) ∈ fixedSpellings) :
    t.span.text? source = some (utf8 s) := by
  obtain ⟨inSExpr, w, ht, hw⟩ := h.spelled
  rw [h.covers, ht, eq_of_fixed hw hs]
  rfl

theorem unwrap_enclosed (opening closing : String) (body : Text) :
    Node.unwrap opening closing (utf8 opening ++ body ++ utf8 closing) = body := by
  rw [Node.unwrap, List.append_assoc, Text.trimStart_append, Text.trimEnd_append]

theorem Faithful.quoted (h : t.Faithful source) (ht : t.type = .string) :
    t.span.text? source = some (utf8 "\"" ++ Node.unwrap "\"" "\"" t.text ++ utf8 "\"") := by
  obtain ⟨inSExpr, w, hw, hspelling⟩ := h.spelled
  rw [ht] at hspelling
  have hbody : ∃ b, t.text = utf8 "\"" ++ b ++ utf8 "\"" := by
    cases hspelling with
    | numeral ht => simp at ht
    | fixed h => simp [fixedSpellings] at h
    | @string b hb =>
      refine ⟨Text.ofChars b, ?_⟩
      rw [hw, ← List.singleton_append, ← List.append_assoc, Text.ofChars_append, Text.ofChars_append]
      rfl
  obtain ⟨b, hb⟩ := hbody
  rw [h.covers, hb, unwrap_enclosed]

theorem Faithful.tripleQuoted (h : t.Faithful source) (ht : t.type = .longString) :
    t.span.text? source = some (utf8 "'''" ++ Node.unwrap "'''" "'''" t.text ++ utf8 "'''") := by
  obtain ⟨inSExpr, w, hw, hspelling⟩ := h.spelled
  rw [ht] at hspelling
  have hbody : ∃ b, t.text = utf8 "'''" ++ b ++ utf8 "'''" := by
    cases hspelling with
    | numeral ht => simp at ht
    | fixed h => simp [fixedSpellings] at h
    | @longString b hb =>
      refine ⟨Text.ofChars b, ?_⟩
      rw [hw, Text.ofChars_append, Text.ofChars_append]
      rfl
  obtain ⟨b, hb⟩ := hbody
  rw [h.covers, hb, unwrap_enclosed]

/-- The node of a token by itself. -/
theorem Faithful.scalar (h : t.Faithful source) (hn : Node.scalar? t = some n) :
    n.Image source ∧ n.span = t.span ∧ n.kind ≠ .newlines := by
  unfold Node.scalar? at hn
  split at hn
  case h_12 => contradiction
  case h_9 ht =>
    cases hn
    exact ⟨Node.image_leaf h.liesIn (h.quoted ht), rfl, by simp [Node.leaf]⟩
  case h_10 ht =>
    cases hn
    exact ⟨Node.image_leaf h.liesIn (h.tripleQuoted ht), rfl, by simp [Node.leaf]⟩
  case h_11 =>
    cases hn
    exact ⟨Node.image_leaf h.liesIn trivial, rfl, by simp [Node.leaf]⟩
  all_goals
    cases hn
    exact ⟨Node.image_leaf h.liesIn h.covers, rfl, by simp [Node.leaf]⟩

/-- The nodes of white space and of comments. -/
theorem Faithful.trivia (h : t.Faithful source) {ns : List Node} (hn : Node.trivia? t = some ns) :
    Node.Stretch source t.span.start ns t.span.stop := by
  have hle : t.span.start ≤ t.span.start := Int.le_refl _
  have hstop : t.span.stop ≤ t.span.stop := Int.le_refl _
  unfold Node.trivia? at hn
  split at hn
  · cases hn
    unfold Node.newlines?
    split
    · exact .nil h.liesIn.2.1
    · rename_i k hk
      refine .node hle (Node.image_leaf h.liesIn trivial) (fun _ => ⟨t.text, h.covers, ?_, ?_⟩) (.nil hstop)
      · rw [hk]
        rfl
      · exact Int.natCast_succ_pos k
  · cases hn
    exact .line hle (Node.image_leaf h.liesIn trivial) (Node.image_leaf h.liesIn trivial) ⟨rfl, rfl, rfl⟩
      (.nil hstop)
  · cases hn
    exact .node hle (Node.image_leaf h.liesIn trivial) (fun h => absurd h (by simp)) (.nil hstop)
  · contradiction

end Token

/-! ## Open forms -/

/-- The text that opens a form of a kind. -/
def Kind.opening : Kind → String
  | .sexpr => "("
  | .list => "["
  | .struct => "\x7b"
  | _ => "\x7b\x7b"

/-- The text that closes a form of a kind. -/
def Kind.closing : Kind → String
  | .sexpr => ")"
  | .list => "]"
  | .struct => "\x7d"
  | _ => "\x7d\x7d"

namespace Frame

/-- The key of the member that a struct is in the middle of, and the nodes from the key on, last
first. -/
def member? : Frame → Option (Node × List Node)
  | struct _ _ _ (.afterKey key reversed) | struct _ _ _ (.afterColon key reversed) => some (key, reversed)
  | _ => none

/-- The nodes of an open form lie between its opening and an offset. -/
def Spans (source : Text) (f : Frame) (j : Int) : Prop :=
  f.opening.span.text? source = some (utf8 f.kind.opening) ∧
    match f.member? with
    | none => Node.Stretch source f.opening.span.stop f.items.reverse j
    | some (key, reversed) => ∃ ns, reversed.reverse = key :: ns ∧ key.Image source ∧
        key.kind = .structKey ∧ Node.Stretch source f.opening.span.stop f.items.reverse key.span.start ∧
        Node.Stretch source key.span.stop ns j

variable {f g : Frame} {i j k : Int} {n : Node} {ns : List Node} {t : Token}

theorem Spans.mono (h : f.Spans source j) (hjk : j ≤ k) : f.Spans source k := by
  obtain ⟨hopening, hrest⟩ := h
  refine ⟨hopening, ?_⟩
  split at hrest
  · exact hrest.mono hjk
  · obtain ⟨ns, hns, hkey, hkind, hitems, hrest⟩ := hrest
    exact ⟨ns, hns, hkey, hkind, hitems, hrest.mono hjk⟩

theorem Spans.keep (h : f.Spans source j) (hns : Node.Stretch source j ns k) :
    (f.keep ns).Spans source k := by
  have hitems : ∀ {items : List Node} {i}, Node.Stretch source i items.reverse j →
      Node.Stretch source i (ns.reverse ++ items).reverse k := by
    intro items i hitems
    rw [List.reverse_append, List.reverse_reverse]
    exact hitems.append hns
  have hmember : ∀ {key : Node} {rev : List Node} {i},
      (∃ ms, rev.reverse = key :: ms ∧ key.Image source ∧ key.kind = .structKey ∧
        Node.Stretch source i f.items.reverse key.span.start ∧ Node.Stretch source key.span.stop ms j) →
      ∃ ms, (ns.reverse ++ rev).reverse = key :: ms ∧ key.Image source ∧ key.kind = .structKey ∧
        Node.Stretch source i f.items.reverse key.span.start ∧ Node.Stretch source key.span.stop ms k := by
    rintro key rev i ⟨ms, hrev, hkey, hkind, hitems, hms⟩
    refine ⟨ms ++ ns, ?_, hkey, hkind, hitems, hms.append hns⟩
    rw [List.reverse_append, List.reverse_reverse, hrev, List.cons_append]
  cases f with
  | sexpr | list | clob => exact ⟨h.1, hitems h.2⟩
  | struct o a items phase =>
    cases phase with
    | between ready => exact ⟨h.1, hitems h.2⟩
    | afterKey key rev => exact ⟨h.1, hmember h.2⟩
    | afterColon key rev => exact ⟨h.1, hmember h.2⟩

/-- A key and its value, with what stands between them, are a member. -/
theorem image_member {key : Node} {rev : List Node} (hrev : rev.reverse = key :: ns)
    (hkey : key.Image source) (hkind : key.kind = .structKey) (hns : Node.Stretch source key.span.stop ns j)
    (hn : n.Image source) (hvalue : n.kind ≠ .newlines) (hj : j ≤ n.span.start) :
    (Node.ofMember key n rev).Image source ∧
      (Node.ofMember key n rev).span = ⟨key.span.start, n.span.stop⟩ := by
  have hkeyin := hkey.faithful.liesIn
  have hnin := hn.faithful.liesIn
  have hle := hns.le
  have hspan : (Node.ofMember key n rev).span = ⟨key.span.start, n.span.stop⟩ := by
    show key.span.join n.span = _
    unfold Span.LiesIn at hkeyin hnin
    simp only [Span.join]
    congr 1 <;> omega
  have hrow : Node.Stretch source key.span.start (Node.ofMember key n rev).items n.span.stop := by
    show Node.Stretch source key.span.start (n :: rev).reverse n.span.stop
    rw [List.reverse_cons, hrev]
    refine .node (Int.le_refl _) hkey (fun h => absurd (hkind.symm.trans h) (by decide)) ?_
    exact hns.append (.single hj hn hvalue)
  refine ⟨Node.image_of_items ⟨?_, trivial, ?_, hrow.siblings⟩ hrow.image, hspan⟩
  · rw [hspan]
    unfold Span.LiesIn at *
    dsimp only
    omega
  · rw [hspan]
    exact hrow.within

theorem Spans.push (h : f.Spans source j) (hf : f.hasPlace = true ∨ f.kind = .clob) (hn : n.Image source)
    (hvalue : n.kind ≠ .newlines) (hj : j ≤ n.span.start) : (f.push n).Spans source n.span.stop := by
  have hitems : ∀ {items : List Node} {i}, Node.Stretch source i items.reverse j →
      Node.Stretch source i (n :: items).reverse n.span.stop := by
    intro items i hitems
    rw [List.reverse_cons]
    exact hitems.append (.single hj hn hvalue)
  cases f with
  | sexpr | list | clob => exact ⟨h.1, hitems h.2⟩
  | struct o a items phase =>
    cases phase with
    | between ready => rcases hf with hf | hf <;> contradiction
    | afterKey key rev => rcases hf with hf | hf <;> contradiction
    | afterColon key rev =>
      obtain ⟨ns, hrev, hkey, hkind, hitems, hns⟩ := h.2
      obtain ⟨hmember, hspan⟩ := image_member hrev hkey hkind hns hn hvalue hj
      refine ⟨h.1, ?_⟩
      show Node.Stretch source o.span.stop (Node.ofMember key n rev :: items).reverse n.span.stop
      have hsingle := Node.Stretch.single (Int.le_of_eq (congrArg Span.start hspan).symm) hmember (by simp [Node.ofMember])
      rw [List.reverse_cons]
      rw [hspan] at hsingle
      exact hitems.append hsingle

theorem Spans.comma (h : f.Spans source j) (hg : f.afterComma? = some g) :
    g.Spans source j ∧ g.opening = f.opening := by
  unfold afterComma? at hg
  split at hg
  · cases hg
    exact ⟨h, rfl⟩
  · cases hg
    exact ⟨h, rfl⟩
  · contradiction

/-- A form that is closed covers its items and its delimiters. -/
theorem Spans.form (h : f.Spans source j) (ht : t.Faithful source) (hclosing : f.closing? = some t.type)
    (hj : j ≤ t.span.start) :
    let n := Node.ofForm f.kind f.annotations f.opening t f.items
    n.Image source ∧ n.span = ⟨f.opening.span.start, t.span.stop⟩ ∧ n.kind = f.kind := by
  have hmember : f.member? = none := by
    unfold closing? at hclosing
    split at hclosing <;> first | rfl | contradiction
  have hrow : Node.Stretch source f.opening.span.stop f.items.reverse j := by
    have := h.2
    rwa [hmember] at this
  have hclose : t.span.text? source = some (utf8 f.kind.closing) := by
    apply ht.fixed
    unfold closing? at hclosing
    split at hclosing
    case h_4 => contradiction
    all_goals
      rw [← Option.some.inj hclosing]
      simp [kind, Kind.closing, fixedSpellings]
  have hoin := Span.liesIn_of_text? h.1
  have htin := ht.liesIn
  have hle := hrow.le
  have hjoin : f.opening.span.join t.span = ⟨f.opening.span.start, t.span.stop⟩ := by
    unfold Span.LiesIn at hoin htin
    simp only [Span.join]
    congr 1 <;> omega
  obtain ⟨body, hbody⟩ := Span.text?_join h.1 hclose (by omega)
  have hspan : ∀ as, (Node.ofForm f.kind as f.opening t f.items).span =
      ⟨f.opening.span.start, t.span.stop⟩ := by
    intro as
    rw [Node.ofForm, Node.span_annotated]
    exact hjoin
  refine ⟨?_, hspan _, ?_⟩
  · refine Node.Image.annotated (Node.image_of_items ⟨?_, ?_, ?_, hrow.siblings⟩ hrow.image) _
    · exact Span.liesIn_of_text? hbody
    · cases f <;> exact ⟨body, hbody⟩
    · intro m hm
      have := hrow.within m hm
      show (f.opening.span.join t.span).start ≤ _ ∧ _ ≤ (f.opening.span.join t.span).stop
      rw [hjoin]
      unfold Span.LiesIn at hoin htin
      dsimp only
      omega
  · rw [Node.ofForm, Node.kind_annotated]

/-- The open forms lie one after the other, the innermost up to an offset, and before them the
finished nodes. -/
def Stack (source : Text) (done : List Node) : List Frame → Int → Prop
  | [], j => Node.Stretch source 0 done.reverse j
  | f :: fs, j => f.Spans source j ∧ Stack source done fs f.opening.span.start

theorem Stack.mono {done : List Node} {fs : List Frame} (h : Stack source done fs j) (hjk : j ≤ k) :
    Stack source done fs k := by
  cases fs with
  | nil => exact Node.Stretch.mono h hjk
  | cons f fs => exact ⟨h.1.mono hjk, h.2⟩

end Frame

namespace Reading

/-- What is read lies in the source up to an offset. -/
def Spans (source : Text) (r : Reading) (j : Int) : Prop := Frame.Stack source r.done r.frames j

variable {r r' : Reading} {t : Token} {n : Node} {ns : List Node} {i j k : Int}

theorem Spans.deliver (h : r.Spans source j)
    (hhead : ∀ f, r.frames.head? = some f → f.hasPlace = true ∨ f.kind = .clob) (hn : n.Image source)
    (hvalue : n.kind ≠ .newlines) (hj : j ≤ n.span.start) : (r.deliver n).Spans source n.span.stop := by
  unfold Spans Reading.deliver at *
  cases hfs : r.frames with
  | nil =>
    rw [hfs] at h
    show Node.Stretch source 0 (n :: r.done).reverse n.span.stop
    rw [List.reverse_cons]
    exact Node.Stretch.append h (.single hj hn hvalue)
  | cons f fs =>
    rw [hfs] at h hhead
    have hopening : (f.push n).opening = f.opening := by
      cases f with
      | struct o a items phase => cases phase <;> rfl
      | _ => rfl
    refine ⟨h.1.push (hhead f rfl) hn hvalue hj, ?_⟩
    rw [hopening]
    exact h.2

theorem Spans.keep (h : r.Spans source j) (hns : Node.Stretch source j ns k) :
    (r.keep ns).Spans source k := by
  unfold Spans Reading.keep at *
  cases hfs : r.frames with
  | nil =>
    rw [hfs] at h
    show Node.Stretch source 0 (ns.reverse ++ r.done).reverse k
    rw [List.reverse_append, List.reverse_reverse]
    exact Node.Stretch.append h hns
  | cons f fs =>
    rw [hfs] at h
    have hopening : (f.keep ns).opening = f.opening := by
      cases f with
      | struct o a items phase => cases phase <;> rfl
      | _ => rfl
    refine ⟨h.1.keep hns, ?_⟩
    rw [hopening]
    exact h.2

/-- A step reads on from the start of its token to the end of it. -/
theorem Step.spans (h : r.Step t r') (hs : r.Stacked) (hr : r.Spans source t.span.start)
    (ht : t.Faithful source) : r'.Spans source t.span.stop := by
  have hle : t.span.start ≤ t.span.stop := ht.liesIn.2.1
  cases h with
  | annotate | blank => exact Frame.Stack.mono hr hle
  | @scalar n hplace hn =>
    obtain ⟨himage, hspan, hkind⟩ := ht.scalar hn
    have hannotated : (n.annotated r.annotations).span = t.span := by rw [Node.span_annotated, hspan]
    have hdeliver := hr.deliver (fun f hf => .inl (hplace.head hs f hf)) (himage.annotated r.annotations)
      (by rwa [Node.kind_annotated]) (Int.le_of_eq (congrArg Span.start hannotated.symm))
    rwa [hannotated] at hdeliver
  | @opening f hplace hf =>
    unfold Frame.opened? at hf
    have hopens : ∀ {s : String} {type : TokenType}, t.type = type → (type, s.toList) ∈ fixedSpellings →
        t.span.text? source = some (utf8 s) := by
      intro s type htype hs
      exact ht.fixed (by rwa [htype])
    split at hf
    case h_5 => contradiction
    all_goals
      rename_i htype
      cases hf
      refine ⟨⟨hopens htype ?_, .nil (Int.le_refl _)⟩, hr⟩
      simp [Frame.kind, Kind.opening, fixedSpellings]
  | trivia hp hc hn => exact hr.keep (ht.trivia hn)
  | clobString hp hfs htype hn =>
    obtain ⟨himage, hspan, hkind⟩ := ht.scalar hn
    have hdeliver := hr.deliver (fun f hf => by rw [hfs] at hf; cases hf; exact .inr rfl) himage hkind
      (Int.le_of_eq (congrArg Span.start hspan.symm))
    rwa [hspan] at hdeliver
  | @closing f fs hp hfs hclosing =>
    unfold Spans at hr
    rw [hfs] at hr
    obtain ⟨himage, hspan, hkind⟩ := hr.1.form ht hclosing (Int.le_refl _)
    have hrest : Spans source { r with frames := fs } f.opening.span.start := hr.2
    have hdeliver := hrest.deliver (fun g hg => .inl (hs.inner hfs g (List.mem_of_mem_head? hg))) himage
      (by rw [hkind]; cases f <;> simp [Frame.kind]) (Int.le_of_eq (congrArg Span.start hspan).symm)
    rwa [hspan] at hdeliver
  | comma hp hfs hg htype =>
    unfold Spans at hr
    rw [hfs] at hr
    obtain ⟨hspans, hopening⟩ := hr.1.comma hg
    refine ⟨hspans.mono hle, ?_⟩
    rw [hopening]
    exact hr.2
  | key hp hfs htype =>
    unfold Spans at hr
    rw [hfs] at hr
    refine ⟨⟨hr.1.1, [], rfl, Node.image_leaf ht.liesIn ht.covers, rfl, hr.1.2, .nil (Int.le_refl _)⟩, hr.2⟩
  | colon hp hfs htype =>
    unfold Spans at hr
    rw [hfs] at hr
    have hspans := hr.1.mono hle
    exact ⟨⟨hspans.1, hspans.2⟩, hr.2⟩

theorem Steps.spans {ts : List Token} (h : r.Steps ts r') (hs : r.Stacked) (hr : r.Spans source i)
    (htiles : Tiles source i ts j) (hts : ∀ t ∈ ts, t.Faithful source) : r'.Spans source j := by
  induction h generalizing i with
  | nil =>
    cases htiles
    exact hr
  | cons h _ ih =>
    cases htiles with
    | cons hne hcovers hrest =>
      exact ih (h.stacked hs) (h.spans hs hr (hts _ (by simp))) hrest
        fun u hu => hts u (List.mem_cons_of_mem _ hu)

theorem Steps.readable {ts : List Token} (h : r.Steps ts r') :
    ∀ t ∈ ts, t.type ∉ [TokenType.eof, .error, .invalid] := by
  induction h with
  | nil => simp
  | cons h _ ih => exact List.forall_mem_cons.mpr ⟨h.readable, ih⟩

end Reading

theorem Token.Scan.faithful {c : LexContext} {owes : Bool} {ts : List Token} {i j : Int}
    (h : Token.Scan c owes ts) (htiles : Tiles source i ts j) (hts : ∀ t ∈ ts, t.type ≠ .error) :
    ∀ t ∈ ts, t.Faithful source := by
  induction h generalizing i with
  | done => simp
  | fault c owes ht => exact absurd ht (hts _ (by simp))
  | @token c owes t ts ht hclob h ih =>
    cases htiles with
    | cons hne hcovers hrest =>
      refine List.forall_mem_cons.mpr ⟨⟨hcovers, ?_⟩, ih hrest fun u hu => hts u (List.mem_cons_of_mem _ hu)⟩
      cases hc : c.inClob with
      | false =>
        obtain ⟨w, hw⟩ := ht.outside hc
        exact ⟨_, w, hw⟩
      | true =>
        obtain ⟨-, w, hw⟩ := ht.inside hc
        exact ⟨_, w, hw⟩

/-- The tokens of a program lie in its source, and are read one by one. -/
theorem steps_of_parse {file : Text} {nodes : List Node} (h : parse file source = .ok nodes) :
    ∃ ts r, ts = (TokenStream.ofSource file source).tokens ∧ Tiles source 0 ts source.length ∧
      (∀ t ∈ ts, t.Faithful source) ∧ Reading.Steps {} ts r ∧ r.isIdle = true ∧ nodes = r.done.reverse := by
  obtain ⟨words, hscanned⟩ := TokenStream.ofSource_scanned file source
  have hscan := TokenStream.ofSource_scan file source
  have hends := hscanned.ends
  have heof : ∀ t ∈ (TokenStream.ofSource file source).tokens, t.type ≠ .eof := by
    intro t ht
    rcases hends with ⟨hwords, -⟩ | ⟨fault, reach, hwords, hfault, -⟩ <;> rw [hwords] at ht
    · exact (hscanned.isWord t ht).1
    · rcases List.mem_append.mp ht with ht | ht
      · exact (hscanned.isWord t ht).1
      · rw [List.mem_singleton.mp ht, hfault]
        decide
  obtain ⟨r, hsteps, hidle, hnodes⟩ := (Reading.program_iff hscanned.last_type heof).mp h
  have hreadable := hsteps.readable
  -- a fault cannot be read
  have htiles : Tiles source 0 (TokenStream.ofSource file source).tokens source.length := by
    rcases hends with ⟨hwords, htiles⟩ | ⟨fault, reach, hwords, hfault, -⟩
    · rw [hwords]
      exact htiles
    · have := hreadable fault (by rw [hwords]; simp)
      rw [hfault] at this
      exact absurd (by decide) this
  have herror : ∀ t ∈ (TokenStream.ofSource file source).tokens, t.type ≠ .error := by
    intro t ht herr
    have := hreadable t ht
    rw [herr] at this
    exact absurd (by decide) this
  exact ⟨_, r, rfl, htiles, hscan.faithful htiles herror, hsteps, hidle, hnodes⟩

/-- The tree of a program is an image of its source: its nodes, and the items of every node in it,
lie one after the other, each in its place and over its text. -/
theorem parse_faithful {file source : Text} {nodes : List Node} (h : parse file source = .ok nodes) :
    Node.Siblings source nodes ∧ ∀ n ∈ nodes, ∀ m, n.Below m → m.Faithful source := by
  obtain ⟨ts, r, -, htiles, hts, hsteps, hidle, rfl⟩ := steps_of_parse h
  have hspans : r.Spans source source.length := hsteps.spans .start (.nil (Int.le_refl 0)) htiles hts
  have hidle : r.frames = [] ∧ r.pending = none := by simpa [Reading.isIdle] using hidle
  unfold Reading.Spans at hspans
  rw [hidle.1] at hspans
  have hrow : Node.Stretch source 0 r.done.reverse source.length := hspans
  exact ⟨hrow.siblings, hrow.image⟩

theorem parse_faithful_struct : ∃ nodes, parse [] (utf8 "\x7bk: [1, \"b\"]\x7d // c\n") = .ok nodes ∧
    Node.Siblings (utf8 "\x7bk: [1, \"b\"]\x7d // c\n") nodes ∧ ∀ n ∈ nodes, ∀ m, n.Below m →
      m.Faithful (utf8 "\x7bk: [1, \"b\"]\x7d // c\n") := by
  cases hnodes : parse [] (utf8 "\x7bk: [1, \"b\"]\x7d // c\n") with
  | error e =>
    have hok : (parse [] (utf8 "\x7bk: [1, \"b\"]\x7d // c\n")).isOk = true := by decide +kernel
    rw [hnodes] at hok
    contradiction
  | ok nodes => exact ⟨nodes, rfl, parse_faithful hnodes⟩

end FusionKit
