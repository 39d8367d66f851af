import FusionKit.Proofs.Trees

/-!
# Symbols that are read as one

In an s-expression that is headed by a pipe no space stands behind that pipe, nor in front of the
pipes after it. Where an operator character stands next to a pipe there, the two are read as one
symbol: this is told by `hear`, the tree that is heard when a tree is printed.

Everything but the values at a pipe is heard as it is, and trees without s-expressions that are
headed by a pipe are heard as they are.
-/
set_option autoImplicit false

namespace FusionKit

open Lexeme (Spelling IsOperatorWord isOperator operatorRun operatorRun_cons operatorRun_eq_length)
open Numeral (isDecimal)

namespace Node

/-- Whether a node is an operator symbol. -/
def isOperator (n : Node) : Bool := n.kind == .symbol && nameType n.value.chars == .operator

/-- Whether a node is a number with a minus sign. -/
def isNegative (n : Node) : Bool :=
  (n.kind == .integer || n.kind == .real) && n.value.chars.head? == some '-'

/-- Whether a node has no annotations. -/
def isBare (n : Node) : Bool := n.label.annotations.isEmpty

/-- A node whose value goes on with a text. -/
def extended (n : Node) (t : Text) : Node := ⟨{ n.label with value := n.value ++ t }, n.items⟩

/-- A number without its minus sign. -/
def unsigned (n : Node) : Node := ⟨{ n.label with value := .ofChars n.value.chars.tail }, n.items⟩

/-- The items behind a pipe: operators are read together with the pipes behind them. -/
def tighten : List Node → List Node
  | n :: m :: ns =>
    if m.isPipe && n.isOperator && !n.isPipe then n.extended m.value :: tighten ns
    else n :: tighten (m :: ns)
  | ns => ns

/-- The items of an s-expression: a pipe at the head is read together with an operator or a minus
sign behind it. -/
def fuse : List Node → List Node
  | p :: n :: ns =>
    if !p.isPipe then p :: n :: ns
    else if !n.isBare then p :: tighten (n :: ns)
    else if n.isPipe then p.extended n.value :: tighten ns
    else if n.isOperator then tighten (p.extended n.value :: ns)
    else if n.isNegative then p.extended (utf8 "-") :: tighten (n.unsigned :: ns)
    else p :: tighten (n :: ns)
  | ns => ns

mutual

/-- The tree that is heard when a tree is printed. -/
def hear : Node → Node
  | ⟨label, items⟩ => ⟨label, if label.kind = .sexpr then fuse (hearAll items) else hearAll items⟩

/-- The trees that are heard when some trees are printed. -/
def hearAll : List Node → List Node
  | [] => []
  | n :: ns => hear n :: hearAll ns

end

variable {n m : Node} {ns : List Node} {S : Breadth} {s t : Slot}

@[simp] theorem extended_nil (n : Node) : n.extended [] = n := by
  obtain ⟨label, items⟩ := n
  simp [extended, value]

@[simp] theorem extended_extended (n : Node) (t u : Text) :
    (n.extended t).extended u = n.extended (t ++ u) := by
  simp [extended, value]

/-! ## What the labels tell -/

@[simp] theorem label_hear (n : Node) : n.hear.label = n.label := by
  obtain ⟨label, items⟩ := n
  rw [hear]

theorem hearAll_eq_map (ns : List Node) : hearAll ns = ns.map hear := by
  induction ns with
  | nil => rfl
  | cons n ns ih => rw [hearAll, ih, List.map_cons]

@[simp] theorem hear_leaf (l : Label) : hear ⟨l, []⟩ = ⟨l, []⟩ := by
  rw [hear]
  split <;> rfl

theorem hear_newlineRun (k : Nat) (span : Span) : hear (newlineRun k span) = newlineRun k span :=
  hear_leaf _

theorem hear_lineComment (v : Text) (span : Span) : hear (lineComment v span) = lineComment v span :=
  hear_leaf _

theorem hear_blockComment (ls : List Text) (span : Span) :
    hear (blockComment ls span) = blockComment ls span := hear_leaf _

theorem hear_structKey (v : Text) (span : Span) : hear (structKey v span) = structKey v span :=
  hear_leaf _

theorem isValue_hear (n : Node) : n.hear.isValue = n.isValue := by
  unfold isValue isContent isComment isNewlines isStructKey kind
  rw [label_hear]

theorem isContent_hear (n : Node) : n.hear.isContent = n.isContent := by
  unfold isContent isComment isNewlines kind
  rw [label_hear]

theorem isPipe_hear (n : Node) : n.hear.isPipe = n.isPipe := isPipe_of_label (label_hear n)

theorem isOperator_hear (n : Node) : n.hear.isOperator = n.isOperator := by
  unfold isOperator kind value
  rw [label_hear]

theorem isNegative_hear (n : Node) : n.hear.isNegative = n.isNegative := by
  unfold isNegative kind value
  rw [label_hear]

theorem any_isValue_hearAll (ns : List Node) : (hearAll ns).any isValue = ns.any isValue := by
  rw [hearAll_eq_map, List.any_map]
  congr 1
  exact funext isValue_hear

theorem isOperator_of_isPipe (h : n.isPipe = true) : n.isOperator = true := by
  unfold isPipe symbol? at h
  split at h
  · rename_i hk
    have hv : n.value = utf8 "|" := by simpa using h
    rw [isOperator, hk, hv]
    decide
  · simp at h

theorem isContent_of_isOperator (h : n.isOperator = true) : n.isContent = true := by
  simp only [isOperator, Bool.and_eq_true, beq_iff_eq] at h
  simp [isContent, isComment, isNewlines, h.1, Kind.isComment]

theorem kind_of_isOperator (h : n.isOperator = true) : n.kind ≠ .multilineString := by
  intro hk
  simp [isOperator, hk] at h

theorem isContent_of_isNegative (h : n.isNegative = true) : n.isContent = true := by
  simp only [isNegative, Bool.and_eq_true, Bool.or_eq_true, beq_iff_eq] at h
  rcases h.1 with hk | hk <;> simp [isContent, isComment, isNewlines, hk, Kind.isComment]

/-! ## Rows of heard items -/

theorem tighten_cons_of_not_isOperator (h : n.isOperator = false) (ns : List Node) :
    tighten (n :: ns) = n :: tighten ns := by
  cases ns with
  | nil => rfl
  | cons m ns => simp [tighten, h]

theorem tighten_cons_of_isPipe (h : n.isPipe = true) (ns : List Node) :
    tighten (n :: ns) = n :: tighten ns := by
  cases ns with
  | nil => rfl
  | cons m ns => simp [tighten, h]

theorem tighten_cons_of_next (h : ∀ m, ns.head? = some m → m.isPipe = false) :
    tighten (n :: ns) = n :: tighten ns := by
  cases ns with
  | nil => rfl
  | cons m ns => simp [tighten, h m rfl]

theorem tighten_join (hm : m.isPipe = true) (hn : n.isOperator = true) (hp : n.isPipe = false)
    (ns : List Node) : tighten (n :: m :: ns) = n.extended m.value :: tighten ns := by
  simp [tighten, hm, hn, hp]

/-- An item stays as it is, or it is an operator and read together with the pipe behind it. -/
theorem tighten_cases (n : Node) (ns : List Node) :
    tighten (n :: ns) = n :: tighten ns ∨
      ∃ m ms, ns = m :: ms ∧ m.isPipe = true ∧ n.isOperator = true ∧ n.isPipe = false := by
  cases ns with
  | nil => exact .inl rfl
  | cons m ms =>
    by_cases hjoin : m.isPipe = true ∧ n.isOperator = true ∧ n.isPipe = false
    · exact .inr ⟨m, ms, rfl, hjoin⟩
    · left
      rw [tighten, if_neg]
      simpa [and_assoc] using hjoin

theorem length_tighten_le (ns : List Node) : (tighten ns).length ≤ ns.length := by
  fun_induction tighten ns with
  | case1 n m ns _ ih =>
    simp only [List.length_cons]
    omega
  | case2 n m ns _ ih =>
    simp only [List.length_cons] at ih ⊢
    omega
  | case3 => exact Nat.le_refl _

/-- What is read together has no items either. -/
theorem tighten_leaves (h : ∀ n ∈ ns, n.items = []) : ∀ n ∈ tighten ns, n.items = [] := by
  fun_induction tighten ns with
  | case1 n m ns _ ih =>
    exact List.forall_mem_cons.mpr ⟨h n (by simp), ih fun k hk => h k (by simp [hk])⟩
  | case2 n m ns _ ih =>
    exact List.forall_mem_cons.mpr ⟨h n (by simp), ih fun k hk => h k (List.mem_cons_of_mem _ hk)⟩
  | case3 => exact h

theorem fuse_leaves (h : ∀ n ∈ ns, n.items = []) : ∀ n ∈ fuse ns, n.items = [] := by
  match ns, h with
  | [], h => exact h
  | [p], h => exact h
  | p :: n :: ns, h =>
    obtain ⟨hp, hrest⟩ := List.forall_mem_cons.mp h
    obtain ⟨hn, hns⟩ := List.forall_mem_cons.mp hrest
    have hextended : ∀ t, (p.extended t).items = [] := fun _ => hp
    rw [fuse]
    split_ifs
    · exact h
    · exact List.forall_mem_cons.mpr ⟨hp, tighten_leaves hrest⟩
    · exact List.forall_mem_cons.mpr ⟨hextended _, tighten_leaves hns⟩
    · exact tighten_leaves (List.forall_mem_cons.mpr ⟨hextended _, hns⟩)
    · exact List.forall_mem_cons.mpr
        ⟨hextended _, tighten_leaves (List.forall_mem_cons.mpr ⟨(show n.unsigned.items = [] from hn), hns⟩)⟩
    · exact List.forall_mem_cons.mpr ⟨hp, tighten_leaves hrest⟩

end Node

theorem ClobString.hear {n : Node} (h : ClobString n) : n.hear = n := by
  cases h <;> exact Node.hear_leaf _

/-! ## Operators next to pipes -/

namespace Lexeme

theorem operatorRun_append_pipe {cs : List Char} (h : operatorRun (Glyph.ofChars cs) = cs.length) :
    operatorRun (Glyph.ofChars (cs ++ ['|'])) = cs.length + 1 := by
  induction cs with
  | nil => rfl
  | cons c cs ih =>
    obtain ⟨hc, hrun, hslash⟩ := operatorRun_eq_length h
    rw [List.cons_append, Glyph.ofChars_cons, operatorRun_cons hc, ih hrun, List.length_cons]
    intro hs
    have := hslash hs
    cases cs with
    | nil => simp
    | cons d ds => simpa using this

theorem IsOperatorWord.append_pipe {v : List Char} (h : IsOperatorWord v) : IsOperatorWord (v ++ ['|']) := by
  obtain ⟨c, cs, rfl, hc, hrun, hslash⟩ := h
  refine ⟨c, cs ++ ['|'], rfl, hc, ?_, fun hs => ?_⟩
  · rw [operatorRun_append_pipe hrun, List.length_append]
    rfl
  · have := hslash hs
    cases cs with
    | nil => simp
    | cons d ds => simpa using this

theorem IsOperatorWord.cons_pipe {v : List Char} (h : IsOperatorWord v) : IsOperatorWord ('|' :: v) := by
  obtain ⟨c, cs, rfl, hc, hrun, hslash⟩ := h
  refine ⟨'|', c :: cs, rfl, by decide, ?_, fun h => absurd h (by decide)⟩
  rw [Glyph.ofChars_cons, operatorRun_cons hc, hrun, List.length_cons]
  intro hs
  have := hslash hs
  cases cs with
  | nil => simp
  | cons d ds => simpa using this

theorem isOperatorWord_pipe : IsOperatorWord ['|'] :=
  ⟨'|', [], rfl, by decide, rfl, fun h => absurd h (by decide)⟩

theorem isOperatorWord_minus : IsOperatorWord ['-'] :=
  ⟨'-', [], rfl, by decide, rfl, fun h => absurd h (by decide)⟩

end Lexeme

namespace LaidIn

variable {S : Breadth} {b : Bool} {n p : Node}

theorem of_isOperator (h : LaidIn S b n) (hn : n.isOperator = true) : ∃ v span as,
    n = ⟨{ kind := .symbol, span, annotations := as, value := Text.ofChars v }, []⟩ ∧
      IsOperatorWord v ∧ b = true ∧ AnnotationTexts as := by
  simp only [Node.isOperator, Bool.and_eq_true, beq_iff_eq] at hn
  obtain ⟨hk, hname⟩ := hn
  cases h with
  | scalar h =>
    cases h with
    | @word type kind w span as hk' hw ha =>
      obtain rfl : kind = .symbol := hk
      have htype := wordType_of_wordKinds hw hk'
      obtain rfl : TokenType.operator = type := hname.symm.trans htype
      exact ⟨w, span, as, rfl, (spelling_operator hw).1, (spelling_operator hw).2, ha⟩
    | string | long | blob => contradiction
  | list | sexpr | struct | clob => contradiction

theorem of_isPipe (h : LaidIn S b p) (hp : p.isPipe = true) : ∃ span as,
    p = ⟨{ kind := .symbol, span, annotations := as, value := Text.ofChars ['|'] }, []⟩ ∧
      b = true ∧ AnnotationTexts as := by
  obtain ⟨v, span, as, rfl, -, hb, ha⟩ := h.of_isOperator (Node.isOperator_of_isPipe hp)
  have hv : Text.ofChars v = utf8 "|" := by simpa [Node.isPipe, Node.symbol?] using hp
  exact ⟨span, as, by rw [hv]; rfl, hb, ha⟩

theorem of_isNegative (h : LaidIn S b n) (hn : n.isNegative = true) : ∃ type kind v span as,
    n = ⟨{ kind, span, annotations := as, value := Text.ofChars ('-' :: v) }, []⟩ ∧
      (type, kind) ∈ wordKinds ∧ kind ≠ .symbol ∧ Spelling b type v ∧
      (∃ d ds, v = d :: ds ∧ isDecimal d = true) ∧ AnnotationTexts as := by
  simp only [Node.isNegative, Bool.and_eq_true, Bool.or_eq_true, beq_iff_eq] at hn
  obtain ⟨hk, hhead⟩ := hn
  cases h with
  | scalar h =>
    cases h with
    | @word type kind w span as hk' hw ha =>
      have hk : kind = .integer ∨ kind = .real := hk
      have htype : type ∈ [TokenType.int, .real, .timestamp] := by
        simp only [wordKinds, List.mem_cons, Prod.mk.injEq, List.not_mem_nil, or_false] at hk' ⊢
        rcases hk with rfl | rfl
        · exact .inl (by simpa using hk')
        · exact .inr (.inl (by simpa using hk'))
      have hhead : (Text.ofChars w).chars.head? = some '-' := hhead
      rw [Text.chars_ofChars] at hhead
      obtain ⟨v, rfl⟩ : ∃ v, w = '-' :: v := by
        cases w with
        | nil => simp at hhead
        | cons c v => exact ⟨v, by simpa using hhead⟩
      have hnumeral := spelling_numeral hw htype
      refine ⟨type, kind, v, span, as, rfl, hk', ?_, .numeral htype (Numeral.longest?_unsigned hnumeral),
        Numeral.signed_starts hnumeral, ha⟩
      rcases hk with rfl | rfl <;> simp
    | string | long | blob =>
      rcases hk with hk | hk <;> contradiction
  | list | sexpr | struct | clob =>
    rcases hk with hk | hk <;> contradiction

theorem isOperatorWord (h : LaidIn S b n) (hn : n.isOperator = true) {v : List Char}
    (hv : n.value = Text.ofChars v) : IsOperatorWord v := by
  obtain ⟨w, span, as, rfl, hw, -⟩ := h.of_isOperator hn
  obtain rfl : w = v := Text.ofChars_injective hv
  exact hw

theorem unsigned_word (kind : Kind) (span : Span) (as : List Text) (v : List Char) :
    Node.unsigned ⟨{ kind, span, annotations := as, value := Text.ofChars ('-' :: v) }, []⟩ =
      ⟨{ kind, span, annotations := as, value := Text.ofChars v }, []⟩ := by
  unfold Node.unsigned Node.value
  rw [Text.chars_ofChars]
  rfl

theorem unsigned (h : LaidIn S b n) (hn : n.isNegative = true) : LaidIn .all b n.unsigned := by
  obtain ⟨type, kind, v, span, as, rfl, hk, -, hv, -, ha⟩ := h.of_isNegative hn
  rw [unsigned_word]
  exact .scalar (.word hk hv ha)

/-- An operator may go on with what keeps it an operator. -/
theorem extended (h : LaidIn S true n) (hn : n.isOperator = true) {w : List Char}
    (hw : ∀ v, n.value = Text.ofChars v → IsOperatorWord (v ++ w)) :
    LaidIn .all true (n.extended (Text.ofChars w)) := by
  obtain ⟨v, span, as, rfl, hv, -, ha⟩ := h.of_isOperator hn
  have hword : LaidScalar .all true
      { kind := .symbol, span, annotations := as, value := Text.ofChars (v ++ w) } :=
    .word (show (TokenType.operator, Kind.symbol) ∈ wordKinds by simp [wordKinds])
      (.operator (hw v rfl) rfl) ha
  rw [Text.ofChars_append] at hword
  exact .scalar hword

end LaidIn

namespace LaidRow

variable {V : Bool → Node → Prop} {n : Node} {ns : List Node} {s t : Slot}

/-- A row of an s-expression goes on behind its content. -/
theorem uncons (h : LaidRow V .sexpr (n :: ns) t) (hn : n.isContent = true) :
    V true n ∧ LaidRow V .sexpr ns t := by
  cases h with
  | newlines | line | block => contradiction
  | value hs hv h =>
    obtain rfl := Option.some.inj hs
    exact ⟨hv, h⟩

/-- Operators and the pipes behind them stay a row. -/
theorem tighten (h : LaidRow (LaidIn .all) s ns t) (hs : s = .sexpr) :
    LaidRow (LaidIn .all) s (Node.tighten ns) t := by
  induction h with
  | nil s => exact .nil s
  | newlines hk _ ih =>
    rw [Node.tighten_cons_of_not_isOperator rfl]
    exact .newlines hk (ih hs)
  | line hs' hv hk _ ih =>
    rw [Node.tighten_cons_of_not_isOperator rfl, Node.tighten_cons_of_not_isOperator rfl]
    exact .line hs' hv hk (ih hs)
  | block hs' hl _ ih =>
    rw [Node.tighten_cons_of_not_isOperator rfl]
    exact .block hs' hl (ih hs)
  | key | string => contradiction
  | @value s s' t n ns hs' hn h ih =>
    subst hs
    obtain rfl : Slot.sexpr = s' := Option.some.inj hs'
    have ih := ih rfl
    rcases Node.tighten_cases n ns with hstay | ⟨m, ms, rfl, hm, hop, hpipe⟩
    · rw [hstay]
      exact .value rfl hn ih
    · rw [Node.tighten_cons_of_isPipe hm] at ih
      obtain ⟨hlaid, hrest⟩ := ih.uncons (Node.isContent_of_isOperator (Node.isOperator_of_isPipe hm))
      obtain ⟨span, as, rfl, -⟩ := hlaid.of_isPipe hm
      rw [Node.tighten_join hm hop hpipe]
      exact .value rfl (hn.extended hop fun v hv => (hn.isOperatorWord hop hv).append_pipe) hrest

/-- What is read as one symbol leaves the items of an s-expression a row. -/
theorem fuse (h : LaidRow (LaidIn .all) .sexpr ns .sexpr) :
    LaidRow (LaidIn .all) .sexpr (Node.fuse ns) .sexpr := by
  match ns, h with
  | [], h => exact h
  | [p], h => exact h
  | p :: n :: ns, h =>
    rw [Node.fuse]
    by_cases hp : p.isPipe = true
    · obtain ⟨hlaid, hrest⟩ := h.uncons (Node.isContent_of_isOperator (Node.isOperator_of_isPipe hp))
      have hjoin : ∀ {v : List Char}, IsOperatorWord v → LaidIn .all true (p.extended (Text.ofChars v)) := by
        intro v hv
        obtain ⟨span, as, rfl, -⟩ := hlaid.of_isPipe hp
        refine hlaid.extended (Node.isOperator_of_isPipe hp) fun w hw => ?_
        obtain rfl := Text.ofChars_injective hw
        exact hv.cons_pipe
      rw [if_neg (by simp [hp])]
      split_ifs with hbare hpipe hop hneg
      · exact .value rfl hlaid (hrest.tighten rfl)
      · obtain ⟨hn, hns⟩ := hrest.uncons (Node.isContent_of_isOperator (Node.isOperator_of_isPipe hpipe))
        obtain ⟨span, as, rfl, -⟩ := hn.of_isPipe hpipe
        exact .value rfl (hjoin Lexeme.isOperatorWord_pipe) (hns.tighten rfl)
      · obtain ⟨hn, hns⟩ := hrest.uncons (Node.isContent_of_isOperator hop)
        obtain ⟨v, span, as, rfl, hv, -⟩ := hn.of_isOperator hop
        exact LaidRow.tighten (.value rfl (hjoin hv) hns) rfl
      · obtain ⟨hn, hns⟩ := hrest.uncons (Node.isContent_of_isNegative hneg)
        exact .value rfl (hjoin Lexeme.isOperatorWord_minus)
          (LaidRow.tighten (.value rfl (hn.unsigned hneg) hns) rfl)
      · exact .value rfl hlaid (hrest.tighten rfl)
    · rw [if_pos (by simpa using hp)]
      exact h

/-- Heard items are a row if every value is heard as one. -/
theorem hearAll {W : Bool → Node → Prop} (h : LaidRow V s ns t) (hvw : ∀ b n, V b n → W b n.hear) :
    LaidRow W s (Node.hearAll ns) t := by
  induction h with
  | nil s => exact .nil s
  | newlines hk _ ih =>
    rw [Node.hearAll, Node.hear_newlineRun]
    exact .newlines hk ih
  | line hs hv hk _ ih =>
    rw [Node.hearAll, Node.hearAll, Node.hear_newlineRun, Node.hear_lineComment]
    exact .line hs hv hk ih
  | block hs hl _ ih =>
    rw [Node.hearAll, Node.hear_blockComment]
    exact .block hs hl ih
  | key hv _ ih =>
    rw [Node.hearAll, Node.hear_structKey]
    exact .key hv ih
  | value hs hn _ ih =>
    rw [Node.hearAll]
    exact .value hs (hvw _ _ hn) ih
  | string hn _ ih =>
    rw [Node.hearAll, hn.hear]
    exact .string hn ih

end LaidRow

/-- What is heard of a layout tree is one. -/
theorem LaidIn.hear {S : Breadth} {b : Bool} {n : Node} (h : LaidIn S b n) : LaidIn .all b n.hear := by
  refine h.widen.induct (P := fun b n => LaidIn .all b n.hear) ?_ ?_ ?_ ?_ ?_
  · intro b l h
    rw [Node.hear_leaf]
    exact .scalar h
  · intro b span as items ha h
    exact .list ha (h.hearAll fun _ _ h => h.2)
  · intro b span as items ha h _
    exact .sexpr ha (h.hearAll fun _ _ h => h.2).fuse trivial
  · intro b span as items ha h
    exact .struct ha (h.hearAll fun _ _ h => h.2)
  · intro b span as items ha h hs
    refine .clob ha (h.hearAll fun _ _ h => h.2) ?_
    show (Node.hearAll items).any Node.isContent = true
    rwa [Node.hearAll_eq_map, List.any_map, show Node.isContent ∘ Node.hear = Node.isContent from
      funext Node.isContent_hear]

namespace Node

theorem fuse_of_not_isPipe {items : List Node} (h : ∀ p, items.head? = some p → p.isPipe = false) :
    fuse items = items := by
  match items, h with
  | [], _ => rfl
  | [p], _ => rfl
  | p :: n :: ns, h =>
    rw [fuse, h p rfl]
    rfl

theorem PipeFree.head {items : List Node} (h : PipeFree items) :
    ∀ p, items.head? = some p → p.isPipe = false := by
  intro p hp
  cases items with
  | nil => simp at hp
  | cons n ns =>
    obtain rfl := Option.some.inj hp
    by_contra hpipe
    rw [Bool.not_eq_false] at hpipe
    have hcontent := isContent_of_isOperator (isOperator_of_isPipe hpipe)
    rw [h n (by simp [hcontent])] at hpipe
    contradiction

end Node

/-- Items are heard as they are if the values among them are. -/
theorem LaidRow.hearAll_eq {s t : Slot} {items : List Node}
    (h : LaidRow (fun _ n => n.hear = n) s items t) : Node.hearAll items = items := by
  induction h with
  | nil => rfl
  | newlines _ _ ih => rw [Node.hearAll, Node.hear_newlineRun, ih]
  | line _ _ _ _ ih =>
    rw [Node.hearAll, Node.hearAll, Node.hear_newlineRun, Node.hear_lineComment, ih]
  | block _ _ _ ih => rw [Node.hearAll, Node.hear_blockComment, ih]
  | key _ _ ih => rw [Node.hearAll, Node.hear_structKey, ih]
  | value _ hn _ ih => rw [Node.hearAll, hn, ih]
  | string hn _ ih => rw [Node.hearAll, hn.hear, ih]

/-- A tree without s-expressions that are headed by a pipe is heard as it is. -/
theorem Laid.hear_eq {b : Bool} {n : Node} (h : Laid b n) : n.hear = n := by
  have hall : ∀ {s t : Slot} {items : List Node},
      LaidRow (fun b n => Laid b n ∧ n.hear = n) s items t → Node.hearAll items = items :=
    fun h => (h.mono fun _ _ h => h.2).hearAll_eq
  refine h.induct (P := fun _ n => n.hear = n) ?_ ?_ ?_ ?_ ?_
  · exact fun _ l _ => Node.hear_leaf l
  · intro b span as items _ h
    rw [Node.hear, hall h]
    rfl
  · intro b span as items _ h hp
    rw [Node.hear, hall h, Node.fuse_of_not_isPipe (Node.PipeFree.head hp)]
    rfl
  · intro b span as items _ h
    rw [Node.hear, hall h]
    rfl
  · intro b span as items _ h _
    rw [Node.hear, hall h]
    rfl

end FusionKit
