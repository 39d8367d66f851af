import FusionKit.Layout.Print
import FusionKit.Proofs.Words

/-!
# Well-formed layout trees

The layout trees that sources have, said as a grammar: which texts the scalars hold, what may stand
in which form, and that a line comment owns the line break after it. A row of items leads from one
slot to another; a struct is a row in which keys and values take turns.

Beside the grammar stand the two readings of such a tree: the signs that its printed text shows,
and the tree that these signs are read as.
-/
set_option autoImplicit false

namespace FusionKit

open Lexeme (Spelling QuoteBody CommentBody fixedSpellings keyTypes)

/-- What an item of a form may be. -/
inductive Slot where
  | top | list | sexpr
  /-- Between the members of a struct. -/
  | key
  /-- After a key. -/
  | value
  | clob
  deriving DecidableEq, Repr

namespace Slot

/-- The slot after a value, where there may be one. -/
def afterValue? : Slot → Option Slot
  | top => some top
  | list => some list
  | sexpr => some sexpr
  | value => some key
  | key | clob => none

end Slot

/-- The token types of one word each, with the kinds of their nodes. -/
def wordKinds : List (TokenType × Kind) :=
  [(.null, .null), (.bool, .boolean), (.int, .integer), (.real, .real), (.timestamp, .timestamp),
    (.symbol, .symbol), (.quotedSymbol, .symbol), (.operator, .symbol)]

/-- Texts of annotations. -/
def AnnotationTexts (as : List Text) : Prop :=
  ∀ a ∈ as, ∃ w, a = Text.ofChars w ∧ Spelling false .annotate w

/-- The text of a line comment, without its line break. -/
def LineText (v : Text) : Prop :=
  ∃ b, v = Text.ofChars (['/', '/'] ++ b) ∧ (∀ d ∈ b, d ≠ '\n' ∧ d ≠ '\r') ∧ Firm (['/', '/'] ++ b)

/-- The characters of a line of a block comment: they do not close the comment and do not end with
white space. -/
structure CommentLine (w : List Char) : Prop where
  body : CommentBody w
  single : '\n' ∉ w
  last : ∀ c, w.getLast? = some c → isBlank c = false

/-- A line of a block comment. -/
def BlockLine (l : Text) : Prop := ∃ w, l = Text.ofChars w ∧ CommentLine w

/-- The text of a struct key, which loses no blanks. -/
def KeyText (v : Text) : Prop :=
  ∃ type w, v = Text.ofChars w ∧ type ∈ keyTypes ∧ Spelling false type w ∧ settled w = w

/-- Items from which no s-expression is headed by a pipe. -/
def Node.PipeFree (items : List Node) : Prop :=
  ∀ n, items.find? isContent = some n → n.isPipe = false

/-- Items of an s-expression whose pipes have no annotations but for the one at its head. -/
def Node.BarePipes (items : List Node) : Prop :=
  ∀ p ps, items.filter isContent = p :: ps → p.isPipe = true →
    ∀ m ∈ ps, m.isPipe = true → m.label.annotations = []

theorem Node.isPipe_of_label {m n : Node} (h : m.label = n.label) : m.isPipe = n.isPipe := by
  unfold isPipe symbol? kind value
  rw [h]

/-- What the layout trees of a kind may have: long strings or not, and which s-expressions. -/
structure Breadth where
  long : Prop
  heads : List Node → Prop
  /-- Which items an s-expression may have is told by the labels of its content. -/
  heads_of_labels : ∀ {ns ms : List Node},
    (ms.filter Node.isContent).map Node.label = (ns.filter Node.isContent).map Node.label →
      heads ns → heads ms

namespace Breadth

/-- No long strings, and no s-expression that is headed by a pipe. -/
def plain : Breadth where
  long := False
  heads := Node.PipeFree
  heads_of_labels {ns ms} h hp m hm := by
    rw [← List.head?_filter] at hm
    have hlabel : ((ns.filter Node.isContent).map Node.label).head? = some m.label := by
      rw [← h, List.head?_map, hm]
      rfl
    rw [List.head?_map, List.head?_filter, Option.map_eq_some_iff] at hlabel
    obtain ⟨n, hn, hmn⟩ := hlabel
    rw [Node.isPipe_of_label hmn.symm, hp n hn]

/-- S-expressions with bare pipes, and maybe long strings. -/
def piped (long : Prop) : Breadth where
  long := long
  heads := Node.BarePipes
  heads_of_labels {ns ms} h hp q qs hqs hq m hm hpipe := by
    rw [hqs, List.map_cons, eq_comm, List.map_eq_cons_iff] at h
    obtain ⟨p, ps, hps, hqp, hlabels⟩ := h
    have hmem : m.label ∈ ps.map Node.label := hlabels ▸ List.mem_map_of_mem hm
    obtain ⟨n, hn, hmn⟩ := List.mem_map.mp hmem
    rw [← hmn]
    exact hp p ps hps (by rwa [Node.isPipe_of_label hqp]) n hn (by rwa [Node.isPipe_of_label hmn])

/-- Everything. -/
def all : Breadth where
  long := True
  heads _ := True
  heads_of_labels _ _ := trivial

end Breadth

/-- The labels of scalars, directly inside an s-expression or not. -/
inductive LaidScalar (S : Breadth) (inSExpr : Bool) : Label → Prop where
  | word {type : TokenType} {kind : Kind} {w : List Char} {span : Span} {as : List Text}
      (hk : (type, kind) ∈ wordKinds) (hw : Spelling inSExpr type w) (ha : AnnotationTexts as) :
      LaidScalar S inSExpr { kind, span, annotations := as, value := Text.ofChars w }
  | string {w : List Char} {span : Span} {as : List Text} (hw : QuoteBody '"' w)
      (ha : AnnotationTexts as) :
      LaidScalar S inSExpr { kind := .quotedString, span, annotations := as, value := Text.ofChars w }
  /-- Blanks and line breaks at its end would go. -/
  | long {w : List Char} {span : Span} {as : List Text} (hS : S.long) (hw : LongText w)
      (hend : ∀ c, w.getLast? = some c → c ∉ [' ', '\t', '\n']) (ha : AnnotationTexts as) :
      LaidScalar S inSExpr
        { kind := .multilineString, span, annotations := as, value := Text.ofChars w }
  | blob {w : List Char} {span : Span} {as : List Text}
      (hw : BlobText w) (ha : AnnotationTexts as) :
      LaidScalar S inSExpr { kind := .blob, span, annotations := as, value := Text.ofChars w }

/-- A newline run. -/
def Node.newlineRun (n : Nat) (span : Span := ⟨0, 0⟩) : Node :=
  ⟨{ kind := .newlines, span, count := n }, []⟩

/-- A line comment. -/
def Node.lineComment (v : Text) (span : Span := ⟨0, 0⟩) : Node :=
  ⟨{ kind := .commentLine, span, value := v }, []⟩

/-- A block comment. -/
def Node.blockComment (ls : List Text) (span : Span := ⟨0, 0⟩) : Node :=
  ⟨{ kind := .commentBlock, span, lines := ls }, []⟩

/-- A struct key. -/
def Node.structKey (v : Text) (span : Span := ⟨0, 0⟩) : Node :=
  ⟨{ kind := .structKey, span, value := v }, []⟩

/-- The strings of a clob. -/
inductive ClobString : Node → Prop where
  | short {w : List Char} {span : Span} (hw : QuoteBody '"' w) :
      ClobString ⟨{ kind := .quotedString, span, value := Text.ofChars w }, []⟩
  | long {w : List Char} {span : Span} (hw : LongText w) :
      ClobString ⟨{ kind := .multilineString, span, value := Text.ofChars w }, []⟩

/-- Rows of items whose values satisfy `V`, from one slot to another. -/
inductive LaidRow (V : Bool → Node → Prop) : Slot → List Node → Slot → Prop where
  | nil (s : Slot) : LaidRow V s [] s
  | newlines {s t : Slot} {n : Nat} {span : Span} {ns : List Node} (hn : 0 < n)
      (h : LaidRow V s ns t) : LaidRow V s (.newlineRun n span :: ns) t
  | line {s t : Slot} {v : Text} {n : Nat} {span span' : Span} {ns : List Node} (hs : s ≠ .clob)
      (hv : LineText v) (hn : 0 < n) (h : LaidRow V s ns t) :
      LaidRow V s (.lineComment v span :: .newlineRun n span' :: ns) t
  | block {s t : Slot} {ls : List Text} {span : Span} {ns : List Node} (hs : s ≠ .clob)
      (hl : ∀ l ∈ ls, BlockLine l) (h : LaidRow V s ns t) :
      LaidRow V s (.blockComment ls span :: ns) t
  | key {t : Slot} {v : Text} {span : Span} {ns : List Node} (hv : KeyText v)
      (h : LaidRow V .value ns t) : LaidRow V .key (.structKey v span :: ns) t
  | value {s s' t : Slot} {n : Node} {ns : List Node} (hs : s.afterValue? = some s')
      (hn : V (s == .sexpr) n) (h : LaidRow V s' ns t) : LaidRow V s (n :: ns) t
  | string {t : Slot} {n : Node} {ns : List Node} (hn : ClobString n) (h : LaidRow V .clob ns t) :
      LaidRow V .clob (n :: ns) t

/-- What the items of a row may be, wherever they stand in it. -/
inductive RowItem (V : Bool → Node → Prop) : Node → Prop where
  | newlines {n : Nat} {span : Span} (hn : 0 < n) : RowItem V (.newlineRun n span)
  | line {v : Text} {span : Span} (hv : LineText v) : RowItem V (.lineComment v span)
  | block {ls : List Text} {span : Span} (hl : ∀ l ∈ ls, BlockLine l) : RowItem V (.blockComment ls span)
  | key {v : Text} {span : Span} (hv : KeyText v) : RowItem V (.structKey v span)
  | value {b : Bool} {n : Node} (hn : V b n) : RowItem V n
  | string {n : Node} (hn : ClobString n) : RowItem V n

/-- The layout trees of values, directly inside an s-expression or not. Every clob holds a string. -/
inductive LaidIn (S : Breadth) : Bool → Node → Prop where
  | scalar {b : Bool} {l : Label} (h : LaidScalar S b l) : LaidIn S b ⟨l, []⟩
  | list {b : Bool} {span : Span} {as : List Text} {items : List Node} (ha : AnnotationTexts as)
      (h : LaidRow (LaidIn S) .list items .list) :
      LaidIn S b ⟨{ kind := .list, span, annotations := as }, items⟩
  | sexpr {b : Bool} {span : Span} {as : List Text} {items : List Node} (ha : AnnotationTexts as)
      (h : LaidRow (LaidIn S) .sexpr items .sexpr) (hp : S.heads items) :
      LaidIn S b ⟨{ kind := .sexpr, span, annotations := as }, items⟩
  | struct {b : Bool} {span : Span} {as : List Text} {items : List Node} (ha : AnnotationTexts as)
      (h : LaidRow (LaidIn S) .key items .key) :
      LaidIn S b ⟨{ kind := .struct, span, annotations := as }, items⟩
  | clob {b : Bool} {span : Span} {as : List Text} {items : List Node} (ha : AnnotationTexts as)
      (h : LaidRow (LaidIn S) .clob items .clob) (hs : items.any Node.isContent = true) :
      LaidIn S b ⟨{ kind := .clob, span, annotations := as }, items⟩

/-- The layout trees without long strings and s-expressions that are headed by a pipe. -/
abbrev Laid := LaidIn .plain

namespace ClobString

variable {n : Node}

theorem exists_leaf (h : ClobString n) : ∃ l, n = ⟨l, []⟩ := by
  cases h <;> exact ⟨_, rfl⟩

theorem isContent (h : ClobString n) : n.isContent = true := by
  cases h <;> rfl

theorem isNewlines (h : ClobString n) : n.isNewlines = false := by
  cases h <;> rfl

theorem isCompound (h : ClobString n) : n.isCompound = false := by
  cases h <;> rfl

end ClobString

namespace LaidRow

variable {V W : Bool → Node → Prop} {s t u : Slot} {items ns : List Node}

theorem mono_mem (h : LaidRow V s items t) (hvw : ∀ n ∈ items, ∀ b, V b n → W b n) :
    LaidRow W s items t := by
  induction h with
  | nil s => exact .nil s
  | newlines hn _ ih => exact .newlines hn (ih fun n hn => hvw n (by simp [hn]))
  | line hs hv hn _ ih => exact .line hs hv hn (ih fun n hn => hvw n (by simp [hn]))
  | block hs hl _ ih => exact .block hs hl (ih fun n hn => hvw n (by simp [hn]))
  | key hv _ ih => exact .key hv (ih fun n hn => hvw n (by simp [hn]))
  | value hs hn _ ih => exact .value hs (hvw _ (by simp) _ hn) (ih fun n hn => hvw n (by simp [hn]))
  | string hn _ ih => exact .string hn (ih fun n hn => hvw n (by simp [hn]))

theorem rowItem (h : LaidRow V s items t) : ∀ n ∈ items, RowItem V n := by
  induction h with
  | nil => simp
  | newlines hn _ ih => exact List.forall_mem_cons.mpr ⟨.newlines hn, ih⟩
  | line hs hv hn _ ih => exact List.forall_mem_cons.mpr ⟨.line hv, List.forall_mem_cons.mpr ⟨.newlines hn, ih⟩⟩
  | block hs hl _ ih => exact List.forall_mem_cons.mpr ⟨.block hl, ih⟩
  | key hv _ ih => exact List.forall_mem_cons.mpr ⟨.key hv, ih⟩
  | value hs hn _ ih => exact List.forall_mem_cons.mpr ⟨.value hn, ih⟩
  | string hn _ ih => exact List.forall_mem_cons.mpr ⟨.string hn, ih⟩

theorem mono (h : LaidRow V s items t) (hvw : ∀ b n, V b n → W b n) : LaidRow W s items t :=
  h.mono_mem fun n _ b => hvw b n

theorem append (h : LaidRow V s items t) (h' : LaidRow V t ns u) : LaidRow V s (items ++ ns) u := by
  induction h with
  | nil s => exact h'
  | newlines hn _ ih => exact .newlines hn (ih h')
  | line hs hv hn _ ih => exact .line hs hv hn (ih h')
  | block hs hl _ ih => exact .block hs hl (ih h')
  | key hv _ ih => exact .key hv (ih h')
  | value hs hn _ ih => exact .value hs hn (ih h')
  | string hn _ ih => exact .string hn (ih h')

end LaidRow

/-- Induction over layout trees: what holds of the values in a form may be used for the form. -/
theorem LaidIn.induct {S : Breadth} {P : Bool → Node → Prop}
    (scalar : ∀ b l, LaidScalar S b l → P b ⟨l, []⟩)
    (list : ∀ b span as items, AnnotationTexts as →
      LaidRow (fun b n => LaidIn S b n ∧ P b n) .list items .list →
      P b ⟨{ kind := .list, span, annotations := as }, items⟩)
    (sexpr : ∀ b span as items, AnnotationTexts as →
      LaidRow (fun b n => LaidIn S b n ∧ P b n) .sexpr items .sexpr →
      S.heads items →
      P b ⟨{ kind := .sexpr, span, annotations := as }, items⟩)
    (struct : ∀ b span as items, AnnotationTexts as →
      LaidRow (fun b n => LaidIn S b n ∧ P b n) .key items .key →
      P b ⟨{ kind := .struct, span, annotations := as }, items⟩)
    (clob : ∀ b span as items, AnnotationTexts as →
      LaidRow (fun b n => LaidIn S b n ∧ P b n) .clob items .clob →
      items.any Node.isContent = true →
      P b ⟨{ kind := .clob, span, annotations := as }, items⟩)
    {b : Bool} {n : Node} (h : LaidIn S b n) : P b n := by
  induction hk : sizeOf n using Nat.strongRecOn generalizing b n with
  | ind k ih =>
    subst hk
    have hrow : ∀ {s t : Slot} {label : Label} {items : List Node}, n = ⟨label, items⟩ →
        LaidRow (LaidIn S) s items t → LaidRow (fun b n => LaidIn S b n ∧ P b n) s items t := by
      rintro s t label items rfl h
      refine h.mono_mem fun m hm b hl => ⟨hl, ih _ ?_ hl rfl⟩
      have := List.sizeOf_lt_of_mem hm
      simp only [Node.mk.sizeOf_spec]
      omega
    cases h with
    | scalar h => exact scalar _ _ h
    | list ha h => exact list _ _ _ _ ha (hrow rfl h)
    | sexpr ha h hp => exact sexpr _ _ _ _ ha (hrow rfl h) hp
    | struct ha h => exact struct _ _ _ _ ha (hrow rfl h)
    | clob ha h hs => exact clob _ _ _ _ ha (hrow rfl h) hs

/-- What rows are made of values. -/
abbrev Row := LaidRow Laid

namespace LaidIn

variable {S : Breadth} {b : Bool} {n : Node}

theorem kind_cases (h : LaidIn S b n) :
    n.kind ∈ [Kind.null, .boolean, .integer, .real, .timestamp, .symbol, .quotedString,
      .multilineString, .blob, .list, .sexpr, .struct, .clob] := by
  cases h with
  | scalar h =>
    cases h with
    | word hk =>
      simp only [wordKinds, List.mem_cons, Prod.mk.injEq, List.not_mem_nil, or_false] at hk
      rcases hk with ⟨-, rfl⟩ | ⟨-, rfl⟩ | ⟨-, rfl⟩ | ⟨-, rfl⟩ | ⟨-, rfl⟩ | ⟨-, rfl⟩ | ⟨-, rfl⟩ |
        ⟨-, rfl⟩ <;> simp
    | string | long | blob => simp
  | list | sexpr | struct | clob => simp

theorem isValue (h : LaidIn S b n) : n.isValue = true := by
  have hk := h.kind_cases
  unfold Node.isValue Node.isContent Node.isComment Node.isNewlines Node.isStructKey
  simp only [List.mem_cons, List.not_mem_nil, or_false] at hk
  rcases hk with h | h | h | h | h | h | h | h | h | h | h | h | h <;> rw [h] <;> rfl

theorem isContent (h : LaidIn S b n) : n.isContent = true := by
  have := h.isValue
  simp only [Node.isValue, Bool.and_eq_true] at this
  exact this.1

/-- Whatever may stand in a tree may stand in a tree where everything may. -/
theorem widen (h : LaidIn S b n) : LaidIn .all b n := by
  refine h.induct (P := LaidIn .all) ?_ ?_ ?_ ?_ ?_
  · intro b l h
    cases h with
    | word hk hw ha => exact .scalar (.word hk hw ha)
    | string hw ha => exact .scalar (.string hw ha)
    | long _ hw hend ha => exact .scalar (.long trivial hw hend ha)
    | blob hw ha => exact .scalar (.blob hw ha)
  · exact fun _ _ _ _ ha h => .list ha (h.mono fun _ _ h => h.2)
  · exact fun _ _ _ _ ha h _ => .sexpr ha (h.mono fun _ _ h => h.2) trivial
  · exact fun _ _ _ _ ha h => .struct ha (h.mono fun _ _ h => h.2)
  · exact fun _ _ _ _ ha h hs => .clob ha (h.mono fun _ _ h => h.2) hs

end LaidIn

/-! ## Signs of a tree -/

namespace Text

/-- A text with the blanks at the ends of its lines dropped. -/
def settled (t : Text) : Text := ofChars (FusionKit.settled t.chars)

theorem chars_ofChars (w : List Char) : (ofChars w).chars = w := by
  simp only [chars, glyphs_ofChars, Glyph.ofChars, List.map_map]
  exact List.map_id w

theorem ofChars_injective {v w : List Char} (h : ofChars v = ofChars w) : v = w := by
  rw [← chars_ofChars v, h, chars_ofChars]

@[simp] theorem settled_ofChars (w : List Char) : settled (ofChars w) = ofChars (FusionKit.settled w) := by
  rw [settled, chars_ofChars]

end Text

/-- A comment line without white space around it, and without a star in front and one space after
that. -/
def plainLine (line : Text) : Text :=
  match line.strip with
  | b :: rest => if b == byte '*' then Text.trimStart [byte ' '] rest else b :: rest
  | [] => []

/-- The lines after the first one that are printed. -/
def keptLines (lines : List Text) : List Text :=
  if (lines.getLast?.map Text.isAllBlank).getD false then lines.dropLast else lines

/-- The lines of a printed block comment: an empty one comes last when there are several. -/
def relined : List Text → List Text
  | [] => []
  | [line] => [plainLine line]
  | line :: rest => plainLine line :: (keptLines rest ++ [[]])

/-- The token type of a symbol, operator or string, told by its first characters. -/
def nameType : List Char → TokenType
  | [] => .symbol
  | c :: cs =>
    if c == '\'' then if cs.take 2 == ['\'', '\''] then .longString else .quotedSymbol
    else if c == '"' then .string
    else if Lexeme.isOperator c then .operator
    else .symbol

/-- The token type of the word that is a scalar or key with a value. -/
def wordType (kind : Kind) (value : Text) : TokenType :=
  match kind with
  | .null => .null
  | .boolean => .bool
  | .integer => .int
  | .real => .real
  | .timestamp => .timestamp
  | _ => nameType value.chars

theorem wordType_of_spelling {inSExpr : Bool} {type : TokenType} (kind : Kind) {w : List Char}
    (h : Spelling inSExpr type w) (hk : kind ∈ [Kind.symbol, .structKey])
    (ht : type ∈ .operator :: keyTypes) : wordType kind (Text.ofChars w) = type := by
  have hword : wordType kind (Text.ofChars w) = nameType w := by
    simp only [List.mem_cons, List.not_mem_nil, or_false] at hk
    rcases hk with rfl | rfl <;> simp only [wordType, Text.chars_ofChars]
  rw [hword]
  cases h with
  | symbol h =>
    obtain ⟨c, cs, rfl, hc, -⟩ := h.starts
    have hplain : c ≠ '\'' ∧ c ≠ '"' ∧ Lexeme.isOperator c = false := by
      refine ⟨?_, ?_, Lexeme.isOperator_of_isIdentStart hc⟩
      · rintro rfl
        exact absurd hc (by decide)
      · rintro rfl
        exact absurd hc (by decide)
    simp [nameType, hplain]
  | quotedSymbol h =>
    obtain ⟨b, hb, rfl⟩ := h
    -- no quote comes right after the first one, unless it is the last character
    cases hb with
    | nil => rfl
    | plain hq => simp [nameType, hq]
    | escaped => rfl
  | operator h =>
    obtain ⟨c, cs, rfl, hc, -⟩ := h
    have hplain : c ≠ '\'' ∧ c ≠ '"' := by
      constructor
      · rintro rfl
        exact absurd hc (by decide)
      · rintro rfl
        exact absurd hc (by decide)
    simp [nameType, hplain, hc]
  | string | longString => rfl
  | numeral h =>
    simp only [List.mem_cons, List.not_mem_nil, or_false] at h
    rcases h with rfl | rfl | rfl <;> simp [keyTypes] at ht
  | fixed h =>
    simp only [fixedSpellings, List.mem_cons, Prod.mk.injEq, List.not_mem_nil, or_false] at h
    rcases h with ⟨rfl, -⟩ | ⟨rfl, -⟩ | ⟨rfl, -⟩ | ⟨rfl, -⟩ | ⟨rfl, -⟩ | ⟨rfl, -⟩ | ⟨rfl, -⟩ |
      ⟨rfl, -⟩ | ⟨rfl, -⟩ | ⟨rfl, -⟩ <;> simp [keyTypes] at ht
  | _ => simp [keyTypes] at ht

/-- The type of the word that is printed for a scalar is the type it was read with. -/
theorem wordType_of_wordKinds {inSExpr : Bool} {type : TokenType} {kind : Kind} {w : List Char}
    (h : Spelling inSExpr type w) (hk : (type, kind) ∈ wordKinds) :
    wordType kind (Text.ofChars w) = type := by
  simp only [wordKinds, List.mem_cons, Prod.mk.injEq, List.not_mem_nil, or_false] at hk
  rcases hk with ⟨rfl, rfl⟩ | ⟨rfl, rfl⟩ | ⟨rfl, rfl⟩ | ⟨rfl, rfl⟩ | ⟨rfl, rfl⟩ | ⟨rfl, rfl⟩ |
    ⟨rfl, rfl⟩ | ⟨rfl, rfl⟩
  all_goals first | rfl | exact wordType_of_spelling _ h (by simp) (by simp [keyTypes])

namespace Label

/-- The signs of the annotations. -/
def annotationSigns (l : Label) : List Sign :=
  l.annotations.map fun a => .word .annotate a.settled

/-- The sign of a scalar without its annotations. -/
def scalarSign (l : Label) : Sign :=
  match l.kind with
  | .quotedString => .word .string (utf8 "\"" ++ l.value ++ utf8 "\"")
  | .multilineString => .word .longString (utf8 "'''" ++ l.value ++ utf8 "'''")
  | .blob => .word .blob (Text.ofChars (settled (braced l.value.chars)))
  | kind => .word (wordType kind l.value) l.value

end Label

namespace Node

/-- The sign of a comma, when another value follows a value. -/
def commaSigns (commas : Bool) (n : Node) (rest : List Node) : List Sign :=
  if commas && n.isValue && rest.any isValue then [.word .comma (utf8 ",")] else []

mutual

/-- The signs that the printed form of a layout tree shows. -/
def signs : Node → List Sign
  | ⟨label, items⟩ =>
    match label.kind with
    | .newlines => List.replicate label.count.toNat .brk
    | .commentLine => [.line label.value]
    | .commentBlock => [.block (relined label.lines)]
    | .structKey =>
      [.word (wordType .structKey label.value) label.value, .word .colon (utf8 ":")]
    | .list =>
      label.annotationSigns ++ .word .bracketOpen (utf8 "[") ::
        (signsOf true items ++ [.word .bracketClose (utf8 "]")])
    | .sexpr =>
      label.annotationSigns ++ .word .parenOpen (utf8 "(") ::
        (signsOf false items ++ [.word .parenClose (utf8 ")")])
    | .struct =>
      label.annotationSigns ++ .word .braceOpen (utf8 "\x7b") ::
        (signsOf true items ++ [.word .braceClose (utf8 "\x7d")])
    | .clob =>
      label.annotationSigns ++ .word .clobOpen (utf8 "\x7b\x7b") ::
        (signsOf false items ++ [.word .clobClose (utf8 "\x7d\x7d")])
    | _ => label.annotationSigns ++ [label.scalarSign]

/-- The signs of some items, with commas between values or without. -/
def signsOf (commas : Bool) : List Node → List Sign
  | [] => []
  | n :: ns => signs n ++ commaSigns commas n ns ++ signsOf commas ns

end

/-! ## The tree that signs are read as -/

/-- The newline run of `n` line breaks, if there are any. -/
def flush (n : Nat) : List Node := if n = 0 then [] else [newlineRun n]

/-- The comments and newline runs of some signs, after `n` line breaks. -/
def triviaFrom (n : Nat) : List Sign → List Node
  | [] => flush n
  | .brk :: ss => triviaFrom (n + 1) ss
  | .line v :: .brk :: ss => flush n ++ lineComment v :: newlineRun 1 :: triviaFrom 0 ss
  | .line v :: ss => flush n ++ lineComment v :: triviaFrom 0 ss
  | .block ls :: ss => flush n ++ blockComment ls :: triviaFrom 0 ss
  | .word .. :: ss => triviaFrom n ss

/-- The comments and newline runs of some signs. -/
def trivia (ss : List Sign) : List Node := triviaFrom 0 ss

end Node

/-- A label as it is read back: without a place, and without blanks at line ends. -/
def Label.reread (l : Label) : Label :=
  { l with
    span := ⟨0, 0⟩
    annotations := l.annotations.map Text.settled
    value := if l.kind = .blob then l.value.settled else l.value }

namespace Node

mutual

/-- The tree that the signs of a tree are read as: its newline runs are joined where they meet. -/
def reread : Node → Node
  | ⟨label, items⟩ => ⟨label.reread, rereadFrom [] items⟩

/-- The items that are read after the signs of some comments and newline runs. -/
def rereadFrom (pending : List Sign) : List Node → List Node
  | [] => trivia pending
  | n :: ns =>
    if n.isContent then trivia pending ++ reread n :: rereadFrom [] ns
    else rereadFrom (pending ++ signs n) ns

end

mutual

/-- A tree without the places of its nodes. -/
def unplaced : Node → Node
  | ⟨label, items⟩ => ⟨{ label with span := ⟨0, 0⟩ }, unplacedAll items⟩

/-- Some trees without the places of their nodes. -/
def unplacedAll : List Node → List Node
  | [] => []
  | n :: ns => unplaced n :: unplacedAll ns

end

theorem sizeOf_item {n m : Node} (hm : m ∈ n.items) : sizeOf m < sizeOf n := by
  obtain ⟨label, items⟩ := n
  have : sizeOf m < sizeOf items := List.sizeOf_lt_of_mem hm
  simp only [Node.mk.sizeOf_spec]
  omega

/-- Induction over trees: what holds of the items of a node may be used for the node. -/
theorem induct {P : Node → Prop} (h : ∀ n : Node, (∀ m ∈ n.items, P m) → P n) (n : Node) : P n := by
  induction hk : sizeOf n using Nat.strongRecOn generalizing n with
  | ind k ih =>
    subst hk
    exact h n fun m hm => ih _ (sizeOf_item hm) m rfl

/-- A node has another one at its place or below it. -/
inductive Below : Node → Node → Prop where
  | refl (n : Node) : Below n n
  | item {n m k : Node} (hm : m ∈ n.items) (h : m.Below k) : Below n k

theorem forall_below {P : Node → Prop} {n : Node} (h : P n) (hitems : ∀ m ∈ n.items, ∀ k, m.Below k → P k) :
    ∀ k, n.Below k → P k := by
  intro k hk
  cases hk with
  | refl => exact h
  | item hm hk => exact hitems _ hm k hk

end Node

/-! ## Items that are read and those that are passed over -/

namespace Node

variable {commas : Bool} {n : Node} {ns : List Node}

theorem isValue_of_not_isContent (hn : n.isContent = false) : n.isValue = false := by
  simp [Node.isValue, hn]

theorem signsOf_skip (hn : n.isContent = false) :
    signsOf commas (n :: ns) = signs n ++ signsOf commas ns := by
  rw [signsOf, commaSigns, isValue_of_not_isContent hn]
  simp

theorem rereadFrom_skip (hn : n.isContent = false) (pending : List Sign) :
    rereadFrom pending (n :: ns) = rereadFrom (pending ++ signs n) ns := by
  rw [rereadFrom, hn]
  rfl

theorem rereadFrom_content (hn : n.isContent = true) (pending : List Sign) :
    rereadFrom pending (n :: ns) = trivia pending ++ reread n :: rereadFrom [] ns := by
  rw [rereadFrom, if_pos hn]

theorem any_isValue_skip (hn : n.isContent = false) :
    (n :: ns).any isValue = ns.any isValue := by
  rw [List.any_cons, isValue_of_not_isContent hn, Bool.false_or]

theorem signs_newlineRun (k : Nat) (span : Span) :
    signs (newlineRun k span) = List.replicate k .brk := rfl

theorem signs_lineComment (v : Text) (span : Span) : signs (lineComment v span) = [.line v] := rfl

theorem signs_blockComment (ls : List Text) (span : Span) :
    signs (blockComment ls span) = [.block (relined ls)] := rfl

theorem isTrivia_signs_newlineRun (k : Nat) (span : Span) :
    ∀ p ∈ signs (newlineRun k span), p.isTrivia = true := by
  intro p hp
  rw [List.eq_of_mem_replicate hp]
  rfl

end Node

namespace LaidRow

variable {V : Bool → Node → Prop} {s t : Slot} {items : List Node}

/-- After a key there is a value. -/
theorem any_isValue (h : LaidRow V s items .key) (hV : ∀ b n, V b n → n.isValue = true)
    (hs : s = .value) : items.any Node.isValue = true := by
  generalize ht : Slot.key = t at h
  induction h with
  | nil s =>
    subst ht
    contradiction
  | newlines hn _ ih => rw [Node.any_isValue_skip rfl, ih hs ht]
  | line hs' hv hn _ ih => rw [Node.any_isValue_skip rfl, Node.any_isValue_skip rfl, ih hs ht]
  | block hs' hl _ ih => rw [Node.any_isValue_skip rfl, ih hs ht]
  | key hv _ ih => contradiction
  | value hs' hn _ ih => rw [List.any_cons, hV _ _ hn, Bool.true_or]
  | string _ _ ih => contradiction

/-- Where no value is left, nothing but comments and newline runs comes next. -/
theorem head_not_isContent (h : LaidRow V s items t) (hV : ∀ b n, V b n → n.isValue = true)
    (hs : s ∈ [Slot.top, .list, .sexpr] ∨ s = .key ∧ t = .key)
    (hnone : items.any Node.isValue = false) :
    ∀ m, items.head? = some m → m.isContent = false := by
  intro m hm
  cases h with
  | nil => simp at hm
  | newlines | line | block =>
    cases hm
    rfl
  | key hv h =>
    rcases hs with hs | ⟨-, rfl⟩
    · simp at hs
    · rw [List.any_cons, h.any_isValue hV rfl, Bool.or_true] at hnone
      contradiction
  | value hs' hn h =>
    rw [List.any_cons, hV _ _ hn, Bool.true_or] at hnone
    contradiction
  | string => simp at hs

end LaidRow

end FusionKit
