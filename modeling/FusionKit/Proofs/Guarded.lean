import FusionKit.Layout.Print
import FusionKit.Proofs.LineEnds

/-!
# The printer with guarded indices

The printer again, over indices into the items of a form and into the text written so far: an index
or a range that does not exist is `none`, and so is an indent without a style. None of that
happens: the guarded printer writes what the printer writes, whatever the tree.

Loops over all items or bytes need no guard.
-/
set_option autoImplicit false

namespace FusionKit.Guarded

/-! ## Indices -/

section

variable {α : Type}

/-- The element at an index. -/
def at? (xs : List α) (i : Int) : Option α := if i < 0 then none else xs[i.toNat]?

/-- The elements from one index up to another. -/
def slice? (xs : List α) (i j : Int) : Option (List α) :=
  if 0 ≤ i ∧ i ≤ j ∧ j ≤ xs.length then some ((xs.take j.toNat).drop i.toNat) else none

theorem at?_natCast (xs : List α) (i : Nat) : at? xs i = xs[i]? := by
  rw [at?, if_neg (by omega), Int.toNat_natCast]

theorem at?_append (xs : List α) (x : α) (ys : List α) : at? (xs ++ x :: ys) xs.length = some x := by
  rw [at?_natCast, List.getElem?_append_right (Nat.le_refl _), Nat.sub_self]
  rfl

/-- An index given by what stands before it. -/
theorem at?_eq {xs : List α} (ys zs : List α) {x : α} {i : Int} (hxs : xs = ys ++ x :: zs) (hi : i = ys.length) :
    at? xs i = some x := by
  rw [hxs, hi, at?_append]

theorem slice?_middle (xs ys zs : List α) :
    slice? (xs ++ ys ++ zs) xs.length (xs.length + ys.length) = some ys := by
  have hbounds : (0 : Int) ≤ xs.length ∧ (xs.length : Int) ≤ xs.length + ys.length ∧
      (xs.length + ys.length : Int) ≤ (xs ++ ys ++ zs).length := by
    simp only [List.length_append]
    omega
  have htake : ((xs.length : Int) + ys.length).toNat = (xs ++ ys).length := by
    rw [List.length_append]
    omega
  rw [slice?, if_pos hbounds, htake, List.take_left, Int.toNat_natCast, List.drop_left]

/-- A range given by what stands before and after it. -/
theorem slice?_eq {xs zs : List α} (ys ws : List α) {i j : Int} (hxs : xs = ys ++ zs ++ ws) (hi : i = ys.length)
    (hj : j = ys.length + zs.length) : slice? xs i j = some zs := by
  rw [hxs, hi, hj, slice?_middle]

end

/-! ## Texts -/

/-- Whether the last byte is one of `choices`. -/
def endsWithOneOf? (t : Text) (choices : String) : Option Bool :=
  if t = [] then some false else (at? t (t.length - 1)).map fun b => (utf8 choices).contains b

/-- Whether there are at least two bytes, and the last is a space or a line feed. -/
def endsWithGap? (t : Text) : Option Bool :=
  if (0 : Int) < t.length - 1 then
    (at? t (t.length - 1)).map fun b => b == byte ' ' || b == byte '\n'
  else some false

/-- The number of line breaks from an index on, after `n` of them. -/
def countBreaksFrom? (t : Text) (i n : Nat) : Option Nat :=
  if i < t.length then do
    let b ← at? t i
    if b == byte '\r' then
      if i + 1 < t.length then do
        let c ← at? t (i + 1 : Nat)
        if c == byte '\n' then countBreaksFrom? t (i + 2) (n + 1) else countBreaksFrom? t (i + 1) (n + 1)
      else countBreaksFrom? t (i + 1) (n + 1)
    else if b == byte '\n' then countBreaksFrom? t (i + 1) (n + 1)
    else countBreaksFrom? t (i + 1) n
  else some n
termination_by t.length - i

/-- The number of spaces and tabs at the start, of which `n` were seen. -/
def indentLengthFrom? (t : Text) (n : Nat) : Option Nat :=
  if n < t.length then do
    let b ← at? t n
    if Text.isIndent b then indentLengthFrom? t (n + 1) else some n
  else some n
termination_by t.length - n

/-- The lines of a text. -/
def lines? (t : Text) : Option (List Text) :=
  if t = [] then some []
  else do
    let pieces := Text.piecesAt (byte '\n') t
    let last ← at? pieces (pieces.length - 1)
    let kept ← if last = [] then slice? pieces 0 (pieces.length - 1) else some pieces
    some (kept.map (Text.trimEnd [byte '\r']))

/-- The smallest indent of the lines that are not all white space. -/
def commonIndent? (t : Text) : Option Nat := do
  let ls ← lines? t
  let indents ← (ls.filter fun line => !line.isAllBlank).mapM fun line => indentLengthFrom? line 0
  some (indents.min?.getD 0)

/-- The text without the indent that its lines have in common. -/
def trimIndent? (t : Text) : Option Text := (commonIndent? t).map fun n => Text.dropIndent n 0 t

/-- The text with the blanks at the end of each line dropped. -/
def trimLineEnds? (t : Text) : Option Text :=
  (lines? t).map fun ls => ls.flatMap fun line => Text.dropEndWhile Text.isSpace line ++ [byte '\n']

section

variable (t : Text) (p : Page) (choices : String)

theorem endsWithOneOf?_eq : endsWithOneOf? p.text choices = some (p.endsWithOneOf choices) := by
  unfold endsWithOneOf? Page.text Page.endsWithOneOf
  cases p.reversed with
  | nil => rfl
  | cons b bs =>
    rw [if_neg (by simp), at?_eq _ _ (List.reverse_cons ..) (by simp)]
    rfl

theorem endsWithGap?_eq : endsWithGap? p.text = some p.endsWithGap := by
  unfold endsWithGap? Page.text Page.endsWithGap
  match p.reversed with
  | [] => rfl
  | [b] => rfl
  | b :: c :: bs =>
    rw [if_pos (by simp; omega), at?_eq _ _ (List.reverse_cons ..) (by simp; omega)]
    rfl

end

theorem countBreaksFrom?_eq : ∀ (u before : Text) (n : Nat),
    countBreaksFrom? (before ++ u) before.length n = some (n + u.countBreaks)
  | [], before, n => by
    rw [countBreaksFrom?, if_neg (by simp)]
    rfl
  | [b], before, n => by
    have hrest : ∀ k, countBreaksFrom? (before ++ [b]) (before.length + 1) k = some k := by
      intro k
      rw [countBreaksFrom?, if_neg (by simp)]
    rw [countBreaksFrom?, if_pos (by simp), at?_append]
    simp only [Option.bind_eq_bind, Option.bind_some, hrest, List.length_append, List.length_singleton,
      Nat.lt_irrefl, if_false, Text.countBreaks]
    split_ifs <;> simp_all
  | b :: c :: t, before, n => by
    have hone : ∀ k, countBreaksFrom? (before ++ b :: c :: t) (before.length + 1) k =
        some (k + Text.countBreaks (c :: t)) := by
      intro k
      have := countBreaksFrom?_eq (c :: t) (before ++ [b]) k
      rwa [List.append_assoc, List.length_append] at this
    have htwo : ∀ k, countBreaksFrom? (before ++ b :: c :: t) (before.length + 2) k =
        some (k + Text.countBreaks t) := by
      intro k
      have := countBreaksFrom?_eq t (before ++ [b, c]) k
      rwa [List.append_assoc, List.length_append] at this
    have hc : at? (before ++ b :: c :: t) (before.length + 1 : Nat) = some c :=
      at?_eq (before ++ [b]) _ (List.append_assoc before [b] (c :: t)).symm (by simp)
    rw [countBreaksFrom?, if_pos (by simp), at?_append]
    simp only [Option.bind_eq_bind, Option.bind_some, hone, htwo, hc, List.length_append, List.length_cons,
      show before.length + 1 < before.length + (t.length + 1 + 1) by omega, if_true, Text.countBreaks]
    split_ifs <;> simp only [Option.some.injEq] <;> omega

theorem indentLengthFrom?_eq (u before : Text) :
    indentLengthFrom? (before ++ u) before.length = some (before.length + u.indentLength) := by
  induction u generalizing before with
  | nil =>
    rw [indentLengthFrom?, if_neg (by simp)]
    rfl
  | cons b u ih =>
    have hrest := ih (before ++ [b])
    rw [List.append_assoc, List.length_append] at hrest
    rw [indentLengthFrom?, if_pos (by simp), at?_append]
    simp only [Option.bind_eq_bind, Option.bind_some, Text.indentLength, List.takeWhile_cons]
    split_ifs with hb
    · rw [List.singleton_append] at hrest
      rw [show before.length + 1 = before.length + [b].length from rfl, hrest]
      simp only [Text.indentLength, List.length_cons, List.length_nil, Option.some.injEq]
      omega
    · rfl

theorem lines?_eq (t : Text) : lines? t = some t.lines := by
  unfold lines? Text.lines
  by_cases ht : t = []
  · rw [if_pos ht, ht]
    rfl
  · obtain ⟨front, last, hpieces⟩ : ∃ front last, Text.piecesAt (byte '\n') t = front ++ [last] :=
      ⟨_, _, (List.dropLast_append_getLast (Text.piecesAt_ne_nil (byte '\n') t)).symm⟩
    have hlength : (((front ++ [last]).length : Nat) : Int) - 1 = front.length := by simp
    have hfront : slice? (front ++ [last]) 0 front.length = some front :=
      slice?_eq [] _ rfl rfl (by simp)
    rw [if_neg ht, if_neg (by simpa using ht)]
    simp only [hpieces, hlength, at?_append, hfront, Option.bind_eq_bind, Option.bind_some,
      List.getLast?_append, List.getLast?_singleton, Option.some_or, List.dropLast_concat]
    by_cases hlast : last = []
    · simp [hlast]
    · simp [hlast]

theorem commonIndent?_eq (t : Text) : commonIndent? t = some t.commonIndent := by
  have hindents : ∀ ls : List Text, (ls.mapM fun line => indentLengthFrom? line 0) =
      some (ls.map Text.indentLength) := by
    intro ls
    induction ls with
    | nil => rfl
    | cons l ls ih =>
      have hl : indentLengthFrom? l 0 = some l.indentLength := by
        simpa using indentLengthFrom?_eq l []
      rw [List.mapM_cons, hl, ih]
      rfl
  rw [commonIndent?, lines?_eq]
  simp only [Option.bind_eq_bind, Option.bind_some, hindents]
  rfl

theorem trimIndent?_eq (t : Text) : trimIndent? t = some t.trimIndent := by
  rw [trimIndent?, commonIndent?_eq]
  rfl

theorem trimLineEnds?_eq (t : Text) : trimLineEnds? t = some t.trimLineEnds := by
  rw [trimLineEnds?, lines?_eq]
  rfl

/-! ## Indents -/

mutual

/-- The line breaks that a layout tree takes. -/
def breaks? : Node → Option Int
  | ⟨label, items⟩ =>
    match label.kind with
    | .commentLine => some 1
    | .commentBlock => some label.lines.length
    | .newlines => some label.count
    | .multilineString => (countBreaksFrom? label.value 0 0).map fun n : Nat => (n : Int)
    | .list | .sexpr | .struct => breaksOf? items
    | .clob => some (Node.clobBreaks items)
    | _ => some 0

/-- The line breaks that some layout trees take. -/
def breaksOf? : List Node → Option Int
  | [] => some 0
  | n :: ns => do
    let first ← breaks? n
    let others ← breaksOf? ns
    some (Word.wrap64 (first + others))

end

mutual

theorem breaks?_eq : ∀ n : Node, breaks? n = some n.breaks
  | ⟨label, items⟩ => by
    have hvalue : countBreaksFrom? label.value 0 0 = some label.value.countBreaks := by
      simpa using countBreaksFrom?_eq label.value [] 0
    unfold breaks? Node.breaks
    rw [breaksOf?_eq items, hvalue]
    split <;> rename_i hk <;> simp_all

theorem breaksOf?_eq : ∀ ns : List Node, breaksOf? ns = some (Node.breaksOf ns)
  | [] => rfl
  | n :: ns => by
    rw [breaksOf?, breaks?_eq n, breaksOf?_eq ns]
    rfl

end

/-- The style of an s-expression, if it is determined, and the column of its first argument. -/
def style? (s : Settings) (items : List Node) (opening : Int) : Option (Option IndentStyle × Int) :=
  let early : Option IndentStyle :=
    match Node.contentBeforeBreak items with
    | 0 => some .endOfOpening
    | 1 => some .fixed
    | _ => none
  if items.length = 0 then some (early, 0)
  else do
    let first ← at? items 0
    match first.symbol? with
    | some symbol =>
      let style := if early = some .fixed then early else some .endOfOpeningSymbol
      let col := if early = some .fixed then 0 else Word.wrap64 (opening + symbol.length + 2)
      if s.isFixedIndent symbol then some (some .fixed, col)
      else if s.isSmartIndent symbol && style == some .endOfOpeningSymbol then do
        let breaks ← breaksOf? items
        some (if largeForm < breaks then some .fixed else style, col)
      else some (style, col)
    | none => some (some (if first.kind = .sexpr then .fixed else .endOfOpening), 0)

/-- The column in which the further lines of an s-expression start; none without a style. -/
def column? (s : Settings) (items : List Node) (opening : Int) : Option Int := do
  let (style, col) ← style? s items opening
  match style with
  | none => none
  | some .endOfOpening => some (Word.wrap64 (opening + 1))
  | some .fixed => some (Word.wrap64 (opening + 2))
  | some .endOfOpeningSymbol => some col

/-- For each item of an s-expression from an index on, whether a space follows it. -/
def spacingFrom? (items : List Node) (argList : Bool) (i : Nat) : List Node → Option (List Bool)
  | [] => some []
  | n :: ns =>
    let notLast : Bool := (i : Int) != items.length - 1
    if i == 0 && n.isPipe then do
      let others ← spacingFrom? items true (i + 1) ns
      some (false :: others)
    else if 0 < i && argList && n.isPipe then do
      let others ← spacingFrom? items argList (i + 1) ns
      some (true :: others)
    else do
      let ends ← if notLast && argList then (at? items (i + 1 : Nat)).map Node.isPipe else some false
      let others ← spacingFrom? items argList (i + 1) ns
      some ((!ends && notLast && !n.isNewlines) :: others)

section

variable (s : Settings) (items : List Node) (opening : Int)

/-- Every s-expression with items has a style, the one that the printer finds. -/
theorem style?_eq (h : items ≠ []) :
    style? s items opening = some ((s.continuation items opening).map some id) := by
  obtain ⟨first, rest, rfl⟩ := List.exists_cons_of_ne_nil h
  have hfirst : at? (first :: rest) 0 = some first := rfl
  have hone : (match Node.contentBeforeBreak (first :: rest) with
      | 0 => some IndentStyle.endOfOpening
      | 1 => some .fixed
      | _ => none) = some .fixed ↔ Node.contentBeforeBreak (first :: rest) = 1 := by
    split <;> simp_all
  unfold style? Settings.continuation
  rw [if_neg (by simp)]
  simp only [hfirst, Option.bind_eq_bind, Option.bind_some, hone]
  cases first.symbol? with
  | none => rfl
  | some symbol =>
    simp only [breaksOf?_eq, Option.bind_some]
    by_cases halone : Node.contentBeforeBreak (first :: rest) = 1 <;>
      cases s.isFixedIndent symbol <;> cases s.isSmartIndent symbol <;>
      by_cases hlarge : largeForm < Node.breaksOf (first :: rest) <;>
      simp [halone, hlarge]

theorem column?_eq (h : items ≠ []) :
    column? s items opening = some (s.continuationColumn items opening) := by
  rw [column?, style?_eq s items opening h]
  unfold Settings.continuationColumn
  obtain ⟨style, col⟩ := s.continuation items opening
  cases style <;> rfl

/-- Whether a space follows an item and what is at the next index, told by what comes after it. -/
theorem at?_next {before : List Node} {n : Node} {ns : List Node} (h : items = before ++ n :: ns) :
    ((before.length : Int) != items.length - 1) = !ns.isEmpty ∧
      at? items (before.length + 1 : Nat) = ns.head? := by
  constructor
  · cases ns with
    | nil => simp [h]
    | cons m ns =>
      simp only [h, List.length_append, List.length_cons, List.isEmpty_cons, Bool.not_false, bne_iff_ne]
      omega
  · rw [at?_natCast, h, List.getElem?_append_right (by omega), Nat.add_sub_cancel_left,
      List.getElem?_cons_succ, List.head?_eq_getElem?]

theorem spacingFrom?_eq (argList : Bool) {before ns : List Node} (h : items = before ++ ns)
    (hbefore : before ≠ []) :
    spacingFrom? items argList before.length ns = some (Node.spacingAfter argList ns) := by
  induction ns generalizing before with
  | nil => rfl
  | cons n ns ih =>
    have hrest : spacingFrom? items argList (before.length + 1) ns = some (Node.spacingAfter argList ns) := by
      simpa using @ih (before ++ [n]) (by simp [h]) (by simp)
    obtain ⟨hlast, hnext⟩ := at?_next items h
    have hzero : (before.length == 0) = false := by simpa using hbefore
    have hpos : 0 < before.length := List.length_pos_iff.mpr hbefore
    unfold spacingFrom? Node.spacingAfter
    simp only [hlast, hnext, hzero, Bool.false_and, Bool.false_eq_true, if_false, hpos, decide_true,
      Bool.true_and, hrest]
    cases ns with
    | nil => cases argList <;> cases n.isPipe <;> rfl
    | cons m ns =>
      simp only [List.head?_cons, Option.map_some]
      cases argList <;> cases n.isPipe <;> cases m.isPipe <;> cases n.isNewlines <;> rfl

theorem length_spacingAfter (argList : Bool) (ns : List Node) :
    (Node.spacingAfter argList ns).length = ns.length := by
  induction ns with
  | nil => rfl
  | cons n ns ih =>
    unfold Node.spacingAfter
    rw [List.length_cons, List.length_cons, ih]

theorem length_spacing : (Node.spacing items).length = items.length := by
  cases items with
  | nil => rfl
  | cons n ns =>
    rw [Node.spacing]
    split_ifs
    · rw [List.length_cons, length_spacingAfter, List.length_cons]
    · exact length_spacingAfter false (n :: ns)

theorem spacing?_eq : spacingFrom? items false 0 items = some (Node.spacing items) := by
  cases items with
  | nil => rfl
  | cons n ns =>
    have hrest : ∀ argList, spacingFrom? (n :: ns) argList 1 ns = some (Node.spacingAfter argList ns) :=
      fun argList => @spacingFrom?_eq (n :: ns) argList [n] ns rfl (by simp)
    obtain ⟨hlast, hnext⟩ := @at?_next (n :: ns) [] n ns rfl
    unfold spacingFrom? Node.spacing
    simp only [List.length_nil] at hlast hnext
    simp only [hlast, hrest]
    cases hpipe : n.isPipe with
    | true => rfl
    | false =>
      cases ns with
      | nil => simp [Node.spacingAfter]
      | cons m ns => simp [Node.spacingAfter]

end

/-! ## Printing -/

/-- Writes an item of a clob. -/
def clobItem? (indent : Int) (p : Page) (n : Node) : Option Page := do
  let gap ← endsWithGap? p.text
  let p := p.spaceIf (!n.isNewlines && !gap)
  match n.kind with
  | .newlines => some (p.newlines n.label.count indent)
  | .multilineString => some (((p.put "'''").write n.value).put "'''")
  | _ => some (p.scalar n.label)

/-- Writes a clob. -/
def clob? (p : Page) (indent : Int) (l : Label) (items : List Node) : Option Page := do
  let p := (p.annotations l).put "\x7b\x7b"
  let inner : Int := if Node.contentBeforeBreak items = 0 then indent + 1 else p.column + 1
  let p ← items.foldlM (clobItem? inner) p
  let gap ← endsWithGap? p.text
  some ((p.spaceIf (!gap)).put "\x7d\x7d")

/-- Writes the lines of a block comment of `count` lines from an index on. -/
def commentFrom (indent count i : Nat) (p : Page) : List Text → Page
  | [] => p
  | line :: rest =>
    let blank := line.isAllBlank
    if 0 < i && blank && (i : Int) == count - 1 then p
    else
      let p := if 0 < i then (p.spaces indent).put "*" else p
      commentFrom indent count (i + 1) (((p.spaceIf (!blank)).write line).put "\n") rest

/-- Writes a block comment. -/
def blockComment? (p : Page) (lines : List Text) : Option Page := do
  let indent := p.column + 1
  let p := p.put "/*"
  if lines.length = 1 then
    let line ← at? lines 0
    some ((((p.put " ").write line.strip).put " ").put "*/")
  else
    let p := commentFrom indent lines.length 0 p lines
    let fresh ← endsWithOneOf? p.text "\n"
    some ((if fresh then p.spaces indent else p).put "*/")

/-- Writes a long string. -/
def longString? (p : Page) (s : Settings) (l : Label) : Option Page := do
  let p := p.annotations l
  let col := p.column
  let contents ←
    if s.formatLongStrings then (trimIndent? l.value).map fun t => t.indentLines col else some l.value
  let p := (p.put "'''").write (Text.dropEndWhile Text.isIndent contents)
  let fresh ← endsWithOneOf? p.text "\n"
  some ((if fresh then p.spaces col else p).put "'''")

/-- Writes the key of a struct member. -/
def structKey? (p : Page) (l : Label) : Option Page := do
  let fresh ← endsWithOneOf? p.text "\n"
  some (((p.spaceIf (!fresh)).write l.value).put ":")

/-- Writes a comma when another value follows the value at an index. -/
def comma? (items : List Node) (i : Nat) (p : Page) (n : Node) : Option Page :=
  if n.isValue then do
    let rest ← slice? items (i + 1) items.length
    some (if rest.any Node.isValue then p.put "," else p)
  else some p

mutual

/-- Writes a node. -/
def print? (s : Settings) (indent : Int) (p : Page) : Node → Option Page
  | ⟨label, items⟩ =>
    match label.kind with
    | .clob => clob? p indent label items
    | .commentBlock => blockComment? p label.lines
    | .commentLine => some ((p.write label.value).spaces indent)
    | .multilineString => longString? p s label
    | .newlines => some (p.newlines label.count indent)
    | .structKey => structKey? p label
    | .list => do
      let p := p.annotations label
      let p ← printList? s items p.column 0 (p.put "[") items
      some (p.put "]")
    | .sexpr => do
      let p := p.annotations label
      let column := p.column
      let p := p.put "("
      if items.length = 0 then some (p.put ")")
      else
        let indent ← column? s items column
        let spaces ← spacingFrom? items false 0 items
        let p ← printSExpr? s indent spaces 0 p items
        some (p.put ")")
    | .struct => do
      let p := p.annotations label
      let p ← printStruct? s items p.column 0 (p.put "\x7b") items
      let tight ← endsWithOneOf? p.text "\x7b\x7d \n"
      some ((p.spaceIf (!tight)).put "\x7d")
    | _ => some (p.scalar label)

/-- Writes the items of a list from an index on. -/
def printList? (s : Settings) (items : List Node) (opening : Int) (i : Nat) (p : Page) :
    List Node → Option Page
  | [] => some p
  | n :: ns => do
    let comma ← endsWithOneOf? p.text ","
    let p := p.spaceIf (!n.isNewlines && comma)
    let indent := if n.isNewlines && (i : Int) == items.length - 1 then opening else opening + 1
    let p ← print? s indent p n
    let p ← comma? items i p n
    printList? s items opening (i + 1) p ns

/-- Writes the items of an s-expression from an index on. -/
def printSExpr? (s : Settings) (indent : Int) (spaces : List Bool) (i : Nat) (p : Page) :
    List Node → Option Page
  | [] => some p
  | n :: ns => do
    let p ← print? s indent p n
    let space ← at? spaces i
    printSExpr? s indent spaces (i + 1) (p.spaceIf space) ns

/-- Writes the items of a struct from an index on. -/
def printStruct? (s : Settings) (items : List Node) (opening : Int) (i : Nat) (p : Page) :
    List Node → Option Page
  | [] => some p
  | n :: ns => do
    if n.isNewlines then
      let rest ← slice? items (i + 1) items.length
      let p ← print? s (Node.structIndent opening rest) p n
      printStruct? s items opening (i + 1) p ns
    else
      let tight ← endsWithOneOf? p.text ":/"
      let p ← print? s 0 (p.spaceIf (tight || n.isComment)) n
      let p ← comma? items i p n
      printStruct? s items opening (i + 1) p ns

end

section

variable (s : Settings) (indent : Int) (p : Page)

theorem clobItem?_eq (n : Node) : clobItem? indent p n = some (p.clobItem indent n) := by
  unfold clobItem? Page.clobItem
  rw [endsWithGap?_eq]
  simp only [Option.bind_eq_bind, Option.bind_some]
  cases n.kind <;> rfl

theorem clob?_eq (l : Label) (items : List Node) : clob? p indent l items = some (p.clob indent l items) := by
  have hitems : ∀ (inner : Int) (p : Page),
      items.foldlM (clobItem? inner) p = some (items.foldl (Page.clobItem inner) p) := by
    intro inner
    induction items with
    | nil => exact fun p => rfl
    | cons n ns ih =>
      intro p
      rw [List.foldlM_cons, clobItem?_eq]
      exact ih _
  unfold clob? Page.clob
  simp only [hitems, endsWithGap?_eq, Option.bind_eq_bind, Option.bind_some]

/-- After the first line of a block comment the others come behind stars. -/
theorem commentFrom_eq (column count : Nat) (i : Nat) (ls : List Text) (hi : 0 < i)
    (hcount : count = i + ls.length) :
    commentFrom column count i p ls = p.commentRest column ls := by
  induction ls generalizing i p with
  | nil => rfl
  | cons l ls ih =>
    have hlast : ((i : Int) == count - 1) = ls.isEmpty := by
      rw [hcount, List.length_cons]
      cases ls with
      | nil => simp
      | cons l ls =>
        simp only [List.length_cons, List.isEmpty_cons, beq_eq_false_iff_ne]
        omega
    have hrest := fun p => ih p (i + 1) (by omega) (by rw [hcount, List.length_cons]; omega)
    unfold commentFrom Page.commentRest
    simp only [hi, decide_true, Bool.true_and, hlast, if_true, hrest]

theorem endsWithOneOf_newline : (p.put "\n").endsWithOneOf "\n" = true := rfl

theorem commentRest_endsWithOneOf (column : Nat) (ls : List Text) (hp : p.endsWithOneOf "\n" = true) :
    (p.commentRest column ls).endsWithOneOf "\n" = true := by
  induction ls generalizing p with
  | nil => exact hp
  | cons l ls ih =>
    unfold Page.commentRest
    dsimp only
    split_ifs
    · exact hp
    · exact ih _ (endsWithOneOf_newline _)

theorem blockComment?_eq (ls : List Text) : blockComment? p ls = some (p.blockComment ls) := by
  unfold blockComment? Page.blockComment
  match ls with
  | [] =>
    simp only [List.length_nil, Nat.zero_ne_one, if_false, commentFrom, endsWithOneOf?_eq,
      Option.bind_eq_bind, Option.bind_some]
    rfl
  | [line] => rfl
  | line :: second :: rest =>
    have hlength : (line :: second :: rest).length ≠ 1 := by simp
    have hfirst : commentFrom (p.column + 1) (line :: second :: rest).length 0 (p.put "/*")
        (line :: second :: rest) = Page.commentRest (p.column + 1)
          ((((p.put "/*").spaceIf (!line.isAllBlank)).write line).put "\n") (second :: rest) := by
      rw [commentFrom]
      simp only [Nat.lt_irrefl, decide_false, Bool.false_and, Bool.false_eq_true, if_false]
      exact commentFrom_eq _ _ _ 1 _ Nat.one_pos (by simp; omega)
    have hfresh := commentRest_endsWithOneOf
      ((((p.put "/*").spaceIf (!line.isAllBlank)).write line).put "\n") (p.column + 1) (second :: rest)
      (endsWithOneOf_newline _)
    rw [if_neg hlength, hfirst]
    simp only [endsWithOneOf?_eq, hfresh, Option.bind_eq_bind, Option.bind_some, if_true]

theorem longString?_eq (l : Label) : longString? p s l = some (p.longString s l) := by
  unfold longString? Page.longString
  simp only [trimIndent?_eq, endsWithOneOf?_eq, Option.bind_eq_bind, Option.map_some]
  cases s.formatLongStrings <;> rfl

theorem structKey?_eq (l : Label) : structKey? p l = some (p.structKey l) := by
  rw [structKey?, endsWithOneOf?_eq]
  rfl

variable {items before ns : List Node} {n : Node}

theorem slice?_rest (h : items = before ++ n :: ns) :
    slice? items (before.length + 1) items.length = some ns := by
  refine slice?_eq (before ++ [n]) [] ?_ ?_ ?_
  · simp [h]
  · simp
  · simp [h]
    omega

theorem comma?_eq (h : items = before ++ n :: ns) :
    comma? items before.length p n = some (Node.comma p n ns) := by
  unfold comma? Node.comma
  rw [slice?_rest h]
  cases n.isValue <;> rfl

end

section

variable (s : Settings)

mutual

/-- The guarded printer writes every node, and as the printer does. -/
theorem print?_eq : ∀ (n : Node) (indent : Int) (p : Page), print? s indent p n = some (n.print s indent p)
  | ⟨label, items⟩, indent, p => by
    have hlist : ∀ (opening : Int) (p : Page),
        printList? s items opening 0 p items = some (Node.printList s opening p items) :=
      fun opening p => printList?_eq items [] items rfl opening p
    have hstruct : ∀ (opening : Int) (p : Page),
        printStruct? s items opening 0 p items = some (Node.printStruct s opening p items) :=
      fun opening p => printStruct?_eq items [] items rfl opening p
    have hsexpr : ∀ (indent : Int) (p : Page), printSExpr? s indent (Node.spacing items) 0 p items =
        some (Node.printSExpr s indent p items (Node.spacing items)) :=
      fun indent p => printSExpr?_eq items [] (Node.spacing items) (length_spacing items) indent p
    unfold print? Node.print
    simp only [clob?_eq, blockComment?_eq, longString?_eq, structKey?_eq, hlist, hstruct, spacing?_eq,
      endsWithOneOf?_eq, Option.bind_eq_bind, Option.bind_some]
    by_cases hitems : items = []
    · subst hitems
      cases label.kind <;> rfl
    · have hcolumn := column?_eq s items (p.annotations label).column hitems
      have hlength : items.length ≠ 0 := by simpa using hitems
      simp only [hlength, if_false, hcolumn, hsexpr, Option.bind_some]
      cases label.kind <;> rfl

theorem printList?_eq : ∀ (ns before items : List Node), items = before ++ ns → ∀ (opening : Int) (p : Page),
    printList? s items opening before.length p ns = some (Node.printList s opening p ns)
  | [], _, _, _, _, _ => rfl
  | n :: ns, before, items, h, opening, p => by
    have hrest := fun p => printList?_eq ns (before ++ [n]) items (by simp [h]) opening p
    have hlast : ((before.length : Int) == items.length - 1) = ns.isEmpty := by
      have := (at?_next items h).1
      rwa [bne, Bool.not_inj_iff] at this
    rw [List.length_append] at hrest
    unfold printList? Node.printList
    simp only [endsWithOneOf?_eq, hlast, print?_eq n, comma?_eq _ h, Option.bind_eq_bind, Option.bind_some]
    exact hrest _

theorem printSExpr?_eq : ∀ (ns : List Node) (front back : List Bool), back.length = ns.length →
    ∀ (indent : Int) (p : Page), printSExpr? s indent (front ++ back) front.length p ns =
      some (Node.printSExpr s indent p ns back)
  | [], _, _, _, _, _ => rfl
  | n :: ns, front, [], h, _, _ => by simp at h
  | n :: ns, front, b :: back, h, indent, p => by
    have hrest := fun p => printSExpr?_eq ns (front ++ [b]) back (by simpa using h) indent p
    rw [List.length_append, List.append_assoc] at hrest
    unfold printSExpr? Node.printSExpr
    simp only [print?_eq n, at?_append, Option.bind_eq_bind, Option.bind_some]
    exact hrest _

theorem printStruct?_eq : ∀ (ns before items : List Node), items = before ++ ns → ∀ (opening : Int) (p : Page),
    printStruct? s items opening before.length p ns = some (Node.printStruct s opening p ns)
  | [], _, _, _, _, _ => rfl
  | n :: ns, before, items, h, opening, p => by
    have hrest := fun p => printStruct?_eq ns (before ++ [n]) items (by simp [h]) opening p
    rw [List.length_append] at hrest
    unfold printStruct? Node.printStruct
    simp only [endsWithOneOf?_eq, slice?_rest h, print?_eq n, comma?_eq _ h, Option.bind_eq_bind,
      Option.bind_some]
    split_ifs
    · exact hrest _
    · exact hrest _

end

end

end FusionKit.Guarded
