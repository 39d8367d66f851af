import FusionKit.Layout.Print
import FusionKit.Proofs.LineEnds

/-!
# Pages that differ in blanks at line ends

Blanks in front of a line feed are dropped when a page is finished, and no layout decision looks at
them: pages that differ in nothing else stay so when the same node is printed on both, and come to
the same text.
-/
set_option autoImplicit false

namespace FusionKit

namespace Text

/-- Whether a byte is a blank that does not end a line. -/
def isInlineBlank (b : UInt8) : Bool := isSpace b && b != byte '\n'

/-- A text read backwards, without the blanks at the ends of its lines; those at its own end go if
`ended`. -/
def unblanked : Bool → Text → Text
  | _, [] => []
  | ended, b :: t => if ended && isInlineBlank b then unblanked true t else b :: unblanked (b == byte '\n') t

section

variable {ended : Bool} {b : UInt8} {t u r : Text}

theorem unblanked_kept (h : isInlineBlank b = false) :
    unblanked ended (b :: t) = b :: unblanked (b == byte '\n') t := by
  rw [unblanked, h, Bool.and_false, if_neg Bool.false_ne_true]

theorem unblanked_false : unblanked false (b :: t) = b :: unblanked (b == byte '\n') t := rfl

theorem unblanked_dropped (h : isInlineBlank b = true) : unblanked true (b :: t) = unblanked true t := by
  rw [unblanked, h]
  rfl

theorem ne_newline_of_isInlineBlank (h : isInlineBlank b = true) : (b == byte '\n') = false := by
  simp only [isInlineBlank, Bool.and_eq_true, bne_iff_ne] at h
  simpa using h.2

theorem unblanked_newline : unblanked ended (byte '\n' :: t) = byte '\n' :: unblanked true t :=
  unblanked_kept rfl

theorem unblanked_true (t : Text) : unblanked true t = (unblanked false t).dropWhile isInlineBlank := by
  induction t with
  | nil => rfl
  | cons b t ih =>
    cases hb : isInlineBlank b with
    | true => rw [unblanked_dropped hb, unblanked_false, ne_newline_of_isInlineBlank hb, List.dropWhile_cons_of_pos hb, ih]
    | false => rw [unblanked_kept hb, unblanked_false, List.dropWhile_cons_of_neg (by simp [hb])]

/-- What is read after the same text looks the same when it does so by itself. -/
theorem unblanked_append (h : unblanked false t = unblanked false u) (ended : Bool) (r : Text) :
    unblanked ended (r ++ t) = unblanked ended (r ++ u) := by
  induction r generalizing ended with
  | nil =>
    cases ended with
    | true => rw [List.nil_append, List.nil_append, unblanked_true, unblanked_true, h]
    | false => exact h
  | cons b r ih =>
    simp only [List.cons_append, unblanked, ih]

theorem takeWhile_unblanked (t : Text) :
    (unblanked false t).takeWhile (· != byte '\n') = t.takeWhile (· != byte '\n') := by
  induction t with
  | nil => rfl
  | cons b t ih =>
    rw [unblanked_false]
    cases hb : b == byte '\n' with
    | true => rw [List.takeWhile_cons_of_neg (by simp [bne, hb]), List.takeWhile_cons_of_neg (by simp [bne, hb])]
    | false => rw [List.takeWhile_cons_of_pos (by simp [bne, hb]), List.takeWhile_cons_of_pos (by simp [bne, hb]), ih]

theorem head?_unblanked (t : Text) : (unblanked false t).head? = t.head? := by
  cases t <;> rfl

theorem count_unblanked (h : isInlineBlank b = false) (ended : Bool) (t : Text) :
    (unblanked ended t).count b = t.count b := by
  induction t generalizing ended with
  | nil => rfl
  | cons c t ih =>
    rw [unblanked]
    split_ifs with hc
    · simp only [Bool.and_eq_true] at hc
      have hne : c ≠ b := by
        rintro rfl
        rw [h] at hc
        cases hc.2
      rw [List.count_cons_of_ne hne, ih]
    · rw [List.count_cons, List.count_cons, ih]

theorem unblanked_inline (h : ∀ b ∈ r, isInlineBlank b = true) : unblanked true (r ++ t) = unblanked true t := by
  induction r with
  | nil => rfl
  | cons b r ih =>
    rw [List.cons_append, unblanked_dropped (h b (by simp)), ih fun c hc => h c (by simp [hc])]

theorem unblanked_append_newline (t u : Text) :
    unblanked ended (t ++ byte '\n' :: u) = unblanked ended t ++ byte '\n' :: unblanked true u := by
  induction t generalizing ended with
  | nil => exact unblanked_newline
  | cons b t ih =>
    simp only [List.cons_append, unblanked]
    split_ifs
    · exact ih
    · rw [ih, List.cons_append]

/-- A single line read backwards. -/
theorem unblanked_line (h : byte '\n' ∉ t) : unblanked true t = t.dropWhile isSpace := by
  induction t with
  | nil => rfl
  | cons b t ih =>
    simp only [List.mem_cons, not_or] at h
    have hline : ∀ c ∈ t, (c == byte '\n') = false := by
      intro c hc
      rw [beq_eq_false_iff_ne]
      rintro rfl
      exact h.2 hc
    have hsame : isInlineBlank b = isSpace b := by simp [isInlineBlank, bne, Ne.symm h.1]
    cases hb : isSpace b with
    | true => rw [unblanked_dropped (hsame.trans hb), List.dropWhile_cons_of_pos hb, ih h.2]
    | false =>
      have hkept : ∀ u : Text, (∀ c ∈ u, (c == byte '\n') = false) → unblanked false u = u := by
        intro u hu
        induction u with
        | nil => rfl
        | cons c u ih =>
          rw [unblanked_false, hu c (by simp), ih fun d hd => hu d (by simp [hd])]
      rw [unblanked_kept (hsame.trans hb), List.dropWhile_cons_of_neg (by simp [hb]),
        beq_eq_false_iff_ne.mpr (Ne.symm h.1), hkept t hline]

/-- Trimming a text drops the blanks that are dropped as it is read backwards. -/
theorem trimLineEnds_eq (t : Text) (ht : t ≠ []) : trimLineEnds t =
    (if t.getLast? = some (byte '\n') then unblanked false t.reverse
      else byte '\n' :: unblanked true t.reverse).reverse := by
  induction hk : t.length using Nat.strongRecOn generalizing t with
  | ind k ih =>
  by_cases hmem : byte '\n' ∈ t
  · obtain ⟨l, rest, rfl, hl⟩ := List.eq_append_cons_of_mem hmem
    have hline : unblanked true l.reverse = (dropEndWhile isSpace l).reverse := by
      rw [unblanked_line (by simpa using hl), dropEndWhile, List.reverse_reverse]
    have hreverse : (l ++ byte '\n' :: rest).reverse = rest.reverse ++ byte '\n' :: l.reverse := by simp
    rw [trimLineEnds_append hl, hreverse, unblanked_append_newline, unblanked_append_newline, hline]
    cases rest with
    | nil => simp [unblanked, trimLineEnds, lines_nil]
    | cons b rest =>
      have hlast : (l ++ byte '\n' :: b :: rest).getLast? = (b :: rest).getLast? := by
        rw [List.getLast?_append_of_ne_nil _ (by simp), List.getLast?_cons_cons]
      have hlength : (b :: rest).length < k := by
        rw [← hk]
        simp
        omega
      rw [ih _ hlength _ (by simp) rfl, hlast]
      split <;> simp
  · have hlast : t.getLast? ≠ some (byte '\n') := fun h => hmem (List.mem_of_getLast? h)
    rw [trimLineEnds_of_not_mem hmem ht, if_neg hlast, unblanked_line (by simpa using hmem)]
    simp [dropEndWhile]

theorem trimLineEnds_congr (h : unblanked false t.reverse = unblanked false u.reverse) :
    trimLineEnds t = trimLineEnds u := by
  have hlast : t.getLast? = u.getLast? := by
    rw [← List.head?_reverse, ← List.head?_reverse, ← head?_unblanked, h, head?_unblanked]
  by_cases ht : t = []
  · subst ht
    have hu : u = [] := by simpa using hlast.symm
    rw [hu]
  · have hu : u ≠ [] := by
      rintro rfl
      exact ht (by simpa using hlast)
    rw [trimLineEnds_eq t ht, trimLineEnds_eq u hu, hlast, unblanked_true, unblanked_true, h]

theorem isInlineBlank_of_mem_ofChars {sp : List Char} (h : ∀ c ∈ sp, isInline c = true) :
    ∀ b ∈ ofChars sp, isInlineBlank b = true := by
  induction sp with
  | nil =>
    intro b hb
    cases hb
  | cons c sp ih =>
    have hin := h c (by simp)
    simp only [isInline, Bool.and_eq_true, bne_iff_ne] at hin
    have hmem : c ∈ [' ', '\t', '\r', '\x0c', '\x0b'] := by
      simpa [Lexeme.isSpace, or_assoc, hin.2] using hin.1
    have hall : ∀ d ∈ [' ', '\t', '\r', '\x0c', '\x0b'], isInlineBlank (byte d) = true :=
      List.all_iff_forall_prop.mp rfl
    intro b hb
    rw [ofChars_cons_ascii (isSpace_lt hin.1), List.mem_cons] at hb
    rcases hb with rfl | hb
    · exact hall c hmem
    · exact ih (fun d hd => h d (by simp [hd])) b hb

/-- Settling a text that ends with no blank makes no difference, wherever it stands. -/
theorem unblanked_settled {w : List Char} (hw : Firm w) (r : Text) :
    unblanked false ((ofChars w).reverse ++ r) = unblanked false ((ofChars (FusionKit.settled w)).reverse ++ r) := by
  induction hk : w.length using Nat.strongRecOn generalizing w r with
  | ind k ih =>
  by_cases hmem : '\n' ∈ w
  · obtain ⟨l, rest, rfl, hl⟩ := List.eq_append_cons_of_mem hmem
    obtain ⟨v, sp, rfl, hv, hsp⟩ := exists_firm l hl
    have hvl : '\n' ∉ v := fun h => hl (List.mem_append_left _ h)
    have hrest : Firm rest := by
      intro c hc
      apply hw c
      rw [List.append_cons, List.getLast?_append, hc]
      rfl
    have hsettled : FusionKit.settled (v ++ sp ++ '\n' :: rest) = v ++ '\n' :: FusionKit.settled rest := by
      rw [List.append_assoc, settled_append hv, settled_of_firm hv hvl, (settled_inline hsp rfl).1,
        settled_newline]
    have hlf : ('\n' : Char).toNat < 128 := by decide
    have hreverse : ∀ u us : List Char, (ofChars (u ++ '\n' :: us)).reverse ++ r =
        (ofChars us).reverse ++ byte '\n' :: ((ofChars u).reverse ++ r) := by
      intro u us
      rw [ofChars_append, ofChars_cons_ascii hlf]
      simp
    have hlast : unblanked false (ofChars rest).reverse =
        unblanked false (ofChars (FusionKit.settled rest)).reverse := by
      have := @ih rest.length (by rw [← hk]; simp; omega) rest hrest [] rfl
      rwa [List.append_nil, List.append_nil] at this
    have hfirst : unblanked true ((ofChars (v ++ sp)).reverse ++ r) = unblanked true ((ofChars v).reverse ++ r) := by
      rw [ofChars_append, List.reverse_append, List.append_assoc, unblanked_inline]
      intro b hb
      exact isInlineBlank_of_mem_ofChars hsp b (List.mem_reverse.mp hb)
    rw [hsettled, hreverse, hreverse, unblanked_append_newline, unblanked_append_newline, hlast, hfirst]
  · rw [settled_of_firm hw hmem]

end

end Text

namespace Page

/-- A relation between pages that is kept by writing the same on both, and that is blind to all that
layout decisions look at: related pages end in one column and with one byte. -/
structure Congruence (R : Page → Page → Prop) : Prop where
  write : ∀ {p q : Page}, R p q → ∀ t, R (p.write t) (q.write t)
  column : ∀ {p q : Page}, R p q → p.column = q.column
  head : ∀ {p q : Page}, R p q → p.reversed.head? = q.reversed.head?

/-- A page with at least two braces on it. -/
def HasBraces (p : Page) : Prop := 2 ≤ p.reversed.count (byte '\x7b')

theorem HasBraces.write {p : Page} (h : p.HasBraces) (t : Text) : (p.write t).HasBraces := by
  unfold HasBraces Page.write at *
  rw [List.reverseAux_eq, List.count_append]
  omega

theorem HasBraces.annotated (p : Page) (l : Label) : ((p.annotations l).put "\x7b\x7b").HasBraces := by
  unfold HasBraces Page.put Page.write
  rw [List.reverseAux_eq, List.count_append]
  exact Nat.le_trans (by decide) (Nat.le_add_right _ _)

theorem HasBraces.clobItem {p : Page} (h : p.HasBraces) (indent : Int) (n : Node) :
    (p.clobItem indent n).HasBraces := by
  have hspaced : ∀ condition, (p.spaceIf condition).HasBraces := by
    intro condition
    cases condition with
    | true => exact h.write _
    | false => exact h
  have hscalar : ∀ condition, ((p.spaceIf condition).scalar n.label).HasBraces := by
    intro condition
    unfold Page.scalar
    have hnotes := (hspaced condition).write n.label.annotations.flatten
    split
    · exact ((hnotes.write _).write _).write _
    · dsimp only
      split
      · exact (hnotes.write _).write _
      · exact (((hnotes.write _).write _).write _).write _
    · exact hnotes.write _
  unfold Page.clobItem
  dsimp only
  split
  · exact ((hspaced _).write _).write _
  · exact (((hspaced _).write _).write _).write _
  · exact hscalar _

theorem HasBraces.clobItems {p : Page} (h : p.HasBraces) (indent : Int) (items : List Node) :
    (items.foldl (Page.clobItem indent) p).HasBraces := by
  induction items generalizing p with
  | nil => exact h
  | cons n ns ih => exact ih (h.clobItem indent n)

namespace Congruence

variable {R : Page → Page → Prop} (hR : Congruence R) {p q : Page}

include hR

theorem put (h : R p q) (s : String) : R (p.put s) (q.put s) := hR.write h _

theorem spaces (h : R p q) (n : Int) : R (p.spaces n) (q.spaces n) := hR.write h _

theorem newlines (h : R p q) (count indent : Int) : R (p.newlines count indent) (q.newlines count indent) :=
  hR.write (hR.write h _) _

theorem endsWithOneOf (h : R p q) (choices : String) : p.endsWithOneOf choices = q.endsWithOneOf choices := by
  have := hR.head h
  unfold Page.endsWithOneOf
  cases hp : p.reversed <;> cases hq : q.reversed <;> simp_all

theorem spaceIf (h : R p q) (condition : Bool) : R (p.spaceIf condition) (q.spaceIf condition) := by
  cases condition with
  | true => exact hR.put h " "
  | false => exact h

theorem annotations (h : R p q) (l : Label) : R (p.annotations l) (q.annotations l) := hR.write h _

theorem scalar (h : R p q) (l : Label) : R (p.scalar l) (q.scalar l) := by
  unfold Page.scalar
  have hnotes := hR.annotations h l
  split
  · exact hR.put (hR.write (hR.put hnotes _) _) _
  · dsimp only
    split
    · exact hR.put (hR.put hnotes _) _
    · exact hR.put (hR.write (hR.put (hR.put hnotes _) _) _) _
  · exact hR.write hnotes _

/-- With two bytes on a page that are no blanks, the last one tells whether there is a gap. -/
theorem endsWithGap (h : R p q) (hp : p.HasBraces) (hq : q.HasBraces) : p.endsWithGap = q.endsWithGap := by
  have hgap : ∀ r : Page, r.HasBraces → r.endsWithGap =
      (r.reversed.head?.map fun b => b == byte ' ' || b == byte '\n').getD false := by
    intro r hr
    have hlength := Nat.le_trans hr List.count_le_length
    unfold Page.endsWithGap
    match hr : r.reversed with
    | [] => rfl
    | [b] => simp [hr] at hlength
    | b :: c :: t => rfl
  rw [hgap p hp, hgap q hq, hR.head h]

theorem clobItem (h : R p q) (hp : p.HasBraces) (hq : q.HasBraces) (indent : Int) (n : Node) :
    R (p.clobItem indent n) (q.clobItem indent n) := by
  unfold Page.clobItem
  rw [hR.endsWithGap h hp hq]
  have hspaced := hR.spaceIf h (!n.isNewlines && !q.endsWithGap)
  split
  · exact hR.newlines hspaced _ _
  · exact hR.put (hR.write (hR.put hspaced _) _) _
  · exact hR.scalar hspaced _

theorem commentRest (h : R p q) (indent : Nat) (ls : List Text) :
    R (p.commentRest indent ls) (q.commentRest indent ls) := by
  induction ls generalizing p q with
  | nil => exact h
  | cons l ls ih =>
    unfold Page.commentRest
    dsimp only
    split
    · exact h
    · exact ih (hR.put (hR.write (hR.spaceIf (hR.put (hR.spaces h _) _) _) _) _)

theorem blockComment (h : R p q) (ls : List Text) : R (p.blockComment ls) (q.blockComment ls) := by
  unfold Page.blockComment
  rw [hR.column h]
  have hopened := hR.put h "/*"
  match ls with
  | [line] => exact hR.put (hR.put (hR.write (hR.put hopened _) _) _) _
  | [] => exact hR.put hopened _
  | line :: second :: rest =>
    have hfirst := hR.put (hR.write (hR.spaceIf hopened (!line.isAllBlank)) line) "\n"
    exact hR.put (hR.spaces (hR.commentRest hfirst _ _) _) _

theorem longString (h : R p q) (s : Settings) (l : Label) : R (p.longString s l) (q.longString s l) := by
  have hnotes := hR.annotations h l
  unfold Page.longString
  dsimp only
  rw [hR.column hnotes]
  generalize (if s.formatLongStrings = true then
    l.value.trimIndent.indentLines (q.annotations l).column else l.value) = contents
  have hwritten := hR.write (hR.put hnotes "'''") (Text.dropEndWhile Text.isIndent contents)
  rw [hR.endsWithOneOf hwritten]
  split
  · exact hR.put (hR.spaces hwritten _) _
  · exact hR.put hwritten _

theorem structKey (h : R p q) (l : Label) : R (p.structKey l) (q.structKey l) := by
  unfold Page.structKey
  rw [hR.endsWithOneOf h]
  exact hR.put (hR.write (hR.spaceIf h _) _) _

theorem comma (h : R p q) (n : Node) (rest : List Node) : R (Node.comma p n rest) (Node.comma q n rest) := by
  unfold Node.comma
  split
  · exact hR.put h _
  · exact h

/-- The items of a clob are written behind its two braces. -/
theorem clobItems (h : R p q) (hp : p.HasBraces) (hq : q.HasBraces) (indent : Int) (items : List Node) :
    R (items.foldl (Page.clobItem indent) p) (items.foldl (Page.clobItem indent) q) := by
  induction items generalizing p q with
  | nil => exact h
  | cons n ns ih => exact ih (hR.clobItem h hp hq indent n) (hp.clobItem indent n) (hq.clobItem indent n)

theorem clob (h : R p q) (indent : Int) (l : Label) (items : List Node) :
    R (p.clob indent l items) (q.clob indent l items) := by
  have hopened := hR.put (hR.annotations h l) "\x7b\x7b"
  have hp := HasBraces.annotated p l
  have hq := HasBraces.annotated q l
  unfold Page.clob
  dsimp only
  rw [hR.column hopened]
  generalize (if Node.contentBeforeBreak items = 0 then indent + 1
    else (((q.annotations l).put "\x7b\x7b").column : Int) + 1) = inner
  have hitems := hR.clobItems hopened hp hq inner items
  rw [hR.endsWithGap hitems (hp.clobItems inner items) (hq.clobItems inner items)]
  exact hR.put (hR.spaceIf hitems _) _

end Congruence

end Page

section

variable {R : Page → Page → Prop} (hR : Page.Congruence R) (s : Settings)

include hR

mutual

/-- Printing a node keeps pages related. -/
theorem Node.print_congr : ∀ (n : Node) (indent : Int) {p q : Page}, R p q →
    R (n.print s indent p) (n.print s indent q)
  | ⟨label, items⟩, indent, p, q, h => by
    have hnotes := hR.annotations h label
    unfold Node.print
    simp only [hR.column hnotes]
    cases label.kind with
    | clob => exact hR.clob h _ _ _
    | commentBlock => exact hR.blockComment h _
    | commentLine => exact hR.spaces (hR.write h _) _
    | multilineString => exact hR.longString h _ _
    | newlines => exact hR.newlines h _ _
    | structKey => exact hR.structKey h _
    | list => exact hR.put (Node.printList_congr items _ (hR.put hnotes _)) _
    | sexpr => exact hR.put (Node.printSExpr_congr items _ _ (hR.put hnotes _)) _
    | struct =>
      have hitems := Node.printStruct_congr items (q.annotations label).column (hR.put hnotes "\x7b")
      dsimp only
      rw [hR.endsWithOneOf hitems]
      exact hR.put (hR.spaceIf hitems _) _
    | _ => exact hR.scalar h _

theorem Node.printList_congr : ∀ (ns : List Node) (opening : Int) {p q : Page}, R p q →
    R (Node.printList s opening p ns) (Node.printList s opening q ns)
  | [], _, _, _, h => h
  | n :: ns, opening, p, q, h => by
    unfold Node.printList
    rw [hR.endsWithOneOf h]
    exact Node.printList_congr ns opening (hR.comma (Node.print_congr n _ (hR.spaceIf h _)) n ns)

theorem Node.printSExpr_congr : ∀ (ns : List Node) (indent : Int) (gaps : List Bool) {p q : Page}, R p q →
    R (Node.printSExpr s indent p ns gaps) (Node.printSExpr s indent q ns gaps)
  | [], _, _, _, _, h => h
  | n :: ns, indent, gaps, p, q, h => by
    unfold Node.printSExpr
    exact Node.printSExpr_congr ns indent gaps.tail (hR.spaceIf (Node.print_congr n _ h) _)

theorem Node.printStruct_congr : ∀ (ns : List Node) (opening : Int) {p q : Page}, R p q →
    R (Node.printStruct s opening p ns) (Node.printStruct s opening q ns)
  | [], _, _, _, h => h
  | n :: ns, opening, p, q, h => by
    unfold Node.printStruct
    rw [hR.endsWithOneOf h]
    split
    · exact Node.printStruct_congr ns opening (Node.print_congr n _ h)
    · exact Node.printStruct_congr ns opening (hR.comma (Node.print_congr n _ (hR.spaceIf h _)) n ns)

end

/-- Top-level nodes, one after the other. -/
theorem Node.foldl_print_congr (ns : List Node) {p q : Page} (h : R p q) :
    R (ns.foldl (fun p n => n.print s 0 p) p) (ns.foldl (fun p n => n.print s 0 p) q) := by
  induction ns generalizing p q with
  | nil => exact h
  | cons n ns ih => exact ih (Node.print_congr hR s n 0 h)

end

/-! ## Blanks at the ends of lines -/

namespace Page

/-- Pages that differ in blanks at the ends of finished lines only. -/
def Alike (p q : Page) : Prop := Text.unblanked false p.reversed = Text.unblanked false q.reversed

/-- No layout decision looks at blanks at the ends of finished lines. -/
theorem alike_congruence : Congruence Alike where
  write {p q} h t := by
    unfold Alike Page.write
    rw [List.reverseAux_eq, List.reverseAux_eq]
    exact Text.unblanked_append h false t.reverse
  column {p q} h := by
    rw [Page.column, Page.column, ← Text.takeWhile_unblanked, h, Text.takeWhile_unblanked]
  head {p q} h := by
    rw [← Text.head?_unblanked, h, Text.head?_unblanked]

namespace Alike

variable {p q r : Page}

theorem refl (p : Page) : Alike p p := rfl

theorem symm (h : Alike p q) : Alike q p := Eq.symm h

theorem trans (h : Alike p q) (h' : Alike q r) : Alike p r := Eq.trans h h'

theorem write (h : Alike p q) (t : Text) : Alike (p.write t) (q.write t) := alike_congruence.write h t

theorem put (h : Alike p q) (s : String) : Alike (p.put s) (q.put s) := h.write _

theorem column (h : Alike p q) : p.column = q.column := alike_congruence.column h

theorem endsWithOneOf (h : Alike p q) (choices : String) :
    p.endsWithOneOf choices = q.endsWithOneOf choices := alike_congruence.endsWithOneOf h choices

theorem spaceIf (h : Alike p q) (condition : Bool) : Alike (p.spaceIf condition) (q.spaceIf condition) :=
  alike_congruence.spaceIf h condition

theorem text (h : Alike p q) : p.text.trimLineEnds = q.text.trimLineEnds := by
  apply Text.trimLineEnds_congr
  rw [Page.text, Page.text, List.reverse_reverse, List.reverse_reverse]
  exact h

/-- Blanks at the ends of its lines make no difference to a text that ends with none. -/
theorem write_settled (h : Alike p q) {w : List Char} (hw : Firm w) :
    Alike (p.write (Text.ofChars w)) (q.write (Text.ofChars (settled w))) := by
  refine (h.write _).trans ?_
  unfold Alike Page.write
  rw [List.reverseAux_eq, List.reverseAux_eq]
  exact Text.unblanked_settled hw q.reversed

/-- Of the indents behind newline runs that follow one another the last one counts. -/
theorem newlines_join (p : Page) {a b : Nat} (hb : 0 < b) (i j : Int) :
    Alike ((p.newlines a i).newlines b j) (p.newlines (a + b : Nat) j) := by
  obtain ⟨c, rfl⟩ := Nat.exists_eq_succ_of_ne_zero (Nat.ne_of_gt hb)
  have hreversed : ∀ (q : Page) (n : Nat) (k : Int), (q.newlines n k).reversed =
      List.replicate k.toNat (byte ' ') ++ (List.replicate n (byte '\n') ++ q.reversed) := by
    intro q n k
    simp [Page.newlines, Page.spaces, Page.write, Text.repeated, List.reverseAux_eq]
  have hblanks : ∀ b ∈ List.replicate i.toNat (byte ' '), Text.isInlineBlank b = true := by
    intro b hb
    rw [List.eq_of_mem_replicate hb]
    rfl
  -- the line feed that comes last ends the line of the first indent
  have hsplit : ∀ t : Text, List.replicate j.toNat (byte ' ') ++ (List.replicate (c + 1) (byte '\n') ++ t) =
      List.replicate j.toNat (byte ' ') ++ List.replicate c (byte '\n') ++ byte '\n' :: t := by
    intro t
    rw [List.replicate_succ']
    simp
  have hjoined : List.replicate (a + (c + 1)) (byte '\n') ++ p.reversed =
      List.replicate (c + 1) (byte '\n') ++ (List.replicate a (byte '\n') ++ p.reversed) := by
    rw [Nat.add_comm, ← List.replicate_append_replicate, List.append_assoc]
  unfold Alike
  rw [hreversed, hreversed, hreversed, hjoined, hsplit, hsplit, Text.unblanked_append_newline,
    Text.unblanked_append_newline, Text.unblanked_inline hblanks]

theorem braces (h : Alike p q) (hp : p.HasBraces) : q.HasBraces := by
  unfold HasBraces at *
  rwa [← Text.count_unblanked (by decide) false, ← h, Text.count_unblanked (by decide)]

end Alike

end Page

end FusionKit
