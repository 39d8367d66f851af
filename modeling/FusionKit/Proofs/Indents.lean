import FusionKit.Proofs.Blanks
import FusionKit.Proofs.Paths
import Mathlib.Data.List.Forall2
import Mathlib.Order.Bounds.Basic

/-!
# The indent that lines share

Trimming a text takes the indent away that its lines have in common. The common indent is measured
on lines without a carriage return at their end and without an empty last one; trimming counts the
spaces and tabs of a line wherever they stand. Still a line with text loses its first bytes and
nothing else, because the count is used up before its text begins; and as the smallest indent is
gone then, trimming a second time changes nothing.
-/
set_option autoImplicit false

namespace FusionKit

namespace Text

/-- The second text is the first one without some of the bytes satisfying `p`. -/
inductive LosesOnly (p : UInt8 → Bool) : Text → Text → Prop
  | nil : LosesOnly p [] []
  | keep {s t : Text} (b : UInt8) : LosesOnly p s t → LosesOnly p (b :: s) (b :: t)
  | lose {s t : Text} {b : UInt8} : p b = true → LosesOnly p s t → LosesOnly p (b :: s) t

/-- The smallest indent of the lines that are not all white space; zero when there is none. -/
def IsCommonIndent (ls : List Text) (m : Nat) : Prop :=
  IsLeast { n | ∃ l ∈ ls, l.isAllBlank = false ∧ l.indentLength = n } m ∨
    (∀ l ∈ ls, l.isAllBlank = true) ∧ m = 0

/-- What becomes of a line when its text moves to the left by `m` bytes. -/
structure Outdented (m : Nat) (l l' : Text) : Prop where
  /-- A line with text loses its first bytes, which are indent. -/
  indent : l.isAllBlank = false →
    ∃ first, l = first ++ l' ∧ first.length = m ∧ ∀ b ∈ first, isIndent b = true
  /-- So it keeps its text. -/
  text : l.isAllBlank = false → l'.dropWhile isIndent = l.dropWhile isIndent
  /-- A blank line loses spaces and tabs. -/
  blank : l.isAllBlank = true → LosesOnly isIndent l l'

/-! ## White space -/

theorem isAllBlank_iff {t : Text} :
    t.isAllBlank = true ↔ ∃ cs : List Char, t = ofChars cs ∧ ∀ c ∈ cs, isBlank c = true := by
  constructor
  · intro h
    obtain ⟨cs, rest, hsplit, -, hcs, hstops⟩ := Lexeme.run_split isBlank t.glyphs
    have hrest : rest = [] := by
      cases rest with
      | nil => rfl
      | cons g rest =>
        have hg : g.isCharWith isBlank = true := List.all_eq_true.mp h g (by simp [hsplit])
        cases g with
        | stray b => cases hg
        | char c => exact absurd hg (by simpa [Glyph.isCharWith] using hstops c rfl)
    refine ⟨cs, ?_, hcs⟩
    rw [← ofGlyphs_glyphs t, hsplit, hrest, List.append_nil, ofGlyphs_ofChars]
  · rintro ⟨cs, rfl, h⟩
    rw [isAllBlank, glyphs_ofChars, Glyph.ofChars, List.all_map]
    exact List.all_eq_true.mpr h

theorem isAllBlank_encode {c : Char} (hc : isBlank c = true) (t : Text) :
    isAllBlank (String.utf8EncodeChar c ++ t) = isAllBlank t := by
  rw [isAllBlank, glyphs_encode, List.all_cons, Glyph.isCharWith, hc, Bool.true_and, isAllBlank]

theorem exists_char_of_isIndent {b : UInt8} (h : isIndent b = true) :
    ∃ d : Char, byte d = b ∧ d.toNat < 128 ∧ isBlank d = true := by
  simp only [isIndent, Bool.or_eq_true, beq_iff_eq] at h
  rcases h with rfl | rfl
  · exact ⟨' ', rfl, by decide, by decide⟩
  · exact ⟨'\t', rfl, by decide, by decide⟩

theorem isAllBlank_indent {b : UInt8} (h : isIndent b = true) (t : Text) :
    isAllBlank (b :: t) = isAllBlank t := by
  obtain ⟨d, rfl, hd, hblank⟩ := exists_char_of_isIndent h
  rw [← isAllBlank_encode hblank t, encode_one hd]
  rfl

theorem isAllBlank_append_indent {s : Text} (h : ∀ b ∈ s, isIndent b = true) (t : Text) :
    isAllBlank (s ++ t) = isAllBlank t := by
  induction s with
  | nil => rfl
  | cons b s ih =>
    rw [List.cons_append, isAllBlank_indent (h b (by simp)), ih fun c hc => h c (by simp [hc])]

/-- A byte that is indent is a character of its own. -/
theorem encode_eq_of_mem_isIndent {c : Char} {b : UInt8} (hb : b ∈ String.utf8EncodeChar c)
    (h : isIndent b = true) : String.utf8EncodeChar c = [b] := by
  obtain ⟨d, rfl, hd, -⟩ := exists_char_of_isIndent h
  rw [eq_of_mem_encode hd hb]
  exact encode_one hd

/-- Characters whose bytes end in that of an ASCII character end in this character. -/
theorem exists_ofChars_of_append_byte {d : Char} (hd : d.toNat < 128) {t : Text} {cs : List Char}
    (h : t ++ [byte d] = ofChars cs) : ∃ ds, cs = ds ++ [d] ∧ t = ofChars ds := by
  rcases List.eq_nil_or_concat cs with rfl | ⟨ds, c, rfl⟩
  · simp [ofChars] at h
  · obtain ⟨bs, b, hb⟩ := (List.eq_nil_or_concat (String.utf8EncodeChar c)).resolve_left (by simp)
    rw [List.concat_eq_append] at h hb ⊢
    have hlast : ofChars [c] = bs ++ [b] := by simp [← hb, ofChars]
    rw [ofChars_append, hlast, ← List.append_assoc] at h
    obtain ⟨rfl, hbyte⟩ := List.append_inj' h rfl
    obtain rfl : c = d := eq_of_mem_encode hd (by simp [hb, List.cons.inj hbyte |>.1])
    have hlen : (bs ++ [b]).length = 1 := by rw [← hb, encode_one hd]; rfl
    have hnil : bs = [] := by simpa using hlen
    exact ⟨ds, rfl, by rw [hnil, List.append_nil]⟩

theorem isAllBlank_append_cr (t : Text) : isAllBlank (t ++ [byte '\r']) = isAllBlank t := by
  rw [Bool.eq_iff_iff, isAllBlank_iff, isAllBlank_iff]
  constructor
  · rintro ⟨cs, heq, hcs⟩
    obtain ⟨ds, rfl, hds⟩ := exists_ofChars_of_append_byte (by decide) heq
    exact ⟨ds, hds, fun d hd => hcs d (by simp [hd])⟩
  · rintro ⟨cs, rfl, hcs⟩
    refine ⟨cs ++ ['\r'], by rw [ofChars_append]; rfl, fun c hc => ?_⟩
    rcases List.mem_append.mp hc with hc | hc
    · exact hcs c hc
    · rw [List.mem_singleton.mp hc]
      decide

theorem LosesOnly.append_left {p : UInt8 → Bool} {u v t : Text} (h : LosesOnly p (u ++ v) t)
    (hu : ∀ b ∈ u, p b = false) : ∃ w, t = u ++ w ∧ LosesOnly p v w := by
  induction u generalizing t with
  | nil => exact ⟨t, rfl, h⟩
  | cons b u ih =>
    cases h with
    | keep _ h =>
      obtain ⟨w, rfl, hw⟩ := ih h fun c hc => hu c (by simp [hc])
      exact ⟨w, rfl, hw⟩
    | lose hb _ => simp [hu b (by simp)] at hb

/-- A blank text stays blank when spaces and tabs are taken away. -/
theorem LosesOnly.isAllBlank {s t : Text} (h : LosesOnly isIndent s t) (hs : s.isAllBlank = true) :
    t.isAllBlank = true := by
  obtain ⟨cs, rfl, hcs⟩ := isAllBlank_iff.mp hs
  clear hs
  -- the bytes of a character are either one byte of indent or hold none
  induction cs generalizing t with
  | nil => cases h; rfl
  | cons c cs ih =>
    have hc := hcs c (by simp)
    have ih : ∀ u, LosesOnly isIndent (ofChars cs) u → u.isAllBlank = true := fun u hu =>
      ih (fun d hd => hcs d (by simp [hd])) hu
    rw [ofChars_cons] at h
    by_cases hindent : ∃ b ∈ String.utf8EncodeChar c, isIndent b = true
    · obtain ⟨b, hmem, hb⟩ := hindent
      rw [encode_eq_of_mem_isIndent hmem hb, List.singleton_append] at h
      cases h with
      | keep _ h =>
        rw [isAllBlank_indent hb]
        exact ih _ h
      | lose _ h => exact ih _ h
    · obtain ⟨w, rfl, hw⟩ := h.append_left (by simpa using hindent)
      rw [isAllBlank_encode hc]
      exact ih w hw

/-! ## The common indent -/

theorem trimEnd_cr_eq (t : Text) :
    trimEnd [byte '\r'] t = t ∨ trimEnd [byte '\r'] t ++ [byte '\r'] = t := by
  by_cases h : [byte '\r'].isSuffixOf t = true
  · obtain ⟨s, rfl⟩ := List.isSuffixOf_iff_suffix.mp h
    exact .inr (by rw [trimEnd_append])
  · exact .inl (by rw [trimEnd, if_neg h])

theorem isAllBlank_trimEnd_cr (t : Text) : isAllBlank (trimEnd [byte '\r'] t) = isAllBlank t := by
  rcases trimEnd_cr_eq t with h | h
  · rw [h]
  · rw [← isAllBlank_append_cr, h]

theorem indentLength_append_cr (t : Text) : indentLength (t ++ [byte '\r']) = indentLength t := by
  induction t with
  | nil => decide
  | cons b t ih =>
    unfold indentLength at ih ⊢
    rw [List.cons_append, List.takeWhile_cons, List.takeWhile_cons]
    split
    · rw [List.length_cons, ih, List.length_cons]
    · rfl

theorem indentLength_trimEnd_cr (t : Text) : indentLength (trimEnd [byte '\r'] t) = indentLength t := by
  rcases trimEnd_cr_eq t with h | h
  · rw [h]
  · rw [← indentLength_append_cr, h]

/-- How deep the lines with text are indented. -/
def textIndents (ls : List Text) : List Nat :=
  (ls.filter fun l => !isAllBlank l).map indentLength

theorem mem_textIndents {ls : List Text} {n : Nat} :
    n ∈ textIndents ls ↔ ∃ l ∈ ls, l.isAllBlank = false ∧ l.indentLength = n := by
  simp [textIndents, and_assoc]

theorem isCommonIndent_textIndents (ls : List Text) : IsCommonIndent ls ((textIndents ls).min?.getD 0) := by
  cases hmin : (textIndents ls).min? with
  | none =>
    refine .inr ⟨fun l hl => ?_, rfl⟩
    rw [List.min?_eq_none_iff] at hmin
    by_contra h
    have hmem := mem_textIndents.mpr ⟨l, hl, by simpa using h, rfl⟩
    simp [hmin] at hmem
  | some m =>
    obtain ⟨hmem, hleast⟩ := List.min?_eq_some_iff.mp hmin
    exact .inl ⟨mem_textIndents.mp hmem, fun n hn => hleast n (mem_textIndents.mpr hn)⟩

theorem IsCommonIndent.unique {ls : List Text} {m n : Nat} (hm : IsCommonIndent ls m)
    (hn : IsCommonIndent ls n) : m = n := by
  rcases hm with hm | ⟨hblank, rfl⟩ <;> rcases hn with hn | ⟨hblank', rfl⟩
  · exact hm.unique hn
  · obtain ⟨l, hl, htext, -⟩ := hm.1
    rw [hblank' l hl] at htext
    cases htext
  · obtain ⟨l, hl, htext, -⟩ := hn.1
    rw [hblank l hl] at htext
    cases htext
  · rfl

/-- A carriage return at the end of a line and an empty last line do not matter. -/
theorem textIndents_lines (t : Text) : textIndents t.lines = textIndents (piecesAt (byte '\n') t) := by
  have htrim : ∀ ls : List Text, textIndents (ls.map (trimEnd [byte '\r'])) = textIndents ls := by
    intro ls
    simp [textIndents, List.filter_map, Function.comp_def, isAllBlank_trimEnd_cr, indentLength_trimEnd_cr]
  unfold lines
  split
  · rename_i h
    rw [List.isEmpty_iff.mp h]
    rfl
  · rw [htrim]
    split
    · rename_i h
      rw [beq_iff_eq] at h
      obtain ⟨ls, hls⟩ := List.getLast?_eq_some_iff.mp h
      rw [hls, List.dropLast_concat]
      have hblank : isAllBlank [] = true := rfl
      simp [textIndents, hblank]
    · rfl

theorem isCommonIndent_commonIndent (t : Text) : IsCommonIndent (piecesAt (byte '\n') t) (commonIndent t) := by
  have h := isCommonIndent_textIndents (piecesAt (byte '\n') t)
  rwa [← textIndents_lines] at h

/-! ## Trimming line by line -/

theorem isIndent_lf : isIndent (byte '\n') = false := by decide

theorem dropIndent_cons {b : UInt8} (hb : b ≠ byte '\n') (limit seen : Nat) (t : Text) :
    dropIndent limit seen (b :: t) =
      if isIndent b then
        if limit < seen + 1 then b :: dropIndent limit (seen + 1) t else dropIndent limit (seen + 1) t
      else b :: dropIndent limit seen t := by
  simp [dropIndent, hb]

theorem dropIndent_lf (limit seen : Nat) (t : Text) :
    dropIndent limit seen (byte '\n' :: t) = byte '\n' :: dropIndent limit 0 t := by
  simp [dropIndent, isIndent_lf]

theorem piecesAt_cons {b c : UInt8} (hc : c ≠ b) {t p : Text} {ps : List Text} (h : piecesAt b t = p :: ps) :
    piecesAt b (c :: t) = (c :: p) :: ps := by
  rw [piecesAt, if_neg (by simpa using hc), h]

/-- Trimming goes line by line; the count goes on in the first one. -/
theorem piecesAt_dropIndent (limit : Nat) {t p : Text} {ps : List Text} (h : piecesAt (byte '\n') t = p :: ps)
    (seen : Nat) :
    piecesAt (byte '\n') (dropIndent limit seen t) =
      dropIndent limit seen p :: ps.map (dropIndent limit 0) := by
  induction t generalizing p ps seen with
  | nil =>
    cases h
    rfl
  | cons b t ih =>
    obtain ⟨q, qs, hq⟩ := List.exists_cons_of_ne_nil (piecesAt_ne_nil (byte '\n') t)
    by_cases hb : b = byte '\n'
    · subst hb
      rw [piecesAt, if_pos (by simp), hq] at h
      cases h
      rw [dropIndent_lf, piecesAt, if_pos (by simp), ih hq]
      rfl
    · rw [piecesAt_cons hb hq] at h
      cases h
      rw [dropIndent_cons hb, dropIndent_cons hb]
      split
      · split
        · exact piecesAt_cons hb (ih hq _)
        · exact ih hq _
      · exact piecesAt_cons hb (ih hq _)

theorem piecesAt_trimIndent (t : Text) :
    piecesAt (byte '\n') t.trimIndent = (piecesAt (byte '\n') t).map (dropIndent t.commonIndent 0) := by
  obtain ⟨p, ps, h⟩ := List.exists_cons_of_ne_nil (piecesAt_ne_nil (byte '\n') t)
  rw [h, trimIndent, piecesAt_dropIndent _ h]
  rfl

theorem losesOnly_dropIndent (limit seen : Nat) (t : Text) :
    LosesOnly isIndent t (dropIndent limit seen t) := by
  fun_induction dropIndent limit seen t with
  | case1 seen => exact .nil
  | case2 seen b t hb hlt ih => exact .keep b ih
  | case3 seen b t hb hlt ih => exact .lose hb ih
  | case4 seen b t hb hlf ih => exact .keep b ih
  | case5 seen b t hb hlf ih => exact .keep b ih

/-- Once the limit is reached, the rest of the line stays. -/
theorem dropIndent_of_le {limit seen : Nat} (h : limit ≤ seen) {l : Text} (hl : byte '\n' ∉ l) :
    dropIndent limit seen l = l := by
  induction l generalizing seen with
  | nil => rfl
  | cons b l ih =>
    simp only [List.mem_cons, not_or] at hl
    rw [dropIndent_cons (Ne.symm hl.1), if_pos (Nat.lt_succ_of_le h), ih (Nat.le_succ_of_le h) hl.2,
      ih h hl.2, ite_self]

/-- Indent up to the limit goes. -/
theorem dropIndent_append {limit seen : Nat} {first l : Text} (h : seen + first.length = limit)
    (hfirst : ∀ b ∈ first, isIndent b = true) (hl : byte '\n' ∉ l) :
    dropIndent limit seen (first ++ l) = l := by
  induction first generalizing seen with
  | nil => exact dropIndent_of_le (by simpa using h.ge) hl
  | cons b first ih =>
    have hb := hfirst b (by simp)
    have hne : b ≠ byte '\n' := by
      rintro rfl
      rw [isIndent_lf] at hb
      cases hb
    rw [List.length_cons] at h
    rw [List.cons_append, dropIndent_cons hne, if_pos hb, if_neg (by omega)]
    exact ih (by omega) fun c hc => hfirst c (by simp [hc])

/-! ## What becomes of a line -/

theorem indentLength_append {first : Text} (h : ∀ b ∈ first, isIndent b = true) (l : Text) :
    indentLength (first ++ l) = first.length + indentLength l := by
  rw [indentLength, List.takeWhile_append_of_pos h, List.length_append, indentLength]

theorem exists_indent {m : Nat} {l : Text} (h : m ≤ l.indentLength) :
    ∃ first rest, l = first ++ rest ∧ first.length = m ∧ ∀ b ∈ first, isIndent b = true := by
  refine ⟨l.take m, l.drop m, (List.take_append_drop m l).symm, ?_, fun b hb => ?_⟩
  · exact List.length_take_of_le (h.trans (List.takeWhile_sublist _).length_le)
  · rw [← List.takeWhile_append_dropWhile (p := isIndent) (l := l), List.take_append_of_le_length h] at hb
    exact List.all_eq_true.mp List.all_takeWhile b (List.mem_of_mem_take hb)

theorem outdented_dropIndent {m : Nat} {l : Text} (hl : byte '\n' ∉ l)
    (h : l.isAllBlank = false → m ≤ l.indentLength) : Outdented m l (dropIndent m 0 l) := by
  have hindent : l.isAllBlank = false → ∃ first, l = first ++ dropIndent m 0 l ∧ first.length = m ∧
      ∀ b ∈ first, isIndent b = true := by
    intro htext
    obtain ⟨first, rest, rfl, hlen, hfirst⟩ := exists_indent (h htext)
    have hrest : byte '\n' ∉ rest := fun hmem => hl (List.mem_append_right first hmem)
    exact ⟨first, by rw [dropIndent_append (by omega) hfirst hrest], hlen, hfirst⟩
  refine ⟨hindent, fun htext => ?_, fun _ => losesOnly_dropIndent m 0 l⟩
  obtain ⟨first, heq, -, hfirst⟩ := hindent htext
  conv_rhs => rw [heq, List.dropWhile_append_of_pos hfirst]

theorem Outdented.isAllBlank {m : Nat} {l l' : Text} (h : Outdented m l l') : l'.isAllBlank = l.isAllBlank := by
  cases hl : l.isAllBlank with
  | false =>
    obtain ⟨first, rfl, -, hfirst⟩ := h.indent hl
    rwa [isAllBlank_append_indent hfirst] at hl
  | true => exact (h.blank hl).isAllBlank hl

theorem Outdented.indentLength {m : Nat} {l l' : Text} (h : Outdented m l l') (hl : l.isAllBlank = false) :
    l.indentLength = m + l'.indentLength := by
  obtain ⟨first, rfl, rfl, hfirst⟩ := h.indent hl
  exact indentLength_append hfirst l'

theorem IsCommonIndent.le {ls : List Text} {m : Nat} (h : IsCommonIndent ls m) {l : Text} (hl : l ∈ ls)
    (htext : l.isAllBlank = false) : m ≤ l.indentLength := by
  rcases h with h | ⟨-, rfl⟩
  · exact h.2 ⟨l, hl, htext, rfl⟩
  · exact Nat.zero_le _

/-- Of lines that all move to the left by their common indent, one starts with its text then. -/
theorem IsCommonIndent.map {ls : List Text} {m : Nat} (h : IsCommonIndent ls m) {f : Text → Text}
    (hf : ∀ l ∈ ls, Outdented m l (f l)) : IsCommonIndent (ls.map f) 0 := by
  rcases h with ⟨⟨l, hl, htext, hlen⟩, -⟩ | ⟨hblank, -⟩
  · have hout := hf l hl
    have hzero := hout.indentLength htext
    refine .inl ⟨⟨f l, List.mem_map_of_mem hl, hout.isAllBlank.trans htext, by omega⟩, fun n _ => n.zero_le⟩
  · refine .inr ⟨fun l' hl' => ?_, rfl⟩
    obtain ⟨l, hl, rfl⟩ := List.mem_map.mp hl'
    rw [(hf l hl).isAllBlank, hblank l hl]

/-! ## Trimming a text -/

theorem outdented_of_mem {t l : Text} (h : l ∈ piecesAt (byte '\n') t) :
    Outdented t.commonIndent l (dropIndent t.commonIndent 0 l) :=
  outdented_dropIndent (not_mem_of_mem_piecesAt h) ((isCommonIndent_commonIndent t).le h)

theorem commonIndent_trimIndent (t : Text) : t.trimIndent.commonIndent = 0 := by
  refine (isCommonIndent_commonIndent t.trimIndent).unique ?_
  rw [piecesAt_trimIndent]
  exact (isCommonIndent_commonIndent t).map fun l hl => outdented_of_mem hl

theorem dropIndent_zero (seen : Nat) (t : Text) : dropIndent 0 seen t = t := by
  induction t generalizing seen with
  | nil => rfl
  | cons b t ih => simp [dropIndent, ih]

/-- Trimming moves the lines with text to the left by the smallest of their indents, which changes
nothing but the indent, and takes only spaces and tabs from the blank lines. Then a line with text has
no indent any more, if there is such a line, and trimming once more changes nothing. -/
theorem trimIndent_outdents (t : Text) :
    IsCommonIndent (piecesAt (byte '\n') t) t.commonIndent ∧
      List.Forall₂ (Outdented t.commonIndent) (piecesAt (byte '\n') t) (piecesAt (byte '\n') t.trimIndent) ∧
      t.trimIndent.commonIndent = 0 ∧ t.trimIndent.trimIndent = t.trimIndent := by
  refine ⟨isCommonIndent_commonIndent t, ?_, commonIndent_trimIndent t, ?_⟩
  · rw [piecesAt_trimIndent, List.forall₂_map_right_iff, List.forall₂_same]
    exact fun l hl => outdented_of_mem hl
  · conv_lhs => rw [trimIndent, commonIndent_trimIndent, dropIndent_zero]

end Text

end FusionKit
