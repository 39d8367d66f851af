import FusionKit.Text.Blank
import FusionKit.Proofs.LineEnds

/-!
# Blanks around a text

Taking known beginnings and ends and the white space at the two ends away, over characters. White
space here is that of Unicode, of which the blanks of the language are a part.
-/
set_option autoImplicit false

namespace FusionKit

open Lexeme (isSpace isBase64)

theorem isBlank_of_isSpace {c : Char} (h : isSpace c = true) : isBlank c = true := by
  have hmem : c ∈ [' ', '\t', '\r', '\n', '\x0c', '\x0b'] := by
    simpa [Lexeme.isSpace, or_assoc] using h
  have hall : ∀ d ∈ [' ', '\t', '\r', '\n', '\x0c', '\x0b'], isBlank d = true :=
    List.all_iff_forall_prop.mp rfl
  exact hall c hmem

theorem isSpace_of_not_isBlank {c : Char} (h : isBlank c = false) : isSpace c = false := by
  by_contra hs
  rw [Bool.not_eq_false] at hs
  rw [isBlank_of_isSpace hs] at h
  contradiction

theorem isBlank_of_isBase64 {c : Char} (h : isBase64 c = true) : isBlank c = false := by
  have hall : ∀ n : Fin 128, isBase64 (Char.ofNat n) = true → isBlank (Char.ofNat n) = false := by
    decide
  have := hall ⟨c.toNat, Text.isBase64_lt h⟩
  simp only [Char.ofNat_toNat] at this
  exact this h

namespace Text

theorem trimStart_append (b t : Text) : trimStart b (b ++ t) = t := by
  unfold trimStart
  rw [if_pos (List.isPrefixOf_iff_prefix.mpr (List.prefix_append b t)), List.drop_left]

theorem trimEnd_append (e t : Text) : trimEnd e (t ++ e) = t := by
  unfold trimEnd
  rw [if_pos (List.isSuffixOf_iff_suffix.mpr (List.suffix_append t e)), List.length_append,
    Nat.add_sub_cancel, List.take_left]

end Text

/-- The characters without white space at the two ends. -/
def stripped (cs : List Char) : List Char :=
  ((cs.dropWhile isBlank).reverse.dropWhile isBlank).reverse

theorem dropWhile_ofChars (p : Char → Bool) (cs : List Char) :
    (Glyph.ofChars cs).dropWhile (Glyph.isCharWith p) = Glyph.ofChars (cs.dropWhile p) := by
  induction cs with
  | nil => rfl
  | cons c cs ih =>
    have hg : Glyph.isCharWith p (Glyph.char c) = p c := rfl
    simp only [Glyph.ofChars, List.map_cons, List.dropWhile_cons, hg] at ih ⊢
    by_cases hc : p c = true
    · rw [if_pos hc, if_pos hc, ih]
    · rw [if_neg hc, if_neg hc, List.map_cons]

theorem Text.strip_ofChars (cs : List Char) :
    Text.strip (Text.ofChars cs) = Text.ofChars (stripped cs) := by
  unfold Text.strip stripped
  have hrev : ∀ l : List Char, (Glyph.ofChars l).reverse = Glyph.ofChars l.reverse := by
    intro l
    simp [Glyph.ofChars]
  simp only [Text.glyphs_ofChars, dropWhile_ofChars, hrev, Text.ofGlyphs_ofChars]

/-- Neither the first nor the last character is white space. -/
def Trimmed (w : List Char) : Prop :=
  (∀ c, w.head? = some c → isBlank c = false) ∧ ∀ c, w.getLast? = some c → isBlank c = false

theorem dropWhile_append_of_head {p : Char → Bool} {sp w : List Char} (hsp : ∀ c ∈ sp, p c = true)
    (hw : ∀ c, w.head? = some c → p c = false) : (sp ++ w).dropWhile p = w := by
  rw [List.dropWhile_append_of_pos hsp]
  cases w with
  | nil => rfl
  | cons c w => rw [List.dropWhile_cons, hw c rfl]; rfl

/-- Blanks around a text are what stripping it takes away. -/
theorem stripped_around (sp : List Char) {w : List Char} (sp' : List Char)
    (hsp : ∀ c ∈ sp, isBlank c = true) (hsp' : ∀ c ∈ sp', isBlank c = true) (hw : Trimmed w) :
    stripped (sp ++ w ++ sp') = w := by
  unfold stripped
  rcases List.eq_nil_or_concat w with rfl | ⟨v, c, rfl⟩
  · have hall : ∀ c ∈ sp ++ sp', isBlank c = true := fun c hc =>
      (List.mem_append.mp hc).elim (hsp c) (hsp' c)
    have hnil := dropWhile_append_of_head (w := []) hall (by simp)
    rw [List.append_nil] at hnil
    rw [List.append_nil, hnil]
    rfl
  · rw [List.concat_eq_append] at hw ⊢
    have hhead : ∀ d, ((v ++ [c]) ++ sp').head? = some d → isBlank d = false := by
      intro d hd
      refine hw.1 d ?_
      cases v with
      | nil => simpa using hd
      | cons e v => simpa using hd
    rw [List.append_assoc, dropWhile_append_of_head hsp hhead, List.reverse_append,
      dropWhile_append_of_head (by simpa using hsp')]
    · rw [List.reverse_reverse]
    · intro d hd
      refine hw.2 d ?_
      rwa [List.head?_reverse] at hd

theorem trimmed_stripped (cs : List Char) : Trimmed (stripped cs) := by
  have hdrop : ∀ (l : List Char) c, (l.dropWhile isBlank).head? = some c → isBlank c = false := by
    intro l c hc
    have := List.head?_dropWhile_not isBlank l
    rw [hc] at this
    simpa using this
  constructor
  · intro c hc
    unfold stripped at hc
    rw [List.head?_reverse] at hc
    have hsub : (cs.dropWhile isBlank).reverse.dropWhile isBlank ≠ [] := by
      intro h
      rw [h] at hc
      simp at hc
    refine hdrop cs c ?_
    obtain ⟨pre, hpre⟩ := List.dropWhile_suffix isBlank (l := (cs.dropWhile isBlank).reverse)
    have hrev : cs.dropWhile isBlank =
        ((cs.dropWhile isBlank).reverse.dropWhile isBlank).reverse ++ pre.reverse := by
      rw [← List.reverse_append, hpre, List.reverse_reverse]
    rw [hrev, List.head?_append, List.head?_reverse, hc]
    rfl
  · intro c hc
    unfold stripped at hc
    rw [List.getLast?_reverse] at hc
    exact hdrop _ c hc

theorem exists_takeWhile_dropWhile (p : Char → Bool) (l : List Char) :
    ∃ a, l = a ++ l.dropWhile p ∧ ∀ c ∈ a, p c = true :=
  ⟨l.takeWhile p, (List.takeWhile_append_dropWhile).symm, List.all_eq_true.mp List.all_takeWhile⟩

/-- Stripping a text takes nothing but blanks away. -/
theorem exists_stripped (cs : List Char) :
    ∃ a b, cs = a ++ stripped cs ++ b ∧ (∀ c ∈ a, isBlank c = true) ∧ ∀ c ∈ b, isBlank c = true := by
  obtain ⟨a, ha, hablank⟩ := exists_takeWhile_dropWhile isBlank cs
  obtain ⟨b, hb, hbblank⟩ := exists_takeWhile_dropWhile isBlank (cs.dropWhile isBlank).reverse
  refine ⟨a, b.reverse, ?_, hablank, by simpa using hbblank⟩
  have hdrop := congrArg List.reverse hb
  rw [List.reverse_reverse, List.reverse_append] at hdrop
  rw [List.append_assoc, stripped, ← hdrop, ← ha]

theorem stripped_blanks (sp w sp' : List Char) (hsp : ∀ c ∈ sp, isBlank c = true)
    (hsp' : ∀ c ∈ sp', isBlank c = true) : stripped (sp ++ w ++ sp') = stripped w := by
  obtain ⟨a, b, hw, ha, hb⟩ := exists_stripped w
  have hsplit : sp ++ w ++ sp' = (sp ++ a) ++ stripped w ++ (b ++ sp') := by
    conv_lhs => rw [hw]
    simp
  rw [hsplit]
  refine stripped_around _ _ ?_ ?_ (trimmed_stripped w)
  · exact fun c hc => (List.mem_append.mp hc).elim (hsp c) (ha c)
  · exact fun c hc => (List.mem_append.mp hc).elim (hb c) (hsp' c)

/-! ## Contents of blobs -/

/-- A blob with the given contents, as it is printed. -/
def braced (w : List Char) : List Char :=
  "\x7b\x7b".toList ++ (if w = [] then [] else ' ' :: w) ++ " \x7d\x7d".toList

/-- The contents of a blob, without blanks around them. -/
structure BlobText (w : List Char) : Prop where
  chars : ∀ c ∈ w, (isSpace c || isBase64 c) = true
  starts : ∀ c, w.head? = some c → isSpace c = false
  firm : Firm w

theorem isBlank_of_blob {c : Char} (h : (isSpace c || isBase64 c) = true) (hc : isSpace c = false) :
    isBlank c = false := by
  rw [hc, Bool.false_or] at h
  exact isBlank_of_isBase64 h

theorem settled_head {w : List Char} (h : ∀ c, w.head? = some c → isSpace c = false) :
    (settled w).head? = w.head? := by
  cases w with
  | nil => rfl
  | cons c w => simp [settled, isInline, h c rfl]

theorem settled_getLast {w : List Char} (h : Firm w) : (settled w).getLast? = w.getLast? := by
  rcases List.eq_nil_or_concat w with rfl | ⟨v, c, rfl⟩
  · rfl
  · rw [List.concat_eq_append] at h ⊢
    have hc : isSpace c = false := h c (by simp)
    obtain ⟨v', -, hv'⟩ := settled_append_exists v [c]
    rw [hv']
    simp [settled, isInline, hc]

theorem BlobText.settled {w : List Char} (h : BlobText w) : BlobText (settled w) where
  chars c hc := h.chars c ((settled_sublist w).subset hc)
  starts c hc := h.starts c (by rwa [settled_head h.starts] at hc)
  firm c hc := h.firm c (by rwa [settled_getLast h.firm] at hc)

theorem BlobText.trimmed {w : List Char} (h : BlobText w) : Trimmed w :=
  ⟨fun c hc => isBlank_of_blob (h.chars c (List.mem_of_mem_head? hc)) (h.starts c hc),
    fun c hc => isBlank_of_blob (h.chars c (List.mem_of_mem_getLast? hc)) (h.firm c hc)⟩

/-- Only the contents of a printed blob lose blanks. -/
theorem BlobText.settled_braced {w : List Char} (h : BlobText w) :
    FusionKit.settled (braced w) = braced (FusionKit.settled w) := by
  unfold braced
  cases w with
  | nil => rfl
  | cons c w =>
    have hc : isSpace c = false := h.starts c rfl
    have hnl : c ≠ '\n' := by
      rintro rfl
      exact absurd hc (by decide)
    have hin : isInline c = false := by simp [isInline, hc]
    have hne : FusionKit.settled (c :: w) ≠ [] := by simp [FusionKit.settled, hin]
    have hfirm : Firm ("\x7b\x7b".toList ++ ' ' :: c :: w) := by
      rw [show "\x7b\x7b".toList ++ ' ' :: c :: w = "\x7b\x7b ".toList ++ c :: w from rfl]
      exact firm_append h.firm (by simp)
    rw [if_neg (by simp), if_neg hne, settled_append hfirm,
      settled_append (w := "\x7b\x7b".toList) (by intro d hd; cases hd; rfl)]
    have hends : endsLine (c :: w) = false := by simp [endsLine, hin, hnl]
    rw [FusionKit.settled, hends, Bool.and_false]
    rfl

/-- What is read between the braces of a printed blob. -/
theorem BlobText.unwrapped {w : List Char} (h : BlobText w) :
    (Text.trimEnd (utf8 "\x7d\x7d") (Text.trimStart (utf8 "\x7b\x7b") (Text.ofChars (braced w)))).strip =
      Text.ofChars w := by
  have hsplit : Text.ofChars (braced w) =
      utf8 "\x7b\x7b" ++ (Text.ofChars ((if w = [] then [] else ' ' :: w) ++ [' ']) ++ utf8 "\x7d\x7d") := by
    rw [show utf8 "\x7b\x7b" = Text.ofChars "\x7b\x7b".toList from rfl,
      show utf8 "\x7d\x7d" = Text.ofChars "\x7d\x7d".toList from rfl, ← Text.ofChars_append,
      ← Text.ofChars_append, braced]
    congr 1
    simp
  rw [hsplit, Text.trimStart_append, Text.trimEnd_append, Text.strip_ofChars]
  congr 1
  split
  · subst w
    rfl
  · exact stripped_around [' '] [' '] (List.all_iff_forall_prop.mp rfl)
      (List.all_iff_forall_prop.mp rfl) h.trimmed

end FusionKit
