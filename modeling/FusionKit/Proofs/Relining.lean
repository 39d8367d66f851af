import FusionKit.Format
import FusionKit.Proofs.Alone

/-!
# Reading printed block comments

A block comment that was read and printed is a block comment again, on a page of any width. Its
lines are the ones it had, up to white space around the first and an empty one more at the end,
exactly when the first does not start with a star: the printer writes a star in front of each
line but the first, and reading takes one away from every line.
-/
set_option autoImplicit false

namespace FusionKit

open Lexeme (Spelling)

/-- A source of one block comment and nothing else. -/
def Text.IsBlockComment (c : Text) : Prop := c.ReadsAs [(.blockComment, c)]

/-- Lines up to white space around the first one. -/
def outlined : List Text → List Text
  | [] => []
  | l :: ls => l.strip :: ls

/-- The same lines, up to white space around the first one and an empty one more at the end. -/
def SameLines (ls ms : List Text) : Prop := outlined ms = outlined ls ∨ outlined ms = outlined ls ++ [[]]

/-! ## The text of a comment -/

namespace Lexeme

theorem commentBody_cons {c : Char} {w : List Char} :
    CommentBody (c :: w) ↔ (c = '*' → w.head? ≠ some '/') ∧ CommentBody w := by
  constructor
  · intro h
    cases h with
    | cons hc h => exact ⟨hc, h⟩
  · rintro ⟨hc, h⟩
    exact .cons hc h

instance decidableCommentBody : DecidablePred CommentBody
  | [] => .isTrue .nil
  | _ :: w =>
    have := decidableCommentBody w
    decidable_of_iff _ commentBody_cons.symm

end Lexeme

theorem Text.isBlockComment_iff {c : Text} :
    c.IsBlockComment ↔ ∃ b, c = Text.ofChars (['/', '*'] ++ b ++ ['*', '/']) ∧ Lexeme.CommentBody b := by
  constructor
  · intro h
    obtain ⟨inSExpr, w, hw, hspell⟩ := h.spelling (by decide)
    cases hspell with
    | numeral ht => simp at ht
    | fixed h => simp [Lexeme.fixedSpellings] at h
    | blockComment hb => exact ⟨_, hw, hb⟩
  · rintro ⟨b, rfl, hb⟩
    exact (Spelling.blockComment hb).readsAs (by decide)

theorem Text.IsBlockComment.blockLines {c : Text} (h : c.IsBlockComment) :
    ∀ l ∈ commentLines c, BlockLine l := by
  obtain ⟨b, rfl, hb⟩ := Text.isBlockComment_iff.mp h
  exact @blockLines_of_spelling false _ (.blockComment hb)

/-! ## The first line -/

theorem stripped_length_le (w : List Char) :
    (Text.ofChars (stripped w)).length ≤ (Text.ofChars w).length := by
  obtain ⟨a, b, hw, -, -⟩ := exists_stripped w
  conv_rhs => rw [hw]
  simp only [Text.ofChars_append, List.length_append]
  omega

theorem strip_strip_ofChars (w : List Char) : (Text.ofChars w).strip.strip = (Text.ofChars w).strip := by
  have := stripped_around [] [] (by simp) (by simp) (trimmed_stripped w)
  rw [List.nil_append, List.append_nil] at this
  rw [Text.strip_ofChars, Text.strip_ofChars, this]

/-- Of a line without a star in front, nothing but white space is taken away. -/
theorem plainLine_of_no_star {l : Text} (h : l.strip.head? ≠ some (byte '*')) : plainLine l = l.strip := by
  unfold plainLine
  split
  · rename_i b rest heq
    rw [heq, List.head?_cons, ne_eq, Option.some.injEq] at h
    rw [if_neg (by simpa using h), heq]
  · rename_i heq
    exact heq.symm

theorem plainLine_length_lt {l : Text} (h : l.strip.head? = some (byte '*')) :
    (plainLine l).length < l.strip.length := by
  unfold plainLine
  split
  · rename_i b rest heq
    rw [heq, List.head?_cons, Option.some.injEq] at h
    rw [if_pos (by simpa using h), heq, List.length_cons, Text.trimStart]
    split
    · rw [List.length_drop]
      omega
    · omega
  · rename_i heq
    rw [heq] at h
    cases h

/-- Reading a line as the first one takes away a star in front, and nothing else but white space. -/
theorem strip_plainLine_iff {l : Text} (h : BlockLine l) :
    (plainLine l).strip = l.strip ↔ l.strip.head? ≠ some (byte '*') := by
  obtain ⟨w, rfl, -⟩ := h
  constructor
  · intro heq hstar
    obtain ⟨a, v, -, hplain⟩ := exists_plainLine w
    have hlt := plainLine_length_lt hstar
    rw [← heq, hplain, Text.strip_ofChars] at hlt
    have := stripped_length_le v
    omega
  · intro hstar
    rw [plainLine_of_no_star hstar, strip_strip_ofChars]

/-! ## All lines -/

/-- Of the lines after the first, an empty last one is not printed but read again. -/
theorem keptLines_append {ls : List Text} (h : ∀ l ∈ ls, BlockLine l) :
    keptLines ls ++ [[]] = ls ∨ keptLines ls ++ [[]] = ls ++ [[]] := by
  unfold keptLines
  split
  · rename_i hblank
    left
    rcases List.eq_nil_or_concat ls with rfl | ⟨ms, l, rfl⟩
    · simp at hblank
    · rw [List.concat_eq_append] at h hblank ⊢
      obtain ⟨w, rfl, hw⟩ := h l (by simp)
      have hnil : w = [] := by
        simpa [hw.isAllBlank] using hblank
      rw [hnil, List.dropLast_concat]
      rfl
  · exact .inr rfl

/-- The lines of a printed comment are the ones that were printed, the first read once more. -/
theorem relined_cons {l : Text} {ls : List Text} (h : ∀ m ∈ ls, BlockLine m) :
    ∃ ms, relined (l :: ls) = plainLine l :: ms ∧ (ms = ls ∨ ms = ls ++ [[]]) := by
  cases ls with
  | nil => exact ⟨[], rfl, .inl rfl⟩
  | cons m ms => exact ⟨keptLines (m :: ms) ++ [[]], rfl, keptLines_append h⟩

theorem sameLines_cons {l m : Text} {ls ms : List Text} (h : ms = ls ∨ ms = ls ++ [[]]) :
    SameLines (l :: ls) (m :: ms) ↔ m.strip = l.strip := by
  simp only [SameLines, outlined, List.cons_append, List.cons.injEq]
  rw [← and_or_left, and_iff_left h]

/-- A printed block comment is a block comment again, which loses no blank at the end of a line. Its
lines are the ones that were printed, the first of them read once more; and these are the same lines
just when the first does not start with a star. -/
theorem blockComment_again (c : Text) (h : c.IsBlockComment) (p : Page) :
    ∃ c', (p.blockComment (commentLines c)).text = p.text ++ c' ∧ c'.IsBlockComment ∧ c'.settled = c' ∧
      SameLines ((commentLines c).modifyHead plainLine) (commentLines c') ∧
      (SameLines (commentLines c) (commentLines c') ↔
        ∀ l, (commentLines c).head? = some l → l.strip.head? ≠ some (byte '*')) := by
  have hlines := h.blockLines
  obtain ⟨b, hadds, hbody⟩ := p.adds_blockComment hlines
  refine ⟨_, hadds, Text.isBlockComment_iff.mpr ⟨b, rfl, hbody.body⟩, ?_, ?_⟩
  · rw [Text.settled_ofChars, hbody.settled_eq]
  · rw [hbody.lines_eq]
    cases hls : commentLines c with
    | nil => simp [SameLines, relined]
    | cons l ls =>
      rw [hls] at hlines
      obtain ⟨ms, hms, hrest⟩ := @relined_cons l ls fun m hm => hlines m (by simp [hm])
      rw [hms, List.modifyHead_cons, sameLines_cons hrest, sameLines_cons hrest,
        strip_plainLine_iff (hlines l (by simp))]
      simp

/-- The star that a line of a longer comment starts with is printed behind another one, and kept. -/
theorem blockComment_again_starred : ∃ c',
    (utf8 "/*\n ** a\n */").IsBlockComment ∧
      ((({} : Page).put "  ").blockComment (commentLines (utf8 "/*\n ** a\n */"))).text =
        utf8 "  " ++ c' ∧ SameLines (commentLines (utf8 "/*\n ** a\n */")) (commentLines c') := by
  have hc : (utf8 "/*\n ** a\n */").IsBlockComment :=
    Text.isBlockComment_iff.mpr ⟨"\n ** a\n ".toList, rfl, by decide +kernel⟩
  obtain ⟨c', hprint, -, -, -, hsame⟩ := blockComment_again _ hc (({} : Page).put "  ")
  exact ⟨c', hc, hprint, hsame.mpr (by decide +kernel)⟩

/-- A star in front of the first line is lost when the comment is printed and read again, and is not
there any more when the source is formatted a second time. -/
theorem blockComment_loses_star :
    (utf8 "/* ** a */").IsBlockComment ∧
      (({} : Page).blockComment (commentLines (utf8 "/* ** a */"))).text = utf8 "/* * a */" ∧
      ¬ SameLines (commentLines (utf8 "/* ** a */")) (commentLines (utf8 "/* * a */")) ∧
      format .default [] (utf8 "/* ** a */") = .ok (utf8 "/* * a */\n") ∧
      format .default [] (utf8 "/* * a */\n") = .ok (utf8 "/* a */\n") := by
  refine ⟨Text.isBlockComment_iff.mpr ⟨" ** a ".toList, rfl, by decide +kernel⟩, ?_, ?_, ?_, ?_⟩
  · decide +kernel
  · unfold SameLines
    decide +kernel
  · decide +kernel
  · decide +kernel

end FusionKit
