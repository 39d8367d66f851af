import FusionKit.Token.Cursor
import FusionKit.Proofs.Glyphs

/-!
# Marks of characters and of bytes

A cursor moves its mark by whole characters, while a source gives the mark of an offset byte by byte.
Both come to the same, because no byte of any other character is a line feed.
-/
set_option autoImplicit false

namespace FusionKit

namespace Mark

theorem after_append (m : Mark) (a b : Text) : m.after (a ++ b) = (m.after a).after b :=
  List.foldl_append

theorem offset_next (m : Mark) (b : UInt8) : (m.next b).offset = m.offset + 1 := by
  unfold next
  split <;> rfl

theorem offset_after (m : Mark) (t : Text) : (m.after t).offset = m.offset + t.length := by
  induction t generalizing m with
  | nil => rfl
  | cons b t ih =>
    have h : m.after (b :: t) = (m.next b).after t := rfl
    rw [h, ih, offset_next, List.length_cons]
    omega

/-- Bytes without a line feed stay on their line. -/
theorem after_of_no_break (m : Mark) {t : Text} (h : byte '\n' ∉ t) :
    m.after t = ⟨m.offset + t.length, m.line, m.col + t.length⟩ := by
  induction t generalizing m with
  | nil => rfl
  | cons b t ih =>
    obtain ⟨hb, ht⟩ := not_or.mp (List.mem_cons.not.mp h)
    have hnext : m.next b = ⟨m.offset + 1, m.line, m.col + 1⟩ := by
      rw [next, if_neg (by simpa using fun hbreak : b = byte '\n' => hb hbreak.symm)]
    have hafter : m.after (b :: t) = (m.next b).after t := rfl
    rw [hafter, hnext, ih _ ht, List.length_cons]
    simp only [Mark.mk.injEq, true_and]
    omega

/-- Passing a character is passing its bytes. -/
theorem pass_eq_after (m : Mark) (x : Char) : m.pass x = m.after (String.utf8EncodeChar x) := by
  by_cases hx : x = '\n'
  · subst hx
    rfl
  · have hbytes : byte '\n' ∉ String.utf8EncodeChar x := fun hmem =>
      hx (Text.eq_of_mem_encode (by decide) hmem)
    rw [after_of_no_break m hbytes, String.length_utf8EncodeChar, pass, if_neg (by simpa using hx)]

end Mark

/-- What has been read of a source leads to the location of its length. -/
theorem Location.ofMark_after (file before rest : Text) :
    Location.ofMark file (Mark.after {} before) =
      Location.locate file (before ++ rest) before.length := by
  have ho := Mark.offset_after {} before
  have ht : (before ++ rest).take before.length = before := List.take_left
  simp only [Location.ofMark, Location.locate, Int.toNat_natCast, ht, List.length_append, ho]
  congr 1
  omega

end FusionKit
