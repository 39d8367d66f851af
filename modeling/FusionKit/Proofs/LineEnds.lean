import FusionKit.Text.Lines
import FusionKit.Proofs.Spelling
import Mathlib.Data.List.Basic
import Mathlib.Data.List.Induction

/-!
# Line ends

Printed text loses the blanks at the ends of its lines. Over characters this is `settled`: it
drops every blank from which only blanks lead to a line feed or to the end. Texts that end with no
blank settle by themselves, so a printed text can be settled piece by piece.
-/
set_option autoImplicit false

namespace FusionKit

open Lexeme (isSpace)

/-- Blanks that do not end a line. -/
def isInline (c : Char) : Bool := isSpace c && c != '\n'

/-- Whether only blanks come before the end of the line. -/
def endsLine : List Char → Bool
  | [] => true
  | c :: cs => if isInline c then endsLine cs else c == '\n'

/-- The characters without the blanks at the ends of their lines. -/
def settled : List Char → List Char
  | [] => []
  | c :: cs => if isInline c && endsLine cs then settled cs else c :: settled cs

/-- The last character, if there is one, is no blank. -/
def Firm (w : List Char) : Prop := ∀ c, w.getLast? = some c → isSpace c = false

theorem firm_nil : Firm [] := by simp [Firm]

theorem firm_append {v w : List Char} (hw : Firm w) (hne : w ≠ []) : Firm (v ++ w) := by
  intro c hc
  rw [List.getLast?_append_of_ne_nil _ hne] at hc
  exact hw c hc

theorem firm_concat {w : List Char} {c : Char} (h : isSpace c = false) : Firm (w ++ [c]) := by
  intro d hd
  simp only [List.getLast?_append, List.getLast?_singleton, Option.some_or, Option.some.injEq] at hd
  rw [← hd, h]

theorem firm_tail {c : Char} {w : List Char} (h : Firm (c :: w)) : Firm w := by
  intro d hd
  cases w with
  | nil => simp at hd
  | cons e w => exact h d (by rwa [List.getLast?_cons_cons])

theorem endsLine_append {w rest : List Char} (hw : Firm w) (hne : w ≠ []) :
    endsLine (w ++ rest) = endsLine w := by
  induction w with
  | nil => exact absurd rfl hne
  | cons c w ih =>
    simp only [List.cons_append, endsLine]
    split
    · rename_i hc
      by_cases hw' : w = []
      · subst hw'
        have := hw c rfl
        simp [isInline, this] at hc
      · exact ih (firm_tail hw) hw'
    · rfl

theorem settled_append {w : List Char} (hw : Firm w) (rest : List Char) :
    settled (w ++ rest) = settled w ++ settled rest := by
  induction w with
  | nil => rfl
  | cons c w ih =>
    have ih := ih (firm_tail hw)
    simp only [List.cons_append, settled]
    by_cases hw' : w = []
    · subst hw'
      have hc : isInline c = false := by simp [isInline, hw c rfl]
      simp [hc, settled]
    · rw [endsLine_append (firm_tail hw) hw']
      split
      · exact ih
      · rw [ih, List.cons_append]

theorem endsLine_eq_false {w : List Char} (hw : Firm w) (hne : w ≠ []) (hn : '\n' ∉ w) :
    endsLine w = false := by
  induction w with
  | nil => exact absurd rfl hne
  | cons c w ih =>
    simp only [List.mem_cons, not_or] at hn
    unfold endsLine
    split
    · rename_i hc
      by_cases hw' : w = []
      · subst hw'
        have := hw c rfl
        simp [isInline, this] at hc
      · exact ih (firm_tail hw) hw' hn.2
    · simpa using Ne.symm hn.1

theorem settled_of_firm {w : List Char} (hw : Firm w) (hn : '\n' ∉ w) : settled w = w := by
  induction w with
  | nil => rfl
  | cons c w ih =>
    simp only [List.mem_cons, not_or] at hn
    have ih := ih (firm_tail hw) hn.2
    rw [settled, ih]
    by_cases hw' : w = []
    · subst hw'
      simp [isInline, hw c rfl]
    · simp [endsLine_eq_false (firm_tail hw) hw' hn.2]

theorem settled_newline (cs : List Char) : settled ('\n' :: cs) = '\n' :: settled cs := by
  simp [settled, isInline]

/-- A firm line before a line feed is kept as it is. -/
theorem settled_line {w : List Char} (hw : Firm w) (hn : '\n' ∉ w) (rest : List Char) :
    settled (w ++ '\n' :: rest) = w ++ '\n' :: settled rest := by
  rw [settled_append hw, settled_of_firm hw hn, settled_newline]

theorem settled_spaces_newline {sp : List Char} (h : ∀ c ∈ sp, c = ' ') (rest : List Char) :
    settled (sp ++ '\n' :: rest) = '\n' :: settled rest ∧ endsLine (sp ++ '\n' :: rest) = true := by
  induction sp with
  | nil => exact ⟨settled_newline rest, rfl⟩
  | cons c sp ih =>
    obtain rfl := h c (by simp)
    obtain ⟨h1, h2⟩ := ih fun d hd => h d (by simp [hd])
    have hin : isInline ' ' = true := by decide
    constructor
    · rw [List.cons_append, settled, hin, h2, h1]
      rfl
    · rw [List.cons_append, endsLine, if_pos hin, h2]

/-- Settling drops characters of a beginning and leaves the end to itself. -/
theorem settled_append_exists (w rest : List Char) :
    ∃ v, v.Sublist w ∧ settled (w ++ rest) = v ++ settled rest := by
  induction w with
  | nil => exact ⟨[], .slnil, rfl⟩
  | cons c w ih =>
    obtain ⟨v, hv, h⟩ := ih
    simp only [List.cons_append, settled]
    split
    · exact ⟨v, hv.cons c, h⟩
    · exact ⟨c :: v, hv.cons_cons c, by rw [h, List.cons_append]⟩

theorem settled_sublist (cs : List Char) : (settled cs).Sublist cs := by
  obtain ⟨v, hv, h⟩ := settled_append_exists cs []
  rw [List.append_nil] at h
  rw [h]
  simpa [settled] using hv

theorem endsLine_settled (cs : List Char) : endsLine (settled cs) = endsLine cs := by
  induction cs with
  | nil => rfl
  | cons c cs ih =>
    simp only [settled]
    split
    · rename_i h
      simp only [Bool.and_eq_true] at h
      rw [ih, endsLine, if_pos h.1]
    · simp only [endsLine, ih]

/-! ## Blanks and base 64 as bytes -/

namespace Text

theorem isSpace_lt {c : Char} (h : Lexeme.isSpace c = true) : c.toNat < 128 := by
  have hmem : c ∈ [' ', '\t', '\r', '\n', '\x0c', '\x0b'] := by
    simpa [Lexeme.isSpace, or_assoc] using h
  have hall : ∀ d ∈ [' ', '\t', '\r', '\n', '\x0c', '\x0b'], d.toNat < 128 :=
    List.all_iff_forall_prop.mp rfl
  exact hall c hmem

theorem isBase64_lt {c : Char} (h : Lexeme.isBase64 c = true) : c.toNat < 128 := by
  simp only [Lexeme.isBase64, Numeral.isDecimal, Bool.or_eq_true, Bool.and_eq_true, decide_eq_true_eq,
    beq_iff_eq, Char.le_def, UInt32.le_iff_toNat_le] at h
  have h1 : c.toNat = c.val.toNat := rfl
  rcases h with ((((h | h) | h) | rfl) | rfl) | rfl
  · have : ('Z').val.toNat = 90 := rfl
    omega
  · have : ('z').val.toNat = 122 := rfl
    omega
  · have : ('9').val.toNat = 57 := rfl
    omega
  all_goals decide

theorem isSpace_byte {c : Char} (h : Lexeme.isSpace c = true) : isSpace (byte c) = true := by
  have hmem : c ∈ [' ', '\t', '\r', '\n', '\x0c', '\x0b'] := by
    simpa [Lexeme.isSpace, or_assoc] using h
  have hall : ∀ d ∈ [' ', '\t', '\r', '\n', '\x0c', '\x0b'], isSpace (byte d) = true :=
    List.all_iff_forall_prop.mp rfl
  exact hall c hmem

theorem isSpace_of_mem_encode {c : Char} {b : UInt8} (hb : b ∈ String.utf8EncodeChar c)
    (hs : isSpace b = true) : Lexeme.isSpace c = true := by
  have hmem : b ∈ [byte ' ', byte '\t', byte '\r', byte '\n', 0x0c, 0x0b] := by
    simpa [isSpace, or_assoc] using hs
  simp only [List.mem_cons, List.not_mem_nil, or_false] at hmem
  rcases hmem with rfl | rfl | rfl | rfl | rfl | rfl
  · rw [eq_of_mem_encode (d := ' ') (by decide) hb]; rfl
  · rw [eq_of_mem_encode (d := '\t') (by decide) hb]; rfl
  · rw [eq_of_mem_encode (d := '\r') (by decide) hb]; rfl
  · rw [eq_of_mem_encode (d := '\n') (by decide) hb]; rfl
  · rw [eq_of_mem_encode (d := '\x0c') (by decide) hb]; rfl
  · rw [eq_of_mem_encode (d := '\x0b') (by decide) hb]; rfl

theorem dropEndWhile_append_of_not {p : UInt8 → Bool} {t : Text} {b : UInt8} (hb : p b = false) :
    dropEndWhile p (t ++ [b]) = t ++ [b] := by
  simp [dropEndWhile, hb]

theorem dropEndWhile_append_of {p : UInt8 → Bool} {t : Text} {b : UInt8} (hb : p b = true) :
    dropEndWhile p (t ++ [b]) = dropEndWhile p t := by
  simp [dropEndWhile, hb]

/-- The last byte of a text is one of its last character's. -/
theorem ofChars_concat (v : List Char) (c : Char) :
    ∃ t b, ofChars (v ++ [c]) = t ++ [b] ∧ b ∈ String.utf8EncodeChar c := by
  obtain ⟨bs, b, hbs⟩ : ∃ bs b, String.utf8EncodeChar c = bs ++ [b] := by
    rcases List.eq_nil_or_concat (String.utf8EncodeChar c) with h | ⟨bs, b, h⟩
    · exact absurd h String.utf8EncodeChar_ne_nil
    · exact ⟨bs, b, by rw [h, List.concat_eq_append]⟩
  refine ⟨ofChars v ++ bs, b, ?_, by simp [hbs]⟩
  rw [ofChars_append]
  simp [ofChars, hbs]

/-- A text that is firm ends in a byte that is no blank. -/
theorem exists_last_of_firm {w : List Char} (hw : Firm w) (hne : w ≠ []) :
    ∃ t b, ofChars w = t ++ [b] ∧ isSpace b = false := by
  obtain rfl | ⟨v, c, rfl⟩ := List.eq_nil_or_concat w
  · contradiction
  · have hc : Lexeme.isSpace c = false := hw c (by simp)
    obtain ⟨t, b, ht, hmem⟩ := ofChars_concat v c
    refine ⟨t, b, by rw [List.concat_eq_append, ht], Bool.eq_false_iff.mpr fun hs => ?_⟩
    rw [isSpace_of_mem_encode hmem hs] at hc
    contradiction

theorem dropEndWhile_firm {w : List Char} (hw : Firm w) :
    dropEndWhile isSpace (ofChars w) = ofChars w := by
  by_cases hne : w = []
  · subst hne
    rfl
  · obtain ⟨t, b, ht, hb⟩ := exists_last_of_firm hw hne
    rw [ht, dropEndWhile_append_of_not hb]

theorem dropEndWhile_spaces {w sp : List Char} (hsp : ∀ c ∈ sp, Lexeme.isSpace c = true) :
    dropEndWhile isSpace (ofChars (w ++ sp)) = dropEndWhile isSpace (ofChars w) := by
  induction sp using List.reverseRecOn with
  | nil => rw [List.append_nil]
  | append_singleton sp c ih =>
    have hc := hsp c (by simp)
    rw [← List.append_assoc, ofChars_append,
      show ofChars [c] = [byte c] from ofChars_cons_ascii (isSpace_lt hc) [],
      dropEndWhile_append_of (isSpace_byte hc), ih fun d hd => hsp d (by simp [hd])]

end Text

/-! ## Lines -/

namespace Text

theorem piecesAt_ne_nil (b : UInt8) (t : Text) : piecesAt b t ≠ [] := by
  cases t with
  | nil => simp [piecesAt]
  | cons x t =>
    unfold piecesAt
    split
    · simp
    · split <;> simp

theorem piecesAt_append {b : UInt8} {t : Text} (h : b ∉ t) (rest : Text) :
    piecesAt b (t ++ b :: rest) = t :: piecesAt b rest := by
  induction t with
  | nil => simp [piecesAt]
  | cons x t ih =>
    simp only [List.mem_cons, not_or] at h
    rw [List.cons_append, piecesAt, ih h.2]
    simp [Ne.symm h.1]

theorem piecesAt_of_not_mem {b : UInt8} {t : Text} (h : b ∉ t) : piecesAt b t = [t] := by
  induction t with
  | nil => rfl
  | cons x t ih =>
    simp only [List.mem_cons, not_or] at h
    rw [piecesAt, ih h.2]
    simp [Ne.symm h.1]

theorem lines_append {t : Text} (h : byte '\n' ∉ t) (rest : Text) :
    lines (t ++ byte '\n' :: rest) = trimEnd [byte '\r'] t :: lines rest := by
  have hne : (t ++ byte '\n' :: rest).isEmpty = false := by simp
  unfold lines
  rw [hne, piecesAt_append h]
  cases rest with
  | nil => simp [piecesAt]
  | cons x rest =>
    obtain ⟨p, ps, hp⟩ := List.exists_cons_of_ne_nil (piecesAt_ne_nil (byte '\n') (x :: rest))
    simp only [hp, List.getLast?_cons_cons, List.isEmpty_cons, Bool.false_eq_true, if_false]
    split <;> simp

theorem lines_of_not_mem {t : Text} (h : byte '\n' ∉ t) (hne : t ≠ []) :
    lines t = [trimEnd [byte '\r'] t] := by
  unfold lines
  rw [piecesAt_of_not_mem h]
  simp [hne]

theorem lines_nil : lines [] = [] := rfl

theorem dropEndWhile_trimEnd_cr (t : Text) :
    dropEndWhile isSpace (trimEnd [byte '\r'] t) = dropEndWhile isSpace t := by
  unfold trimEnd
  split
  · rename_i h
    obtain ⟨s, rfl⟩ := List.isSuffixOf_iff_suffix.mp h
    rw [List.length_append, List.length_singleton, Nat.add_sub_cancel, List.take_left,
      dropEndWhile_append_of (by decide)]
  · rfl

theorem trimLineEnds_append {t : Text} (h : byte '\n' ∉ t) (rest : Text) :
    trimLineEnds (t ++ byte '\n' :: rest) =
      dropEndWhile isSpace t ++ byte '\n' :: trimLineEnds rest := by
  unfold trimLineEnds
  rw [lines_append h, List.flatMap_cons, dropEndWhile_trimEnd_cr, List.append_assoc]
  rfl

theorem trimLineEnds_of_not_mem {t : Text} (h : byte '\n' ∉ t) (hne : t ≠ []) :
    trimLineEnds t = dropEndWhile isSpace t ++ [byte '\n'] := by
  unfold trimLineEnds
  rw [lines_of_not_mem h hne]
  simp [dropEndWhile_trimEnd_cr]

end Text

/-! ## Settled lines -/

/-- A line is settled by dropping the blanks at its end. -/
theorem exists_firm (l : List Char) (hl : '\n' ∉ l) :
    ∃ w sp, l = w ++ sp ∧ Firm w ∧ ∀ c ∈ sp, isInline c = true := by
  induction l using List.reverseRecOn with
  | nil => exact ⟨[], [], rfl, firm_nil, by simp⟩
  | append_singleton l c ih =>
    simp only [List.mem_append, List.mem_singleton, not_or] at hl
    cases hc : isSpace c with
    | false => exact ⟨l ++ [c], [], by simp, firm_concat hc, by simp⟩
    | true =>
      obtain ⟨w, sp, rfl, hw, hsp⟩ := ih hl.1
      refine ⟨w, sp ++ [c], by simp, hw, ?_⟩
      intro d hd
      simp only [List.mem_append, List.mem_singleton] at hd
      rcases hd with hd | rfl
      · exact hsp d hd
      · simp [isInline, hc, Ne.symm hl.2]

theorem settled_inline {sp rest : List Char} (h : ∀ c ∈ sp, isInline c = true)
    (hrest : endsLine rest = true) :
    settled (sp ++ rest) = settled rest ∧ endsLine (sp ++ rest) = true := by
  induction sp with
  | nil => exact ⟨rfl, hrest⟩
  | cons c sp ih =>
    obtain ⟨h1, h2⟩ := ih fun d hd => h d (by simp [hd])
    have hc := h c (by simp)
    constructor
    · rw [List.cons_append, settled, hc, h2, h1]
      rfl
    · rw [List.cons_append, endsLine, if_pos hc, h2]

/-- The line feed that a text needs at its end, so that its last line is ended too. -/
def finalBreak (cs : List Char) : List Char :=
  match cs.getLast? with
  | none => []
  | some c => if c = '\n' then [] else ['\n']

theorem finalBreak_append {v w : List Char} (h : w ≠ []) : finalBreak (v ++ w) = finalBreak w := by
  unfold finalBreak
  rw [List.getLast?_append_of_ne_nil _ h]

/-- Trimming the lines of a text settles its characters, the final line feed included. -/
theorem Text.trimLineEnds_ofChars (cs : List Char) :
    Text.trimLineEnds (Text.ofChars cs) = Text.ofChars (settled (cs ++ finalBreak cs)) := by
  induction hn : cs.length using Nat.strongRecOn generalizing cs with
  | ind n ih =>
  have hlf : ('\n' : Char).toNat < 128 := by decide
  by_cases hmem : '\n' ∈ cs
  · obtain ⟨l, rest, rfl, hl⟩ := List.eq_append_cons_of_mem hmem
    have hrest := ih rest.length (by simp at hn; omega) rest rfl
    obtain ⟨w, sp, rfl, hw, hsp⟩ := exists_firm l hl
    have hwl : '\n' ∉ w := fun h => hl (List.mem_append_left _ h)
    have hfinal : finalBreak (w ++ sp ++ '\n' :: rest) = finalBreak rest := by
      cases rest with
      | nil => simp [finalBreak]
      | cons c rest => exact finalBreak_append (v := w ++ sp ++ ['\n']) (w := c :: rest) (by simp) ▸ by simp
    have hspace : ∀ c ∈ sp, Lexeme.isSpace c = true := fun c hc => by
      have := hsp c hc
      simp only [isInline, Bool.and_eq_true] at this
      exact this.1
    rw [hfinal, Text.ofChars_append, Text.ofChars_cons_ascii hlf,
      Text.trimLineEnds_append (by rwa [Text.byte_mem_ofChars hlf]), hrest,
      Text.dropEndWhile_spaces hspace, Text.dropEndWhile_firm hw, List.append_assoc,
      List.append_assoc, settled_append hw, settled_of_firm hw hwl, List.cons_append,
      (settled_inline hsp rfl).1, settled_newline, Text.ofChars_append, Text.ofChars_cons_ascii hlf]
  · by_cases hcs : cs = []
    · subst hcs
      rfl
    · obtain ⟨w, sp, rfl, hw, hsp⟩ := exists_firm cs hmem
      have hwl : '\n' ∉ w := fun h => hmem (List.mem_append_left _ h)
      have hspace : ∀ c ∈ sp, Lexeme.isSpace c = true := fun c hc => by
        have := hsp c hc
        simp only [isInline, Bool.and_eq_true] at this
        exact this.1
      have hfinal : finalBreak (w ++ sp) = ['\n'] := by
        unfold finalBreak
        obtain ⟨c, hc⟩ : ∃ c, (w ++ sp).getLast? = some c :=
          ⟨_, List.getLast?_eq_getLast_of_ne_nil hcs⟩
        rw [hc]
        have : c ≠ '\n' := by
          rintro rfl
          exact hmem (List.mem_of_getLast? hc)
        simp [this]
      have hne : Text.ofChars (w ++ sp) ≠ [] := by
        intro h
        have := congrArg Text.glyphs h
        rw [Text.glyphs_ofChars] at this
        have hlen := congrArg List.length this
        simp only [Glyph.length_ofChars, Text.glyphs, List.length_nil, List.length_eq_zero_iff] at hlen
        exact hcs hlen
      rw [hfinal, Text.trimLineEnds_of_not_mem (by rwa [Text.byte_mem_ofChars hlf]) hne,
        Text.dropEndWhile_spaces hspace, Text.dropEndWhile_firm hw, List.append_assoc,
        settled_append hw, settled_of_firm hw hwl, (settled_inline hsp rfl).1, Text.ofChars_append]
      rfl

end FusionKit
