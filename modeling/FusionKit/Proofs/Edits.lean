import FusionKit.Editor
import FusionKit.Proofs.Glyphs
import FusionKit.Proofs.Safety

/-!
# Edits and what they leave

An editor applies an edit to a document whose lines end at a line feed, a carriage return, or the
two in this order. The edit that formats a document ends where a line starts: the one whose number
is the number of line feeds. So it replaces the whole document when the document ends with a line
feed and each carriage return stands in front of one; else a part of the old text is left behind
the new one.
-/
set_option autoImplicit false

namespace FusionKit

namespace Text

/-- What comes after the first line break. -/
def afterBreak? : Text → Option Text
  | [] => none
  | [b] => if b == byte '\r' || b == byte '\n' then some [] else none
  | b :: c :: t =>
    if b == byte '\r' then if c == byte '\n' then some t else some (c :: t)
    else if b == byte '\n' then some (c :: t)
    else afterBreak? (c :: t)

/-- What comes from the start of a line on; none when there are fewer lines. -/
def fromLine? : Nat → Text → Option Text
  | 0, t => some t
  | n + 1, t => (afterBreak? t).bind (fromLine? n)

/-- The number of words of 16 bits that a glyph takes. -/
def unitsOf : Glyph → Nat
  | .char c => if c.toNat < 0x10000 then 1 else 2
  | .stray _ => 1

/-- The glyphs from a place in their first line on; a place past the end of the line counts as the
end. -/
def fromUnit : Nat → List Glyph → List Glyph
  | 0, gs => gs
  | _ + 1, [] => []
  | n + 1, g :: gs =>
    if g = .char '\r' ∨ g = .char '\n' then g :: gs else fromUnit (n + 1 - unitsOf g) gs

/-- What comes from a position on; a position past the end counts as the end. -/
def fromPosition (t : Text) (p : Position) : Text :=
  match t.fromLine? p.line.toNat with
  | none => []
  | some line => ofGlyphs (fromUnit p.character.toNat line.glyphs)

section

variable {t u : Text} {n : Nat}

theorem countBreaks_of_afterBreak? (h : t.afterBreak? = some u) : t.countBreaks = u.countBreaks + 1 := by
  fun_induction afterBreak? t with
  | case1 => cases h
  | case2 b hb => cases h; simp [countBreaks, hb]
  | case3 => cases h
  | case4 b c t hb hc => cases h; rw [countBreaks, if_pos hb, if_pos hc]
  | case5 b c t hb hc => cases h; rw [countBreaks, if_pos hb, if_neg hc]
  | case6 b c t hb hb' => cases h; rw [countBreaks, if_neg hb, if_pos hb']
  | case7 b c t hb hb' ih => rw [countBreaks, if_neg hb, if_neg hb', ih h]

theorem countBreaks_eq_zero_iff : t.countBreaks = 0 ↔ t.afterBreak? = none := by
  fun_induction afterBreak? t with
  | case1 => simp [countBreaks]
  | case2 b hb => simp [countBreaks, hb]
  | case3 b hb => simp [countBreaks, hb]
  | case4 b c t hb hc => simp [countBreaks, hb, hc]
  | case5 b c t hb hc => simp [countBreaks, hb, hc]
  | case6 b c t hb hb' => simp [countBreaks, hb, hb']
  | case7 b c t hb hb' ih => rw [countBreaks, if_neg hb, if_neg hb', ih]

/-- Whether a byte ends a line. -/
def isBreak (b : UInt8) : Bool := b == byte '\r' || b == byte '\n'

/-- Whether a text ends with a line break. -/
def endsInBreak (t : Text) : Bool := (t.getLast?.map isBreak).getD false

theorem endsInBreak_cons {b : UInt8} (hb : isBreak b = true) : endsInBreak (b :: u) = (u.isEmpty || u.endsInBreak) := by
  cases u with
  | nil => simp [endsInBreak, hb]
  | cons c u => simp [endsInBreak]

theorem endsInBreak_of_afterBreak? (h : t.afterBreak? = some u) :
    t.endsInBreak = (u.isEmpty || u.endsInBreak) := by
  fun_induction afterBreak? t with
  | case1 => cases h
  | case2 b hb => cases h; exact endsInBreak_cons hb
  | case3 => cases h
  | case4 b c t hb hc =>
    cases h
    rw [← endsInBreak_cons (b := c) (by simp [isBreak, hc])]
    simp [endsInBreak]
  | case5 b c t hb hc => cases h; exact endsInBreak_cons (by simp [isBreak, hb])
  | case6 b c t hb hb' => cases h; exact endsInBreak_cons (by simp [isBreak, hb'])
  | case7 b c t hb hb' ih =>
    rw [← ih h]
    simp [endsInBreak]

theorem countBreaks_pos (h : t.endsInBreak = true) : 0 < t.countBreaks := by
  fun_induction countBreaks t with
  | case1 => cases h
  | case2 => exact Nat.one_pos
  | case3 b hb => simp_all [endsInBreak, isBreak]
  | case4 | case5 | case6 => exact Nat.succ_pos _
  | case7 b c t hb hb' ih => exact ih (by simpa [endsInBreak] using h)

/-- There are lines up to the one after the last line break. -/
theorem fromLine?_eq_none_iff : t.fromLine? n = none ↔ t.countBreaks < n := by
  induction n generalizing t with
  | zero => simp [fromLine?]
  | succ n ih =>
    rw [fromLine?]
    cases h : t.afterBreak? with
    | none => simp [countBreaks_eq_zero_iff.mpr h]
    | some u =>
      rw [Option.bind_some, ih, countBreaks_of_afterBreak? h]
      omega

/-- Nothing comes from a line on when it is the last one and empty. -/
theorem fromLine?_eq_nil_iff (ht : t ≠ []) :
    t.fromLine? n = some [] ↔ n = t.countBreaks ∧ t.endsInBreak = true := by
  induction n generalizing t with
  | zero =>
    constructor
    · intro h
      exact absurd (Option.some.inj h) ht
    · rintro ⟨h, hends⟩
      have := countBreaks_pos hends
      omega
  | succ n ih =>
    rw [fromLine?]
    cases h : t.afterBreak? with
    | none => simp [countBreaks_eq_zero_iff.mpr h]
    | some u =>
      rw [Option.bind_some, countBreaks_of_afterBreak? h, endsInBreak_of_afterBreak? h]
      cases u with
      | nil => cases n <;> simp [fromLine?, afterBreak?, countBreaks]
      | cons b u => simp [ih]

theorem count_cons_return (t : Text) : (byte '\r' :: t).count (byte '\n') = t.count (byte '\n') := by
  rw [List.count_cons_of_ne (by decide)]

/-- Every line feed is a line break, or the end of one. -/
theorem count_le_countBreaks (t : Text) : t.count (byte '\n') ≤ t.countBreaks := by
  fun_induction countBreaks t with
  | case1 => exact Nat.le_refl _
  | case2 b hb => exact List.count_le_length
  | case3 b hb =>
    simp only [Bool.or_eq_true, beq_iff_eq, not_or] at hb
    have hcount : [b].count (byte '\n') = 0 := List.count_eq_zero.mpr (by simpa using Ne.symm hb.2)
    omega
  | case4 b c t hb hc ih =>
    obtain rfl := beq_iff_eq.mp hb
    obtain rfl := beq_iff_eq.mp hc
    rw [count_cons_return, List.count_cons_self]
    omega
  | case5 b c t hb hc ih =>
    obtain rfl := beq_iff_eq.mp hb
    rw [count_cons_return]
    omega
  | case6 b c t hb hb' ih =>
    obtain rfl := beq_iff_eq.mp hb'
    rw [List.count_cons_self]
    omega
  | case7 b c t hb hb' ih => rwa [List.count_cons_of_ne (by simpa using hb')]

/-- When there are no other line breaks, a text that ends with one ends with a line feed. -/
theorem getLast?_of_count_eq (h : t.count (byte '\n') = t.countBreaks) (ht : t.endsInBreak = true) :
    t.getLast? = some (byte '\n') := by
  fun_induction countBreaks t with
  | case1 => cases ht
  | case2 b hb =>
    have := List.count_pos_iff.mp (Nat.lt_of_lt_of_eq Nat.one_pos h.symm)
    rw [List.mem_singleton.mp this]
    rfl
  | case3 b hb => simp_all [endsInBreak, isBreak]
  | case4 b c t hb hc ih =>
    obtain rfl := beq_iff_eq.mp hb
    obtain rfl := beq_iff_eq.mp hc
    rw [count_cons_return, List.count_cons_self] at h
    rw [List.getLast?_cons_cons]
    cases t with
    | nil => rfl
    | cons d t =>
      rw [List.getLast?_cons_cons]
      exact ih (by omega) (by simpa [endsInBreak] using ht)
  | case5 b c t hb hc ih =>
    obtain rfl := beq_iff_eq.mp hb
    have := count_le_countBreaks (c :: t)
    rw [count_cons_return] at h
    omega
  | case6 b c t hb hb' ih =>
    obtain rfl := beq_iff_eq.mp hb'
    rw [List.count_cons_self] at h
    rw [List.getLast?_cons_cons]
    exact ih (by omega) (by simpa [endsInBreak] using ht)
  | case7 b c t hb hb' ih =>
    rw [List.count_cons_of_ne (by simpa using hb')] at h
    rw [List.getLast?_cons_cons]
    exact ih h (by simpa [endsInBreak] using ht)

/-- Nothing is left after the start of the line whose number is the number of line feeds, in words
of 32 bits, when each line ends with a line feed. -/
theorem fromPosition_eq_nil_iff (ht : t ≠ []) :
    t.fromPosition ⟨Extent.word (t.count (byte '\n') : Nat), 0⟩ = [] ↔ t.count (byte '\n') < UInt32.size ∧
      t.count (byte '\n') = t.countBreaks ∧ t.getLast? = some (byte '\n') := by
  have hle := count_le_countBreaks t
  have hword : (Extent.word (t.count (byte '\n') : Nat)).toNat = t.count (byte '\n') % UInt32.size := by
    rw [Extent.word, Int.toNat_natCast, UInt32.toNat_ofNat']
  have hmod := Nat.mod_le (t.count (byte '\n')) (UInt32.size)
  have hends : t.getLast? = some (byte '\n') → t.endsInBreak = true := by
    intro h
    rw [endsInBreak, h]
    rfl
  unfold fromPosition
  simp only [hword]
  cases hline : t.fromLine? (t.count (byte '\n') % UInt32.size) with
  | none =>
    have := fromLine?_eq_none_iff.mp hline
    omega
  | some line =>
    have hnil := fromLine?_eq_nil_iff (n := t.count (byte '\n') % UInt32.size) ht
    rw [hline, Option.some.injEq] at hnil
    simp only [UInt32.toNat_zero, fromUnit, ofGlyphs_glyphs]
    rw [hnil]
    constructor
    · rintro ⟨hn, hlast⟩
      have hcount : t.count (byte '\n') = t.countBreaks := by omega
      exact ⟨Nat.mod_eq_iff_lt (by decide) |>.mp (by omega), hcount, getLast?_of_count_eq hcount hlast⟩
    · rintro ⟨hsize, hcount, hlast⟩
      exact ⟨by rw [Nat.mod_eq_of_lt hsize, hcount], hends hlast⟩

end

end Text

/-- A document after an edit. -/
def TextEdit.apply (e : TextEdit) (t : Text) : Text :=
  t.take (t.length - (t.fromPosition e.extent.start).length) ++ e.newText ++ t.fromPosition e.extent.stop

namespace Editor

variable {s : Settings} {d : OpenDocument}

/-- An edit from the start of a document leaves what comes after its end. -/
theorem apply_of_start {e : TextEdit} (h : e.extent.start = ⟨0, 0⟩) (t : Text) :
    e.apply t = e.newText ++ t.fromPosition e.extent.stop := by
  have hstart : t.fromPosition ⟨0, 0⟩ = t := by
    simp [Text.fromPosition, Text.fromLine?, Text.fromUnit, Text.ofGlyphs_glyphs]
  rw [TextEdit.apply, h, hstart, Nat.sub_self, List.take_zero, List.nil_append]

/-- No edits are given for a document that is empty, no program, or formatted already. Else there
is one edit. With it a document becomes the formatted one, and behind that what follows the last
of as many line breaks as the document has line feeds: nothing, exactly when the document ends with
a line feed and has no other line breaks than line feeds, alone or after a carriage return. -/
theorem editsFor_spec (s : Settings) (d : OpenDocument) :
    match editsFor s d with
    | .nothing => d.content = [] ∨ (∃ e, parse (pathOfUri d.uri) d.content = .error e) ∨
        format s (pathOfUri d.uri) d.content = .ok d.content
    | .edits es => ∃ e, es = [e] ∧ format s (pathOfUri d.uri) d.content = .ok e.newText ∧
        (e.apply d.content = e.newText ↔ d.content.count (byte '\n') < UInt32.size ∧
          d.content.count (byte '\n') = d.content.countBreaks ∧ d.content.getLast? = some (byte '\n'))
    | .capabilities => False := by
  unfold editsFor
  cases hempty : d.content with
  | nil => exact .inl rfl
  | cons b t =>
    rw [← hempty, if_neg (by simp [hempty])]
    cases hformat : format s (pathOfUri d.uri) d.content with
    | error e =>
      refine .inr (.inl ?_)
      cases hparse : parse (pathOfUri d.uri) d.content with
      | error e => exact ⟨e, rfl⟩
      | ok nodes =>
        obtain ⟨tree, -, -, -, hok⟩ := format_ok hparse s
        rw [hok] at hformat
        contradiction
    | ok formatted =>
      dsimp only
      split_ifs with hsame
      · exact .inr (.inr (congrArg Except.ok (beq_iff_eq.mp hsame)))
      · refine ⟨_, rfl, rfl, ?_⟩
        have hcontent : d.content ≠ [] := by simp [hempty]
        rw [apply_of_start rfl, List.append_right_eq_self]
        exact Text.fromPosition_eq_nil_iff hcontent

/-- The last line of a document that does not end with a line feed is left behind the new text. -/
theorem editsFor_leaves_line :
    let d : OpenDocument := ⟨utf8 "file:///a.fusion", 1, utf8 "(a  b)"⟩
    let e : TextEdit := ⟨⟨⟨0, 0⟩, ⟨0, 0⟩⟩, utf8 "(a b)\n"⟩
    editsFor .default d = .edits [e] ∧ format .default (pathOfUri d.uri) d.content = .ok (utf8 "(a b)\n") ∧
      e.apply d.content = utf8 "(a b)\n(a  b)" ∧ e.apply d.content ≠ utf8 "(a b)\n" := by
  decide +kernel

end Editor

end FusionKit
