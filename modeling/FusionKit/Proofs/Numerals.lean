import FusionKit.Token.Numeral
import FusionKit.Proofs.Glyphs
import Mathlib.Data.Bool.AllAny
import Mathlib.Tactic.Common

/-!
# Numerals end by themselves

Where a numeral ends does not depend on what comes after it, as long as that begins with none of
the characters of which numerals are made; and the characters of a numeral are a numeral when they
stand alone. Each function on numerals is treated apart, so that the three kinds and the order in
which they are tried follow by putting these facts together.
-/
set_option autoImplicit false

namespace FusionKit

namespace Glyph

/-- No character satisfying `p` comes first. -/
def Stops (p : Char → Bool) (gs : List Glyph) : Prop := ∀ c, gs.head? = some (.char c) → p c = false

theorem stops_nil (p : Char → Bool) : Stops p [] := by simp [Stops]

theorem stops_cons {p : Char → Bool} {c : Char} {gs : List Glyph} :
    Stops p (.char c :: gs) ↔ p c = false := by simp [Stops]

end Glyph

namespace Numeral

open Glyph (ofChars Stops)

/-- The characters of which numerals are made: digits, letters and the marks between them. -/
def isPart (c : Char) : Bool :=
  isDecimal c || ('a' ≤ c && c ≤ 'z') || ('A' ≤ c && c ≤ 'Z') || "_.+-:".toList.contains c

theorem isPart_lt {c : Char} (h : isPart c = true) : c.toNat < 128 := by
  simp only [isPart, isDecimal, Bool.or_eq_true, Bool.and_eq_true, decide_eq_true_eq, Char.le_def,
    UInt32.le_iff_toNat_le] at h
  have h1 : c.toNat = c.val.toNat := rfl
  rcases h with ((h | h) | h) | h
  · have : ('9').val.toNat = 57 := rfl
    omega
  · have : ('z').val.toNat = 122 := rfl
    omega
  · have : ('Z').val.toNat = 90 := rfl
    omega
  · have hall : ∀ d ∈ "_.+-:".toList, d.toNat < 128 := List.all_iff_forall_prop.mp rfl
    exact hall c (List.contains_iff_mem.mp h)

theorem isPart_of_isDecimal {c : Char} (h : isDecimal c = true) : isPart c = true := by
  simp [isPart, h]

theorem isPart_of_isBinary {c : Char} (h : isBinary c = true) : isPart c = true := by
  apply isPart_of_isDecimal
  simp only [isBinary, Bool.or_eq_true, beq_iff_eq] at h
  rcases h with rfl | rfl <;> decide

theorem isPart_of_isHex {c : Char} (h : isHex c = true) : isPart c = true := by
  simp only [isHex, Bool.or_eq_true, Bool.and_eq_true, decide_eq_true_eq] at h
  rcases h with (h | ⟨h1, h2⟩) | ⟨h1, h2⟩
  · exact isPart_of_isDecimal h
  · have : c ≤ 'z' := Char.le_trans h2 (by decide)
    simp [isPart, h1, this]
  · have : c ≤ 'Z' := Char.le_trans h2 (by decide)
    simp [isPart, h1, this]

theorem isPart_of_isExponent {c : Char} (h : isExponent c = true) : isPart c = true := by
  simp only [isExponent, Bool.or_eq_true, beq_iff_eq] at h
  rcases h with ((rfl | rfl) | rfl) | rfl <;> decide

/-- A character that is no part of a numeral satisfies no predicate of parts. -/
theorem eq_false_of_isPart {p : Char → Bool} (hp : ∀ c, p c = true → isPart c = true) {c : Char}
    (h : isPart c = false) : p c = false := by
  cases hc : p c with
  | false => rfl
  | true => exact absurd (hp c hc) (by simp [h])

theorem ne_of_isPart {c d : Char} (hd : isPart d = true) (hc : isPart c = false) : c ≠ d := by
  rintro rfl
  exact Bool.noConfusion (hd.symm.trans hc)

section Append

variable {rest : List Glyph} (h : Stops isPart rest)

include h

/-- What starts with a character that is a part of a numeral ends where it did if more follows, as long as that
holds from its first character on. -/
theorem append_of_char {f : List Glyph → Nat} (hnil : f [] = 0) (hstray : ∀ b gs, f (.stray b :: gs) = 0)
    (hstops : ∀ c gs, isPart c = false → f (.char c :: gs) = 0)
    (hchar : ∀ c gs, f (.char c :: (gs ++ rest)) = f (.char c :: gs)) (gs : List Glyph) : f (gs ++ rest) = f gs := by
  match gs with
  | [] =>
    match rest, h with
    | [], _ => rfl
    | .stray b :: rs, _ => exact (hstray b rs).trans hnil.symm
    | .char c :: rs, h => exact (hstops c rs (Glyph.stops_cons.mp h)).trans hnil.symm
  | .stray b :: gs => exact (hstray b _).trans (hstray b gs).symm
  | .char c :: gs => exact hchar c gs

theorem moreDigits_of_stops {isDigit : Char → Bool}
    (hd : ∀ c, isDigit c = true → isPart c = true) : moreDigits isDigit rest = 0 := by
  match rest, h with
  | [], _ => rfl
  | .stray b :: gs, _ => rfl
  | .char c :: gs, h =>
    have hc := Glyph.stops_cons.mp h
    have hne : c ≠ '_' := by
      rintro rfl
      exact absurd hc (by decide)
    rw [moreDigits.eq_def]
    simp [eq_false_of_isPart hd hc, hne]

theorem moreDigits_append {isDigit : Char → Bool}
    (hd : ∀ c, isDigit c = true → isPart c = true) (gs : List Glyph) :
    moreDigits isDigit (gs ++ rest) = moreDigits isDigit gs := by
  fun_induction moreDigits isDigit gs with
  | case1 c gs hc ih =>
    rw [List.cons_append, moreDigits.eq_def]
    simp [hc, ih]
  | case2 c hc hu d ds hdd ih =>
    rw [List.cons_append, List.cons_append, moreDigits.eq_def]
    simp [hc, hu, hdd, ih]
  | case3 c hc hu d ds hdd =>
    rw [List.cons_append, List.cons_append, moreDigits.eq_def]
    simp [hc, hu, hdd]
  | case4 c gs hc hu hgs =>
    match gs, hgs with
    | [], _ =>
      rw [List.cons_append, List.nil_append, moreDigits.eq_def]
      match rest, h with
      | [], _ => simp [hc, hu]
      | .stray b :: rs, _ => simp [hc, hu]
      | .char d :: rs, h =>
        have hd' := eq_false_of_isPart hd (Glyph.stops_cons.mp h)
        simp [hc, hu, hd']
    | .stray b :: gs, _ =>
      rw [List.cons_append, List.cons_append, moreDigits.eq_def]
      simp [hc, hu]
    | .char d :: ds, hgs => exact absurd rfl (hgs d ds)
  | case5 c gs hc hu =>
    rw [List.cons_append, moreDigits.eq_def]
    simp [hc, hu]
  | case6 gs hgs =>
    match gs, hgs with
    | [], _ => exact moreDigits_of_stops h hd
    | .stray b :: gs, _ => rfl
    | .char d :: ds, hgs => exact absurd rfl (hgs d ds)

theorem digits_append {isDigit : Char → Bool}
    (hd : ∀ c, isDigit c = true → isPart c = true) (gs : List Glyph) :
    digits isDigit (gs ++ rest) = digits isDigit gs := by
  refine append_of_char h rfl (fun _ _ => rfl) (fun c gs hc => ?_) (fun c gs => ?_) gs
  · simp [digits, eq_false_of_isPart hd hc]
  · simp only [digits, moreDigits_append h hd]

omit h in
/-- Where a numeral is no lone zero, it is a run of digits. -/
theorem decimal_char {c : Char} (hc : c ≠ '0') (gs : List Glyph) :
    decimal (.char c :: gs) = digits isDecimal (.char c :: gs) :=
  decimal.eq_2 _ (by simpa using hc)

theorem decimal_append (gs : List Glyph) : decimal (gs ++ rest) = decimal gs := by
  refine append_of_char h rfl (fun _ _ => rfl) (fun c gs hc => ?_) (fun c gs => ?_) gs
  · rw [decimal_char (ne_of_isPart (by decide) hc)]
    simp [digits, eq_false_of_isPart (fun c => isPart_of_isDecimal) hc]
  · by_cases hc : c = '0'
    · subst hc
      rfl
    · rw [decimal_char hc, decimal_char hc]
      exact digits_append h (fun c => isPart_of_isDecimal) (.char c :: gs)

theorem based_append (gs : List Glyph) : based (gs ++ rest) = based gs := by
  match gs with
  | [] =>
    match rest, h with
    | [], _ => rfl
    | .stray b :: rs, _ => rfl
    | .char c :: rs, h =>
      have hne : c ≠ '0' := by
        rintro rfl
        exact absurd (Glyph.stops_cons.mp h) (by decide)
      rw [List.nil_append, based.eq_2 _ (by simp [hne])]
      rfl
  | [.char c] =>
    match rest, h with
    | [], _ => rfl
    | .stray b :: rs, _ => rw [List.singleton_append, based.eq_2 _ (by simp), based.eq_2 _ (by simp)]
    | .char x :: rs, h =>
      have hp := Glyph.stops_cons.mp h
      have hx : x ≠ 'x' ∧ x ≠ 'X' ∧ x ≠ 'b' ∧ x ≠ 'B' := by
        refine ⟨?_, ?_, ?_, ?_⟩ <;> rintro rfl <;> exact absurd hp (by decide)
      rw [based.eq_2 [Glyph.char c] (by simp), List.singleton_append]
      by_cases hc : c = '0'
      · subst hc
        simp [based, hx]
      · rw [based.eq_2 _ (by simp [hc])]
  | [.stray b] => rfl
  | .stray b :: g :: gs => rfl
  | .char c :: .stray b :: gs =>
    rw [List.cons_append, List.cons_append, based.eq_2 _ (by simp), based.eq_2 _ (by simp)]
  | .char c :: .char x :: gs =>
    by_cases hc : c = '0'
    · subst hc
      simp only [List.cons_append, based, digits_append h (fun c => isPart_of_isHex) gs,
        digits_append h (fun c => isPart_of_isBinary) gs]
    · rw [List.cons_append, List.cons_append, based.eq_2 _ (by simp [hc]),
        based.eq_2 _ (by simp [hc])]

omit h in
theorem sign_char {c : Char} (hc : c ≠ '-') (gs : List Glyph) : sign (.char c :: gs) = 0 :=
  sign.eq_2 _ (by simp [hc])

theorem sign_append (gs : List Glyph) : sign (gs ++ rest) = sign gs := by
  refine append_of_char h rfl (fun _ _ => rfl) (fun c gs hc => sign_char (ne_of_isPart (by decide) hc) gs)
    (fun c gs => ?_) gs
  by_cases hc : c = '-'
  · subst hc
    rfl
  · rw [sign_char hc, sign_char hc]

omit h in
theorem drop_append_of_le {n : Nat} {gs : List Glyph} (hn : n ≤ gs.length) (rest : List Glyph) :
    (gs ++ rest).drop n = gs.drop n ++ rest := List.drop_append_of_le_length hn

omit h in
theorem sign_le (gs : List Glyph) : sign gs ≤ gs.length := by
  unfold sign
  split <;> simp

omit h in
theorem moreDigits_le (isDigit : Char → Bool) (gs : List Glyph) :
    moreDigits isDigit gs ≤ gs.length := by
  fun_induction moreDigits isDigit gs <;> simp <;> omega

omit h in
theorem digits_le (isDigit : Char → Bool) (gs : List Glyph) : digits isDigit gs ≤ gs.length := by
  unfold digits
  split
  · rename_i c gs
    have := moreDigits_le isDigit gs
    split_ifs
    · simpa using this
    · simp
  · simp

omit h in
theorem decimal_le (gs : List Glyph) : decimal gs ≤ gs.length := by
  unfold decimal
  split
  · simp
  · exact digits_le ..

omit h in
theorem fraction_le (gs : List Glyph) : fraction gs ≤ gs.length := by
  unfold fraction
  split
  · simpa using digits_le ..
  · simp

omit h in
theorem based_le (gs : List Glyph) : based gs ≤ gs.length := by
  unfold based
  split
  · rename_i x gs
    have h1 := digits_le isHex gs
    have h2 := digits_le isBinary gs
    simp only [List.length_cons]
    split_ifs <;> omega
  · simp

omit h in
theorem exponentDigits_le (gs : List Glyph) : exponentDigits gs ≤ gs.length := by
  unfold exponentDigits
  split
  · rename_i c gs
    have h1 := digits_le isDecimal gs
    have h2 := digits_le isDecimal (.char c :: gs)
    simp only [List.length_cons] at h2 ⊢
    split_ifs <;> omega
  · simp

omit h in
theorem exponent_le (gs : List Glyph) : exponent gs ≤ gs.length := by
  unfold exponent
  split
  · rename_i c gs
    have h1 := exponentDigits_le gs
    simp only [List.length_cons]
    split_ifs <;> omega
  · simp

theorem int_append (gs : List Glyph) : int (gs ++ rest) = int gs := by
  simp only [int, sign_append h, drop_append_of_le (sign_le gs), based_append h, decimal_append h]

omit h in
theorem fraction_char {c : Char} (hc : c ≠ '.') (gs : List Glyph) : fraction (.char c :: gs) = 0 :=
  fraction.eq_2 _ (by simp [hc])

theorem fraction_append (gs : List Glyph) : fraction (gs ++ rest) = fraction gs := by
  refine append_of_char h rfl (fun _ _ => rfl) (fun c gs hc => fraction_char (ne_of_isPart (by decide) hc) gs)
    (fun c gs => ?_) gs
  by_cases hc : c = '.'
  · subst hc
    simp only [fraction, digits_append h (fun c => isPart_of_isDecimal)]
  · rw [fraction_char hc, fraction_char hc]

theorem exponentDigits_append (gs : List Glyph) :
    exponentDigits (gs ++ rest) = exponentDigits gs := by
  refine append_of_char h rfl (fun _ _ => rfl) (fun c gs hc => ?_) (fun c gs => ?_) gs
  · have hplus : c ≠ '+' := ne_of_isPart (by decide) hc
    have hminus : c ≠ '-' := ne_of_isPart (by decide) hc
    simp [exponentDigits, digits, hplus, hminus, eq_false_of_isPart (fun c => isPart_of_isDecimal) hc]
  · have hbehind := digits_append h (fun c => isPart_of_isDecimal) gs
    have hfrom := digits_append h (fun c => isPart_of_isDecimal) (.char c :: gs)
    rw [List.cons_append] at hfrom
    simp only [exponentDigits, hbehind, hfrom]

theorem exponent_append (gs : List Glyph) : exponent (gs ++ rest) = exponent gs := by
  refine append_of_char h rfl (fun _ _ => rfl) (fun c gs hc => ?_) (fun c gs => ?_) gs
  · simp [exponent, eq_false_of_isPart (fun c => isPart_of_isExponent) hc]
  · simp only [exponent, exponentDigits_append h gs]

theorem real_append (gs : List Glyph) : real (gs ++ rest) = real gs := by
  have h1 := decimal_le (gs.drop (sign gs))
  have h2 := fraction_le ((gs.drop (sign gs)).drop (decimal (gs.drop (sign gs))))
  rw [List.length_drop] at h2
  simp only [real, sign_append h, drop_append_of_le (sign_le gs), decimal_append h,
    drop_append_of_le h1, fraction_append h]
  rw [drop_append_of_le (by omega), exponent_append h]

/-- What is skipped is skipped whatever follows, and nothing is skipped of what follows. -/
theorem skipDigits?_append (n : Nat) (gs : List Glyph) :
    skipDigits? n (gs ++ rest) = (skipDigits? n gs).map (· ++ rest) := by
  induction n generalizing gs with
  | zero => simp [skipDigits?]
  | succ n ih =>
    match gs with
    | [] =>
      match rest, h with
      | [], _ => rfl
      | .stray b :: rs, _ => rfl
      | .char c :: rs, h =>
        have hc := eq_false_of_isPart (fun c => isPart_of_isDecimal) (Glyph.stops_cons.mp h)
        simp [skipDigits?, hc]
    | .stray b :: gs => rfl
    | .char c :: gs =>
      simp only [List.cons_append, skipDigits?, ih gs]
      split_ifs <;> rfl

theorem skipChar?_append {c : Char} (hc : isPart c = true) (gs : List Glyph) :
    skipChar? c (gs ++ rest) = (skipChar? c gs).map (· ++ rest) := by
  match gs with
  | [] =>
    match rest, h with
    | [], _ => rfl
    | .stray b :: rs, _ => rfl
    | .char d :: rs, h =>
      have hne : c ≠ d := by
        rintro rfl
        exact absurd (Glyph.stops_cons.mp h) (by simp [hc])
      simp [skipChar?, hne]
  | .stray b :: gs => rfl
  | .char d :: gs =>
    simp only [List.cons_append, skipChar?]
    split_ifs <;> rfl

theorem skipClock?_append (gs : List Glyph) :
    skipClock? (gs ++ rest) = (skipClock? gs).map (· ++ rest) := by
  unfold skipClock?
  rw [skipDigits?_append h]
  cases skipDigits? 2 gs with
  | none => rfl
  | some gs =>
    simp only [Option.map_some, Option.bind_some]
    rw [skipChar?_append h (by decide)]
    cases skipChar? ':' gs with
    | none => rfl
    | some gs => exact skipDigits?_append h 2 gs

theorem plainDigits_append (gs : List Glyph) : plainDigits (gs ++ rest) = plainDigits gs := by
  unfold plainDigits
  induction gs with
  | nil =>
    match rest, h with
    | [], _ => rfl
    | .stray b :: rs, _ => rfl
    | .char c :: rs, h =>
      have hc := eq_false_of_isPart (fun c => isPart_of_isDecimal) (Glyph.stops_cons.mp h)
      simp [Glyph.isCharWith, hc]
  | cons g gs ih =>
    simp only [List.cons_append, List.takeWhile_cons]
    split
    · simp only [List.length_cons, ih]
    · rfl

theorem seconds?_append (gs : List Glyph) : seconds? (gs ++ rest) = seconds? gs := by
  unfold seconds?
  rw [skipChar?_append h (by decide)]
  cases skipChar? ':' gs with
  | none => rfl
  | some gs =>
    simp only [Option.map_some, skipDigits?_append h 2 gs]
    cases skipDigits? 2 gs with
    | none => rfl
    | some gs =>
      simp only [Option.map_some, skipChar?_append h (show isPart '.' = true by decide) gs]
      cases skipChar? '.' gs with
      | none => rfl
      | some gs => simp only [Option.map_some, plainDigits_append h gs]

theorem zone_append (gs : List Glyph) : zone (gs ++ rest) = zone gs := by
  refine append_of_char h rfl (fun _ _ => rfl) (fun c gs hc => ?_) (fun c gs => ?_) gs
  · have hplus : c ≠ '+' := ne_of_isPart (by decide) hc
    have hminus : c ≠ '-' := ne_of_isPart (by decide) hc
    have hletter : c ≠ 'Z' := ne_of_isPart (by decide) hc
    simp [zone, hplus, hminus, hletter]
  · simp only [zone, skipClock?_append h, Option.isSome_map]

omit h in
theorem skipDigits?_length {n : Nat} {gs rs : List Glyph} (hs : skipDigits? n gs = some rs) :
    rs.length + n = gs.length := by
  induction n generalizing gs with
  | zero =>
    cases hs
    rfl
  | succ n ih =>
    match gs, hs with
    | .char c :: gs, hs =>
      simp only [skipDigits?] at hs
      split_ifs at hs
      have := ih hs
      simp only [List.length_cons]
      omega

omit h in
theorem skipChar?_length {c : Char} {gs rs : List Glyph} (hs : skipChar? c gs = some rs) :
    rs.length + 1 = gs.length := by
  match gs, hs with
  | .char d :: gs, hs =>
    simp only [skipChar?] at hs
    split_ifs at hs
    cases hs
    rfl

omit h in
theorem plainDigits_le (gs : List Glyph) : plainDigits gs ≤ gs.length :=
  (List.takeWhile_prefix _).length_le

omit h in
theorem seconds?_le {gs : List Glyph} {s : Nat} (hs : seconds? gs = some s) : s ≤ gs.length := by
  unfold seconds? at hs
  split at hs
  · cases hs
    exact Nat.zero_le _
  · rename_i rs h1
    have l1 := skipChar?_length h1
    split at hs
    · contradiction
    · rename_i qs h2
      have l2 := skipDigits?_length h2
      split at hs
      · cases hs
        omega
      · rename_i ps h3
        have l3 := skipChar?_length h3
        have l4 := plainDigits_le ps
        split_ifs at hs
        cases hs
        omega

theorem timeOfDay_append (gs : List Glyph) : timeOfDay (gs ++ rest) = timeOfDay gs := by
  unfold timeOfDay
  rw [skipClock?_append h]
  cases skipClock? gs with
  | none => rfl
  | some gs =>
    simp only [Option.map_some, seconds?_append h]
    cases hs : seconds? gs with
    | none => rfl
    | some s => simp only [drop_append_of_le (seconds?_le hs), zone_append h]

theorem timestamp_append (gs : List Glyph) : timestamp (gs ++ rest) = timestamp gs := by
  have hT : ∀ rs : List Glyph, rest ≠ .char 'T' :: rs := by
    rintro rs rfl
    exact absurd (Glyph.stops_cons.mp h) (by decide)
  have hm : ∀ rs : List Glyph, rest ≠ .char '-' :: rs := by
    rintro rs rfl
    exact absurd (Glyph.stops_cons.mp h) (by decide)
  unfold timestamp
  rw [skipDigits?_append h]
  rcases skipDigits? 4 gs with _ | (_ | ⟨g, gs⟩)
  · rfl
  · split <;> simp_all
  rcases g with c | b
  swap
  · rfl
  simp only [Option.map_some, List.cons_append]
  by_cases hc : c = 'T'
  · subst hc
    rfl
  by_cases hc' : c = '-'
  swap
  · simp [hc, hc']
  subst hc'
  simp only [skipDigits?_append h]
  rcases skipDigits? 2 gs with _ | (_ | ⟨g, gs⟩)
  · rfl
  · simp only [Option.map_some, List.nil_append]
    split <;> simp_all
  rcases g with c | b
  swap
  · rfl
  simp only [Option.map_some, List.cons_append]
  by_cases hc : c = 'T'
  · subst hc
    rfl
  by_cases hc' : c = '-'
  swap
  · simp [hc, hc']
  subst hc'
  simp only [skipDigits?_append h]
  rcases skipDigits? 2 gs with _ | (_ | ⟨g, gs⟩)
  · rfl
  · simp only [Option.map_some, List.nil_append]
  rcases g with c | b
  swap
  · rfl
  simp only [Option.map_some, List.cons_append]
  by_cases hc : c = 'T'
  · subst hc
    exact timeOfDay_append h gs
  · simp [hc]

theorem longest?_append (gs : List Glyph) : longest? (gs ++ rest) = longest? gs := by
  simp only [longest?, timestamp_append h, real_append h, int_append h]

end Append

/-! ## A numeral stands alone -/

/-- What starts with a character is read from any beginning that holds it, as long as that holds from its first
character on. -/
theorem take_of_char {f : List Glyph → Nat} (hnil : f [] = 0) (hstray : ∀ b gs, f (.stray b :: gs) = 0)
    (hchar : ∀ c gs n, f (.char c :: gs) ≤ n + 1 → f (.char c :: gs.take n) = f (.char c :: gs)) {n : Nat}
    {gs : List Glyph} (hn : f gs ≤ n) : f (gs.take n) = f gs := by
  match gs, n with
  | [], n => rw [List.take_nil]
  | .stray b :: gs, 0 => exact hnil.trans (hstray b gs).symm
  | .stray b :: gs, n + 1 => exact (hstray b _).trans (hstray b gs).symm
  | .char c :: gs, 0 => exact hnil.trans (Nat.le_zero.mp hn).symm
  | .char c :: gs, n + 1 => exact hchar c gs n hn

theorem moreDigits_take {isDigit : Char → Bool} {n : Nat} {gs : List Glyph}
    (hn : moreDigits isDigit gs ≤ n) : moreDigits isDigit (gs.take n) = moreDigits isDigit gs := by
  fun_induction moreDigits isDigit gs generalizing n with
  | case1 c gs hc ih =>
    obtain ⟨n, rfl⟩ := Nat.exists_eq_add_of_le' hn
    rw [← Nat.add_assoc, List.take_succ_cons, moreDigits.eq_def]
    simp [hc, ih (Nat.le_add_left ..)]
  | case2 c hc hu d ds hdd ih =>
    obtain ⟨n, rfl⟩ := Nat.exists_eq_add_of_le' hn
    rw [show n + (moreDigits isDigit ds + 2) = n + moreDigits isDigit ds + 1 + 1 by omega,
      List.take_succ_cons, List.take_succ_cons, moreDigits.eq_def]
    simp [hc, hu, hdd, ih (Nat.le_add_left ..)]
  | case3 c hc hu d ds hdd =>
    match n with
    | 0 => rfl
    | 1 => simp [moreDigits, hc]
    | n + 2 =>
      rw [List.take_succ_cons, List.take_succ_cons, moreDigits.eq_def]
      simp [hc, hu, hdd]
  | case4 c gs hc hu hgs =>
    match n with
    | 0 => rfl
    | n + 1 =>
      rw [List.take_succ_cons, moreDigits.eq_def]
      match gs, n, hgs with
      | [], _, _ => simp [hc, hu]
      | .stray b :: gs, 0, _ => simp [hc, hu]
      | .stray b :: gs, n + 1, _ => simp [hc, hu]
      | .char d :: ds, _, hgs => exact absurd rfl (hgs d ds)
  | case5 c gs hc hu =>
    match n with
    | 0 => rfl
    | n + 1 =>
      rw [List.take_succ_cons, moreDigits.eq_def]
      simp [hc, hu]
  | case6 gs hgs =>
    match gs, n, hgs with
    | [], n, _ => rw [List.take_nil]; rfl
    | .stray b :: gs, 0, _ => rfl
    | .stray b :: gs, n + 1, _ => rfl
    | .char d :: ds, _, hgs => exact absurd rfl (hgs d ds)

theorem digits_take {isDigit : Char → Bool} {n : Nat} {gs : List Glyph}
    (hn : digits isDigit gs ≤ n) : digits isDigit (gs.take n) = digits isDigit gs := by
  refine take_of_char rfl (fun _ _ => rfl) (fun c gs n hn => ?_) hn
  simp only [digits] at hn ⊢
  split_ifs at hn ⊢
  · rw [moreDigits_take (by omega)]
  · rfl

theorem decimal_take {n : Nat} {gs : List Glyph} (hn : decimal gs ≤ n) :
    decimal (gs.take n) = decimal gs := by
  refine take_of_char rfl (fun _ _ => rfl) (fun c gs n hn => ?_) hn
  by_cases hc : c = '0'
  · subst hc
    rfl
  · rw [decimal_char hc] at hn
    rw [decimal_char hc, decimal_char hc, ← digits_take hn, List.take_succ_cons]

theorem based_take {n : Nat} {gs : List Glyph} (hn : based gs ≤ n) :
    based (gs.take n) = based gs := by
  match gs, n with
  | [], n => rw [List.take_nil]
  | [g], 0 => rw [List.take_zero, based.eq_2 [g] (by simp)]; rfl
  | [g], n + 1 => rw [List.take_succ_cons, List.take_nil]
  | .stray b :: g :: gs, 0 => rfl
  | .stray b :: g :: gs, n + 1 => rfl
  | .char c :: .stray b :: gs, n =>
    rw [based.eq_2 (.char c :: .stray b :: gs) (by simp)]
    match n with
    | 0 => rfl
    | 1 => rw [based.eq_2 _ (by simp)]
    | n + 2 => rw [based.eq_2 _ (by simp)]
  | .char c :: .char x :: gs, n =>
    by_cases hc : c = '0'
    · subst hc
      simp only [based] at hn ⊢
      match n with
      | 0 =>
        split_ifs at hn ⊢ <;> first | rfl | omega
      | 1 =>
        split_ifs at hn ⊢ <;> first | rfl | omega
      | n + 2 =>
        simp only [List.take_succ_cons]
        by_cases hx : (x == 'x' || x == 'X') = true
        · rw [if_pos hx] at hn
          have hd : digits isHex gs ≤ n := by split_ifs at hn <;> omega
          simp only [if_pos hx, digits_take hd]
        · rw [if_neg hx] at hn
          by_cases hb : (x == 'b' || x == 'B') = true
          · rw [if_pos hb] at hn
            have hd : digits isBinary gs ≤ n := by split_ifs at hn <;> omega
            simp only [if_neg hx, if_pos hb, digits_take hd]
          · simp only [if_neg hx, if_neg hb]
    · have hzero : based (.char c :: .char x :: gs) = 0 := based.eq_2 _ (by simp [hc])
      rw [hzero]
      match n with
      | 0 => rfl
      | 1 => exact based.eq_2 _ (by simp)
      | n + 2 => exact based.eq_2 _ (by simp [hc])

theorem sign_take {n : Nat} {gs : List Glyph} (hn : sign gs ≤ n) :
    sign (gs.take n) = sign gs := by
  refine take_of_char rfl (fun _ _ => rfl) (fun c gs n hn => ?_) hn
  by_cases hc : c = '-'
  · subst hc
    rfl
  · rw [sign_char hc, sign_char hc]

theorem int_take {n : Nat} {gs : List Glyph} (hn : int gs ≤ n) (h0 : int gs ≠ 0) :
    int (gs.take n) = int gs := by
  have hs : sign gs ≤ n := by
    simp only [int] at hn h0
    split_ifs at hn h0 <;> omega
  simp only [int] at hn h0 ⊢
  rw [sign_take hs, List.drop_take]
  by_cases hb : based (gs.drop (sign gs)) = 0
  · simp only [hb, if_true] at hn h0 ⊢
    have hd : decimal (gs.drop (sign gs)) ≤ n - sign gs := by
      split_ifs at hn <;> omega
    rw [based_take (by omega), decimal_take hd]
    simp [hb]
  · simp only [hb, if_false] at hn h0 ⊢
    rw [based_take (by omega)]
    simp [hb]

theorem fraction_take {n : Nat} {gs : List Glyph} (hn : fraction gs ≤ n) :
    fraction (gs.take n) = fraction gs := by
  refine take_of_char rfl (fun _ _ => rfl) (fun c gs n hn => ?_) hn
  by_cases hc : c = '.'
  · subst hc
    simp only [fraction] at hn ⊢
    rw [digits_take (by omega)]
  · rw [fraction_char hc, fraction_char hc]

theorem exponentDigits_take {n : Nat} {gs : List Glyph} (hn : exponentDigits gs ≤ n) :
    exponentDigits (gs.take n) = exponentDigits gs := by
  refine take_of_char rfl (fun _ _ => rfl) (fun c gs n hn => ?_) hn
  simp only [exponentDigits] at hn ⊢
  by_cases hc : (c == '+' || c == '-') = true
  · rw [if_pos hc] at hn
    have hd : digits isDecimal gs ≤ n := by split_ifs at hn <;> omega
    simp only [if_pos hc, digits_take hd]
  · rw [if_neg hc] at hn ⊢
    rw [if_neg hc, ← List.take_succ_cons, digits_take hn]

theorem exponent_take {n : Nat} {gs : List Glyph} (hn : exponent gs ≤ n) :
    exponent (gs.take n) = exponent gs := by
  refine take_of_char rfl (fun _ _ => rfl) (fun c gs n hn => ?_) hn
  simp only [exponent] at hn ⊢
  by_cases hc : isExponent c = true
  · rw [if_pos hc] at hn
    have hd : exponentDigits gs ≤ n := by split_ifs at hn <;> omega
    simp only [if_pos hc, exponentDigits_take hd]
  · simp only [if_neg hc]

theorem real_take {n : Nat} {gs : List Glyph} (hn : real gs ≤ n) (h0 : real gs ≠ 0) :
    real (gs.take n) = real gs := by
  simp only [real] at hn h0 ⊢
  have hb : (gs.take n).drop (sign gs) = (gs.drop (sign gs)).take (n - sign gs) := List.drop_take
  generalize gs.drop (sign gs) = body at hn h0 hb ⊢
  by_cases hw : decimal body = 0
  · rw [if_pos hw] at h0
    exact absurd rfl h0
  rw [if_neg hw] at hn h0
  split_ifs at hn h0 with hfe
  · exact absurd rfl h0
  have hf : (body.take (n - sign gs)).drop (decimal body) =
    (body.drop (decimal body)).take (n - sign gs - decimal body) := List.drop_take
  have he : ∀ f, (body.take (n - sign gs)).drop (decimal body + f) =
    (body.drop (decimal body + f)).take (n - sign gs - (decimal body + f)) := fun _ => List.drop_take
  rw [sign_take (by omega), hb, decimal_take (by omega), hf, fraction_take (by omega), he,
    exponent_take (by omega)]

theorem skipDigits?_take {k n : Nat} (hk : k ≤ n) (gs : List Glyph) :
    skipDigits? k (gs.take n) = (skipDigits? k gs).map (·.take (n - k)) := by
  induction k generalizing n gs with
  | zero => rfl
  | succ k ih =>
    obtain ⟨m, rfl⟩ := Nat.exists_eq_add_of_le' hk
    match gs with
    | [] => rfl
    | .stray b :: gs => rfl
    | .char c :: gs =>
      rw [← Nat.add_assoc, List.take_succ_cons]
      simp only [skipDigits?, ih (Nat.le_add_left k m), show m + k + 1 - (k + 1) = m + k - k by omega]
      split_ifs <;> rfl

theorem skipChar?_take (c : Char) (n : Nat) (gs : List Glyph) :
    skipChar? c (gs.take (n + 1)) = (skipChar? c gs).map (·.take n) := by
  match gs with
  | [] => rfl
  | .stray b :: gs => rfl
  | .char d :: gs =>
    rw [List.take_succ_cons]
    simp only [skipChar?]
    split_ifs <;> rfl

theorem skipClock?_take {n : Nat} (hn : 5 ≤ n) (gs : List Glyph) :
    skipClock? (gs.take n) = (skipClock? gs).map (·.take (n - 5)) := by
  obtain ⟨m, rfl⟩ := Nat.exists_eq_add_of_le' hn
  unfold skipClock?
  rw [skipDigits?_take (by omega)]
  cases skipDigits? 2 gs with
  | none => rfl
  | some gs =>
    simp only [Option.map_some, Option.bind_some]
    rw [show m + 5 - 2 = m + 2 + 1 by omega, skipChar?_take]
    cases skipChar? ':' gs with
    | none => rfl
    | some gs =>
      simp only [Option.map_some, Option.bind_some]
      rw [skipDigits?_take (by omega), show m + 2 - 2 = m + 5 - 5 by omega]

theorem plainDigits_take {n : Nat} {gs : List Glyph} (hn : plainDigits gs ≤ n) :
    plainDigits (gs.take n) = plainDigits gs := by
  unfold plainDigits at hn ⊢
  induction gs generalizing n with
  | nil => rw [List.take_nil]
  | cons g gs ih =>
    match n with
    | 0 => exact (Nat.le_zero.mp hn).symm
    | n + 1 =>
      simp only [List.take_succ_cons, List.takeWhile_cons] at hn ⊢
      split_ifs at hn ⊢
      · simp only [List.length_cons] at hn ⊢
        rw [ih (by omega)]
      · rfl

theorem seconds?_take {s n : Nat} {gs : List Glyph} (h : seconds? gs = some s) (hn : s ≤ n) :
    seconds? (gs.take n) = some s := by
  unfold seconds? at h ⊢
  cases h1 : skipChar? ':' gs with
  | none =>
    rw [h1] at h
    cases h
    match n with
    | 0 => rfl
    | n + 1 => rw [skipChar?_take, h1]; rfl
  | some rs =>
    rw [h1] at h
    cases h2 : skipDigits? 2 rs with
    | none => simp [h2] at h
    | some qs =>
      simp only [h2] at h
      cases h3 : skipChar? '.' qs with
      | none =>
        simp only [h3, Option.some.injEq] at h
        obtain ⟨m, rfl⟩ := Nat.exists_eq_add_of_le' hn
        subst h
        rw [skipChar?_take, h1]
        simp only [Option.map_some]
        rw [skipDigits?_take (by omega), h2]
        simp only [Option.map_some, show m + 2 - 2 = m by omega]
        match m with
        | 0 => rfl
        | m + 1 => rw [skipChar?_take, h3]; rfl
      | some ps =>
        simp only [h3] at h
        split_ifs at h with hp
        cases h
        obtain ⟨m, rfl⟩ := Nat.exists_eq_add_of_le' hn
        rw [show m + (plainDigits ps + 4) = m + plainDigits ps + 3 + 1 by omega, skipChar?_take, h1]
        simp only [Option.map_some]
        rw [skipDigits?_take (by omega), h2]
        simp only [Option.map_some]
        rw [show m + plainDigits ps + 3 - 2 = m + plainDigits ps + 1 by omega, skipChar?_take, h3]
        simp only [Option.map_some]
        rw [plainDigits_take (by omega), if_neg hp]

theorem zone_take {n : Nat} {gs : List Glyph} (h0 : zone gs ≠ 0) (hn : zone gs ≤ n) :
    zone (gs.take n) = zone gs := by
  match gs, n with
  | [], n => rw [List.take_nil]
  | .stray b :: gs, 0 => rfl
  | .stray b :: gs, n + 1 => rfl
  | .char c :: gs, 0 => omega
  | .char c :: gs, n + 1 =>
    rw [List.take_succ_cons]
    simp only [zone] at h0 hn ⊢
    split_ifs at h0 hn with hz hc
    · simp only [if_pos hz]
    · rw [skipClock?_take (by omega), Option.isSome_map, if_neg hz]
    · exact absurd rfl h0

theorem timeOfDay_take {n : Nat} {gs : List Glyph} (h0 : timeOfDay gs ≠ 0)
    (hn : timeOfDay gs = n + 11) : timeOfDay (gs.take n) = timeOfDay gs := by
  rw [hn]
  unfold timeOfDay at h0 hn ⊢
  cases h1 : skipClock? gs with
  | none =>
    simp only [h1] at hn
    obtain rfl : n = 0 := by omega
    rfl
  | some rest =>
    simp only [h1] at h0 hn
    cases h2 : seconds? rest with
    | none => simp [h2] at h0
    | some s =>
      simp only [h2] at h0 hn
      split_ifs at h0 hn with hz
      rw [skipClock?_take (by omega), h1]
      simp only [Option.map_some]
      rw [seconds?_take h2 (by omega)]
      simp only [List.drop_take]
      rw [zone_take hz (by omega), if_neg hz, hn]

theorem timeOfDay_ge {gs : List Glyph} (h0 : timeOfDay gs ≠ 0) : 11 ≤ timeOfDay gs := by
  unfold timeOfDay at h0 ⊢
  split at h0
  · exact Nat.le_refl 11
  · split at h0
    · exact absurd rfl h0
    · dsimp only at h0 ⊢
      split_ifs at h0 ⊢
      · exact absurd rfl h0
      · omega

/-- A timestamp starts with four digits and, right after them, a letter or a minus sign. -/
theorem timestamp_starts {gs : List Glyph} (h0 : timestamp gs ≠ 0) :
    5 ≤ timestamp gs ∧ ∃ c rs, (c = 'T' ∨ c = '-') ∧ skipDigits? 4 gs = some (.char c :: rs) := by
  unfold timestamp at h0 ⊢
  split at h0
  · rename_i rs h1
    exact ⟨Nat.le_refl 5, 'T', rs, .inl rfl, h1⟩
  · rename_i rs h1
    refine ⟨?_, '-', rs, .inr rfl, h1⟩
    split at h0
    · omega
    · split at h0
      · have := timeOfDay_ge h0
        omega
      · omega
      · exact absurd rfl h0
    · exact absurd rfl h0
  · exact absurd rfl h0

theorem skipClock?_length {gs rs : List Glyph} (h : skipClock? gs = some rs) :
    rs.length + 5 = gs.length := by
  unfold skipClock? at h
  obtain ⟨qs, h1, h⟩ := Option.bind_eq_some_iff.mp h
  obtain ⟨ps, h2, h3⟩ := Option.bind_eq_some_iff.mp h
  have l1 := skipDigits?_length h1
  have l2 := skipChar?_length h2
  have l3 := skipDigits?_length h3
  omega

theorem zone_le (gs : List Glyph) : zone gs ≤ gs.length := by
  unfold zone
  split
  · rename_i c gs
    split_ifs with h1 h2
    · simp
    · simp only [Bool.and_eq_true] at h2
      obtain ⟨rs, h3⟩ := Option.isSome_iff_exists.mp h2.2
      have l3 := skipClock?_length h3
      rw [List.length_cons]
      omega
    · simp
  · simp

theorem timeOfDay_le (gs : List Glyph) : timeOfDay gs ≤ gs.length + 11 := by
  unfold timeOfDay
  split
  · omega
  · rename_i rs h1
    have l1 := skipClock?_length h1
    split
    · omega
    · rename_i s h2
      have l2 := seconds?_le h2
      have l3 := zone_le (rs.drop s)
      rw [List.length_drop] at l3
      dsimp only
      split_ifs <;> omega

theorem timestamp_le (gs : List Glyph) : timestamp gs ≤ gs.length := by
  unfold timestamp
  split
  · rename_i rs h1
    have l1 := skipDigits?_length h1
    rw [List.length_cons] at l1
    omega
  · rename_i rs h1
    have l1 := skipDigits?_length h1
    rw [List.length_cons] at l1
    split
    · rename_i qs h2
      have l2 := skipDigits?_length h2
      rw [List.length_cons] at l2
      omega
    · rename_i qs h2
      have l2 := skipDigits?_length h2
      rw [List.length_cons] at l2
      split
      · rename_i ps h3
        have l3 := skipDigits?_length h3
        have l4 := timeOfDay_le ps
        rw [List.length_cons] at l3
        omega
      · rename_i ps hps h3
        have l3 := skipDigits?_length h3
        omega
      · exact Nat.zero_le _
    · exact Nat.zero_le _
  · exact Nat.zero_le _

theorem timestamp_take {gs : List Glyph} (h0 : timestamp gs ≠ 0) :
    timestamp (gs.take (timestamp gs)) = timestamp gs := by
  obtain ⟨hge, -⟩ := timestamp_starts h0
  generalize hn : timestamp gs = n at hge
  unfold timestamp at hn ⊢
  rw [skipDigits?_take (by omega)]
  split at hn
  · rename_i rs h1
    rw [h1, ← hn]
    rfl
  · rename_i rs h1
    rw [h1]
    obtain ⟨m, rfl⟩ := Nat.exists_eq_add_of_le' hge
    simp only [Option.map_some, show m + 5 - 4 = m + 1 by omega, List.take_succ_cons]
    split at hn
    · rename_i qs h2
      obtain rfl : m = 3 := by omega
      rw [skipDigits?_take (by omega), h2]
      rfl
    · rename_i qs h2
      split at hn
      · rename_i ps h3
        have htime : timeOfDay ps ≠ 0 := by omega
        have hlarge := timeOfDay_ge htime
        obtain ⟨k, rfl⟩ := Nat.exists_eq_add_of_le' (show 6 ≤ m by omega)
        rw [skipDigits?_take (by omega), h2]
        simp only [Option.map_some, show k + 6 - 2 = k + 3 + 1 by omega, List.take_succ_cons]
        rw [skipDigits?_take (by omega), h3]
        simp only [Option.map_some, show k + 3 - 2 = k + 1 by omega, List.take_succ_cons]
        exact (timeOfDay_take htime (n := k) (by omega)).trans hn
      · rename_i ps hps h3
        obtain rfl : m = 5 := by omega
        rw [skipDigits?_take (by omega), h2]
        simp only [Option.map_some, show 5 - 2 = 2 + 1 by rfl, List.take_succ_cons]
        rw [skipDigits?_take (by omega), h3]
        rfl
      · omega
    · omega
  · omega

/-- The digits that are skipped. -/
theorem skipDigits?_split {n : Nat} {gs rest : List Glyph} (h : skipDigits? n gs = some rest) :
    ∃ ds : List Char, gs = ofChars ds ++ rest ∧ ds.length = n ∧ ∀ d ∈ ds, isDecimal d = true := by
  induction n generalizing gs with
  | zero =>
    cases h
    exact ⟨[], rfl, rfl, by simp⟩
  | succ n ih =>
    match gs, h with
    | .char d :: gs, h =>
      simp only [skipDigits?] at h
      split_ifs at h with hd
      obtain ⟨ds, rfl, hl, hds⟩ := ih h
      exact ⟨d :: ds, rfl, by simp [hl], by simpa [hd] using hds⟩

/-- Four digits before a letter or a minus sign are at most these four digits as an integer, and
no real at all. -/
theorem int_le_of_timestamp {gs : List Glyph} (h0 : timestamp gs ≠ 0) :
    int gs ≤ 4 ∧ real gs = 0 := by
  obtain ⟨-, c, rs, hc, h4⟩ := timestamp_starts h0
  obtain ⟨ds, rfl, hl, hds⟩ := skipDigits?_split h4
  match ds, hl with
  | [d, e, f, g], _ =>
    have hstop : isDecimal c = false ∧ c ≠ '_' ∧ c ≠ '.' ∧ isExponent c = false := by
      rcases hc with rfl | rfl <;> decide
    have hd : isDecimal d = true := hds d (by simp)
    have he : isDecimal e = true := hds e (by simp)
    have hf : isDecimal f = true := hds f (by simp)
    have hg : isDecimal g = true := hds g (by simp)
    have hne : d ≠ '-' := by
      rintro rfl
      exact absurd hd (by decide)
    have hx : e ≠ 'x' ∧ e ≠ 'X' ∧ e ≠ 'b' ∧ e ≠ 'B' ∧ e ≠ '.' ∧ isExponent e = false := by
      refine ⟨?_, ?_, ?_, ?_, ?_, ?_⟩
      on_goal 6 => 
        cases hx : isExponent e with
        | false => rfl
        | true =>
          simp only [isExponent, Bool.or_eq_true, beq_iff_eq] at hx
          rcases hx with ((rfl | rfl) | rfl) | rfl <;> exact absurd he (by decide)
      all_goals
        rintro rfl
        exact absurd he (by decide)
    have hsign : sign (ofChars [d, e, f, g] ++ .char c :: rs) = 0 := sign.eq_2 _ (by simp [hne])
    have hbased : based (ofChars [d, e, f, g] ++ .char c :: rs) = 0 := by
      by_cases h0 : d = '0'
      · subst h0
        simp [based, hx]
      · exact based.eq_2 _ (by simp [h0])
    have hmore : moreDigits isDecimal (.char c :: rs) = 0 := by
      rw [moreDigits.eq_def]
      simp [hstop]
    have hdecimal : decimal (ofChars [d, e, f, g] ++ .char c :: rs) = if d = '0' then 1 else 4 := by
      split_ifs with h0
      · subst h0
        rfl
      · have h1 : decimal (ofChars [d, e, f, g] ++ .char c :: rs) =
            digits isDecimal (ofChars [d, e, f, g] ++ .char c :: rs) :=
          decimal.eq_2 _ (by simpa using h0)
        rw [h1]
        simp [digits, moreDigits, hd, he, hf, hg, hmore]
    constructor
    · simp only [int, hsign, List.drop_zero, hbased, hdecimal]
      split_ifs <;> simp
    · simp only [real, hsign, List.drop_zero, hdecimal]
      by_cases h0 : d = '0'
      · simp [h0, fraction, exponent, hx]
      · simp [h0, fraction, exponent, hstop]

/-- Neither a fraction nor an exponent is hidden in the characters of an unsigned integer. -/
theorem no_fraction_in_integer {body : List Glyph} {n : Nat}
    (hn : n = if based body = 0 then decimal body else based body) :
    fraction ((body.take n).drop (decimal (body.take n))) = 0 ∧
      exponent ((body.take n).drop (decimal (body.take n))) = 0 := by
  by_cases hbase : based body = 0
  · rw [if_pos hbase] at hn
    rw [hn, decimal_take (Nat.le_refl _), List.drop_eq_nil_of_le (List.length_take_le ..)]
    exact ⟨rfl, rfl⟩
  · rw [if_neg hbase] at hn
    subst hn
    unfold based at hbase ⊢
    split at hbase
    · rename_i x gs
      dsimp only at hbase ⊢
      have hx : x = 'x' ∨ x = 'X' ∨ x = 'b' ∨ x = 'B' := by
        by_contra hne
        simp only [not_or] at hne
        simp [hne] at hbase
      generalize (if (x == 'x' || x == 'X') = true then digits isHex gs
        else if (x == 'b' || x == 'B') = true then digits isBinary gs else 0) = run at hbase ⊢
      split_ifs at hbase ⊢ with h
      · exact absurd rfl hbase
      · rw [List.take_succ_cons, List.take_succ_cons]
        rcases hx with rfl | rfl | rfl | rfl <;> exact ⟨rfl, rfl⟩
    · exact absurd rfl hbase

theorem real_take_int {gs : List Glyph} (h0 : int gs ≠ 0) : real (gs.take (int gs)) = 0 := by
  obtain ⟨n, hn, hint⟩ : ∃ n, n = (if based (gs.drop (sign gs)) = 0 then decimal (gs.drop (sign gs))
      else based (gs.drop (sign gs))) ∧ int gs = sign gs + n := by
    simp only [int] at h0 ⊢
    refine ⟨_, rfl, ?_⟩
    rw [if_neg]
    intro hz
    exact h0 (if_pos hz)
  obtain ⟨hf, he⟩ := no_fraction_in_integer hn
  have hb : (gs.take (int gs)).drop (sign gs) = (gs.drop (sign gs)).take n := by
    rw [hint, List.drop_take, Nat.add_sub_cancel_left]
  simp only [real]
  rw [sign_take (by omega), hb, hf, Nat.add_zero, he]
  simp

/-- The characters of a numeral are the same numeral when they stand alone. -/
theorem longest?_take {gs : List Glyph} {type : TokenType} {n : Nat}
    (h : longest? gs = some (type, n)) : longest? (gs.take n) = some (type, n) := by
  unfold longest? at h
  split_ifs at h with ht hr hi
  · cases h
    rw [longest?, timestamp_take ht, if_pos ht]
  · cases h
    have hreal := real_take (Nat.le_refl _) hr
    have hnot : timestamp (gs.take (real gs)) = 0 := by
      by_contra ht'
      exact hr (hreal ▸ (int_le_of_timestamp ht').2)
    rw [longest?, hreal, if_neg (by simpa using hnot), if_pos hr]
  · cases h
    have hint := int_take (Nat.le_refl _) hi
    have hnot : timestamp (gs.take (int gs)) = 0 := by
      by_contra ht'
      have h4 := (int_le_of_timestamp ht').1
      obtain ⟨-, c, rs, -, hskip⟩ := timestamp_starts ht'
      have hl := skipDigits?_length hskip
      rw [List.length_take, List.length_cons] at hl
      omega
    rw [longest?, hint, if_neg (by simpa using hnot), if_neg (by simpa using real_take_int hi),
      if_pos hi]

theorem longest?_le {gs : List Glyph} {type : TokenType} {n : Nat}
    (h : longest? gs = some (type, n)) : n ≤ gs.length := by
  unfold longest? at h
  split_ifs at h with ht hr hi
  · cases h
    exact timestamp_le gs
  · cases h
    have h1 := sign_le gs
    have h2 := decimal_le (gs.drop (sign gs))
    have h3 := fraction_le ((gs.drop (sign gs)).drop (decimal (gs.drop (sign gs))))
    have h4 := exponent_le ((gs.drop (sign gs)).drop (decimal (gs.drop (sign gs)) +
      fraction ((gs.drop (sign gs)).drop (decimal (gs.drop (sign gs))))))
    simp only [List.length_drop] at h2 h3 h4
    simp only [real]
    split_ifs <;> omega
  · cases h
    have h1 := sign_le gs
    have h2 := decimal_le (gs.drop (sign gs))
    have h3 := based_le (gs.drop (sign gs))
    rw [List.length_drop] at h2 h3
    simp only [int]
    split_ifs <;> omega

/-- A numeral holds characters only. -/
theorem ofChars_of_longest? {gs : List Glyph} {type : TokenType} {n : Nat}
    (h : longest? gs = some (type, n)) : ∃ w, gs.take n = ofChars w := by
  have hall : ∀ g ∈ gs.take n, ∃ c, g = .char c := by
    intro g hg
    cases g with
    | char c => exact ⟨c, rfl⟩
    | stray b =>
      obtain ⟨x, y, hxy⟩ := List.append_of_mem hg
      have hstop : Stops isPart (.stray b :: y) := by simp [Stops]
      have htake := longest?_take h
      rw [hxy, longest?_append hstop] at htake
      have hle := longest?_le htake
      have hlen := congrArg List.length hxy
      have hn := longest?_le h
      simp only [List.length_take, List.length_append, List.length_cons] at hlen
      omega
  generalize gs.take n = hs at hall
  induction hs with
  | nil => exact ⟨[], rfl⟩
  | cons g hs ih =>
    obtain ⟨c, rfl⟩ := hall g (by simp)
    obtain ⟨w, hw⟩ := ih fun g hg => hall g (by simp [hg])
    exact ⟨c :: w, by rw [hw]; rfl⟩

/-- A numeral holds nothing but its parts: what is none would end it. -/
theorem isPart_of_longest? {w : List Char} {type : TokenType}
    (h : longest? (ofChars w) = some (type, w.length)) {c : Char} (hc : c ∈ w) :
    isPart c = true := by
  by_contra hp
  obtain ⟨a, b, rfl⟩ := List.append_of_mem hc
  have hstop : Stops isPart (ofChars (c :: b)) := Glyph.stops_cons.mpr (by simpa using hp)
  rw [Glyph.ofChars_append, longest?_append hstop] at h
  have hle := longest?_le h
  simp only [List.length_append, List.length_cons, Glyph.length_ofChars] at hle
  omega

theorem decimal_starts {gs : List Glyph} (h : decimal gs ≠ 0) :
    ∃ c rs, gs = .char c :: rs ∧ isDecimal c = true := by
  unfold decimal at h
  split at h
  · exact ⟨'0', _, rfl, by decide⟩
  · unfold digits at h
    split at h
    · split_ifs at h with hc
      · exact ⟨_, _, rfl, hc⟩
      · exact absurd rfl h
    · exact absurd rfl h

theorem based_starts {gs : List Glyph} (h : based gs ≠ 0) :
    ∃ c rs, gs = .char c :: rs ∧ isDecimal c = true := by
  unfold based at h
  split at h
  · exact ⟨'0', _, rfl, by decide⟩
  · exact absurd rfl h

/-- A numeral starts with a digit, or with a minus sign before a digit. -/
theorem longest?_starts {g : Glyph} {gs : List Glyph} (h : (longest? (g :: gs)).isSome = true) :
    ∃ c, g = .char c ∧ (isDecimal c = true ∨
      c = '-' ∧ ∃ d rs, gs = .char d :: rs ∧ isDecimal d = true) := by
  have hbody : ∀ c rs, (g :: gs).drop (sign (g :: gs)) = .char c :: rs → isDecimal c = true →
      ∃ c, g = .char c ∧ (isDecimal c = true ∨
        c = '-' ∧ ∃ d rs, gs = .char d :: rs ∧ isDecimal d = true) := by
    intro c rs hdrop hc
    unfold sign at hdrop
    split at hdrop
    · rename_i heq
      cases heq
      exact ⟨'-', rfl, .inr ⟨rfl, c, rs, hdrop, hc⟩⟩
    · cases hdrop
      exact ⟨c, rfl, .inl hc⟩
  unfold longest? at h
  split_ifs at h with ht hr hi
  · obtain ⟨-, c, rs, -, hskip⟩ := timestamp_starts ht
    match g, hskip with
    | .char d, hskip =>
      simp only [skipDigits?] at hskip
      split_ifs at hskip with hd
      exact ⟨d, rfl, .inl hd⟩
  · have hw : decimal ((g :: gs).drop (sign (g :: gs))) ≠ 0 := by
      intro hz
      exact hr (by simp [real, hz])
    obtain ⟨c, rs, hdrop, hc⟩ := decimal_starts hw
    exact hbody c rs hdrop hc
  · by_cases hb : based ((g :: gs).drop (sign (g :: gs))) = 0
    · have hw : decimal ((g :: gs).drop (sign (g :: gs))) ≠ 0 := by
        intro hz
        exact hi (by simp [int, hb, hz])
      obtain ⟨c, rs, hdrop, hc⟩ := decimal_starts hw
      exact hbody c rs hdrop hc
    · obtain ⟨c, rs, hdrop, hc⟩ := based_starts hb
      exact hbody c rs hdrop hc
  · simp at h

/-! ## Numerals without their sign -/

theorem sign_of_isDecimal {d : Char} {gs : List Glyph} (hd : isDecimal d = true) :
    sign (.char d :: gs) = 0 := by
  unfold sign
  split
  · rename_i heq
    cases heq
    exact absurd hd (by decide)
  · rfl

theorem real_signed {gs : List Glyph} (h : sign gs = 0) :
    real (.char '-' :: gs) = if real gs = 0 then 0 else real gs + 1 := by
  have hsign : sign (.char '-' :: gs) = 1 := rfl
  simp only [real, hsign, h, List.drop_succ_cons, List.drop_zero]
  split_ifs <;> omega

theorem int_signed {gs : List Glyph} (h : sign gs = 0) :
    int (.char '-' :: gs) = if int gs = 0 then 0 else int gs + 1 := by
  have hsign : sign (.char '-' :: gs) = 1 := rfl
  simp only [int, hsign, h, List.drop_succ_cons, List.drop_zero]
  split_ifs <;> omega

/-- No timestamp starts with a minus sign. -/
theorem timestamp_signed (gs : List Glyph) : timestamp (.char '-' :: gs) = 0 := by
  by_contra ht
  obtain ⟨-, c, rs, -, hskip⟩ := timestamp_starts ht
  simp [skipDigits?, isDecimal] at hskip

theorem not_timestamp_signed (w : List Char) (n : Nat) :
    longest? (ofChars ('-' :: w)) ≠ some (.timestamp, n) := by
  intro h
  rw [longest?, Glyph.ofChars_cons, timestamp_signed, if_neg (by simp)] at h
  split_ifs at h <;> simp at h

/-- Behind a minus sign there is a digit. -/
theorem signed_starts {type : TokenType} {w : List Char} {n : Nat}
    (h : longest? (ofChars ('-' :: w)) = some (type, n)) : ∃ d ds, w = d :: ds ∧ isDecimal d = true := by
  obtain ⟨c, hc, hstart⟩ := longest?_starts (show (longest? (.char '-' :: ofChars w)).isSome = true by
    rw [← Glyph.ofChars_cons, h]
    rfl)
  obtain rfl := Glyph.char.inj hc
  obtain ⟨d, rs, hw, hd⟩ := (hstart.resolve_left (by decide)).2
  cases w with
  | nil => simp at hw
  | cons e ds =>
    obtain rfl := Glyph.char.inj (List.cons.inj hw).1
    exact ⟨_, ds, rfl, hd⟩

/-- Behind its minus sign a number goes on as the same number. -/
theorem longest?_unsigned {type : TokenType} {w : List Char}
    (h : longest? (ofChars ('-' :: w)) = some (type, w.length + 1)) :
    longest? (ofChars w) = some (type, w.length) := by
  obtain ⟨d, ds, rfl, hd⟩ := signed_starts h
  have hsign : sign (ofChars (d :: ds)) = 0 := by rw [Glyph.ofChars_cons, sign_of_isDecimal hd]
  generalize d :: ds = w at h hsign ⊢
  unfold longest? at h
  rw [Glyph.ofChars_cons, real_signed hsign, int_signed hsign, timestamp_signed, if_neg (by simp)] at h
  by_cases hr : real (ofChars w) = 0
  · rw [hr, if_pos rfl, if_neg (by simp)] at h
    by_cases hi : int (ofChars w) = 0
    · simp [hi] at h
    · rw [if_neg hi, if_pos (by omega)] at h
      obtain ⟨rfl, hlen⟩ := Prod.mk.inj (Option.some.inj h)
      have hint : int (ofChars w) = w.length := by omega
      have hnot : timestamp (ofChars w) = 0 := by
        by_contra ht
        have h4 := (int_le_of_timestamp ht).1
        obtain ⟨-, c, rs, -, hskip⟩ := timestamp_starts ht
        have hl := skipDigits?_length hskip
        rw [Glyph.length_ofChars, List.length_cons] at hl
        omega
      rw [longest?, hnot, hr, if_neg (by simp), if_neg (by simp), if_pos hi, hint]
  · rw [if_neg hr, if_pos (by omega)] at h
    obtain ⟨rfl, hlen⟩ := Prod.mk.inj (Option.some.inj h)
    have hreal : real (ofChars w) = w.length := by omega
    have hnot : timestamp (ofChars w) = 0 := by
      by_contra ht
      exact hr (int_le_of_timestamp ht).2
    rw [longest?, hnot, if_neg (by simp), if_pos hr, hreal]

end Numeral

end FusionKit
