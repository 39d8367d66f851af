import FusionKit.Proofs.Alone

/-!
# The three languages of numerals

Integers, reals and timestamps as languages of words, given by rules that say nothing of how a
numeral is read. Each function on numerals recognises one of them: what it finds at the start of a
text is a word of the language, and a word of the language is found whole. From the parts upwards
this gives the main statement: a text is read as one numeral exactly when it is a word of the
language of that numeral, and no word belongs to two of the languages.
-/
set_option autoImplicit false

namespace FusionKit

namespace Numeral

open Glyph (ofChars Stops)

/-! ## The languages -/

/-- Digits of one class, with single underscores between them. -/
inductive Grouped (p : Char → Bool) : List Char → Prop where
  | last {d : Char} (hd : p d = true) : Grouped p [d]
  | next {d : Char} {w : List Char} (hd : p d = true) (hw : Grouped p w) : Grouped p (d :: w)
  | group {d : Char} {w : List Char} (hd : p d = true) (hw : Grouped p w) :
      Grouped p (d :: '_' :: w)

/-- A lone zero, or decimal digits of which the first is no zero. -/
inductive Whole : List Char → Prop where
  | zero : Whole ['0']
  | digits {w : List Char} (hw : Grouped isDecimal w) (h0 : w.head? ≠ some '0') : Whole w

/-- Digits in base sixteen or two behind the mark of their base. -/
inductive Based : List Char → Prop where
  | hex {x : Char} {w : List Char} (hx : x = 'x' ∨ x = 'X') (hw : Grouped isHex w) :
      Based ('0' :: x :: w)
  | binary {x : Char} {w : List Char} (hx : x = 'b' ∨ x = 'B') (hw : Grouped isBinary w) :
      Based ('0' :: x :: w)

/-- A word of a language, possibly behind a minus sign. -/
inductive Signed (L : List Char → Prop) : List Char → Prop where
  | plain {w : List Char} (hw : L w) : Signed L w
  | minus {w : List Char} (hw : L w) : Signed L ('-' :: w)

/-- Integers. -/
def IsInt (w : List Char) : Prop := Signed (fun v => Whole v ∨ Based v) w

/-- A point, perhaps before digits. -/
inductive Fraction : List Char → Prop where
  | point : Fraction ['.']
  | digits {w : List Char} (hw : Grouped isDecimal w) : Fraction ('.' :: w)

/-- Decimal digits behind a letter and perhaps a sign. -/
inductive Exponent : List Char → Prop where
  | plain {c : Char} {w : List Char} (hc : c ∈ ['e', 'E', 'd', 'D']) (hw : Grouped isDecimal w) :
      Exponent (c :: w)
  | signed {c s : Char} {w : List Char} (hc : c ∈ ['e', 'E', 'd', 'D']) (hs : s = '+' ∨ s = '-')
      (hw : Grouped isDecimal w) : Exponent (c :: s :: w)

/-- A whole number before a fraction, an exponent or both. -/
inductive Broken : List Char → Prop where
  | intro {w f e : List Char} (hw : Whole w) (hf : f = [] ∨ Fraction f) (he : e = [] ∨ Exponent e)
      (hne : f ++ e ≠ []) : Broken (w ++ f ++ e)

/-- Reals. -/
def IsReal (w : List Char) : Prop := Signed Broken w

/-- Exactly `n` decimal digits. -/
def Digits (n : Nat) (w : List Char) : Prop := w.length = n ∧ ∀ d ∈ w, isDecimal d = true

/-- Two digits, a colon and two digits. -/
inductive Clock : List Char → Prop where
  | intro {h m : List Char} (hh : Digits 2 h) (hm : Digits 2 m) : Clock (h ++ ':' :: m)

/-- Nothing, or seconds behind a colon, perhaps with a fraction that has digits. -/
inductive Seconds : List Char → Prop where
  | none : Seconds []
  | whole {s : List Char} (hs : Digits 2 s) : Seconds (':' :: s)
  | fraction {n : Nat} {s f : List Char} (hs : Digits 2 s) (hf : Digits (n + 1) f) :
      Seconds (':' :: (s ++ '.' :: f))

/-- The letter Z, or a signed number of hours and minutes. -/
inductive Zone : List Char → Prop where
  | utc : Zone ['Z']
  | offset {s : Char} {w : List Char} (hs : s = '+' ∨ s = '-') (hw : Clock w) : Zone (s :: w)

/-- The time of a day, in a zone. -/
inductive DayTime : List Char → Prop where
  | intro {c s z : List Char} (hc : Clock c) (hs : Seconds s) (hz : Zone z) : DayTime (c ++ s ++ z)

/-- Timestamps. -/
inductive IsTimestamp : List Char → Prop where
  | year {y : List Char} (hy : Digits 4 y) : IsTimestamp (y ++ ['T'])
  | month {y m : List Char} (hy : Digits 4 y) (hm : Digits 2 m) :
      IsTimestamp (y ++ '-' :: (m ++ ['T']))
  | date {y m d : List Char} (hy : Digits 4 y) (hm : Digits 2 m) (hd : Digits 2 d) :
      IsTimestamp (y ++ '-' :: (m ++ '-' :: d))
  | day {y m d : List Char} (hy : Digits 4 y) (hm : Digits 2 m) (hd : Digits 2 d) :
      IsTimestamp (y ++ '-' :: (m ++ '-' :: (d ++ ['T'])))
  | time {y m d t : List Char} (hy : Digits 4 y) (hm : Digits 2 m) (hd : Digits 2 d)
      (ht : DayTime t) : IsTimestamp (y ++ '-' :: (m ++ '-' :: (d ++ 'T' :: t)))

/-! ## What it is to recognise a language -/

/-- What `f` finds at the start of its input is a word of `L`, and it finds every word of `L` whole
that is followed by no character satisfying `more`. -/
structure Recognises (f : List Glyph → Nat) (L : List Char → Prop) (more : Char → Bool) : Prop where
  sound : ∀ gs, f gs ≠ 0 → ∃ w rest, gs = ofChars w ++ rest ∧ w.length = f gs ∧ L w
  complete : ∀ w rest, L w → Stops more rest → f (ofChars w ++ rest) = w.length
  nonempty : ¬ L []

namespace Recognises

variable {f : List Glyph → Nat} {L : List Char → Prop} {more : Char → Bool}

/-- Nothing at all, or a word of the language. -/
theorem split (h : Recognises f L more) (gs : List Glyph) :
    ∃ w rest, gs = ofChars w ++ rest ∧ w.length = f gs ∧ (w = [] ∨ L w) := by
  by_cases h0 : f gs = 0
  · exact ⟨[], gs, rfl, h0.symm, .inl rfl⟩
  · obtain ⟨w, rest, hgs, hlen, hw⟩ := h.sound gs h0
    exact ⟨w, rest, hgs, hlen, .inr hw⟩

theorem pos (h : Recognises f L more) {w : List Char} (hw : L w) : w.length ≠ 0 := by
  rw [Ne, List.length_eq_zero_iff]
  rintro rfl
  exact h.nonempty hw

/-- More may be asked to stop before what comes after a word. -/
theorem weaken (h : Recognises f L more) {more' : Char → Bool}
    (hm : ∀ c, more c = true → more' c = true) : Recognises f L more' where
  sound := h.sound
  complete w rest hw hstop := by
    refine h.complete w rest hw fun c hc => ?_
    by_contra hmore
    exact absurd (hm c (by simpa using hmore)) (by simp [hstop c hc])
  nonempty := h.nonempty

/-- Alone, a word is found whole exactly when it belongs to the language. -/
theorem whole_iff (h : Recognises f L more) {w : List Char} :
    f (ofChars w) = w.length ∧ f (ofChars w) ≠ 0 ↔ L w := by
  constructor
  · rintro ⟨hlen, h0⟩
    obtain ⟨v, rest, hgs, hv, hL⟩ := h.sound _ h0
    have hrest : rest = [] := by
      have := congrArg List.length hgs
      rw [List.length_append, Glyph.length_ofChars, Glyph.length_ofChars] at this
      exact List.length_eq_zero_iff.mp (by omega)
    rw [hrest, List.append_nil] at hgs
    rwa [Glyph.ofChars_injective hgs]
  · intro hw
    have hlen := h.complete w [] hw (Glyph.stops_nil _)
    rw [List.append_nil] at hlen
    exact ⟨hlen, hlen ▸ h.pos hw⟩

end Recognises

/-! ## Digits -/

theorem Grouped.exists_cons {p : Char → Bool} {w : List Char} (h : Grouped p w) :
    ∃ d ds, w = d :: ds ∧ p d = true := by
  cases h with
  | last hd => exact ⟨_, [], rfl, hd⟩
  | next hd hw => exact ⟨_, _, rfl, hd⟩
  | group hd hw => exact ⟨_, _, rfl, hd⟩

/-- What goes on with a run of digits. -/
def goesOn (p : Char → Bool) (c : Char) : Bool := p c || c == '_'

theorem isPart_of_goesOn {p : Char → Bool} (hp : ∀ c, p c = true → isPart c = true) (c : Char)
    (h : goesOn p c = true) : isPart c = true := by
  simp only [goesOn, Bool.or_eq_true, beq_iff_eq] at h
  rcases h with h | rfl
  · exact hp c h
  · decide

theorem moreDigits_sound {p : Char → Bool} (gs : List Glyph) {d : Char} (hd : p d = true) :
    ∃ w rest, gs = ofChars w ++ rest ∧ w.length = moreDigits p gs ∧ Grouped p (d :: w) := by
  fun_induction moreDigits p gs generalizing d with
  | case1 c gs hc ih =>
    obtain ⟨w, rest, hgs, hlen, hw⟩ := ih hc
    exact ⟨c :: w, rest, by simp [hgs], by simp [hlen], .next hd hw⟩
  | case2 c hc hu e gs he ih =>
    obtain ⟨w, rest, hgs, hlen, hw⟩ := ih he
    obtain rfl : c = '_' := by simpa using hu
    exact ⟨'_' :: e :: w, rest, by simp [hgs], by simp [hlen], .group hd hw⟩
  | _ => exact ⟨[], _, rfl, rfl, .last hd⟩

theorem moreDigits_of_digit {p : Char → Bool} {c : Char} (hc : p c = true) (gs : List Glyph) :
    moreDigits p (.char c :: gs) = digits p (.char c :: gs) := by
  rw [moreDigits.eq_def]
  simp [digits, hc]

theorem recognises_digits {p : Char → Bool} (hu : p '_' = false) :
    Recognises (digits p) (Grouped p) (goesOn p) where
  sound := by
    intro gs h0
    unfold digits at h0 ⊢
    split at h0
    · rename_i c gs
      split_ifs at h0 ⊢ with hc
      · obtain ⟨w, rest, hgs, hlen, hw⟩ := moreDigits_sound gs hc
        exact ⟨c :: w, rest, by simp [hgs], by simp [hlen], hw⟩
      · contradiction
    · contradiction
  complete := by
    intro w rest hw hstop
    have hrest : moreDigits p rest = 0 := by
      match rest, hstop with
      | [], _ => rfl
      | .stray b :: gs, _ => rfl
      | .char c :: gs, hstop =>
        have hc := Glyph.stops_cons.mp hstop
        simp only [goesOn, Bool.or_eq_false_iff] at hc
        rw [moreDigits.eq_def]
        simp [hc]
    induction hw with
    | last hd => simp [digits, hd, hrest]
    | next hd hw ih =>
      obtain ⟨e, es, rfl, he⟩ := hw.exists_cons
      rw [Glyph.ofChars_cons, List.cons_append, digits, if_pos hd, Glyph.ofChars_cons,
        List.cons_append, moreDigits_of_digit he]
      exact congrArg (· + 1) ih
    | group hd hw ih =>
      obtain ⟨e, es, rfl, he⟩ := hw.exists_cons
      have hmore : moreDigits p (.char '_' :: .char e :: (ofChars es ++ rest)) =
          digits p (.char e :: (ofChars es ++ rest)) + 1 := by
        rw [moreDigits.eq_def]
        simp [hu, he, digits]
      simp only [Glyph.ofChars_cons, List.cons_append] at ih ⊢
      rw [digits, if_pos hd, hmore, ih]
      rfl
  nonempty h := by
    obtain ⟨d, ds, hnil, -⟩ := h.exists_cons
    cases hnil

theorem recognises_decimal : Recognises decimal Whole (goesOn isDecimal) where
  sound := by
    intro gs h0
    unfold decimal at h0 ⊢
    split at h0
    · exact ⟨['0'], _, rfl, rfl, .zero⟩
    · rename_i hne
      obtain ⟨w, rest, rfl, hlen, hw⟩ := (recognises_digits rfl).sound gs h0
      refine ⟨w, rest, rfl, hlen, .digits hw ?_⟩
      obtain ⟨d, ds, rfl, -⟩ := hw.exists_cons
      simpa using hne
  complete := by
    intro w rest hw hstop
    cases hw with
    | zero => rfl
    | digits hw h0 =>
      have hdigits := (recognises_digits rfl).complete w rest hw hstop
      obtain ⟨d, ds, rfl, -⟩ := hw.exists_cons
      rw [← hdigits]
      exact decimal.eq_2 _ (by simpa using h0)
  nonempty h := by
    cases h with
    | digits hw => exact (recognises_digits rfl).nonempty hw

/-! ## Integers -/

theorem recognises_based : Recognises based Based isPart where
  sound := by
    intro gs h0
    unfold based at h0 ⊢
    split at h0
    · rename_i x gs
      dsimp only at h0 ⊢
      by_cases hx : (x == 'x' || x == 'X') = true
      · simp only [hx, ↓reduceIte] at h0 ⊢
        split_ifs at h0 ⊢ with hrun
        · contradiction
        · obtain ⟨w, rest, rfl, hlen, hw⟩ := (recognises_digits (p := isHex) rfl).sound gs hrun
          exact ⟨'0' :: x :: w, rest, rfl, by simp [hlen], .hex (by simpa using hx) hw⟩
      · by_cases hb : (x == 'b' || x == 'B') = true
        · simp only [hx, hb, ↓reduceIte, Bool.false_eq_true] at h0 ⊢
          split_ifs at h0 ⊢ with hrun
          · contradiction
          · obtain ⟨w, rest, rfl, hlen, hw⟩ := (recognises_digits (p := isBinary) rfl).sound gs hrun
            exact ⟨'0' :: x :: w, rest, rfl, by simp [hlen], .binary (by simpa using hb) hw⟩
        · simp [hx, hb] at h0
    · contradiction
  complete := by
    intro w rest hw hstop
    cases hw with
    | hex hx hw =>
      have hdigits := (recognises_digits rfl).weaken (isPart_of_goesOn fun _ => isPart_of_isHex)
      have hrun := hdigits.complete _ rest hw hstop
      have hpos := hdigits.pos hw
      rcases hx with rfl | rfl <;> simp [based, hrun, hpos]
    | binary hx hw =>
      have hdigits := (recognises_digits rfl).weaken (isPart_of_goesOn fun _ => isPart_of_isBinary)
      have hrun := hdigits.complete _ rest hw hstop
      have hpos := hdigits.pos hw
      rcases hx with rfl | rfl <;> simp [based, hrun, hpos]
  nonempty h := by cases h

theorem Whole.starts {w : List Char} (h : Whole w) : ∃ d ds, w = d :: ds ∧ isDecimal d = true := by
  cases h with
  | zero => exact ⟨'0', [], rfl, by decide⟩
  | digits hw => exact hw.exists_cons

theorem Based.starts {w : List Char} (h : Based w) : ∃ d ds, w = d :: ds ∧ isDecimal d = true := by
  cases h with
  | hex => exact ⟨'0', _, rfl, by decide⟩
  | binary => exact ⟨'0', _, rfl, by decide⟩

/-- No base is marked where a whole number ends. -/
theorem based_of_whole {w : List Char} {rest : List Glyph} (h : Whole w) (hstop : Stops isPart rest) :
    based (ofChars w ++ rest) = 0 := by
  rw [based_append hstop]
  cases h with
  | zero => rfl
  | digits hw h0 =>
    obtain ⟨d, ds, rfl, -⟩ := hw.exists_cons
    have hd : d ≠ '0' := by simpa using h0
    exact based.eq_2 _ (by simp [hd])

theorem sign_cases (gs : List Glyph) : sign gs = 0 ∨ ∃ hs, gs = .char '-' :: hs := by
  unfold sign
  split
  · exact .inr ⟨_, rfl⟩
  · exact .inl rfl

/-- A recogniser of words that start with a digit, behind an optional minus sign. -/
theorem Recognises.signed {f : List Glyph → Nat} {L : List Char → Prop} {more : Char → Bool}
    (h : Recognises f L more)
    (hL : ∀ w, L w → ∃ d ds, w = d :: ds ∧ isDecimal d = true) :
    Recognises (fun gs => if f (gs.drop (sign gs)) = 0 then 0 else sign gs + f (gs.drop (sign gs)))
      (Signed L) more where
  sound := by
    intro gs h0
    split_ifs at h0 ⊢ with hf
    · contradiction
    · obtain ⟨w, rest, hgs, hlen, hw⟩ := h.sound _ hf
      rcases sign_cases gs with h1 | ⟨hs, rfl⟩
      · rw [h1, List.drop_zero] at hgs hlen ⊢
        exact ⟨w, rest, hgs, by omega, .plain hw⟩
      · have hsign : sign (.char '-' :: hs) = 1 := rfl
        rw [hsign, List.drop_one, List.tail_cons] at hgs hlen ⊢
        exact ⟨'-' :: w, rest, by simp [hgs], by simp [hlen, Nat.add_comm], .minus hw⟩
  complete := by
    intro w rest hw hstop
    cases hw with
    | plain hw =>
      obtain ⟨d, ds, rfl, hd⟩ := hL w hw
      have hsign : sign (ofChars (d :: ds) ++ rest) = 0 := sign_of_isDecimal hd
      rw [hsign, List.drop_zero, h.complete _ rest hw hstop, if_neg (h.pos hw), Nat.zero_add]
    | @minus w hw =>
      have hsign : sign (ofChars ('-' :: w) ++ rest) = 1 := rfl
      have hdrop : (ofChars ('-' :: w) ++ rest).drop 1 = ofChars w ++ rest := rfl
      rw [hsign, hdrop, h.complete _ rest hw hstop, if_neg (h.pos hw), List.length_cons, Nat.add_comm]
  nonempty hnil := by
    cases hnil with
    | plain hw => exact h.nonempty hw

theorem recognises_int : Recognises int IsInt isPart := by
  refine Recognises.signed (f := fun gs => if based gs = 0 then decimal gs else based gs)
    (L := fun w => Whole w ∨ Based w) ⟨?_, ?_, ?_⟩ ?_
  · intro gs h0
    split_ifs at h0 ⊢ with hb
    · obtain ⟨w, rest, hgs, hlen, hw⟩ := recognises_decimal.sound gs h0
      exact ⟨w, rest, hgs, hlen, .inl hw⟩
    · obtain ⟨w, rest, hgs, hlen, hw⟩ := recognises_based.sound gs h0
      exact ⟨w, rest, hgs, hlen, .inr hw⟩
  · intro w rest hw hstop
    rcases hw with hw | hw
    · rw [if_pos (based_of_whole hw hstop)]
      exact (recognises_decimal.weaken (isPart_of_goesOn fun _ => isPart_of_isDecimal)).complete w rest
        hw hstop
    · have hlen := recognises_based.complete w rest hw hstop
      rw [if_neg (hlen ▸ recognises_based.pos hw), hlen]
  · rintro (h | h)
    · exact recognises_decimal.nonempty h
    · exact recognises_based.nonempty h
  · rintro w (h | h)
    · exact h.starts
    · exact h.starts

/-! ## Reals -/

theorem isExponent_iff {c : Char} : isExponent c = true ↔ c ∈ ['e', 'E', 'd', 'D'] := by
  simp [isExponent, or_assoc]

theorem goesOn_eq_false_of_exponent {c : Char} (h : c ∈ ['e', 'E', 'd', 'D']) :
    goesOn isDecimal c = false := by
  simp only [List.mem_cons, List.not_mem_nil, or_false] at h
  rcases h with rfl | rfl | rfl | rfl <;> decide

theorem digits_of_goesOn {p : Char → Bool} {gs : List Glyph} (h : Stops (goesOn p) gs) :
    digits p gs = 0 := by
  match gs, h with
  | [], _ => rfl
  | .stray b :: gs, _ => rfl
  | .char c :: gs, h =>
    have hc := Glyph.stops_cons.mp h
    simp only [goesOn, Bool.or_eq_false_iff] at hc
    simp [digits, hc.1]

theorem recognises_fraction : Recognises fraction Fraction (goesOn isDecimal) where
  sound := by
    intro gs h0
    unfold fraction at h0 ⊢
    split at h0
    · rename_i gs
      obtain ⟨w, rest, rfl, hlen, rfl | hw⟩ := (recognises_digits (p := isDecimal) rfl).split gs
      · exact ⟨['.'], rest, rfl, congrArg (· + 1) hlen, .point⟩
      · exact ⟨'.' :: w, rest, rfl, by simp [hlen], .digits hw⟩
    · contradiction
  complete := by
    intro w rest hw hstop
    cases hw with
    | point => simp [fraction, digits_of_goesOn hstop]
    | digits hw => simp [fraction, (recognises_digits rfl).complete _ rest hw hstop]
  nonempty h := by cases h

theorem exponentDigits_sound {gs : List Glyph} (h0 : exponentDigits gs ≠ 0) {c : Char}
    (hc : c ∈ ['e', 'E', 'd', 'D']) : ∃ w rest, gs = ofChars w ++ rest ∧
      w.length = exponentDigits gs ∧ Exponent (c :: w) := by
  unfold exponentDigits at h0 ⊢
  split at h0
  · rename_i s gs
    dsimp only at h0 ⊢
    by_cases hs : (s == '+' || s == '-') = true
    · rw [if_pos hs] at h0 ⊢
      split_ifs at h0 ⊢ with hrun
      · contradiction
      · obtain ⟨w, rest, rfl, hlen, hw⟩ := (recognises_digits (p := isDecimal) rfl).sound gs hrun
        exact ⟨s :: w, rest, rfl, by simp [hlen], .signed hc (by simpa using hs) hw⟩
    · rw [if_neg hs] at h0 ⊢
      obtain ⟨w, rest, hgs, hlen, hw⟩ := (recognises_digits (p := isDecimal) rfl).sound _ h0
      exact ⟨w, rest, hgs, hlen, .plain hc hw⟩
  · contradiction

theorem recognises_exponent : Recognises exponent Exponent (goesOn isDecimal) where
  sound := by
    intro gs h0
    unfold exponent at h0 ⊢
    split at h0
    · rename_i c gs
      dsimp only at h0 ⊢
      split_ifs at h0 ⊢ with hc hrun
      · contradiction
      · obtain ⟨w, rest, rfl, hlen, hw⟩ := exponentDigits_sound hrun (isExponent_iff.mp hc)
        exact ⟨c :: w, rest, rfl, by simp [hlen], hw⟩
      · contradiction
    · contradiction
  complete := by
    intro w rest hw hstop
    have hdigits := recognises_digits (p := isDecimal) rfl
    cases hw with
    | plain hc hw =>
      have hrun := hdigits.complete _ rest hw hstop
      have hpos := hdigits.pos hw
      obtain ⟨d, ds, rfl, hd⟩ := hw.exists_cons
      have hsign : d ≠ '+' ∧ d ≠ '-' := by
        constructor <;> rintro rfl <;> exact absurd hd (by decide)
      have hexp : exponentDigits (ofChars (d :: ds) ++ rest) = (d :: ds).length := by
        rw [← hrun]
        simp [exponentDigits, hsign]
      simp only [Glyph.ofChars_cons, List.cons_append] at hexp ⊢
      simp [exponent, isExponent_iff.mpr hc, hexp]
    | signed hc hs hw =>
      have hrun := hdigits.complete _ rest hw hstop
      have hpos := hdigits.pos hw
      rcases hs with rfl | rfl <;> simp [exponent, isExponent_iff.mpr hc, exponentDigits, hrun, hpos]
  nonempty h := by cases h

/-- How many glyphs at the start are a real without a sign. -/
def unsignedReal (gs : List Glyph) : Nat :=
  let whole := decimal gs
  if whole = 0 then 0
  else
    let f := fraction (gs.drop whole)
    let e := exponent (gs.drop (whole + f))
    if f + e = 0 then 0 else whole + f + e

theorem real_eq (gs : List Glyph) :
    real gs = if unsignedReal (gs.drop (sign gs)) = 0 then 0
      else sign gs + unsignedReal (gs.drop (sign gs)) := by
  simp only [real, unsignedReal]
  split_ifs <;> omega

theorem drop_ofChars_append (w : List Char) (rest : List Glyph) :
    (ofChars w ++ rest).drop w.length = rest := List.drop_left' (Glyph.length_ofChars w)

/-- An exponent is no fraction, and neither goes on with the digits before it. -/
theorem stops_of_parts {f e : List Char} {rest : List Glyph} (hf : f = [] ∨ Fraction f)
    (he : e = [] ∨ Exponent e) (hstop : Stops isPart rest) :
    Stops (goesOn isDecimal) (ofChars e ++ rest) ∧
      Stops (goesOn isDecimal) (ofChars f ++ (ofChars e ++ rest)) ∧
        fraction (ofChars e ++ rest) = 0 ∧ (e = [] → exponent (ofChars e ++ rest) = 0) := by
  have hrest : Stops (goesOn isDecimal) rest := by
    intro c hc
    exact eq_false_of_isPart (isPart_of_goesOn fun _ => isPart_of_isDecimal) (hstop c hc)
  have hend : Stops (goesOn isDecimal) (ofChars e ++ rest) := by
    rcases he with rfl | he
    · exact hrest
    · cases he with
      | plain hc => exact Glyph.stops_cons.mpr (goesOn_eq_false_of_exponent hc)
      | signed hc => exact Glyph.stops_cons.mpr (goesOn_eq_false_of_exponent hc)
  refine ⟨hend, ?_, ?_, ?_⟩
  · rcases hf with rfl | hf
    · exact hend
    · cases hf with
      | point => exact Glyph.stops_cons.mpr (by decide)
      | digits => exact Glyph.stops_cons.mpr (by decide)
  · rw [fraction_append hstop]
    rcases he with rfl | he
    · rfl
    · have hpoint : ∀ c ∈ ['e', 'E', 'd', 'D'], c ≠ '.' := by simp
      cases he with
      | plain hc => exact fraction.eq_2 _ (by simp [hpoint _ hc])
      | signed hc => exact fraction.eq_2 _ (by simp [hpoint _ hc])
  · rintro rfl
    exact exponent_append hstop []

theorem recognises_unsignedReal : Recognises unsignedReal Broken isPart where
  sound := by
    intro gs h0
    simp only [unsignedReal] at h0 ⊢
    split_ifs at h0 ⊢ with hw hfe
    · contradiction
    · contradiction
    · obtain ⟨w, rest, rfl, hlen, hwhole⟩ := recognises_decimal.sound gs hw
      rw [← hlen, ← List.drop_drop, drop_ofChars_append] at hfe ⊢
      obtain ⟨f, rest, rfl, hflen, hf⟩ := recognises_fraction.split rest
      rw [← hflen, drop_ofChars_append] at hfe ⊢
      obtain ⟨e, rest, rfl, helen, he⟩ := recognises_exponent.split rest
      rw [← helen] at hfe ⊢
      refine ⟨w ++ f ++ e, rest, by simp, by simp [Nat.add_assoc], .intro hwhole hf he ?_⟩
      intro hnil
      obtain ⟨rfl, rfl⟩ := List.append_eq_nil_iff.mp hnil
      exact hfe rfl
  complete := by
    rintro _ rest ⟨hw, hf, he, hne⟩ hstop
    rename_i w f e
    obtain ⟨hend, hmid, hnone, hlast⟩ := stops_of_parts hf he hstop
    have hgs : ofChars (w ++ f ++ e) ++ rest = ofChars w ++ (ofChars f ++ (ofChars e ++ rest)) := by
      simp
    have hwhole := recognises_decimal.complete w _ hw hmid
    have hfraction : fraction (ofChars f ++ (ofChars e ++ rest)) = f.length := by
      rcases hf with rfl | hf
      · exact hnone
      · exact recognises_fraction.complete f _ hf hend
    have hexponent : exponent (ofChars e ++ rest) = e.length := by
      rcases he with rfl | he
      · exact hlast rfl
      · exact recognises_exponent.complete e rest he fun c hc =>
          eq_false_of_isPart (isPart_of_goesOn fun _ => isPart_of_isDecimal) (hstop c hc)
    have hpos : f.length + e.length ≠ 0 := by
      rw [← List.length_append]
      exact fun h => hne (List.length_eq_zero_iff.mp h)
    rw [hgs]
    simp only [unsignedReal]
    rw [hwhole, if_neg (recognises_decimal.pos hw), ← List.drop_drop, drop_ofChars_append, hfraction,
      drop_ofChars_append, hexponent, if_neg hpos, List.length_append, List.length_append]
  nonempty := by
    intro h
    generalize hv : ([] : List Char) = v at h
    obtain ⟨hw, -, -, -⟩ := h
    obtain ⟨d, ds, rfl, -⟩ := hw.starts
    cases hv

theorem recognises_real : Recognises real IsReal isPart := by
  rw [show real = _ from funext real_eq]
  refine recognises_unsignedReal.signed ?_
  rintro _ ⟨hw, -, -, -⟩
  obtain ⟨d, ds, rfl, hd⟩ := hw.starts
  exact ⟨d, _, rfl, hd⟩

/-! ## Timestamps -/

theorem skipDigits?_of_digits {n : Nat} {w : List Char} (h : Digits n w) (rest : List Glyph) :
    skipDigits? n (ofChars w ++ rest) = some rest := by
  induction n generalizing w with
  | zero =>
    rw [List.length_eq_zero_iff.mp h.1]
    rfl
  | succ n ih =>
    obtain ⟨hlen, hw⟩ := h
    obtain ⟨d, w, rfl⟩ := List.exists_cons_of_length_eq_add_one hlen
    simp only [Glyph.ofChars_cons, List.cons_append, skipDigits?, hw d (by simp), ↓reduceIte]
    exact ih ⟨by simpa using hlen, fun e he => hw e (by simp [he])⟩

theorem skipDigits?_eq_some {n : Nat} {gs rest : List Glyph} :
    skipDigits? n gs = some rest ↔ ∃ w, Digits n w ∧ gs = ofChars w ++ rest := by
  constructor
  · intro h
    obtain ⟨w, hgs, hlen, hw⟩ := skipDigits?_split h
    exact ⟨w, ⟨hlen, hw⟩, hgs⟩
  · rintro ⟨w, hw, rfl⟩
    exact skipDigits?_of_digits hw rest

theorem skipChar?_eq_some {c : Char} {gs rest : List Glyph} :
    skipChar? c gs = some rest ↔ gs = .char c :: rest := by
  constructor
  · intro h
    match gs, h with
    | .char d :: gs, h =>
      simp only [skipChar?] at h
      split_ifs at h with hd
      obtain rfl : c = d := by simpa using hd
      cases h
      rfl
  · rintro rfl
    simp [skipChar?]

theorem skipChar?_self (c : Char) (gs : List Glyph) : skipChar? c (.char c :: gs) = some gs :=
  skipChar?_eq_some.mpr rfl

theorem skipChar?_of_stops {c : Char} {gs : List Glyph} {more : Char → Bool} (hstop : Stops more gs)
    (hc : more c = true) : skipChar? c gs = none := by
  cases h : skipChar? c gs with
  | none => rfl
  | some rest =>
    rw [skipChar?_eq_some.mp h] at hstop
    exact absurd hc (by simp [Glyph.stops_cons.mp hstop])

theorem skipClock?_eq_some {gs rest : List Glyph} :
    skipClock? gs = some rest ↔ ∃ w, Clock w ∧ gs = ofChars w ++ rest := by
  simp only [skipClock?, Option.bind_eq_some_iff, skipDigits?_eq_some, skipChar?_eq_some]
  constructor
  · rintro ⟨_, ⟨h, hh, rfl⟩, _, rfl, m, hm, rfl⟩
    exact ⟨h ++ ':' :: m, .intro hh hm, by simp⟩
  · rintro ⟨_, ⟨hh, hm⟩, rfl⟩
    exact ⟨_, ⟨_, hh, by simp⟩, _, rfl, _, hm, rfl⟩

theorem Clock.length {w : List Char} (h : Clock w) : w.length = 5 := by
  obtain ⟨⟨hh, -⟩, ⟨hm, -⟩⟩ := h
  simp [hh, hm]

/-- What goes on with the seconds of a time. -/
def inSeconds (c : Char) : Bool := isDecimal c || c == ':' || c == '.'

theorem seconds?_sound {gs : List Glyph} {n : Nat} (h : seconds? gs = some n) :
    ∃ w rest, gs = ofChars w ++ rest ∧ w.length = n ∧ Seconds w := by
  unfold seconds? at h
  cases hcolon : skipChar? ':' gs with
  | none =>
    rw [hcolon] at h
    cases h
    exact ⟨[], gs, rfl, rfl, .none⟩
  | some gs' =>
    obtain rfl := skipChar?_eq_some.mp hcolon
    rw [hcolon] at h
    dsimp only at h
    cases hdigits : skipDigits? 2 gs' with
    | none =>
      rw [hdigits] at h
      cases h
    | some rest =>
      obtain ⟨s, hs, rfl⟩ := skipDigits?_eq_some.mp hdigits
      rw [hdigits] at h
      dsimp only at h
      cases hpoint : skipChar? '.' rest with
      | none =>
        rw [hpoint] at h
        cases h
        exact ⟨':' :: s, rest, rfl, by simp [hs.1], .whole hs⟩
      | some gs' =>
        obtain rfl := skipChar?_eq_some.mp hpoint
        rw [hpoint] at h
        dsimp only at h
        split_ifs at h with h0
        cases h
        obtain ⟨f, rest, rfl, hlen, hf, -⟩ := Lexeme.run_split isDecimal gs'
        have hlen : f.length = plainDigits (ofChars f ++ rest) := hlen
        obtain ⟨k, hk⟩ := Nat.exists_eq_succ_of_ne_zero h0
        refine ⟨':' :: (s ++ '.' :: f), rest, by simp, ?_, .fraction (n := k) hs ⟨by omega, hf⟩⟩
        simp only [List.length_cons, List.length_append, hs.1]
        omega

theorem seconds?_complete {w : List Char} {rest : List Glyph} (h : Seconds w)
    (hstop : Stops inSeconds rest) : seconds? (ofChars w ++ rest) = some w.length := by
  cases h with
  | none => simp [seconds?, skipChar?_of_stops hstop (c := ':') (by decide)]
  | whole hs =>
    simp only [seconds?, Glyph.ofChars_cons, List.cons_append, skipChar?_self,
      skipDigits?_of_digits hs, skipChar?_of_stops hstop (c := '.') (by decide), List.length_cons, hs.1]
  | @fraction n s f hs hf =>
    have hdecimal : Stops isDecimal rest := by
      intro c hc
      have := hstop c hc
      simp only [inSeconds, Bool.or_eq_false_iff] at this
      exact this.1.1
    have hrun : plainDigits (ofChars f ++ rest) = f.length := Lexeme.run_exact hf.2 hdecimal
    simp only [seconds?, Glyph.ofChars_cons, Glyph.ofChars_append, List.cons_append, List.append_assoc,
      skipChar?_self, skipDigits?_of_digits hs, hrun, List.length_cons, List.length_append, hs.1, hf.1]
    rw [if_neg (by omega)]
    congr 1
    omega

theorem recognises_zone : Recognises zone Zone (fun _ => false) where
  sound := by
    intro gs h0
    unfold zone at h0 ⊢
    split at h0
    · rename_i c gs
      split_ifs at h0 ⊢ with hutc hoff
      · obtain rfl : c = 'Z' := by simpa using hutc
        exact ⟨['Z'], gs, rfl, rfl, .utc⟩
      · simp only [Bool.and_eq_true, Bool.or_eq_true, beq_iff_eq] at hoff
        obtain ⟨rest, hrest⟩ := Option.isSome_iff_exists.mp hoff.2
        obtain ⟨w, hw, rfl⟩ := skipClock?_eq_some.mp hrest
        exact ⟨c :: w, rest, rfl, by simp [hw.length], .offset hoff.1 hw⟩
      · contradiction
    · contradiction
  complete := by
    intro w rest hw _
    cases hw with
    | utc => rfl
    | @offset s w hs hw =>
      have hclock : skipClock? (ofChars w ++ rest) = some rest := skipClock?_eq_some.mpr ⟨w, hw, rfl⟩
      rcases hs with rfl | rfl <;> simp [zone, hclock, hw.length]
  nonempty h := by cases h

theorem Zone.stops {w : List Char} (h : Zone w) (rest : List Glyph) :
    Stops inSeconds (ofChars w ++ rest) := by
  cases h with
  | utc => exact Glyph.stops_cons.mpr (by decide)
  | offset hs => rcases hs with rfl | rfl <;> exact Glyph.stops_cons.mpr (by decide)

/-- After a date and the letter T, eleven glyphs in all, there is a time or nothing that counts. -/
theorem timeOfDay_sound {gs : List Glyph} (h0 : timeOfDay gs ≠ 0) :
    timeOfDay gs = 11 ∨
      ∃ w rest, gs = ofChars w ++ rest ∧ timeOfDay gs = 11 + w.length ∧ DayTime w := by
  unfold timeOfDay at h0 ⊢
  cases hclock : skipClock? gs with
  | none => exact .inl rfl
  | some rest =>
    obtain ⟨c, hc, rfl⟩ := skipClock?_eq_some.mp hclock
    rw [hclock] at h0
    dsimp only at h0 ⊢
    cases hseconds : seconds? rest with
    | none =>
      rw [hseconds] at h0
      contradiction
    | some n =>
      obtain ⟨s, rest, rfl, rfl, hs⟩ := seconds?_sound hseconds
      rw [hseconds] at h0
      dsimp only at h0 ⊢
      rw [drop_ofChars_append] at h0 ⊢
      split_ifs at h0 ⊢ with hzone
      · contradiction
      · obtain ⟨z, rest, rfl, hlen, hz⟩ := recognises_zone.sound rest hzone
        refine .inr ⟨c ++ s ++ z, rest, by simp, ?_, .intro hc hs hz⟩
        rw [List.length_append, List.length_append, hc.length]
        omega

theorem timeOfDay_complete {w : List Char} (h : DayTime w) (rest : List Glyph) :
    timeOfDay (ofChars w ++ rest) = 11 + w.length := by
  obtain ⟨hc, hs, hz⟩ := h
  rename_i c s z
  have hgs : ofChars (c ++ s ++ z) ++ rest = ofChars c ++ (ofChars s ++ (ofChars z ++ rest)) := by simp
  have hclock : skipClock? (ofChars c ++ (ofChars s ++ (ofChars z ++ rest))) =
      some (ofChars s ++ (ofChars z ++ rest)) := skipClock?_eq_some.mpr ⟨c, hc, rfl⟩
  have hzone := recognises_zone.complete z rest hz (by simp [Stops])
  rw [hgs]
  simp only [timeOfDay, hclock, seconds?_complete hs (hz.stops rest), drop_ofChars_append, hzone]
  rw [if_neg (recognises_zone.pos hz), List.length_append, List.length_append, hc.length]
  omega

theorem timestamp_sound {gs : List Glyph} {n : Nat} (hn : timestamp gs = n) (h0 : n ≠ 0) :
    ∃ w rest, gs = ofChars w ++ rest ∧ w.length = n ∧ IsTimestamp w := by
  unfold timestamp at hn
  split at hn
  · rename_i rest hyear
    obtain ⟨y, hy, rfl⟩ := skipDigits?_eq_some.mp hyear
    exact ⟨y ++ ['T'], rest, by simp, by simp [hy.1, hn], .year hy⟩
  · rename_i gs' hyear
    obtain ⟨y, hy, rfl⟩ := skipDigits?_eq_some.mp hyear
    split at hn
    · rename_i rest hmonth
      obtain ⟨m, hm, rfl⟩ := skipDigits?_eq_some.mp hmonth
      exact ⟨y ++ '-' :: (m ++ ['T']), rest, by simp, by simp [hy.1, hm.1, hn], .month hy hm⟩
    · rename_i gs' hmonth
      obtain ⟨m, hm, rfl⟩ := skipDigits?_eq_some.mp hmonth
      split at hn
      · rename_i gs' hday
        obtain ⟨d, hd, rfl⟩ := skipDigits?_eq_some.mp hday
        rcases timeOfDay_sound (hn ▸ h0) with ht | ⟨t, rest, rfl, hlen, ht⟩
        · refine ⟨y ++ '-' :: (m ++ '-' :: (d ++ ['T'])), gs', by simp, ?_, .day hy hm hd⟩
          simp [hy.1, hm.1, hd.1, ← hn, ht]
        · refine ⟨y ++ '-' :: (m ++ '-' :: (d ++ 'T' :: t)), rest, by simp, ?_, .time hy hm hd ht⟩
          rw [← hn, hlen]
          simp [hy.1, hm.1, hd.1]
          omega
      · rename_i rest _ hday
        obtain ⟨d, hd, rfl⟩ := skipDigits?_eq_some.mp hday
        exact ⟨y ++ '-' :: (m ++ '-' :: d), rest, by simp, by simp [hy.1, hm.1, hd.1, hn], .date hy hm hd⟩
      · exact absurd hn.symm h0
    · exact absurd hn.symm h0
  · exact absurd hn.symm h0

theorem recognises_timestamp : Recognises timestamp IsTimestamp isPart where
  sound gs h0 := timestamp_sound rfl h0
  complete := by
    intro w rest hw hstop
    rw [timestamp_append hstop]
    cases hw with
    | year hy => simp [timestamp, skipDigits?_of_digits hy, hy.1]
    | month hy hm =>
      simp [timestamp, skipDigits?_of_digits hy, skipDigits?_of_digits hm, hy.1, hm.1]
    | date hy hm hd =>
      have hlast := skipDigits?_of_digits hd []
      rw [List.append_nil] at hlast
      simp [timestamp, skipDigits?_of_digits hy, skipDigits?_of_digits hm, hlast, hy.1, hm.1, hd.1]
    | day hy hm hd =>
      simp [timestamp, skipDigits?_of_digits hy, skipDigits?_of_digits hm, skipDigits?_of_digits hd,
        hy.1, hm.1, hd.1, timeOfDay, skipClock?, skipDigits?]
    | time hy hm hd ht =>
      have hday := timeOfDay_complete ht []
      rw [List.append_nil] at hday
      simp [timestamp, skipDigits?_of_digits hy, skipDigits?_of_digits hm, skipDigits?_of_digits hd,
        hy.1, hm.1, hd.1, hday]
      omega
  nonempty h := by
    generalize hv : ([] : List Char) = v at h
    cases h <;> simp at hv

/-! ## Which of the three -/

theorem timestamp_of_isReal {w : List Char} (h : IsReal w) : timestamp (ofChars w) = 0 := by
  by_contra ht
  exact (recognises_real.whole_iff.mpr h).2 (int_le_of_timestamp ht).2

theorem timestamp_of_isInt {w : List Char} (h : IsInt w) : timestamp (ofChars w) = 0 := by
  by_contra ht
  have hint := (recognises_int.whole_iff.mpr h).1
  have h4 := (int_le_of_timestamp ht).1
  have h5 := (timestamp_starts ht).1
  have hle := timestamp_le (ofChars w)
  rw [Glyph.length_ofChars] at hle
  omega

theorem real_of_isInt {w : List Char} (h : IsInt w) : real (ofChars w) = 0 := by
  obtain ⟨hlen, h0⟩ := recognises_int.whole_iff.mpr h
  have hreal := real_take_int h0
  rwa [hlen, List.take_of_length_le (by simp)] at hreal

theorem longest?_timestamp_iff {w : List Char} :
    longest? (ofChars w) = some (.timestamp, w.length) ↔ IsTimestamp w := by
  rw [← recognises_timestamp.whole_iff, longest?]
  constructor
  · intro h
    split_ifs at h with ht
    · simpa [ht] using h
    all_goals simp at h
  · rintro ⟨hlen, h0⟩
    rw [if_pos h0, hlen]

theorem longest?_real_iff {w : List Char} :
    longest? (ofChars w) = some (.real, w.length) ↔ IsReal w := by
  constructor
  · intro h
    rw [← recognises_real.whole_iff]
    unfold longest? at h
    split_ifs at h with ht hr
    · simp at h
    · simpa [hr] using h
    · simp at h
  · intro h
    obtain ⟨hlen, h0⟩ := recognises_real.whole_iff.mpr h
    rw [longest?, timestamp_of_isReal h, if_neg (by simp), if_pos h0, hlen]

theorem longest?_int_iff {w : List Char} :
    longest? (ofChars w) = some (.int, w.length) ↔ IsInt w := by
  constructor
  · intro h
    rw [← recognises_int.whole_iff]
    unfold longest? at h
    split_ifs at h with ht hr hi
    · simp at h
    · simp at h
    · simpa [hi] using h
  · intro h
    obtain ⟨hlen, h0⟩ := recognises_int.whole_iff.mpr h
    rw [longest?, timestamp_of_isInt h, real_of_isInt h, if_neg (by simp), if_neg (by simp), if_pos h0,
      hlen]

end Numeral

/-- A text is read as one numeral of a kind exactly when its characters are found whole as one. -/
theorem Text.readsAs_numeral (type : TokenType) (ht : type ∈ [.int, .real, .timestamp]) {t : Text} :
    t.ReadsAs [(type, t)] ↔
      ∃ w, t = Text.ofChars w ∧ Numeral.longest? (Glyph.ofChars w) = some (type, w.length) := by
  constructor
  · intro h
    obtain ⟨b, w, hw, hspell⟩ := h.spelling (by rintro rfl; simp at ht)
    cases hspell with
    | numeral _ hlong => exact ⟨w, hw, hlong⟩
    | fixed hfixed =>
      have : ∀ p ∈ Lexeme.fixedSpellings, p.1 ∉ [TokenType.int, .real, .timestamp] := by decide
      exact absurd ht (this _ hfixed)
    | _ => simp at ht
  · rintro ⟨w, rfl, hlong⟩
    refine (Lexeme.Spelling.numeral ht hlong).readsAs ?_
    simp only [List.mem_cons, List.not_mem_nil, or_false] at ht
    rcases ht with rfl | rfl | rfl <;> decide

/-- Numerals are recognised exactly: a text is read as one integer, real or timestamp and the end
just when it is a word of that language, and the three languages have no word in common. -/
theorem Text.readsAs_numeral_iff (t : Text) :
    (t.ReadsAs [(.int, t)] ↔ ∃ w, t = Text.ofChars w ∧ Numeral.IsInt w) ∧
      (t.ReadsAs [(.real, t)] ↔ ∃ w, t = Text.ofChars w ∧ Numeral.IsReal w) ∧
      (t.ReadsAs [(.timestamp, t)] ↔ ∃ w, t = Text.ofChars w ∧ Numeral.IsTimestamp w) ∧
      ∀ w, ¬(Numeral.IsInt w ∧ Numeral.IsReal w) ∧ ¬(Numeral.IsInt w ∧ Numeral.IsTimestamp w) ∧
        ¬(Numeral.IsReal w ∧ Numeral.IsTimestamp w) := by
  refine ⟨?_, ?_, ?_, fun w => ⟨?_, ?_, ?_⟩⟩
  · simp only [Text.readsAs_numeral .int (by decide), Numeral.longest?_int_iff]
  · simp only [Text.readsAs_numeral .real (by decide), Numeral.longest?_real_iff]
  · simp only [Text.readsAs_numeral .timestamp (by decide), Numeral.longest?_timestamp_iff]
  · rintro ⟨hint, hreal⟩
    exact (Numeral.recognises_real.whole_iff.mpr hreal).2 (Numeral.real_of_isInt hint)
  · rintro ⟨hint, htime⟩
    exact (Numeral.recognises_timestamp.whole_iff.mpr htime).2 (Numeral.timestamp_of_isInt hint)
  · rintro ⟨hreal, htime⟩
    exact (Numeral.recognises_timestamp.whole_iff.mpr htime).2 (Numeral.timestamp_of_isReal hreal)

end FusionKit
