import FusionKit.Text.Glyph
import Mathlib.Data.Option.Basic

/-!
# Glyphs are the text

Reading a text as glyphs loses nothing: the bytes of its glyphs are the text again, also where it
is not valid UTF-8. In the other direction a character that is written is read back as itself,
whatever follows it.
-/
namespace FusionKit

namespace Glyph

/-- Characters as glyphs. -/
def ofChars (cs : List Char) : List Glyph := cs.map .char

@[simp] theorem ofChars_nil : ofChars [] = [] := rfl

@[simp] theorem ofChars_cons (c : Char) (cs : List Char) :
    ofChars (c :: cs) = .char c :: ofChars cs := rfl

@[simp] theorem ofChars_append (cs ds : List Char) :
    ofChars (cs ++ ds) = ofChars cs ++ ofChars ds := List.map_append

@[simp] theorem length_ofChars (cs : List Char) : (ofChars cs).length = cs.length :=
  List.length_map ..

/-- The first glyph and as many more as a word has are the word. -/
theorem take_drop_of_word {g : Glyph} {gs rest : List Glyph} {w : List Char} {more : Nat}
    (h : g :: gs = ofChars w ++ rest) (hw : w.length = more + 1) :
    g :: gs.take more = ofChars w ∧ gs.drop more = rest := by
  have htake : (g :: gs).take (more + 1) = ofChars w := by
    rw [h, ← hw, List.take_left' (length_ofChars w)]
  have hdrop : (g :: gs).drop (more + 1) = rest := by
    rw [h, ← hw, List.drop_left' (length_ofChars w)]
  exact ⟨htake, hdrop⟩

theorem ofChars_injective {cs ds : List Char} (h : ofChars cs = ofChars ds) : cs = ds :=
  List.map_inj_right (fun _ _ hc => Glyph.char.inj hc) |>.mp h

theorem one_le_length_bytes (g : Glyph) : 1 ≤ g.bytes.length := by
  cases g with
  | stray b => exact Nat.le_refl 1
  | char c =>
    rw [Glyph.bytes, String.length_utf8EncodeChar]
    exact c.utf8Size_pos

end Glyph

namespace Text

theorem charFrom?_eq_some {least n : Nat} {c : Char} :
    charFrom? least n = some c ↔ c.toNat = n ∧ least ≤ n := by
  unfold charFrom?
  constructor
  · intro h
    split at h
    · rename_i hv
      simp only [Bool.and_eq_true, decide_eq_true_eq] at hv
      obtain rfl := Option.some.inj h
      refine ⟨?_, hv.1⟩
      rw [Char.ofNat, dif_pos hv.2]
      rfl
    · contradiction
  · rintro ⟨rfl, hle⟩
    have hv : c.toNat.isValidChar := c.valid
    rw [if_pos (by simp only [Bool.and_eq_true, decide_eq_true_eq]; exact ⟨hle, hv⟩),
      Char.ofNat_toNat]

theorem tailBits?_eq_some {b : UInt8} {x : Nat} :
    tailBits? b = some x ↔ b.toNat = 0x80 + x ∧ x < 64 := by
  unfold tailBits?
  have h1 : (0x80 : UInt8).toNat = 128 := rfl
  have h2 : (0xc0 : UInt8).toNat = 192 := rfl
  split <;> rename_i h <;>
    simp only [Bool.and_eq_true, decide_eq_true_eq, UInt8.le_iff_toNat_le,
      UInt8.lt_iff_toNat_lt] at h
  · simp only [Option.some.injEq]
    omega
  · simp only [reduceCtorEq, false_iff]
    omega

theorem pair?_eq_some {b₀ b₁ : UInt8} {c : Char} :
    pair? b₀ b₁ = some c ↔ 0x80 ≤ c.toNat ∧ c.toNat < 0x800 ∧
      b₀.toNat = 0xc0 + c.toNat / 64 ∧ b₁.toNat = 0x80 + c.toNat % 64 := by
  have h1 : (0xc0 : UInt8).toNat = 192 := rfl
  have h2 : (0xe0 : UInt8).toNat = 224 := rfl
  simp only [pair?, Option.bind_eq_bind, Option.bind_eq_some_iff, Option.guard_eq_some',
    Bool.and_eq_true, decide_eq_true_eq, UInt8.le_iff_toNat_le, UInt8.lt_iff_toNat_lt,
    tailBits?_eq_some, charFrom?_eq_some, h1, h2]
  constructor
  · rintro ⟨_, hb, x, hx, hc⟩
    omega
  · rintro ⟨h3, h4, h5, h6⟩
    exact ⟨(), by omega, c.toNat % 64, by omega, by omega⟩

theorem triple?_eq_some {b₀ b₁ b₂ : UInt8} {c : Char} :
    triple? b₀ b₁ b₂ = some c ↔ 0x800 ≤ c.toNat ∧ c.toNat < 0x10000 ∧
      b₀.toNat = 0xe0 + c.toNat / 4096 ∧ b₁.toNat = 0x80 + c.toNat / 64 % 64 ∧
      b₂.toNat = 0x80 + c.toNat % 64 := by
  have h1 : (0xe0 : UInt8).toNat = 224 := rfl
  have h2 : (0xf0 : UInt8).toNat = 240 := rfl
  simp only [triple?, Option.bind_eq_bind, Option.bind_eq_some_iff, Option.guard_eq_some',
    Bool.and_eq_true, decide_eq_true_eq, UInt8.le_iff_toNat_le, UInt8.lt_iff_toNat_lt,
    tailBits?_eq_some, charFrom?_eq_some, h1, h2]
  constructor
  · rintro ⟨_, hb, x, hx, y, hy, hc⟩
    omega
  · rintro ⟨h3, h4, h5, h6, h7⟩
    exact ⟨(), by omega, c.toNat / 64 % 64, by omega, c.toNat % 64, by omega, by omega⟩

theorem quadruple?_eq_some {b₀ b₁ b₂ b₃ : UInt8} {c : Char} :
    quadruple? b₀ b₁ b₂ b₃ = some c ↔ 0x10000 ≤ c.toNat ∧ c.toNat < 0x200000 ∧
      b₀.toNat = 0xf0 + c.toNat / 262144 ∧ b₁.toNat = 0x80 + c.toNat / 4096 % 64 ∧
      b₂.toNat = 0x80 + c.toNat / 64 % 64 ∧ b₃.toNat = 0x80 + c.toNat % 64 := by
  have h1 : (0xf0 : UInt8).toNat = 240 := rfl
  have h2 : (0xf8 : UInt8).toNat = 248 := rfl
  simp only [quadruple?, Option.bind_eq_bind, Option.bind_eq_some_iff, Option.guard_eq_some',
    Bool.and_eq_true, decide_eq_true_eq, UInt8.le_iff_toNat_le, UInt8.lt_iff_toNat_lt,
    tailBits?_eq_some, charFrom?_eq_some, h1, h2]
  constructor
  · rintro ⟨_, hb, x, hx, y, hy, z, hz, hc⟩
    omega
  · rintro ⟨h3, h4, h5, h6, h7, h8⟩
    exact ⟨(), by omega, c.toNat / 4096 % 64, by omega, c.toNat / 64 % 64, by omega,
      c.toNat % 64, by omega, by omega⟩

theorem encode_one {c : Char} (h : c.toNat < 0x80) :
    String.utf8EncodeChar c = [UInt8.ofNat c.toNat] := by
  simp [String.utf8EncodeChar, show c.toNat ≤ 127 by omega]

theorem encode_two {c : Char} (h : 0x80 ≤ c.toNat) (h' : c.toNat < 0x800) :
    String.utf8EncodeChar c =
      [UInt8.ofNat (0xc0 + c.toNat / 64), UInt8.ofNat (0x80 + c.toNat % 64)] := by
  simp [String.utf8EncodeChar, show ¬ c.toNat ≤ 127 by omega, show c.toNat ≤ 2047 by omega,
    Nat.add_comm, Nat.mod_eq_of_lt (show c.toNat / 64 < 32 by omega)]

theorem encode_three {c : Char} (h : 0x800 ≤ c.toNat) (h' : c.toNat < 0x10000) :
    String.utf8EncodeChar c =
      [UInt8.ofNat (0xe0 + c.toNat / 4096), UInt8.ofNat (0x80 + c.toNat / 64 % 64),
        UInt8.ofNat (0x80 + c.toNat % 64)] := by
  simp [String.utf8EncodeChar, show ¬ c.toNat ≤ 127 by omega, show ¬ c.toNat ≤ 2047 by omega,
    show c.toNat ≤ 65535 by omega, Nat.add_comm,
    Nat.mod_eq_of_lt (show c.toNat / 4096 < 16 by omega)]

theorem toNat_lt_of_char (c : Char) : c.toNat < 0x110000 := by
  have h : c.toNat.isValidChar := c.valid
  rcases h with h | h <;> omega

theorem encode_four {c : Char} (h : 0x10000 ≤ c.toNat) :
    String.utf8EncodeChar c =
      [UInt8.ofNat (0xf0 + c.toNat / 262144), UInt8.ofNat (0x80 + c.toNat / 4096 % 64),
        UInt8.ofNat (0x80 + c.toNat / 64 % 64), UInt8.ofNat (0x80 + c.toNat % 64)] := by
  have hc := toNat_lt_of_char c
  simp [String.utf8EncodeChar, show ¬ c.toNat ≤ 127 by omega, show ¬ c.toNat ≤ 2047 by omega,
    show ¬ c.toNat ≤ 65535 by omega, Nat.add_comm,
    Nat.mod_eq_of_lt (show c.toNat / 262144 < 8 by omega)]

theorem ofNat_toNat_byte {b : UInt8} {n : Nat} (h : b.toNat = n) : UInt8.ofNat n = b := by
  subst h
  exact UInt8.ofNat_toNat

theorem toNat_ofNat_byte {n : Nat} (h : n < 256) : (UInt8.ofNat n).toNat = n := by
  rw [UInt8.toNat_ofNat']
  exact Nat.mod_eq_of_lt h

theorem encode_of_pair? {b₀ b₁ : UInt8} {c : Char} (h : pair? b₀ b₁ = some c) :
    String.utf8EncodeChar c = [b₀, b₁] := by
  obtain ⟨h1, h2, h3, h4⟩ := pair?_eq_some.mp h
  rw [encode_two h1 h2, ofNat_toNat_byte h3, ofNat_toNat_byte h4]

theorem encode_of_triple? {b₀ b₁ b₂ : UInt8} {c : Char} (h : triple? b₀ b₁ b₂ = some c) :
    String.utf8EncodeChar c = [b₀, b₁, b₂] := by
  obtain ⟨h1, h2, h3, h4, h5⟩ := triple?_eq_some.mp h
  rw [encode_three h1 h2, ofNat_toNat_byte h3, ofNat_toNat_byte h4, ofNat_toNat_byte h5]

theorem encode_of_quadruple? {b₀ b₁ b₂ b₃ : UInt8} {c : Char}
    (h : quadruple? b₀ b₁ b₂ b₃ = some c) : String.utf8EncodeChar c = [b₀, b₁, b₂, b₃] := by
  obtain ⟨h1, h2, h3, h4, h5, h6⟩ := quadruple?_eq_some.mp h
  rw [encode_four h1, ofNat_toNat_byte h3, ofNat_toNat_byte h4, ofNat_toNat_byte h5,
    ofNat_toNat_byte h6]

theorem encode_ascii {b : UInt8} (h : b < 0x80) :
    String.utf8EncodeChar (Char.ofNat b.toNat) = [b] := by
  have hb : b.toNat < 128 := UInt8.lt_iff_toNat_lt.mp h
  have hv : (Char.ofNat b.toNat).toNat = b.toNat := by
    rw [Char.ofNat, dif_pos (show b.toNat.isValidChar from Or.inl (by omega))]
    rfl
  rw [encode_one (by omega), hv, UInt8.ofNat_toNat]

/-- The glyphs of a text stand for its bytes. -/
theorem ofGlyphs_glyphs (t : Text) : ofGlyphs (glyphs t) = t := by
  unfold ofGlyphs
  fun_induction glyphs t with
  | case1 => rfl
  | case2 b₀ t hlt ih => simp [Glyph.bytes, encode_ascii hlt, ih]
  | case3 b₀ hlt => rfl
  | case4 b₀ hlt b₁ t c hc ih => simp [Glyph.bytes, encode_of_pair? hc, ih]
  | case5 b₀ hlt b₁ hc ih => simp [Glyph.bytes, ih]
  | case6 b₀ hlt b₁ h₂ b₂ t c hc ih => simp [Glyph.bytes, encode_of_triple? hc, ih]
  | case7 b₀ hlt b₁ h₂ b₂ hc ih => simp [Glyph.bytes, ih]
  | case8 b₀ hlt b₁ h₂ b₂ h₃ b₃ t c hc ih => simp [Glyph.bytes, encode_of_quadruple? hc, ih]
  | case9 b₀ hlt b₁ h₂ b₂ h₃ b₃ t hc ih => simp [Glyph.bytes, ih]

/-- A written character is read back, whatever follows it. -/
theorem glyphs_encode (c : Char) (t : Text) :
    glyphs (String.utf8EncodeChar c ++ t) = .char c :: glyphs t := by
  have hc := toNat_lt_of_char c
  by_cases h1 : c.toNat < 0x80
  · have hlt : UInt8.ofNat c.toNat < 0x80 := by
      rw [UInt8.lt_iff_toNat_lt, toNat_ofNat_byte (by omega)]
      exact h1
    rw [encode_one h1, List.singleton_append, glyphs.eq_def]
    simp only [if_pos hlt, toNat_ofNat_byte (show c.toNat < 256 by omega), Char.ofNat_toNat]
  have hlead : ∀ n, 0xc0 ≤ n → n < 256 → ¬ UInt8.ofNat n < 0x80 := by
    intro n hn hn'
    rw [UInt8.lt_iff_toNat_lt, toNat_ofNat_byte hn']
    have : (0x80 : UInt8).toNat = 128 := rfl
    omega
  by_cases h2 : c.toNat < 0x800
  · have hp : pair? (UInt8.ofNat (0xc0 + c.toNat / 64)) (UInt8.ofNat (0x80 + c.toNat % 64)) =
        some c := by
      rw [pair?_eq_some, toNat_ofNat_byte (by omega), toNat_ofNat_byte (by omega)]
      omega
    rw [encode_two (by omega) h2, List.cons_append, List.singleton_append, glyphs.eq_def]
    simp only [if_neg (hlead (0xc0 + c.toNat / 64) (by omega) (by omega)), hp]
  have hpair : ∀ n b, 0xe0 ≤ n → n < 256 → pair? (UInt8.ofNat n) b = none := by
    intro n b hn hn'
    refine Option.eq_none_iff_forall_ne_some.mpr fun d hd => ?_
    have h := pair?_eq_some.mp hd
    rw [toNat_ofNat_byte hn'] at h
    omega
  by_cases h3 : c.toNat < 0x10000
  · have ht : triple? (UInt8.ofNat (0xe0 + c.toNat / 4096))
        (UInt8.ofNat (0x80 + c.toNat / 64 % 64)) (UInt8.ofNat (0x80 + c.toNat % 64)) = some c := by
      rw [triple?_eq_some, toNat_ofNat_byte (by omega), toNat_ofNat_byte (by omega),
        toNat_ofNat_byte (by omega)]
      omega
    rw [encode_three (by omega) h3]
    simp only [List.cons_append, List.nil_append]
    rw [glyphs.eq_def]
    simp only [if_neg (hlead (0xe0 + c.toNat / 4096) (by omega) (by omega)),
      hpair (0xe0 + c.toNat / 4096) _ (by omega) (by omega), ht]
  · have htriple : ∀ b d, triple? (UInt8.ofNat (0xf0 + c.toNat / 262144)) b d = none := by
      intro b d
      refine Option.eq_none_iff_forall_ne_some.mpr fun e he => ?_
      have h := triple?_eq_some.mp he
      rw [toNat_ofNat_byte (by omega)] at h
      omega
    have hq : quadruple? (UInt8.ofNat (0xf0 + c.toNat / 262144))
        (UInt8.ofNat (0x80 + c.toNat / 4096 % 64)) (UInt8.ofNat (0x80 + c.toNat / 64 % 64))
        (UInt8.ofNat (0x80 + c.toNat % 64)) = some c := by
      rw [quadruple?_eq_some, toNat_ofNat_byte (by omega), toNat_ofNat_byte (by omega),
        toNat_ofNat_byte (by omega), toNat_ofNat_byte (by omega)]
      omega
    rw [encode_four (by omega)]
    simp only [List.cons_append, List.nil_append]
    rw [glyphs.eq_def]
    simp only [if_neg (hlead (0xf0 + c.toNat / 262144) (by omega) (by omega)),
      hpair (0xf0 + c.toNat / 262144) _ (by omega) (by omega), htriple, hq]

/-- The glyphs of written characters are these characters. -/
@[simp] theorem glyphs_ofChars_append (cs : List Char) (t : Text) :
    glyphs (ofChars cs ++ t) = Glyph.ofChars cs ++ glyphs t := by
  induction cs with
  | nil => rfl
  | cons c cs ih =>
    simp only [ofChars, List.flatMap_cons, List.append_assoc]
    rw [glyphs_encode]
    exact congrArg _ ih

@[simp] theorem glyphs_ofChars (cs : List Char) : glyphs (ofChars cs) = Glyph.ofChars cs := by
  simpa [glyphs] using glyphs_ofChars_append cs []

@[simp] theorem ofGlyphs_ofChars (cs : List Char) : ofGlyphs (Glyph.ofChars cs) = ofChars cs := by
  simp [ofGlyphs, ofChars, Glyph.ofChars, List.flatMap_map, Glyph.bytes]

@[simp] theorem ofGlyphs_append (gs hs : List Glyph) :
    ofGlyphs (gs ++ hs) = ofGlyphs gs ++ ofGlyphs hs := by
  simp [ofGlyphs]

@[simp] theorem ofChars_append (cs ds : List Char) :
    ofChars (cs ++ ds) = ofChars cs ++ ofChars ds := by
  simp [ofChars]

/-- The first `n` bytes lie in the first `n` glyphs. -/
theorem take_ofGlyphs_take (n : Nat) (gs : List Glyph) :
    (Text.ofGlyphs (gs.take n)).take n = (Text.ofGlyphs gs).take n := by
  induction n generalizing gs with
  | zero => rfl
  | succ n ih =>
    cases gs with
    | nil => rfl
    | cons g gs =>
      have hg := Glyph.one_le_length_bytes g
      have hcons : ∀ hs, Text.ofGlyphs (g :: hs) = g.bytes ++ Text.ofGlyphs hs := fun hs => rfl
      obtain ⟨k, hk⟩ : ∃ k, n + 1 - g.bytes.length = n - k := ⟨g.bytes.length - 1, by omega⟩
      have hmin : ∀ t : Text, t.take (n - k) = (t.take n).take (n - k) := fun t => by
        rw [List.take_take, Nat.min_eq_left (Nat.sub_le n k)]
      rw [List.take_succ_cons, hcons, hcons, List.take_append, List.take_append, hk, hmin, ih, ← hmin]

/-! ## Bytes of characters -/

theorem toNat_of_mem_encode {c : Char} {b : UInt8} (hb : b ∈ String.utf8EncodeChar c)
    (h : b.toNat < 128) : c.toNat = b.toNat := by
  have hc := toNat_lt_of_char c
  by_cases h1 : c.toNat < 0x80
  · rw [encode_one h1, List.mem_singleton] at hb
    rw [hb, toNat_ofNat_byte (by omega)]
  · exfalso
    by_cases h2 : c.toNat < 0x800
    · rw [encode_two (by omega) h2] at hb
      simp only [List.mem_cons, List.not_mem_nil, or_false] at hb
      rcases hb with rfl | rfl <;> rw [toNat_ofNat_byte (by omega)] at h <;> omega
    by_cases h3 : c.toNat < 0x10000
    · rw [encode_three (by omega) h3] at hb
      simp only [List.mem_cons, List.not_mem_nil, or_false] at hb
      rcases hb with rfl | rfl | rfl <;> rw [toNat_ofNat_byte (by omega)] at h <;> omega
    · rw [encode_four (by omega)] at hb
      simp only [List.mem_cons, List.not_mem_nil, or_false] at hb
      rcases hb with rfl | rfl | rfl | rfl <;> rw [toNat_ofNat_byte (by omega)] at h <;> omega

theorem eq_of_mem_encode {c d : Char} (hd : d.toNat < 128) (h : byte d ∈ String.utf8EncodeChar c) :
    c = d := by
  have hbyte : (byte d).toNat = d.toNat := by
    show (UInt8.ofNat d.toNat).toNat = d.toNat
    exact toNat_ofNat_byte (by omega)
  have := toNat_of_mem_encode h (by omega)
  rw [hbyte] at this
  exact Char.ext (UInt32.toNat_inj.mp this)

theorem byte_mem_ofChars {d : Char} (hd : d.toNat < 128) {cs : List Char} :
    byte d ∈ ofChars cs ↔ d ∈ cs := by
  simp only [ofChars, List.mem_flatMap]
  constructor
  · rintro ⟨c, hc, hb⟩
    rwa [← eq_of_mem_encode hd hb]
  · intro h
    refine ⟨d, h, ?_⟩
    rw [encode_one (by omega)]
    exact List.mem_singleton.mpr rfl

theorem ofChars_cons (c : Char) (cs : List Char) :
    ofChars (c :: cs) = String.utf8EncodeChar c ++ ofChars cs := rfl

theorem ofChars_cons_ascii {c : Char} (h : c.toNat < 128) (cs : List Char) :
    ofChars (c :: cs) = byte c :: ofChars cs := by
  rw [ofChars_cons, encode_one h]
  rfl

theorem length_ofChars_ascii {cs : List Char} (h : ∀ c ∈ cs, c.toNat < 128) :
    (ofChars cs).length = cs.length := by
  induction cs with
  | nil => rfl
  | cons c cs ih =>
    obtain ⟨hc, hcs⟩ := List.forall_mem_cons.mp h
    rw [ofChars_cons_ascii hc, List.length_cons, List.length_cons, ih hcs]

theorem ofChars_replicate {c : Char} (h : c.toNat < 128) (n : Nat) :
    ofChars (List.replicate n c) = List.replicate n (byte c) := by
  induction n with
  | zero => rfl
  | succ n ih => rw [List.replicate_succ, ofChars_cons_ascii h, ih, List.replicate_succ]

/-- A byte at which no character starts is none of ASCII. -/
theorem le_of_stray_mem_glyphs {t : Text} {b : UInt8} (h : Glyph.stray b ∈ t.glyphs) : 0x80 ≤ b := by
  have hlead : ∀ {b₀ : UInt8}, ¬ b₀ < 0x80 → 0x80 ≤ b₀ := UInt8.not_lt.mp
  fun_induction glyphs t with
  | case1 => simp at h
  | case2 b₀ t hlt ih => exact ih (by simpa using h)
  | case3 b₀ hlt => exact (show b = b₀ by simpa using h) ▸ hlead hlt
  | case4 b₀ hlt b₁ t c hc ih => exact ih (by simpa using h)
  | case5 b₀ hlt b₁ hc ih =>
    rcases List.mem_cons.mp h with hb | h
    · exact Glyph.stray.inj hb ▸ hlead hlt
    · exact ih h
  | case6 b₀ hlt b₁ h₂ b₂ t c hc ih => exact ih (by simpa using h)
  | case7 b₀ hlt b₁ h₂ b₂ hc ih =>
    rcases List.mem_cons.mp h with hb | h
    · exact Glyph.stray.inj hb ▸ hlead hlt
    · exact ih h
  | case8 b₀ hlt b₁ h₂ b₂ h₃ b₃ t c hc ih => exact ih (by simpa using h)
  | case9 b₀ hlt b₁ h₂ b₂ h₃ b₃ t hc ih =>
    rcases List.mem_cons.mp h with hb | h
    · exact Glyph.stray.inj hb ▸ hlead hlt
    · exact ih h

end Text

end FusionKit
