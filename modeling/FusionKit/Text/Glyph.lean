import FusionKit.Text
import FusionKit.Word

/-!
# Glyphs

The characters of a text. A text that is not valid UTF-8 still has a reading: where no character
starts, one byte is a glyph of its own, called stray. So every text is exactly one sequence of
glyphs, and `Glyph.bytes` leads back.
-/
namespace FusionKit

/-- A character, or a byte at which no character starts. -/
inductive Glyph where
  | char (c : Char)
  | stray (b : UInt8)
  deriving DecidableEq, Repr

namespace Glyph

/-- The bytes that a glyph stands for. -/
def bytes : Glyph → Text
  | char c => String.utf8EncodeChar c
  | stray b => [b]

/-- How many bytes a glyph stands for. -/
def size : Glyph → Nat
  | char c => c.utf8Size
  | stray _ => 1

/-- The character shown for a glyph: U+FFFD for a stray byte. -/
def shown : Glyph → Char
  | char c => c
  | stray _ => '\ufffd'

/-- Whether a glyph is a character satisfying `p`. -/
def isCharWith (p : Char → Bool) : Glyph → Bool
  | char c => p c
  | stray _ => false

end Glyph

namespace Text

/-- The six payload bits of a continuation byte. -/
def tailBits? (b : UInt8) : Option Nat :=
  if 0x80 ≤ b && b < 0xc0 then some (b.toNat - 0x80) else none

/-- The character with number `n`, when there is one and it needs the long form that starts
at `least`. -/
def charFrom? (least n : Nat) : Option Char :=
  if least ≤ n && n.isValidChar then some (Char.ofNat n) else none

/-- The character encoded by exactly two bytes. -/
def pair? (b₀ b₁ : UInt8) : Option Char := do
  guard (0xc0 ≤ b₀ && b₀ < 0xe0)
  let x ← tailBits? b₁
  charFrom? 0x80 ((b₀.toNat - 0xc0) * 64 + x)

/-- The character encoded by exactly three bytes. -/
def triple? (b₀ b₁ b₂ : UInt8) : Option Char := do
  guard (0xe0 ≤ b₀ && b₀ < 0xf0)
  let x ← tailBits? b₁
  let y ← tailBits? b₂
  charFrom? 0x800 (((b₀.toNat - 0xe0) * 64 + x) * 64 + y)

/-- The character encoded by exactly four bytes. -/
def quadruple? (b₀ b₁ b₂ b₃ : UInt8) : Option Char := do
  guard (0xf0 ≤ b₀ && b₀ < 0xf8)
  let x ← tailBits? b₁
  let y ← tailBits? b₂
  let z ← tailBits? b₃
  charFrom? 0x10000 ((((b₀.toNat - 0xf0) * 64 + x) * 64 + y) * 64 + z)

/-- The glyphs of a text. -/
def glyphs : Text → List Glyph
  | [] => []
  | b₀ :: t =>
    if b₀ < 0x80 then .char (Char.ofNat b₀.toNat) :: glyphs t
    else
      match t with
      | [] => [.stray b₀]
      | b₁ :: t₁ =>
        match pair? b₀ b₁ with
        | some c => .char c :: glyphs t₁
        | none =>
          match t₁ with
          | [] => .stray b₀ :: glyphs [b₁]
          | b₂ :: t₂ =>
            match triple? b₀ b₁ b₂ with
            | some c => .char c :: glyphs t₂
            | none =>
              match t₂ with
              | [] => .stray b₀ :: glyphs [b₁, b₂]
              | b₃ :: t₃ =>
                match quadruple? b₀ b₁ b₂ b₃ with
                | some c => .char c :: glyphs t₃
                | none => .stray b₀ :: glyphs (b₁ :: b₂ :: b₃ :: t₃)

/-- The text that a sequence of glyphs stands for. -/
def ofGlyphs (gs : List Glyph) : Text := gs.flatMap Glyph.bytes

/-- The text of a sequence of characters. -/
def ofChars (cs : List Char) : Text := cs.flatMap String.utf8EncodeChar

/-- Why a character cannot be repeated as often as is asked. -/
inductive RepeatFault where
  /-- The length of the result is no word of 64 bits. -/
  | overflow
  /-- There is no room for the result. -/
  | noRoom
  deriving DecidableEq, Repr

/-- `n` copies of a character; none when `n` is negative. -/
def repeatChar (c : Char) (n : Int) : Except RepeatFault Text :=
  let unit := ofChars [c]
  let length : Int := unit.length * n
  if length ≤ maxLength then .ok (List.replicate n.toNat unit).flatten
  else if Word.isInt64 length then .error .noRoom
  else .error .overflow

/-- The characters of a text, with U+FFFD for every stray byte. -/
def chars (t : Text) : List Char := t.glyphs.map Glyph.shown

/-- Whether a text is valid UTF-8. -/
def isUtf8 (t : Text) : Bool :=
  t.glyphs.all fun
    | .char _ => true
    | .stray _ => false

end Text

end FusionKit
