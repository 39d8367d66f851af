import FusionKit.Text.Glyph

/-!
# Blanks

White space in the sense of Unicode (the property White_Space), as opposed to the six blanks of
the language that `Text.isSpace` knows. Trimming by it looks at characters, so a stray byte is
never blank.
-/
namespace FusionKit

/-- Whether a character is white space. -/
def isBlank (c : Char) : Bool :=
  c == ' ' || ('\t' ≤ c && c ≤ '\r') || c == '\u0085' || c == '\u00a0' || c == '\u1680' ||
    ('\u2000' ≤ c && c ≤ '\u200a') || c == '\u2028' || c == '\u2029' || c == '\u202f' ||
    c == '\u205f' || c == '\u3000'

namespace Text

/-- The text without white space at its two ends. -/
def strip (t : Text) : Text :=
  let blank := Glyph.isCharWith isBlank
  ofGlyphs (((glyphs t).dropWhile blank).reverse.dropWhile blank).reverse

/-- Whether a text holds nothing but white space. -/
def isAllBlank (t : Text) : Bool := (glyphs t).all (Glyph.isCharWith isBlank)

/-- The maximal runs of characters that are not white space. -/
def words (t : Text) : List Text :=
  let step : List Glyph × List Text → Glyph → List Glyph × List Text
    | (word, done), g =>
      if g.isCharWith isBlank then
        if word.isEmpty then ([], done) else ([], ofGlyphs word.reverse :: done)
      else (g :: word, done)
  let (word, done) := (glyphs t).foldl step ([], [])
  (if word.isEmpty then done else ofGlyphs word.reverse :: done).reverse

end Text

end FusionKit
