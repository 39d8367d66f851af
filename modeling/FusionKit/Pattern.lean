import FusionKit.Path
import FusionKit.Text.Glyph

/-!
# File name patterns

In a pattern `*` stands for any bytes but slashes, `?` for one character that is no slash, a
bracket for one character of its ranges (or outside of them after `^`), and a backslash takes the
meaning away from the character after it. A malformed pattern matches nothing.
-/
namespace FusionKit

/-- A part of a pattern that stands for one byte or character. -/
inductive PatternItem where
  | byte (b : UInt8)
  | anyChar
  | oneOf (negated : Bool) (ranges : List (Char × Char))
  deriving DecidableEq, Repr

/-- A run of items, possibly after a star. -/
structure PatternChunk where
  star : Bool
  items : List PatternItem
  deriving DecidableEq, Repr

namespace Pattern

/-- A glyph of a pattern, and whether a backslash has taken its meaning away. -/
structure Sign where
  escaped : Bool
  glyph : Glyph
  deriving DecidableEq, Repr

/-- The signs of a pattern; none when it ends in a lone backslash. -/
def signs? : List Glyph → Option (List Sign)
  | [] => some []
  | [.char '\\'] => none
  | .char '\\' :: g :: gs => (signs? gs).map (⟨true, g⟩ :: ·)
  | g :: gs => (signs? gs).map (⟨false, g⟩ :: ·)

/-- Puts an item in front of the first chunk. -/
def prepend (items : List PatternItem) : List PatternChunk → List PatternChunk
  | [] => [⟨false, items⟩]
  | c :: cs =>
    if c.star then ⟨false, items⟩ :: c :: cs else { c with items := items ++ c.items } :: cs

/-- Marks that a star comes first. -/
def starred : List PatternChunk → List PatternChunk
  | [] => [⟨true, []⟩]
  | c :: cs => { c with star := true } :: cs

/-- The character of a sign that may bound a range of a bracket. -/
def bound? : Sign → Option Char
  | ⟨true, .char c⟩ => some c
  | ⟨false, .char c⟩ => if c == '-' || c == ']' then none else some c
  | ⟨_, .stray _⟩ => none

/-- A bracket that is open: whether nothing but its opening was read, whether it is negated, its
ranges, last first, the lower bound of a range and whether a dash has followed that. -/
structure Bracket where
  fresh : Bool := true
  negated : Bool := false
  ranges : List (Char × Char) := []
  low : Option Char := none
  dash : Bool := false
  deriving DecidableEq, Repr

/-- The ranges with a bound that is a range by itself. -/
def Bracket.settled (b : Bracket) : List (Char × Char) :=
  match b.low with
  | some c => (c, c) :: b.ranges
  | none => b.ranges

/-- The bracket after one more sign that does not close it. -/
def Bracket.next? (b : Bracket) (s : Sign) : Option Bracket :=
  if b.fresh && s == ⟨false, .char '^'⟩ then some { fresh := false, negated := true }
  else
    match b.low, b.dash with
    | some low, true =>
      (bound? s).map fun high =>
        { b with fresh := false, ranges := (low, high) :: b.ranges, low := none, dash := false }
    | low, _ =>
      if low.isSome && s == ⟨false, .char '-'⟩ then some { b with dash := true }
      else
        (bound? s).map fun c => { b with fresh := false, ranges := b.settled, low := some c }

/-- Whether a sign closes a bracket. -/
def Bracket.isClosedBy (b : Bracket) (s : Sign) : Bool :=
  s == ⟨false, .char ']'⟩ && !b.dash && !b.settled.isEmpty

/-- The chunks of a pattern, possibly from inside of a bracket on. -/
def chunks? : Option Bracket → List Sign → Option (List PatternChunk)
  | none, [] => some []
  | some _, [] => none
  | none, s :: ss =>
    match s with
    | ⟨false, .char '*'⟩ => (chunks? none ss).map starred
    | ⟨false, .char '?'⟩ => (chunks? none ss).map (prepend [.anyChar])
    | ⟨false, .char '['⟩ => chunks? (some {}) ss
    | _ => (chunks? none ss).map (prepend (s.glyph.bytes.map .byte))
  | some b, s :: ss =>
    if b.isClosedBy s then (chunks? none ss).map (prepend [.oneOf b.negated b.settled])
    else
      match b.next? s with
      | some b => chunks? (some b) ss
      | none => none

/-- The chunks of a pattern; none for a malformed one. -/
def parse? (pattern : Text) : Option (List PatternChunk) :=
  (signs? pattern.glyphs).bind (chunks? none)

/-- What follows the first character of a text, with that character. -/
def uncons? (t : Text) : Option (Char × Text) :=
  match (Text.glyphs (t.take 4)).head? with
  | some g => some (g.shown, t.drop g.size)
  | none => none

/-- What is left of a text after the items at its start. -/
def matchItems? : List PatternItem → Text → Option Text
  | [], t => some t
  | .byte b :: items, x :: t => if b == x then matchItems? items t else none
  | .byte _ :: _, [] => none
  | .anyChar :: items, t =>
    match uncons? t with
    | some (c, rest) => if c == '/' then none else matchItems? items rest
    | none => none
  | .oneOf negated ranges :: items, t =>
    match uncons? t with
    | some (c, rest) =>
      if (ranges.any fun (low, high) => low ≤ c && c ≤ high) != negated then matchItems? items rest
      else none
    | none => none

/-- What is left after the items at the start of a text; at the end of the pattern nothing may
be. -/
def matchAt? (last : Bool) (items : List PatternItem) (t : Text) : Option Text :=
  (matchItems? items t).filter fun rest => !last || rest.isEmpty

/-- What is left after the first place for the items that a star may lead to. -/
def afterStar? (last : Bool) (items : List PatternItem) : Text → Option Text
  | [] => matchAt? last items []
  | x :: t =>
    match matchAt? last items (x :: t) with
    | some rest => some rest
    | none => if x == Path.slash then none else afterStar? last items t

/-- Whether a text is made of the chunks. -/
def matchChunks : List PatternChunk → Text → Bool
  | [], t => t.isEmpty
  | [⟨true, []⟩], t => !t.contains Path.slash
  | c :: cs, t =>
    let found :=
      if c.star then afterStar? cs.isEmpty c.items t else matchAt? cs.isEmpty c.items t
    match found with
    | some rest => matchChunks cs rest
    | none => false

/-- Whether a pattern matches a whole text. -/
def isMatch (pattern t : Text) : Bool :=
  match parse? pattern with
  | some cs => matchChunks cs t
  | none => false

/-- Whether one of the patterns matches a path or one of its parts. -/
def excludes (patterns : List Text) (p : Text) : Bool :=
  let whole := Path.clean p
  patterns.any fun pattern => isMatch pattern whole || (Path.parts whole).any (isMatch pattern)

/-- The paths that no pattern excludes. -/
def keepUnmatched (patterns ps : List Text) : List Text := ps.filter fun p => !excludes patterns p

end Pattern

end FusionKit
