/-!
# Words

The integers that fit into machine words. Numbers that are read from text are unbounded here; where
a format gives them a width, one of these ranges says which are too large. Offsets and columns are
words of 64 bits with a sign, and a sum of them that is too large starts again at the other end.
-/
namespace FusionKit.Word

/-- Whether a number fits into 32 bits with a sign. -/
def isInt32 (n : Int) : Bool := Int32.minValue.toInt ≤ n && n ≤ Int32.maxValue.toInt

/-- Whether a number fits into 64 bits with a sign. -/
def isInt64 (n : Int) : Bool := Int64.minValue.toInt ≤ n && n ≤ Int64.maxValue.toInt

/-- The word of 64 bits with a sign that a number leaves when it is cut to this width. -/
def wrap64 (n : Int) : Int := Int.bmod n UInt64.size

/-- Whether a number fits into 32 bits without a sign. -/
def isUInt32 (n : Int) : Bool := 0 ≤ n && n < UInt32.size

/-- Whether a number fits into 64 bits without a sign. -/
def isUInt64 (n : Int) : Bool := 0 ≤ n && n < UInt64.size

end FusionKit.Word
