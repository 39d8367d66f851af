import FusionKit.Text.Quoted

/-!
# Faults of TOML documents

Why a document cannot be read: its text does not follow the grammar, a number or date has no
meaning, or a line does not fit what the lines before it said.
-/
namespace FusionKit.Toml

/-- What a name already stands for. -/
inductive Holding where
  | value
  | table
  | tables
  deriving DecidableEq, Repr

/-- The words for what a name stands for. -/
def Holding.shown : Holding → Text
  | value => utf8 "value"
  | table => utf8 "table"
  | tables => utf8 "array table"

/-- Why a line does not fit what was there before. -/
inductive Conflict where
  | notTable (name : Text) (held : Holding)
  | notHeader (name : Text) (held : Holding)
  | declaredTwice (name : Text)
  | notTables (name : Text) (held : Holding)
  | definedTwice (name : Text)
  | closed (name : Text)
  deriving DecidableEq, Repr

/-- The message for a conflict. -/
def Conflict.message : Conflict → Text
  | notTable name held =>
    utf8 "expected " ++ name ++ utf8 " to be a table, not a " ++ held.shown
  | notHeader name held => utf8 "key " ++ name ++ utf8 " should be a table, not a " ++ held.shown
  | declaredTwice name => utf8 "table " ++ name ++ utf8 " already exists"
  | notTables name held =>
    utf8 "key " ++ held.shown ++ utf8 " already exists as a " ++ name ++
      utf8 ",  but should be an array table"
  | definedTwice name => utf8 "key " ++ name ++ utf8 " is already defined"
  | closed name =>
    utf8 "cannot redefine table " ++ name ++ utf8 " that has already been explicitly defined"

/-- Why a document cannot be read. -/
inductive Fault where
  /-- A part of the document breaks a rule, which the reason states. -/
  | malformed (reason : String)
  | expected (c : Char)
  | endedBefore (c : Char)
  | notNewline (b : UInt8)
  | keyStart (b : UInt8)
  | escape (b : UInt8)
  | character (b : UInt8)
  | shortEscape (wanted given : Nat)
  /-- A number that cannot be read: its kind, the reader's name for that kind, its digits. -/
  | number (kind reader : String) (digits : Text) (isTooLarge : Bool)
  | conflict (c : Conflict)
  deriving DecidableEq, Repr

/-- A byte as the character with its number. -/
def charOf (b : UInt8) : Char := Char.ofNat b.toNat

/-- The number of a character and, when it can be shown, the character. -/
def codePoint (c : Char) : Text :=
  let capitals (t : Text) := t.map fun b => if byte 'a' ≤ b && b ≤ byte 'f' then b - 32 else b
  utf8 "U+" ++ capitals (Quoted.hex 4 c.toNat) ++
    if isPrintable c then utf8 " '" ++ Text.ofChars [c] ++ utf8 "'" else []

/-- The message for a fault. -/
def Fault.message : Fault → Text
  | malformed reason => utf8 reason
  | expected c => utf8 "expected character " ++ Text.ofChars [c]
  | endedBefore c =>
    utf8 "expected character " ++ Text.ofChars [c] ++ utf8 " but the document ended here"
  | notNewline b => utf8 "expected newline but got " ++ codePoint (charOf b)
  | keyStart b => utf8 "invalid character at start of key: " ++ Text.ofChars [charOf b]
  | escape b => utf8 "invalid escaped character " ++ codePoint (charOf b)
  | character b => utf8 "invalid character " ++ codePoint (charOf b)
  | shortEscape wanted given =>
    utf8 "unicode point needs " ++ Text.ofNat wanted ++ utf8 " character, not " ++ Text.ofNat given
  | number kind reader digits isTooLarge =>
    utf8 kind ++ utf8 ": " ++ utf8 reader ++ utf8 ": parsing " ++ digits.quoted ++
      utf8 (if isTooLarge then ": value out of range" else ": invalid syntax")
  | conflict c => c.message

end FusionKit.Toml
