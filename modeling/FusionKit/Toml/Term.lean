import FusionKit.Toml.Document
import FusionKit.Toml.Moment

/-!
# Written values

A value as a document writes it, and what it means. Numbers and dates are kept as written until
the whole line has been read.
-/
namespace FusionKit.Toml

/-- A value as written. -/
inductive Term where
  | text (t : Text)
  | boolean (b : Bool)
  | integer (written : Text)
  | real (written : Text)
  | moment (kind : MomentKind) (written : Text)
  | array (items : List Term)
  | table (entries : List (List Text × Term))
  deriving Inhabited

/-- Whether a text holds two underscores in a row. -/
def holdsDoubleUnderscore (t : Text) : Bool := (Text.offsetOf? (utf8 "__") t).isSome

/-- The digits of an integer without the underscores between them. -/
def integerDigits (t : Text) : Except Fault Text := do
  let (_, digits) := Decimal.signed t
  if digits.isEmpty then return t
  require (digits.head? != some (byte '_')) "number cannot start with underscore"
  require (t.getLast? != some (byte '_')) "number cannot end with underscore"
  require (!holdsDoubleUnderscore t) "number must have at least one digit between underscores"
  return t.filter (· != byte '_')

/-- The integer that digits of a base spell, if a word of 64 bits holds it. -/
def integerIn (base : Nat) (kind : String) (t : Text) : Except Fault Value :=
  let refuse (isTooLarge : Bool) : Except Fault Value :=
    .error (.number ("couldn't parse " ++ kind ++ " number") "strconv.ParseInt" t isTooLarge)
  match Decimal.int? base t with
  | none => refuse false
  | some n => if Word.isInt64 n then .ok (.integer n "int64") else refuse true

/-- The meaning of an integer. -/
def integerOf (t : Text) : Except Fault Value := do
  let base? : Option (Nat × String) :=
    if t.length ≤ 2 || t.head? != some (byte '0') then none
    else if hasAt t 1 'x' then some (16, "hexadecimal")
    else if hasAt t 1 'o' then some (8, "octal")
    else if hasAt t 1 'b' then some (2, "binary")
    else none
  match base? with
  | some (base, kind) => integerIn base kind (← integerDigits (t.drop 2))
  | none =>
    let digits ← integerDigits t
    let (_, unsigned) := Decimal.signed digits
    require (unsigned.length ≤ 1 || unsigned.head? != some (byte '0'))
      "leading zero not allowed on decimal number"
    integerIn 10 "decimal" digits

/-- The digits of a real number without the underscores between them. The flag tells whether a
digit came last, signs apart. -/
def realDigits (afterDigit : Bool) (previous : Option UInt8) : Text → Except Fault Text
  | [] => .ok []
  | b :: t => do
    let next := t.head?
    let isPower (x : Option UInt8) := x == some (byte 'e') || x == some (byte 'E')
    if b == byte '_' then
      require afterDigit "number must have at least one digit between underscores"
      require (!isPower next) "cannot have underscore before exponent"
      realDigits false (some b) t
    else if b == byte '+' || b == byte '-' then return b :: (← realDigits false (some b) t)
    else if isPower (some b) then
      require (next != some (byte '_')) "cannot have underscore after exponent"
      return b :: (← realDigits afterDigit (some b) t)
    else if b == byte '.' then
      require (next != some (byte '_')) "cannot have underscore after decimal point"
      require (previous != some (byte '_')) "cannot have underscore before decimal point"
      return b :: (← realDigits afterDigit (some b) t)
    else return b :: (← realDigits true (some b) t)

/-- Checks the points of a real number: there is at most one, between digits. -/
def checkPoints (seen : Bool) (previous : Option UInt8) : Text → Except Fault Unit
  | [] => .ok ()
  | b :: t => do
    if b == byte '.' then
      require (!seen) "float can have at most one decimal point"
      require (previous.any Text.isDigit) "float decimal point must be preceded by a digit"
      require (t.head?.any Text.isDigit) "float decimal point must be followed by a digit"
      checkPoints true (some b) t
    else checkPoints seen (some b) t

/-- The spellings of what is no finite number. -/
def unreals : List (String × String) :=
  [("inf", "+Inf"), ("+inf", "+Inf"), ("-inf", "-Inf"), ("nan", "NaN"), ("+nan", "NaN"),
    ("-nan", "NaN")]

/-- The meaning of a real number. -/
def realOf (t : Text) : Except Fault Value := do
  match unreals.find? fun u => utf8 u.1 == t with
  | some u => return .unreal u.2
  | none =>
    require (t.head? != some (byte '_')) "number cannot start with underscore"
    require (t.getLast? != some (byte '_')) "number cannot end with underscore"
    let digits ← if t.contains (byte '_') then realDigits false none t else pure t
    require (digits.head? != some (byte '.')) "float cannot start with a dot"
    require (digits.getLast? != some (byte '.')) "float cannot end with a dot"
    checkPoints false none digits
    let (_, unsigned) := Decimal.signed digits
    require (!(unsigned.head? == some (byte '0') && (unsigned.drop 1).head?.any Text.isDigit))
      "float integer part cannot have leading zeroes"
    let refuse (isTooLarge : Bool) : Except Fault Value :=
      .error (.number "unable to parse float" "strconv.ParseFloat" digits isTooLarge)
    match Decimal.ofText? digits with
    | none => refuse false
    | some d => if d.toBinary?.isSome then return .real d else refuse true

mutual

/-- The meaning of a written value. -/
def Term.toValue : Term → Except Fault Value
  | .text t => .ok (.text t)
  | .boolean b => .ok (.boolean b)
  | .integer written => integerOf written
  | .real written => realOf written
  | .moment kind written => do return .moment kind.type (← momentOf kind written)
  | .array items => do return .list (← itemValues items)
  | .table entries => do return .table (valuesOf (← tableEntries [] entries))

/-- The meanings of the items of an array. -/
def itemValues : List Term → Except Fault (List Value)
  | [] => .ok []
  | item :: items => do
    let v ← item.toValue
    return v :: (← itemValues items)

/-- The entries of a table written on one line, after those before them. -/
def tableEntries (es : Entries) : List (List Text × Term) → Except Fault Entries
  | [] => .ok es
  | (path, term) :: rest => do
    let v ← term.toValue
    match assign v path es with
    | .ok es => tableEntries es rest
    | .error c => .error (.conflict c)

end

end FusionKit.Toml
