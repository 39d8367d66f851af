import FusionKit.Toml.Term

/-!
# Except Fault (TOML × Text)

A document is read line by line. Each line is blank, or a header, or a key with a value; values
may go on over several lines only inside brackets and long strings. What a line says is added to
the tables that the lines before it made.
-/
namespace FusionKit.Toml

/-- Whether a byte is a blank inside a line. -/
def isBlank (b : UInt8) : Bool := b == byte ' ' || b == byte '\t'

/-- The text after blanks. -/
def skipBlanks (t : Text) : Text := t.dropWhile isBlank

/-- What follows a character. -/
def expect (c : Char) : Text → Except Fault Text
  | [] => .error (.endedBefore c)
  | b :: t => if b == byte c then .ok t else .error (.expected c)

/-- Whether a glyph may stand in a string or comment. -/
def isClean : Glyph → Bool
  | .stray _ => false
  | .char c =>
    let n := c.toNat
    !(n < 9 || n = 11 || n = 12 || (14 ≤ n && n < 32) || n = 127)

/-- The first byte of a glyph. -/
def firstByte (g : Glyph) : UInt8 := g.bytes.headD 0

/-- What follows the end of a line. -/
def newline : Text → Except Fault Text
  | [] => .ok []
  | b :: t =>
    if b == byte '\n' then .ok t
    else if b == byte '\r' then
      match t with
      | [] => .error (.malformed "windows new line expected")
      | c :: rest =>
        if c == byte '\n' then .ok rest
        else .error (.malformed "windows new line should be \\r\\n")
    else .error (.notNewline b)

/-- The text of a comment up to the end of its line, and what follows. -/
def commentBody : Text → Except Fault (Text × Text)
  | [] => .ok ([], [])
  | b :: t =>
    if b == byte '\n' then .ok ([], b :: t)
    else if b == byte '\r' then
      if t.head? == some (byte '\n') then .ok ([], t)
      else .error (.malformed "invalid character in comment")
    else do
      let (body, rest) ← commentBody t
      return (b :: body, rest)

/-- What follows a comment, if there is one. -/
def skipComment : Text → Except Fault Text
  | [] => .ok []
  | b :: t =>
    if b == byte '#' then do
      let (body, rest) ← commentBody t
      require (body.glyphs.all isClean) "invalid character in comment"
      return rest
    else .ok (b :: t)

/-- The text after blanks, comments and ends of lines, by the number of lines left. -/
def skipLines : Nat → Text → Except Fault Text
  | 0, t => .ok t
  | fuel + 1, t => do
    match ← skipComment (skipBlanks t) with
    | [] => return []
    | b :: rest =>
      if b == byte '\n' || b == byte '\r' then skipLines fuel (← newline (b :: rest))
      else return b :: rest

/-- The text after blanks, comments and ends of lines. -/
def skip (t : Text) : Except Fault Text := skipLines (t.length + 1) t

/-- The contents, escapes as written, of a string on one line after its opening quote. -/
def basicBody : Text → Except Fault (Text × Text)
  | [] => .error (.malformed "basic string not terminated by \"")
  | b :: t =>
    if b == byte '"' then .ok ([], t)
    else if b == byte '\n' || b == byte '\r' then
      .error (.malformed "basic strings cannot have new lines")
    else if b == byte '\\' then
      match t with
      | [] => .error (.malformed "need a character after \\")
      | c :: t => do
        let (body, rest) ← basicBody t
        return (b :: c :: body, rest)
    else do
      let (body, rest) ← basicBody t
      return (b :: body, rest)

/-- How many quotes a long string ends with beyond the three that close it, and what follows;
none where the string goes on. -/
def closing? (quote : UInt8) (t : Text) : Option (Nat × Text) :=
  let run := (t.takeWhile (· == quote)).length
  if run < 3 then none else some (run - 3, t.drop run)

/-- Whether a carriage return stands alone. -/
def isLoneReturn (b : UInt8) (t : Text) : Bool :=
  b == byte '\r' && t.head? != some (byte '\n')

/-- The contents, escapes as written, of a long string after its opening quotes. -/
def longBasicBody : Text → Except Fault (Text × Text)
  | [] => .error (.malformed "multiline basic string not terminated by \"\"\"")
  | b :: t =>
    match closing? (byte '"') (b :: t) with
    | some (extra, rest) => do
      require (extra ≤ 2) "\"\"\" not allowed in multiline basic string"
      return (List.replicate extra (byte '"'), rest)
    | none =>
      if b == byte '\\' then
        match t with
        | [] => .error (.malformed "need a character after \\")
        | c :: t => do
          let (body, rest) ← longBasicBody t
          return (b :: c :: body, rest)
      else do
        require (!isLoneReturn b t) "need a \\n after \\r"
        let (body, rest) ← longBasicBody t
        return (b :: body, rest)

/-- The contents of a literal string on one line after its opening quote. -/
def literalBody : Text → Except Fault (Text × Text)
  | [] => .error (.malformed "unterminated literal string")
  | b :: t =>
    if b == byte '\'' then .ok ([], t)
    else if b == byte '\n' || b == byte '\r' then
      .error (.malformed "literal strings cannot have new lines")
    else do
      let (body, rest) ← literalBody t
      return (b :: body, rest)

/-- The contents of a long literal string after its opening quotes. -/
def longLiteralBody : Text → Except Fault (Text × Text)
  | [] => .error (.malformed "multiline literal string not terminated by '''")
  | b :: t =>
    match closing? (byte '\'') (b :: t) with
    | some (extra, rest) => do
      require (extra ≤ 2) "''' not allowed in multiline literal string"
      return (List.replicate extra (byte '\''), rest)
    | none => do
      require (!isLoneReturn b t) "need a \\n after \\r"
      let (body, rest) ← longLiteralBody t
      return (b :: body, rest)

/-- A long string without the end of line right after its opening quotes. -/
def trimFirstLine : Text → Text
  | b :: t =>
    if b == byte '\n' then t
    else if b == byte '\r' && t.head? == some (byte '\n') then t.drop 1
    else b :: t
  | [] => []

/-- The character that hexadecimal digits at the start of a text name. -/
def namedChar (width : Nat) (gs : List Glyph) : Except Fault Text := do
  let t := Text.ofGlyphs gs
  if t.length < width then .error (.shortEscape width t.length)
  let digits := t.take width
  require (digits.all (Decimal.isDigitOf 16)) "non-hex character"
  let n := Decimal.natOf 16 digits
  require n.isValidChar "escape sequence is invalid Unicode code point"
  return Text.ofChars [Char.ofNat n]

/-- The character that a letter after a backslash stands for. -/
def escapeLetter? (c : Char) : Option UInt8 :=
  match c with
  | '"' => some (byte '"')
  | '\\' => some (byte '\\')
  | 'b' => some 8
  | 'f' => some 12
  | 'n' => some 10
  | 'r' => some 13
  | 't' => some 9
  | 'e' => some 27
  | _ => none

/-- Whether a line ends after blanks. -/
def endsLine (gs : List Glyph) : Bool :=
  match gs.dropWhile fun g => g == .char ' ' || g == .char '\t' with
  | g :: rest => g == .char '\n' || (g == .char '\r' && rest.head? == some (.char '\n'))
  | [] => false

/-- The text that contents with escapes stand for. In a long string a backslash at the end of a
line drops all white space after it. -/
def unescape (isLong : Bool) : Nat → List Glyph → Except Fault Text
  | 0, _ => .ok []
  | _ + 1, [] => .ok []
  | fuel + 1, g :: gs =>
    if g != .char '\\' then
      if isClean g then do return g.bytes ++ (← unescape isLong fuel gs)
      else .error (.character (firstByte g))
    else if isLong && endsLine gs then
      unescape isLong fuel (gs.dropWhile fun g => [' ', '\t', '\r', '\n'].any (g == .char ·))
    else
      match gs with
      | .char c :: more =>
        if c == 'u' then do
          return (← namedChar 4 more) ++ (← unescape isLong fuel (more.drop 4))
        else if c == 'U' then do
          return (← namedChar 8 more) ++ (← unescape isLong fuel (more.drop 8))
        else
          match escapeLetter? c with
          | some b => do return b :: (← unescape isLong fuel more)
          | none => .error (.escape (firstByte (.char c)))
      | g :: _ => .error (.escape (firstByte g))
      | [] => .error (.malformed "need a character after \\")

/-- The text that contents with escapes stand for. -/
def unescaped (isLong : Bool) (t : Text) : Except Fault Text := do
  if t.contains (byte '\\') then unescape isLong (t.length + 1) t.glyphs
  else do
    require (t.glyphs.all isClean) "invalid UTF-8"
    return t

/-- A string on one line after its opening quote. -/
def basic (t : Text) : Except Fault (Text × Text) := do
  let (body, rest) ← basicBody t
  return (← unescaped false body, rest)

/-- A literal string on one line after its opening quote. -/
def literal (t : Text) : Except Fault (Text × Text) := do
  let (body, rest) ← literalBody t
  require (body.glyphs.all isClean) "invalid character"
  return (body, rest)

/-- A string that starts with a double quote. -/
def basicString (t : Text) : Except Fault (Text × Text) := do
  match Text.cutStart? (utf8 "\"\"\"") t with
  | some t =>
    let (body, rest) ← longBasicBody t
    return (← unescaped true (trimFirstLine body), rest)
  | none => basic (t.drop 1)

/-- A string that starts with a single quote. -/
def literalString (t : Text) : Except Fault (Text × Text) := do
  match Text.cutStart? (utf8 "'''") t with
  | some t =>
    let (body, rest) ← longLiteralBody t
    require (body.glyphs.all isClean) "invalid character"
    return (trimFirstLine body, rest)
  | none => literal (t.drop 1)

/-- Whether a byte may stand in a key without quotes. -/
def isKeyByte (b : UInt8) : Bool :=
  (byte 'a' ≤ b && b ≤ byte 'z') || (byte 'A' ≤ b && b ≤ byte 'Z') || Text.isDigit b ||
    b == byte '-' || b == byte '_'

/-- One part of a key. -/
def simpleKey : Text → Except Fault (Text × Text)
  | [] => .error (.malformed "expected key but found none")
  | b :: t =>
    if b == byte '\'' then literal t
    else if b == byte '"' then basic t
    else if isKeyByte b then .ok ((b :: t).takeWhile isKeyByte, (b :: t).dropWhile isKeyByte)
    else .error (.keyStart b)

/-- A key: parts with dots between them, by the number of parts left. -/
def keyParts : Nat → Text → Except Fault (List Text × Text)
  | 0, t => .ok ([], t)
  | fuel + 1, t => do
    let (part, rest) ← simpleKey t
    let rest := skipBlanks rest
    match Text.cutStart? (utf8 ".") rest with
    | none => return ([part], rest)
    | some more =>
      let (parts, rest) ← keyParts fuel (skipBlanks more)
      return (part :: parts, rest)

/-- A key and what follows it after blanks. -/
def key (t : Text) : Except Fault (List Text × Text) := keyParts (t.length + 1) t

/-- Whether a value starts as a date or a time does. -/
def startsMoment (t : Text) : Bool :=
  let digits := ((t.take 5).takeWhile Text.isDigit).length
  3 ≤ t.length && ((digits = 2 && hasAt t 2 ':') || (digits = 4 && hasAt t 4 '-'))

/-- How much of a text belongs to a date or time. One blank before a digit belongs to it. -/
def momentLength (afterBlank : Bool) : Text → Nat
  | [] => 0
  | b :: t =>
    if Text.isDigit b || (utf8 "-Tt:.+Zz").contains b then momentLength afterBlank t + 1
    else if b == byte ' ' && !afterBlank then
      match t with
      | d :: _ :: rest =>
        -- The two bytes after the blank are taken without a look at the second one.
        if Text.isDigit d then momentLength true rest + 3 else 0
      | [d] => if Text.isDigit d then 2 else 0
      | [] => 0
    else 0

/-- The parts that a written moment has. -/
def momentKind (t : Text) : MomentKind :=
  let hasTime := t.any (utf8 "Tt:. ").contains
  let hasZone := t.any (utf8 "+Zz").contains || (t.drop 8).contains (byte '-')
  if !hasTime then .date
  else if !t.contains (byte '-') then .time
  else if hasZone then .offsetDateTime
  else .dateTime

/-- The part of a text that is scanned as a number, with a word at its end when there is one. -/
def numberLength : Text → Except Fault Nat
  | [] => .ok 0
  | b :: t =>
    if Text.isDigit b || (utf8 "+-_.eE").contains b then do return (← numberLength t) + 1
    else if b == byte 'i' then do
      require ((utf8 "inf").isPrefixOf (b :: t))
        "unexpected character 'i' while scanning for a number"
      return 3
    else if b == byte 'n' then do
      require ((utf8 "nan").isPrefixOf (b :: t))
        "unexpected character 'n' while scanning for a number"
      return 3
    else .ok 0

/-- The digits of a base and underscores after its two-letter mark; none without such a mark. -/
def basedLength? (t : Text) : Option Nat :=
  let count (base : Nat) : Nat :=
    ((t.drop 2).takeWhile fun b => Decimal.isDigitOf base b || b == byte '_').length + 2
  if t.length ≤ 2 || t.head? != some (byte '0') || [".", "e", "E"].any (hasAt t 1 ·.front) then none
  else if hasAt t 1 'x' then some (count 16)
  else if hasAt t 1 'o' then some (count 8)
  else if hasAt t 1 'b' then some (count 2)
  else some 1

/-- A number. -/
def number (t : Text) : Except Fault (Term × Text) := do
  match basedLength? t with
  | some n => return (.integer (t.take n), t.drop n)
  | none =>
    let n ← numberLength t
    require (0 < n) "incomplete number"
    let written := t.take n
    let isReal := written.any (utf8 ".eEin").contains
    return (if isReal then .real written else .integer written, t.drop n)

/-- A number, a date or a time. -/
def numberOrMoment (t : Text) : Except Fault (Term × Text) := do
  if t.head? == some (byte 'i') then
    require ((utf8 "inf").isPrefixOf t) "expected 'inf'"
    return (.real (t.take 3), t.drop 3)
  else if t.head? == some (byte 'n') then
    require ((utf8 "nan").isPrefixOf t) "expected 'nan'"
    return (.real (t.take 3), t.drop 3)
  else if startsMoment t then
    let n := momentLength false t
    return (.moment (momentKind (t.take n)) (t.take n), t.drop n)
  else number t

mutual

/-- A value. -/
def value : Nat → Text → Except Fault (Term × Text)
  | 0, _ => .error (.malformed "expected value, not eof")
  | _ + 1, [] => .error (.malformed "expected value, not eof")
  | fuel + 1, b :: t => do
    if b == byte '"' then
      let (s, rest) ← basicString (b :: t)
      return (.text s, rest)
    else if b == byte '\'' then
      let (s, rest) ← literalString (b :: t)
      return (.text s, rest)
    else if b == byte 't' then
      require ((utf8 "rue").isPrefixOf t) "expected 'true'"
      return (.boolean true, t.drop 3)
    else if b == byte 'f' then
      require ((utf8 "alse").isPrefixOf t) "expected 'false'"
      return (.boolean false, t.drop 4)
    else if b == byte '[' then
      let (items, rest) ← items fuel true t
      return (.array items, rest)
    else if b == byte '\x7b' then
      let (entries, rest) ← entries fuel true t
      return (.table entries, rest)
    else numberOrMoment (b :: t)

/-- The items of an array up to its end. The flag tells whether none came before. -/
def items : Nat → Bool → Text → Except Fault (List Term × Text)
  | 0, _, _ => .error (.endedBefore ']')
  | _ + 1, _, [] => .error (.endedBefore ']')
  | fuel + 1, isFirst, b :: t => do
    match ← skip (b :: t) with
    | [] => .error (.malformed "array is incomplete")
    | b :: rest =>
      if b == byte ']' then return ([], rest)
      else
        let isComma := b == byte ','
        require (!(isComma && isFirst)) "array cannot start with comma"
        require (isComma || isFirst) "array elements must be separated by commas"
        let t ← if isComma then skip rest else pure (b :: rest)
        if t.head? == some (byte ']') then return ([], t.drop 1)
        else
          let (item, rest) ← value fuel t
          let (more, rest) ← items fuel false (← skip rest)
          return (item :: more, rest)

/-- The entries of a table on one line up to its end. -/
def entries : Nat → Bool → Text → Except Fault (List (List Text × Term) × Text)
  | 0, _, _ => .error (.endedBefore '\x7d')
  | _ + 1, _, [] => .error (.endedBefore '\x7d')
  | fuel + 1, isFirst, b :: t => do
    match skipBlanks (b :: t) with
    | [] => .error (.malformed "inline table is incomplete")
    | b :: rest =>
      if b == byte '\x7d' then return ([], rest)
      else
        let t ← if isFirst then pure (b :: rest) else expect ',' (b :: rest)
        let (path, t) ← key (skipBlanks t)
        require (!t.isEmpty) "expected = after a key, but the document ends there"
        let t ← expect '=' t
        let (term, rest) ← value fuel (skipBlanks t)
        let (more, rest) ← entries fuel false rest
        return ((path, term) :: more, rest)

end

/-- Turns a conflict into a fault. -/
def fitting {α : Type} : Except Conflict α → Except Fault α
  | .ok a => .ok a
  | .error c => .error (.conflict c)

/-- What a line says, without its comment and its end. -/
inductive Line where
  | blank
  | header (isArray : Bool) (path : List Text)
  | keyValue (path : List Text) (term : Term)

/-- A line up to its end. -/
def line (t : Text) : Except Fault (Line × Text) := do
  let t := skipBlanks t
  match t with
  | [] => return (.blank, [])
  | b :: rest =>
    if b == byte '#' then return (.blank, ← skipComment t)
    else if b == byte '\n' || b == byte '\r' then return (.blank, t)
    else if b == byte '[' then
      let isArray := rest.head? == some (byte '[')
      let (path, t) ← key (skipBlanks (if isArray then rest.drop 1 else rest))
      let t ← expect ']' t
      let t ← if isArray then expect ']' t else pure t
      return (.header isArray path, ← skipComment (skipBlanks t))
    else
      let (path, t) ← key t
      require (!t.isEmpty) "expected = after a key, but the document ends there"
      let t ← expect '=' t
      let (term, t) ← value (t.length + 1) (skipBlanks t)
      return (.keyValue path term, ← skipComment (skipBlanks t))

/-- Adds what a line says. A conflict with earlier lines counts before a value without meaning. -/
def Document.follow (d : Document) : Line → Except Fault Document
  | .blank => .ok d
  | .header isArray path => fitting (d.header isArray path)
  | .keyValue path term => do
    let meaning := term.toValue
    let d ← fitting (d.keyValue path (meaning.toOption.getD .null))
    let _ ← meaning
    return d

/-- The lines of a document, by the number of lines left. -/
def followLines : Nat → Document → Text → Except Fault Document
  | 0, d, _ => .ok d
  | fuel + 1, d, t => do
    let (l, rest) ← line t
    let d ← d.follow l
    match ← newline rest with
    | [] => return d
    | rest => followLines fuel d rest

/-- Reads a document. -/
def read (t : Text) : Except Fault Value := do
  let d ← followLines (t.length + 1) {} t
  return d.toValue

end FusionKit.Toml
