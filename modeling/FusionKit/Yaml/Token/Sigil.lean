import FusionKit.Yaml.Token.Lexeme

/-!
# Anchors, tags and directives

The words that a sign announces: names of nodes, types of nodes, and what a document says of
itself before it starts.
-/
namespace FusionKit.Yaml

/-- The name of an anchor or of a reference to one, after its sign. -/
def anchorName (start : Mark) (s : Spot) : Except Fault (Text × Spot) :=
  let (name, s) := s.span isNameChar
  let ends := atWordEnd s.rest ||
    (s.rest.head?.any fun c => ['?', ':', ',', ']', '\x7d', '%', '@', '\x60'].contains c)
  if name.isEmpty || !ends then
    .error (s.fault start "did not find expected alphabetic or numeric character")
  else .ok (Text.ofChars name, s)

/-- Whether a character may stand in a tag as it is. -/
def isTagChar (c : Char) : Bool :=
  isNameChar c ||
    [';', '/', '?', ':', '@', '&', '=', '+', '$', ',', '.', '!', '~', '*', '\'', '(', ')', '[',
      ']'].contains c

/-- The byte that a percent sign and two digits stand for. -/
def escapedByte? : List Char → Option UInt8
  | '%' :: a :: b :: _ => do return ((← hexDigit? a) * 16 + (← hexDigit? b)).toUInt8
  | _ => none

/-- The bytes of an escaped character after its first one. -/
def escapedRest (start : Mark) : Nat → Spot → Except Fault (Text × Spot)
  | 0, s => .ok ([], s)
  | n + 1, s => do
    match escapedByte? s.rest with
    | none => .error (s.fault start "did not find URI escaped octet")
    | some b =>
      if b < 0x80 || 0xc0 ≤ b then
        .error (s.fault start "found an incorrect trailing UTF-8 octet")
      let (bytes, s) ← escapedRest start n (s.drop 3)
      return (b :: bytes, s)

/-- The bytes of an escaped character. -/
def escapedBytes (start : Mark) (s : Spot) : Except Fault (Text × Spot) := do
  match escapedByte? s.rest with
  | none => .error (s.fault start "did not find URI escaped octet")
  | some b =>
    let width := widthOf b
    if width = 0 then .error (s.fault start "found an incorrect leading UTF-8 octet")
    let (bytes, s) ← escapedRest start (width - 1) (s.drop 3)
    return (b :: bytes, s)

/-- The rest of a tag. Every step takes a character at least, so their number is fuel enough. -/
def tagRest (start : Mark) : Nat → Spot → Except Fault (Text × Spot)
  | 0, s => .ok ([], s)
  | fuel + 1, s => do
    let (plain, s) := s.span isTagChar
    if startsWith '%' s.rest then
      let (bytes, s) ← escapedBytes start s
      let (rest, s) ← tagRest start fuel s
      return (Text.ofChars plain ++ bytes ++ rest, s)
    else return (Text.ofChars plain, s)

/-- The rest of a tag, which must not be empty unless something comes before it. -/
def tagUri (start : Mark) (hasHead : Bool) (s : Spot) : Except Fault (Text × Spot) := do
  let (uri, s') ← tagRest start (s.rest.length + 1) s
  if uri.isEmpty && !hasHead then .error (s.fault start "did not find expected tag URI")
  return (uri, s')

/-- The handle of a tag: an exclamation mark, perhaps a name, and perhaps another mark. -/
def tagHandle (start : Mark) (s : Spot) : Except Fault (List Char × Spot) :=
  if !startsWith '!' s.rest then .error (s.fault start "did not find expected '!'")
  else
    let (name, s) := (s.drop 1).span isNameChar
    if startsWith '!' s.rest then .ok ('!' :: name ++ ['!'], s.drop 1) else .ok ('!' :: name, s)

/-- A tag: its handle and the rest. -/
def tagAt (start : Mark) (s : Spot) : Except Fault (TokenKind × Spot) := do
  let (kind, s) ←
    if ['!', '<'].isPrefixOf s.rest then do
      let (suffix, s) ← tagUri start false (s.drop 2)
      if !startsWith '>' s.rest then .error (s.fault start "did not find the expected '>'")
      pure (TokenKind.tag [] suffix, s.drop 1)
    else do
      let (handle, s) ← tagHandle start s
      if 1 < handle.length && handle.getLast? == some '!' then do
        let (suffix, s) ← tagUri start false s
        pure (TokenKind.tag (Text.ofChars handle) suffix, s)
      else do
        let (rest, s) ← tagUri start true s
        let suffix := Text.ofChars (handle.drop 1) ++ rest
        if suffix.isEmpty then pure (TokenKind.tag [] (utf8 "!"), s)
        else pure (TokenKind.tag (utf8 "!") suffix, s)
  if !atWordEnd s.rest then
    .error (s.fault start "did not find expected whitespace or line break")
  return (kind, s)

/-- A part of the number of a version. -/
def versionPart (start : Mark) (s : Spot) : Except Fault (Nat × Spot) :=
  let (digits, after) := s.span Char.isDigit
  if digits.isEmpty then .error (s.fault start "did not find expected version number")
  else if 2 < digits.length then .error (s.fault start "found extremely long version number")
  else .ok (Decimal.natOf 10 (digits.map byte), after)

/-- The version that a directive states. -/
def versionAt (start : Mark) (s : Spot) : Except Fault (TokenKind × Spot) := do
  let (major, s) ← versionPart start (s.skipWhile isGap)
  if !startsWith '.' s.rest then
    .error (s.fault start "did not find expected digit or '.' character")
  let (minor, s) ← versionPart start (s.drop 1)
  return (.version major minor, s)

/-- The handle of tags that a directive states, and what it stands for. -/
def tagDirectiveAt (start : Mark) (s : Spot) : Except Fault (TokenKind × Spot) := do
  let (handle, s) ← tagHandle start (s.skipWhile isGap)
  if 1 < handle.length && handle.getLast? != some '!' then
    .error (s.fault start "did not find expected '!'")
  if !(s.rest.head?.any isGap) then .error (s.fault start "did not find expected whitespace")
  let (meaning, s) ← tagUri start false (s.skipWhile isGap)
  if !atWordEnd s.rest then
    .error (s.fault start "did not find expected whitespace or line break")
  return (.tagHandle (Text.ofChars handle) meaning, s)

/-- A directive at its percent sign, and the spot after its line. -/
def directiveAt (s : Spot) : Except Fault (TokenKind × Spot) := do
  let start := s.mark
  let (name, s) := (s.drop 1).span isNameChar
  if name.isEmpty then .error (s.fault start "could not find expected directive name")
  if !atWordEnd s.rest then
    .error (s.fault start "found unexpected non-alphabetical character")
  let (kind, s) ←
    if Text.ofChars name == utf8 "YAML" then versionAt start s
    else if Text.ofChars name == utf8 "TAG" then tagDirectiveAt start s
    else .error (s.fault start "found unknown directive name")
  let s := s.skipWhile isGap
  let s := if startsWith '#' s.rest then s.skipWhile (!isBreak ·) else s
  if !atLineEnd s.rest then
    .error (s.fault start "did not find expected comment or line break")
  return (kind, s.drop 1)

end FusionKit.Yaml
