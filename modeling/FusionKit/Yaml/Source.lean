import FusionKit.Yaml.Fault

/-!
# The characters of a document

A document is written in UTF-8, or in UTF-16 when a byte order mark says so. Control characters
other than tabs and line ends have no place in it.
-/
namespace FusionKit.Yaml

/-- Whether a character may stand in a document. -/
def isAllowed (n : Nat) : Bool :=
  n == 0x09 || n == 0x0a || n == 0x0d || (0x20 ≤ n && n ≤ 0x7e) || n == 0x85 ||
    (0xa0 ≤ n && n ≤ 0xd7ff) || (0xe000 ≤ n && n ≤ 0xfffd) || (0x10000 ≤ n && n ≤ 0x10ffff)

/-- The number of bytes of a character, by its first one; zero when no character starts so. -/
def widthOf (b : UInt8) : Nat :=
  if b < 0x80 then 1
  else if b < 0xc0 then 0
  else if b < 0xe0 then 2
  else if b < 0xf0 then 3
  else if b < 0xf8 then 4
  else 0

/-- The bits of a first byte that belong to the character. -/
def leadingBits (width : Nat) (b : UInt8) : Nat :=
  if width = 1 then b.toNat
  else if width = 2 then b.toNat % 0x20
  else if width = 3 then b.toNat % 0x10
  else b.toNat % 0x08

/-- The least character that needs a number of bytes. -/
def leastOfWidth (width : Nat) : Nat :=
  if width = 2 then 0x80 else if width = 3 then 0x800 else if width = 4 then 0x10000 else 0

/-- The character at the start of UTF-8 bytes, and what follows it. -/
def utf8Char (b : UInt8) (t : Text) : Except Fault (Nat × Text) :=
  let width := widthOf b
  let trailing := t.take (width - 1)
  if width = 0 then .error (.encoding "invalid leading UTF-8 octet")
  else if trailing.length + 1 < width then .error (.encoding "incomplete UTF-8 octet sequence")
  else if trailing.any fun c => c < 0x80 || 0xc0 ≤ c then
    .error (.encoding "invalid trailing UTF-8 octet")
  else
    let n := trailing.foldl (fun n c => n * 0x40 + c.toNat % 0x40) (leadingBits width b)
    if n < leastOfWidth width then .error (.encoding "invalid length of a UTF-8 sequence")
    else if (0xd800 ≤ n && n ≤ 0xdfff) || 0x10ffff < n then
      .error (.encoding "invalid Unicode character")
    else .ok (n, t.drop (width - 1))

/-- The unit of UTF-16 in two bytes. -/
def unitOf (bigEndian : Bool) (b c : UInt8) : Nat :=
  if bigEndian then b.toNat * 0x100 + c.toNat else c.toNat * 0x100 + b.toNat

/-- The character at the start of UTF-16 bytes, and what follows it. -/
def utf16Char (bigEndian : Bool) (b : UInt8) : Text → Except Fault (Nat × Text)
  | [] => .error (.encoding "incomplete UTF-16 character")
  | c :: t =>
    let n := unitOf bigEndian b c
    if 0xdc00 ≤ n && n ≤ 0xdfff then .error (.encoding "unexpected low surrogate area")
    else if 0xd800 ≤ n && n ≤ 0xdbff then
      match t with
      | d :: e :: t =>
        let low := unitOf bigEndian d e
        if 0xdc00 ≤ low && low ≤ 0xdfff then
          .ok (0x10000 + (n - 0xd800) * 0x400 + (low - 0xdc00), t)
        else .error (.encoding "expected low surrogate area")
      | _ => .error (.encoding "incomplete UTF-16 surrogate pair")
    else .ok (n, t)

/-- The characters that `first` reads off bytes, one after the other. Every character takes a byte
at least, so the number of bytes is fuel enough. -/
def charsBy (first : UInt8 → Text → Except Fault (Nat × Text)) :
    Nat → Text → Except Fault (List Char)
  | 0, _ => .ok []
  | _ + 1, [] => .ok []
  | fuel + 1, b :: t => do
    let (n, rest) ← first b t
    if isAllowed n then return Char.ofNat n :: (← charsBy first fuel rest)
    else .error (.encoding "control characters are not allowed")

/-- The characters of a document. -/
def charsOf (t : Text) : Except Fault (List Char) :=
  match t with
  | 0xff :: 0xfe :: rest => charsBy (utf16Char false) t.length rest
  | 0xfe :: 0xff :: rest => charsBy (utf16Char true) t.length rest
  | 0xef :: 0xbb :: 0xbf :: rest => charsBy utf8Char t.length rest
  | _ => charsBy utf8Char t.length t

end FusionKit.Yaml
