import FusionKit.Token.Lexer

/-!
# Sources as lexemes

The lexer described without a cursor: what stands at the start of some glyphs, as a token with the
number of glyphs after its first one, or as a fault, and the tokens of a whole source from that. The
context decides what a lexeme is and a mark where it lies, so facts about words need no places.
-/
namespace FusionKit

/-- What stands at the start of a source. -/
inductive Lexeme where
  /-- A token of the first glyph and `more` others. -/
  | token (type : TokenType) (more : Nat)
  /-- A fault located after `skip` glyphs and noticed after `reach` glyphs. -/
  | fault (skip reach : Nat) (cause : LexFault)
  deriving DecidableEq, Repr

namespace Lexeme

/-- How far a delimited text extends: the glyphs read, and whether its end was found. -/
structure Extent where
  closed : Bool
  count : Nat
  deriving DecidableEq, Repr

/-- The same end, `n` glyphs further on. -/
def Extent.further (n : Nat) (e : Extent) : Extent := { e with count := e.count + n }

/-- The line break at the start: one of carriage return, line feed, or both in this order. -/
def lineBreak : List Glyph → Nat
  | .char '\r' :: .char '\n' :: _ => 2
  | .char '\r' :: _ => 1
  | .char '\n' :: _ => 1
  | _ => 0

/-- The rest of a block comment. -/
def commentEnd : List Glyph → Extent
  | .char '*' :: .char '/' :: _ => ⟨true, 2⟩
  | .char _ :: gs => (commentEnd gs).further 1
  | _ => ⟨false, 0⟩

/-- The rest of a text on one line closed by `quote`; a backslash takes the next character
along. -/
def quoteEnd (quote : Char) : List Glyph → Extent
  | .char c :: gs =>
    if c == quote then ⟨true, 1⟩
    else if c == '\n' || c == '\r' then ⟨false, 1⟩
    else if c == '\\' then
      match gs with
      | .char _ :: ds => (quoteEnd quote ds).further 2
      | _ => ⟨false, 1⟩
    else (quoteEnd quote gs).further 1
  | _ => ⟨false, 0⟩

/-- The rest of a text closed by three single quotes. -/
def longEnd : List Glyph → Extent
  | .char '\'' :: .char '\'' :: .char '\'' :: _ => ⟨true, 3⟩
  | .char '\\' :: .char _ :: gs => (longEnd gs).further 2
  | .char '\\' :: _ => ⟨false, 1⟩
  | .char _ :: gs => (longEnd gs).further 1
  | _ => ⟨false, 0⟩

/-- A symbol of `1 + more` glyphs, or the annotation that it is part of. -/
def symbolOr (type : TokenType) (more : Nat) (rest : List Glyph) : Lexeme :=
  let mark := annotationMark rest
  if mark = 0 then .token type more else .token .annotate (more + mark)

/-- A keyword of `1 + more` glyphs, which cannot annotate. -/
def keyword (type : TokenType) (more : Nat) (g : Glyph) (gs : List Glyph) : Lexeme :=
  if annotationMark (gs.drop more) = 0 then .token type more
  else .fault 0 (more + 1) (.annotatingKeyword (Text.ofGlyphs (g :: gs.take more)))

/-- A typed or untyped null whose first four glyphs are read. -/
def nullLiteral (g : Glyph) (gs : List Glyph) : Lexeme :=
  match gs.drop 3 with
  | .char '.' :: rest =>
    let n := run isIdent rest
    let name := Text.ofGlyphs (rest.take n)
    if nullTypes.any (utf8 · == name) then keyword .null (n + 4) g gs
    else .fault 0 (n + 5) (.nullType name)
  | _ => keyword .null 3 g gs

/-- An identifier, a keyword or an annotation. -/
def identifier (g : Glyph) (gs : List Glyph) : Lexeme :=
  let more := run isIdent gs
  let name := Text.ofGlyphs (g :: gs.take more)
  if name == utf8 "null" then nullLiteral g gs
  else if name == utf8 "true" || name == utf8 "false" then keyword .bool more g gs
  else symbolOr .symbol more (gs.drop more)

/-- Further characters of an operator symbol, which ends before a comment. -/
def operatorRun : List Glyph → Nat
  | .char '/' :: .char '/' :: _ => 0
  | .char '/' :: .char '*' :: _ => 0
  | .char c :: gs => if isOperator c then operatorRun gs + 1 else 0
  | _ => 0

/-- A numeral, which has to end at a delimiter. -/
def numeral (inSExpr : Bool) (gs : List Glyph) : Lexeme :=
  match Numeral.longest? gs with
  | none => .fault 0 0 .numeral
  | some (type, n) =>
    match gs.drop n with
    | [] => .token type (n - 1)
    | g :: rest =>
      if mayFollowNumeral inSExpr (g :: rest) then .token type (n - 1)
      else .fault n n (.charInNumeral g.shown)

/-- The start of a clob, or a blob, after its two opening braces. -/
def lob (gs : List Glyph) : Lexeme :=
  if startsString (gs.drop (run isSpace gs)) then .token .clobOpen 1
  else
    match blobBody? gs with
    | none => .fault 0 0 .unterminatedBlob
    | some body =>
      match body.find? fun g => !(isSpace g.shown || isBase64 g.shown) with
      | some g => .fault 0 0 (.charInBlob g.shown)
      | none => .token .blob (body.length + 3)

/-- A token that starts with `before` glyphs and extends to the end of `e`. -/
def delimited (type : TokenType) (before : Nat) (e : Extent) (cause : LexFault) : Lexeme :=
  if e.closed then .token type (before + e.count - 1) else .fault 0 (before + e.count) cause

/-- A string after its opening quote. -/
def string (gs : List Glyph) : Lexeme :=
  delimited .string 1 (quoteEnd '"' gs) .unterminatedString

/-- A long string after its opening quotes. -/
def longString (gs : List Glyph) : Lexeme :=
  delimited .longString 3 (longEnd gs) .unterminatedLongString

/-- A quoted symbol after its opening quote, or an annotation. -/
def quotedSymbol (gs : List Glyph) : Lexeme :=
  let e := quoteEnd '\'' gs
  if e.closed then symbolOr .quotedSymbol e.count (gs.drop e.count)
  else .fault 0 (e.count + 1) .unterminatedSymbol

/-- A line comment after its two slashes, with its line break. -/
def lineComment (gs : List Glyph) : Lexeme :=
  let n := run (fun c => c != '\n' && c != '\r') gs
  .token .lineComment (1 + n + lineBreak (gs.drop n))

/-- A token that starts with the character `c`, when it is not a blank and starts none of the
delimiters of several characters. -/
def single (inSExpr : Bool) (c : Char) (gs : List Glyph) : Lexeme :=
  match c with
  | '(' => .token .parenOpen 0
  | ')' => .token .parenClose 0
  | '[' => .token .bracketOpen 0
  | ']' => .token .bracketClose 0
  | '\x7b' => .token .braceOpen 0
  | '\x7d' => .token .braceClose 0
  | ':' => .token .colon 0
  | ',' => .token .comma 0
  | '"' => string gs
  | '\'' => quotedSymbol gs
  | _ =>
    if Numeral.isDecimal c ||
        (c == '-' && (gs.head?.map (Glyph.isCharWith Numeral.isDecimal)).getD false) then
      numeral inSExpr (.char c :: gs)
    else if isIdentStart c then identifier (.char c) gs
    else if isOperator c then
      if inSExpr then .token .operator (operatorRun gs) else .fault 0 0 (.operatorOutside c)
    else .fault 0 0 (.unexpected c)

/-- The lexeme at the start of `g :: gs`, outside of clobs. -/
def read (inSExpr : Bool) (g : Glyph) (gs : List Glyph) : Lexeme :=
  match g with
  | .stray b => .fault 0 0 (.strayByte b)
  | .char c =>
    if isSpace c then .token .whitespace (run isSpace gs)
    else
      match c, gs with
      | '/', .char '/' :: rest => lineComment rest
      | '/', .char '*' :: rest => delimited .blockComment 2 (commentEnd rest) .unterminatedComment
      | '\x7b', .char '\x7b' :: rest => lob rest
      | '\'', .char '\'' :: .char '\'' :: rest => longString rest
      | _, _ => single inSExpr c gs

/-- The lexeme at the start of `g :: gs`, inside a clob. -/
def readInClob (g : Glyph) (gs : List Glyph) : Lexeme :=
  match g, gs with
  | .char '\x7d', .char '\x7d' :: _ => .token .clobClose 1
  | .char '\'', .char '\'' :: .char '\'' :: rest => longString rest
  | .char '"', _ => string gs
  | _, _ =>
    if g.isCharWith isSpace then .token .whitespace (run isSpace gs)
    else .fault 0 0 (.charInClob g.shown)

end Lexeme

/-- The lexeme at the start of `g :: gs`. -/
def LexContext.lexeme (c : LexContext) (g : Glyph) (gs : List Glyph) : Lexeme :=
  if c.inClob then Lexeme.readInClob g gs else Lexeme.read c.inSExpr g gs

namespace Token

/-- A token without text at a mark. -/
def bare (file : Text) (type : TokenType) (text : Text) (m : Mark) : Token :=
  ⟨type, text, ⟨m.offset, m.offset⟩, .ofMark file m⟩

/-- The token made of some glyphs from a mark on. -/
def ofGlyphs (file : Text) (type : TokenType) (m : Mark) (gs : List Glyph) : Token :=
  ⟨type, Text.ofGlyphs gs, ⟨m.offset, (m.after (Text.ofGlyphs gs)).offset⟩, .ofMark file m⟩

/-- The tokens of what is left of a source, whose start has the mark `m`, and the end token. -/
def scan (file : Text) (c : LexContext) (m : Mark) : List Glyph → List Token × Token
  | [] =>
    if c.inClob then
      ([bare file .error LexFault.unterminatedClob.message m], bare file .eof [] m)
    else ([], bare file .eof [] m)
  | g :: gs =>
    match c.lexeme g gs with
    | .token type more =>
      let body := g :: gs.take more
      let (tokens, last) := scan file (c.after type) (m.after (Text.ofGlyphs body)) (gs.drop more)
      (ofGlyphs file type m body :: tokens, last)
    | .fault skip reach cause =>
      ([bare file .error cause.message (m.after (Text.ofGlyphs ((g :: gs).take skip)))],
        bare file .eof [] (m.after (Text.ofGlyphs ((g :: gs).take reach))))
termination_by gs => gs.length
decreasing_by simp only [List.length_drop, List.length_cons]; omega

end Token

end FusionKit
