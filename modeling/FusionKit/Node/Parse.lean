import FusionKit.Node
import FusionKit.Token.Stream
import FusionKit.Text.Lines

/-!
# Parsing

Tokens become nodes one by one. What is read but not finished is a stack of frames, one for each
open form, the innermost first; the annotations in front of a value that has not come yet stand
apart. A token extends the innermost frame, opens a new one or closes it, and a token that does
none of these is the place of a syntax error.

`Reading.step` is the whole grammar: nothing here recurses but the walk along the tokens.
-/
namespace FusionKit

/-- Why a sequence of tokens is no program. -/
inductive SyntaxFault where
  /-- No token could be read; the message says why. -/
  | noToken (message : Text)
  | unmatched (opening : Text)
  | endOfInput
  | unexpected (type : TokenType)
  | strayComma (owner : Kind)
  | noSeparator (owner : Kind)
  | noOpening (type : TokenType)
  | noKey
  | annotatedKey
  | noColon (key : Text)
  | notInClob (type : TokenType)
  deriving DecidableEq, Repr

/-- What closes a list or a struct, and what it is called. -/
def SyntaxFault.closing : Kind → String × String
  | .list => ("]", "list")
  | _ => ("\x7d", "struct")

/-- The message for a fault. -/
def SyntaxFault.message : SyntaxFault → Text
  | noToken message => message
  | unmatched opening => utf8 "unmatched " ++ opening
  | endOfInput => utf8 "unexpected end of input"
  | unexpected type => utf8 "unexpected token: " ++ utf8 type.name
  | strayComma owner => utf8 "unexpected , in " ++ utf8 (closing owner).2
  | noSeparator owner =>
    utf8 "expected , or " ++ utf8 (closing owner).1 ++ utf8 " in " ++ utf8 (closing owner).2
  | noOpening type => utf8 "expected " ++ utf8 type.name
  | noKey => utf8 "expected struct key"
  | annotatedKey => utf8 "struct keys cannot be annotated"
  | noColon key => utf8 "expected : after struct key " ++ key
  | notInClob type => utf8 "unexpected token in clob: " ++ utf8 type.name

/-- A fault at its place. -/
structure SyntaxError where
  location : Location
  fault : SyntaxFault
  deriving DecidableEq, Repr

/-- The message for a syntax error, with its place. -/
def SyntaxError.render (e : SyntaxError) : Text :=
  e.location.render ++ utf8 ": " ++ e.fault.message

/-- The lines of a block comment: each without white space around it, and without a star in
front and one space after that. -/
def commentLines (comment : Text) : List Text :=
  let body := Text.trimEnd (utf8 "*/") (Text.trimStart (utf8 "/*") comment)
  body.lines.map fun line =>
    match line.strip with
    | b :: rest => if b == byte '*' then Text.trimStart [byte ' '] rest else b :: rest
    | [] => []

namespace Node

/-- A node without items that stands for one token. -/
def leaf (kind : Kind) (t : Token) (value : Text) : Node := ⟨{ kind, span := t.span, value }, []⟩

/-- The newline run of a white space token, if it holds a line break. -/
def newlines? (t : Token) : List Node :=
  match t.text.countBreaks with
  | 0 => []
  | n + 1 => [⟨{ kind := .newlines, span := t.span, count := n + 1 }, []⟩]

/-- The nodes for white space and comments; none for other tokens. -/
def trivia? (t : Token) : Option (List Node) :=
  match t.type with
  | .whitespace => some (newlines? t)
  | .lineComment =>
    some [leaf .commentLine t (Text.dropEndWhile Text.isSpace t.text),
      ⟨{ kind := .newlines, span := t.span, count := 1 }, []⟩]
  | .blockComment =>
    some [⟨{ kind := .commentBlock, span := t.span, lines := commentLines t.text }, []⟩]
  | _ => none

/-- A text without the quotes around it. -/
def unwrap (opening closing : String) (t : Text) : Text :=
  Text.trimEnd (utf8 closing) (Text.trimStart (utf8 opening) t)

/-- The node of a token that is a value by itself. -/
def scalar? (t : Token) : Option Node :=
  match t.type with
  | .null => some (leaf .null t t.text)
  | .bool => some (leaf .boolean t t.text)
  | .int => some (leaf .integer t t.text)
  | .real => some (leaf .real t t.text)
  | .timestamp => some (leaf .timestamp t t.text)
  | .symbol | .quotedSymbol | .operator => some (leaf .symbol t t.text)
  | .string => some (leaf .quotedString t (unwrap "\"" "\"" t.text))
  | .longString => some (leaf .multilineString t (unwrap "'''" "'''" t.text))
  | .blob => some (leaf .blob t (unwrap "\x7b\x7b" "\x7d\x7d" t.text).strip)
  | _ => none

/-- The same node with annotations, if there are any. -/
def annotated (annotations : List Text) (n : Node) : Node :=
  if annotations.isEmpty then n else { n with label := { n.label with annotations } }

/-- The node of a form from its opening to its closing token; the items come last first. -/
def ofForm (kind : Kind) (annotations : List Text) (opening closing : Token)
    (reversed : List Node) : Node :=
  annotated annotations
    ⟨{ kind, span := opening.span.join closing.span }, reversed.reverse⟩

/-- The member of a struct with a key and a value; `reversed` are the nodes from the key up to
the value, last first. -/
def ofMember (key value : Node) (reversed : List Node) : Node :=
  ⟨{ kind := .structMember, span := key.span.join value.span }, (value :: reversed).reverse⟩

end Node

/-- Where the reading of a struct stands. -/
inductive MemberPhase where
  /-- Between members; a comma must come before the next one unless `ready`. -/
  | between (ready : Bool)
  /-- After a key; `reversed` starts with what follows it and ends with the key. -/
  | afterKey (key : Node) (reversed : List Node)
  /-- After a key and its colon. -/
  | afterColon (key : Node) (reversed : List Node)
  deriving Repr

/-- A form that is open, with its opening token, its annotations and its items, last first. -/
inductive Frame where
  | sexpr (opening : Token) (annotations : List Text) (items : List Node)
  | list (opening : Token) (annotations : List Text) (items : List Node) (ready : Bool)
  | struct (opening : Token) (annotations : List Text) (items : List Node) (phase : MemberPhase)
  | clob (opening : Token) (annotations : List Text) (items : List Node)
  deriving Repr

namespace Frame

/-- The token that opened a frame. -/
def opening : Frame → Token
  | sexpr o .. | list o .. | struct o .. | clob o .. => o

/-- The frame after comments and newline runs. -/
def keep (trivia : List Node) : Frame → Frame
  | sexpr o a items => sexpr o a (trivia.reverse ++ items)
  | list o a items ready => list o a (trivia.reverse ++ items) ready
  | struct o a items (.afterKey key r) => struct o a items (.afterKey key (trivia.reverse ++ r))
  | struct o a items (.afterColon key r) =>
    struct o a items (.afterColon key (trivia.reverse ++ r))
  | struct o a items phase => struct o a (trivia.reverse ++ items) phase
  | clob o a items => clob o a (trivia.reverse ++ items)

/-- The frame after a value. -/
def push (n : Node) : Frame → Frame
  | sexpr o a items => sexpr o a (n :: items)
  | list o a items _ => list o a (n :: items) false
  | struct o a items (.afterColon key r) =>
    struct o a (Node.ofMember key n r :: items) (.between false)
  | struct o a items phase => struct o a (n :: items) phase
  | clob o a items => clob o a (n :: items)

end Frame

/-- Annotations read in front of a value, and whether one run of blanks may still follow. -/
structure Pending where
  annotations : List Text
  mayBlank : Bool
  deriving Repr

/-- What has been read: the finished top-level nodes, last first, the open forms, the innermost
first, and the annotations of a value to come. -/
structure Reading where
  done : List Node := []
  frames : List Frame := []
  pending : Option Pending := none
  deriving Repr

namespace Reading

/-- Whether nothing is left unfinished. -/
def isIdle (r : Reading) : Bool := r.frames.isEmpty && r.pending.isNone

/-- A syntax error at a token. -/
def fail {α : Type} (t : Token) (fault : SyntaxFault) : Except SyntaxError α :=
  .error ⟨t.location, fault⟩

/-- A syntax error at a token that was only looked at: a token that could not be read is
reported as such. -/
def failAt {α : Type} (t : Token) (fault : SyntaxFault) : Except SyntaxError α :=
  if t.type = .error then fail t (.noToken t.text) else fail t fault

/-- The reading after a finished value. -/
def deliver (r : Reading) (n : Node) : Reading :=
  match r.frames with
  | [] => { r with done := n :: r.done, pending := none }
  | f :: fs => { r with frames := f.push n :: fs, pending := none }

/-- The reading after comments and newline runs. -/
def keep (r : Reading) (trivia : List Node) : Reading :=
  match r.frames with
  | [] => { r with done := trivia.reverse ++ r.done }
  | f :: fs => { r with frames := f.keep trivia :: fs }

/-- The reading with a further open form. -/
def enter (r : Reading) (f : Frame) : Reading := { r with frames := f :: r.frames, pending := none }

/-- The reading after the innermost form, whose other frames are `fs`, is closed as `n`. -/
def close (r : Reading) (fs : List Frame) (n : Node) : Reading :=
  { r with frames := fs }.deliver n

/-- The first token of a value with the given annotations. -/
def value (r : Reading) (annotations : List Text) (t : Token) : Except SyntaxError Reading :=
  match Node.scalar? t with
  | some n => .ok (r.deliver (n.annotated annotations))
  | none =>
    match t.type with
    | .parenOpen => .ok (r.enter (.sexpr t annotations []))
    | .bracketOpen => .ok (r.enter (.list t annotations [] true))
    | .braceOpen => .ok (r.enter (.struct t annotations [] (.between true)))
    | .clobOpen => .ok (r.enter (.clob t annotations []))
    | .error | .invalid => fail t (.noToken t.text)
    | .eof => fail t .endOfInput
    | type => fail t (.unexpected type)

/-- The first token of a value, annotations included. -/
def expression (r : Reading) (t : Token) : Except SyntaxError Reading :=
  if t.type = .annotate then .ok { r with pending := some ⟨[t.text], true⟩ } else r.value [] t

/-- A token after annotations. -/
def annotated (r : Reading) (p : Pending) (t : Token) : Except SyntaxError Reading :=
  match t.type with
  | .annotate => .ok { r with pending := some ⟨p.annotations ++ [t.text], true⟩ }
  | .whitespace =>
    if p.mayBlank then .ok { r with pending := some { p with mayBlank := false } }
    else r.value p.annotations t
  | _ => r.value p.annotations t

/-- A token of a clob. -/
def inClob (r : Reading) (fs : List Frame) (opening : Token) (annotations : List Text)
    (items : List Node) (t : Token) : Except SyntaxError Reading :=
  match t.type with
  | .clobClose => .ok (r.close fs (.ofForm .clob annotations opening t items))
  | .whitespace => .ok (r.keep (Node.newlines? t))
  | .string | .longString => r.value [] t
  | .error => fail t (.noToken t.text)
  | .eof => fail opening (.unmatched opening.text)
  | type => fail t (.notInClob type)

/-- A token of an s-expression that is no trivia. -/
def inSExpr (r : Reading) (fs : List Frame) (opening : Token) (annotations : List Text)
    (items : List Node) (t : Token) : Except SyntaxError Reading :=
  match t.type with
  | .eof => fail opening (.unmatched opening.text)
  | .parenClose => .ok (r.close fs (.ofForm .sexpr annotations opening t items))
  | _ => r.expression t

/-- A token of a list that is no trivia. -/
def inList (r : Reading) (fs : List Frame) (opening : Token) (annotations : List Text)
    (items : List Node) (ready : Bool) (t : Token) : Except SyntaxError Reading :=
  match t.type with
  | .eof => fail opening (.unmatched opening.text)
  | .bracketClose => .ok (r.close fs (.ofForm .list annotations opening t items))
  | .comma =>
    if ready then fail t (.strayComma .list)
    else .ok { r with frames := .list opening annotations items true :: fs }
  | _ => if ready then r.expression t else failAt t (.noSeparator .list)

/-- A token between the members of a struct that is no trivia. -/
def inStruct (r : Reading) (fs : List Frame) (opening : Token) (annotations : List Text)
    (items : List Node) (ready : Bool) (t : Token) : Except SyntaxError Reading :=
  let go (phase : MemberPhase) : Except SyntaxError Reading :=
    .ok { r with frames := .struct opening annotations items phase :: fs }
  match t.type with
  | .eof => fail opening (.unmatched opening.text)
  | .braceClose => .ok (r.close fs (.ofForm .struct annotations opening t items))
  | .comma => if ready then fail t (.strayComma .struct) else go (.between true)
  | type =>
    if !ready then failAt t (.noSeparator .struct)
    else
      match type with
      | .symbol | .quotedSymbol | .string | .longString =>
        let key := Node.leaf .structKey t t.text
        go (.afterKey key [key])
      | .annotate => fail t .annotatedKey
      | _ => failAt t .noKey

/-- The reading after one more token. -/
def step (r : Reading) (t : Token) : Except SyntaxError Reading :=
  match r.pending, r.frames with
  | some p, _ => r.annotated p t
  | none, .clob o a items :: fs => r.inClob fs o a items t
  | none, frames =>
    match Node.trivia? t with
    | some trivia => .ok (r.keep trivia)
    | none =>
      match frames with
      | .sexpr o a items :: fs => r.inSExpr fs o a items t
      | .list o a items ready :: fs => r.inList fs o a items ready t
      | .struct o a items (.between ready) :: fs => r.inStruct fs o a items ready t
      | .struct o a items (.afterKey key rev) :: fs =>
        if t.type = .colon then
          .ok { r with frames := .struct o a items (.afterColon key rev) :: fs }
        else failAt t (.noColon key.value)
      | _ => r.expression t

/-- The end of a program. -/
def finish (r : Reading) (last : Token) : Except SyntaxError (List Node) :=
  if r.isIdle then .ok r.done.reverse else (r.step last).map fun r => r.done.reverse

/-- Reads a program to its end. -/
def program (last : Token) (r : Reading) : List Token → Except SyntaxError (List Node)
  | [] => r.finish last
  | t :: ts => if t.type = .eof then r.finish t else (r.step t).bind fun r => program last r ts

/-- The first finished node, once nothing is left open. -/
def finished? (r : Reading) : Option Node := if r.isIdle then r.done.head? else none

/-- Reads on until one value is finished. -/
def single (last : Token) (r : Reading) : List Token → Except SyntaxError (Node × List Token)
  | [] =>
    match r.finished? with
    | some n => .ok (n, [])
    | none =>
      (r.step last).bind fun r =>
        match r.finished? with
        | some n => .ok (n, [])
        | none => fail last .endOfInput
  | t :: ts =>
    match r.finished? with
    | some n => .ok (n, t :: ts)
    | none => (r.step t).bind fun r => single last r ts

end Reading

namespace TokenStream

/-- The top-level nodes of a token stream. -/
def program (s : TokenStream) : Except SyntaxError (List Node) := Reading.program s.last {} s.tokens

/-- One possibly annotated value at the start of a stream, and the stream after it. -/
def expression (s : TokenStream) : Except SyntaxError (Node × TokenStream) :=
  (Reading.expression {} s.peek).bind fun r =>
    (r.single s.last s.tail.tokens).map fun (n, ts) => (n, { s with tokens := ts })

/-- One form without annotations that starts with the given token. -/
def form (opening : TokenType) (s : TokenStream) : Except SyntaxError (Node × TokenStream) :=
  if s.peek.type = opening then s.expression else Reading.failAt s.peek (.noOpening opening)

end TokenStream

/-- The top-level nodes of a source; `file` names it in errors. -/
def parse (file source : Text) : Except SyntaxError (List Node) :=
  (TokenStream.ofSource file source).program

end FusionKit
