import FusionKit.Yaml.Token.Sigil

/-!
# The tokens of a document

Tokens are scanned a little ahead of the one who takes them. Two kinds of them are written nowhere:
an indent opens and closes collections, and a key is known for one only when the colon behind it is
found. So a place where a key may have started is kept as a candidate, one for each open bracket
and one for the document, and tokens from there on wait until the candidate is settled.
-/
namespace FusionKit.Yaml

/-- A token at which a key may have started, on the same line and not too far back. -/
structure Candidate where
  /-- Whether nothing but a key can stand there. -/
  required : Bool
  /-- How many tokens come before it. -/
  number : Nat
  mark : Mark
  deriving Repr, Inhabited

/-- The tokens of a document: those that wait to be taken, and where the others come from. -/
structure Queue where
  here : Spot
  started : Bool := false
  waiting : List Token := []
  /-- How many tokens have been taken. -/
  taken : Nat := 0
  /-- The column of the innermost collection that an indent has opened. -/
  indent : Int := -1
  /-- The columns of those around it, innermost first. -/
  indents : List Int := []
  /-- The candidates of the open brackets, innermost first, and at last that of the document. -/
  candidates : List (Option Candidate) := [none]
  /-- Whether a key may start here. -/
  keyAllowed : Bool := true
  /-- More than the number of steps of scanning that there can be: every step but the last ones
  takes a character. -/
  budget : Nat
  deriving Repr, Inhabited

/-- How deep brackets and indents may be nested. -/
def maxDepth : Nat := 10000

/-- How far behind its start a key may have its colon. -/
def keyReach : Nat := 1024

/-- How far the next comment may be for the lines between to count as part of the comments. -/
def commentReach : Nat := 510

/-- What a scanner goes through between two tokens. -/
inductive Lull where
  | blanks
  | comment
  /-- Blanks and line ends between two comments. -/
  | interlude
  deriving DecidableEq, Repr

/-- Whether another comment is all that follows for a while. -/
def nearsComment (cs : List Char) : Bool :=
  let gap := cs.takeWhile fun c => isGap c || isBreak c
  gap.length ≤ commentReach && startsWith '#' (cs.drop gap.length)

/-- The spot of the next token, and whether a key may start there. A tab is no indent, so where a
key may start it is not passed over, unless it stands between comments. -/
def toNextToken (inFlow keyAllowed : Bool) (m : Mark) : Lull → List Char → Bool × Spot
  | _, [] => (keyAllowed, ⟨m, []⟩)
  | .comment, c :: cs =>
    if isBreak c then
      let lull := if nearsComment cs then .interlude else .blanks
      toNextToken inFlow (keyAllowed || !inFlow) (m.pass c) lull cs
    else toNextToken inFlow keyAllowed (m.pass c) .comment cs
  | .interlude, c :: cs =>
    toNextToken inFlow keyAllowed (m.pass c) (if c == '#' then .comment else .interlude) cs
  | .blanks, c :: cs =>
    if c == ' ' || (c == '\t' && (inFlow || !keyAllowed)) || (c == '\ufeff' && m.index = 0) then
      toNextToken inFlow keyAllowed (m.pass c) .blanks cs
    else if c == '#' then toNextToken inFlow keyAllowed (m.pass c) .comment cs
    else if isBreak c then
      toNextToken inFlow (keyAllowed || !inFlow) (m.pass c) .blanks cs
    else (keyAllowed, ⟨m, c :: cs⟩)

namespace Queue

/-- The tokens of characters. -/
def ofChars (cs : List Char) : Queue :=
  { here := ⟨{}, unified cs⟩, budget := cs.length + 8 }

/-- Whether a bracket is open. -/
def inFlow (q : Queue) : Bool :=
  match q.candidates with
  | _ :: _ :: _ => true
  | _ => false

/-- How many tokens there have been. -/
def count (q : Queue) : Nat := q.taken + q.waiting.length

/-- A queue with one more token. -/
def push (q : Queue) (mark : Mark) (kind : TokenKind) : Queue :=
  { q with waiting := q.waiting ++ [⟨kind, mark⟩] }

/-- A queue with a token put before the one with a number. -/
def pushAt (q : Queue) (number : Nat) (mark : Mark) (kind : TokenKind) : Queue :=
  let i := number - q.taken
  { q with waiting := q.waiting.take i ++ ⟨kind, mark⟩ :: q.waiting.drop i }

/-- A queue with one more token that takes `n` characters. -/
def pushChars (q : Queue) (n : Nat) (kind : TokenKind) : Queue :=
  { q.push q.here.mark kind with here := q.here.drop n }

/-- The fault of a token that starts at `start` and goes wrong here. -/
def fault (q : Queue) (start : Mark) (reason : String) : Fault := q.here.fault start reason

/-- The fault of a key without a colon. -/
def noColon (q : Queue) (c : Candidate) : Fault := q.fault c.mark "could not find expected ':'"

/-- Whether a candidate can still become a key. -/
def isAlive (q : Queue) (c : Candidate) : Except Fault Bool :=
  if c.mark.line < q.here.mark.line || c.mark.index + keyReach < q.here.mark.index then
    if c.required then .error (q.noColon c) else .ok false
  else .ok true

/-- The candidate of the innermost bracket. -/
def candidate? (q : Queue) : Option Candidate := q.candidates.head?.join

/-- A queue with another candidate for the innermost bracket. -/
def setCandidate (q : Queue) (c : Option Candidate) : Queue :=
  { q with candidates := c :: q.candidates.tail }

/-- Gives up the candidate of the innermost bracket, unless it has to be a key. -/
def dropCandidate (q : Queue) : Except Fault Queue :=
  match q.candidate? with
  | some c => if c.required then .error (q.noColon c) else .ok (q.setCandidate none)
  | none => .ok q

/-- Takes the next token for a candidate if a key may start here. In the column of a collection
that an indent has opened nothing else can stand. -/
def saveCandidate (q : Queue) : Except Fault Queue :=
  if !q.keyAllowed then .ok q
  else do
    let required := !q.inFlow && q.indent == (q.here.mark.column : Int)
    let c : Candidate := ⟨required, q.count, q.here.mark⟩
    return (← q.dropCandidate).setCandidate (some c)

/-- The start of the innermost candidate, or of the document. -/
def candidateMark (q : Queue) : Mark := (q.candidate?.map (·.mark)).getD {}

/-- Opens a collection in a column unless one with this indent is open; its token goes before the
one with a number. -/
def openIndent (q : Queue) (mark : Mark) (number : Nat) (kind : TokenKind) :
    Except Fault Queue :=
  if q.inFlow || (mark.column : Int) ≤ q.indent then .ok q
  else
    let indents := q.indent :: q.indents
    if maxDepth < indents.length then
      .error (q.fault q.candidateMark "exceeded max depth of 10000")
    else .ok { q.pushAt number mark kind with indent := mark.column, indents }

/-- Closes the collections whose columns are past a column; `indents` are the columns to go back
to. -/
def closeFrom (column : Int) (mark : Mark) (q : Queue) : List Int → Queue
  | [] => { q with indents := [] }
  | outer :: indents =>
    if column < q.indent then
      closeFrom column mark { q.push mark .blockEnd with indent := outer } indents
    else { q with indents := outer :: indents }

/-- Closes the collections whose columns are past a column. -/
def closeIndents (q : Queue) (column : Int) (mark : Mark) : Queue :=
  if q.inFlow then q else q.closeFrom column mark q.indents

/-- A queue in which all indents are closed and no key can start. -/
def reset (q : Queue) : Except Fault Queue := do
  let q ← (q.closeIndents (-1) q.here.mark).dropCandidate
  return { q with keyAllowed := false }

/-- The end of the document, which is at the start of a line. -/
def fetchEnd (q : Queue) : Except Fault Queue := do
  let m := q.here.mark
  let m := if m.column = 0 then m else ⟨m.index, m.line + 1, 0⟩
  let q ← { q with here := ⟨m, []⟩ }.reset
  return q.push m .streamEnd

/-- A directive. -/
def fetchDirective (q : Queue) : Except Fault Queue := do
  let q ← q.reset
  let (kind, after) ← directiveAt q.here
  return { q.push q.here.mark kind with here := after }

/-- A mark between documents. -/
def fetchDocumentMark (q : Queue) (kind : TokenKind) : Except Fault Queue := do
  return (← q.reset).pushChars 3 kind

/-- An opening bracket. -/
def fetchOpen (q : Queue) (kind : TokenKind) : Except Fault Queue := do
  let q ← q.saveCandidate
  if maxDepth < q.candidates.length then
    .error (q.fault {} "exceeded max depth of 10000")
  let q := { q with candidates := none :: q.candidates, keyAllowed := true }
  return q.pushChars 1 kind

/-- A closing bracket. -/
def fetchClose (q : Queue) (kind : TokenKind) : Except Fault Queue := do
  let q ← q.dropCandidate
  let candidates := if q.inFlow then q.candidates.tail else q.candidates
  return { q with candidates, keyAllowed := false }.pushChars 1 kind

/-- A comma. -/
def fetchComma (q : Queue) : Except Fault Queue := do
  let q ← q.dropCandidate
  return { q with keyAllowed := true }.pushChars 1 .comma

/-- A dash before an item. -/
def fetchDash (q : Queue) : Except Fault Queue := do
  if !q.inFlow && !q.keyAllowed then
    .error (q.fault q.here.mark "block sequence entries are not allowed in this context")
  let q ← (← q.openIndent q.here.mark q.count .sequenceStart).dropCandidate
  return { q with keyAllowed := true }.pushChars 1 .dash

/-- A question mark before a key. -/
def fetchKey (q : Queue) : Except Fault Queue := do
  if !q.inFlow && !q.keyAllowed then
    .error (q.fault q.here.mark "mapping keys are not allowed in this context")
  let q ← (← q.openIndent q.here.mark q.count .mappingStart).dropCandidate
  return { q with keyAllowed := !q.inFlow }.pushChars 1 .key

/-- The candidate of the innermost bracket that can still become a key. -/
def liveCandidate? (q : Queue) : Except Fault (Option Candidate) :=
  match q.candidate? with
  | none => .ok none
  | some c => do return if ← q.isAlive c then some c else none

/-- A colon before a value. If there is a candidate, it is the key. -/
def fetchValue (q : Queue) : Except Fault Queue := do
  let q ←
    match ← q.liveCandidate? with
    | some c => do
      let q ← (q.pushAt c.number c.mark .key).openIndent c.mark c.number .mappingStart
      pure { q.setCandidate none with keyAllowed := false }
    | none => do
      if !q.inFlow && !q.keyAllowed then
        .error (q.fault q.here.mark "mapping values are not allowed in this context")
      let q ← q.openIndent q.here.mark q.count .mappingStart
      pure { q with keyAllowed := !q.inFlow }
  return q.pushChars 1 .value

/-- A token that may be a key. -/
def fetchKeyable (q : Queue) (read : Spot → Except Fault (TokenKind × Spot)) :
    Except Fault Queue := do
  let q ← q.saveCandidate
  let (kind, after) ← read q.here
  return { q.push q.here.mark kind with here := after, keyAllowed := false }

/-- An anchor, or a reference to one. -/
def fetchAnchor (q : Queue) (kind : Text → TokenKind) : Except Fault Queue :=
  q.fetchKeyable fun s => do
    let (name, after) ← anchorName s.mark (s.drop 1)
    return (kind name, after)

/-- A tag. -/
def fetchTag (q : Queue) : Except Fault Queue := q.fetchKeyable fun s => tagAt s.mark s

/-- A scalar between quotes. -/
def fetchQuoted (q : Queue)
    (read : Mark → List Char → Gap → Mark → List Char → Except Fault Passage) :
    Except Fault Queue :=
  q.fetchKeyable fun s => do
    let inside := s.drop 1
    let p ← read s.mark [] {} inside.mark inside.rest
    return (.scalar false p.text, p.here)

/-- A plain scalar. One that ends with a line lets a key start behind it. -/
def fetchPlain (q : Queue) : Except Fault Queue := do
  let q ← q.saveCandidate
  let m := q.here.mark
  let p ← plainFrom q.inFlow (q.indent + 1).toNat m [] {} m q.here.rest
  return { q.push m (.scalar true p.text) with here := p.here, keyAllowed := p.gap.broken }

/-- A block scalar. -/
def fetchBlock (q : Queue) (folds : Bool) : Except Fault Queue := do
  let q ← q.dropCandidate
  let m := q.here.mark
  let (t, after) ← blockScalar folds q.indent m (q.here.drop 1)
  return { q.push m (.scalar false t) with here := after, keyAllowed := true }

/-- The signs that begin something other than a plain scalar wherever they stand. -/
def signs : List Char :=
  [',', '[', ']', '\x7b', '\x7d', '#', '&', '*', '!', '|', '>', '\'', '"', '%', '@', '\x60']

/-- Whether a plain scalar can start with a character and what follows it. -/
def startsPlain (inFlow : Bool) (c : Char) (cs : List Char) : Bool :=
  if c == '-' then !(cs.head?.any isGap)
  else if c == '?' || c == ':' then !inFlow && !atWordEnd cs
  else !isGap c && !isBreak c && !signs.contains c

/-- The token that starts with a character. -/
def fetchAt (q : Queue) (c : Char) (cs : List Char) : Except Fault Queue :=
  let lineStart := q.here.mark.column = 0
  if lineStart && c == '%' then q.fetchDirective
  else if lineStart && startsDocumentMark (c :: cs) then
    q.fetchDocumentMark (if c == '-' then .documentStart else .documentEnd)
  else if c == '[' then q.fetchOpen .bracketOpen
  else if c == '\x7b' then q.fetchOpen .braceOpen
  else if c == ']' then q.fetchClose .bracketClose
  else if c == '\x7d' then q.fetchClose .braceClose
  else if c == ',' then q.fetchComma
  else if c == '-' && atWordEnd cs then q.fetchDash
  else if c == '?' && (q.inFlow || atWordEnd cs) then q.fetchKey
  else if c == ':' && (q.inFlow || atWordEnd cs) then q.fetchValue
  else if c == '*' then q.fetchAnchor .reference
  else if c == '&' then q.fetchAnchor .anchor
  else if c == '!' then q.fetchTag
  else if c == '|' && !q.inFlow then q.fetchBlock false
  else if c == '>' && !q.inFlow then q.fetchBlock true
  else if c == '\'' then q.fetchQuoted singleFrom
  else if c == '"' then q.fetchQuoted fun start read gap m => doubleFrom start read gap m .anything
  else if startsPlain q.inFlow c cs then q.fetchPlain
  else .error (q.fault q.here.mark "found character that cannot start any token")

/-- Scans one more token, and the indents that it closes and opens. -/
def fetch (q : Queue) : Except Fault Queue :=
  if !q.started then .ok { q.push q.here.mark .streamStart with started := true }
  else
    let before := q.here.mark
    let (keyAllowed, here) := toNextToken q.inFlow q.keyAllowed before .blanks q.here.rest
    let q := { q with here, keyAllowed }.closeIndents here.mark.column before
    match here.rest with
    | [] => q.fetchEnd
    | c :: cs => q.fetchAt c cs

/-- Whether the first token that waits may turn out to be a key. -/
def headIsOpen (q : Queue) : Except Fault Bool :=
  match q.candidates.findSome? fun c => c.filter fun c => c.number == q.taken with
  | some c => q.isAlive c
  | none => .ok false

/-- Scans until three tokens wait and the first is settled. -/
def fill : Nat → Queue → Except Fault Queue
  | 0, q => .ok q
  | fuel + 1, q => do
    if 2 < q.waiting.length && !(← q.headIsOpen) then return q
    else fill fuel (← q.fetch)

/-- The first token that waits. -/
def peek (q : Queue) : Except Fault (Token × Queue) := do
  let q ← q.fill q.budget
  return (q.waiting.head?.getD ⟨.streamEnd, q.here.mark⟩, q)

/-- The queue without its first token. -/
def skip (q : Queue) : Queue := { q with waiting := q.waiting.tail, taken := q.taken + 1 }

end Queue

end FusionKit.Yaml
