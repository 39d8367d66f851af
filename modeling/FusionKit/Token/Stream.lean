import FusionKit.Token.Lexer

/-!
# Token streams

The tokens of a source, in order. Their texts tile the source from its start to its end, or to
the first fault; a fault is one last token. After the tokens a stream goes on with its end token
for ever.
-/
namespace FusionKit

/-- Tokens, and the token that stands for the end after them. -/
structure TokenStream where
  tokens : List Token
  last : Token
  deriving Repr

namespace TokenStream

/-- The next token. -/
def peek (s : TokenStream) : Token := s.tokens.head?.getD s.last

/-- The stream after its next token. -/
def tail (s : TokenStream) : TokenStream := { s with tokens := s.tokens.tail }

/-- Whether the next token is the end. -/
def isEnd (s : TokenStream) : Bool := s.peek.type == .eof

/-- The next token and the stream after it, when the token satisfies `p`. -/
def accept? (p : Token → Bool) (s : TokenStream) : Option (Token × TokenStream) :=
  if p s.peek then some (s.peek, s.tail) else none

/-- The next token and the stream after it; at the end the stream stays. -/
def advance (s : TokenStream) : Token × TokenStream :=
  if s.isEnd then (s.peek, s) else (s.peek, s.tail)

/-- The end token at a location. -/
def endToken (l : Location) (span : Span) : Token := ⟨.eof, [], span, l⟩

/-- The stream of the given tokens. Its end has the location of the last token. -/
def ofTokens (ts : List Token) : TokenStream :=
  ⟨ts, endToken ((ts.getLast?.map Token.location).getD {}) ⟨0, 0⟩⟩

/-- The tokens of a source. -/
def ofSource (file source : Text) : TokenStream :=
  let (tokens, last) := (Lexer.ofSource file source).drain
  ⟨tokens, last⟩

end TokenStream

end FusionKit
