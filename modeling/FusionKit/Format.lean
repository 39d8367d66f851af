import FusionKit.Layout.Print
import FusionKit.Node.Parse

/-!
# Formatting

A source is parsed, laid out and printed. The only way this fails for a source is a syntax error;
the layout of a parsed tree never does, but the type says so only for trees built by hand.
-/
namespace FusionKit

/-- Why a source cannot be formatted. -/
inductive FormatError where
  | notParsed (e : SyntaxError)
  | misplaced (file : Text) (f : LayoutFault)
  deriving DecidableEq, Repr

/-- The message for an error, with its place. -/
def FormatError.render : FormatError → Text
  | notParsed e => e.render
  | misplaced file f => file ++ utf8 ": " ++ f.message

/-- The formatted source; `file` names it in errors. -/
def format (s : Settings) (file source : Text) : Except FormatError Text :=
  match parse file source with
  | .error e => .error (.notParsed e)
  | .ok nodes =>
    match Node.layoutAll nodes with
    | .error f => .error (.misplaced file f)
    | .ok tree => .ok (Node.printed s tree)

end FusionKit
