import FusionKit.Text.Quoted

/-!
# Faults of YAML documents

What can be wrong with a document, in the order in which it is read: its bytes are no text, its
characters make no tokens, its tokens make no tree, or its tree stands for no value. The first
fault ends the reading; only nodes of a wrong type are gathered and reported together.
-/
namespace FusionKit.Yaml

/-- Why a document cannot be read. Lines are counted from zero; `start` is where the unfinished
thing began, and `found` where the trouble showed. -/
inductive Fault where
  | encoding (reason : String)
  | token (start found : Nat) (reason : String)
  | order (start found : Nat) (reason : String)
  | unknownAnchor (name : Text)
  | insideItself (anchor : Text)
  /-- A scalar is not of the type that its tag says. -/
  | wrongTag (type value tag : Text)
  | notBase64
  | notMergeable
  | unfitKey (shown : Text)
  | tooManyAliases
  /-- Nodes that are not what they should be, each with its message. -/
  | misfits (messages : List Text)
  deriving DecidableEq, Repr

namespace Fault

/-- The line that a fault names, counted from one: the start of what is unfinished, or else where
the trouble showed. The first line is not named. `past` tells that the reader has already gone to
the next line. -/
def linePart (past : Bool) (start found : Nat) : Text :=
  let line := if start = 0 then found else start
  if line = 0 then []
  else utf8 "line " ++ Text.ofNat (if past then line else line + 1) ++ utf8 ": "

/-- The message for a fault. -/
def message : Fault → Text
  | encoding reason => utf8 reason
  | token start found reason => linePart false start found ++ utf8 reason
  | order start found reason => linePart true start found ++ utf8 reason
  | unknownAnchor name => utf8 "unknown anchor '" ++ name ++ utf8 "' referenced"
  | insideItself anchor => utf8 "anchor '" ++ anchor ++ utf8 "' value contains itself"
  | wrongTag type value tag =>
    utf8 "cannot decode " ++ type ++ utf8 " `" ++ value ++ utf8 "` as a " ++ tag
  | notBase64 => utf8 "!!binary value contains invalid base64 data"
  | notMergeable => utf8 "map merge requires map or sequence of maps as the value"
  | unfitKey shown => utf8 "invalid map key: " ++ shown
  | tooManyAliases => utf8 "document contains excessive aliasing"
  | misfits messages =>
    utf8 "unmarshal errors:\n  " ++ Text.joinWith (utf8 "\n  ") messages

end Fault

end FusionKit.Yaml
