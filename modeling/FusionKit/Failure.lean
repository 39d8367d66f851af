import FusionKit.FileTree
import FusionKit.Format

/-!
# Failures

What can go wrong while a package is worked on, by cause. A failure may be put into the context
in which it arose; its place, if it has one, stays with the cause.
-/
namespace FusionKit

/-- What went wrong. -/
inductive Failure where
  /-- Something is wrong at a place of a file. -/
  | located (location : Location) (message : Text)
  /-- Something is wrong at a span, of a file that is told by whoever visits it. -/
  | spanned (span : Span) (message : Text)
  | misplaced (fault : LayoutFault)
  | moduleNotFound (name : Text)
  | file (error : FileError)
  | configExists (path : Text)
  | other (message : Text)
  /-- A failure in a context. -/
  | within (context : Text) (cause : Failure)
  deriving DecidableEq, Repr

namespace Failure

/-- The message for a failure. -/
def message : Failure → Text
  | located location text => location.render ++ utf8 ": " ++ text
  | spanned _ text => text
  | misplaced fault => fault.message
  | moduleNotFound name =>
    utf8 "cannot load module named " ++ name ++ utf8 ": no module file found in module paths"
  | file error => error.message
  | configExists path => path ++ utf8 ": config file already exists"
  | other text => text
  | within context cause => context ++ utf8 ": " ++ cause.message

/-- The failure itself, apart from all contexts. -/
def cause : Failure → Failure
  | within _ f => f.cause
  | f => f

/-- The place of a failure and what is wrong there. -/
def place? (f : Failure) : Option (Location × Text) :=
  match f.cause with
  | located location text => some (location, text)
  | _ => none

/-- A syntax error as a failure. -/
def ofSyntax (e : SyntaxError) : Failure := located e.location e.fault.message

/-- A formatting error as a failure. -/
def ofFormat : FormatError → Failure
  | .notParsed e => ofSyntax e
  | .misplaced name f => within name (misplaced f)

end Failure

end FusionKit
