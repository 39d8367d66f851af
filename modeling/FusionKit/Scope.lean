import FusionKit.Text

/-!
# Scopes

The names that are bound at a place: those of the frames around it, innermost first, and those
bound for the whole resource, which stay when frames are left.
-/
namespace FusionKit

/-- Frames of names, innermost first, and the names that hold everywhere. -/
structure Scope where
  frames : List (List Text)
  topLevel : List Text := []
  deriving DecidableEq, Repr, Inhabited

namespace Scope

/-- The scope in which only the given names are bound. -/
def ofNames (names : List Text) : Scope := { frames := [names] }

/-- Whether a name is bound. -/
def contains (s : Scope) (name : Text) : Bool :=
  s.frames.any (·.contains name) || s.topLevel.contains name

/-- Binds a name in the innermost frame. -/
def bind (s : Scope) (name : Text) : Scope :=
  match s.frames with
  | frame :: frames => { s with frames := (name :: frame) :: frames }
  | [] => { s with frames := [[name]] }

/-- Binds names in the innermost frame. -/
def bindAll (s : Scope) (names : List Text) : Scope := names.foldl bind s

/-- Binds a name for the whole resource. -/
def bindTop (s : Scope) (name : Text) : Scope := { s with topLevel := name :: s.topLevel }

/-- Enters a frame with some names. -/
def enter (s : Scope) (names : List Text) : Scope := { s with frames := names :: s.frames }

/-- Leaves the innermost frame. -/
def leave (s : Scope) : Scope := { s with frames := s.frames.tail }

/-- The scopes that this one is nested in, outermost first, and itself. -/
def chain (s : Scope) : List Scope :=
  (List.range s.frames.length).reverse.map fun n => { s with frames := s.frames.drop n }

end Scope

end FusionKit
