import FusionKit.Text

/-!
# Paths

Slash-separated paths, treated as text: nothing here looks at files. A path is absolute when it
starts with a slash. `Path.clean` gives the shortest path that names the same place; it has no
empty part, no `.`, and `..` only at the start of a relative path.
-/
namespace FusionKit.Path

/-- The separator. -/
abbrev slash : UInt8 := byte '/'

/-- The part that names the same directory. -/
abbrev here : Text := utf8 "."

/-- The part that names the directory above. -/
abbrev up : Text := utf8 ".."

/-- Whether a path starts at the root. -/
def isAbsolute (p : Text) : Bool := p.head? == some slash

/-- The parts of a path between slashes that are not empty and not `.`. -/
def parts (p : Text) : List Text :=
  (Text.piecesAt slash p).filter fun part => !part.isEmpty && part != here

/-- One more part after the parts in `done`, last first: `..` takes one away, or stays when there
is none to take, which at the root it does not. -/
def walk (rooted : Bool) (done : List Text) (part : Text) : List Text :=
  if part == up then
    match done with
    | last :: rest => if last == up then up :: done else rest
    | [] => if rooted then [] else [up]
  else part :: done

/-- The parts of the shortest path that names the same place. -/
def resolve (p : Text) : List Text := ((parts p).foldl (walk (isAbsolute p)) []).reverse

/-- The path with the given parts. -/
def ofParts (rooted : Bool) (ps : List Text) : Text :=
  if rooted then slash :: Text.joinWith [slash] ps
  else if ps.isEmpty then here
  else Text.joinWith [slash] ps

/-- The shortest path that names the same place. -/
def clean (p : Text) : Text := ofParts (isAbsolute p) (resolve p)

/-- One path continued by another. -/
def join (p q : Text) : Text :=
  if p.isEmpty then (if q.isEmpty then [] else clean q)
  else if q.isEmpty then clean p
  else clean (p ++ slash :: q)

/-- A path, taken from `base` when it is not absolute. -/
def absolute (base p : Text) : Text := if isAbsolute p then clean p else join base p

/-- The parts left of two lists after their common beginning. -/
def diverge : List Text → List Text → List Text × List Text
  | a :: as, b :: bs => if a == b then diverge as bs else (a :: as, b :: bs)
  | as, bs => (as, bs)

/-- The path that leads from `base` to `target`; none between a relative and an absolute one. -/
def relative? (base target : Text) : Option Text :=
  if isAbsolute base != isAbsolute target then none
  else
    let (above, below) := diverge (resolve base) (resolve target)
    if above.head? == some up then none
    else some (ofParts false (above.map (fun _ => up) ++ below))

/-- Whether a path is a directory or lies below it. -/
def isWithin (dir p : Text) : Bool :=
  match relative? dir p with
  | none => false
  | some r => !(r == up || (utf8 "../").isPrefixOf r)

/-- The last part of a path. -/
def base (p : Text) : Text :=
  if p.isEmpty then here
  else
    match (Text.dropEndWhile (· == slash) p).reverse.takeWhile (· != slash) with
    | [] => [slash]
    | name => name.reverse

/-- The directory that a path lies in. -/
def directory (p : Text) : Text := clean (p.reverse.dropWhile (· != slash)).reverse

/-- The part of the last name after its last dot, dot included. -/
def suffix (p : Text) : Text :=
  let name := (p.reverse.takeWhile (· != slash)).reverse
  if name.contains (byte '.') then
    byte '.' :: (name.reverse.takeWhile (· != byte '.')).reverse
  else []

end FusionKit.Path
