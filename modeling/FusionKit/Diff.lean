import FusionKit.Text

/-!
# Line differences

A shortest script that turns one list into another by removing and adding entries. It follows
the table of the lengths of longest common subsequences of all endings of the two lists: equal
heads are kept, and otherwise an entry is removed when that loses no more than adding one.
-/
namespace FusionKit.Diff

variable {α : Type} [BEq α]

/-- One entry of a script. -/
inductive Change (α : Type) where
  | keep (a : α)
  | remove (a : α)
  | add (a : α)
  deriving DecidableEq, Repr

/-- The row of the table for a list headed by `x`: for each ending of `ys`, the length of a
longest common subsequence. `below` is the row for the tail of that list. -/
def row (x : α) : List α → List Nat → List Nat
  | [], _ => [0]
  | y :: ys, below =>
    let right := row x ys below.tail
    let here :=
      if x == y then below.tail.headD 0 + 1 else max (below.headD 0) (right.headD 0)
    here :: right

/-- The rows of the table for all endings of `xs`, the longest first. -/
def table (ys : List α) : List α → List (List Nat)
  | [] => [List.replicate (ys.length + 1) 0]
  | x :: xs =>
    let below := table ys xs
    row x ys (below.headD []) :: below

/-- The script for two endings, given the rows from the first one on and the number of entries
of the second list that are gone. -/
def follow : List (List Nat) → Nat → List α → List α → List (Change α)
  | _, _, [], ys => ys.map .add
  | _, _, xs, [] => xs.map .remove
  | rows, j, x :: xs, y :: ys =>
    let here := rows.headD []
    let below := rows.tail.headD []
    if x == y then .keep x :: follow rows.tail (j + 1) xs ys
    else if here.getD (j + 1) 0 ≤ below.getD j 0 then .remove x :: follow rows.tail j xs (y :: ys)
    else .add y :: follow rows (j + 1) (x :: xs) ys
termination_by _ _ xs ys => xs.length + ys.length

/-- A shortest script that turns `xs` into `ys`. -/
def changes (xs ys : List α) : List (Change α) := follow (table ys xs) 0 xs ys

/-- The lines of a text, without the final line feed. -/
def linesOf (t : Text) : List Text :=
  let body := Text.trimEnd [byte '\n'] t
  if body.isEmpty then [] else Text.piecesAt (byte '\n') body

/-- One line of a difference as it is shown. -/
def Change.line : Change Text → Text
  | keep t => utf8 " " ++ t ++ utf8 "\n"
  | remove t => utf8 "-" ++ t ++ utf8 "\n"
  | add t => utf8 "+" ++ t ++ utf8 "\n"

/-- The difference of two versions of a file as it is shown. -/
def render (path before after : Text) : Text :=
  utf8 "--- " ++ path ++ utf8 "\n+++ " ++ path ++ utf8 "\n" ++
    (changes (linesOf before) (linesOf after)).flatMap Change.line

end FusionKit.Diff
