import FusionKit.Text

/-!
# Tables

Names with values. Each name has at most one value, the one that was put last; the order in which
names were put does not show, since readers ask for a name or for all of them in order.
-/
namespace FusionKit

/-- Values by name. -/
abbrev Table (β : Type) := List (Text × β)

namespace Table

variable {β : Type}

/-- The value of a name. -/
def get? (t : Table β) (name : Text) : Option β := t.lookup name

/-- Gives a name a value, in place of the one it has. -/
def put (t : Table β) (name : Text) (value : β) : Table β :=
  (name, value) :: t.filter (·.1 != name)

/-- A name with a value has an entry. -/
theorem mem_of_get? {t : Table β} {name : Text} {value : β} (found : t.get? name = some value) :
    (name, value) ∈ t := by
  induction t with
  | nil => cases found
  | cons entry t ih =>
    obtain ⟨key, other⟩ := entry
    rw [get?, List.lookup_cons] at found
    split at found
    · rename_i same
      cases found
      rw [eq_of_beq same]
      exact List.mem_cons_self
    · exact List.mem_cons_of_mem _ (ih found)

/-- The entries ordered by name. -/
def sorted (t : Table β) : List (Text × β) := t.mergeSort fun a b => Text.le a.1 b.1

/-- The names in order. -/
def names (t : Table β) : List Text := t.sorted.map (·.1)

end Table

end FusionKit
