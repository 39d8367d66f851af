import FusionKit.Proofs.Guarded
import FusionKit.Proofs.Tidying

/-!
# Tidying with guarded indices

The pass that tidies newlines, in the order in which it runs: over an index into the items of a
form, that a newline may be put in front of while the walk is under way. Each item is trimmed once
as an item and once as a form. As in the printer no index misses, and the pass comes to the tidy
form.
-/
set_option autoImplicit false

namespace FusionKit.Guarded

open Node (isNewlines isCommentLine isContent isCompound)

/-- How many items come before the first newline run. -/
def countBeforeBreak (items : List Node) : Nat := (items.takeWhile fun n => !n.isNewlines).length

/-- The items without a newline run at the start. -/
def trimFirst? (items : List Node) : Option (List Node) :=
  if 0 < items.length then do
    let first ← at? items 0
    if first.isNewlines then slice? items 1 items.length else some items
  else some items

/-- The items without a newline run at the end, unless a line comment comes before it. -/
def trimLast? (items : List Node) : Option (List Node) :=
  if (2 : Int) ≤ items.length then do
    let before ← at? items (items.length - 2)
    let last ← at? items (items.length - 1)
    if !before.isCommentLine && last.isNewlines then slice? items 0 (items.length - 1) else some items
  else some items

/-- The items without newline runs at their edges, and whether their values started on a new
line. -/
def trim? (items : List Node) : Option (List Node × Bool) := do
  let starts := items.any isContent && countBeforeBreak items == 0
  let items ← trimFirst? items
  let items ← trimLast? items
  some (items, starts)

/-- A form without items, when there are only newline runs. -/
def cleared (n : Node) : Node :=
  if n.isCompound && n.items.all isNewlines then { n with items := [] } else n

section

variable {n : Node} {items rest : List Node}

/-- Without a newline run at the start. -/
def trimmedFirst (items : List Node) : List Node :=
  match items with
  | n :: ns => if n.isNewlines then ns else n :: ns
  | [] => []

/-- Without a newline run at the end, unless a line comment comes before it. -/
def trimmedLast (items : List Node) : List Node :=
  match items.reverse with
  | last :: before :: rest =>
    if last.isNewlines && !before.isCommentLine then (before :: rest).reverse else items
  | _ => items

/-- Without newline runs at the edges. -/
def trimmed (items : List Node) : List Node := trimmedLast (trimmedFirst items)

theorem trimEdges_map (f : Node → Node) (items : List Node) :
    Node.trimEdges (items.map fun n => (n, f n)) = (trimmed items).map fun n => (n, f n) := by
  have hfirst : Node.trimFirst (items.map fun n => (n, f n)) = (trimmedFirst items).map fun n => (n, f n) := by
    cases items with
    | nil => rfl
    | cons n ns =>
      simp only [List.map_cons, Node.trimFirst, trimmedFirst]
      split_ifs <;> rfl
  rw [Node.trimEdges_eq, hfirst, trimmed]
  unfold Node.trimLast trimmedLast
  rw [← List.map_reverse]
  rcases (trimmedFirst items).reverse with _ | ⟨last, _ | ⟨before, rest⟩⟩
  · rfl
  · rfl
  · simp only [List.map_cons]
    split_ifs
    · simp
    · rfl

theorem trimmedFirst_sublist (items : List Node) : (trimmedFirst items).Sublist items := by
  unfold trimmedFirst
  split
  · split
    · exact List.sublist_cons_self _ _
    · exact List.Sublist.refl _
  · exact List.Sublist.refl _

theorem trimmedLast_sublist (items : List Node) : (trimmedLast items).Sublist items := by
  unfold trimmedLast
  split
  · rename_i last before rest hreverse
    split
    · rw [← List.reverse_reverse items, hreverse]
      exact List.reverse_sublist.mpr (List.sublist_cons_self _ _)
    · exact List.Sublist.refl _
  · exact List.Sublist.refl _

theorem trimmed_sublist (items : List Node) : (trimmed items).Sublist items :=
  (trimmedLast_sublist _).trans (trimmedFirst_sublist _)

theorem cleared_sublist (n : Node) : (cleared n).items.Sublist n.items := by
  unfold cleared
  split
  · exact List.nil_sublist _
  · exact List.Sublist.refl _

theorem sizeOf_sublist {xs ys : List Node} (h : xs.Sublist ys) : sizeOf xs ≤ sizeOf ys := by
  induction h with
  | slnil => exact Nat.le_refl _
  | cons x _ ih =>
    simp only [List.cons.sizeOf_spec]
    omega
  | cons_cons x _ ih =>
    simp only [List.cons.sizeOf_spec]
    omega

theorem trimFirst?_eq (items : List Node) : trimFirst? items = some (trimmedFirst items) := by
  cases items with
  | nil => rfl
  | cons n ns =>
    have hfirst : at? (n :: ns) 0 = some n := rfl
    have hrest : slice? (n :: ns) 1 (n :: ns).length = some ns :=
      slice?_eq [n] [] (by simp) rfl (by simp; omega)
    rw [trimFirst?, if_pos (by simp), hfirst, Option.bind_eq_bind, Option.bind_some, hrest, trimmedFirst]
    split_ifs <;> rfl

theorem trimLast?_eq (items : List Node) : trimLast? items = some (trimmedLast items) := by
  unfold trimmedLast
  match hr : items.reverse with
  | [] =>
    obtain rfl := List.reverse_eq_nil_iff.mp hr
    rfl
  | [last] =>
    have hitems : items = [last] := by rw [← List.reverse_reverse items, hr, List.reverse_singleton]
    rw [hitems]
    rfl
  | last :: before :: rest =>
    have hitems : items = rest.reverse ++ [before, last] := by
      rw [← List.reverse_reverse items, hr]
      simp
    have hlength : (items.length : Int) = rest.reverse.length + 2 := by rw [hitems]; simp
    have hbefore : at? items (items.length - 2) = some before := at?_eq _ _ hitems (by omega)
    have hlast : at? items (items.length - 1) = some last :=
      at?_eq (rest.reverse ++ [before]) [] (by rw [hitems]; simp) (by simp at hlength ⊢; omega)
    have hslice : slice? items 0 (items.length - 1) = some (before :: rest).reverse :=
      slice?_eq [] [last] (by rw [hitems]; simp) rfl (by simp at hlength ⊢; omega)
    rw [trimLast?, if_pos (by omega), hbefore, hlast]
    simp only [Option.bind_eq_bind, Option.bind_some, hslice, Bool.and_comm]
    split_ifs <;> rfl

theorem trim?_eq (items : List Node) : trim? items = some (trimmed items, Node.startsOnNewLine items) := by
  have hstarts : (items.any isContent && countBeforeBreak items == 0) = Node.startsOnNewLine items := by
    unfold Node.startsOnNewLine countBeforeBreak
    cases items with
    | nil => rfl
    | cons n ns =>
      rw [List.takeWhile_cons]
      cases hn : n.isNewlines <;> simp [hn]
  rw [trim?, trimFirst?_eq, Option.bind_eq_bind, Option.bind_some, trimLast?_eq, hstarts]
  rfl

end

/-! ## The walk -/

/-- The items with a further one at an index. -/
def insert? (items : List Node) (i : Nat) (n : Node) : Option (List Node) := do
  let front ← slice? items 0 i
  let back ← slice? items i items.length
  some (front ++ n :: back)

/-- The items with another one at an index. -/
def set? (items : List Node) (i : Nat) (n : Node) : Option (List Node) :=
  if i < items.length then some (items.set i n) else none

/-- Whether an index comes first or after a newline run. -/
def afterBreak? (items : List Node) (i : Nat) : Option Bool :=
  if i = 0 then some true else (at? items (i - 1 : Nat)).map isNewlines

/-- Comes to the item at an index: trims its items if it is a form, and puts a newline in front of
it if those started on a new line and the item does not. Gives the items, the index at which the
item is now, and the item. -/
def enter? (items : List Node) (i : Nat) : Option (List Node × Nat × Node) := do
  let afterBreak ← afterBreak? items i
  let child ← at? items i
  if child.isCompound then do
    let (inner, starts) ← trim? child.items
    let trimmedChild := { child with items := inner }
    if starts && !afterBreak then do
      let items ← insert? items i (Node.breakBefore child)
      some (items, i + 1, trimmedChild)
    else some (items, i, trimmedChild)
  else some (items, i, child)

section

variable {before rest : List Node} {n m : Node}

theorem insert?_eq : insert? (before ++ rest) before.length n = some (before ++ n :: rest) := by
  have hfront : slice? (before ++ rest) 0 before.length = some before :=
    slice?_eq [] rest rfl rfl (by simp)
  have hback : slice? (before ++ rest) before.length (before ++ rest).length = some rest :=
    slice?_eq before [] (by simp) rfl (by simp)
  rw [insert?, hfront, hback]
  rfl

theorem set?_eq : set? (before ++ n :: rest) before.length m = some (before ++ m :: rest) := by
  rw [set?, if_pos (by simp), List.set_append_right _ _ (Nat.le_refl _), Nat.sub_self, List.set_cons_zero]

/-- Whether the walk stands first or after a newline run. -/
def afterBreak (before : List Node) : Bool := (before.getLast?.map isNewlines).getD true

/-- What goes in front of an item. -/
def front (afterBreak : Bool) (n : Node) : List Node :=
  if n.isCompound && Node.startsOnNewLine n.items && !afterBreak then [Node.breakBefore n] else []

/-- A form with trimmed items. -/
def entered (n : Node) : Node := if n.isCompound then { n with items := trimmed n.items } else n

theorem afterBreak?_eq : afterBreak? (before ++ rest) before.length = some (afterBreak before) := by
  unfold afterBreak? afterBreak
  rcases List.eq_nil_or_concat before with rfl | ⟨front, last, rfl⟩
  · rfl
  · have hlast : at? (front ++ [last] ++ rest) ((front ++ [last]).length - 1 : Nat) = some last :=
      at?_eq _ _ (List.append_assoc front [last] rest) (by simp)
    rw [List.concat_eq_append, hlast, if_neg (by simp), List.getLast?_concat]
    rfl

theorem enter?_eq : enter? (before ++ n :: rest) before.length =
    some (before ++ front (afterBreak before) n ++ n :: rest,
      (before ++ front (afterBreak before) n).length, entered n) := by
  unfold enter? front entered
  rw [afterBreak?_eq, at?_append]
  simp only [Option.bind_eq_bind, Option.bind_some, trim?_eq, insert?_eq]
  cases n.isCompound <;> cases Node.startsOnNewLine n.items <;> cases afterBreak before <;> simp

theorem sizeOf_items_lt (n : Node) : sizeOf n.items < sizeOf n := by
  obtain ⟨label, items⟩ := n
  simp only [Node.mk.sizeOf_spec]
  omega

theorem sizeOf_entered (n : Node) : sizeOf (entered n) ≤ sizeOf n := by
  unfold entered
  split
  · have := sizeOf_sublist (trimmed_sublist n.items)
    obtain ⟨label, items⟩ := n
    simp only [Node.mk.sizeOf_spec] at this ⊢
    omega
  · exact Nat.le_refl _

theorem sizeOf_drop_trim? {items : List Node} {starts : Bool}
    (h : trim? (cleared n).items = some (items, starts)) : sizeOf (items.drop 0) < sizeOf n := by
  rw [trim?_eq, Option.some.injEq, Prod.mk.injEq] at h
  have := sizeOf_sublist ((trimmed_sublist _).trans (cleared_sublist n))
  rw [h.1] at this
  rw [List.drop_zero]
  exact Nat.lt_of_le_of_lt this (sizeOf_items_lt n)

/-- The walk comes to the next item of those that were left. -/
theorem sizeOf_enter? {items items' : List Node} {i j : Nat} {child : Node}
    (h : enter? items i = some (items', j, child)) (hi : i < items.length) :
    sizeOf child < sizeOf (items.drop i) ∧ sizeOf (items'.drop (j + 1)) < sizeOf (items.drop i) := by
  obtain ⟨before, n, rest, rfl, rfl⟩ : ∃ before n rest, items = before ++ n :: rest ∧ i = before.length := by
    refine ⟨items.take i, items[i], items.drop (i + 1), ?_, ?_⟩
    · rw [List.getElem_cons_drop, List.take_append_drop]
    · rw [List.length_take, Nat.min_eq_left (Nat.le_of_lt hi)]
  rw [enter?_eq, Option.some.injEq, Prod.mk.injEq, Prod.mk.injEq] at h
  obtain ⟨rfl, rfl, rfl⟩ := h
  have := sizeOf_entered n
  rw [List.drop_left, List.append_cons _ n rest, List.drop_left' (by simp; omega), List.cons.sizeOf_spec]
  omega

theorem drop_set? {items items' : List Node} {i : Nat} (h : set? items i n = some items') :
    items'.drop (i + 1) = items.drop (i + 1) := by
  unfold set? at h
  split at h
  · cases h
    rw [List.drop_set_of_lt (Nat.lt_succ_self i)]
  · cases h

end

mutual

/-- The tidy form of a node. -/
def fix? (n : Node) : Option Node :=
  if (cleared n).isCompound then
    match _h : trim? (cleared n).items with
    | none => none
    | some (items, _) => (fixFrom? items 0).map fun items => { n with items }
  else some (cleared n)
termination_by sizeOf n
decreasing_by exact sizeOf_drop_trim? _h

/-- The tidy forms of the items from an index on, behind the ones before it. -/
def fixFrom? (items : List Node) (i : Nat) : Option (List Node) :=
  if _hi : i < items.length then
    match _h : enter? items i with
    | none => none
    | some (items', j, child) =>
      match fix? child with
      | none => none
      | some child =>
        match _h' : set? items' j child with
        | none => none
        | some items'' => fixFrom? items'' (j + 1)
  else some items
termination_by sizeOf (items.drop i)
decreasing_by
  · exact (sizeOf_enter? _h _hi).1
  · rw [drop_set? _h']
    exact (sizeOf_enter? _h _hi).2

end

section

variable {n : Node}

theorem all_isNewlines_trimmed (items : List Node) : (trimmed items).all isNewlines = items.all isNewlines := by
  have hfirst : (trimmedFirst items).all isNewlines = items.all isNewlines := by
    cases items with
    | nil => rfl
    | cons n ns =>
      rw [trimmedFirst]
      split_ifs with hn
      · simp [hn]
      · rfl
  rw [trimmed, ← hfirst]
  generalize trimmedFirst items = items
  unfold trimmedLast
  split
  · rename_i last before rest hreverse
    split_ifs with hlast
    · rw [← List.all_reverse (l := items), hreverse, List.all_reverse]
      simp_all
    · rfl
  · rfl

/-- What the items of a form become. -/
def row (items : List Node) : Node.Row := items.map fun n => (n, n.tidyItem)

theorem zip_tidyItems (items : List Node) : items.zip (Node.tidyItems items) = row items := by
  rw [row, List.map_prod_left_eq_zip, Node.tidyItems_eq_map]

theorem clearEmpty_row (hn : n.isCompound = true) : Node.clearEmpty (row n.items) = row (cleared n).items := by
  have hall : (row n.items).all (fun p => p.1.isNewlines) = n.items.all isNewlines := by
    rw [row, List.all_map]
    rfl
  rw [Node.clearEmpty, hall, cleared, hn, Bool.true_and]
  split_ifs <;> rfl

theorem trimEdges_row (items : List Node) : Node.trimEdges (row items) = row (trimmed items) :=
  trimEdges_map _ _

theorem tidy_eq (hn : n.isCompound = true) :
    n.tidy = { n with items := Node.breakRow true (row (trimmed (cleared n).items)) } := by
  rw [Node.tidy, if_pos hn, zip_tidyItems, clearEmpty_row hn, trimEdges_row]

theorem tidyItem_eq (hn : n.isCompound = true) :
    n.tidyItem = { n with items := Node.breakRow true (row (trimmed (trimmed (cleared n).items))) } := by
  rw [← trimEdges_row, ← trimEdges_row, ← clearEmpty_row hn, ← zip_tidyItems]
  obtain ⟨label, items⟩ := n
  exact if_pos hn

/-- The items of a form that is trimmed before it is tidied are trimmed twice. -/
theorem tidy_entered (n : Node) : (entered n).tidy = n.tidyItem := by
  cases hn : n.isCompound with
  | false =>
    have hentered : entered n = n := if_neg (by simp [hn])
    rw [hentered, Node.tidyItem_of_not_isCompound hn, Node.tidy, if_neg (by simp [hn])]
  | true =>
    have hentered : entered n = { n with items := trimmed n.items } := if_pos hn
    have hcompound : (entered n).isCompound = true := by rw [hentered]; exact hn
    have hcleared : (cleared (entered n)).items = trimmed (cleared n).items := by
      rw [hentered, cleared, cleared, hn, Bool.true_and]
      rw [show (⟨n.label, trimmed n.items⟩ : Node).isCompound = true from hn, Bool.true_and,
        all_isNewlines_trimmed]
      split_ifs <;> rfl
    rw [tidy_eq hcompound, tidyItem_eq hn, hcleared, hentered]

theorem cleared_label (n : Node) : (cleared n).label = n.label := by
  unfold cleared
  split <;> rfl

theorem isCompound_cleared (n : Node) : (cleared n).isCompound = n.isCompound := by
  unfold Node.isCompound Node.kind
  rw [cleared_label]

mutual

/-- The guarded walk tidies every node, and as the pass does. -/
theorem fix?_eq (n : Node) : fix? n = some n.tidy := by
  rw [fix?, isCompound_cleared]
  cases hn : n.isCompound with
  | false =>
    rw [if_neg (by simp), cleared, hn, Node.tidy, hn]
    rfl
  | true =>
    have hitems : fixFrom? (trimmed (cleared n).items) 0 =
        some (Node.breakRow true (row (trimmed (cleared n).items))) :=
      fixFrom?_eq [] (trimmed (cleared n).items)
    rw [if_pos rfl, tidy_eq hn]
    split
    · rename_i h
      rw [trim?_eq] at h
      cases h
    · rename_i items starts h
      rw [trim?_eq, Option.some.injEq, Prod.mk.injEq] at h
      rw [← h.1, hitems, Option.map_some]
termination_by sizeOf n
decreasing_by exact sizeOf_drop_trim? (trim?_eq _)

theorem fixFrom?_eq (before rest : List Node) : fixFrom? (before ++ rest) before.length =
    some (before ++ Node.breakRow (afterBreak before) (row rest)) := by
  match rest with
  | [] =>
    rw [fixFrom?, dif_neg (by simp)]
    rfl
  | n :: rest =>
    have hchild := fix?_eq (entered n)
    have hrest := fixFrom?_eq (before ++ front (afterBreak before) n ++ [n.tidyItem]) rest
    rw [fixFrom?, dif_pos (by simp)]
    split
    · rename_i h
      rw [enter?_eq] at h
      cases h
    · rename_i items j child h
      rw [enter?_eq, Option.some.injEq, Prod.mk.injEq, Prod.mk.injEq] at h
      obtain ⟨rfl, rfl, rfl⟩ := h
      rw [hchild, tidy_entered]
      dsimp only
      split
      · rename_i h
        rw [set?_eq] at h
        cases h
      · rename_i items h
        rw [set?_eq, Option.some.injEq] at h
        have hafter : afterBreak (before ++ front (afterBreak before) n ++ [n.tidyItem]) = n.isNewlines := by
          rw [afterBreak, List.getLast?_concat]
          exact Node.isNewlines_of_label n.tidyItem_label
        have hrow : Node.breakRow (afterBreak before) (row (n :: rest)) =
            front (afterBreak before) n ++ n.tidyItem :: Node.breakRow n.isNewlines (row rest) := by
          rw [row, List.map_cons, Node.breakRow, front]
          split_ifs <;> rfl
        rw [List.append_assoc, List.singleton_append, List.length_append, List.length_singleton, hafter] at hrest
        rw [← h, hrest, hrow]
        simp
termination_by sizeOf rest
decreasing_by
  · have := sizeOf_entered n
    simp only [List.cons.sizeOf_spec]
    omega
  · simp only [List.cons.sizeOf_spec]
    omega

end

end

end FusionKit.Guarded
