import FusionKit.Diff
import FusionKit.Proofs.Basics
import Mathlib.Data.List.Chain
import Mathlib.Order.Bounds.Defs

/-!
# Differences are shortest

The difference of two lists of lines tells both of them, the lines that it keeps are a longest
common subsequence, and no sequence of edits that leads from one list to the other is shorter.
The table holds for any two endings the number `common` of lines that they can share, so the walk
along it is the walk `script`, which asks for these numbers and keeps no table. Between two kept
lines the walk removes first and adds then, because no entry of the table grows when a line is taken
away.
-/
set_option autoImplicit false

namespace FusionKit.Diff

variable {α : Type}

namespace Change

/-- The line of the first list that a change takes up. -/
@[simp] def old? : Change α → Option α
  | keep a => some a
  | remove a => some a
  | add _ => none

/-- The line of the second list that a change takes up. -/
@[simp] def new? : Change α → Option α
  | keep a => some a
  | remove _ => none
  | add a => some a

/-- The line that a change keeps. -/
@[simp] def kept? : Change α → Option α
  | keep a => some a
  | remove _ => none
  | add _ => none

/-- Whether a change keeps its line. -/
@[simp] def isKeep : Change α → Bool
  | keep _ => true
  | remove _ => false
  | add _ => false

end Change

/-- The list that some changes start from. -/
def old (cs : List (Change α)) : List α := cs.filterMap Change.old?

/-- The list that some changes lead to. -/
def new (cs : List (Change α)) : List α := cs.filterMap Change.new?

/-- The lines that some changes keep. -/
def kept (cs : List (Change α)) : List α := cs.filterMap Change.kept?

/-- How many lines some changes remove or add. -/
def cost (cs : List (Change α)) : Nat := cs.countP fun c => !c.isKeep

/-- A longest one of the lists that are subsequences of two lists. -/
structure IsLongestCommon (zs xs ys : List α) : Prop where
  left : zs.Sublist xs
  right : zs.Sublist ys
  longest : ∀ ws : List α, ws.Sublist xs → ws.Sublist ys → ws.length ≤ zs.length

/-- One line is removed from a list, at any place, or added to it. -/
inductive Edit : List α → List α → Prop
  | remove (before : List α) (x : α) (after : List α) : Edit (before ++ x :: after) (before ++ after)
  | add (before : List α) (x : α) (after : List α) : Edit (before ++ after) (before ++ x :: after)

/-- A number of edits, one after the other, each of which may undo what another one did. -/
inductive Edits : Nat → List α → List α → Prop
  | done (xs : List α) : Edits 0 xs xs
  | first {n : Nat} {xs ys zs : List α} : Edit xs ys → Edits n ys zs → Edits (n + 1) xs zs

/-! ## What the table holds -/

section Table

variable [BEq α]

/-- How many lines two lists can share, by the recursion of the table. -/
def common : List α → List α → Nat
  | x :: xs, y :: ys =>
    if x == y then common xs ys + 1 else max (common xs (y :: ys)) (common (x :: xs) ys)
  | _, _ => 0
termination_by xs ys => xs.length + ys.length

/-- The walk along the table, with the numbers that the table would give. -/
def script : List α → List α → List (Change α)
  | [], ys => ys.map .add
  | xs, [] => xs.map .remove
  | x :: xs, y :: ys =>
    if x == y then .keep x :: script xs ys
    else if common (x :: xs) ys ≤ common xs (y :: ys) then .remove x :: script xs (y :: ys)
    else .add y :: script (x :: xs) ys
termination_by xs ys => xs.length + ys.length

@[simp] theorem common_nil_left (ys : List α) : common [] ys = 0 := by
  rw [common]
  simp

@[simp] theorem common_nil_right (xs : List α) : common xs [] = 0 := by
  rw [common]
  simp

theorem row_eq (x : α) (xs ys : List α) :
    row x ys (ys.tails.map (common xs)) = ys.tails.map (common (x :: xs)) := by
  induction ys with
  | nil => simp [row]
  | cons y ys ih =>
    rw [List.tails_cons, List.map_cons, List.map_cons, row]
    simp only [List.tail_cons, ih, headD_map_tails, List.headD_cons]
    rw [common]

theorem table_eq (xs ys : List α) :
    table ys xs = xs.tails.map fun us => ys.tails.map (common us) := by
  induction xs with
  | nil =>
    have hzero : common ([] : List α) = fun _ => 0 := funext common_nil_left
    simp [table, hzero]
  | cons x xs ih => rw [table, List.tails_cons, List.map_cons, ih, headD_map_tails, row_eq]

/-- The two entries that the walk compares. -/
theorem entries_of_cons {zs : List α} {j : Nat} {y : α} {ys : List α} (h : zs.drop j = y :: ys) (x : α)
    (xs : List α) :
    ((table zs (x :: xs)).headD []).getD (j + 1) 0 = common (x :: xs) ys ∧
      ((table zs (x :: xs)).tail.headD []).getD j 0 = common xs (y :: ys) := by
  have hlen := congrArg List.length h
  rw [List.length_drop, List.length_cons] at hlen
  simp only [table_eq, List.tails_cons, List.map_cons, List.headD_cons, List.tail_cons, headD_map_tails]
  rw [getD_map_tails _ (by omega), getD_map_tails _ (by omega), h, drop_succ_of_cons h]
  exact ⟨rfl, rfl⟩

/-- Along the table of the two lists the walk is the one that asks for the numbers themselves. -/
theorem follow_eq {zs : List α} (xs ys : List α) {j : Nat} (h : zs.drop j = ys) :
    follow (table zs xs) j xs ys = script xs ys := by
  fun_induction script xs ys generalizing j with
  | case1 ys => rw [follow]
  | case2 xs hxs => rw [follow]; exact hxs
  | case3 x xs y ys hxy ih =>
    rw [follow, if_pos hxy]
    exact congrArg _ (ih (drop_succ_of_cons h))
  | case4 x xs y ys hxy hle ih =>
    rw [follow, if_neg hxy, if_pos (by simpa only [entries_of_cons h] using hle)]
    exact congrArg _ (ih h)
  | case5 x xs y ys hxy hle ih =>
    rw [follow, if_neg hxy, if_neg (by simpa only [entries_of_cons h] using hle)]
    exact congrArg _ (ih (drop_succ_of_cons h))

theorem changes_eq_script (xs ys : List α) : changes xs ys = script xs ys :=
  follow_eq xs ys List.drop_zero

end Table

/-! ## Both lists are told -/

@[simp] theorem old_cons (c : Change α) (cs : List (Change α)) :
    old (c :: cs) = c.old?.toList ++ old cs := by
  cases c <;> rfl

@[simp] theorem new_cons (c : Change α) (cs : List (Change α)) :
    new (c :: cs) = c.new?.toList ++ new cs := by
  cases c <;> rfl

@[simp] theorem kept_cons (c : Change α) (cs : List (Change α)) :
    kept (c :: cs) = c.kept?.toList ++ kept cs := by
  cases c <;> rfl

@[simp] theorem cost_cons (c : Change α) (cs : List (Change α)) :
    cost (c :: cs) = cost cs + (!c.isKeep).toNat := by
  cases c <;> simp [cost]

/-- What some changes keep is a part of anything that takes up the kept lines. -/
theorem kept_sublist {f : Change α → Option α} (h : ∀ a, f (.keep a) = some a) (cs : List (Change α)) :
    (kept cs).Sublist (cs.filterMap f) := by
  induction cs with
  | nil => exact .slnil
  | cons c cs ih =>
    rw [kept_cons]
    cases c with
    | keep a => simpa [h] using ih
    | remove a => exact ih.trans ((List.sublist_cons_self _ cs).filterMap f)
    | add a => exact ih.trans ((List.sublist_cons_self _ cs).filterMap f)

/-- A line of the two lists is kept together with one of the other list, or costs a change. -/
theorem length_old_add_length_new (cs : List (Change α)) :
    (old cs).length + (new cs).length = cost cs + 2 * (kept cs).length := by
  induction cs with
  | nil => rfl
  | cons c cs ih => cases c <;> simp <;> omega

theorem old_script [BEq α] (xs ys : List α) : old (script xs ys) = xs := by
  fun_induction script xs ys with
  | case1 ys => simp [old]
  | case2 xs hxs => simp [old, Function.comp_def]
  | case3 x xs y ys hxy ih => simp [ih]
  | case4 x xs y ys hxy hle ih => simp [ih]
  | case5 x xs y ys hxy hle ih => simp [ih]

theorem new_script [BEq α] [LawfulBEq α] (xs ys : List α) : new (script xs ys) = ys := by
  fun_induction script xs ys with
  | case1 ys => simp [new, Function.comp_def]
  | case2 xs hxs => simp [new]
  | case3 x xs y ys hxy ih => simp [ih, eq_of_beq hxy]
  | case4 x xs y ys hxy hle ih => simp [ih]
  | case5 x xs y ys hxy hle ih => simp [ih]

/-! ## As many lines are kept as can be -/

/-- The walk keeps as many lines as the table says can be shared. -/
theorem length_kept_script [BEq α] (xs ys : List α) : (kept (script xs ys)).length = common xs ys := by
  fun_induction script xs ys with
  | case1 ys => simp [kept]
  | case2 xs hxs => simp [kept]
  | case3 x xs y ys hxy ih => simp [common, if_pos hxy, ih]
  | case4 x xs y ys hxy hle ih => simp [common, if_neg hxy, ih, max_eq_left hle]
  | case5 x xs y ys hxy hle ih => simp [common, if_neg hxy, ih, max_eq_right (Nat.le_of_not_le hle)]

/-- No two lists share more lines than the table says. -/
theorem length_le_common [BEq α] [LawfulBEq α] {zs : List α} (xs ys : List α) (hx : zs.Sublist xs)
    (hy : zs.Sublist ys) : zs.length ≤ common xs ys := by
  fun_induction common xs ys generalizing zs with
  | case1 x xs y ys hxy ih =>
    have hlen := ih hx.tail hy.tail
    rw [List.length_tail] at hlen
    omega
  | case2 x xs y ys hxy ihx ihy =>
    cases hx with
    | cons _ hx => exact Nat.le_trans (ihx hx hy) (Nat.le_max_left ..)
    | cons_cons _ hx =>
      cases hy with
      | cons _ hy => exact Nat.le_trans (ihy (hx.cons_cons x) hy) (Nat.le_max_right ..)
      | cons_cons _ hy => exact absurd (beq_self_eq_true x) hxy
  | case3 xs ys hnil =>
    have hempty : xs = [] ∨ ys = [] := by
      cases xs with
      | nil => exact .inl rfl
      | cons x xs =>
        cases ys with
        | nil => exact .inr rfl
        | cons y ys => exact absurd rfl (hnil x xs y ys rfl)
    obtain rfl | rfl := hempty
    · simp [List.sublist_nil.mp hx]
    · simp [List.sublist_nil.mp hy]

theorem isLongestCommon_script [BEq α] [LawfulBEq α] (xs ys : List α) :
    IsLongestCommon (kept (script xs ys)) xs ys where
  left := by
    conv_rhs => rw [← old_script xs ys]
    exact kept_sublist (fun _ => rfl) (script xs ys)
  right := by
    conv_rhs => rw [← new_script xs ys]
    exact kept_sublist (fun _ => rfl) (script xs ys)
  longest ws hx hy := by
    rw [length_kept_script]
    exact length_le_common xs ys hx hy

/-! ## Sequences of edits -/

theorem Edit.cons (a : α) {xs ys : List α} (h : Edit xs ys) : Edit (a :: xs) (a :: ys) := by
  cases h with
  | remove before x after => exact .remove (a :: before) x after
  | add before x after => exact .add (a :: before) x after

theorem Edits.cons (a : α) {n : Nat} {xs ys : List α} (h : Edits n xs ys) : Edits n (a :: xs) (a :: ys) := by
  induction h with
  | done xs => exact .done (a :: xs)
  | first hfirst _ ih => exact .first (hfirst.cons a) ih

/-- The removals and additions of some changes, made one after the other. -/
theorem edits_of_changes (cs : List (Change α)) : Edits (cost cs) (old cs) (new cs) := by
  induction cs with
  | nil => exact .done []
  | cons c cs ih =>
    cases c with
    | keep a => simpa using ih.cons a
    | remove a => simpa using Edits.first (.remove [] a (old cs)) ih
    | add a => simpa using Edits.first (.add [] a (old cs)) (ih.cons a)

/-- A subsequence loses at most one line when a line is removed. -/
theorem exists_sublist_append {zs before after : List α} {x : α} (h : zs.Sublist (before ++ x :: after)) :
    ∃ ws : List α, ws.Sublist (before ++ after) ∧ ws.Sublist zs ∧ zs.length ≤ ws.length + 1 := by
  obtain ⟨us, vs, rfl, hu, hv⟩ := List.sublist_append_iff.mp h
  refine ⟨us ++ vs.tail, hu.append hv.tail, (List.Sublist.refl us).append (List.tail_sublist vs), ?_⟩
  simp only [List.length_append, List.length_tail]
  omega

/-- Few edits leave much in common. -/
theorem Edits.exists_common {n : Nat} {xs ys : List α} (h : Edits n xs ys) :
    ∃ zs : List α, zs.Sublist xs ∧ zs.Sublist ys ∧ xs.length + ys.length ≤ n + 2 * zs.length := by
  induction h with
  | done xs => exact ⟨xs, .refl xs, .refl xs, by omega⟩
  | first hfirst _ ih =>
    obtain ⟨zs, hl, hr, hlen⟩ := ih
    cases hfirst with
    | remove before x after =>
      refine ⟨zs, hl.trans ((List.Sublist.refl before).append (List.sublist_cons_self x after)), hr, ?_⟩
      simp only [List.length_append, List.length_cons] at hlen ⊢
      omega
    | add before x after =>
      obtain ⟨ws, hws, hsub, hle⟩ := exists_sublist_append hl
      refine ⟨ws, hws, hsub.trans hr, ?_⟩
      simp only [List.length_append, List.length_cons] at hlen ⊢
      omega

/-- The difference of two lists of lines tells both of them. What it keeps is a longest common
subsequence, and it has as many removals and additions as the shortest sequence of edits that leads
from the one list to the other. -/
theorem changes_shortest (xs ys : List Text) :
    old (changes xs ys) = xs ∧ new (changes xs ys) = ys ∧
      IsLongestCommon (kept (changes xs ys)) xs ys ∧
      IsLeast { n | Edits n xs ys } (cost (changes xs ys)) := by
  rw [changes_eq_script]
  have hold := old_script xs ys
  have hnew := new_script xs ys
  have hlongest := isLongestCommon_script xs ys
  refine ⟨hold, hnew, hlongest, ?_, ?_⟩
  · have hedits := edits_of_changes (script xs ys)
    rwa [hold, hnew] at hedits
  · intro n hn
    obtain ⟨zs, hx, hy, hlen⟩ := Edits.exists_common hn
    have hkept := hlongest.longest zs hx hy
    have hcount := length_old_add_length_new (script xs ys)
    rw [hold, hnew] at hcount
    omega

/-! ## Removals come first -/

/-- A change that may stand right before another one: an addition does not stand before a removal. -/
def Change.MayPrecede : Change α → Change α → Prop
  | add _, remove _ => False
  | _, _ => True

/-- A line more in the second list takes nothing from what can be shared. -/
theorem common_le_cons [BEq α] [LawfulBEq α] (xs : List α) (y : α) (ys : List α) :
    common xs ys ≤ common xs (y :: ys) := by
  have h := isLongestCommon_script xs ys
  rw [← length_kept_script xs ys]
  exact length_le_common xs (y :: ys) h.left (h.right.cons y)

/-- Where nothing makes up for the loss of the first line, the walk does not start by removing it. -/
theorem head?_script_ne_remove [BEq α] [LawfulBEq α] {x : α} {xs ys : List α}
    (h : common xs ys < common (x :: xs) ys) (a : α) : (script (x :: xs) ys).head? ≠ some (.remove a) := by
  cases ys with
  | nil => simp at h
  | cons y ys =>
    rw [script]
    split
    · simp
    · rename_i hxy
      have hmono := common_le_cons xs y ys
      rw [common, if_neg hxy] at h
      rw [if_neg (by omega)]
      simp

theorem isChain_map (f : α → Change α) (h : ∀ a b, (f a).MayPrecede (f b)) (xs : List α) :
    (xs.map f).IsChain Change.MayPrecede :=
  (List.pairwise_map.mpr (List.pairwise_of_forall h)).isChain

theorem isChain_script [BEq α] [LawfulBEq α] (xs ys : List α) :
    (script xs ys).IsChain Change.MayPrecede := by
  fun_induction script xs ys with
  | case1 ys => exact isChain_map .add (fun _ _ => trivial) ys
  | case2 xs hxs => exact isChain_map .remove (fun _ _ => trivial) xs
  | case3 x xs y ys hxy ih => exact List.isChain_cons.mpr ⟨fun _ _ => trivial, ih⟩
  | case4 x xs y ys hxy hle ih => exact List.isChain_cons.mpr ⟨fun _ _ => trivial, ih⟩
  | case5 x xs y ys hxy hle ih =>
    -- the line is added because removing `x` would lose more, and after the addition it still would
    refine List.isChain_cons.mpr ⟨fun c hc => ?_, ih⟩
    have hmono := common_le_cons xs y ys
    have hhead := head?_script_ne_remove (show common xs ys < common (x :: xs) ys by omega)
    cases c with
    | keep a => trivial
    | remove a => exact hhead a hc
    | add a => trivial

/-- Changes that keep nothing are removals and then additions. -/
theorem exists_removed_added {run : List (Change α)} (h : run.IsChain Change.MayPrecede)
    (hrun : ∀ c ∈ run, c.isKeep = false) :
    ∃ removed added : List α, run = removed.map .remove ++ added.map .add := by
  induction run with
  | nil => exact ⟨[], [], rfl⟩
  | cons c run ih =>
    obtain ⟨hhead, htail⟩ := List.isChain_cons.mp h
    obtain ⟨removed, added, rfl⟩ := ih htail fun d hd => hrun d (List.mem_cons_of_mem c hd)
    cases c with
    | keep a => simpa using hrun (.keep a)
    | remove a => exact ⟨a :: removed, added, rfl⟩
    | add a =>
      cases removed with
      | nil => exact ⟨[], a :: added, rfl⟩
      | cons b removed => exact (hhead (.remove b) rfl).elim

/-- Among lines of a difference that stand next to each other and of which none is kept, the removed
ones come before the added ones. -/
theorem removals_before_additions (xs ys : List Text) (before run after : List (Change Text))
    (hsplit : changes xs ys = before ++ run ++ after) (hrun : ∀ c ∈ run, c.isKeep = false) :
    ∃ removed added : List Text, run = removed.map .remove ++ added.map .add := by
  have hchain := isChain_script xs ys
  rw [← changes_eq_script, hsplit] at hchain
  exact exists_removed_added hchain.left_of_append.right_of_append hrun

/-- Two lines that are replaced by one. -/
theorem removals_before_additions_replaced :
    changes [utf8 "a", utf8 "x", utf8 "w", utf8 "c"] [utf8 "a", utf8 "y", utf8 "c"] =
        [.keep (utf8 "a")] ++ [.remove (utf8 "x"), .remove (utf8 "w"), .add (utf8 "y")] ++
          [.keep (utf8 "c")] ∧
      (∀ c ∈ [Change.remove (utf8 "x"), .remove (utf8 "w"), .add (utf8 "y")], c.isKeep = false) ∧
      ∃ removed added : List Text,
        [Change.remove (utf8 "x"), .remove (utf8 "w"), .add (utf8 "y")] =
          removed.map .remove ++ added.map .add := by
  have hsplit : changes [utf8 "a", utf8 "x", utf8 "w", utf8 "c"] [utf8 "a", utf8 "y", utf8 "c"] =
      [.keep (utf8 "a")] ++ [.remove (utf8 "x"), .remove (utf8 "w"), .add (utf8 "y")] ++
        [.keep (utf8 "c")] := by decide +kernel
  have hrun : ∀ c ∈ [Change.remove (utf8 "x"), .remove (utf8 "w"), .add (utf8 "y")], c.isKeep = false := by
    decide
  exact ⟨hsplit, hrun, removals_before_additions _ _ _ _ _ hsplit hrun⟩

end FusionKit.Diff
