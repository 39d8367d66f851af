import FusionKit.Proofs.GuardedTidy

/-!
# Tidying touches newline runs only

What tidying does to a tree, said as a relation that knows nothing of where newline runs belong: a
row keeps its nodes in their order, but for newline runs that go and single newlines that come, each
with the span of the form right behind it. Without its newline runs the tree is the one it was.
-/
set_option autoImplicit false

namespace FusionKit.Node

/-! ## Trees without newline runs -/

mutual

/-- A node with all newline runs of its form, and of the forms below, taken out. -/
def unbroken : Node → Node
  | ⟨label, items⟩ => if label.kind.isCompound then ⟨label, unbrokenAll items⟩ else ⟨label, items⟩

/-- The items of a form without newline runs, and so on below. -/
def unbrokenAll : List Node → List Node
  | [] => []
  | n :: ns => if n.isNewlines then unbrokenAll ns else unbroken n :: unbrokenAll ns

end

/-! ## Newline runs that come and go -/

/-- A row and what becomes of it. -/
inductive RowRebroken (R : Node → Node → Prop) : List Node → List Node → Prop where
  | nil : RowRebroken R [] []
  /-- A node stays in its place. -/
  | kept {n m : Node} {ns ms : List Node} (hn : R n m) (h : RowRebroken R ns ms) :
      RowRebroken R (n :: ns) (m :: ms)
  /-- A newline run goes. -/
  | dropped {n : Node} {ns ms : List Node} (hn : n.isNewlines = true) (h : RowRebroken R ns ms) :
      RowRebroken R (n :: ns) ms
  /-- A single newline comes in front of a form, with the span of the form. -/
  | inserted {n m : Node} {ns ms : List Node} (hm : m.isCompound = true) (hn : R n m)
      (h : RowRebroken R ns ms) :
      RowRebroken R (n :: ns) (⟨{ kind := .newlines, span := m.span, count := 1 }, []⟩ :: m :: ms)

/-- A node and what becomes of it: a form keeps its label, and anything else is the same. -/
inductive Rebroken : Node → Node → Prop where
  | same {n : Node} (hn : n.isCompound = false) : Rebroken n n
  | form {label : Label} {ns ms : List Node} (hk : label.kind.isCompound = true)
      (h : RowRebroken Rebroken ns ms) : Rebroken ⟨label, ns⟩ ⟨label, ms⟩

theorem Rebroken.label {n m : Node} (h : Rebroken n m) : m.label = n.label := by
  cases h with
  | same => rfl
  | form => rfl

theorem Rebroken.of_items {n : Node} {ms : List Node} (hn : n.isCompound = true)
    (h : RowRebroken Rebroken n.items ms) : Rebroken n { n with items := ms } := by
  obtain ⟨label, ns⟩ := n
  exact .form hn h

namespace RowRebroken

variable {R : Node → Node → Prop} {ns ms : List Node}

theorem all_dropped (h : ∀ n ∈ ns, n.isNewlines = true) : RowRebroken R ns [] := by
  induction ns with
  | nil => exact .nil
  | cons n ns ih => exact .dropped (h n (by simp)) (ih fun m hm => h m (by simp [hm]))

theorem dropped_last (h : RowRebroken R ns ms) {n : Node} (hn : n.isNewlines = true) :
    RowRebroken R (ns ++ [n]) ms := by
  induction h with
  | nil => exact .dropped hn .nil
  | kept hm _ ih => exact .kept hm ih
  | dropped hm _ ih => exact .dropped hm ih
  | inserted hm hnm _ ih => exact .inserted hm hnm ih

/-- What is trimmed at the edges of a row are newline runs. -/
theorem of_trimmed {items : List Node} (h : RowRebroken R (Guarded.trimmed items) ms) :
    RowRebroken R items ms := by
  have hlast : ∀ {items : List Node}, RowRebroken R (Guarded.trimmedLast items) ms →
      RowRebroken R items ms := by
    intro items h
    unfold Guarded.trimmedLast at h
    split at h
    · rename_i last before rest hreverse
      split_ifs at h with hcond
      · simp only [Bool.and_eq_true] at hcond
        have hitems : items = (before :: rest).reverse ++ [last] := by
          rw [← List.reverse_reverse items, hreverse]
          simp
        rw [hitems]
        exact h.dropped_last hcond.1
      · exact h
    · exact h
  have hfirst := hlast h
  unfold Guarded.trimmedFirst at hfirst
  split at hfirst
  · split_ifs at hfirst with hn
    · exact .dropped hn hfirst
    · exact hfirst
  · exact hfirst

theorem of_cleared {n : Node} (h : RowRebroken R (Guarded.cleared n).items ms) :
    RowRebroken R n.items ms := by
  unfold Guarded.cleared at h
  split_ifs at h with hall
  · simp only [Bool.and_eq_true, List.all_eq_true] at hall
    cases h with
    | nil => exact all_dropped hall.2
  · exact h

/-- Newlines are put in front of forms only. -/
theorem breakRow (h : ∀ n ∈ ns, R n n.tidyItem) (afterBreak : Bool) :
    RowRebroken R ns (Node.breakRow afterBreak (Guarded.row ns)) := by
  induction ns generalizing afterBreak with
  | nil => exact .nil
  | cons n ns ih =>
    have hn := h n (by simp)
    have hrest := ih (fun m hm => h m (by simp [hm])) n.isNewlines
    rw [Guarded.row, List.map_cons, Node.breakRow]
    split
    · rename_i hcond
      simp only [Bool.and_eq_true] at hcond
      have hcompound : n.tidyItem.isCompound = true := by
        rw [isCompound, kind, tidyItem_label]
        exact hcond.1.1
      have hspan : n.tidyItem.span = n.span := by rw [span, tidyItem_label, span]
      have := RowRebroken.inserted hcompound hn hrest
      rwa [hspan] at this
    · exact .kept hn hrest

end RowRebroken

/-! ## Tidying -/

theorem rebroken_tidyItem (n : Node) : Rebroken n n.tidyItem := by
  induction n using Node.induct with
  | h n ih =>
    cases hn : n.isCompound with
    | false =>
      rw [tidyItem_of_not_isCompound hn]
      exact .same hn
    | true =>
      rw [Guarded.tidyItem_eq hn]
      have hitems : (Guarded.trimmed (Guarded.trimmed (Guarded.cleared n).items)).Sublist n.items :=
        (Guarded.trimmed_sublist _).trans ((Guarded.trimmed_sublist _).trans (Guarded.cleared_sublist n))
      have hrow := RowRebroken.breakRow (fun m hm => ih m (hitems.subset hm)) true
      exact .of_items hn hrow.of_trimmed.of_trimmed.of_cleared

theorem rebroken_tidy (n : Node) : Rebroken n n.tidy := by
  cases hn : n.isCompound with
  | false =>
    rw [tidy_of_not_isCompound hn]
    exact .same hn
  | true =>
    rw [Guarded.tidy_eq hn]
    have hrow := RowRebroken.breakRow (fun m (_ : m ∈ Guarded.trimmed (Guarded.cleared n).items) =>
      rebroken_tidyItem m) true
    exact .of_items hn hrow.of_trimmed.of_cleared

theorem RowRebroken.unbrokenAll_eq {ns ms : List Node} (h : RowRebroken Rebroken ns ms)
    (ih : ∀ n ∈ ns, ∀ m, Rebroken n m → m.unbroken = n.unbroken) : unbrokenAll ms = unbrokenAll ns := by
  induction h with
  | nil => rfl
  | kept hn _ hrest =>
    rw [unbrokenAll, unbrokenAll, isNewlines_of_label hn.label, ih _ (by simp) _ hn,
      hrest fun n hm => ih n (by simp [hm])]
  | dropped hn _ hrest =>
    rw [unbrokenAll, if_pos hn, hrest fun n hm => ih n (by simp [hm])]
  | @inserted n m ns ms hm hn _ hrest =>
    have hbreak : ∀ span, (⟨{ kind := .newlines, span, count := 1 }, []⟩ : Node).isNewlines = true :=
      fun _ => rfl
    rw [unbrokenAll, if_pos (hbreak _), unbrokenAll, unbrokenAll, isNewlines_of_label hn.label,
      ih _ (by simp) _ hn, hrest fun n hm => ih n (by simp [hm])]

theorem Rebroken.unbroken_eq {n m : Node} (h : Rebroken n m) : m.unbroken = n.unbroken := by
  induction n using Node.induct generalizing m with
  | h n ih =>
    cases h with
    | same => rfl
    | form hk hrow =>
      rw [unbroken, unbroken, if_pos hk, if_pos hk, hrow.unbrokenAll_eq fun n hn m hm => ih n hn hm]

/-- Tidying keeps all but newline runs: without them each tree is the one it was, there are as many
nodes at the top as before, and in every form the nodes keep their order and their places, but for
newline runs that go and single newlines that come, with the span of the form right behind them. -/
theorem tidy_rebroken (tree : List Node) :
    (tree.map tidy).map unbroken = tree.map unbroken ∧ (tree.map tidy).length = tree.length ∧
      List.Forall₂ Rebroken tree (tree.map tidy) := by
  have hall : List.Forall₂ Rebroken tree (tree.map tidy) := by
    rw [List.forall₂_map_right_iff, List.forall₂_same]
    exact fun n _ => rebroken_tidy n
  refine ⟨?_, List.length_map _, hall⟩
  rw [List.map_map]
  exact List.map_congr_left fun n _ => (rebroken_tidy n).unbroken_eq

end FusionKit.Node
