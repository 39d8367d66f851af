import FusionKit.Proofs.TidyTrees

/-!
# Newline runs at the ends of forms

Tidying takes one newline run from the end of a top-level form and two from the end of any other
one, the line breaks of line comments apart. So where forms end in two runs at most, those that are
tidied once more are top-level forms that end in two. A row of items is seen here as a row of
cells, which tell of each item what matters to newline runs.
-/
set_option autoImplicit false

namespace FusionKit

/-! ## Cells -/

/-- What an item of a form is to newline runs. -/
inductive Cell where
  | run (count : Int)
  | line
  | other
  deriving DecidableEq, Repr

namespace Cell

/-- How a row ends: whether in a line comment, and in how many newline runs that end none. -/
structure Ending where
  comment : Bool := false
  runs : Nat := 0
  deriving DecidableEq, Repr

/-- How many newline runs come first. -/
def leading : List Cell → Nat
  | run _ :: ms => leading ms + 1
  | _ => 0

/-- The end of a row with one more cell. -/
def after (e : Ending) : Cell → Ending
  | run _ => ⟨false, if e.comment then 0 else e.runs + 1⟩
  | line => ⟨true, 0⟩
  | other => ⟨false, 0⟩

/-- The end of a row. -/
def ending (ms : List Cell) : Ending := ms.foldl after {}

/-- How many newline runs come last that end no line comment. -/
def spare (ms : List Cell) : Nat := (ending ms).runs

/-- Whether each line comment is followed by its line break; `owed` tells whether one comes before
the row. -/
def ended (owed : Bool) : List Cell → Bool
  | [] => !owed
  | run count :: ms => (!owed || count == 1) && ended false ms
  | line :: ms => !owed && ended true ms
  | other :: ms => !owed && ended false ms

/-- Whether a cell is no newline run. -/
def isFirm : Cell → Bool
  | run _ => false
  | _ => true

variable {ms ns : List Cell} {m : Cell} {e : Ending} {owed : Bool}

@[simp] theorem ending_append : ending (ms ++ ns) = ns.foldl after (ending ms) := List.foldl_append

@[simp] theorem spare_append_firm (h : m.isFirm = true) : spare (ms ++ [m]) = 0 := by
  cases m with
  | run => contradiction
  | line | other => simp [spare, after]

theorem spare_append_spare (h : m ≠ line) (count : Int) :
    spare (ms ++ [m] ++ [run count]) = spare (ms ++ [m]) + 1 := by
  cases m <;> simp_all [spare, after]

theorem spare_append_run (count : Int) : spare (ms ++ [run count]) ≤ spare ms + 1 := by
  simp only [spare, ending_append, List.foldl_cons, List.foldl_nil, after]
  split <;> omega

/-- What stands before an item that is no newline run does not matter. -/
theorem foldl_after_of_firm (h : ∃ m ∈ ms, m.isFirm = true) (e e' : Ending) :
    ms.foldl after e = ms.foldl after e' := by
  induction ms generalizing e e' with
  | nil => simp at h
  | cons m ms ih =>
    cases hm : m.isFirm with
    | true => cases m <;> first | rfl | contradiction
    | false =>
      obtain ⟨m', hm', hfirm⟩ := h
      rcases List.mem_cons.mp hm' with rfl | hm'
      · rw [hm] at hfirm
        contradiction
      · exact ih ⟨m', hm', hfirm⟩ _ _

theorem leading_append_of_firm (h : ∃ m ∈ ms, m.isFirm = true) : leading (ms ++ ns) = leading ms := by
  induction ms with
  | nil => simp at h
  | cons m ms ih =>
    cases m with
    | run count =>
      obtain ⟨m', hm', hfirm⟩ := h
      rcases List.mem_cons.mp hm' with rfl | hm'
      · contradiction
      · rw [List.cons_append, leading, leading, ih ⟨m', hm', hfirm⟩]
    | line | other => rfl

theorem leading_append_firm (h : m.isFirm = true) : leading (ms ++ m :: ns) = leading ms := by
  induction ms with
  | nil => cases m <;> first | rfl | contradiction
  | cons m' ms ih => cases m' <;> simp [leading, ih]

theorem ended_append (h : ended owed ms = true) : ended owed (ms ++ ns) = ended false ns := by
  induction ms generalizing owed with
  | nil =>
    obtain rfl : owed = false := by simpa [ended] using h
    rfl
  | cons m ms ih =>
    cases m <;> simp only [ended, List.cons_append, Bool.and_eq_true] at h ⊢ <;> rw [ih h.2] <;> simp [h.1]

/-- A newline run that ends no line comment may go. -/
theorem ended_dropLast {count : Int} (hm : m ≠ line) (h : ended owed (ms ++ [m] ++ [run count]) = true) :
    ended owed (ms ++ [m]) = true := by
  induction ms generalizing owed with
  | nil => cases m <;> simp_all [ended]
  | cons m' ms ih =>
    cases m' <;> simp only [ended, List.cons_append, Bool.and_eq_true] at h ⊢ <;> exact ⟨h.1, ih h.2⟩

/-- The line break of a line comment is one line break. -/
theorem count_of_ended {count : Int} (h : ended owed (ms ++ [line] ++ [run count]) = true) : (count == 1) = true := by
  induction ms generalizing owed with
  | nil => simp_all [ended]
  | cons m' ms ih => cases m' <;> simp only [ended, List.cons_append, Bool.and_eq_true] at h <;> exact ih h.2

/-- A row of nothing but newline runs starts and ends with all of them. -/
theorem leading_eq_length (h : ¬ ∃ m ∈ ms, m.isFirm = true) : leading ms = ms.length := by
  induction ms with
  | nil => rfl
  | cons m ms ih =>
    cases m with
    | run count => rw [leading, ih fun ⟨m, hm, hfirm⟩ => h ⟨m, List.mem_cons_of_mem _ hm, hfirm⟩, List.length_cons]
    | line | other => exact absurd ⟨_, List.mem_cons_self, rfl⟩ h

theorem spare_eq_length (h : ¬ ∃ m ∈ ms, m.isFirm = true) : spare ms = ms.length := by
  suffices hall : ∀ k, (ms.foldl after ⟨false, k⟩).runs = k + ms.length by
    rw [spare, ending, hall 0, Nat.zero_add]
  induction ms with
  | nil => exact fun k => rfl
  | cons m ms ih =>
    intro k
    cases m with
    | run count =>
      rw [List.foldl_cons, List.length_cons]
      refine (ih (fun ⟨m, hm, hfirm⟩ => h ⟨m, List.mem_cons_of_mem _ hm, hfirm⟩) (k + 1)).trans ?_
      omega
    | line | other => exact absurd ⟨_, List.mem_cons_self, rfl⟩ h

/-- Rows that are the same to newline runs, whatever stands around them. -/
structure Alike (ms ns : List Cell) : Prop where
  leading : ∀ ks, leading (ms ++ ks) = leading (ns ++ ks)
  after : ∀ e, ms.foldl after e = ns.foldl after e
  ended : ∀ owed ks, ended owed (ms ++ ks) = ended owed (ns ++ ks)

theorem Alike.refl (ms : List Cell) : Alike ms ms := ⟨fun _ => rfl, fun _ => rfl, fun _ _ => rfl⟩

theorem Alike.cons {ms' ns' : List Cell} (h : Alike ms [m]) (h' : Alike ms' ns') : Alike (ms ++ ms') (m :: ns') where
  leading ks := by
    rw [List.append_assoc, h.leading]
    cases m <;> simp [Cell.leading, h'.leading]
  after e := by rw [List.foldl_append, h.after, h'.after, List.foldl_cons, List.foldl_cons, List.foldl_nil]
  ended owed ks := by
    rw [List.append_assoc, h.ended]
    cases m <;> simp [Cell.ended, h'.ended]

/-- What stands between two other cells does not matter. -/
theorem alike_enclosed (h : ended false ms = true) : Alike (other :: (ms ++ [other])) [other] where
  leading ks := rfl
  after e := by simp [Cell.after]
  ended owed ks := by
    simp only [List.cons_append, List.append_assoc, Cell.ended, ended_append h, List.nil_append, Bool.not_false,
      Bool.true_and]

end Cell

namespace Node

/-- The cell of a node. -/
def cell (n : Node) : Cell :=
  if n.isNewlines then .run n.label.count else if n.isCommentLine then .line else .other

/-- The cells of some nodes. -/
def cells (ns : List Node) : List Cell := ns.map cell

variable {n m : Node} {ns ms items : List Node}

theorem cell_of_label (h : m.label = n.label) : m.cell = n.cell := by
  rw [cell, cell, isNewlines_of_label h, isCommentLine_of_label h, h]

theorem isFirm_cell (n : Node) : n.cell.isFirm = !n.isNewlines := by
  unfold cell
  split
  · rename_i h
    rw [h]
    rfl
  · rename_i h
    rw [Bool.not_eq_true] at h
    rw [h]
    split <;> rfl

theorem cell_of_isNewlines (h : n.isNewlines = true) : n.cell = .run n.label.count := by
  rw [cell, if_pos h]

theorem cell_of_isCommentLine (h : n.isCommentLine = true) : n.cell = .line := by
  have hk : n.kind = .commentLine := by simpa [isCommentLine] using h
  simp [cell, isNewlines, isCommentLine, hk]

theorem cell_ne_line (h : n.isCommentLine = false) : n.cell ≠ .line := by
  rw [cell, h]
  split <;> simp

theorem cell_of_isCompound (h : n.isCompound = true) : n.cell = .other := by
  unfold cell isNewlines isCommentLine
  unfold isCompound at h
  revert h
  cases n.kind <;> simp [Kind.isCompound]

theorem cells_concat : cells (ns ++ [n]) = cells ns ++ [n.cell] := by simp [cells]

/-! ## Trimming -/

open Cell (leading spare ended)
open Guarded (trimmed trimmedFirst trimmedLast)

/-- At most one newline run stands at the start of a row and two at its end, where the line breaks of
line comments do not count; each line comment has its line break. -/
structure Edged (items : List Node) : Prop where
  leading : leading (cells items) ≤ 1
  spare : spare (cells items) ≤ 2
  ended : ended false (cells items) = true

theorem edged_nil : Edged [] := ⟨Nat.zero_le _, Nat.zero_le _, rfl⟩

theorem Edged.of_alike (h : Edged items) (halike : Cell.Alike (cells ns) (cells items)) : Edged ns where
  leading := by simpa using (halike.leading []).trans_le (by simpa using h.leading)
  spare := by
    rw [Cell.spare, Cell.ending, halike.after]
    exact h.spare
  ended := by simpa [h.ended] using halike.ended false []

theorem firm_cells (h : ∃ n ∈ items, n.isNewlines = false) : ∃ c ∈ cells items, c.isFirm = true := by
  obtain ⟨n, hn, hfirm⟩ := h
  exact ⟨n.cell, List.mem_map_of_mem hn, by rw [isFirm_cell, hfirm]; rfl⟩

theorem mem_trimmedFirst (hn : n ∈ items) (hfirm : n.isNewlines = false) : n ∈ trimmedFirst items := by
  unfold trimmedFirst
  split
  · split
    · rename_i hrun
      rcases List.mem_cons.mp hn with rfl | hn
      · rw [hfirm] at hrun
        contradiction
      · exact hn
    · exact hn
  · exact hn

/-- One newline run at most is taken from the start. -/
theorem leading_trimmedFirst (h : leading (cells items) ≤ 1) : leading (cells (trimmedFirst items)) = 0 := by
  cases items with
  | nil => rfl
  | cons n ns =>
    unfold trimmedFirst
    dsimp only
    split
    · rename_i hrun
      rw [cells, List.map_cons, cell_of_isNewlines hrun, Cell.leading] at h
      exact Nat.le_zero.mp (Nat.le_of_succ_le_succ h)
    · rename_i hrun
      rw [cells, List.map_cons, cell, if_neg hrun]
      split <;> rfl

theorem spare_trimmedFirst (h : ∃ n ∈ items, n.isNewlines = false) :
    spare (cells (trimmedFirst items)) = spare (cells items) := by
  cases items with
  | nil => rfl
  | cons n ns =>
    unfold trimmedFirst
    dsimp only
    split
    · rename_i hrun
      have hfirm : ∃ m ∈ ns, m.isNewlines = false := by
        obtain ⟨m, hm, hfirm⟩ := h
        rcases List.mem_cons.mp hm with rfl | hm
        · rw [hfirm] at hrun
          contradiction
        · exact ⟨m, hm, hfirm⟩
      exact congrArg Cell.Ending.runs (Cell.foldl_after_of_firm (firm_cells hfirm) _ _)
    · rfl

theorem ended_trimmedFirst (h : ended false (cells items) = true) :
    ended false (cells (trimmedFirst items)) = true := by
  cases items with
  | nil => rfl
  | cons n ns =>
    unfold trimmedFirst
    dsimp only
    split
    · rename_i hrun
      rwa [cells, List.map_cons, cell_of_isNewlines hrun, Cell.ended, Bool.not_false, Bool.true_or,
        Bool.true_and] at h
    · exact h

/-- What is trimmed at the end: nothing where no newline run is to spare, or one of them. -/
theorem trimmedLast_cases (h : ∃ n ∈ items, n.isNewlines = false) :
    trimmedLast items = items ∧ spare (cells items) = 0 ∨
      ∃ ns before last, items = ns ++ [before] ++ [last] ∧ trimmedLast items = ns ++ [before] ∧
        last.isNewlines = true ∧ before.isCommentLine = false := by
  unfold trimmedLast
  rcases hreverse : items.reverse with _ | ⟨last, _ | ⟨before, rest⟩⟩
  · obtain rfl := List.reverse_eq_nil_iff.mp hreverse
    exact .inl ⟨rfl, rfl⟩
  · obtain rfl : items = [last] := by rw [← List.reverse_reverse items, hreverse, List.reverse_singleton]
    obtain ⟨n, hn, hfirm⟩ := h
    rw [List.mem_singleton.mp hn] at hfirm
    exact .inl ⟨rfl, @Cell.spare_append_firm [] _ (by rw [isFirm_cell, hfirm]; rfl)⟩
  · have hitems : items = rest.reverse ++ [before] ++ [last] := by
      rw [← List.reverse_reverse items, hreverse]
      simp
    dsimp only
    split
    · rename_i hlast
      simp only [Bool.and_eq_true, Bool.not_eq_true'] at hlast
      exact .inr ⟨rest.reverse, before, last, hitems, by simp, hlast.1, hlast.2⟩
    · rename_i hlast
      refine .inl ⟨rfl, ?_⟩
      rw [hitems, cells_concat]
      cases hrun : last.isNewlines with
      | false => exact Cell.spare_append_firm (by rw [isFirm_cell, hrun]; rfl)
      | true =>
        have hline : before.isCommentLine = true := by simpa [hrun] using hlast
        rw [cell_of_isNewlines hrun, cells_concat, cell_of_isCommentLine hline]
        simp [Cell.spare, Cell.after]

theorem spare_trimmedLast (h : ∃ n ∈ items, n.isNewlines = false) :
    spare (cells (trimmedLast items)) = spare (cells items) - 1 := by
  rcases trimmedLast_cases h with ⟨heq, hspare⟩ | ⟨ns, before, last, rfl, heq, hrun, hline⟩
  · rw [heq, hspare]
  · rw [heq, cells_concat (n := last), cells_concat, cell_of_isNewlines hrun,
      Cell.spare_append_spare (cell_ne_line hline), Nat.add_sub_cancel]

theorem leading_trimmedLast (h : ∃ n ∈ items, n.isNewlines = false) (hleading : leading (cells items) = 0) :
    leading (cells (trimmedLast items)) = 0 := by
  rcases trimmedLast_cases h with ⟨heq, -⟩ | ⟨ns, before, last, rfl, heq, -⟩
  · rwa [heq]
  · rw [heq]
    rw [cells_concat] at hleading
    cases hcells : cells (ns ++ [before]) with
    | nil => rfl
    | cons c cs =>
      rw [hcells] at hleading
      cases c <;> first | rfl | contradiction

theorem ended_trimmedLast (h : ∃ n ∈ items, n.isNewlines = false) (hended : ended false (cells items) = true) :
    ended false (cells (trimmedLast items)) = true := by
  rcases trimmedLast_cases h with ⟨heq, -⟩ | ⟨ns, before, last, rfl, heq, hrun, hline⟩
  · rwa [heq]
  · rw [heq, cells_concat]
    rw [cells_concat, cells_concat, cell_of_isNewlines hrun] at hended
    exact Cell.ended_dropLast (cell_ne_line hline) hended

theorem firm_trimmedFirst (h : ∃ n ∈ items, n.isNewlines = false) :
    ∃ n ∈ trimmedFirst items, n.isNewlines = false := by
  obtain ⟨n, hn, hfirm⟩ := h
  exact ⟨n, mem_trimmedFirst hn hfirm, hfirm⟩

theorem spare_trimmed (h : ∃ n ∈ items, n.isNewlines = false) :
    spare (cells (trimmed items)) = spare (cells items) - 1 := by
  rw [trimmed, spare_trimmedLast (firm_trimmedFirst h), spare_trimmedFirst h]

theorem firm_trimmed (h : ∃ n ∈ items, n.isNewlines = false) : ∃ n ∈ trimmed items, n.isNewlines = false := by
  unfold trimmed
  rcases trimmedLast_cases (firm_trimmedFirst h) with ⟨heq, -⟩ | ⟨ns, before, last, hsplit, heq, hrun, -⟩
  · rw [heq]
    exact firm_trimmedFirst h
  · obtain ⟨n, hn, hfirm⟩ := firm_trimmedFirst h
    refine ⟨n, ?_, hfirm⟩
    rw [hsplit] at hn
    rw [heq]
    rcases List.mem_append.mp hn with hn | hn
    · exact hn
    · rw [List.mem_singleton.mp hn, hrun] at hfirm
      contradiction

theorem leading_trimmed (h : ∃ n ∈ items, n.isNewlines = false) (hleading : leading (cells items) ≤ 1) :
    leading (cells (trimmed items)) = 0 :=
  leading_trimmedLast (firm_trimmedFirst h) (leading_trimmedFirst hleading)

theorem ended_trimmed (h : ∃ n ∈ items, n.isNewlines = false) (hended : ended false (cells items) = true) :
    ended false (cells (trimmed items)) = true :=
  ended_trimmedLast (firm_trimmedFirst h) (ended_trimmedFirst hended)

/-- Where no newline run is left to trim, the edges are tidy. -/
theorem hasTidyEdges_of_cells (hleading : leading (cells items) = 0) (hended : ended false (cells items) = true)
    (hspare : spare (cells items) = 0) : hasTidyEdges items = true := by
  have hhead : (items.head?.all fun n => !n.isNewlines) = true := by
    cases items with
    | nil => rfl
    | cons n ns =>
      cases hrun : n.isNewlines with
      | false => simp [hrun]
      | true =>
        rw [cells, List.map_cons, cell_of_isNewlines hrun] at hleading
        contradiction
  rw [hasTidyEdges, hhead, Bool.true_and]
  rcases hreverse : items.reverse with _ | ⟨last, _ | ⟨before, rest⟩⟩
  · rw [List.reverse_eq_nil_iff.mp hreverse]
    rfl
  · obtain rfl : items = [last] := by rw [← List.reverse_reverse items, hreverse, List.reverse_singleton]
    simpa [endsTidy] using hhead
  · have hitems : items = rest.reverse ++ [before] ++ [last] := by
      rw [← List.reverse_reverse items, hreverse]
      simp
    rw [hitems, List.append_assoc, List.singleton_append, endsTidy_append, endsTidy]
    rw [hitems, cells_concat, cells_concat] at hended hspare
    cases hrun : last.isNewlines with
    | false => rfl
    | true =>
      rw [cell_of_isNewlines hrun] at hended hspare
      cases hline : before.isCommentLine with
      | true =>
        rw [cell_of_isCommentLine hline] at hended
        exact Cell.count_of_ended hended
      | false =>
        rw [Cell.spare_append_spare (cell_ne_line hline)] at hspare
        contradiction

/-! ## Tidying once -/

theorem clearEmpty_of_firm (h : ∃ n ∈ items, n.isNewlines = false) (f : Node → Node) :
    clearEmpty (items.map fun n => (n, f n)) = items.map fun n => (n, f n) := by
  obtain ⟨n, hn, hfirm⟩ := h
  rw [clearEmpty, if_neg]
  intro hall
  have := List.all_eq_true.mp hall (n, f n) (List.mem_map_of_mem hn)
  rw [hfirm] at this
  contradiction

theorem clearEmpty_of_runs (h : ¬ ∃ n ∈ items, n.isNewlines = false) (f : Node → Node) :
    clearEmpty (items.map fun n => (n, f n)) = [] := by
  rw [clearEmpty, if_pos]
  simp only [List.all_map, List.all_eq_true, Function.comp_apply]
  intro n hn
  cases hrun : n.isNewlines with
  | true => rfl
  | false => exact absurd ⟨n, hn, hrun⟩ h

/-- What is left of a form inside another one has tidy edges. -/
theorem isTidy_tidyItem_of_edged (n : Node) : (∀ m, n.Below m → m.isCompound = true → Edged m.items) →
    n.tidyItem.isTidy = true := by
  induction n using Node.induct with
  | h n ih =>
    intro h
    cases hn : n.isCompound with
    | false =>
      rw [tidyItem_of_not_isCompound hn, isTidy_iff, hn]
      exact fun h => absurd h (by decide)
    | true =>
      have hitems : ∀ m ∈ n.items, m.tidyItem.isTidy = true := fun m hm => ih m hm fun k hk => h k (.item hm hk)
      have hedged := h n (.refl n) hn
      obtain ⟨label, items⟩ := n
      rw [tidyItem, if_pos (show label.kind.isCompound = true from hn)]
      by_cases hfirm : ∃ n ∈ items, n.isNewlines = false
      · have honce := firm_trimmed hfirm
        -- an item is trimmed twice, so both runs at its end go
        have hspare : spare (cells (trimmed (trimmed items))) = 0 := by
          have htwo : spare (cells items) ≤ 2 := hedged.spare
          rw [spare_trimmed honce, spare_trimmed hfirm]
          omega
        have hedges : hasTidyEdges (trimmed (trimmed items)) = true := by
          refine hasTidyEdges_of_cells (leading_trimmed honce ?_) (ended_trimmed honce ?_) hspare
          · rw [leading_trimmed hfirm hedged.leading]
            exact Nat.zero_le _
          · exact ended_trimmed hfirm hedged.ended
        have hrow : trimEdges (trimEdges (clearEmpty (items.map fun n => (n, n.tidyItem)))) =
            (trimmed (trimmed items)).map fun n => (n, n.tidyItem) := by
          rw [clearEmpty_of_firm hfirm, Guarded.trimEdges_map, Guarded.trimEdges_map]
        refine isTidy_of_trimmed label (fun row => trimEdges (trimEdges row)) hrow hedges fun m hm => hitems m ?_
        exact (Guarded.trimmed_sublist items).subset ((Guarded.trimmed_sublist _).subset hm)
      · have hrow : trimEdges (trimEdges (clearEmpty (items.map fun n => (n, n.tidyItem)))) =
            ([] : List Node).map fun n => (n, n.tidyItem) := by
          rw [clearEmpty_of_runs hfirm]
          rfl
        exact isTidy_of_trimmed label (fun row => trimEdges (trimEdges row)) hrow rfl (by simp)

/-! ## Tidying twice -/

/-- The newlines that are put in front of forms are not at the end. -/
theorem foldl_after_breakRow (f : Node → Node) (hf : ∀ n, (f n).label = n.label) (afterBreak : Bool)
    (e : Cell.Ending) :
    (cells (breakRow afterBreak (ns.map fun n => (n, f n)))).foldl Cell.after e = (cells ns).foldl Cell.after e := by
  induction ns generalizing afterBreak e with
  | nil => rfl
  | cons n ns ih =>
    have hothers : ∀ e, (cells (f n :: breakRow n.isNewlines (ns.map fun n => (n, f n)))).foldl Cell.after e =
        (cells (n :: ns)).foldl Cell.after e := by
      intro e
      rw [cells, List.map_cons, List.foldl_cons, cell_of_label (hf n)]
      exact ih _ _
    rw [List.map_cons, breakRow]
    split
    · rename_i hbreak
      simp only [Bool.and_eq_true] at hbreak
      have hfirm : n.cell.isFirm = true := by rw [cell_of_isCompound hbreak.1.1]; rfl
      rw [cells, List.map_cons, List.foldl_cons, ← cells, hothers]
      exact Cell.foldl_after_of_firm ⟨n.cell, by simp [cells], hfirm⟩ _ _
    · exact hothers e

theorem mem_breakRow_of_mem {f : Node → Node} (hn : n ∈ ns) (afterBreak : Bool) :
    f n ∈ breakRow afterBreak (ns.map fun n => (n, f n)) := by
  induction ns generalizing afterBreak with
  | nil => contradiction
  | cons m ns ih =>
    have hothers : f n ∈ f m :: breakRow m.isNewlines (ns.map fun n => (n, f n)) := by
      rcases List.mem_cons.mp hn with rfl | hn
      · exact List.mem_cons_self
      · exact List.mem_cons_of_mem _ (ih hn _)
    rw [List.map_cons, breakRow]
    split
    · exact List.mem_cons_of_mem _ hothers
    · exact hothers

/-- What a top-level form is tidied to, when it holds anything but newline runs. -/
theorem tidy_of_firm {label : Label} (hn : label.kind.isCompound = true) (h : ∃ n ∈ items, n.isNewlines = false) :
    tidy ⟨label, items⟩ = ⟨label, breakRow true ((trimmed items).map fun n => (n, n.tidyItem))⟩ := by
  rw [tidy, if_pos (show (⟨label, items⟩ : Node).isCompound = true from hn), tidyItems_eq_map]
  dsimp only
  rw [← List.map_prod_left_eq_zip, clearEmpty_of_firm h, Guarded.trimEdges_map]

/-- Nothing but newline runs is nothing. -/
theorem tidy_of_runs {label : Label} (hn : label.kind.isCompound = true) (h : ¬ ∃ n ∈ items, n.isNewlines = false) :
    tidy ⟨label, items⟩ = ⟨label, []⟩ := by
  rw [tidy, if_pos (show (⟨label, items⟩ : Node).isCompound = true from hn), tidyItems_eq_map]
  dsimp only
  rw [← List.map_prod_left_eq_zip, clearEmpty_of_runs h]
  rfl

/-- Tidying takes one newline run from the end of a top-level form. -/
theorem spare_tidy (hn : n.isCompound = true) (h : ∃ m ∈ n.items, m.isNewlines = false) :
    spare (cells n.tidy.items) = spare (cells n.items) - 1 ∧ ∃ m ∈ n.tidy.items, m.isNewlines = false := by
  obtain ⟨label, items⟩ := n
  rw [tidy_of_firm hn h]
  constructor
  · rw [← spare_trimmed h]
    exact congrArg Cell.Ending.runs (foldl_after_breakRow tidyItem tidyItem_label true _)
  · obtain ⟨m, hm, hfirm⟩ := firm_trimmed h
    exact ⟨m.tidyItem, mem_breakRow_of_mem hm true, by rw [isNewlines_of_label (tidyItem_label m), hfirm]⟩

/-- A form with one newline run to trim at each end is tidy once it is tidied, if its items are. -/
theorem isTidy_tidy_of_items (hitems : ∀ m ∈ n.items, m.tidyItem.isTidy = true)
    (hedged : n.isCompound = true → Edged n.items ∧ spare (cells n.items) ≤ 1) : n.tidy.isTidy = true := by
  cases hn : n.isCompound with
  | false =>
    rw [tidy_of_not_isCompound hn, isTidy_iff, hn]
    exact fun h => absurd h (by decide)
  | true =>
    obtain ⟨hedged, hspare⟩ := hedged hn
    obtain ⟨label, items⟩ := n
    by_cases hfirm : ∃ n ∈ items, n.isNewlines = false
    · have hedges : hasTidyEdges (trimmed items) = true := by
        refine hasTidyEdges_of_cells (leading_trimmed hfirm hedged.leading) (ended_trimmed hfirm hedged.ended) ?_
        rw [spare_trimmed hfirm]
        dsimp only at hspare
        omega
      have hrow : trimEdges (clearEmpty (items.map fun n => (n, n.tidyItem))) =
          (trimmed items).map fun n => (n, n.tidyItem) := by
        rw [clearEmpty_of_firm hfirm, Guarded.trimEdges_map]
      rw [tidy, if_pos hn]
      refine isTidy_of_trimmed label trimEdges hrow hedges fun m hm => hitems m ?_
      exact (Guarded.trimmed_sublist items).subset hm
    · rw [tidy_of_runs hn hfirm, isTidy_iff]
      exact fun _ => ⟨rfl, by simp⟩

/-- No newlines are put in front of everything, and none between a line comment and its line break. -/
theorem ended_breakRow (f : Node → Node) (hf : ∀ n, (f n).label = n.label) (afterBreak : Bool) {owed : Bool}
    (h : ended owed (cells ns) = true) :
    ended owed (cells (breakRow afterBreak (ns.map fun n => (n, f n)))) = true := by
  induction ns generalizing afterBreak owed with
  | nil => exact h
  | cons n ns ih =>
    have hothers : ∀ {owed}, ended owed (cells (n :: ns)) = true →
        ended owed (cells (f n :: breakRow n.isNewlines (ns.map fun n => (n, f n)))) = true := by
      intro owed h
      rw [cells, List.map_cons, cell_of_label (hf n), ← cells]
      rw [cells, List.map_cons, ← cells] at h
      cases hcell : n.cell <;> rw [hcell, Cell.ended, Bool.and_eq_true] at h <;>
        rw [Cell.ended, h.1, Bool.true_and] <;> exact ih _ h.2
    rw [List.map_cons, breakRow]
    split
    · rename_i hbreak
      simp only [Bool.and_eq_true] at hbreak
      have hcell : n.cell = .other := cell_of_isCompound hbreak.1.1
      have howed : owed = false := by
        rw [cells, List.map_cons, hcell, Cell.ended, Bool.and_eq_true] at h
        simpa using h.1
      subst howed
      rw [cells, List.map_cons, ← cells]
      exact (Bool.and_eq_true _ _).mpr ⟨rfl, hothers h⟩
    · exact hothers h

theorem leading_breakRow (f : Node → Node) (hf : ∀ n, (f n).label = n.label) (h : leading (cells ns) = 0) :
    leading (cells (breakRow true (ns.map fun n => (n, f n)))) = 0 := by
  cases ns with
  | nil => rfl
  | cons n ns =>
    rw [List.map_cons, breakRow, if_neg (by simp), cells, List.map_cons, cell_of_label (hf n)]
    rw [cells, List.map_cons] at h
    cases hcell : n.cell <;> rw [hcell] at h <;> first | rfl | contradiction

/-- A top-level form that is tidied ends in one newline run at most. -/
theorem edged_tidy (hn : n.isCompound = true) (h : Edged n.items) :
    Edged n.tidy.items ∧ spare (cells n.tidy.items) ≤ 1 := by
  have hspare := h.spare
  obtain ⟨label, items⟩ := n
  by_cases hfirm : ∃ m ∈ items, m.isNewlines = false
  · have hone := (spare_tidy hn hfirm).1
    rw [tidy_of_firm hn hfirm] at hone ⊢
    dsimp only at hone hspare ⊢
    refine ⟨⟨?_, by omega, ended_breakRow tidyItem tidyItem_label true (ended_trimmed hfirm h.ended)⟩, by omega⟩
    rw [leading_breakRow tidyItem tidyItem_label (leading_trimmed hfirm h.leading)]
    exact Nat.zero_le _
  · rw [tidy_of_runs hn hfirm]
    exact ⟨edged_nil, Nat.zero_le _⟩

/-- The items of a form that is tidied are tidy. -/
theorem isTidy_items_tidy (hn : n.isCompound = true) (h : ∀ m ∈ n.items, m.tidyItem.isTidy = true) :
    ∀ m ∈ n.tidy.items, m.tidyItem.isTidy = true := by
  obtain ⟨label, items⟩ := n
  by_cases hfirm : ∃ m ∈ items, m.isNewlines = false
  · rw [tidy_of_firm hn hfirm]
    intro m hm
    rcases mem_breakRow hm with ⟨k, rfl⟩ | hm
    · rfl
    · simp only [List.map_map, List.mem_map, Function.comp_apply] at hm
      obtain ⟨k, hk, rfl⟩ := hm
      have hk := h k ((Guarded.trimmed_sublist items).subset hk)
      rw [tidyItem_of_isTidy _ hk]
      exact hk
  · rw [tidy_of_runs hn hfirm]
    simp

/-- Tidying once is tidying twice, but for a form that ends in two newline runs. -/
theorem tidy_tidy_iff (h : ∀ m, n.Below m → m.isCompound = true → Edged m.items) :
    n.tidy.tidy = n.tidy ↔ (n.isCompound = true → spare (cells n.items) ≤ 1) := by
  refine ⟨fun htwice hn => ?_, fun hspare => tidy_of_isTidy ?_⟩
  case refine_2 =>
    refine isTidy_tidy_of_items (fun m hm => ?_) fun hn => ⟨h n (.refl n) hn, hspare hn⟩
    exact m.isTidy_tidyItem_of_edged fun k hk => h k (.item hm hk)
  by_cases hfirm : ∃ m ∈ n.items, m.isNewlines = false
  · obtain ⟨honce, hfirm'⟩ := spare_tidy hn hfirm
    have hn' : n.tidy.isCompound = true := by
      rw [tidy, if_pos hn]
      exact hn
    -- the second pass would take one more run
    have htidy := (spare_tidy hn' hfirm').1
    rw [htwice] at htidy
    omega
  · -- with nothing else in between, the runs at the end are those at the start
    have hruns : ¬ ∃ c ∈ cells n.items, c.isFirm = true := by
      rintro ⟨c, hc, hfirm'⟩
      obtain ⟨m, hm, rfl⟩ := List.mem_map.mp hc
      exact hfirm ⟨m, hm, by simpa [isFirm_cell] using hfirm'⟩
    rw [Cell.spare_eq_length hruns, ← Cell.leading_eq_length hruns]
    exact (h n (.refl n) hn).leading

/-- Tidying a third time changes nothing. -/
theorem tidy_tidy_tidy (h : ∀ m, n.Below m → m.isCompound = true → Edged m.items) :
    n.tidy.tidy.tidy = n.tidy.tidy := by
  cases hn : n.isCompound with
  | false => simp only [tidy_of_not_isCompound hn]
  | true =>
    have hitems : ∀ m ∈ n.items, m.tidyItem.isTidy = true := fun m hm =>
      m.isTidy_tidyItem_of_edged fun k hk => h k (.item hm hk)
    refine tidy_of_isTidy (isTidy_tidy_of_items (isTidy_items_tidy hn hitems) fun _ => ?_)
    exact edged_tidy hn (h n (.refl n) hn)

end Node

end FusionKit
