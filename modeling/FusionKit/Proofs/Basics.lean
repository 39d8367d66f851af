import Mathlib.Data.List.Forall2
import Mathlib.Data.List.GetD
import Mathlib.Data.List.Infix
import FusionKit.Text

/-!
# Results and lists

Facts that have nothing to do with any of the data of this library, beside those that Mathlib has: which
results the steps of a computation have that may fail, stable sorting, and lists that are paired item by
item. Texts are lists of bytes, and their order is the one of dictionaries.
-/
set_option autoImplicit false

namespace FusionKit

/-! ## Results -/

section

variable {ε α β : Type}

theorem except_bind_ok {x : Except ε α} {f : α → Except ε β} {b : β} :
    (x >>= f) = .ok b ↔ ∃ a, x = .ok a ∧ f a = .ok b := by
  cases x with
  | error e => simp [bind, Except.bind]
  | ok a => simp [bind, Except.bind]

theorem error_of_bind {x : Except ε α} {f : α → Except ε β} {e : ε} (h : x >>= f = .error e) :
    x = .error e ∨ ∃ a, x = .ok a ∧ f a = .error e := by
  cases x with
  | error e' => exact .inl (congrArg Except.error (Except.error.inj h))
  | ok a => exact .inr ⟨a, rfl, h⟩

theorem ok_of_map {x : Except ε α} {f : α → β} {b : β} (h : x.map f = .ok b) : ∃ a, x = .ok a ∧ f a = b := by
  cases x with
  | error e => cases h
  | ok a => exact ⟨a, rfl, Except.ok.inj h⟩

theorem error_of_map {x : Except ε α} {f : α → β} {e : ε} (h : x.map f = .error e) : x = .error e := by
  cases x with
  | error e' => exact congrArg Except.error (Except.error.inj h)
  | ok a => cases h

theorem exists_ok_of_any {x : Except ε α} {p : α → Bool} (h : x.toOption.any p = true) :
    ∃ a, x = .ok a ∧ p a = true := by
  cases x with
  | error e => contradiction
  | ok a => exact ⟨a, rfl, h⟩

variable {f : α → Except ε β} {items : List α}

/-- What is made of some items, one by one, is made of one of them each. -/
theorem exists_of_mapM {made : List β} (h : items.mapM f = .ok made) : ∀ b ∈ made, ∃ a ∈ items, f a = .ok b := by
  induction items generalizing made with
  | nil =>
    cases h
    exact fun b hb => absurd hb List.not_mem_nil
  | cons a items ih =>
    rw [List.mapM_cons] at h
    obtain ⟨first, hfirst, h⟩ := except_bind_ok.mp h
    obtain ⟨others, hothers, h⟩ := except_bind_ok.mp h
    obtain rfl : first :: others = made := Except.ok.inj h
    intro b hb
    rcases List.mem_cons.mp hb with rfl | hb
    · exact ⟨a, List.mem_cons_self, hfirst⟩
    · obtain ⟨other, hother, hmade⟩ := ih hothers b hb
      exact ⟨other, List.mem_cons_of_mem _ hother, hmade⟩

/-- Where nothing can be made of some items, nothing can be made of one of them. -/
theorem exists_error_of_mapM {e : ε} (h : items.mapM f = .error e) : ∃ a ∈ items, f a = .error e := by
  induction items with
  | nil => cases h
  | cons a items ih =>
    rw [List.mapM_cons] at h
    rcases error_of_bind h with hfault | ⟨first, -, h⟩
    · exact ⟨a, List.mem_cons_self, hfault⟩
    rcases error_of_bind h with hfault | ⟨others, -, h⟩
    · obtain ⟨other, hother, hfault⟩ := ih hfault
      exact ⟨other, List.mem_cons_of_mem _ hother, hfault⟩
    · cases h

end

/-! ## Lists -/

section

variable {α β : Type}

/-- A list is not longer than one that has all of it at the same places. -/
theorem length_le_of_getElem? {as bs : List α} (h : ∀ (i : Nat) (a : α), as[i]? = some a → bs[i]? = some a) :
    as.length ≤ bs.length := by
  refine Nat.le_of_not_lt fun hlt => ?_
  have hlast := h bs.length as[bs.length] (List.getElem?_eq_getElem hlt)
  exact Nat.lt_irrefl _ (List.getElem?_eq_some_iff.mp hlast).1

theorem drop_succ_of_cons {zs : List α} {j : Nat} {y : α} {ys : List α} (h : zs.drop j = y :: ys) :
    zs.drop (j + 1) = ys := by
  rw [← List.tail_drop, h, List.tail_cons]

theorem headD_map_tails (f : List α → β) (ys : List α) (d : β) : (ys.tails.map f).headD d = f ys := by
  cases ys <;> rfl

theorem getD_map_tails (f : List α → β) {ys : List α} {j : Nat} (h : j ≤ ys.length) (d : β) :
    (ys.tails.map f).getD j d = f (ys.drop j) := by
  have hj : j < (ys.tails.map f).length := by
    rw [List.length_map, List.length_tails]
    omega
  rw [List.getD_eq_getElem _ _ hj, List.getElem_map, List.getElem_tails]

theorem lookup_filter_ne [BEq α] [LawfulBEq α] {l : List (α × β)} {a b : α} (h : a ≠ b) :
    (l.filter (·.1 != b)).lookup a = l.lookup a := by
  induction l with
  | nil => rfl
  | cons entry l ih =>
    obtain ⟨key, value⟩ := entry
    by_cases hkey : key = b
    · have hne : (a == key) = false := beq_eq_false_iff_ne.mpr fun heq => h (heq.trans hkey)
      rw [List.filter_cons, if_neg (by simp [hkey]), ih, List.lookup_cons, hne]
    · rw [List.filter_cons, if_pos (bne_iff_ne.mpr hkey), List.lookup_cons, List.lookup_cons, ih]

/-- A choice is made if something can be chosen. It is never dropped, and is made of what `P` holds for. -/
theorem exists_of_foldl_choice {P : α → Prop} {step : Option α → α → Option α}
    (hstep : ∀ best a, step best a = best ∧ (P a → best.isSome) ∨ P a ∧ step best a = some a) {as : List α}
    (h : ∃ a ∈ as, P a) : ∃ a ∈ as, as.foldl step none = some a ∧ P a := by
  have hall : ∀ (as : List α) (start : Option α), (start.isSome ∨ ∃ a ∈ as, P a) →
      ∃ a, as.foldl step start = some a ∧ (start = some a ∨ a ∈ as ∧ P a) := by
    intro as
    induction as with
    | nil =>
      intro start h
      obtain ⟨a, ha⟩ := Option.isSome_iff_exists.mp (h.resolve_right (by simp))
      exact ⟨a, ha, .inl ha⟩
    | cons b as ih =>
      intro start h
      rw [List.foldl_cons]
      rcases hstep start b with ⟨heq, hsome⟩ | ⟨hb, heq⟩
      · rw [heq]
        have hnext : start.isSome ∨ ∃ a ∈ as, P a := by
          rcases h with h | ⟨a, ha, hPa⟩
          · exact .inl h
          · rcases List.mem_cons.mp ha with rfl | ha
            · exact .inl (hsome hPa)
            · exact .inr ⟨a, ha, hPa⟩
        obtain ⟨a, hfold, ha | ⟨ha, hPa⟩⟩ := ih start hnext
        · exact ⟨a, hfold, .inl ha⟩
        · exact ⟨a, hfold, .inr ⟨List.mem_cons_of_mem _ ha, hPa⟩⟩
      · rw [heq]
        obtain ⟨a, hfold, ha | ⟨ha, hPa⟩⟩ := ih (some b) (.inl rfl)
        · obtain rfl := Option.some.inj ha
          exact ⟨b, hfold, .inr ⟨List.mem_cons_self, hb⟩⟩
        · exact ⟨a, hfold, .inr ⟨List.mem_cons_of_mem _ ha, hPa⟩⟩
  obtain ⟨a, hfold, ha⟩ := hall as none (.inr h)
  obtain ⟨hmem, hPa⟩ := ha.resolve_left (by simp)
  exact ⟨a, hmem, hfold, hPa⟩

/-! ### Paired items -/

variable {R S : α → β → Prop} {as : List α} {bs : List β}

theorem forall₂_imp_of_mem (h : List.Forall₂ R as bs) (himp : ∀ a ∈ as, ∀ b, R a b → S a b) :
    List.Forall₂ S as bs := by
  have hboth := (List.forall₂_and_left as bs).mpr ⟨himp, h⟩
  exact hboth.imp fun a b hab => hab.1 b hab.2

theorem exists_forall₂ (h : ∀ a ∈ as, ∃ b, R a b) : ∃ bs, List.Forall₂ R as bs := by
  induction as with
  | nil => exact ⟨[], .nil⟩
  | cons a as ih =>
    obtain ⟨⟨b, hb⟩, has⟩ := List.forall_mem_cons.mp h
    obtain ⟨bs, hbs⟩ := ih has
    exact ⟨b :: bs, .cons hb hbs⟩

end

/-! ### Stable sorting -/

section

variable {α : Type} {le : α → α → Bool} (trans : ∀ a b c, le a b → le b c → le a c) (total : ∀ a b, le a b || le b a)
include trans total

/-- A stable sort puts an element in front of those that it may stand before. -/
theorem mergeSort_cons_eq (a : α) (l : List α) :
    (a :: l).mergeSort le = (l.mergeSort le).filter (!le a ·) ++ a :: (l.mergeSort le).filter (le a ·) ∧
    l.mergeSort le = (l.mergeSort le).filter (!le a ·) ++ (l.mergeSort le).filter (le a ·) := by
  obtain ⟨front, back, hcons, hsplit, hfront⟩ := List.mergeSort_cons trans total a l
  have hback : ∀ b ∈ back, le a b = true := by
    have hsorted := List.pairwise_mergeSort trans total (a :: l)
    rw [hcons] at hsorted
    exact (List.pairwise_cons.mp (List.pairwise_append.mp hsorted).2.1).1
  have hbefore : (l.mergeSort le).filter (!le a ·) = front := by
    rw [hsplit, List.filter_append, List.filter_eq_self.mpr hfront, List.filter_eq_nil_iff.mpr, List.append_nil]
    intro b hb
    simp [hback b hb]
  have hafter : (l.mergeSort le).filter (le a ·) = back := by
    rw [hsplit, List.filter_append, List.filter_eq_self.mpr hback, List.filter_eq_nil_iff.mpr, List.nil_append]
    intro b hb
    simpa using hfront b hb
  rw [hbefore, hafter]
  exact ⟨hcons, hsplit⟩

/-- Of fewer elements, a stable sort makes what is left of the sorted ones. -/
theorem filter_mergeSort (p : α → Bool) (l : List α) : (l.mergeSort le).filter p = (l.filter p).mergeSort le := by
  induction l with
  | nil => simp
  | cons a l ih =>
    obtain ⟨hcons, hsplit⟩ := mergeSort_cons_eq trans total a l
    cases ha : p a with
    | true =>
      obtain ⟨hkept, -⟩ := mergeSort_cons_eq trans total a (l.filter p)
      have hcomm (q : α → Bool) (l : List α) : (l.filter q).filter p = (l.filter p).filter q := by
        simp only [List.filter_filter, Bool.and_comm]
      rw [List.filter_cons_of_pos ha, hkept, hcons, List.filter_append, List.filter_cons_of_pos ha, hcomm, hcomm, ih]
    | false =>
      have hne : ¬p a = true := by simp [ha]
      rw [List.filter_cons_of_neg hne, hcons, List.filter_append, List.filter_cons_of_neg hne, ← List.filter_append,
        ← hsplit, ih]

end

/-! ## The order of texts -/

namespace Text

theorem le_cons (a b : UInt8) (s t : Text) :
    le (a :: s) (b :: t) = true ↔ a.toNat < b.toNat ∨ a.toNat = b.toNat ∧ le s t = true := by
  rw [le]
  split
  · rename_i h
    obtain rfl := beq_iff_eq.mp h
    simp
  · rename_i h
    have hne : a.toNat ≠ b.toNat := fun heq => h (beq_iff_eq.mpr (UInt8.toNat_inj.mp heq))
    simp [UInt8.lt_iff_toNat_lt, hne]

theorem le_total (s t : Text) : le s t = true ∨ le t s = true := by
  induction s generalizing t with
  | nil => exact .inl rfl
  | cons a s ih =>
    cases t with
    | nil => exact .inr rfl
    | cons b t =>
      have hrest := ih t
      rw [le_cons, le_cons]
      grind

theorem le_trans {s t u : Text} (h : le s t = true) (h' : le t u = true) : le s u = true := by
  induction s generalizing t u with
  | nil => rfl
  | cons a s ih =>
    cases t with
    | nil => cases h
    | cons b t =>
      cases u with
      | nil => cases h'
      | cons c u =>
        rw [le_cons] at h h' ⊢
        have hrest : le s t = true → le t u = true → le s u = true := ih
        grind

theorem le_antisymm {s t : Text} (h : le s t = true) (h' : le t s = true) : s = t := by
  induction s generalizing t with
  | nil =>
    cases t with
    | nil => rfl
    | cons => cases h'
  | cons a s ih =>
    cases t with
    | nil => cases h
    | cons b t =>
      rw [le_cons] at h h'
      have hhead : a.toNat = b.toNat := by omega
      have hrest : s = t := ih (by grind) (by grind)
      rw [UInt8.toNat_inj.mp hhead, hrest]

end Text

end FusionKit
