import FusionKit.Index

/-!
# Places in an index

Modules and scripts keep the places they were first put at. An index is sound when its tables give
each name the place at which its entry stands, every entry knows that place, and requirements point
to places that are there; putting a module or a script keeps it so, and takes no name its place.
-/
set_option autoImplicit false

namespace FusionKit

namespace Table

variable {β : Type} {t : Table β} {name key : Text} {value : β}

theorem get?_filter_ne (h : key ≠ name) : get? (t.filter (·.1 != name)) key = t.get? key := by
  unfold get?
  induction t with
  | nil => rfl
  | cons entry t ih =>
    obtain ⟨other, v⟩ := entry
    by_cases ho : other = name
    · have hkey : (key == other) = false := by simpa [ho] using h
      rw [List.filter_cons, ho, bne_self_eq_false, if_neg Bool.false_ne_true, ih, List.lookup_cons, ← ho, hkey]
    · rw [List.filter_cons, if_pos (bne_iff_ne.mpr ho), List.lookup_cons, List.lookup_cons, ih]

theorem get?_filter_self : get? (t.filter (·.1 != name)) name = none := by
  unfold get?
  induction t with
  | nil => rfl
  | cons entry t ih =>
    obtain ⟨other, v⟩ := entry
    by_cases ho : other = name
    · rw [List.filter_cons, ho, bne_self_eq_false, if_neg Bool.false_ne_true, ih]
    · have hname : (name == other) = false := by simpa using Ne.symm ho
      rw [List.filter_cons, if_pos (bne_iff_ne.mpr ho), List.lookup_cons, hname, ih]

theorem get?_put : (t.put name value).get? key = if key = name then some value else t.get? key := by
  rw [put, get?, List.lookup_cons]
  by_cases h : key = name
  · rw [if_pos h, beq_iff_eq.mpr h]
  · rw [if_neg h, beq_eq_false_iff_ne.mpr h]
    exact get?_filter_ne h

theorem nodup_put (h : (t.map (·.1)).Nodup) : ((t.put name value).map (·.1)).Nodup := by
  refine List.nodup_cons.mpr ⟨fun hmem => ?_, h.sublist (List.filter_sublist.map _)⟩
  obtain ⟨entry, hentry, hname⟩ := List.mem_map.mp hmem
  exact absurd hname (bne_iff_ne.mp (List.mem_filter.mp hentry).2)

theorem mem_put {entry : Text × β} (h : entry ∈ t.put name value) :
    entry = (name, value) ∨ entry ∈ t ∧ entry.1 ≠ name := by
  rcases List.mem_cons.mp h with rfl | h
  · exact .inl rfl
  · obtain ⟨ht, hne⟩ := List.mem_filter.mp h
    exact .inr ⟨ht, bne_iff_ne.mp hne⟩

end Table

namespace Index

/-! ## Entries by name -/

/-- A table gives the names of some entries their places, and each entry knows its own. -/
structure Numbered {α : Type} (nameOf : α → Text) (idOf : α → Nat) (ids : Table Nat) (entries : List α) :
    Prop where
  nodup : (ids.map (·.1)).Nodup
  entry : ∀ id e, entries[id]? = some e → idOf e = id ∧ ids.get? (nameOf e) = some id
  name : ∀ name id, (name, id) ∈ ids → ∃ e, entries[id]? = some e ∧ nameOf e = name

section

variable {α : Type} {nameOf : α → Text} {idOf : α → Nat} {ids : Table Nat} {entries : List α}
  {name key : Text} {entry : Nat → α} {id : Nat} {e : α}

theorem Numbered.get? (h : Numbered nameOf idOf ids entries) (hid : ids.get? name = some id) :
    ∃ e, entries[id]? = some e ∧ nameOf e = name :=
  h.name name id (Table.mem_of_get? hid)

theorem Numbered.lt (h : Numbered nameOf idOf ids entries) (hid : ids.get? name = some id) :
    id < entries.length := by
  obtain ⟨e, he, -⟩ := h.get? hid
  exact (List.getElem?_eq_some_iff.mp he).1

theorem length_le_place : entries.length ≤ (place ids entries name entry).2.2.length := by
  unfold place
  split <;> simp

/-- Where names are after an entry was put: its own name has the place that is given, and no other
name a new one. -/
theorem get?_place : (place ids entries name entry).2.1.get? key =
    if key = name then some (place ids entries name entry).1 else ids.get? key := by
  unfold place
  split
  · rename_i hid
    split
    · rename_i hkey
      rw [hkey, hid]
    · rfl
  · exact Table.get?_put

/-- A name keeps the place it has. -/
theorem get?_place_of_some (hid : ids.get? key = some id) :
    (place ids entries name entry).2.1.get? key = some id := by
  rw [get?_place]
  split
  · rename_i hkey
    subst hkey
    unfold place
    simp only [hid]
  · exact hid

/-- What stands at the other places stays. -/
theorem getElem?_place (he : entries[id]? = some e) (hid : ids.get? name ≠ some id) :
    (place ids entries name entry).2.2[id]? = some e := by
  unfold place
  split
  · rename_i id' hid'
    have hne : id' ≠ id := fun heq => hid (heq ▸ hid')
    simpa only [List.getElem?_set_ne hne] using he
  · exact List.getElem?_append_left (List.getElem?_eq_some_iff.mp he).1 |>.trans he

/-- An entry with another name stays at its place. -/
theorem Numbered.getElem?_place (h : Numbered nameOf idOf ids entries) (he : entries[id]? = some e)
    (hne : nameOf e ≠ name) : (Index.place ids entries name entry).2.2[id]? = some e := by
  refine Index.getElem?_place he fun hid => hne ?_
  obtain ⟨e', he', hname⟩ := h.get? hid
  exact Option.some.inj (he.symm.trans he') ▸ hname

/-- The entries after one was put: it, and those that stood before it. -/
theorem mem_place (he : e ∈ (place ids entries name entry).2.2) :
    e = entry (place ids entries name entry).1 ∨ e ∈ entries := by
  unfold place at he ⊢
  split at he
  · simp only
    exact (List.mem_or_eq_of_mem_set he).symm
  · simp only
    exact (List.mem_append.mp he).symm.imp_left List.mem_singleton.mp

theorem Numbered.place (h : Numbered nameOf idOf ids entries) (hname : ∀ id, nameOf (entry id) = name)
    (hid : ∀ id, idOf (entry id) = id) :
    Numbered nameOf idOf (place ids entries name entry).2.1 (place ids entries name entry).2.2 := by
  unfold Index.place
  split
  · rename_i id hfound
    refine ⟨h.nodup, fun id' e he => ?_, fun key id' hkey => ?_⟩
    · by_cases hplace : id = id'
      · subst hplace
        obtain rfl : entry id = e := by simpa [h.lt hfound] using he
        exact ⟨hid id, (hname id).symm ▸ hfound⟩
      · exact h.entry id' e (by simpa only [List.getElem?_set_ne hplace] using he)
    · obtain ⟨e, he, hkey'⟩ := h.name key id' hkey
      by_cases hplace : id = id'
      · subst hplace
        obtain ⟨e', he', hname'⟩ := h.get? hfound
        refine ⟨entry id, by simp [h.lt hfound], ?_⟩
        rw [hname id, ← hkey', ← hname', Option.some.inj (he.symm.trans he')]
      · exact ⟨e, by simpa only [List.getElem?_set_ne hplace] using he, hkey'⟩
  · rename_i hfound
    refine ⟨Table.nodup_put h.nodup, fun id' e he => ?_, fun key id' hkey => ?_⟩
    · rcases Nat.lt_or_ge id' entries.length with hlt | hge
      · rw [List.getElem?_append_left hlt] at he
        obtain ⟨hplace, hget⟩ := h.entry id' e he
        refine ⟨hplace, ?_⟩
        have hne : nameOf e ≠ name := fun heq => by simp [heq, hfound] at hget
        rw [Table.get?_put, if_neg hne, hget]
      · obtain ⟨hlt, heq⟩ := List.getElem?_eq_some_iff.mp he
        obtain rfl : id' = entries.length := by
          simp only [List.length_append, List.length_singleton] at hlt
          omega
        obtain rfl : entry entries.length = e := by simpa using heq
        exact ⟨hid _, by rw [hname, Table.get?_put, if_pos rfl]⟩
    · rcases Table.mem_put hkey with heq | ⟨hkey, -⟩
      · obtain ⟨rfl, rfl⟩ := Prod.mk.inj heq
        exact ⟨entry entries.length, by simp, hname _⟩
      · obtain ⟨e, he, hkey'⟩ := h.name key id' hkey
        exact ⟨e, (List.getElem?_append_left (List.getElem?_eq_some_iff.mp he).1).trans he, hkey'⟩

end

/-! ## Sound indices -/

/-- All places that an index tells of are right. -/
structure Sound (idx : Index) : Prop where
  modules : Numbered (·.name) (·.id) idx.moduleIds idx.modules
  scripts : Numbered (·.name) (·.id) idx.scriptIds idx.scripts
  requires : ∀ m ∈ idx.modules, ∀ q ∈ m.requires, q.target < idx.modules.length

/-- Every name of an index has its place in another one too. -/
structure Keeps (idx idx' : Index) : Prop where
  modules : ∀ name id, idx.moduleId? name = some id → idx'.moduleId? name = some id
  scripts : ∀ name id, idx.scriptId? name = some id → idx'.scriptId? name = some id

variable {idx idx' idx'' : Index} {m : ModuleBody} {s : ScriptBody} {name : Text} {id : Nat}

theorem sound_empty : ({} : Index).Sound := by
  constructor
  · exact ⟨List.nodup_nil, by simp, by simp⟩
  · exact ⟨List.nodup_nil, by simp, by simp⟩
  · simp

theorem Keeps.refl (idx : Index) : idx.Keeps idx := ⟨fun _ _ h => h, fun _ _ h => h⟩

theorem Keeps.trans (h : idx.Keeps idx') (h' : idx'.Keeps idx'') : idx.Keeps idx'' :=
  ⟨fun name id hid => h'.modules name id (h.modules name id hid),
    fun name id hid => h'.scripts name id (h.scripts name id hid)⟩

theorem Sound.module? (h : idx.Sound) (hid : idx.moduleId? name = some id) :
    ∃ m, idx.module? name = some m ∧ idx.modules[id]? = some m ∧ m.name = name := by
  obtain ⟨m, hm, hname⟩ := h.modules.get? hid
  refine ⟨m, ?_, hm, hname⟩
  rw [Index.module?, hid, Option.bind_some, hm]

theorem Sound.module?_eq_some_iff (h : idx.Sound) {m : Module} :
    idx.module? name = some m ↔ m ∈ idx.modules ∧ m.name = name := by
  refine ⟨fun hm => ?_, fun ⟨hmem, hname⟩ => ?_⟩
  · obtain ⟨id, hid, hplace⟩ := Option.bind_eq_some_iff.mp hm
    obtain ⟨m', hm', hname⟩ := h.modules.get? hid
    obtain rfl := Option.some.inj (hplace.symm.trans hm')
    exact ⟨List.mem_of_getElem? hplace, hname⟩
  · obtain ⟨id, hid⟩ := List.getElem?_of_mem hmem
    have hplace : idx.moduleId? name = some id := hname ▸ (h.modules.entry id m hid).2
    rw [Index.module?, hplace, Option.bind_some, hid]

theorem Sound.putModule (h : idx.Sound) (hm : ∀ q ∈ m.requires, q.target < idx.modules.length) :
    (idx.putModule m).2.Sound := by
  refine ⟨h.modules.place (fun _ => rfl) fun _ => rfl, h.scripts, fun m' hm' q hq => ?_⟩
  have hlength : idx.modules.length ≤ (idx.putModule m).2.modules.length := length_le_place
  rcases mem_place hm' with rfl | hm'
  · exact Nat.lt_of_lt_of_le (hm q hq) hlength
  · exact Nat.lt_of_lt_of_le (h.requires m' hm' q hq) hlength

theorem Sound.putScript (h : idx.Sound) (s : ScriptBody) : (idx.putScript s).2.Sound :=
  ⟨h.modules, h.scripts.place (fun _ => rfl) fun _ => rfl, h.requires⟩

theorem keeps_putModule (idx : Index) (m : ModuleBody) : idx.Keeps (idx.putModule m).2 :=
  ⟨fun _ _ => get?_place_of_some, fun _ _ h => h⟩

theorem keeps_putScript (idx : Index) (s : ScriptBody) : idx.Keeps (idx.putScript s).2 :=
  ⟨fun _ _ h => h, fun _ _ => get?_place_of_some⟩

theorem moduleId?_putModule (idx : Index) (m : ModuleBody) :
    (idx.putModule m).2.moduleId? m.name = some (idx.putModule m).1 :=
  get?_place.trans (if_pos rfl)

/-- Asking for the root puts it, or nothing. -/
theorem root_cases (idx : Index) : idx.moduleId? rootModule.name = some idx.root.1 ∧ idx.root.2 = idx ∨
    idx.moduleId? rootModule.name = none ∧ idx.root = idx.putModule rootModule := by
  unfold root
  split
  · rename_i hid
    exact .inl ⟨hid, rfl⟩
  · rename_i hid
    exact .inr ⟨hid, rfl⟩

theorem Sound.root (h : idx.Sound) : idx.root.2.Sound := by
  rcases idx.root_cases with ⟨-, heq⟩ | ⟨-, heq⟩
  · rwa [heq]
  · rw [heq]
    exact h.putModule (by simp [rootModule])

theorem keeps_root (idx : Index) : idx.Keeps idx.root.2 := by
  rcases idx.root_cases with ⟨-, heq⟩ | ⟨-, heq⟩
  · rw [heq]
    exact .refl idx
  · rw [heq]
    exact idx.keeps_putModule rootModule

theorem moduleId?_root (idx : Index) : idx.root.2.moduleId? rootModule.name = some idx.root.1 := by
  rcases idx.root_cases with ⟨hid, heq⟩ | ⟨-, heq⟩
  · rwa [heq]
  · rw [heq]
    exact idx.moduleId?_putModule rootModule

end Index

end FusionKit
