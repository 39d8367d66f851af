import Mathlib.Logic.Relation
import FusionKit.Proofs.Calls
import FusionKit.Proofs.Unbound

/-!
# Languages

A module starts from the names of its language, of the language of this one, and so on up to the root.
Languages are looked up by name when they are needed, and a module that is loaded again may by then be in
another language, so the way can lead back to where it was. The loop that follows it stops all the same: it
makes one turn for each module on the way, and takes the names of each once.
-/
set_option autoImplicit false

namespace FusionKit

open Relation

namespace Index

variable {idx : Index} {m m' : Module} {name : Text} {seen names : List Text}

/-! ## The loop -/

/-- The module that gives a module its language. There is none for the root, for a module that names no
language, and for one whose language is not loaded. -/
def languageOf? (idx : Index) (m : Module) : Option Module :=
  if m.name = rootModule.name || m.language.isEmpty then none else idx.module? m.language

/-- Whether one comes from a module to another one by going from language to language. -/
def BuildsOn (idx : Index) : Module → Module → Prop :=
  ReflTransGen fun m m' => idx.languageOf? m = some m'

/-- Where the loop over languages stands: the module it has come to, the names of the modules before, and
the names that these provide. -/
structure Ascent where
  current : Option Module
  seen : List Text
  names : List Text

/-- A turn of the loop. It is over when there is no module, or one that was there before. -/
def Ascent.turn? (idx : Index) (a : Ascent) : Option Ascent :=
  a.current.bind fun m =>
    if a.seen.contains m.name then none
    else some ⟨idx.languageOf? m, m.name :: a.seen, a.names ++ m.provides.names⟩

/-- The loop comes to an end, with some names seen and some taken. -/
def Ascent.EndsWith (idx : Index) (a : Ascent) (seen names : List Text) : Prop :=
  ∃ last : Option Module, ReflTransGen (fun a b => Ascent.turn? idx a = some b) a ⟨last, seen, names⟩ ∧
    Ascent.turn? idx ⟨last, seen, names⟩ = none

theorem Ascent.endsWith_of_stop {last : Option Module} (h : Ascent.turn? idx ⟨last, seen, names⟩ = none) :
    Ascent.EndsWith idx ⟨last, seen, names⟩ seen names :=
  ⟨last, .refl, h⟩

theorem Ascent.EndsWith.turn {seen' names' : List Text} (hnew : m.name ∉ seen)
    (h : Ascent.EndsWith idx ⟨idx.languageOf? m, m.name :: seen, names ++ m.provides.names⟩ seen' names') :
    Ascent.EndsWith idx ⟨some m, seen, names⟩ seen' names' := by
  obtain ⟨last, hturns, hstop⟩ := h
  have hturn : Ascent.turn? idx ⟨some m, seen, names⟩ =
      some ⟨idx.languageOf? m, m.name :: seen, names ++ m.provides.names⟩ := if_neg (hnew ∘ List.contains_iff_mem.mp)
  exact ⟨last, .head hturn hturns, hstop⟩

/-- The loop is `languagesFrom`: it stops with the names of these modules seen, and what they provide
taken. -/
theorem endsWith_languagesFrom (hs : idx.Sound) (seen names : List Text) (name : Text) :
    Ascent.EndsWith idx ⟨idx.module? name, seen, names⟩
      (((idx.languagesFrom seen name).map (·.name)).reverse ++ seen)
      (names ++ (idx.languagesFrom seen name).flatMap (·.provides.names)) := by
  fun_induction idx.languagesFrom seen name generalizing names with
  | case1 seen name hseen =>
    simp only [List.map_nil, List.reverse_nil, List.nil_append, List.flatMap_nil, List.append_nil]
    refine Ascent.endsWith_of_stop ?_
    cases hm : idx.module? name with
    | none => rfl
    | some m => exact if_pos (List.contains_iff_mem.mpr ((hs.module?_eq_some_iff.mp hm).2 ▸ hseen))
  | case2 seen name hseen hnone =>
    rw [hnone]
    simp only [List.map_nil, List.reverse_nil, List.nil_append, List.flatMap_nil, List.append_nil]
    exact Ascent.endsWith_of_stop rfl
  | case3 seen name hseen m hm hlast =>
    obtain rfl := (hs.module?_eq_some_iff.mp hm).2
    rw [hm]
    refine Ascent.EndsWith.turn hseen ?_
    rw [languageOf?, if_pos hlast, List.flatMap_singleton]
    exact Ascent.endsWith_of_stop rfl
  | case4 seen name hseen m hm hmore _ ih =>
    obtain rfl := (hs.module?_eq_some_iff.mp hm).2
    rw [hm]
    refine Ascent.EndsWith.turn hseen ?_
    rw [languageOf?, if_neg hmore, List.map_cons, List.reverse_cons, List.append_assoc, List.singleton_append,
      List.flatMap_cons, ← List.append_assoc]
    exact ih (names ++ m.provides.names)

/-! ## The modules on the way -/

theorem mem_modules_of_languagesFrom (hs : idx.Sound) (hm : m ∈ idx.languagesFrom seen name) :
    m ∈ idx.modules := by
  fun_induction idx.languagesFrom seen name with
  | case1 => contradiction
  | case2 => contradiction
  | case3 seen name hseen own hown hlast =>
    obtain rfl := List.mem_singleton.mp hm
    exact (hs.module?_eq_some_iff.mp hown).1
  | case4 seen name hseen own hown hmore _ ih =>
    rcases List.mem_cons.mp hm with rfl | hm
    · exact (hs.module?_eq_some_iff.mp hown).1
    · exact ih hm

/-- No name comes up twice, or after it was seen. -/
theorem nodup_languagesFrom (hs : idx.Sound) (seen : List Text) (name : Text) :
    ((idx.languagesFrom seen name).map (·.name)).Nodup ∧
      ∀ m ∈ idx.languagesFrom seen name, m.name ∉ seen := by
  fun_induction idx.languagesFrom seen name with
  | case1 => exact ⟨List.nodup_nil, fun _ hm => absurd hm List.not_mem_nil⟩
  | case2 => exact ⟨List.nodup_nil, fun _ hm => absurd hm List.not_mem_nil⟩
  | case3 seen name hseen own hown hlast =>
    obtain rfl := (hs.module?_eq_some_iff.mp hown).2
    exact ⟨List.nodup_singleton own.name, fun m hm => List.mem_singleton.mp hm ▸ hseen⟩
  | case4 seen name hseen own hown hmore _ ih =>
    obtain rfl := (hs.module?_eq_some_iff.mp hown).2
    refine ⟨List.nodup_cons.mpr ⟨fun hmem => ?_, ih.1⟩, List.forall_mem_cons.mpr ⟨hseen, fun m hm hmem => ?_⟩⟩
    · obtain ⟨m, hm, hname⟩ := List.mem_map.mp hmem
      exact ih.2 m hm (hname ▸ List.mem_cons_self)
    · exact ih.2 m hm (List.mem_cons_of_mem own.name hmem)

/-- Only modules come up to which the languages lead. -/
theorem buildsOn_of_mem (hs : idx.Sound) (hm : idx.module? name = some m)
    (hmem : m' ∈ idx.languagesFrom seen name) : idx.BuildsOn m m' := by
  fun_induction idx.languagesFrom seen name generalizing m with
  | case1 => contradiction
  | case2 => contradiction
  | case3 seen name hseen own hown hlast =>
    obtain rfl := List.mem_singleton.mp hmem
    obtain rfl := Option.some.inj (hm.symm.trans hown)
    exact .refl
  | case4 seen name hseen own hown hmore _ ih =>
    obtain rfl := Option.some.inj (hm.symm.trans hown)
    obtain rfl := (hs.module?_eq_some_iff.mp hm).2
    rcases List.mem_cons.mp hmem with rfl | hmem
    · exact .refl
    have hlanguage : idx.languageOf? m = idx.module? m.language := if_neg hmore
    cases hnext : idx.module? m.language with
    | none =>
      rw [languagesFrom_eq, hnext, Option.elim_none, ite_self] at hmem
      contradiction
    | some next => exact .head (hlanguage.trans hnext) (ih hnext hmem)

/-- Every module to which the languages lead is some number of languages away. -/
theorem BuildsOn.exists_language (hs : idx.Sound) (hm : m ∈ idx.modules) (h : idx.BuildsOn m m') :
    ∃ n, idx.language? n m.name = some m' := by
  induction h using ReflTransGen.head_induction_on with
  | refl => exact ⟨0, hs.module?_eq_some_iff.mpr ⟨hm, rfl⟩⟩
  | @head m next hstep _ ih =>
    have hfound : idx.module? m.name = some m := hs.module?_eq_some_iff.mpr ⟨hm, rfl⟩
    unfold languageOf? at hstep
    split at hstep
    · contradiction
    rename_i hmore
    obtain ⟨hnext, hname⟩ := hs.module?_eq_some_iff.mp hstep
    obtain ⟨n, hn⟩ := ih hnext
    refine ⟨n + 1, ?_⟩
    rw [language?, hfound, Option.bind_some, if_neg hmore, ← hname, hn]

/-- All modules come up to which the languages lead. -/
theorem BuildsOn.mem_languagesFrom (hs : idx.Sound) (hm : m ∈ idx.modules) (h : idx.BuildsOn m m') :
    m' ∈ idx.languagesFrom [] m.name := by
  obtain ⟨n, hn⟩ := h.exists_language hs hm
  rcases Index.mem_languagesFrom [] hn with hfound | ⟨earlier, hearlier, -⟩
  · exact hfound
  · contradiction

/-! ## The names of a module -/

/-- However an index was made, the names that a module and its languages provide are those of the modules to
which the languages lead, each taken once. There are finitely many of these, also when the languages lead in
a circle, and the loop comes to its end after a turn for each. -/
theorem namesOf_exhausts (h : idx.Reached) (hm : m ∈ idx.modules) :
    ∃ chain : List Module,
      (∀ m', m' ∈ chain ↔ idx.BuildsOn m m') ∧ (chain.map (·.name)).Nodup ∧
      chain.length ≤ idx.modules.length ∧ idx.namesOf m.name = chain.flatMap (·.provides.names) ∧
      (∀ name, name ∈ idx.namesOf m.name ↔ ∃ m', idx.BuildsOn m m' ∧ name ∈ m'.provides.names) ∧
      Ascent.EndsWith idx ⟨some m, [], []⟩ (chain.map (·.name)).reverse (idx.namesOf m.name) := by
  have hs := h.sound
  have hfound : idx.module? m.name = some m := hs.module?_eq_some_iff.mpr ⟨hm, rfl⟩
  have hexact : ∀ m', m' ∈ idx.languagesFrom [] m.name ↔ idx.BuildsOn m m' := fun m' =>
    ⟨buildsOn_of_mem hs hfound, fun hbuilds => hbuilds.mem_languagesFrom hs hm⟩
  have honce := (nodup_languagesFrom hs [] m.name).1
  refine ⟨idx.languagesFrom [] m.name, hexact, honce, ?_, rfl, fun name => ?_, ?_⟩
  · have hsubset : idx.languagesFrom [] m.name ⊆ idx.modules := fun _ => mem_modules_of_languagesFrom hs
    exact (honce.of_map.subperm hsubset).length_le
  · simp only [namesOf, List.mem_flatMap, hexact]
  · have hends := endsWith_languagesFrom hs [] [] m.name
    rwa [hfound, List.append_nil, List.nil_append] at hends

/-- The index after a module was loaded, and the module of its language was loaded again to be in the
language of the first one. -/
def circledIndex : Index :=
  let r : Repository := ⟨utf8 "/", [utf8 "/m"]⟩
  let before := (({} : FileTree).writeAt [utf8 "m", utf8 "a.fusion"] (utf8 "(module a '/b' (defpub x 1))")).writeAt
    [utf8 "m", utf8 "b.fusion"] (utf8 "(module b '/fusion/private/kernel' (defpub y 2))")
  let after := before.writeAt [utf8 "m", utf8 "b.fusion"] (utf8 "(module b '/a' (defpub y 2))")
  let s := (((LoadCall.module (utf8 "/a")).perform r before).run {}).2
  (((LoadCall.reload (utf8 "/b") (utf8 "m/b.fusion")).perform r after).run s).2.index

theorem reached_circledIndex : circledIndex.Reached :=
  .call (.call .new (.load _ _ _ {})) (.load _ _ _ _)

/-- Two modules in the language of each other: the names of both are taken, once. -/
theorem namesOf_exhausts_circle :
    circledIndex.Reached ∧ ∃ m ∈ circledIndex.modules, ∃ m' ∈ circledIndex.modules, m.name ≠ m'.name ∧
      circledIndex.languageOf? m = some m' ∧ circledIndex.languageOf? m' = some m ∧
      circledIndex.namesOf m.name = [utf8 "x", utf8 "y"] ∧
      ∃ chain : List Module,
        (∀ other, other ∈ chain ↔ circledIndex.BuildsOn m other) ∧ (chain.map (·.name)).Nodup ∧
        Ascent.EndsWith circledIndex ⟨some m, [], []⟩ (chain.map (·.name)).reverse [utf8 "x", utf8 "y"] := by
  have hs := reached_circledIndex.sound
  have hlanguages : (circledIndex.module? (utf8 "/a")).map (·.language) = some (utf8 "/b") ∧
      (circledIndex.module? (utf8 "/b")).map (·.language) = some (utf8 "/a") := by decide +kernel
  obtain ⟨⟨m, hm, hlanguage⟩, m', hm', hlanguage'⟩ :=
    hlanguages.imp Option.map_eq_some_iff.mp Option.map_eq_some_iff.mp
  obtain ⟨hmem, hname⟩ := hs.module?_eq_some_iff.mp hm
  obtain ⟨hmem', hname'⟩ := hs.module?_eq_some_iff.mp hm'
  have hnames : circledIndex.namesOf m.name = [utf8 "x", utf8 "y"] := by
    rw [hname]
    decide +kernel
  obtain ⟨chain, hexact, honce, -, -, -, hends⟩ := namesOf_exhausts reached_circledIndex hmem
  refine ⟨reached_circledIndex, m, hmem, m', hmem', ?_, ?_, ?_, hnames, chain, hexact, honce, hnames ▸ hends⟩
  · rw [hname, hname']
    decide
  · rw [languageOf?, hname, hlanguage, if_neg (by decide +kernel), hm']
  · rw [languageOf?, hname', hlanguage', if_neg (by decide +kernel), hm]

end Index

end FusionKit
