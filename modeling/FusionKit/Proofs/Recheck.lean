import FusionKit.Proofs.Effects
import FusionKit.Proofs.Versions

/-!
# Checking a changed file again

A file that was changed is loaded into the index that is there, and what it defines is checked. Where
the two versions of the package know the same modules this gives what a check of a package loaded from
nothing gives.
-/
set_option autoImplicit false

namespace FusionKit

namespace Repository

section

variable {r : Repository} {t t' : FileTree} {changed : Text} {idx idx' i j : Index} {m : Module} {name : Text}
  {limit : Nat} {sum : Summary} {ds : List Directive}

/-! ## The root -/

theorem Reaches.root_known {id : Nat} (h : r.Reaches t idx rootModule.name id) : idx.moduleId? rootModule.name ≠ none := by
  cases h with
  | known hid => exact Option.ne_none_iff_exists'.mpr ⟨id, hid⟩
  | file hroot => exact absurd rfl hroot

/-- The root is known where a file is in its language. -/
theorem root_known_of_language (h : Directive.FollowsAll r t idx limit {} ds sum)
    (hlanguage : sum.language = rootModule.name) : idx.moduleId? rootModule.name ≠ none := by
  rcases h.reaches_language with heq | ⟨id, hid⟩
  · rw [hlanguage] at heq
    exact absurd heq (by decide)
  · rw [hlanguage] at hid
    exact hid.root_known

theorem Entry.root_known (h : r.Entry t idx m) (hne : m.name ≠ rootModule.name)
    (hlanguage : m.language = rootModule.name) : idx.moduleId? rootModule.name ≠ none := by
  cases h with
  | root hbody => exact absurd (congrArg ModuleBody.name hbody) hne
  | file _ h hbody => exact root_known_of_language h.followed ((congrArg ModuleBody.language hbody).symm.trans hlanguage)

/-! ## Names that both indices know -/

/-- Both indices have the root. -/
def RootKnown (idx idx' : Index) : Prop :=
  idx.moduleId? rootModule.name ≠ none ∧ idx'.moduleId? rootModule.name ≠ none

theorem Versions.speaks (h : r.Versions t t' changed idx idx') (hother : r.moduleName changed ≠ .ok name)
    (hname : name ≠ rootModule.name ∨ RootKnown idx idx') : idx'.Speaks idx name := by
  have hiff : idx.moduleId? name = none ↔ idx'.moduleId? name = none := by
    by_cases hroot : name = rootModule.name
    · obtain ⟨hknown, hknown'⟩ := hname.resolve_left (not_not_intro hroot)
      rw [hroot]
      exact ⟨fun hnone => absurd hnone hknown, fun hnone => absurd hnone hknown'⟩
    · exact h.names name hroot
  unfold Index.Speaks
  cases hid : idx.moduleId? name with
  | none =>
    unfold Index.module?
    rw [hid, hiff.mp hid]
    rfl
  | some id =>
    obtain ⟨id', hid'⟩ : ∃ id', idx'.moduleId? name = some id' := by
      refine Option.ne_none_iff_exists'.mp fun hnone => ?_
      rw [hiff.mpr hnone] at hid
      cases hid
    obtain ⟨m, hm, hplace, hmname⟩ := h.before.sound.module? hid
    obtain ⟨m', hm', hplace', hmname'⟩ := h.after.sound.module? hid'
    obtain ⟨hlanguage, hkeys⟩ := h.alike (List.mem_of_getElem? hplace) (List.mem_of_getElem? hplace')
      (hmname.trans hmname'.symm) (hmname.symm ▸ hother)
    rw [hm, hm', Option.map_some, Option.map_some, hlanguage, Table.names_eq_of_keys hkeys]

/-- An index that is one of two versions but for the module of the changed file. -/
structure Versions.But (r : Repository) (changed : Text) (idx idx' j : Index) : Prop where
  keeps : ∀ name, r.moduleName changed ≠ .ok name → j.module? name = idx.module? name
  own : ∀ own, r.moduleName changed = .ok own → own ≠ rootModule.name ∧ idx'.Speaks j own ∧
    ∀ m, idx'.module? own = some m → m.language = rootModule.name → RootKnown idx idx'

theorem Versions.speaks_but (h : r.Versions t t' changed idx idx') (hj : Versions.But r changed idx idx' j)
    (hname : name ≠ rootModule.name ∨ RootKnown idx idx') : idx'.Speaks j name := by
  by_cases hown : r.moduleName changed = .ok name
  · exact (hj.own name hown).2.1
  · have hspeaks := h.speaks hown hname
    unfold Index.Speaks at hspeaks ⊢
    rwa [hj.keeps name hown]

theorem Versions.namesOf_but (h : r.Versions t t' changed idx idx') (hj : Versions.But r changed idx idx' j)
    (hname : name ≠ rootModule.name ∨ RootKnown idx idx') : j.namesOf name = idx'.namesOf name := by
  refine Index.namesOf_congr (fun name hname => h.speaks_but hj hname) (fun name m hname hm hne hlanguage => ?_) hname
  by_cases hroot : m.language = rootModule.name
  · right
    by_cases hown : r.moduleName changed = .ok name
    · exact (hj.own name hown).2.2 m hm hroot
    · have hspeaks := h.speaks hown hname
      unfold Index.Speaks at hspeaks
      rw [hm] at hspeaks
      obtain ⟨m₁, hm₁, hsame⟩ := Option.map_eq_some_iff.mp hspeaks.symm
      obtain ⟨hmem, hmname⟩ := h.after.sound.module?_eq_some_iff.mp hm
      obtain ⟨hmem₁, hmname₁⟩ := h.before.sound.module?_eq_some_iff.mp hm₁
      have hlanguage₁ : m₁.language = rootModule.name := (Prod.mk.inj hsame).1.trans hroot
      exact ⟨(h.before.entries m₁ hmem₁).root_known (hmname₁ ▸ hne) hlanguage₁,
        (h.after.entries m hmem).root_known (hmname ▸ hne) hroot⟩
  · exact .inl hroot

end

/-! ## Modules -/

section

variable {r : Repository} {t t' : FileTree} {changed : Text} {idx idx' i j : Index} {s : LoadState} {m' : Module}
  {b' : Script} {name : Text} {limit limit' : Nat} {sum sum' : Summary} {file : SourceFile}

theorem module?_putModule (hs : idx.Sound) (b : ModuleBody) (name : Text) :
    (idx.putModule b).2.module? name =
      if name = b.name then some { b with id := (idx.putModule b).1 } else idx.module? name := by
  have hs' : Index.Numbered (·.name) (·.id) (idx.putModule b).2.moduleIds (idx.putModule b).2.modules :=
    hs.modules.place (fun _ => rfl) fun _ => rfl
  unfold Index.module?
  split
  · rename_i heq
    rw [heq, idx.moduleId?_putModule b, Option.bind_some]
    exact hs.modules.getElem?_place_self b.name ({ b with id := · })
  · rename_i hne
    have hplace : (idx.putModule b).2.moduleId? name = idx.moduleId? name := Index.get?_place.trans (if_neg hne)
    rw [hplace]
    cases hid : idx.moduleId? name with
    | none => rfl
    | some id =>
      obtain ⟨m, hm, hname⟩ := hs.modules.get? hid
      rw [Option.bind_some, Option.bind_some, hm]
      exact hs.modules.getElem?_place hm fun heq => hne (hname.symm.trans heq)

/-- What a file asks for and imports is the root only if both indices have it. -/
theorem rootKnown_of_imports (h : Directive.FollowsAll r t idx limit {} file.directives sum)
    (h' : Directive.FollowsAll r t' idx' limit' {} file.directives sum') (himports : file.Imports rootModule.name) :
    RootKnown idx idx' := by
  obtain ⟨imports, hrequire⟩ := himports
  obtain ⟨id, hid⟩ := h.reaches hrequire
  obtain ⟨id', hid'⟩ := h'.reaches hrequire
  exact ⟨hid.root_known, hid'.root_known⟩

/-- The module of a changed file, loaded into the old index and checked there, has the problems that it
has in the new one. -/
theorem Versions.recheck_module (h : r.Versions t t' m'.file.path s.index idx') (hloading : s.loading = [])
    (hm : m' ∈ idx'.modules) (hne : m'.name ≠ rootModule.name)
    (hwanted : rootModule.name ∈ m'.file.wanted → m'.file.Imports rootModule.name) :
    ∃ id s', (r.reloadModuleFile t' m'.name m'.file.path).run s = (.ok id, s') ∧
      (s'.index.modules[id]?.map s'.index.checkModule).getD [] = idx'.checkModule m' := by
  have hs' := h.after.sound
  obtain ⟨id', hid'⟩ := List.getElem?_of_mem hm
  obtain ⟨hplace', hget'⟩ := hs'.modules.entry id' m' hid'
  cases h.after.entries m' hm with
  | root hbody => exact absurd (congrArg ModuleBody.name hbody) hne
  | @file path file sum' _ hread hbody =>
    have hfile : m'.file = file := congrArg ModuleBody.file hbody
    have hpath : m'.file.path = path := hfile ▸ path_of_read hread.read
    have hlanguage : m'.language = sum'.language := congrArg ModuleBody.language hbody
    have hprovides : m'.provides = sum'.exports := congrArg ModuleBody.provides hbody
    rw [hpath] at h ⊢
    rw [hfile] at hwanted
    -- a module that the file needs stands before its own module, so it is another one
    have hother : ∀ id < m'.id, ∀ m, idx'.modules[id]? = some m → r.moduleName path ≠ .ok m.name := by
      intro id hlt m hm hown
      have hname : m'.name = m.name := Except.ok.inj (hread.named.symm.trans hown)
      have hget := (hs'.modules.entry id m hm).2
      rw [← hname, hget', ← hplace'] at hget
      exact absurd (Option.some.inj hget) (Nat.ne_of_gt hlt)
    obtain ⟨sum, i, hsummary, hi, hg, hresembles, hfollowed⟩ :=
      Versions.summarize (s := { s with loading := m'.name :: s.loading }) h hother hread.followed
    let b : ModuleBody := file.moduleOf m'.name sum
    have hload := run_loadAs_eq r t' (r.needModule t') m'.name path s
    rw [hread.read] at hload
    dsimp only at hload
    rw [hsummary] at hload
    have hreload : (r.reloadModuleFile t' m'.name path).run s = (r.loadAs t' (r.needModule t') m'.name path).run s := by
      have hrun : (r.reloadModuleFile t' m'.name path).run s =
          (if m'.name ∈ s.loading then throw (selfDependent m'.name)
          else r.loadAs t' (r.needModule t') m'.name (r.resolve path)).run s := rfl
      rw [hrun, if_neg (by rw [hloading]; exact List.not_mem_nil), hread.resolved]
    refine ⟨_, _, hreload.trans hload, ?_⟩
    have hsound := hi.before.sound
    have hplaced : (i.putModule b).2.modules[(i.putModule b).1]? = some { b with id := (i.putModule b).1 } :=
      hsound.modules.getElem?_place_self b.name ({ b with id := · })
    have hbut : Versions.But r path i idx' (i.putModule b).2 := by
      refine ⟨fun name hname => ?_, fun own hown => ?_⟩
      · have hother : name ≠ b.name := by
          rintro rfl
          exact hname hread.named
        rw [module?_putModule hsound, if_neg hother]
      · obtain rfl : own = m'.name := Except.ok.inj (hown.symm.trans hread.named)
        have hm'module : idx'.module? m'.name = some m' := by
          rw [Index.module?, Index.moduleId?, hget', Option.bind_some, hid']
        refine ⟨hne, ?_, fun m hmodule hroot => ?_⟩
        · rw [Index.Speaks, hm'module, module?_putModule hsound, if_pos (show m'.name = b.name from rfl), Option.map_some,
            Option.map_some, hlanguage, hprovides, ← hresembles.language, ← Table.names_eq_of_keys hresembles.exports]
          rfl
        · obtain rfl := Option.some.inj (hm'module.symm.trans hmodule)
          refine ⟨root_known_of_language hfollowed ?_, (h.after.entries m' hm).root_known hne hroot⟩
          rw [hresembles.language, ← hlanguage, hroot]
    have hoffers : ∀ f ∈ [file], ∀ name ∈ f.wanted, idx'.Offers (i.putModule b).2 name := by
      intro f hf name hname
      rw [List.mem_singleton.mp hf] at hname
      refine (hi.speaks_but hbut ?_).offers
      by_cases hroot : name = rootModule.name
      · exact .inr (rootKnown_of_imports hfollowed hread.followed (hwanted (hroot ▸ hname)))
      · exact .inl hroot
    show ((i.putModule b).2.modules[(i.putModule b).1]?.map (i.putModule b).2.checkModule).getD [] = idx'.checkModule m'
    rw [hplaced, Option.map_some, Option.getD_some, Index.checkModule, Index.checkModule, hfile]
    show (i.putModule b).2.checkFiles ((i.putModule b).2.namesOf m'.name) [file] =
      idx'.checkFiles (idx'.namesOf m'.name) [file]
    rw [Index.checkFiles_congr hoffers, hi.namesOf_but hbut (.inl hne)]

/-! ## Scripts -/

/-- Modules that a script names are needed in the old index without loading anything. -/
theorem Versions.forIn (h : r.Versions t t' changed s.index idx') {names : List Text}
    (hnames : ∀ name ∈ names, ∃ id, r.Reached t' name id idx') :
    ∃ i, (forIn names PUnit.unit fun name _ => do
        let _ ← r.needModule t' name
        return ForInStep.yield PUnit.unit : LoadM PUnit).run s = (.ok PUnit.unit, { s with index := i }) ∧
      r.Versions t t' changed i idx' ∧ s.index.Extends i ∧ (rootModule.name ∈ names → RootKnown i idx') := by
  induction names generalizing s with
  | nil => exact ⟨s.index, rfl, h, .refl _, fun hmem => absurd hmem List.not_mem_nil⟩
  | cons name names ih =>
    obtain ⟨id', hid', -⟩ := hnames name List.mem_cons_self
    obtain ⟨id, i, hneed, hi, hg, m, m', hm, hm', hname⟩ := h.need hid'
    obtain ⟨i', hrest, hi', hg', hroot⟩ :=
      ih (s := { s with index := i }) hi fun name hname => hnames name (List.mem_cons_of_mem _ hname)
    refine ⟨i', ?_, hi', hg.trans hg', fun hmem => ?_⟩
    · rw [List.forIn_cons, bind_assoc, LoadM.run_bind, hneed]
      exact hrest
    · rcases List.mem_cons.mp hmem with rfl | hmem
      · have hknown' := hid'.root_known
        have hknown : i.moduleId? rootModule.name = some id := by
          cases hid' with
          | known hplace' =>
            obtain ⟨m₁, hm₁, hname₁⟩ := h.after.sound.modules.get? hplace'
            obtain rfl := Option.some.inj (hm'.symm.trans hm₁)
            rw [← hname₁, ← hname]
            exact (hi.before.sound.modules.entry id m hm).2
          | file hne => exact absurd rfl hne
        exact ⟨Option.ne_none_iff_exists'.mpr ⟨id, hg'.ids _ _ hknown⟩, hknown'⟩
      · exact hroot hmem

/-- The script of a changed file, loaded into the old index and checked there, has the problems that it
has in the new one. -/
theorem Versions.recheck_script (h : r.Versions t t' changed s.index idx') (hb : b' ∈ idx'.scripts)
    (hother : ∀ own, r.moduleName changed ≠ .ok own)
    (hwanted : ∀ f ∈ b'.files, rootModule.name ∈ f.wanted → f.Imports rootModule.name) :
    ∃ id s', (r.loadScript t' b'.name b'.topLevelModules b'.globalBindings [b'.name]).run s = (.ok id, s') ∧
      (s'.index.scripts[id]?.map s'.index.checkScript).getD [] = idx'.checkScript b' := by
  obtain ⟨hmodules, file, sum', hfiles, hread, hsum'⟩ := h.after.scripts b' hb
  obtain ⟨i, hneeded, hi, hg, hroot⟩ := h.forIn hmodules
  obtain ⟨sum, i₂, hsummary, hi₂, hg₂, -, hfollowed⟩ :=
    Versions.summarize (s := { s with index := i }) hi (fun _ _ m _ => hother m.name) hsum'
  let b : ScriptBody :=
    { name := b'.name, topLevelModules := b'.topLevelModules, globalBindings := b'.globalBindings, files := [file] }
  have hfile : ([b'.name].mapM fun fileName => do
      let file ← LoadM.lift (SourceFile.read t' (r.resolve fileName) fileName)
      let _ ← file.summarize (r.needModule t')
      return file : LoadM (List SourceFile)).run { s with index := i } = (.ok [file], { s with index := i₂ }) := by
    rw [List.mapM_cons, List.mapM_nil, LoadM.run_bind, LoadM.run_bind, LoadM.run_lift, hread]
    dsimp only
    rw [LoadM.run_bind, hsummary]
    rfl
  have hload : (r.loadScript t' b'.name b'.topLevelModules b'.globalBindings [b'.name]).run s =
      (.ok (i₂.putScript b).1, { s with index := (i₂.putScript b).2 }) := by
    unfold loadScript
    rw [LoadM.run_bind, hneeded]
    dsimp only
    rw [LoadM.run_bind, hfile]
    rfl
  refine ⟨_, _, hload, ?_⟩
  have hplaced : (i₂.putScript b).2.scripts[(i₂.putScript b).1]? = some { b with id := (i₂.putScript b).1 } :=
    hi₂.before.sound.scripts.getElem?_place_self b.name ({ b with id := · })
  have hbut : Versions.But r changed i₂ idx' (i₂.putScript b).2 :=
    ⟨fun _ _ => rfl, fun own hown => absurd hown (hother own)⟩
  have hoffers : ∀ f ∈ [file], ∀ name ∈ f.wanted, idx'.Offers (i₂.putScript b).2 name := by
    intro f hf name hname
    rw [List.mem_singleton.mp hf] at hname
    refine (hi₂.speaks_but hbut ?_).offers
    by_cases hrootName : name = rootModule.name
    · have himports := hwanted file (hfiles ▸ List.mem_cons_self) (hrootName ▸ hname)
      exact .inr (rootKnown_of_imports hfollowed hsum' himports)
    · exact .inl hrootName
  have hnames : b'.topLevelModules.flatMap (i₂.putScript b).2.namesOf = b'.topLevelModules.flatMap idx'.namesOf := by
    refine List.flatMap_congr fun name hname => hi₂.namesOf_but hbut ?_
    by_cases hrootName : name = rootModule.name
    · obtain ⟨hknown, hknown'⟩ := hroot (hrootName ▸ hname)
      obtain ⟨id, hid⟩ := Option.ne_none_iff_exists'.mp hknown
      exact .inr ⟨Option.ne_none_iff_exists'.mpr ⟨id, hg₂.ids _ _ hid⟩, hknown'⟩
    · exact .inl hrootName
  show ((i₂.putScript b).2.scripts[(i₂.putScript b).1]?.map (i₂.putScript b).2.checkScript).getD [] = idx'.checkScript b'
  rw [hplaced, Option.map_some, Option.getD_some, Index.checkScript, Index.checkScript, hfiles,
    Index.checkFiles_congr hoffers]
  exact congrArg (fun names => idx'.checkFiles (names ++ b'.globalBindings) [file]) hnames

end

end Repository

end FusionKit
