import FusionKit.Proofs.Coverage
import FusionKit.Proofs.Growth

/-!
# What a loaded package has

When a package was loaded, each source file that a walk through a folder of modules finds has its
module in the index, and each that a walk through a folder of tests finds has its script, in the
environment of the last folder that finds it.
-/
set_option autoImplicit false

namespace FusionKit

open LoadM

namespace Index

/-! ## Scripts of an index -/

/-- Whether an index has a script with a name, in an environment of modules and further names. -/
def HasScript (idx : Index) (name : Text) (topLevelModules globalBindings : List Text) : Prop :=
  ∃ b ∈ idx.scripts, b.name = name ∧ b.topLevelModules = topLevelModules ∧ b.globalBindings = globalBindings

/-- What was put stands at the place that was given. -/
theorem Numbered.getElem?_place_self {α : Type} {nameOf : α → Text} {idOf : α → Nat} {ids : Table Nat}
    {entries : List α} (h : Numbered nameOf idOf ids entries) (name : Text) (entry : Nat → α) :
    (Index.place ids entries name entry).2.2[(Index.place ids entries name entry).1]? =
      some (entry (Index.place ids entries name entry).1) := by
  unfold Index.place
  split
  · rename_i id hid
    simp [h.lt hid]
  · simp

variable {idx : Index} {name : Text} {topLevelModules globalBindings : List Text}

theorem hasScript_putScript (hs : idx.Sound) (b : ScriptBody) :
    (idx.putScript b).2.HasScript b.name b.topLevelModules b.globalBindings :=
  ⟨_, List.mem_of_getElem? (hs.scripts.getElem?_place_self b.name ({ b with id := · })), rfl, rfl, rfl⟩

/-- A script stays when others are put, and when it is put again in the same environment. -/
theorem HasScript.putScript (h : idx.HasScript name topLevelModules globalBindings) (hs : idx.Sound) {b : ScriptBody}
    (hb : b.name = name → b.topLevelModules = topLevelModules ∧ b.globalBindings = globalBindings) :
    (idx.putScript b).2.HasScript name topLevelModules globalBindings := by
  obtain ⟨b', hb', hname, henv⟩ := h
  by_cases heq : b.name = name
  · obtain ⟨htop, hglobals⟩ := hb heq
    rw [← heq, ← htop, ← hglobals]
    exact hasScript_putScript hs b
  · obtain ⟨id, hid⟩ := List.getElem?_of_mem hb'
    have hne : b'.name ≠ b.name := fun hsame => heq (hsame.symm.trans hname)
    exact ⟨b', List.mem_of_getElem? (hs.scripts.getElem?_place hid hne), hname, henv⟩

end Index

section

variable {settings : Settings} {r : Repository} {t : FileTree} {s : LoadState} {packagePath path inner : Text}
  {f : Folder}

theorem Repository.Rooted.absolute_of_walks (hr : r.Rooted) (h : r.Walks t f path) :
    Path.isAbsolute path = true ∧ Path.clean path = path := by
  obtain ⟨base, ns, content, -, -, -, -, -, rfl⟩ := FileTree.finds_iff.mp h
  obtain ⟨dir, hdir, heq⟩ := Path.join_eq_clean hr.package f.path
  have habs : Path.isAbsolute (Path.join r.packagePath f.path) = true := by rw [heq, Path.isAbsolute_clean, hdir]
  obtain ⟨x, hx, hpath⟩ := Path.join_eq_clean habs (Text.joinWith [Path.slash] ns)
  rw [FileTree.pathBelow, hpath, Path.isAbsolute_clean, Path.clean_clean]
  exact ⟨hx, rfl⟩

/-! ## Modules -/

/-- Whether the module that a file is, by its path, is in an index. -/
def Repository.Loaded (r : Repository) (path : Text) (idx : Index) : Prop :=
  ∃ own, r.moduleName path = .ok own ∧ (idx.moduleId? own).isSome = true

theorem Repository.Loaded.mono {idx idx' : Index} (h : r.Loaded path idx) (hk : idx.Keeps idx') : r.Loaded path idx' := by
  obtain ⟨own, hown, hid⟩ := h
  obtain ⟨id, hid⟩ := Option.isSome_iff_exists.mp hid
  exact ⟨own, hown, Option.isSome_of_eq_some (hk.modules own id hid)⟩

/-- A module that is in the index stays there. -/
theorem Repository.keptByFiles_loaded (hr : r.Rooted) (hroot : r.LeavesRoot t) (path : Text) :
    r.KeptByFiles t fun s => r.BuiltState t s ∧ r.Loaded path s.index := by
  have hbuilt := keptByFiles_built hr hroot
  refine ⟨fun _ _ hs => hs, fun other hsource s hs => ?_, fun name top globals s hs => ?_⟩
  · have hadds := (adds_loadModuleFile hr hroot hs.1.2.sound hsource).adds
    have hg := grows_of_additions hadds hs.1.2.sound
    exact ⟨hbuilt.module other hsource s hs.1, hs.2.mono hg.keeps⟩
  · refine ⟨hbuilt.script name top globals s hs.1, ?_⟩
    have hscript := scriptLoaded hr hroot hs.1.2.sound name top globals
    generalize (r.loadScript t name top globals [name]).run s = out at hscript ⊢
    cases hscript with
    | failed hadds =>
      have hg := grows_of_additions hadds hs.1.2.sound
      exact hs.2.mono hg.keeps
    | put hadds =>
      have hg := grows_of_additions hadds hs.1.2.sound
      exact hs.2.mono (hg.keeps.trans (Index.keeps_putScript _ _))

/-- A file in a folder of modules that was loaded has its module in the index. -/
theorem Repository.ensures_loaded (hr : r.Rooted) (hroot : r.LeavesRoot t) (hmodules : f.holdsModules = true)
    (hwalks : r.Walks t f path) :
    Ensures (r.BuiltState t) (r.loadFolder t f) fun s => r.BuiltState t s ∧ r.Loaded path s.index := by
  refine ((keptByFiles_built hr hroot).byFolders [f]).ensures_loadFolder
    ((keptByFiles_loaded hr hroot path).byFolders [f]) hwalks ?_
  unfold loadConfiguredFile
  rw [if_pos hmodules]
  refine Ensures.bind_keeps (fun s hs id s' hrun => ?_) fun _ => keeps_pure _
  have hload := adds_loadModuleFile hr hroot hs.2.sound hwalks.isSource
  have hstate := hload.builtState hs
  have hresult := hload.result
  rw [hrun] at hstate hresult
  obtain ⟨own, hown, hid⟩ := hresult id rfl
  exact ⟨hstate, own, hown, Option.isSome_of_eq_some hid⟩

/-! ## Tests -/

/-- A file whose last folder holds tests has its script in the index, in the environment of the
folder. -/
theorem Settings.hasScript_of_loadPackage {before after : List Folder} {holder : Folder}
    (h : (settings.loadPackage t packagePath).run {} = (.ok r, s)) (hroot : r.LeavesRoot t)
    (hfolders : settings.folders = before ++ f :: after) (hmodules : f.holdsModules = false)
    (htests : f.holdsTests = true) (hwalks : r.Walks t f path) (hlast : ∀ g ∈ after, ¬ r.Walks t g path)
    (hholds : r.Holds holder path inner) : s.index.HasScript inner f.topLevelModules f.globalBindings := by
  have hr := Repository.rooted_ofPackage (ofPackage_of_loadPackage h)
  have hbuilt := Repository.keptByFiles_built hr hroot
  have hkept : r.KeptByFolders t (f :: after) fun s =>
      r.BuiltState t s ∧ s.index.HasScript inner f.topLevelModules f.globalBindings := by
    refine ⟨fun _ _ hs => hs, fun g hg other hother => ?_⟩
    have hsource : FileTree.IsSource other := hother.isSource
    unfold Repository.loadConfiguredFile
    split
    · refine Keeps.bind (fun s hs => ⟨hbuilt.module other hsource s hs.1, ?_⟩) fun _ => keeps_pure _
      have hadds := (Repository.adds_loadModuleFile hr hroot hs.1.2.sound hsource).adds
      have hsame := (Repository.grows_of_additions hadds hs.1.2.sound).scripts
      unfold Index.HasScript
      rw [hsame]
      exact hs.2
    split
    · refine Keeps.bind (fun s hs => ⟨hbuilt.script _ _ _ s hs.1, ?_⟩) fun _ => keeps_report (fun _ _ hs => hs) _ _ _ _
      have hscript := Repository.scriptLoaded hr hroot hs.1.2.sound (r.shown other) g.topLevelModules g.globalBindings
      generalize (r.loadScript t (r.shown other) g.topLevelModules g.globalBindings [r.shown other]).run s = out
        at hscript ⊢
      have hstays {idx : Index} (hadds : Relation.ReflTransGen (r.Addition t s.loading) s.index idx) :
          idx.Sound ∧ idx.HasScript inner f.topLevelModules f.globalBindings := by
        have hg := Repository.grows_of_additions hadds hs.1.2.sound
        refine ⟨hg.sound, ?_⟩
        unfold Index.HasScript
        rw [hg.scripts]
        exact hs.2
      cases hscript with
      | failed hadds => exact (hstays hadds).2
      | put hadds =>
        refine (hstays hadds).2.putScript (hstays hadds).1 fun hname => ?_
        -- a script of this name is of this file, which no later folder has
        obtain ⟨habs, hclean⟩ := hr.absolute_of_walks hother
        have hsame := hholds.eq_of_shown hr habs hclean hname
        rcases List.mem_cons.mp hg with rfl | hafter
        · exact ⟨rfl, rfl⟩
        · exact absurd (hsame ▸ hother) (hlast g hafter)
    · exact keeps_pure _
  have hfile : Ensures (r.BuiltState t) (r.loadConfiguredFile t f path) fun s =>
      r.BuiltState t s ∧ s.index.HasScript inner f.topLevelModules f.globalBindings := by
    unfold Repository.loadConfiguredFile
    rw [if_neg (by simp [hmodules]), if_pos htests]
    dsimp only
    rw [hholds.shown]
    refine Ensures.bind_keeps (fun s hs id s' hrun => ?_) fun _ => keeps_report (fun _ _ hs => hs) _ _ _ _
    have hscript := Repository.scriptLoaded hr hroot hs.2.sound inner f.topLevelModules f.globalBindings
    have hstate := hscript.builtState hs
    rw [hrun] at hscript hstate
    refine ⟨hstate, ?_⟩
    cases hscript with
    | put hadds =>
      exact Index.hasScript_putScript (Repository.grows_of_additions hadds hs.2.sound).sound
        { name := inner, topLevelModules := f.topLevelModules, globalBindings := f.globalBindings, files := _ }
  have hfolder := (hbuilt.byFolders [f]).ensures_loadFolder
    (hkept.mono (List.cons_subset_cons f (List.nil_subset after))) hwalks hfile
  have hall := (hbuilt.byFolders before).ensures_loadFolders (hkept.mono (List.subset_cons_self f after)) hfolder
  rw [← hfolders] at hall
  exact (ensured_of_loadPackage h hbuilt.log ⟨rfl, .new⟩ hall).2

end

end FusionKit
