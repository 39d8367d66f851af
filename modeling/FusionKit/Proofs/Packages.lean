import Mathlib
import FusionKit.Proofs.Calls
import FusionKit.Proofs.Keeping
import FusionKit.Proofs.Requires

/-!
# Checking a package

When a package was loaded, all that its files import leads to modules. A check looks modules up by
the names that are written, so it tells of those that loading found under another name, and of
those that are asked for where loading does not look.
-/
set_option autoImplicit false

namespace FusionKit

section

variable {r : Repository} {t : FileTree} {s : LoadState} {idx : Index}

/-! ## Ready indices -/

theorem Repository.Complete.putScript (h : r.Complete t idx) {b : ScriptBody}
    (hb : ∀ f ∈ b.files, ∀ name, f.Imports name → r.Leads t idx name) : r.Complete t (idx.putScript b).2 := by
  intro f hf name hname
  refine Leads.mono ?_ (idx.keeps_putScript b)
  rcases List.mem_append.mp hf with hf | hf
  · exact h f (List.mem_append_left _ hf) name hname
  · obtain ⟨b', hb', hf⟩ := List.mem_flatMap.mp hf
    rcases Index.mem_place hb' with rfl | hb'
    · exact hb f hf name hname
    · exact h f (List.mem_append_right _ (List.mem_flatMap.mpr ⟨b', hb', hf⟩)) name hname

theorem LoadCall.Outcome.complete {c : LoadCall} {out : Except Failure Nat × LoadState}
    (h : c.Outcome r t s out) (hc : r.Complete t s.index) : r.Complete t out.2.index := by
  cases h with
  | grown hg => exact hg.complete hc
  | module hg _ _ himports => exact (hg.complete hc).putModule himports
  | script hg _ himports => exact (hg.complete hc).putScript himports

namespace Repository

/-- The places of an index are right, and all that its files import leads to its modules. -/
structure Ready (r : Repository) (t : FileTree) (idx : Index) : Prop where
  sound : idx.Sound
  complete : r.Complete t idx

theorem ready_empty (r : Repository) (t : FileTree) : r.Ready t {} :=
  ⟨Index.sound_empty, fun _ hf => absurd hf List.not_mem_nil⟩

/-- Calls leave a ready index ready, also when they fail. -/
theorem ready_perform (c : LoadCall) : LoadM.Keeps (r.Ready t ·.index) (c.perform r t) := fun _ hs =>
  have houtcome := c.run_perform hs.sound
  ⟨houtcome.sound, houtcome.complete hs.complete⟩

theorem keptByFiles_ready (r : Repository) (t : FileTree) : r.KeptByFiles t (r.Ready t ·.index) where
  log _ _ hs := hs
  module path _ := ready_perform (.moduleFile path)
  script name topLevelModules globalBindings := ready_perform (.script name topLevelModules globalBindings [name])

end Repository

/-- When a package was loaded, its index is ready. -/
theorem Settings.ready_of_loadPackage {settings : Settings} {packagePath : Text}
    (h : (settings.loadPackage t packagePath).run {} = (.ok r, s)) : r.Ready t s.index :=
  Settings.holds_of_loadPackage h (Repository.ready_empty r t) ((Repository.keptByFiles_ready r t).byFolders settings.folders)

/-! ## What a check tells -/

theorem Index.Sound.isSome_module? (hs : idx.Sound) {name : Text} (h : (idx.moduleId? name).isSome) :
    (idx.module? name).isSome := by
  obtain ⟨id, hid⟩ := Option.isSome_iff_exists.mp h
  obtain ⟨m, hm, -⟩ := hs.module? hid
  exact Option.isSome_of_eq_some hm

theorem Index.mem_files_of_checked {f : SourceFile} (h : f ∈ idx.checkedFiles) : f ∈ idx.files := by
  rcases List.mem_append.mp h with h | h
  · obtain ⟨m, hm, rfl⟩ := List.mem_map.mp h
    exact List.mem_append_left _ (List.mem_map_of_mem (List.mem_filter.mp hm).1)
  · exact List.mem_append_right _ h

/-- When a package was loaded, a check tells of a module that a file asks for if and only if there is
none with this name. If the file imports it where loading looks, loading found it under another
name. -/
theorem Settings.reported_after_load {settings : Settings} {packagePath : Text}
    (h : (settings.loadPackage t packagePath).run {} = (.ok r, s)) (f : SourceFile) (name : Text) :
    Reported s.index.checkAll f name ↔
      f ∈ s.index.checkedFiles ∧ name ∈ f.wanted ∧ s.index.module? name = none ∧
      (f.Imports name → ∃ path own, r.moduleFile? t name = some path ∧ r.moduleName path = .ok own ∧
        own ≠ name ∧ (s.index.module? own).isSome) := by
  have hready := Settings.ready_of_loadPackage h
  rw [Index.reported_checkAll hready.sound]
  refine ⟨fun ⟨hf, hwanted, hnone⟩ => ⟨hf, hwanted, hnone, fun himports => ?_⟩,
    fun ⟨hf, hwanted, hnone, _⟩ => ⟨hf, hwanted, hnone⟩⟩
  rcases hready.complete f (Index.mem_files_of_checked hf) name himports with
    hplace | ⟨path, own, hfile, hown, hplace⟩
  · have hthere := hready.sound.isSome_module? hplace
    rw [hnone] at hthere
    cases hthere
  · have hthere := hready.sound.isSome_module? hplace
    refine ⟨path, own, hfile, hown, fun heq => ?_, hthere⟩
    rw [heq, hnone] at hthere
    cases hthere

end

/-! ## Another name for a module -/

/-- A package of two modules, of which one requires the other without its first slash. -/
def twoModules : FileTree :=
  (({} : FileTree).writeAt [utf8 "fusion", utf8 "src", utf8 "a.fusion"]
    (utf8 "(module a '/fusion/private/kernel' (require \"b\"))")).writeAt
    [utf8 "fusion", utf8 "src", utf8 "b.fusion"] (utf8 "(module b '/fusion/private/kernel')")

/-- Its repository. -/
def Repository.ofTwoModules : Repository := ⟨utf8 "/", [utf8 "/fusion/src"]⟩

theorem sources_twoModules : twoModules.sources (utf8 "/fusion/src") =
    .ok [utf8 "/fusion/src/a.fusion", utf8 "/fusion/src/b.fusion"] := by
  cbv

theorem ofPackage_twoModules :
    Repository.ofPackage twoModules (utf8 "/") Settings.default.allModulePaths = .ok .ofTwoModules := by
  cbv

/-- Its files are loaded one after the other. -/
theorem loadPackage_twoModules : Settings.default.loadPackage twoModules (utf8 "/") = (do
    LoadM.report .debug "module repository initialized" "paths" (Text.bracketed [utf8 "/fusion/src"])
    for path in [utf8 "/fusion/src/a.fusion", utf8 "/fusion/src/b.fusion"] do
      Repository.ofTwoModules.loadConfiguredFile twoModules
        { path := utf8 "fusion/src", mode := utf8 "modules" } path
    LoadM.report .debug "skipping missing path" "path" (utf8 "ftst")
    return .ofTwoModules) := by
  have hdir : Path.join Repository.ofTwoModules.packagePath (utf8 "fusion/src") = utf8 "/fusion/src" := by cbv
  have hsources : twoModules.isFolder (utf8 "/fusion/src") = true := by decide +kernel
  have htests : twoModules.isFolder (Path.join Repository.ofTwoModules.packagePath (utf8 "ftst")) = false := by
    decide +kernel
  rw [Settings.loadPackage, ofPackage_twoModules]
  simp only [LoadM.lift, pure_bind, Repository.loadConfigured, Settings.default, List.forM, Repository.loadFolder,
    hdir, hsources, htests, sources_twoModules, if_true, Bool.false_eq_true, if_false, bind_assoc]
  rfl

/-- The module that is required is loaded under the name of its file. -/
theorem loads_twoModules : ∃ s, (Settings.default.loadPackage twoModules (utf8 "/")).run {} = (.ok .ofTwoModules, s) ∧
    (s.index.module? (utf8 "/b")).isSome = true ∧ s.index.module? (utf8 "b") = none ∧
    ∃ f ∈ s.index.checkedFiles, utf8 "b" ∈ f.wanted := by
  have hrun : let out := (Settings.default.loadPackage twoModules (utf8 "/")).run {}
      out.1.toOption = some .ofTwoModules ∧ (out.2.index.module? (utf8 "/b")).isSome = true ∧
      (out.2.index.module? (utf8 "b")).isNone = true ∧
      (out.2.index.checkedFiles.any fun f => f.wanted.contains (utf8 "b")) = true := by
    rw [loadPackage_twoModules]
    decide +kernel
  generalize (Settings.default.loadPackage twoModules (utf8 "/")).run {} = out at hrun ⊢
  obtain ⟨hresult, hthere, hnone, hwanted⟩ := hrun
  obtain ⟨e | r, s⟩ := out
  · cases hresult
  · obtain ⟨f, hf, hwanted⟩ := List.any_eq_true.mp hwanted
    refine ⟨s, by rw [Option.some.inj hresult], hthere, Option.isNone_iff_eq_none.mp hnone, f, hf, ?_⟩
    exact List.contains_iff_mem.mp hwanted

namespace Settings

theorem reported_after_load_rooted :
    ∃ s, (Settings.default.loadPackage twoModules (utf8 "/")).run {} = (.ok .ofTwoModules, s) ∧
      ∀ f, ¬ Reported s.index.checkAll f (utf8 "/b") := by
  obtain ⟨s, hloaded, hthere, -⟩ := loads_twoModules
  refine ⟨s, hloaded, fun f hreported => ?_⟩
  rw [((reported_after_load hloaded f (utf8 "/b")).mp hreported).2.2.1] at hthere
  cases hthere

/-- The module that is required without its first slash is loaded, and yet said not to be there. -/
theorem reported_after_load_unrooted :
    Settings.default.validate = .ok () ∧
    ∃ s, (Settings.default.loadPackage twoModules (utf8 "/")).run {} = (.ok .ofTwoModules, s) ∧
      (s.index.module? (utf8 "/b")).isSome = true ∧ ∃ f, Reported s.index.checkAll f (utf8 "b") := by
  obtain ⟨s, hloaded, hthere, hnone, f, hf, hwanted⟩ := loads_twoModules
  have hready := ready_of_loadPackage hloaded
  exact ⟨by cbv, s, hloaded, hthere, f, (Index.reported_checkAll hready.sound).mpr ⟨hf, hwanted, hnone⟩⟩

end Settings

/-! ## Two modules with any contents -/

/-- A package of two modules with some sources. -/
def FileTree.ofModules (a b : Text) : FileTree :=
  (({} : FileTree).writeAt [utf8 "fusion", utf8 "src", utf8 "a.fusion"] a).writeAt
    [utf8 "fusion", utf8 "src", utf8 "b.fusion"] b

/-- Its files are loaded one after the other, whatever is in them. -/
theorem Settings.loadPackage_ofModules (a b : Text) :
    (withModules (utf8 "fusion/src")).loadPackage (.ofModules a b) (utf8 "/") = (do
      LoadM.report .debug "module repository initialized" "paths" (Text.bracketed Repository.ofTwoModules.modulePaths)
      for path in [utf8 "/fusion/src/a.fusion", utf8 "/fusion/src/b.fusion"] do
        Repository.ofTwoModules.loadConfiguredFile (.ofModules a b)
          { path := utf8 "fusion/src", mode := utf8 "modules" } path
      return .ofTwoModules) := by
  have hpackage : Repository.ofPackage (.ofModules a b) (utf8 "/")
      (withModules (utf8 "fusion/src")).allModulePaths = .ok .ofTwoModules := by cbv
  have hjoin : Path.join Repository.ofTwoModules.packagePath (utf8 "fusion/src") = utf8 "/fusion/src" := by cbv
  have hdir : (FileTree.ofModules a b).isFolder (utf8 "/fusion/src") = true := by cbv
  have hsources : (FileTree.ofModules a b).sources (utf8 "/fusion/src") =
      .ok [utf8 "/fusion/src/a.fusion", utf8 "/fusion/src/b.fusion"] := by cbv
  exact loadPackage_of_sources rfl hpackage hjoin hdir hsources

end FusionKit
