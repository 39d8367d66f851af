import FusionKit.Proofs.Loading
import FusionKit.Proofs.Paths

/-!
# What holds of a package that was loaded

A package is loaded by loading source files as modules, and others as scripts of their own. What
holds of an empty state, is kept by these calls whether they succeed or fail, and does not depend on
the log, therefore holds of a package that was loaded.
-/
set_option autoImplicit false

namespace FusionKit

variable {α β : Type} {P Q : LoadState → Prop} {r : Repository} {t : FileTree} {s : LoadState}

namespace LoadM

/-- An action keeps what holds of a state, also when it fails. -/
def Keeps (P : LoadState → Prop) (act : LoadM α) : Prop := ∀ s, P s → P (act.run s).2

/-- If `P` holds of a state and an action succeeds, `Q` holds of the next one. -/
def Ensures (P : LoadState → Prop) (act : LoadM α) (Q : LoadState → Prop) : Prop :=
  ∀ s, P s → ∀ a s', act.run s = (.ok a, s') → Q s'

/-- Whether something holds of a state does not depend on its log. -/
def IgnoresLog (P : LoadState → Prop) : Prop := ∀ s log, P s → P { s with log }

theorem keeps_of_same {act : LoadM α} (h : ∀ s, (act.run s).2 = s) : Keeps P act :=
  fun s hs => (h s).symm ▸ hs

theorem keeps_pure (a : α) : Keeps P (pure a : LoadM α) := keeps_of_same fun _ => rfl

theorem keeps_report (hlog : IgnoresLog P) (level : Level) (message key : String) (value : Text) :
    Keeps P (report level message key value) :=
  fun s hs => hlog s _ hs

theorem Keeps.bind {x : LoadM α} {f : α → LoadM β} (hx : Keeps P x) (hf : ∀ a, Keeps P (f a)) :
    Keeps P (x >>= f) := by
  intro s hs
  have hnext := hx s hs
  rw [run_bind]
  rcases hrun : x.run s with ⟨_ | a, s'⟩
  · rwa [hrun] at hnext
  · rw [hrun] at hnext
    exact hf a s' hnext

theorem Keeps.adapt {act : LoadM α} (h : Keeps P act) (g : Failure → Failure) : Keeps P (ExceptT.adapt g act) := h

theorem Keeps.ensures {act : LoadM α} (h : Keeps P act) : Ensures P act P := by
  intro s hs a s' hrun
  have hnext := h s hs
  rwa [hrun] at hnext

theorem Ensures.bind {R : LoadState → Prop} {x : LoadM α} {f : α → LoadM β} (hx : Ensures P x Q)
    (hf : ∀ a, Ensures Q (f a) R) : Ensures P (x >>= f) R := by
  intro s hs b s' hrun
  rw [run_bind] at hrun
  rcases hfirst : x.run s with ⟨_ | a, s₁⟩
  · rw [hfirst] at hrun
    cases hrun
  · rw [hfirst] at hrun
    exact hf a s₁ (hx s hs a s₁ hfirst) b s' hrun

theorem Ensures.bind_keeps {x : LoadM α} {f : α → LoadM β} (hx : Ensures P x Q) (hf : ∀ a, Keeps Q (f a)) :
    Ensures P (x >>= f) Q :=
  hx.bind fun a => (hf a).ensures

theorem Keeps.bind_ensures {x : LoadM α} {f : α → LoadM β} (hx : Keeps P x) (hf : ∀ a, Ensures P (f a) Q) :
    Ensures P (x >>= f) Q :=
  hx.ensures.bind hf

section

variable {items : List α} {f : α → LoadM β}

theorem keeps_forIn (hf : ∀ a ∈ items, Keeps P (f a)) :
    Keeps P (forIn items PUnit.unit fun a _ => do
      let _ ← f a
      return ForInStep.yield PUnit.unit) := by
  induction items with
  | nil => exact keeps_pure _
  | cons a items ih =>
    rw [List.forIn_cons]
    refine ((hf a List.mem_cons_self).bind fun _ => keeps_pure _).bind fun step => ?_
    cases step with
    | done => exact keeps_pure _
    | yield => exact ih fun a ha => hf a (List.mem_cons_of_mem _ ha)

theorem keeps_mapM (hf : ∀ a ∈ items, Keeps P (f a)) : Keeps P (items.mapM f) := by
  induction items with
  | nil => exact keeps_pure _
  | cons a items ih =>
    rw [List.mapM_cons]
    exact (hf a List.mem_cons_self).bind fun _ => (ih fun b hb => hf b (List.mem_cons_of_mem _ hb)).bind fun _ => keeps_pure _

/-- What one item of a loop ensures holds at its end, if the others keep it. -/
theorem ensures_forIn {item : α} (hitem : item ∈ items) (hP : ∀ a ∈ items, Keeps P (f a))
    (hQ : ∀ a ∈ items, Keeps Q (f a)) (hf : Ensures P (f item) Q) :
    Ensures P (forIn items PUnit.unit fun a _ => do
      let _ ← f a
      return ForInStep.yield PUnit.unit) Q := by
  induction items with
  | nil => exact absurd hitem List.not_mem_nil
  | cons a items ih =>
    have hrest : ∀ {P : LoadState → Prop}, (∀ b ∈ a :: items, Keeps P (f b)) → ∀ b ∈ items, Keeps P (f b) :=
      fun h b hb => h b (List.mem_cons_of_mem _ hb)
    rw [List.forIn_cons]
    rcases List.mem_cons.mp hitem with rfl | hitem
    · refine (hf.bind_keeps fun _ => keeps_pure _).bind_keeps fun step => ?_
      cases step with
      | done => exact keeps_pure _
      | yield => exact keeps_forIn (hrest hQ)
    · intro s hs b s' hrun
      rw [bind_assoc] at hrun
      refine (hP a List.mem_cons_self).bind_ensures (fun _ => ?_) s hs b s' hrun
      rw [pure_bind]
      exact ih hitem (hrest hP) (hrest hQ)

end

end LoadM

open LoadM

/-- The calls that load a package keep what holds of a state: those for source files, and those for
scripts that are named like their file. -/
structure Repository.KeptByFiles (r : Repository) (t : FileTree) (P : LoadState → Prop) : Prop where
  log : IgnoresLog P
  module : ∀ path, FileTree.IsSource path → LoadM.Keeps P (r.loadModuleFile t path)
  script : ∀ name topLevelModules globalBindings, LoadM.Keeps P (r.loadScript t name topLevelModules globalBindings [name])

/-- A walk through a configured folder finds a file. -/
def Repository.Walks (r : Repository) (t : FileTree) (folder : Folder) (path : Text) : Prop :=
  t.Finds (Path.join r.packagePath folder.path) path

/-- Folders keep what holds of a state while their files are loaded. -/
structure Repository.KeptByFolders (r : Repository) (t : FileTree) (folders : List Folder) (P : LoadState → Prop) :
    Prop where
  log : IgnoresLog P
  file : ∀ folder ∈ folders, ∀ path, r.Walks t folder path → LoadM.Keeps P (r.loadConfiguredFile t folder path)

namespace Repository

section

variable {folder : Folder} {folders before after : List Folder} {path : Text}

theorem KeptByFiles.byFolders (h : r.KeptByFiles t P) (folders : List Folder) : r.KeptByFolders t folders P := by
  refine ⟨h.log, fun folder _ path hpath => ?_⟩
  unfold loadConfiguredFile
  split
  · exact (h.module path hpath.isSource).bind fun _ => keeps_pure _
  split
  · exact (h.script _ _ _).bind fun _ => keeps_report h.log _ _ _ _
  · exact keeps_pure _

theorem KeptByFolders.mono {fs : List Folder} (h : r.KeptByFolders t folders P) (hsub : fs ⊆ folders) :
    r.KeptByFolders t fs P :=
  ⟨h.log, fun folder hfolder => h.file folder (hsub hfolder)⟩

theorem KeptByFolders.loadFolder (h : r.KeptByFolders t folders P) (hfolder : folder ∈ folders) :
    LoadM.Keeps P (r.loadFolder t folder) := by
  unfold Repository.loadFolder
  dsimp only
  split
  · rename_i hdir
    intro s hs
    rw [run_bind, run_lift]
    cases hpaths : t.sources (Path.join r.packagePath folder.path) with
    | error e => exact hs
    | ok paths =>
      exact (keeps_forIn fun path hpath => h.file folder hfolder path ⟨hdir, paths, hpaths, hpath⟩).bind
        (fun _ => keeps_pure _) s hs
  · exact keeps_report h.log _ _ _ _

theorem KeptByFolders.loadFolders (h : r.KeptByFolders t folders P) : LoadM.Keeps P (folders.forM (r.loadFolder t)) := by
  induction folders with
  | nil => exact keeps_pure _
  | cons f fs ih => exact (h.loadFolder List.mem_cons_self).bind fun _ => ih (h.mono (List.subset_cons_self f fs))

/-- What the loading of one file ensures holds when its folder was loaded, if the others keep it. -/
theorem KeptByFolders.ensures_loadFolder (hP : r.KeptByFolders t [folder] P) (hQ : r.KeptByFolders t [folder] Q)
    (hpath : r.Walks t folder path) (hfile : Ensures P (r.loadConfiguredFile t folder path) Q) :
    Ensures P (r.loadFolder t folder) Q := by
  obtain ⟨hdir, paths, hpaths, hmem⟩ := hpath
  have hkept {P : LoadState → Prop} (h : r.KeptByFolders t [folder] P) (path : Text) (hpath : path ∈ paths) :=
    h.file folder List.mem_cons_self path ⟨hdir, paths, hpaths, hpath⟩
  unfold Repository.loadFolder
  dsimp only
  rw [if_pos hdir, hpaths]
  exact (ensures_forIn hmem (hkept hP) (hkept hQ) hfile).bind_keeps fun _ => keeps_pure _

/-- What the loading of one folder ensures holds at the end, if those after it keep it. -/
theorem KeptByFolders.ensures_loadFolders (hP : r.KeptByFolders t before P) (hQ : r.KeptByFolders t after Q)
    (hfolder : Ensures P (r.loadFolder t folder) Q) :
    Ensures P ((before ++ folder :: after).forM (r.loadFolder t)) Q := by
  induction before with
  | nil => exact hfolder.bind_keeps fun _ => hQ.loadFolders
  | cons f fs ih =>
    exact (hP.loadFolder List.mem_cons_self).bind_ensures fun _ => ih (hP.mono (List.subset_cons_self f fs))

end

end Repository

/-- The repository of a package that was loaded. -/
theorem Settings.ofPackage_of_loadPackage {settings : Settings} {packagePath : Text}
    (h : (settings.loadPackage t packagePath).run {} = (.ok r, s)) :
    Repository.ofPackage t packagePath settings.allModulePaths = .ok r := by
  unfold loadPackage at h
  rw [run_bind, run_lift] at h
  cases hpackage : Repository.ofPackage t packagePath settings.allModulePaths with
  | error e =>
    rw [hpackage] at h
    cases h
  | ok r' =>
    rw [hpackage] at h
    dsimp only at h
    rw [← bind_assoc, run_bind] at h
    split at h
    · rw [(Prod.mk.inj h).1]
    · cases h

/-- A package is loaded by loading the configured folders into an empty state. -/
theorem Settings.run_of_loadPackage {settings : Settings} {packagePath : Text}
    (h : (settings.loadPackage t packagePath).run {} = (.ok r, s)) :
    (LoadM.report .debug "module repository initialized" "paths" (Text.bracketed r.modulePaths) >>=
      fun _ => r.loadConfigured t settings).run {} = (.ok (), s) := by
  have hpackage := ofPackage_of_loadPackage h
  unfold loadPackage at h
  rw [run_bind, run_lift, hpackage] at h
  dsimp only at h
  rw [← bind_assoc, run_bind] at h
  split at h
  · rename_i hrun
    rw [hrun, ← (Prod.mk.inj h).2]
  · cases h

section

variable {settings : Settings} {packagePath : Text}

/-- What loading the configured folders ensures holds of a package that was loaded. -/
theorem Settings.ensured_of_loadPackage (h : (settings.loadPackage t packagePath).run {} = (.ok r, s))
    (hlog : IgnoresLog P) (hnew : P {}) (hall : Ensures P (settings.folders.forM (r.loadFolder t)) Q) : Q s :=
  ((keeps_report hlog _ _ _ _).bind_ensures fun _ => hall) {} hnew () s (run_of_loadPackage h)

/-- What holds of an empty state and is kept by the folders holds of a package that was loaded. -/
theorem Settings.holds_of_loadPackage (h : (settings.loadPackage t packagePath).run {} = (.ok r, s)) (hnew : P {})
    (hkept : r.KeptByFolders t settings.folders P) : P s :=
  ensured_of_loadPackage h hkept.log hnew hkept.loadFolders.ensures

end

/-! ## Packages with one folder -/

/-- Settings with one folder of modules. -/
def Settings.withModules (path : Text) : Settings :=
  { Settings.default with folders := [{ path, mode := utf8 "modules" }] }

/-- A package with one folder is loaded by loading the files that are found there. -/
theorem Settings.loadPackage_of_sources {settings : Settings} {t : FileTree} {packagePath dir : Text} {r : Repository}
    {folder : Folder} {paths : List Text} (hfolders : settings.folders = [folder])
    (hpackage : Repository.ofPackage t packagePath settings.allModulePaths = .ok r)
    (hjoin : Path.join r.packagePath folder.path = dir) (hdir : t.isFolder dir = true)
    (hsources : t.sources dir = .ok paths) :
    settings.loadPackage t packagePath = (do
      LoadM.report .debug "module repository initialized" "paths" (Text.bracketed r.modulePaths)
      for path in paths do
        r.loadConfiguredFile t folder path
      return r) := by
  rw [loadPackage, hpackage]
  simp only [LoadM.lift, pure_bind, Repository.loadConfigured, hfolders, List.forM, Repository.loadFolder, hjoin, hdir,
    if_true, hsources, bind_assoc]

theorem Settings.exists_loaded {settings : Settings} {t : FileTree} {packagePath : Text} {r : Repository}
    (h : ((settings.loadPackage t packagePath).run {}).1.toOption = some r) :
    ∃ s, (settings.loadPackage t packagePath).run {} = (.ok r, s) := by
  generalize (settings.loadPackage t packagePath).run {} = out at h ⊢
  obtain ⟨e | r', s⟩ := out
  · cases h
  · exact ⟨s, by rw [Option.some.inj h]⟩

end FusionKit
