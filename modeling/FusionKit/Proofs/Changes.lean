import FusionKit.Proofs.Recheck

/-!
# Changing a file of a package

A file of a package that was loaded is changed and checked again in the old index. Its problems are
those that a check of the changed package tells of it, where the settings tell for the path of the file
what loading takes it for, and where there is no doubt in which file a module is.
-/
set_option autoImplicit false

namespace FusionKit

namespace Repository

section

variable {r : Repository} {t : FileTree} {folders : List Folder} {f : Folder} {names : List Text}
  {old path inner : Text}

theorem Holds.resolve_shown (h : r.Holds f path inner) (hr : r.Rooted) : r.resolve inner = path := by
  obtain ⟨x, hx, heq⟩ := Path.join_eq_clean hr.package inner
  have hparts : Path.resolve (Path.join r.packagePath inner) = Path.resolve path :=
    Path.resolve_join_relative? hr.package h.absolute h.relative
  have hjoin : r.resolve inner = Path.join r.packagePath inner := if_neg (by simp [h.innerRelative])
  rw [hjoin, heq, ← Path.clean_clean, ← heq, Path.clean, hparts, heq, Path.isAbsolute_clean, hx, ← h.absolute]
  exact h.clean

/-! ## The changed package -/

section

variable (content : Text) (hold : t.entry? names = some (.file old))
include hold

theorem walks_put (hr : r.Rooted) : r.Walks (t.put names (.file content)) f path ↔ r.Walks t f path := by
  obtain ⟨dir, hdir, heq⟩ := Path.join_eq_clean hr.package f.path
  unfold Walks
  rw [heq]
  exact FileTree.finds_put content hold (by rw [Path.isAbsolute_clean, hdir]) (Path.clean_clean dir)

theorem Placed.put {own : Text} (h : r.Placed t folders own path) (hr : r.Rooted) :
    r.Placed (t.put names (.file content)) folders own path := by
  obtain ⟨hfile, f, hf, hmodules, hwalks⟩ := h
  exact ⟨(FileTree.moduleFile?_put content hold r own).trans hfile, f, hf, hmodules, (walks_put content hold hr).mpr hwalks⟩

theorem LeavesRoot.put (h : r.LeavesRoot t) : r.LeavesRoot (t.put names (.file content)) :=
  fun path hpath => h path ((FileTree.mem_filePaths_put content hold).mp hpath)

end

/-- The names leave no doubt where each file that has one is found for it. -/
theorem Distinct.of_placed (h : ∀ path ∈ t.filePaths, ∀ own, r.moduleName path = .ok own → r.Placed t folders own path)
    (hpaths : ∀ f ∈ folders, ∀ path, r.Walks t f path → path ∈ t.filePaths) : r.Distinct t folders where
  found _ path own _ hfile hown := h path (mem_filePaths_of_moduleFile? hfile) own hown
  first before f _ hfolders _ path own hwalks hown :=
    have hf : f ∈ folders := hfolders ▸ List.mem_append_right before List.mem_cons_self
    .inl (h path (hpaths f hf path hwalks) own hown).1

end

/-! ## Loaded packages -/

section

variable {settings : Settings} {r : Repository} {t : FileTree} {packagePath path own : Text} {s s' : LoadState}
  {names : List Text} {old content : Text}

/-- A loaded package has a module, which is not the root, exactly if a folder of modules has a file of
that name. -/
theorem Distinct.known_iff (h : r.Distinct t settings.folders) (hroot : r.LeavesRoot t)
    (hloaded : (settings.loadPackage t packagePath).run {} = (.ok r, s)) (hne : own ≠ rootModule.name) :
    s.index.moduleId? own ≠ none ↔
      ∃ f ∈ settings.folders, f.holdsModules = true ∧ ∃ path, r.Walks t f path ∧ r.moduleName path = .ok own := by
  have hsettled := h.settled hroot hloaded
  constructor
  · intro hknown
    obtain ⟨id, hid⟩ := Option.ne_none_iff_exists'.mp hknown
    obtain ⟨m, hm, rfl⟩ := hsettled.built.2.sound.modules.get? hid
    have hmem := List.mem_of_getElem? hm
    obtain ⟨-, f, hf, hmodules, hwalks⟩ := hsettled.inPlace m hmem hne
    exact ⟨f, hf, hmodules, m.file.path, hwalks, ((hsettled.built.2.entries m hmem).named hne).2⟩
  · rintro ⟨f, hf, hmodules, path, hwalks, hown⟩
    obtain ⟨own', hown', hid⟩ := hsettled.loaded f hf hmodules path hwalks
    obtain rfl := Except.ok.inj (hown.symm.trans hown')
    exact Option.isSome_iff_ne_none.mp hid

/-- The index of a package and that of the changed package are two versions. -/
theorem Distinct.versions (h : r.Distinct t settings.folders)
    (h' : r.Distinct (t.put names (.file content)) settings.folders) (hroot : r.LeavesRoot t)
    (hfind : t.find path = .ok (names, .file old)) (habs : Path.isAbsolute path = true) (hclean : Path.clean path = path)
    (hloaded : (settings.loadPackage t packagePath).run {} = (.ok r, s))
    (hloaded' : (settings.loadPackage (t.put names (.file content)) packagePath).run {} = (.ok r, s')) :
    r.Versions t (t.put names (.file content)) path s.index s'.index := by
  obtain ⟨hnames, hold⟩ := FileTree.entry?_of_find habs hclean hfind
  have hr := rooted_ofPackage (Settings.ofPackage_of_loadPackage hloaded)
  have hroot' := hroot.put content hold
  have hsettled := h.settled hroot hloaded
  have hsettled' := h'.settled hroot' hloaded'
  refine ⟨hr, hroot', FileTree.moduleFile?_put content hold r, ?_, hsettled.built.2, hsettled'.built.2, ?_, ?_, ?_⟩
  · intro other name hresolved hne
    obtain ⟨x, hx, heq⟩ := Path.absolute_eq_clean hr.package other
    have hother : other = Path.clean x := hresolved.symm.trans heq
    have habs' : Path.isAbsolute other = true := by rw [hother, Path.isAbsolute_clean, hx]
    have hclean' : Path.clean other = other := by rw [hother, Path.clean_clean]
    have hparts : Path.resolve other ≠ names := by
      intro heq
      refine hne ?_
      rw [← hclean', ← hclean, Path.clean, Path.clean, heq, hnames, habs, habs']
    unfold SourceFile.read
    rw [FileTree.read_put_ne content hold habs' hclean' hparts]
  · intro name hne
    refine not_iff_not.mp ((h.known_iff hroot hloaded hne).trans (.trans ?_ (h'.known_iff hroot' hloaded' hne).symm))
    simp only [walks_put content hold hr]
  · exact fun m hm hne => (hsettled.inPlace m hm hne).1
  · intro m hm hne
    rw [← FileTree.moduleFile?_put content hold]
    exact (hsettled'.inPlace m hm hne).1

end

end Repository

/-! ## Checking a changed file again -/

/-- A folder loads a file like another one: as a module, or as a script in the same environment. -/
structure Folder.LoadsLike (g f : Folder) : Prop where
  mode : g.mode = f.mode
  topLevelModules : f.holdsModules = false → g.topLevelModules = f.topLevelModules
  globalBindings : f.holdsModules = false → g.globalBindings = f.globalBindings

/-- The settings take a file for what loading takes it for. A folder that finds it has a path that leads
down from the package, and the folder that the settings tell for it loads it like the last one that
finds it. If it has the name of a module, it is the file of that module and not a test. -/
structure Settings.Places (settings : Settings) (r : Repository) (t : FileTree) (f : Folder) (path : Text) : Prop where
  inner : ∃ g ∈ settings.folders, g.Inner ∧ r.Walks t g path
  walks : r.Walks t f path
  last : ∃ before after, settings.folders = before ++ f :: after ∧ ∀ g ∈ after, ¬ r.Walks t g path
  alike : ∀ g, settings.folderOf? (r.shown path) = some g → g.LoadsLike f
  own : ∀ own, r.moduleName path = .ok own → f.holdsModules = true ∧ r.moduleFile? t own = some path

theorem Settings.holdsTests_of_validate {settings : Settings} {f : Folder} (h : settings.validate = .ok ())
    (hf : f ∈ settings.folders) (hmodules : f.holdsModules = false) : f.holdsTests = true := by
  have hall : ∀ (fs : List Folder) (i : Nat), validateFolders i fs = .ok () → ∀ f ∈ fs,
      f.holdsModules = false → f.holdsTests = true := by
    intro fs
    induction fs with
    | nil => exact fun _ _ f hf => absurd hf List.not_mem_nil
    | cons g fs ih =>
      intro i hvalid f hf hmodules
      unfold validateFolders at hvalid
      split at hvalid
      · cases hvalid
      split at hvalid
      · rename_i hmode
        rcases List.mem_cons.mp hf with rfl | hf
        · rwa [hmodules, Bool.false_or] at hmode
        · exact ih (i + 1) hvalid f hf hmodules
      · cases hvalid
  unfold validate at h
  split at h
  · exact hall settings.folders 0 h f hf hmodules
  · cases h

/-- What a check of a loaded package tells of a file: the problems of its module, or of its script. -/
inductive Repository.Tells (r : Repository) (idx : Index) (path : Text) : List Problem → Prop where
  | module {m : Module} (hm : m ∈ idx.modules) (hpath : m.file.path = path) (hname : r.moduleName path = .ok m.name) :
    Tells r idx path (idx.checkModule m)
  | script {b : Script} (hb : b ∈ idx.scripts) (hname : b.name = r.shown path) (hnone : ∀ own, r.moduleName path ≠ .ok own) :
    Tells r idx path (idx.checkScript b)

namespace Repository

section

variable {settings : Settings} {r : Repository} {t t' : FileTree} {path own inner : Text} {f g : Folder} {s : LoadState}
  {idx' : Index} {topLevelModules globalBindings : List Text}

/-- A file that the settings take for what loading takes it for is of concern. -/
theorem exists_folder_of_places (h : settings.Places r t f path) (hr : r.Rooted) (ht : t.Proper) :
    ∃ inner holder g, r.Holds holder path inner ∧ settings.folderOf? inner = some g ∧ g.LoadsLike f := by
  obtain ⟨holder, hmem, hinner, hwalks⟩ := h.inner
  obtain ⟨inner, hholds⟩ := hr.exists_holds ht hinner hwalks
  obtain ⟨g, -, hfolder, -⟩ := Settings.exists_folderOf? hmem hholds.innerClean hholds.holds
  exact ⟨inner, holder, g, hholds, hfolder, h.alike g (hholds.shown.symm ▸ hfolder)⟩

/-- The module of a changed file is loaded again with the problems that it has in the new index. -/
theorem Versions.tells_module (h : r.Versions t t' path s.index idx') (hloading : s.loading = [])
    (hplace : r.moduleFile? t own = some path) (hown : r.moduleName path = .ok own) (hne : own ≠ rootModule.name)
    (hid : (idx'.moduleId? own).isSome = true)
    (hwanted : ∀ file, SourceFile.read t' path (r.shown path) = .ok file → rootModule.name ∈ file.wanted →
      file.Imports rootModule.name) :
    ∃ id s', (r.reloadModuleFile t' own path).run s = (.ok id, s') ∧
      r.Tells idx' path ((s'.index.modules[id]?.map s'.index.checkModule).getD []) := by
  obtain ⟨id', hid'⟩ := Option.isSome_iff_exists.mp hid
  obtain ⟨m, hm, rfl⟩ := h.after.sound.modules.get? hid'
  have hmem := List.mem_of_getElem? hm
  obtain rfl : m.file.path = path := Option.some.inj ((h.inPlace' m hmem hne).symm.trans hplace)
  have hread := (h.after.entries m hmem).read hne
  obtain ⟨id, s', hrun, hproblems⟩ := h.recheck_module hloading hmem hne (hwanted m.file hread)
  exact ⟨id, s', hrun, hproblems ▸ .module hmem rfl hown⟩

/-- The script of a changed file is loaded again with the problems that it has in the new index. -/
theorem Versions.tells_script (h : r.Versions t t' path s.index idx')
    (hscript : idx'.HasScript inner topLevelModules globalBindings) (hnone : ∀ own, r.moduleName path ≠ .ok own)
    (hholds : r.Holds f path inner)
    (hwanted : ∀ file, SourceFile.read t' path (r.shown path) = .ok file → rootModule.name ∈ file.wanted →
      file.Imports rootModule.name) :
    ∃ id s', (r.loadScript t' inner topLevelModules globalBindings [inner]).run s = (.ok id, s') ∧
      r.Tells idx' path ((s'.index.scripts[id]?.map s'.index.checkScript).getD []) := by
  obtain ⟨b, hb, rfl, rfl, rfl⟩ := hscript
  obtain ⟨-, file, sum, hfiles, hread, -⟩ := h.after.scripts b hb
  have hfile : ∀ f ∈ b.files, rootModule.name ∈ f.wanted → f.Imports rootModule.name := by
    rw [hholds.resolve_shown h.rooted, ← hholds.shown] at hread
    rw [hfiles]
    exact fun f hf => List.mem_singleton.mp hf ▸ hwanted file hread
  obtain ⟨id, s', hrun, hproblems⟩ := h.recheck_script hb hnone hfile
  exact ⟨id, s', hrun, hproblems ▸ .script hb hholds.shown.symm hnone⟩

theorem recheck?_eq (hinner : r.sourcePath? t path = some inner) (hfolder : settings.folderOf? inner = some g) :
    r.recheck? t settings path = some (do
      if g.holdsModules then
        let file := t.absolute path
        let name ← LoadM.lift (r.moduleName file)
        let id ← r.reloadModuleFile t name file
        LoadM.ask fun idx => (idx.modules[id]?.map idx.checkModule).getD []
      else
        let id ← r.loadScript t inner g.topLevelModules g.globalBindings [inner]
        LoadM.ask fun idx => (idx.scripts[id]?.map idx.checkScript).getD []) := by
  unfold recheck?
  rw [hinner]
  show (settings.folderOf? inner).bind _ = _
  rw [hfolder]
  rfl

end

end Repository

section

variable {settings : Settings} {r r' : Repository} {t : FileTree} {packagePath path : Text} {f : Folder} {s s' : LoadState}
  {names : List Text} {old content : Text}

/-- A file of a loaded package was changed, and the changed package is loaded too. If the settings take
the file for what loading takes it for, no other module can be meant by its name, and the file asks for
the root only where loading looks, then it is checked again, with the problems that a check of the
changed package tells of it. -/
theorem Settings.recheck_eq_check (hvalid : settings.validate = .ok ()) (ht : t.Proper)
    (hloaded : (settings.loadPackage t packagePath).run {} = (.ok r, s))
    (hroot : r.LeavesRoot t) (hdistinct : r.Distinct t settings.folders)
    (hdistinct' : r.Distinct (t.put names (.file content)) settings.folders)
    (hsource : FileTree.IsSource path) (hfind : t.find (t.absolute path) = .ok (names, .file old))
    (hplaces : settings.Places r t f (t.absolute path))
    (hloaded' : (settings.loadPackage (t.put names (.file content)) packagePath).run {} = (.ok r', s'))
    (hwanted : ∀ file, SourceFile.ofSource (r.shown (t.absolute path)) content = .ok file →
      rootModule.name ∈ file.wanted → file.Imports rootModule.name) :
    ∃ again problems, r.recheck? (t.put names (.file content)) settings path = some again ∧
      (again.run s).1 = .ok problems ∧ r.Tells s'.index (t.absolute path) problems := by
  have hpackage := ofPackage_of_loadPackage hloaded
  have hr := Repository.rooted_ofPackage hpackage
  obtain ⟨inner, holder, g, hholds, hfolder, halike⟩ := Repository.exists_folder_of_places hplaces hr ht
  have hold := (FileTree.entry?_of_find hholds.absolute hholds.clean hfind).2
  obtain rfl : r' = r := by
    have hpackage' := ofPackage_of_loadPackage hloaded'
    rw [FileTree.ofPackage_put content hold, hpackage] at hpackage'
    exact (Except.ok.inj hpackage').symm
  have hversions := hdistinct.versions hdistinct' hroot hfind hholds.absolute hholds.clean hloaded hloaded'
  have hroot' := hroot.put content hold
  have hwalks' := (Repository.walks_put content hold hr).mpr hplaces.walks
  have hread : ∀ file, SourceFile.read (t.put names (.file content)) (t.absolute path) (r'.shown (t.absolute path)) =
      .ok file → rootModule.name ∈ file.wanted → file.Imports rootModule.name := by
    intro file hread
    unfold SourceFile.read at hread
    rw [FileTree.read_put_self content hold hholds.absolute hholds.clean hfind] at hread
    cases hparse : SourceFile.ofSource (r'.shown (t.absolute path)) content with
    | error e => simp [hparse] at hread
    | ok parsed =>
      simp only [hparse, Except.ok.injEq] at hread
      subst hread
      exact hwanted parsed hparse
  have hsamePath := FileTree.absolute_put content hold path
  have hinner : r'.sourcePath? (t.put names (.file content)) path = some inner :=
    Repository.Holds.sourcePath? (f := holder) (by rwa [hsamePath]) hsource
  have hmode : g.holdsModules = f.holdsModules := congrArg (· == utf8 "modules") halike.mode
  obtain ⟨before, after, hfolders, hlast⟩ := hplaces.last
  have hf : f ∈ settings.folders := hfolders ▸ List.mem_append_right _ List.mem_cons_self
  rw [Repository.recheck?_eq hinner hfolder, hsamePath, hmode]
  cases hmodules : f.holdsModules with
  | true =>
    have hloading : s.loading = [] := (hdistinct.settled hroot hloaded).built.1
    obtain ⟨own, hown, hid⟩ := (hdistinct'.settled hroot' hloaded').loaded f hf hmodules _ hwalks'
    have hplace := (hplaces.own own hown).2
    have hne : own ≠ rootModule.name := fun heq =>
      hroot _ (Repository.mem_filePaths_of_moduleFile? hplace) hplaces.walks.isSource (heq ▸ hown)
    obtain ⟨id, s'', hrun, htells⟩ := hversions.tells_module hloading hplace hown hne hid hread
    refine ⟨_, _, rfl, ?_, htells⟩
    rw [if_pos rfl]
    dsimp only
    rw [LoadM.run_bind, LoadM.run_lift, hown]
    dsimp only
    rw [LoadM.run_bind, hrun]
    rfl
  | false =>
    have htests := holdsTests_of_validate hvalid hf hmodules
    have hnone : ∀ own, r'.moduleName (t.absolute path) ≠ .ok own := fun own hown =>
      Bool.false_ne_true (hmodules.symm.trans (hplaces.own own hown).1)
    have hlast' : ∀ g ∈ after, ¬ r'.Walks (t.put names (.file content)) g (t.absolute path) :=
      fun g hg hwalks => hlast g hg ((Repository.walks_put content hold hr).mp hwalks)
    have hscript := hasScript_of_loadPackage hloaded' hroot' hfolders hmodules htests hwalks' hlast' hholds
    obtain ⟨id, s'', hrun, htells⟩ := hversions.tells_script hscript hnone hholds hread
    refine ⟨_, _, rfl, ?_, htells⟩
    rw [if_neg Bool.false_ne_true, halike.topLevelModules hmodules, halike.globalBindings hmodules, LoadM.run_bind, hrun]
    rfl

end

/-! ## A package that is changed -/

/-- A module that uses a name it does not know. -/
def brokenModule : Text := utf8 "(module b '/fusion/private/kernel' x)"

section

variable {path own : Text}

/-- The folder of the two modules. -/
def Folder.ofTwoModules : Folder := { path := utf8 "fusion/src", mode := utf8 "modules" }

/-- The two modules, the second of which is broken. -/
def changedModules : FileTree :=
  twoModules.put [utf8 "fusion", utf8 "src", utf8 "b.fusion"] (.file brokenModule)

theorem rooted_twoModules : Repository.ofTwoModules.Rooted := ⟨by decide, by decide⟩

theorem find_twoModules : twoModules.find (utf8 "/fusion/src/b.fusion") =
    .ok ([utf8 "fusion", utf8 "src", utf8 "b.fusion"], .file (utf8 "(module b '/fusion/private/kernel')")) := by
  cbv

theorem entry?_twoModules : twoModules.entry? [utf8 "fusion", utf8 "src", utf8 "b.fusion"] =
    some (.file (utf8 "(module b '/fusion/private/kernel')")) :=
  (FileTree.entry?_of_find (by decide) (by cbv) find_twoModules).2

theorem walks_twoModules :
    Repository.ofTwoModules.Walks twoModules .ofTwoModules path ↔ path ∈ twoModules.filePaths := by
  have hpaths : twoModules.filePaths = [utf8 "/fusion/src/b.fusion", utf8 "/fusion/src/a.fusion"] := by cbv
  have hdir : twoModules.isFolder (utf8 "/fusion/src") = true := by decide +kernel
  rw [hpaths]
  constructor
  · rintro ⟨-, paths, hpaths, hmem⟩
    obtain rfl := Except.ok.inj (sources_twoModules.symm.trans hpaths)
    exact List.mem_pair.mpr (List.mem_pair.mp hmem).symm
  · exact fun hmem => ⟨hdir, _, sources_twoModules, List.mem_pair.mpr (List.mem_pair.mp hmem).symm⟩

theorem placed_twoModules (hpath : path ∈ twoModules.filePaths)
    (hown : Repository.ofTwoModules.moduleName path = .ok own) :
    Repository.ofTwoModules.Placed twoModules [.ofTwoModules] own path := by
  have hnames : ∀ path ∈ twoModules.filePaths,
      (Repository.ofTwoModules.moduleName path).toOption.bind (Repository.ofTwoModules.moduleFile? twoModules) = some path := by
    decide +kernel
  have hfile := hnames path hpath
  rw [hown] at hfile
  exact ⟨hfile, _, List.mem_singleton_self _, by decide, walks_twoModules.mpr hpath⟩

theorem distinct_twoModules : Repository.ofTwoModules.Distinct twoModules [.ofTwoModules] := by
  refine .of_placed (fun path hpath own hown => placed_twoModules hpath hown) fun f hf path hwalks => ?_
  obtain rfl := List.mem_singleton.mp hf
  exact walks_twoModules.mp hwalks

theorem distinct_changedModules : Repository.ofTwoModules.Distinct changedModules [.ofTwoModules] := by
  have hpaths {path : Text} : path ∈ changedModules.filePaths ↔ path ∈ twoModules.filePaths :=
    FileTree.mem_filePaths_put _ entry?_twoModules
  refine .of_placed (fun path hpath own hown => ?_) fun f hf path hwalks => ?_
  · exact (placed_twoModules (hpaths.mp hpath) hown).put _ entry?_twoModules rooted_twoModules
  · obtain rfl := List.mem_singleton.mp hf
    exact hpaths.mpr (walks_twoModules.mp ((Repository.walks_put _ entry?_twoModules rooted_twoModules).mp hwalks))

theorem places_twoModules : (Settings.withModules (utf8 "fusion/src")).Places .ofTwoModules twoModules .ofTwoModules
    (utf8 "/fusion/src/b.fusion") := by
  have hpath : utf8 "/fusion/src/b.fusion" ∈ twoModules.filePaths := by decide +kernel
  have hfolder : (Settings.withModules (utf8 "fusion/src")).folderOf?
      (Repository.ofTwoModules.shown (utf8 "/fusion/src/b.fusion")) = some .ofTwoModules := by decide +kernel
  have hinner : Folder.ofTwoModules.Inner := ⟨by decide, utf8 "fusion", [utf8 "src"], by decide +kernel, by decide⟩
  have hwalks := walks_twoModules.mpr hpath
  refine ⟨⟨_, List.mem_singleton_self _, hinner, hwalks⟩, hwalks, ?_, fun g hg => ?_, ?_⟩
  · exact ⟨[], [], rfl, fun g hg => absurd hg List.not_mem_nil⟩
  · obtain rfl := Option.some.inj (hfolder.symm.trans hg)
    exact ⟨rfl, fun _ => rfl, fun _ => rfl⟩
  · exact fun own hown => ⟨by decide, (placed_twoModules hpath hown).1⟩

/-- The broken module asks for no other one. -/
theorem wanted_brokenModule {shown : Text} {file : SourceFile} (hshown : shown = utf8 "fusion/src/b.fusion")
    (h : SourceFile.ofSource shown brokenModule = .ok file) : file.wanted = [] := by
  have hnone : (SourceFile.ofSource (utf8 "fusion/src/b.fusion") brokenModule).toOption.map SourceFile.wanted = some [] := by
    decide +kernel
  rw [← hshown, h] at hnone
  exact Option.some.inj hnone

/-- The second of the two modules is changed, and checked again. -/
theorem Settings.recheck_eq_check_twoModules :
    let settings := withModules (utf8 "fusion/src")
    let r := Repository.ofTwoModules
    ∃ s s' again problems, (settings.loadPackage twoModules (utf8 "/")).run {} = (.ok r, s) ∧
      (settings.loadPackage changedModules (utf8 "/")).run {} = (.ok r, s') ∧
      r.recheck? changedModules settings (utf8 "fusion/src/b.fusion") = some again ∧ (again.run s).1 = .ok problems ∧
      r.Tells s'.index (utf8 "/fusion/src/b.fusion") problems := by
  intro settings r
  have hjoin : Path.join r.packagePath Folder.ofTwoModules.path = utf8 "/fusion/src" := by cbv
  have habsolute : twoModules.absolute (utf8 "fusion/src/b.fusion") = utf8 "/fusion/src/b.fusion" := by cbv
  have hroot : r.LeavesRoot twoModules := by
    have hnames : ∀ path ∈ twoModules.filePaths, r.moduleName path ≠ .ok rootModule.name := by decide +kernel
    exact fun path hpath _ => hnames path hpath
  have ht : twoModules.Proper := by
    have hparts : ∀ entry ∈ twoModules.entries, ∀ part ∈ entry.1,
        (part ≠ [] ∧ part ≠ Path.here ∧ Path.slash ∉ part) ∧ part ≠ Path.up := by decide +kernel
    exact hparts
  have hpackage : Repository.ofPackage twoModules (utf8 "/") settings.allModulePaths = .ok r := ofPackage_twoModules
  have hpackage' : Repository.ofPackage changedModules (utf8 "/") settings.allModulePaths = .ok r :=
    (FileTree.ofPackage_put _ entry?_twoModules _ _).trans hpackage
  have hsources' : changedModules.sources (utf8 "/fusion/src") =
      .ok [utf8 "/fusion/src/a.fusion", utf8 "/fusion/src/b.fusion"] := by cbv
  have hrun : ((settings.loadPackage twoModules (utf8 "/")).run {}).1.toOption = some r := by
    rw [loadPackage_of_sources rfl hpackage hjoin (by decide +kernel) sources_twoModules]
    decide +kernel
  have hrun' : ((settings.loadPackage changedModules (utf8 "/")).run {}).1.toOption = some r := by
    rw [loadPackage_of_sources rfl hpackage' hjoin (by decide +kernel) hsources']
    decide +kernel
  obtain ⟨s, hloaded⟩ := exists_loaded hrun
  obtain ⟨s', hloaded'⟩ := exists_loaded hrun'
  have hwanted : ∀ file, SourceFile.ofSource (r.shown (utf8 "/fusion/src/b.fusion")) brokenModule = .ok file →
      rootModule.name ∈ file.wanted → file.Imports rootModule.name := by
    intro file hfile hmem
    rw [wanted_brokenModule (by cbv) hfile] at hmem
    exact absurd hmem List.not_mem_nil
  have hsource : FileTree.IsSource (utf8 "fusion/src/b.fusion") := List.suffix_append (utf8 "fusion/src/b") _
  have hvalid : settings.validate = .ok () := by cbv
  have hfind := find_twoModules
  have hplaces := places_twoModules
  rw [← habsolute] at hfind hplaces hwanted
  obtain ⟨again, problems, hagain, hproblems, htells⟩ :=
    recheck_eq_check hvalid ht hloaded hroot distinct_twoModules distinct_changedModules hsource hfind hplaces hloaded'
      hwanted
  rw [habsolute] at htells
  exact ⟨s, s', again, problems, hloaded, hloaded', hagain, hproblems, htells⟩

/-- A package of one module, which is in its own folder. -/
def ownFolder (content : Text) : FileTree := ({} : FileTree).writeAt [utf8 "a.fusion"] content

/-- If the folder of the package itself is configured, no file in it is of concern, though the loaded
package has its module, and a check of the changed package tells of it. -/
theorem Settings.recheck_passes_over :
    let settings := withModules (utf8 ".")
    let t := ownFolder (utf8 "(module a '/fusion/private/kernel')")
    let t' := ownFolder (utf8 "(module a '/fusion/private/kernel' x)")
    t.put [utf8 "a.fusion"] (.file (utf8 "(module a '/fusion/private/kernel' x)")) = t' ∧
    settings.validate = .ok () ∧ ∃ (r : Repository) (s s' : LoadState) (problems : List Problem),
      (settings.loadPackage t (utf8 "/")).run {} = (.ok r, s) ∧
      (settings.loadPackage t' (utf8 "/")).run {} = (.ok r, s') ∧
      (∃ f ∈ settings.folders, r.Walks t f (utf8 "/a.fusion")) ∧
      r.Tells s'.index (utf8 "/a.fusion") problems ∧ problems ≠ [] ∧
      (r.recheck? t' settings (utf8 "a.fusion")).isNone = true := by
  intro settings t t'
  let r : Repository := ⟨utf8 "/", [utf8 "/"]⟩
  have hsources : t.sources (utf8 "/") = .ok [utf8 "/a.fusion"] := by cbv
  have hsources' : t'.sources (utf8 "/") = .ok [utf8 "/a.fusion"] := by cbv
  have hpackage : Repository.ofPackage t (utf8 "/") settings.allModulePaths = .ok r := by cbv
  have hpackage' : Repository.ofPackage t' (utf8 "/") settings.allModulePaths = .ok r := by cbv
  have hjoin : Path.join r.packagePath (utf8 ".") = utf8 "/" := by cbv
  have hdir : t.isFolder (utf8 "/") = true := by decide +kernel
  have hrun : ((settings.loadPackage t (utf8 "/")).run {}).1.toOption = some r := by
    rw [loadPackage_of_sources rfl hpackage hjoin hdir hsources]
    decide +kernel
  have hrun' : let out := (settings.loadPackage t' (utf8 "/")).run {}
      out.1.toOption = some r ∧ (out.2.index.modules.any fun m => m.file.path == utf8 "/a.fusion" &&
        (r.moduleName (utf8 "/a.fusion")).toOption == some m.name && !(out.2.index.checkModule m).isEmpty) = true := by
    rw [loadPackage_of_sources rfl hpackage' hjoin (by decide +kernel) hsources']
    decide +kernel
  obtain ⟨s, hloaded⟩ := exists_loaded hrun
  obtain ⟨s', hloaded'⟩ := exists_loaded hrun'.1
  have hany := hrun'.2
  rw [hloaded'] at hany
  obtain ⟨m, hm, hfound⟩ := List.any_eq_true.mp hany
  simp only [Bool.and_eq_true, beq_iff_eq, Bool.not_eq_true'] at hfound
  obtain ⟨⟨hpath, hname⟩, hproblems⟩ := hfound
  have hname : r.moduleName (utf8 "/a.fusion") = .ok m.name := by
    cases hown : r.moduleName (utf8 "/a.fusion") with
    | error e => simp [hown, Except.toOption] at hname
    | ok own =>
      rw [hown] at hname
      rw [Option.some.inj hname]
  refine ⟨by cbv, by cbv, r, s, s', _, hloaded, hloaded', ?_, .module hm hpath hname, ?_, ?_⟩
  · exact ⟨_, List.mem_singleton_self _, hdir, _, hsources, List.mem_singleton_self _⟩
  · exact List.isEmpty_eq_false_iff.mp hproblems
  · cbv

end

end FusionKit
