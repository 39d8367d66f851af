import FusionKit.Proofs.Configured

/-!
# The file that a module is in

A module that is needed is in the file that is found for its name, but one that was met in a folder
has the name of its path, for which another file may be found. Where no other file is found that is
not loaded earlier under that name, every module of a loaded package is in the file that is found for
its name.
-/
set_option autoImplicit false

namespace FusionKit

open LoadM

/-- The module that a directive needs. -/
def Directive.module? : Directive → Option Text
  | .language name => some name
  | .require name _ => some name
  | _ => none

/-- A module is asked for by a name: a source file needs it, or the scripts of a folder do. -/
inductive FileTree.Asks (t : FileTree) (folders : List Folder) (name : Text) : Prop where
  | file {path shown : Text} {file : SourceFile} {d : Directive} (h : SourceFile.read t path shown = .ok file)
    (hd : d ∈ file.directives) (hname : d.module? = some name)
  | folder {f : Folder} (hf : f ∈ folders) (hname : name ∈ f.topLevelModules)

theorem Index.mem_modules_root {idx : Index} {m : Module} (hm : m ∈ idx.root.2.modules) :
    m.name = rootModule.name ∨ m ∈ idx.modules := by
  rcases idx.root_cases with ⟨-, heq⟩ | ⟨-, heq⟩
  · exact .inr (heq ▸ hm)
  · rw [heq] at hm
    rcases Index.mem_place hm with rfl | hm
    · exact .inl rfl
    · exact .inr hm

namespace Repository

/-- What holds of an index still holds when the root is put, or the module of a file that was found for
a name that is asked for. -/
structure KeptByFinding (r : Repository) (t : FileTree) (folders : List Folder) (P : Index → Prop) : Prop where
  root : ∀ idx, P idx → P idx.root.2
  module : ∀ (idx : Index) (name path own : Text) (file : SourceFile) (sum : Summary), P idx → t.Asks folders name →
    r.moduleFile? t name = some path → r.moduleName path = .ok own → file.path = path →
    P (idx.putModule (file.moduleOf own sum)).2

section

variable {r : Repository} {t : FileTree} {folders : List Folder} {P : Index → Prop} {Q : LoadState → Prop}
  {need : Text → LoadM Nat} {s : LoadState} {idx : Index} {file : SourceFile} {name own path : Text} {sum : Summary}

theorem path_of_read {shown : Text} (h : SourceFile.read t path shown = .ok file) : file.path = path := by
  obtain ⟨source, nodes, -, -, rfl⟩ := SourceFile.read_eq_ok.mp h
  rfl

/-! ## What finding keeps -/

theorem keeps_follow (sum : Summary) {d : Directive}
    (hneed : ∀ name, d.module? = some name → LoadM.Keeps Q (need name)) : LoadM.Keeps Q (d.follow need sum) := by
  cases d with
  | define | provide | provideDefined => exact keeps_pure _
  | misuse m => exact keeps_of_same fun _ => rfl
  | provideAs span inner outer =>
    refine Keeps.bind (keeps_of_same fun _ => rfl) fun idx => ?_
    split
    · exact keeps_pure _
    · exact keeps_of_same fun _ => rfl
  | language name => exact (hneed name rfl).bind fun _ => keeps_pure _
  | require name imports =>
    refine (hneed name rfl).bind fun target => ?_
    cases imports with
    | ok imports => exact keeps_pure _
    | error m => exact keeps_of_same fun _ => rfl

theorem keeps_summarize (hneed : ∀ d ∈ file.directives, ∀ name, d.module? = some name → LoadM.Keeps Q (need name)) :
    LoadM.Keeps Q (file.summarize need) := by
  have hall : ∀ ds ⊆ file.directives, ∀ sum : Summary,
      LoadM.Keeps Q (ds.foldlM (Directive.follow need) sum) := by
    intro ds
    induction ds with
    | nil => exact fun _ _ => keeps_pure _
    | cons d ds ih =>
      intro hsub sum
      rw [List.foldlM_cons]
      exact (keeps_follow sum (hneed d (hsub List.mem_cons_self))).bind (ih fun d hd => hsub (List.mem_cons_of_mem _ hd))
  exact (hall file.directives (List.Subset.refl _) {}).adapt file.resolve

/-- Loading a file as a module keeps what its needs and putting the module keep. -/
theorem holds_loadAs (hneed : ∀ name, t.Asks folders name → LoadM.Keeps (P ·.index) (need name))
    (hput : ∀ idx (file : SourceFile) sum, P idx → file.path = path → P (idx.putModule (file.moduleOf own sum)).2)
    (hs : P s.index) : P ((r.loadAs t need own path).run s).2.index := by
  rw [run_loadAs_eq]
  cases hread : SourceFile.read t path (r.shown path) with
  | error e => exact hs
  | ok file =>
    have hnext : LoadM.Keeps (P ·.index) (file.summarize need) :=
      keeps_summarize fun d hd name hname => hneed name (.file hread hd hname)
    have hnext := hnext { s with loading := own :: s.loading } hs
    dsimp only
    generalize (file.summarize need).run { s with loading := own :: s.loading } = out at hnext ⊢
    obtain ⟨e | sum, s'⟩ := out
    · exact hnext
    · exact hput s'.index file sum hnext (path_of_read hread)

theorem KeptByFinding.loadModule (h : r.KeptByFinding t folders P) (loading : List Text) (hname : t.Asks folders name) :
    LoadM.Keeps (P ·.index) (r.loadModule t loading name) := by
  induction loading using marks_induction r t generalizing name with
  | mark loading ih =>
    intro s hs
    have hneed := run_loadModule r t loading s name
    generalize (r.loadModule t loading name).run s = out at hneed ⊢
    cases hneed with
    | root => exact h.root s.index hs
    | known | missing | nameless | present | circular => exact hs
    | load _ _ hfile hown _ hfree =>
      exact holds_loadAs (fun _ hname => ih hfile hown hfree hname)
        (fun idx file sum hidx hpath => h.module idx _ _ _ file sum hidx hname hfile hown hpath) hs

theorem KeptByFinding.needModule (h : r.KeptByFinding t folders P) (hname : t.Asks folders name) :
    LoadM.Keeps (P ·.index) (r.needModule t name) :=
  fun s hs => h.loadModule s.loading hname s hs

/-- Loading a file as the module of its name keeps what finding keeps, if putting the module does. -/
theorem KeptByFinding.loadModuleFile (h : r.KeptByFinding t folders P) (hr : r.Rooted)
    (hput : ∀ own, r.moduleName path = .ok own → s.index.moduleId? own = none → ∀ idx (file : SourceFile) sum, P idx →
      file.path = r.resolve path → P (idx.putModule (file.moduleOf own sum)).2) (hs : P s.index) :
    P ((r.loadModuleFile t path).run s).2.index := by
  rw [run_loadModuleFile hr]
  split
  · exact hs
  · rename_i own hown
    split
    · exact hs
    · rename_i hnew
      split
      · exact hs
      · exact holds_loadAs (fun _ hname => h.needModule hname) (hput own hown hnew) hs

theorem KeptByFinding.loadScript (h : r.KeptByFinding t folders P) (hput : ∀ idx b, P idx → P (idx.putScript b).2)
    {topLevelModules : List Text} (htop : ∀ name ∈ topLevelModules, t.Asks folders name) (name : Text)
    (globalBindings fileNames : List Text) :
    LoadM.Keeps (P ·.index) (r.loadScript t name topLevelModules globalBindings fileNames) := by
  unfold Repository.loadScript
  refine (keeps_forIn fun name hname => h.needModule (htop name hname)).bind fun _ => ?_
  refine (keeps_mapM fun fileName _ => ?_).bind fun files => fun s hs => hput s.index _ hs
  intro s hs
  rw [LoadM.run_bind, LoadM.run_lift]
  cases hread : SourceFile.read t (r.resolve fileName) fileName with
  | error e => exact hs
  | ok file =>
    have hfile : LoadM.Keeps (P ·.index) (file.summarize (r.needModule t)) :=
      keeps_summarize fun d hd name hname => h.needModule (.file hread hd hname)
    exact hfile.bind (fun _ => keeps_pure file) s hs

end

/-! ## Modules in their places -/

/-- A file is the one found for a name, and in a folder of modules. -/
def Placed (r : Repository) (t : FileTree) (folders : List Folder) (own path : Text) : Prop :=
  r.moduleFile? t own = some path ∧ ∃ f ∈ folders, f.holdsModules = true ∧ r.Walks t f path

/-- Every module of an index, apart from the root, is in the file that is found for its name. -/
def InPlace (r : Repository) (t : FileTree) (folders : List Folder) (idx : Index) : Prop :=
  ∀ m ∈ idx.modules, m.name ≠ rootModule.name → r.Placed t folders m.name m.file.path

/-- The names of a package leave no doubt in which file a module is. What is found for a name that is
asked for is found for its own name too, in a folder of modules. A file that such a folder has is the
one found for its name, or comes after one with the same name. -/
structure Distinct (r : Repository) (t : FileTree) (folders : List Folder) : Prop where
  found : ∀ name path own, t.Asks folders name → r.moduleFile? t name = some path → r.moduleName path = .ok own →
    r.Placed t folders own path
  first : ∀ before f after, folders = before ++ f :: after → f.holdsModules = true →
    ∀ path own, r.Walks t f path → r.moduleName path = .ok own →
      r.moduleFile? t own = some path ∨
      ∃ g ∈ before, g.holdsModules = true ∧ ∃ other, r.Walks t g other ∧ r.moduleName other = .ok own

/-- The state after the folders before some others were loaded: each module is in its place, and those
of all their files are there. -/
structure Settled (r : Repository) (t : FileTree) (folders before : List Folder) (s : LoadState) : Prop where
  built : r.BuiltState t s
  inPlace : r.InPlace t folders s.index
  loaded : ∀ f ∈ before, f.holdsModules = true → ∀ path, r.Walks t f path → r.Loaded path s.index

section

variable {r : Repository} {t : FileTree} {folders before after : List Folder} {f : Folder} {s : LoadState}
  {idx : Index} {file : SourceFile} {own : Text}

theorem InPlace.putModule (h : r.InPlace t folders idx) (hfile : r.Placed t folders own file.path) (sum : Summary) :
    r.InPlace t folders (idx.putModule (file.moduleOf own sum)).2 := by
  intro m hm hne
  rcases Index.mem_place hm with rfl | hm
  · exact hfile
  · exact h m hm hne

theorem Distinct.keptByFinding (h : r.Distinct t folders) : r.KeptByFinding t folders (r.InPlace t folders) where
  root _ hidx m hm hne := hidx m ((Index.mem_modules_root hm).resolve_left hne) hne
  module _ name path own _ sum hidx hname hfile hown hpath :=
    hidx.putModule (hpath ▸ h.found name path own hname hfile hown) sum

/-- The files of the next folder leave the state settled. -/
theorem Distinct.kept (h : r.Distinct t folders) (hr : r.Rooted) (hroot : r.LeavesRoot t)
    (hfolders : folders = before ++ f :: after) : r.KeptByFolders t [f] (r.Settled t folders before) := by
  have hbuilt := keptByFiles_built hr hroot
  have hf : f ∈ folders := hfolders ▸ List.mem_append_right _ List.mem_cons_self
  refine ⟨fun _ _ hs => ⟨hs.built, hs.inPlace, hs.loaded⟩, fun g hg path hwalks => ?_⟩
  obtain rfl := List.mem_singleton.mp hg
  unfold loadConfiguredFile
  split
  · rename_i hmodules
    refine Keeps.bind (fun s hs => ?_) fun _ => keeps_pure _
    refine ⟨hbuilt.module path hwalks.isSource s hs.built, ?_, fun f hf hmodules other hother => ?_⟩
    · refine h.keptByFinding.loadModuleFile hr (fun own hown hnew idx file sum hidx hpath => ?_) hs.inPlace
      obtain ⟨habs, hclean⟩ := hr.absolute_of_walks hwalks
      rw [resolve, Path.absolute_of_clean habs hclean] at hpath
      refine hidx.putModule (hpath ▸ ⟨?_, g, hf, hmodules, hwalks⟩) sum
      -- a module with this name of an earlier folder would be there
      refine (h.first before g after hfolders hmodules path own hwalks hown).resolve_right ?_
      rintro ⟨f, hf, hmodules, other, hother, hown⟩
      obtain ⟨own', hown', hthere⟩ := hs.loaded f hf hmodules other hother
      obtain rfl := Except.ok.inj (hown.symm.trans hown')
      rw [hnew] at hthere
      cases hthere
    · have hkept := (keptByFiles_loaded hr hroot other).module path hwalks.isSource s
      exact (hkept ⟨hs.built, hs.loaded f hf hmodules other hother⟩).2
  split
  · refine Keeps.bind (fun s hs => ?_) fun _ => keeps_report (fun _ _ hs => ⟨hs.built, hs.inPlace, hs.loaded⟩) _ _ _ _
    refine ⟨hbuilt.script _ _ _ s hs.built, ?_, fun f hf hmodules other hother => ?_⟩
    · exact h.keptByFinding.loadScript (fun _ _ hidx => hidx) (fun _ hname => .folder hf hname) _ _ _ s hs.inPlace
    · have hkept := (keptByFiles_loaded hr hroot other).script (r.shown path) g.topLevelModules g.globalBindings s
      exact (hkept ⟨hs.built, hs.loaded f hf hmodules other hother⟩).2
  · exact keeps_pure _

theorem Distinct.ensures_loadFolder (h : r.Distinct t folders) (hr : r.Rooted) (hroot : r.LeavesRoot t)
    (hfolders : folders = before ++ f :: after) :
    Ensures (r.Settled t folders before) (r.loadFolder t f) (r.Settled t folders (before ++ [f])) := by
  intro s hs u s' hrun
  have hnext := (h.kept hr hroot hfolders).loadFolder List.mem_cons_self s hs
  rw [hrun] at hnext
  refine ⟨hnext.built, hnext.inPlace, fun g hg hmodules path hwalks => ?_⟩
  rcases List.mem_append.mp hg with hg | hg
  · exact hnext.loaded g hg hmodules path hwalks
  · obtain rfl := List.mem_singleton.mp hg
    exact (ensures_loaded hr hroot hmodules hwalks s hs.built u s' hrun).2

end

/-- Every module of a loaded package is in its place, and those of all files in the folders are there. -/
theorem Distinct.settled {r : Repository} {t : FileTree} {settings : Settings} {packagePath : Text} {s : LoadState}
    (h : r.Distinct t settings.folders) (hroot : r.LeavesRoot t)
    (hloaded : (settings.loadPackage t packagePath).run {} = (.ok r, s)) : r.Settled t settings.folders settings.folders s := by
  have hr := rooted_ofPackage (Settings.ofPackage_of_loadPackage hloaded)
  have hall : ∀ after before, settings.folders = before ++ after →
      Ensures (r.Settled t settings.folders before) (after.forM (r.loadFolder t))
        (r.Settled t settings.folders settings.folders) := by
    intro after
    induction after with
    | nil =>
      intro before hfolders
      rw [hfolders, List.append_nil]
      exact (keeps_pure _).ensures
    | cons f after ih =>
      intro before hfolders
      refine (h.ensures_loadFolder hr hroot hfolders).bind fun _ => ih (before ++ [f]) ?_
      rw [hfolders, List.append_assoc, List.singleton_append]
  have hnew : r.Settled t settings.folders [] {} :=
    ⟨⟨rfl, .new⟩, fun m hm => absurd hm List.not_mem_nil, fun f hf => absurd hf List.not_mem_nil⟩
  have hlog : IgnoresLog (r.Settled t settings.folders []) := fun _ _ hs => ⟨hs.built, hs.inPlace, hs.loaded⟩
  exact Settings.ensured_of_loadPackage hloaded hlog hnew (hall settings.folders [] rfl)

end Repository

end FusionKit
