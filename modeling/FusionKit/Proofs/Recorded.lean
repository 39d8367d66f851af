import FusionKit.Proofs.Records

/-!
# Packages whose modules are recorded

When a package was loaded, every module of its index was recorded: its file was parsed, and what it
requires and provides is what the directives of the file made of a summary. This holds while modules
are loaded as well. A module that is marked may be in the index already if it is the root, and then
provides nothing, so putting it does not touch what others pass on.
-/
set_option autoImplicit false

namespace FusionKit

open LoadM

/-! ## Recorded modules -/

/-- Whether the tree of a file is that of its source. -/
def SourceFile.Parsed (f : SourceFile) : Prop := parse f.name f.source = .ok f.nodes

/-- Whether a module holds what its file tells. -/
structure ModuleBody.Recorded (idx : Index) (m : ModuleBody) : Prop where
  parsed : m.file.Parsed
  summary : ∃ sum : Summary, m.requires = sum.requires ∧ m.provides = sum.exports ∧ sum.Records idx m.file.directives

/-- A state of loading with some modules marked, in which all modules are recorded. -/
structure LoadState.Recorded (loading : List Text) (s : LoadState) : Prop where
  marked : s.loading = loading
  sound : s.index.Sound
  /-- What is marked provides nothing yet. -/
  waiting : ∀ m ∈ s.index.modules, m.name ∈ loading → m.provides = []
  modules : ∀ m ∈ s.index.modules, m.toModuleBody.Recorded s.index

section

variable {r : Repository} {t : FileTree} {idx idx' : Index} {m : ModuleBody} {s : LoadState} {loading : List Text}
  {own path name : Text} {file : SourceFile} {sum : Summary} {need : Text → LoadM Nat}

theorem ModuleBody.Recorded.mono (h : m.Recorded idx) (hidx : idx.Retains idx') : m.Recorded idx' := by
  obtain ⟨hparsed, sum, hrequires, hprovides, hsum⟩ := h
  exact ⟨hparsed, sum, hrequires, hprovides, hsum.mono hidx⟩

theorem Index.retains_putModule (hs : idx.Sound) (hm : ∀ m' ∈ idx.modules, m'.name = m.name → m'.provides = []) :
    idx.Retains (idx.putModule m).2 :=
  fun _ m' hm' hsome => hs.modules.getElem?_place hm' fun hname => hsome (hm m' (List.mem_of_getElem? hm') hname)

/-- One more module that is recorded, in place of one that provides nothing if there is one. -/
theorem Index.recorded_putModule (hs : idx.Sound) (h : ∀ m ∈ idx.modules, m.toModuleBody.Recorded idx)
    (hm : m.Recorded idx) (hnone : ∀ m' ∈ idx.modules, m'.name = m.name → m'.provides = []) :
    ∀ m' ∈ (idx.putModule m).2.modules, m'.toModuleBody.Recorded (idx.putModule m).2 := by
  have hretains := retains_putModule hs hnone
  intro m' hm'
  rcases mem_place hm' with rfl | hm'
  · exact hm.mono hretains
  · exact (h m' hm').mono hretains

theorem Index.Sound.ne_name (hs : idx.Sound) (hnew : idx.moduleId? name = none) {m : Module} (hm : m ∈ idx.modules) :
    m.name ≠ name := by
  rintro rfl
  obtain ⟨id, hid⟩ := List.getElem?_of_mem hm
  exact Option.some_ne_none _ ((hs.modules.entry id m hid).2.symm.trans hnew)

theorem recorded_rootModule (idx : Index) : rootModule.Recorded idx :=
  ⟨by with_unfolding_all rfl, {}, rfl, rfl, .empty idx⟩

theorem parsed_of_read {shown : Text} (h : SourceFile.read t path shown = .ok file) : file.Parsed := by
  obtain ⟨source, nodes, -, hparse, rfl⟩ := SourceFile.read_eq_ok.mp h
  exact hparse

theorem recorded_moduleOf (hparsed : file.Parsed) (own : Text) (hsum : sum.Records idx file.directives) :
    (file.moduleOf own sum).Recorded idx :=
  ⟨hparsed, sum, rfl, rfl, hsum⟩

/-! ## Recorded states -/

namespace LoadState.Recorded

theorem log (h : s.Recorded loading) (log : List LogEntry) : Recorded loading { s with log } :=
  ⟨h.marked, h.sound, h.waiting, h.modules⟩

theorem root (h : s.Recorded loading) : Recorded loading { s with index := s.index.root.2 } := by
  rcases s.index.root_cases with ⟨-, heq⟩ | ⟨hnew, heq⟩
  · rw [heq]
    exact h
  · rw [heq]
    refine ⟨h.marked, h.sound.putModule (by simp [rootModule]), fun m hm hwaits => ?_, ?_⟩
    · rcases Index.mem_place hm with rfl | hm
      · rfl
      · exact h.waiting m hm hwaits
    · exact Index.recorded_putModule h.sound h.modules (recorded_rootModule _)
        fun m hm hname => absurd hname (h.sound.ne_name hnew hm)

/-- A module that is not there can be marked. -/
theorem mark (h : s.Recorded loading) (hnew : s.index.moduleId? own = none) :
    Recorded (own :: loading) { s with loading := own :: s.loading } := by
  refine ⟨congrArg _ h.marked, h.sound, fun m hm hwaits => ?_, h.modules⟩
  exact h.waiting m hm ((List.mem_cons.mp hwaits).resolve_left (h.sound.ne_name hnew hm))

theorem filter_loading (h : s.Recorded (own :: loading)) (hfree : own ∉ loading) :
    s.loading.filter (· != own) = loading := by
  rw [h.marked, Repository.filter_marked hfree]

theorem unmark (h : s.Recorded (own :: loading)) (hfree : own ∉ loading) :
    Recorded loading { s with loading := s.loading.filter (· != own) } :=
  ⟨h.filter_loading hfree, h.sound, fun m hm hwaits => h.waiting m hm (List.mem_cons_of_mem _ hwaits), h.modules⟩

/-- The module that is marked last is put, and its mark goes. -/
theorem put (h : s.Recorded (own :: loading)) (hfree : own ∉ loading) (hm : m.Recorded s.index) (hown : m.name = own)
    (hpoints : ∀ q ∈ m.requires, q.target < s.index.modules.length) (log : List LogEntry) :
    Recorded loading ⟨(s.index.putModule m).2, s.loading.filter (· != own), log⟩ := by
  refine ⟨h.filter_loading hfree, h.sound.putModule hpoints, fun m' hm' hwaits => ?_, ?_⟩
  · rcases Index.mem_place hm' with rfl | hm'
    · exact absurd (hown ▸ hwaits) hfree
    · exact h.waiting m' hm' (List.mem_cons_of_mem _ hwaits)
  · exact Index.recorded_putModule h.sound h.modules hm
      fun m' hm' hname => h.waiting m' hm' (hname.trans hown ▸ List.mem_cons_self)

end LoadState.Recorded

namespace Repository

/-! ## Loading -/

/-- What a module needs is loaded while it is marked; then it is put, and is recorded too. -/
theorem recorded_loadAs (h : s.Recorded loading) (hfree : own ∉ loading) (hnew : s.index.moduleId? own = none)
    (hserves : r.Serves t need (own :: loading))
    (hneed : ∀ name, LoadM.Keeps (LoadState.Recorded (own :: loading)) (need name)) (path : Text) :
    ((r.loadAs t need own path).run s).2.Recorded loading := by
  have hmark := h.mark hnew
  rw [run_loadAs_eq]
  cases hread : SourceFile.read t path (r.shown path) with
  | error e => exact hmark.unmark hfree
  | ok file =>
    let marked : LoadState := { s with loading := own :: s.loading }
    have hneed : LoadM.Keeps (LoadState.Recorded (own :: loading)) (file.summarize need) :=
      keeps_summarize fun _ _ name _ => hneed name
    have hloads : r.Loads t (file.summarize need) marked fun sum idx =>
        Summary.Points sum idx ∧ ∀ name, file.Imports name → r.Leads t idx name :=
      summarize_loads hserves hmark.sound hmark.marked
    have hrecords : r.Loads t (file.summarize need) marked fun sum idx => sum.Records idx file.directives :=
      summarize_records hserves hmark.sound hmark.marked
    have hkept := hneed marked hmark
    replace hloads := hloads.result
    replace hrecords := hrecords.result
    dsimp only
    generalize (file.summarize need).run marked = out at hkept hloads hrecords ⊢
    obtain ⟨e | sum, s'⟩ := out
    · exact hkept.unmark hfree
    · have hm := recorded_moduleOf (parsed_of_read hread) own (hrecords sum rfl)
      exact hkept.put hfree hm rfl (hloads sum rfl).1 _

theorem keeps_loadModule (r : Repository) (t : FileTree) (loading : List Text) (name : Text) :
    LoadM.Keeps (LoadState.Recorded loading) (r.loadModule t loading name) := by
  induction loading using marks_induction r t generalizing name with
  | mark loading ih =>
    intro s hs
    have hneed := run_loadModule r t loading s name
    generalize (r.loadModule t loading name).run s = out at hneed ⊢
    cases hneed with
    | root => exact hs.root
    | known | missing | nameless | present | circular => exact hs
    | load _ _ hfile hown hnew hfree =>
      exact recorded_loadAs hs hfree hnew (loadModule_serves _) (fun name => ih hfile hown hfree name) _

theorem keeps_needModule (r : Repository) (t : FileTree) (loading : List Text) (name : Text) :
    LoadM.Keeps (LoadState.Recorded loading) (r.needModule t name) := by
  intro s hs
  obtain rfl := hs.marked
  exact r.keeps_loadModule t s.loading name s hs

theorem keeps_loadModuleFile (hr : r.Rooted) (t : FileTree) (path : Text) :
    LoadM.Keeps (LoadState.Recorded loading) (r.loadModuleFile t path) := by
  intro s hs
  rw [run_loadModuleFile hr]
  split
  · exact hs
  · split
    · exact hs
    · rename_i hnew
      split
      · exact hs
      · rename_i hfree
        rw [hs.marked] at hfree
        exact recorded_loadAs hs hfree hnew (needModule_serves _) (r.keeps_needModule t _) _

theorem keeps_loadScript (r : Repository) (t : FileTree) (name : Text)
    (topLevelModules globalBindings fileNames : List Text) :
    LoadM.Keeps (LoadState.Recorded loading) (r.loadScript t name topLevelModules globalBindings fileNames) := by
  unfold Repository.loadScript
  refine (keeps_forIn fun name _ => r.keeps_needModule t loading name).bind fun _ => ?_
  refine (keeps_mapM fun fileName _ => ?_).bind fun files => fun s hs => ?_
  · intro s hs
    rw [LoadM.run_bind, LoadM.run_lift]
    cases SourceFile.read t (r.resolve fileName) fileName with
    | error e => exact hs
    | ok file =>
      have hfile : LoadM.Keeps (LoadState.Recorded loading) (file.summarize (r.needModule t)) :=
        keeps_summarize fun _ _ name _ => r.keeps_needModule t loading name
      exact hfile.bind (fun _ => keeps_pure file) s hs
  · exact ⟨hs.marked, hs.sound.putScript _, hs.waiting, fun m hm => (hs.modules m hm).mono fun _ _ h _ => h⟩

theorem keptByFiles_recorded (hr : r.Rooted) (t : FileTree) : r.KeptByFiles t (LoadState.Recorded []) where
  log _ log hs := hs.log log
  module path _ := keeps_loadModuleFile hr t path
  script name topLevelModules globalBindings := r.keeps_loadScript t name topLevelModules globalBindings [name]

end Repository

/-- When a package was loaded, all modules of its index are recorded. -/
theorem Settings.recorded_of_loadPackage {settings : Settings} {packagePath : Text}
    (h : (settings.loadPackage t packagePath).run {} = (.ok r, s)) : s.Recorded [] :=
  have hr := Repository.rooted_ofPackage (Settings.ofPackage_of_loadPackage h)
  have hnew : LoadState.Recorded [] {} :=
    ⟨rfl, Index.sound_empty, fun _ hm => absurd hm List.not_mem_nil, fun _ hm => absurd hm List.not_mem_nil⟩
  Settings.holds_of_loadPackage h hnew ((Repository.keptByFiles_recorded hr t).byFolders settings.folders)

end

end FusionKit
