import FusionKit.Proofs.Loading

/-!
# Calls of a loader

What a call of a loader leaves behind, whether it succeeds or fails: the index has grown, and if the
call was to load a module again or to load a script and succeeded, that module or script was put.
Nothing else changes; in particular the marks are as before.
-/
set_option autoImplicit false

namespace FusionKit

/-- A call of a loader. -/
inductive LoadCall where
  | module (name : Text)
  | moduleFile (path : Text)
  | reload (name path : Text)
  | script (name : Text) (topLevelModules globalBindings fileNames : List Text)
  deriving DecidableEq, Repr

namespace LoadCall

/-- Does what is called for. -/
def perform (c : LoadCall) (r : Repository) (t : FileTree) : LoadM Nat :=
  match c with
  | module name => r.needModule t name
  | moduleFile path => r.loadModuleFile t path
  | reload name path => r.reloadModuleFile t name path
  | script name topLevelModules globalBindings fileNames =>
    r.loadScript t name topLevelModules globalBindings fileNames

/-- The module that a call puts in any case. -/
def module? : LoadCall → Option Text
  | reload name _ => some name
  | _ => none

/-- The script that a call puts. -/
def script? : LoadCall → Option Text
  | script name _ _ _ => some name
  | _ => none

/-- What a call comes to. -/
inductive Outcome (c : LoadCall) (r : Repository) (t : FileTree) (s : LoadState) :
    Except Failure Nat × LoadState → Prop where
  | grown {result : Except Failure Nat} {idx : Index} {log : List LogEntry} (hg : s.index.Grows r t idx) :
    Outcome c r t s (result, ⟨idx, s.loading, log⟩)
  | module {idx : Index} {log : List LogEntry} {m : ModuleBody} (hg : s.index.Grows r t idx)
      (hc : c.module? = some m.name) (hpoints : ∀ q ∈ m.requires, q.target < idx.modules.length)
      (himports : ∀ name, m.file.Imports name → r.Leads t idx name) :
    Outcome c r t s (.ok (idx.putModule m).1, ⟨(idx.putModule m).2, s.loading, log⟩)
  | script {idx : Index} {log : List LogEntry} {b : ScriptBody} (hg : s.index.Grows r t idx)
      (hc : c.script? = some b.name)
      (himports : ∀ f ∈ b.files, ∀ name, f.Imports name → r.Leads t idx name) :
    Outcome c r t s (.ok (idx.putScript b).1, ⟨(idx.putScript b).2, s.loading, log⟩)

end LoadCall

namespace Repository

variable {r : Repository} {t : FileTree} {s : LoadState} {name path : Text}

/-! ## Loading files -/

theorem run_reloadModuleFile (hs : s.index.Sound) (name path : Text) :
    r.Stored t s name ((r.reloadModuleFile t name path).run s) := by
  have hrun : (r.reloadModuleFile t name path).run s =
      (if name ∈ s.loading then throw (selfDependent name)
      else r.loadAs t (r.needModule t) name (r.resolve path)).run s := rfl
  rw [hrun]
  split
  · exact .failed (.refl hs)
  · rename_i hfree
    exact run_loadAs hfree hs (needModule_serves _)

theorem loadModuleFile_loads (hs : s.index.Sound) (path : Text) :
    r.Loads t (r.loadModuleFile t path) s fun id idx => id < idx.modules.length := by
  refine (loads_lift hs _).bind fun name s' _ hg _ => (loads_ask hg.sound).bind fun id? s'' _ hg' hid => ?_
  split
  · rename_i id
    rw [← hid.1] at hid
    exact loads_pure hg'.sound (hg'.sound.modules.lt hid.2.symm)
  · rw [← hid.1] at hid
    exact ((run_reloadModuleFile hg'.sound name _).loads hg'.sound hid.2.symm).mono
      fun id idx hg hplace => hg.sound.modules.lt hplace

/-! ## Loading scripts -/

theorem loads_forIn (names : List Text) (hs : s.index.Sound) :
    r.Loads t (forIn names PUnit.unit fun name _ => do
      let _ ← r.needModule t name
      return ForInStep.yield PUnit.unit) s fun _ _ => True := by
  induction names generalizing s with
  | nil => exact loads_pure hs trivial
  | cons name names ih =>
    rw [List.forIn_cons]
    refine (((needModule_loads hs name).bind (H := fun step _ => step = ForInStep.yield PUnit.unit)
      fun _ _ _ hg _ => loads_pure hg.sound rfl).bind fun step s' _ hg hstep => ?_)
    subst hstep
    exact ih hg.sound

theorem loads_scriptFiles (fileNames : List Text) (hs : s.index.Sound) :
    r.Loads t (fileNames.mapM fun fileName => do
      let file ← LoadM.lift (SourceFile.read t (r.resolve fileName) fileName)
      let _ ← file.summarize (r.needModule t)
      return file) s fun files idx => ∀ f ∈ files, ∀ name, f.Imports name → r.Leads t idx name := by
  induction fileNames generalizing s with
  | nil => exact loads_pure hs (by simp)
  | cons fileName fileNames ih =>
    rw [List.mapM_cons]
    have hfirst : r.Loads t (do
        let file ← LoadM.lift (SourceFile.read t (r.resolve fileName) fileName)
        let _ ← file.summarize (r.needModule t)
        return file) s fun file idx => ∀ name, file.Imports name → r.Leads t idx name :=
      (loads_lift hs _).bind fun file s' _ hg _ =>
        (summarize_loads (needModule_serves _) hg.sound rfl).bind fun _ s'' _ hg' h => loads_pure hg'.sound h.2
    refine hfirst.bind fun file s' _ hg hfile => (ih hg.sound).bind fun files s'' _ hg' hfiles => ?_
    refine loads_pure hg'.sound (List.forall_mem_cons.mpr ⟨fun name hname => ?_, hfiles⟩)
    exact (hfile name hname).mono hg'.keeps

end Repository

/-! ## All calls -/

namespace LoadCall

variable {r : Repository} {t : FileTree} {s : LoadState}

theorem Outcome.of_loads {act : LoadM Nat} {G : Nat → Index → Prop} (h : r.Loads t act s G) (c : LoadCall) :
    c.Outcome r t s (act.run s) := by
  obtain ⟨hloading, hg, -⟩ := h
  generalize act.run s = out at hloading hg ⊢
  obtain ⟨result, idx, loading, log⟩ := out
  obtain rfl : loading = s.loading := hloading
  exact .grown hg

theorem Outcome.of_files {files : LoadM (List SourceFile)} {c : LoadCall}
    (body : List SourceFile → ScriptBody)
    (h : r.Loads t files s fun files idx => ∀ f ∈ files, ∀ name, f.Imports name → r.Leads t idx name)
    (hc : ∀ files, c.script? = some (body files).name) (hbody : ∀ files, (body files).files = files) :
    c.Outcome r t s ((files >>= fun files => LoadM.update (·.putScript (body files))).run s) := by
  obtain ⟨hloading, hg, hresult⟩ := h
  rw [LoadM.run_bind]
  generalize files.run s = out at hloading hg hresult ⊢
  obtain ⟨e | files, idx, loading, log⟩ := out
  · obtain rfl : loading = s.loading := hloading
    exact .grown hg
  · obtain rfl : loading = s.loading := hloading
    exact .script hg (hc files) (by rw [hbody]; exact hresult files rfl)

theorem run_loadScript (hs : s.index.Sound) (name : Text) (topLevelModules globalBindings fileNames : List Text) :
    (script name topLevelModules globalBindings fileNames).Outcome r t s
      ((r.loadScript t name topLevelModules globalBindings fileNames).run s) := by
  unfold Repository.loadScript
  rw [← bind_assoc]
  refine .of_files ({ name, topLevelModules, globalBindings, files := · }) ?_ (fun _ => rfl) fun _ => rfl
  exact (Repository.loads_forIn topLevelModules hs).bind fun _ s' _ hg _ =>
    Repository.loads_scriptFiles fileNames hg.sound

theorem run_perform (c : LoadCall) (hs : s.index.Sound) : c.Outcome r t s ((c.perform r t).run s) := by
  cases c with
  | module name => exact .of_loads (Repository.needModule_loads hs name) _
  | moduleFile path => exact .of_loads (Repository.loadModuleFile_loads hs path) _
  | script name topLevelModules globalBindings fileNames => exact run_loadScript hs _ _ _ _
  | reload name path =>
    have hstored := Repository.run_reloadModuleFile (r := r) (t := t) hs name path
    show Outcome _ r t s ((r.reloadModuleFile t name path).run s)
    generalize (r.reloadModuleFile t name path).run s = out at hstored ⊢
    cases hstored with
    | failed hg => exact .grown hg
    | put hg hname hpoints himports => exact .module hg (congrArg some hname.symm) hpoints himports

theorem Outcome.loading {c : LoadCall} {out : Except Failure Nat × LoadState} (h : c.Outcome r t s out) :
    out.2.loading = s.loading := by
  cases h <;> rfl

theorem Outcome.sound {c : LoadCall} {out : Except Failure Nat × LoadState} (h : c.Outcome r t s out) :
    out.2.index.Sound := by
  cases h with
  | grown hg => exact hg.sound
  | module hg _ hpoints => exact hg.sound.putModule hpoints
  | script hg => exact hg.sound.putScript _

theorem Outcome.keeps {c : LoadCall} {out : Except Failure Nat × LoadState} (h : c.Outcome r t s out) :
    s.index.Keeps out.2.index := by
  cases h with
  | grown hg => exact hg.keeps
  | module hg => exact hg.keeps.trans (Index.keeps_putModule _ _)
  | script hg => exact hg.keeps.trans (Index.keeps_putScript _ _)

end LoadCall

/-! ## Histories of an index -/

namespace Index

/-- What one call makes of an index. A module may be put by hand if what it requires is there; a
loader may be in any state. -/
inductive Call : Index → Index → Prop where
  | root (idx : Index) : Call idx idx.root.2
  | putModule (idx : Index) (m : ModuleBody) (hm : ∀ q ∈ m.requires, q.target < idx.modules.length) :
    Call idx (idx.putModule m).2
  | putScript (idx : Index) (b : ScriptBody) : Call idx (idx.putScript b).2
  | load (c : LoadCall) (r : Repository) (t : FileTree) (s : LoadState) :
    Call s.index ((c.perform r t).run s).2.index

/-- An index that calls make of an empty one. -/
inductive Reached : Index → Prop where
  | new : Reached {}
  | call {idx idx' : Index} (h : Reached idx) (hcall : idx.Call idx') : Reached idx'

variable {idx idx' : Index}

theorem Call.sound (h : idx.Call idx') (hs : idx.Sound) : idx'.Sound := by
  cases h with
  | root => exact hs.root
  | putModule _ m hm => exact hs.putModule hm
  | putScript _ b => exact hs.putScript b
  | load c r t s => exact (c.run_perform hs).sound

theorem Call.keeps (h : idx.Call idx') (hs : idx.Sound) : idx.Keeps idx' := by
  cases h with
  | root => exact idx.keeps_root
  | putModule _ m hm => exact idx.keeps_putModule m
  | putScript _ b => exact idx.keeps_putScript b
  | load c r t s => exact (c.run_perform hs).keeps

theorem Reached.sound (h : idx.Reached) : idx.Sound := by
  induction h with
  | new => exact sound_empty
  | call _ hcall ih => exact hcall.sound ih

/-- However an index was made, names and places belong to each other, requirements point to modules
that are there, and no call takes a name its place. -/
theorem sound_and_kept (h : idx.Reached) : idx.Sound ∧ ∀ idx', idx.Call idx' → idx.Keeps idx' :=
  ⟨h.sound, fun _ hcall => hcall.keeps h.sound⟩

theorem sound_and_kept_root :
    let idx := ((({} : Index).root.2.putModule
      { name := utf8 "/a", language := rootModule.name, file := {}, requires := [⟨0, .all⟩] }).2)
    idx.Reached ∧ idx.Sound ∧ ∀ idx', idx.Call idx' → idx.Keeps idx' :=
  have hreached := (Reached.new.call (.root {})).call (.putModule _
    { name := utf8 "/a", language := rootModule.name, file := {}, requires := [⟨0, .all⟩] } (by decide))
  ⟨hreached, sound_and_kept hreached⟩

end Index

/-- A call of a loader, whether it succeeds or fails, leaves the marks and the places of all names,
and all modules and scripts but the one that it was to put and has put. -/
theorem LoadCall.leaves_others (c : LoadCall) (r : Repository) (t : FileTree) {s : LoadState}
    (h : s.index.Reached) :
    ((c.perform r t).run s).2.loading = s.loading ∧ s.index.Keeps ((c.perform r t).run s).2.index ∧
    (∀ (id : Nat) (m : Module), s.index.modules[id]? = some m →
      ((c.perform r t).run s).2.index.modules[id]? = some m ∨
        c.module? = some m.name ∧ ((c.perform r t).run s).1.isOk = true) ∧
    (∀ (id : Nat) (b : Script), s.index.scripts[id]? = some b →
      ((c.perform r t).run s).2.index.scripts[id]? = some b ∨
        c.script? = some b.name ∧ ((c.perform r t).run s).1.isOk = true) := by
  have houtcome := c.run_perform (r := r) (t := t) h.sound
  refine ⟨houtcome.loading, houtcome.keeps, ?_⟩
  generalize (c.perform r t).run s = out at houtcome ⊢
  cases houtcome with
  | grown hg =>
    exact ⟨fun id m hm => .inl (hg.modules id m hm), fun id b hb => .inl (hg.scripts ▸ hb)⟩
  | @module idx log m hg hc hpoints himports =>
    refine ⟨fun id m' hm' => ?_, fun id b hb => .inl (hg.scripts ▸ hb)⟩
    have hplace := hg.modules id m' hm'
    by_cases hname : m'.name = m.name
    · exact .inr ⟨hname ▸ hc, rfl⟩
    · exact .inl (hg.sound.modules.getElem?_place hplace hname)
  | @script idx log b hg hc himports =>
    refine ⟨fun id m hm => .inl (hg.modules id m hm), fun id b' hb' => ?_⟩
    have hplace : idx.scripts[id]? = some b' := hg.scripts ▸ hb'
    by_cases hname : b'.name = b.name
    · exact .inr ⟨hname ▸ hc, rfl⟩
    · exact .inl (hg.sound.scripts.getElem?_place hplace hname)

/-- Loading a module again fails when it now imports a module that is not there; all modules stay. -/
theorem LoadCall.leaves_others_failed :
    let r : Repository := ⟨utf8 "/", [utf8 "/m"]⟩
    let before := ({} : FileTree).writeAt [utf8 "m", utf8 "a.fusion"]
      (utf8 "(module a '/fusion/private/kernel')")
    let after := ({} : FileTree).writeAt [utf8 "m", utf8 "a.fusion"]
      (utf8 "(module a '/fusion/private/kernel' (require \"/b\"))")
    let s := (((LoadCall.module (utf8 "/a")).perform r before).run {}).2
    let out := ((LoadCall.reload (utf8 "/a") (utf8 "m/a.fusion")).perform r after).run s
    s.index.modules.map (·.name) = [utf8 "/fusion/private/kernel", utf8 "/a"] ∧ out.1.isOk = false ∧
    out.2.loading = s.loading ∧
    ∀ (id : Nat) (m : Module), s.index.modules[id]? = some m → out.2.index.modules[id]? = some m := by
  intro r before after s out
  have hreached : s.index.Reached := .call .new (.load (.module (utf8 "/a")) r before {})
  have hfailed : out.1.isOk = false := by decide +kernel
  obtain ⟨hloading, -, hmodules, -⟩ :=
    LoadCall.leaves_others (.reload (utf8 "/a") (utf8 "m/a.fusion")) r after hreached
  refine ⟨by decide +kernel, hfailed, hloading, fun id m hm => (hmodules id m hm).resolve_right ?_⟩
  rintro ⟨-, hok⟩
  exact absurd hok (by rw [hfailed]; decide)

end FusionKit
