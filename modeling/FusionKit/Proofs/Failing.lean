import FusionKit.Proofs.Calls
import FusionKit.Proofs.Records

/-!
# Why loading fails

Loading fails at a file that cannot be read, is no program or has a malformed directive, or at a module that
is not found, has no name or is needed for itself. `Repository.Fails` says which, for the files that are read
in loading: those a call starts with, and those of the modules that a file needs which is read. It is shown
along the steps of loading, for a module by induction on the modules that are not marked.
-/
set_option autoImplicit false

namespace FusionKit

/-! ## Results and failures -/

namespace LoadM

variable {α β : Type} {Q : α → Prop} {R : β → Prop} {E E' : Failure → Prop}

/-- From whatever state an action is run, `Q` holds of its result, and `E` of its failure. -/
structure Outcomes (act : LoadM α) (Q : α → Prop) (E : Failure → Prop) : Prop where
  result : ∀ s a, (act.run s).1 = .ok a → Q a
  failure : ∀ s f, (act.run s).1 = .error f → E f

/-- Whatever makes an action fail, `E` holds of it. -/
def FailsAs (act : LoadM α) (E : Failure → Prop) : Prop := Outcomes act (fun _ => True) E

theorem failsAs_iff {act : LoadM α} : FailsAs act E ↔ ∀ s f, (act.run s).1 = .error f → E f :=
  ⟨Outcomes.failure, fun h => ⟨fun _ _ _ => trivial, h⟩⟩

theorem outcomes_pure {a : α} (h : Q a) : Outcomes (pure a : LoadM α) Q E :=
  ⟨fun _ _ ha => Except.ok.inj ha ▸ h, fun _ _ hf => nomatch hf⟩

theorem outcomes_throw {f : Failure} (h : E f) : Outcomes (throw f : LoadM α) Q E :=
  ⟨fun _ _ ha => (nomatch ha), fun _ _ hf => Except.error.inj hf ▸ h⟩

theorem outcomes_lift {x : Except Failure α} (h : ∀ f, x = .error f → E f) :
    Outcomes (lift x) (fun a => x = .ok a) E := by
  refine ⟨fun s a ha => ?_, fun s f hf => ?_⟩
  · rwa [run_lift] at ha
  · rw [run_lift] at hf
    exact h f hf

theorem failsAs_ask {f : Index → α} : FailsAs (ask f) E := failsAs_iff.mpr fun _ _ hf => nomatch hf

theorem failsAs_update {f : Index → α × Index} : FailsAs (update f) E := failsAs_iff.mpr fun _ _ hf => nomatch hf

theorem failsAs_report {level : Level} {message key : String} {value : Text} :
    FailsAs (report level message key value) E :=
  failsAs_iff.mpr fun _ _ hf => nomatch hf

theorem Outcomes.mono {act : LoadM α} (h : Outcomes act Q E) (hE : ∀ f, E f → E' f) : Outcomes act Q E' :=
  ⟨h.result, fun s f hf => hE f (h.failure s f hf)⟩

theorem Outcomes.bind {x : LoadM α} {f : α → LoadM β} (hx : Outcomes x Q E)
    (hf : ∀ a, Q a → Outcomes (f a) R E) : Outcomes (x >>= f) R E := by
  have hrun (s : LoadState) : (∃ e, (x.run s).1 = .error e ∧ ((x >>= f).run s).1 = .error e) ∨
      ∃ a s', Q a ∧ ((x >>= f).run s).1 = ((f a).run s').1 := by
    rw [run_bind]
    rcases hout : x.run s with ⟨e | a, s'⟩
    · exact .inl ⟨e, rfl, rfl⟩
    · exact .inr ⟨a, s', hx.result s a (by rw [hout]), rfl⟩
  refine ⟨fun s b hb => ?_, fun s e he => ?_⟩
  · rcases hrun s with ⟨e, -, hfail⟩ | ⟨a, s', ha, hnext⟩
    · rw [hfail] at hb
      cases hb
    · exact (hf a ha).result s' b (hnext ▸ hb)
  · rcases hrun s with ⟨e', hfirst, hfail⟩ | ⟨a, s', ha, hnext⟩
    · rw [hfail] at he
      exact hx.failure s e (Except.error.inj he ▸ hfirst)
    · exact (hf a ha).failure s' e (hnext ▸ he)

/-- An action whose failures are told in another way has the results that it had. -/
theorem Outcomes.adapt {act : LoadM α} (h : Outcomes act Q E) {g : Failure → Failure} (hg : ∀ f, E f → E' (g f)) :
    Outcomes (ExceptT.adapt g act) Q E' := by
  refine ⟨fun s a ha => h.result s a (ok_of_adapt ha), fun s f hf => ?_⟩
  rw [run_adapt] at hf
  cases hrun : (act.run s).1 with
  | error e =>
    rw [hrun] at hf
    exact Except.error.inj hf ▸ hg e (h.failure s e hrun)
  | ok a =>
    rw [hrun] at hf
    cases hf

theorem Outcomes.marking {act : LoadM α} (h : Outcomes act Q E) (name : Text) : Outcomes (marking name act) Q E :=
  ⟨fun s => h.result { s with loading := name :: s.loading }, fun s => h.failure { s with loading := name :: s.loading }⟩

section

variable {items : List α} {f : α → LoadM β}

theorem failsAs_forIn (hf : ∀ a ∈ items, FailsAs (f a) E) :
    FailsAs (forIn items PUnit.unit fun a _ => do
      let _ ← f a
      return ForInStep.yield PUnit.unit) E := by
  induction items with
  | nil => exact outcomes_pure trivial
  | cons a items ih =>
    rw [List.forIn_cons, bind_assoc]
    refine (hf a List.mem_cons_self).bind fun _ _ => ?_
    rw [pure_bind]
    exact ih fun b hb => hf b (List.mem_cons_of_mem a hb)

theorem failsAs_mapM (hf : ∀ a ∈ items, FailsAs (f a) E) : FailsAs (items.mapM f) E := by
  induction items with
  | nil => exact outcomes_pure trivial
  | cons a items ih =>
    rw [List.mapM_cons]
    refine (hf a List.mem_cons_self).bind fun _ _ => ?_
    exact (ih fun b hb => hf b (List.mem_cons_of_mem a hb)).bind fun _ _ => outcomes_pure trivial

end

end LoadM

open LoadM

/-! ## Faults of a file -/

/-- What is malformed in a file: the form of a directive, or a renaming of what the file has neither defined
nor imported by name before. -/
inductive SourceFile.Misuses (file : SourceFile) : Misuse → Prop where
  | form {m : Misuse} (h : .misuse m ∈ file.directives) : Misuses file m
  | imports {name : Text} {m : Misuse} (h : .require name (.error m) ∈ file.directives) : Misuses file m
  | unknown {before after : List Directive} {span : Span} {inner outer : Text}
    (hsplit : file.directives = before ++ .provideAs span inner outer :: after)
    (hdefined : ∀ origin, .define origin ∈ before → origin.name ≠ inner)
    (himported : ∀ name imports, .require name (.ok imports) ∈ before → inner ∉ imports.given) :
    Misuses file ⟨span, .renameOutUnknown inner⟩

/-! ## What a file has told so far -/

/-- Whether a summary knows what some directives define and import. -/
structure Summary.Notes (sum : Summary) (ds : List Directive) : Prop where
  defined : ∀ origin, .define origin ∈ ds → sum.defined.Has origin.name
  imported : ∀ name imports, .require name (.ok imports) ∈ ds → ∃ q ∈ sum.requires, q.imports = imports

namespace Summary.Notes

variable {sum sum' : Summary} {ds : List Directive} {d : Directive} {inner : Text}

theorem snoc (h : sum.Notes ds) (hdefined : ∀ name, sum.defined.Has name → sum'.defined.Has name)
    (hrequires : sum.requires ⊆ sum'.requires) (hdefine : ∀ origin, d = .define origin → sum'.defined.Has origin.name)
    (himport : ∀ name imports, d = .require name (.ok imports) → ∃ q ∈ sum'.requires, q.imports = imports) :
    sum'.Notes (ds ++ [d]) := by
  constructor
  · intro origin hmem
    rcases List.mem_append.mp hmem with hmem | hmem
    · exact hdefined _ (h.defined origin hmem)
    · exact hdefine origin (List.mem_singleton.mp hmem).symm
  · intro name imports hmem
    rcases List.mem_append.mp hmem with hmem | hmem
    · obtain ⟨q, hq, himports⟩ := h.imported name imports hmem
      exact ⟨q, hrequires hq, himports⟩
    · exact himport name imports (List.mem_singleton.mp hmem).symm

/-- A name of which no origin is known is not one that the file has told of. -/
theorem unknown {idx : Index} (h : sum.Notes ds) (hnone : sum.origin? idx inner = none) :
    (∀ origin, .define origin ∈ ds → origin.name ≠ inner) ∧
      ∀ name imports, .require name (.ok imports) ∈ ds → inner ∉ imports.given := by
  unfold Summary.origin? at hnone
  cases hdefined : sum.defined.get? inner with
  | some origin =>
    rw [hdefined] at hnone
    cases hnone
  | none =>
    rw [hdefined] at hnone
    have hrequired : sum.requires.findSome? (fun q => idx.originOf? q inner) = none := hnone
    refine ⟨fun origin hmem hname => ?_, fun name imports hmem => ?_⟩
    · exact Table.get?_ne_none (h.defined origin hmem) (hname ▸ hdefined)
    · obtain ⟨q, hq, rfl⟩ := h.imported name imports hmem
      exact Index.not_given_of_originOf? (List.findSome?_eq_none_iff.mp hrequired q hq)

end Summary.Notes

/-! ## Failures of loading -/

namespace Repository

/-- The file in which a module is found, with its name in messages. -/
def FileOf (r : Repository) (t : FileTree) (module path name : Text) : Prop :=
  r.moduleFile? t module = some path ∧ name = r.shown path

/-- The files that are read when loading starts with some, with their names in messages: these, and those of
the modules that a file needs which is read. -/
inductive Reads (r : Repository) (t : FileTree) (start : Text → Text → Prop) : Text → Text → Prop where
  | start {path name : Text} (h : start path name) : Reads r t start path name
  | needed {path name module path' name' : Text} {file : SourceFile} {d : Directive} (h : Reads r t start path name)
    (hfile : SourceFile.read t path name = .ok file) (hd : d ∈ file.directives) (hmodule : d.module? = some module)
    (hfound : r.FileOf t module path' name') : Reads r t start path' name'

/-- Why loading fails that reads some files. -/
inductive Fails (r : Repository) (t : FileTree) (reads : Text → Text → Prop) : Failure → Prop where
  | unreadable {path name : Text} {e : FileError} (h : reads path name) (he : t.read path = .error e) :
    Fails r t reads (.within (utf8 "failed to load " ++ name) (.file e))
  | unparsed {path name source : Text} {e : SyntaxError} (h : reads path name) (hsource : t.read path = .ok source)
    (he : parse name source = .error e) : Fails r t reads (.within (utf8 "failed to load " ++ name) (.ofSyntax e))
  | misused {path name : Text} {file : SourceFile} {m : Misuse} (h : reads path name)
    (hfile : SourceFile.read t path name = .ok file) (hm : file.Misuses m) : Fails r t reads (file.resolve m.failure)
  | missing (name : Text) : Fails r t reads (.moduleNotFound name)
  | nameless {path : Text} {e : Failure} (he : r.moduleName path = .error e) : Fails r t reads e
  | circular (name : Text) : Fails r t reads (selfDependent name)

section

variable {r : Repository} {t : FileTree} {start start' reads reads' : Text → Text → Prop} {path name : Text}
  {f : Failure} {need : Text → LoadM Nat} {file : SourceFile} {before ds : List Directive} {sum sum' : Summary}
  {d : Directive}

theorem Reads.trans (h : r.Reads t start path name) (hstart : ∀ path name, start path name → r.Reads t start' path name) :
    r.Reads t start' path name := by
  induction h with
  | start h => exact hstart _ _ h
  | needed _ hfile hd hmodule hfound ih => exact .needed ih hfile hd hmodule hfound

theorem Fails.mono (h : r.Fails t reads f) (hreads : ∀ path name, reads path name → reads' path name) :
    r.Fails t reads' f := by
  cases h with
  | unreadable h he => exact .unreadable (hreads _ _ h) he
  | unparsed h hsource he => exact .unparsed (hreads _ _ h) hsource he
  | misused h hfile hm => exact .misused (hreads _ _ h) hfile hm
  | missing name => exact .missing name
  | nameless he => exact .nameless he
  | circular name => exact .circular name

theorem fails_of_read (h : reads path name) (hf : SourceFile.read t path name = .error f) : r.Fails t reads f := by
  rcases SourceFile.read_eq_error.mp hf with ⟨e, hread, rfl⟩ | ⟨source, e, hread, hparse, rfl⟩
  · exact .unreadable h hread
  · exact .unparsed h hread hparse

/-- Whatever makes loading fail is located already, if it is known by a span. -/
theorem Fails.ne_spanned (h : r.Fails t reads f) (span : Span) (message : Text) : f ≠ .spanned span message := by
  cases h with
  | unreadable | unparsed | misused | missing | circular => exact nofun
  | nameless he =>
    unfold moduleName at he
    dsimp only at he
    split at he
    · exact Except.error.inj he ▸ nofun
    · split at he
      · exact Except.error.inj he ▸ nofun
      · cases he

/-- Other files that are being visited leave it as it is. -/
theorem Fails.resolve_eq (h : r.Fails t reads f) (file : SourceFile) : file.resolve f = f := by
  unfold SourceFile.resolve
  split
  · exact absurd rfl (h.ne_spanned _ _)
  · rfl

/-! ## Following directives -/

/-- Why following the directives of a file stops: something in the file is malformed, which is known by its
span alone, or what it needs is not loaded. -/
inductive Stops (file : SourceFile) (E : Failure → Prop) : Failure → Prop where
  | misused {m : Misuse} (hm : file.Misuses m) : Stops file E m.failure
  | needed {f : Failure} (hf : E f) : Stops file E f

variable {E : Failure → Prop}

theorem follow_outcomes (hsplit : file.directives = before ++ d :: ds) (hsum : sum.Notes before)
    (hneed : ∀ name, d.module? = some name → FailsAs (need name) E) :
    Outcomes (d.follow need sum) (fun sum' => sum'.Notes (before ++ [d])) (Stops file E) := by
  have hmem : d ∈ file.directives := hsplit ▸ List.mem_append_cons_self
  cases d with
  | define origin =>
    refine outcomes_pure (hsum.snoc (fun _ hname => Table.has_put.mpr (.inr hname)) (List.Subset.refl _) ?_ nofun)
    rintro _ ⟨⟩
    exact Table.has_put.mpr (.inl rfl)
  | provide origin => exact outcomes_pure (hsum.snoc (fun _ h => h) (List.Subset.refl _) nofun nofun)
  | provideDefined => exact outcomes_pure (hsum.snoc (fun _ h => h) (List.Subset.refl _) nofun nofun)
  | provideAs span inner outer =>
    refine Outcomes.bind failsAs_ask fun idx _ => ?_
    split
    · exact outcomes_pure (hsum.snoc (fun _ h => h) (List.Subset.refl _) nofun nofun)
    · rename_i hnone
      obtain ⟨hdefined, himported⟩ := hsum.unknown hnone
      exact outcomes_throw (.misused (.unknown hsplit hdefined himported))
  | language name =>
    refine ((hneed name rfl).mono fun _ => .needed).bind fun _ _ => ?_
    exact outcomes_pure (hsum.snoc (fun _ h => h) (List.Subset.refl _) nofun nofun)
  | require name imports =>
    refine ((hneed name rfl).mono fun _ => .needed).bind fun target _ => ?_
    cases imports with
    | error m => exact outcomes_throw (.misused (.imports hmem))
    | ok imports =>
      refine outcomes_pure (hsum.snoc (fun _ h => h) (List.subset_append_left _ _) nofun ?_)
      rintro _ _ ⟨⟩
      exact ⟨_, List.mem_append_right _ (List.mem_singleton_self _), rfl⟩
  | misuse m => exact outcomes_throw (.misused (.form hmem))

theorem foldlM_follow_failsAs (hsplit : file.directives = before ++ ds) (hsum : sum.Notes before)
    (hneed : ∀ d ∈ file.directives, ∀ name, d.module? = some name → FailsAs (need name) E) :
    FailsAs (ds.foldlM (Directive.follow need) sum) (Stops file E) := by
  induction ds generalizing before sum with
  | nil => exact outcomes_pure trivial
  | cons d ds ih =>
    have hmem : d ∈ file.directives := hsplit ▸ List.mem_append_cons_self
    rw [List.foldlM_cons]
    refine (follow_outcomes hsplit hsum (hneed d hmem)).bind fun sum' hsum' => ?_
    exact ih (by rw [hsplit, List.append_assoc, List.singleton_append]) hsum'

/-- The visit of a file fails as what is malformed in it, which is located in it, or as the modules that it
needs, which is passed on. -/
theorem summarize_failsAs (hread : reads path name) (hfile : SourceFile.read t path name = .ok file)
    (hneed : ∀ d ∈ file.directives, ∀ name, d.module? = some name → FailsAs (need name) (r.Fails t reads)) :
    FailsAs (file.summarize need) (r.Fails t reads) := by
  have hnone : Summary.Notes {} [] :=
    ⟨fun _ h => absurd h List.not_mem_nil, fun _ _ h => absurd h List.not_mem_nil⟩
  refine (foldlM_follow_failsAs (List.nil_append file.directives).symm hnone hneed).adapt fun f hf => ?_
  cases hf with
  | misused hm => exact .misused hread hfile hm
  | needed hfails => exact (hfails.resolve_eq file).symm ▸ hfails

/-! ## Loading modules -/

/-- Whatever module is needed, getting it fails because of the files that are read from its own on. -/
def NeedFails (r : Repository) (t : FileTree) (need : Text → LoadM Nat) : Prop :=
  ∀ name, FailsAs (need name) (r.Fails t (r.Reads t (r.FileOf t name)))

/-- The modules that a file needs fail because of files that are read after it. -/
theorem NeedFails.of_file (h : r.NeedFails t need) (hread : r.Reads t start path name)
    (hfile : SourceFile.read t path name = .ok file) :
    ∀ d ∈ file.directives, ∀ name, d.module? = some name → FailsAs (need name) (r.Fails t (r.Reads t start)) :=
  fun _ hd module hmodule => (h module).mono fun _ hfails => hfails.mono fun _ _ hreads =>
    hreads.trans fun _ _ hfound => .needed hread hfile hd hmodule hfound

theorem loadAs_failsAs (hneed : r.NeedFails t need) (hread : r.Reads t start path (r.shown path)) (own : Text) :
    FailsAs (r.loadAs t need own path) (r.Fails t (r.Reads t start)) := by
  refine Outcomes.marking ?_ own
  refine (outcomes_lift fun f => fails_of_read hread).bind fun file hfile => ?_
  refine (summarize_failsAs hread hfile (hneed.of_file hread hfile)).bind fun sum _ => ?_
  exact Outcomes.bind failsAs_update fun id _ => Outcomes.bind failsAs_report fun _ _ => outcomes_pure trivial

theorem loadModule_needFails (r : Repository) (t : FileTree) (loading : List Text) :
    r.NeedFails t (r.loadModule t loading) := by
  induction loading using marks_induction r t with
  | mark loading ih =>
    intro name
    refine failsAs_iff.mpr fun s f hf => ?_
    have hcases := run_loadModule r t loading s name
    generalize hrun : (r.loadModule t loading name).run s = out at hcases hf
    cases hcases with
    | root | known | present => cases hf
    | missing => exact Except.error.inj hf ▸ .missing name
    | nameless _ _ _ hown => exact Except.error.inj hf ▸ .nameless hown
    | circular => exact Except.error.inj hf ▸ .circular _
    | @load path own _ _ hfile hown _ hfree =>
      exact (loadAs_failsAs (ih hfile hown hfree) (.start ⟨hfile, rfl⟩) own).failure s f hf

theorem needModule_needFails (r : Repository) (t : FileTree) : r.NeedFails t (r.needModule t) :=
  fun name => failsAs_iff.mpr fun s f hf => (loadModule_needFails r t s.loading name).failure s f hf

theorem reloadModuleFile_failsAs (hread : r.Reads t start (r.resolve path) (r.shown (r.resolve path))) (name : Text) :
    FailsAs (r.reloadModuleFile t name path) (r.Fails t (r.Reads t start)) := by
  refine failsAs_iff.mpr fun s f hf => ?_
  have hrun : (r.reloadModuleFile t name path).run s =
      (if name ∈ s.loading then throw (selfDependent name)
      else r.loadAs t (r.needModule t) name (r.resolve path)).run s := rfl
  rw [hrun] at hf
  split at hf
  · exact Except.error.inj hf ▸ .circular name
  · exact (loadAs_failsAs (needModule_needFails r t) hread name).failure s f hf

end

end Repository

/-! ## Calls -/

/-- The files that a call starts to read, with their names in messages. -/
def LoadCall.Starts (r : Repository) (t : FileTree) : LoadCall → Text → Text → Prop
  | module name, path, shown => r.FileOf t name path shown
  | moduleFile file, path, shown => path = r.resolve (r.resolve file) ∧ shown = r.shown path
  | reload _ file, path, shown => path = r.resolve file ∧ shown = r.shown path
  | script _ topLevelModules _ fileNames, path, shown =>
    (∃ module ∈ topLevelModules, r.FileOf t module path shown) ∨ shown ∈ fileNames ∧ path = r.resolve shown

/-- A call fails because of the files that are read for it. -/
theorem LoadCall.failsAs_perform (c : LoadCall) (r : Repository) (t : FileTree) :
    FailsAs (c.perform r t) (r.Fails t (r.Reads t (c.Starts r t))) := by
  have hneed := r.needModule_needFails t
  cases c with
  | module name => exact hneed name
  | moduleFile file =>
    refine (outcomes_lift fun f hf => .nameless hf).bind fun name _ => Outcomes.bind failsAs_ask fun id? _ => ?_
    split
    · exact outcomes_pure trivial
    · exact Repository.reloadModuleFile_failsAs (.start ⟨rfl, rfl⟩) name
  | reload name file => exact Repository.reloadModuleFile_failsAs (.start ⟨rfl, rfl⟩) name
  | script name topLevelModules globalBindings fileNames =>
    have hmodules : ∀ module ∈ topLevelModules, FailsAs (r.needModule t module)
        (r.Fails t (r.Reads t ((script name topLevelModules globalBindings fileNames).Starts r t))) :=
      fun module hmodule => (hneed module).mono fun _ hfails => hfails.mono fun _ _ hreads =>
        hreads.trans fun _ _ hfound => .start (.inl ⟨module, hmodule, hfound⟩)
    refine (failsAs_forIn hmodules).bind fun _ _ => Outcomes.bind (failsAs_mapM fun fileName hfileName => ?_)
      fun _ _ => failsAs_update
    have hread : r.Reads t ((script name topLevelModules globalBindings fileNames).Starts r t) (r.resolve fileName)
        fileName := .start (.inr ⟨hfileName, rfl⟩)
    refine (outcomes_lift fun f => Repository.fails_of_read hread).bind fun file hfile => ?_
    exact (Repository.summarize_failsAs hread hfile (hneed.of_file hread hfile)).bind fun _ _ => outcomes_pure trivial

/-! ## Packages -/

/-- The call by which a file of a configured folder is loaded. -/
def Folder.call? (folder : Folder) (r : Repository) (path : Text) : Option LoadCall :=
  if folder.holdsModules then some (.moduleFile path)
  else if folder.holdsTests then
    some (.script (r.shown path) folder.topLevelModules folder.globalBindings [r.shown path])
  else none

/-- A call by which a file of a package is loaded that is found in a configured folder. -/
structure Settings.Calls (settings : Settings) (t : FileTree) (packagePath : Text) (r : Repository) (c : LoadCall) :
    Prop where
  package : Repository.ofPackage t packagePath settings.allModulePaths = .ok r
  file : ∃ folder ∈ settings.folders, ∃ path, r.Walks t folder path ∧ folder.call? r path = some c

/-- Why a package is not loaded. -/
inductive Settings.Fails (settings : Settings) (t : FileTree) (packagePath : Text) : Failure → Prop where
  | package {f : Failure} (h : Repository.ofPackage t packagePath settings.allModulePaths = .error f) :
    Fails settings t packagePath f
  | folder {dir : Text} {f : Failure} (h : t.sources dir = .error f) : Fails settings t packagePath f
  | call {r : Repository} {c : LoadCall} {f : Failure} (hc : settings.Calls t packagePath r c)
    (h : r.Fails t (r.Reads t (c.Starts r t)) f) : Fails settings t packagePath f

section

variable {settings : Settings} {t : FileTree} {packagePath : Text} {r : Repository}

theorem Repository.loadConfiguredFile_failsAs {E : Failure → Prop} {folder : Folder} {path : Text}
    (h : ∀ c, folder.call? r path = some c → FailsAs (c.perform r t) E) :
    FailsAs (r.loadConfiguredFile t folder path) E := by
  unfold loadConfiguredFile
  unfold Folder.call? at h
  split
  · rename_i hmodules
    rw [if_pos hmodules] at h
    exact (h _ rfl).bind fun _ _ => outcomes_pure trivial
  · rename_i hmodules
    rw [if_neg hmodules] at h
    split
    · rename_i htests
      rw [if_pos htests] at h
      exact (h _ rfl).bind fun _ _ => failsAs_report
    · exact outcomes_pure trivial

/-- A package fails as one of the calls for its files does, or because it or a folder of it cannot be
looked at. -/
theorem Settings.failsAs_loadPackage (settings : Settings) (t : FileTree) (packagePath : Text) :
    FailsAs (settings.loadPackage t packagePath) (settings.Fails t packagePath) := by
  refine (outcomes_lift fun f hf => .package hf).bind fun r hr => Outcomes.bind failsAs_report fun _ _ => ?_
  have hfolder : ∀ folder ∈ settings.folders, FailsAs (r.loadFolder t folder) (settings.Fails t packagePath) := by
    intro folder hfolder
    unfold Repository.loadFolder
    dsimp only
    split
    · rename_i hdir
      refine (outcomes_lift fun f hf => .folder hf).bind fun paths hpaths => ?_
      refine Outcomes.bind (failsAs_forIn fun path hpath => ?_) fun _ _ => outcomes_pure trivial
      refine Repository.loadConfiguredFile_failsAs fun c hc => (c.failsAs_perform r t).mono fun f hf => ?_
      exact .call ⟨hr, folder, hfolder, path, ⟨hdir, paths, hpaths, hpath⟩, hc⟩ hf
    · exact failsAs_report
  have hall : ∀ folders : List Folder, (∀ folder ∈ folders, folder ∈ settings.folders) →
      FailsAs (folders.forM (r.loadFolder t)) (settings.Fails t packagePath) := by
    intro folders hfolders
    induction folders with
    | nil => exact outcomes_pure trivial
    | cons folder folders ih =>
      refine (hfolder folder (hfolders folder List.mem_cons_self)).bind fun _ _ => ?_
      exact ih fun other hother => hfolders other (List.mem_cons_of_mem folder hother)
  exact (hall settings.folders fun _ h => h).bind fun _ _ => outcomes_pure trivial

end

end FusionKit
