import FusionKit.Proofs.Calls

/-!
# How deep loading goes

A module is loaded by loading what its file needs, which is a recursion over names that stand in
files. Here this recursion is followed to a given depth only, with anything at all in the place of
what would come deeper. If the depth is greater than the number of modules that have a file and are
not marked, then nothing comes deeper: the outcome is that of loading, whatever stands there. So
every call ends, also when files need each other in a circle or name a module in several ways.
-/
set_option autoImplicit false

namespace FusionKit

theorem Text.lawful : LawfulBEq Text := inferInstance

section

attribute [local instance] Text.lawful

namespace Repository

variable (r : Repository) (t : FileTree)

/-- The place of a module, which is loaded when it is not in the index. `need` does what comes next
in the recursion: it loads what the file of the module needs. -/
def loadWith (need : Text → LoadM Nat) (name : Text) : LoadM Nat := do
  if name = rootModule.name then LoadM.update Index.root
  else
    match ← LoadM.ask (·.moduleId? name) with
    | some id => return id
    | none =>
      match r.moduleFile? t name with
      | none => throw (.moduleNotFound name)
      | some path =>
        match r.moduleName path with
        | .error f => throw f
        | .ok own =>
          match ← LoadM.ask (·.moduleId? own) with
          | some id => return id
          | none =>
            if own ∈ (← LoadM.marks) then throw (selfDependent own)
            else r.loadAs t need own path

/-- The recursion followed to a depth, with `beyond` for what comes deeper. -/
def needTo (beyond : Text → LoadM Nat) : Nat → Text → LoadM Nat
  | 0 => beyond
  | depth + 1 => r.loadWith t (needTo beyond depth)

end Repository

namespace LoadCall

/-- Does what is called for, with `need` for the modules that are needed. -/
def performWith (c : LoadCall) (r : Repository) (t : FileTree) (need : Text → LoadM Nat) : LoadM Nat :=
  match c with
  | module name => need name
  | moduleFile path => do
    let path := r.resolve path
    let name ← LoadM.lift (r.moduleName path)
    match ← LoadM.ask (·.moduleId? name) with
    | some id => return id
    | none => reloaded name path
  | reload name path => reloaded name path
  | script name topLevelModules globalBindings fileNames => do
    for m in topLevelModules do
      let _ ← need m
    let files ← fileNames.mapM fun fileName => do
      let file ← LoadM.lift (SourceFile.read t (r.resolve fileName) fileName)
      let _ ← file.summarize need
      return file
    LoadM.update (·.putScript { name, topLevelModules, globalBindings, files })
where
  /-- Loads a file as the module with a name, also when there is one with this name. -/
  reloaded (name path : Text) : LoadM Nat := do
    if name ∈ (← LoadM.marks) then throw (Repository.selfDependent name)
    else r.loadAs t need name (r.resolve path)

end LoadCall

end

namespace LoadCall

theorem performWith_needModule (c : LoadCall) (r : Repository) (t : FileTree) :
    c.performWith r t (r.needModule t) = c.perform r t := by
  cases c <;> rfl

end LoadCall

/-- Loads a file of a configured folder by a call that `load` does. -/
def Folder.loadBy (folder : Folder) (r : Repository) (load : LoadCall → LoadM Nat) (path : Text) : LoadM Unit := do
  if folder.holdsModules then
    let _ ← load (.moduleFile path)
  else if folder.holdsTests then
    let name := r.shown path
    let _ ← load (.script name folder.topLevelModules folder.globalBindings [name])
    LoadM.report .info "loaded test" "script" name

/-- Loads the files of the configured folders, each by a call that `load` does. -/
def Settings.loadConfiguredBy (settings : Settings) (r : Repository) (t : FileTree)
    (load : LoadCall → LoadM Nat) : LoadM Unit :=
  settings.folders.forM fun folder => do
    let dir := Path.join r.packagePath folder.path
    if t.isFolder dir then
      for path in ← LoadM.lift (t.sources dir) do
        folder.loadBy r load path
    else LoadM.report .debug "skipping missing path" "path" folder.path

/-- Loads the package in a folder by calls that `load` does. -/
def Settings.loadPackageBy (settings : Settings) (t : FileTree) (packagePath : Text)
    (load : Repository → LoadCall → LoadM Nat) : LoadM Repository := do
  let r ← LoadM.lift (Repository.ofPackage t packagePath settings.allModulePaths)
  LoadM.report .debug "module repository initialized" "paths" (Text.bracketed r.modulePaths)
  settings.loadConfiguredBy r t (load r)
  return r

theorem Settings.loadPackageBy_perform (settings : Settings) (t : FileTree) (packagePath : Text) :
    settings.loadPackageBy t packagePath (fun r c => c.perform r t) = settings.loadPackage t packagePath :=
  rfl

namespace Repository

section

variable {α β : Type} {r : Repository} {t : FileTree} {s : LoadState} {loading : List Text}
  {need need' : Text → LoadM Nat} {file : SourceFile}

/-! ## Actions that come to the same -/

/-- Two actions come to the same in every state with the marks `loading`, and leave these. -/
def SameAt (loading : List Text) (act act' : LoadM α) : Prop :=
  ∀ s, s.loading = loading → act.run s = act'.run s ∧ (act'.run s).2.loading = loading

/-- Two ways to load what is needed come to the same. -/
def NeedSameAt (loading : List Text) (need need' : Text → LoadM Nat) : Prop :=
  ∀ name, SameAt loading (need name) (need' name)

theorem sameAt_of_marks {act : LoadM α} (h : ∀ s, (act.run s).2.loading = s.loading) : SameAt loading act act :=
  fun s hs => ⟨rfl, (h s).trans hs⟩

theorem sameAt_lift (x : Except Failure α) : SameAt loading (LoadM.lift x) (LoadM.lift x) :=
  sameAt_of_marks fun s => by rw [LoadM.run_lift]

theorem SameAt.bind {x x' : LoadM α} {f f' : α → LoadM β} (hx : SameAt loading x x')
    (hf : ∀ a, SameAt loading (f a) (f' a)) : SameAt loading (x >>= f) (x' >>= f') := by
  intro s hs
  obtain ⟨hrun, hmarks⟩ := hx s hs
  rw [LoadM.run_bind, LoadM.run_bind, hrun]
  rcases h : x'.run s with ⟨_ | a, s'⟩
  · exact ⟨rfl, by rwa [h] at hmarks⟩
  · exact hf a s' (by rwa [h] at hmarks)

theorem SameAt.adapt {act act' : LoadM α} (h : SameAt loading act act') (g : Failure → Failure) :
    SameAt loading (ExceptT.adapt g act) (ExceptT.adapt g act') := by
  intro s hs
  obtain ⟨hrun, hmarks⟩ := h s hs
  rw [LoadM.run_adapt, LoadM.run_adapt, hrun]
  exact ⟨rfl, hmarks⟩

theorem sameAt_foldlM {f f' : β → α → LoadM β} (hf : ∀ b a, SameAt loading (f b a) (f' b a)) (items : List α)
    (b : β) : SameAt loading (items.foldlM f b) (items.foldlM f' b) := by
  induction items generalizing b with
  | nil => exact sameAt_of_marks fun _ => rfl
  | cons a items ih =>
    rw [List.foldlM_cons, List.foldlM_cons]
    exact (hf b a).bind ih

theorem sameAt_mapM {f f' : α → LoadM β} (hf : ∀ a, SameAt loading (f a) (f' a)) (items : List α) :
    SameAt loading (items.mapM f) (items.mapM f') := by
  induction items with
  | nil => exact sameAt_of_marks fun _ => rfl
  | cons a items ih =>
    rw [List.mapM_cons, List.mapM_cons]
    exact (hf a).bind fun _ => ih.bind fun _ => sameAt_of_marks fun _ => rfl

theorem sameAt_forIn {f f' : α → LoadM (ForInStep PUnit)} (hf : ∀ a, SameAt loading (f a) (f' a))
    (items : List α) :
    SameAt loading (forIn items PUnit.unit fun a _ => f a) (forIn items PUnit.unit fun a _ => f' a) := by
  induction items with
  | nil => exact sameAt_of_marks fun _ => rfl
  | cons a items ih =>
    rw [List.forIn_cons, List.forIn_cons]
    refine (hf a).bind fun step => ?_
    cases step with
    | done => exact sameAt_of_marks fun _ => rfl
    | yield => exact ih

/-! ## Files -/

theorem sameAt_follow (h : NeedSameAt loading need need') (sum : Summary) (d : Directive) :
    SameAt loading (d.follow need sum) (d.follow need' sum) := by
  cases d with
  | define | provide | provideDefined | misuse => exact sameAt_of_marks fun _ => rfl
  | provideAs span inner outer =>
    refine SameAt.bind (sameAt_of_marks fun _ => rfl) fun idx => ?_
    split
    · exact sameAt_of_marks fun _ => rfl
    · exact sameAt_of_marks fun _ => rfl
  | language name => exact (h name).bind fun _ => sameAt_of_marks fun _ => rfl
  | require name imports =>
    refine (h name).bind fun _ => ?_
    cases imports with
    | ok imports => exact sameAt_of_marks fun _ => rfl
    | error m => exact sameAt_of_marks fun _ => rfl

theorem sameAt_summarize (h : NeedSameAt loading need need') (file : SourceFile) :
    SameAt loading (file.summarize need) (file.summarize need') :=
  (sameAt_foldlM (sameAt_follow h) _ _).adapt file.resolve

theorem sameAt_marking {act act' : LoadM α} {own : Text} (hfree : own ∉ loading)
    (h : SameAt (own :: loading) act act') :
    SameAt loading (LoadM.marking own act) (LoadM.marking own act') := by
  have hunmark : (own :: loading).filter (· != own) = loading := by
    rw [List.filter_cons, bne_self_eq_false, if_neg Bool.false_ne_true, List.filter_eq_self]
    exact fun name hname => bne_iff_ne.mpr fun heq => hfree (heq ▸ hname)
  rintro s rfl
  obtain ⟨hrun, hmarks⟩ := h { s with loading := own :: s.loading } rfl
  rw [LoadM.run_marking, LoadM.run_marking, hrun]
  exact ⟨rfl, (congrArg _ hmarks).trans hunmark⟩

/-- A file is loaded in the same way if all that it needs is, while its module is marked. -/
theorem sameAt_loadAs {own : Text} (hfree : own ∉ loading) (h : NeedSameAt (own :: loading) need need')
    (path : Text) : SameAt loading (r.loadAs t need own path) (r.loadAs t need' own path) := by
  refine sameAt_marking hfree ((sameAt_lift _).bind fun file => (sameAt_summarize h file).bind fun sum => ?_)
  exact sameAt_of_marks fun _ => rfl

/-! ## Modules -/

theorem run_loadWith (need : Text → LoadM Nat) (name : Text) (s : LoadState) :
    (r.loadWith t need name).run s =
      if name = rootModule.name then (LoadM.update Index.root).run s
      else
        match s.index.moduleId? name with
        | some id => (.ok id, s)
        | none =>
          match r.moduleFile? t name with
          | none => (.error (.moduleNotFound name), s)
          | some path =>
            match r.moduleName path with
            | .error f => (.error f, s)
            | .ok own =>
              match s.index.moduleId? own with
              | some id => (.ok id, s)
              | none =>
                if own ∈ s.loading then (.error (selfDependent own), s)
                else (r.loadAs t need own path).run s := by
  have hask : ∀ {name : Text} {f : Option Nat → LoadM Nat},
      (LoadM.ask (·.moduleId? name) >>= f).run s = (f (s.index.moduleId? name)).run s := fun {_ _} => rfl
  have hmarks : ∀ {f : List Text → LoadM Nat}, (LoadM.marks >>= f).run s = (f s.loading).run s := fun {_} => rfl
  unfold loadWith
  split
  · rfl
  rw [hask]
  cases s.index.moduleId? name with
  | some id => rfl
  | none =>
    dsimp only
    cases r.moduleFile? t name with
    | none => rfl
    | some path =>
      dsimp only
      cases r.moduleName path with
      | error f => rfl
      | ok own =>
        dsimp only
        rw [hask]
        cases s.index.moduleId? own with
        | some id => rfl
        | none =>
          dsimp only
          rw [hmarks]
          split <;> rfl

/-- One level of the recursion is what loading a module does first. -/
theorem sameAt_loadWith
    (h : ∀ own ∈ r.moduleNames t, own ∉ loading → NeedSameAt (own :: loading) need (r.loadModule t (own :: loading)))
    (name : Text) : SameAt loading (r.loadWith t need name) (r.loadModule t loading name) := by
  rintro s rfl
  rw [run_loadWith]
  have hneed := run_loadModule r t s.loading s name
  generalize (r.loadModule t s.loading name).run s = out at hneed ⊢
  cases hneed with
  | root hroot =>
    rw [if_pos hroot]
    exact ⟨rfl, rfl⟩
  | known hroot hid =>
    rw [if_neg hroot, hid]
    exact ⟨rfl, rfl⟩
  | missing hroot hnew hfile =>
    rw [if_neg hroot, hnew, hfile]
    exact ⟨rfl, rfl⟩
  | nameless hroot hnew hfile hown =>
    rw [if_neg hroot, hnew, hfile]
    simp only [hown, and_self]
  | present hroot hnew hfile hown hid =>
    rw [if_neg hroot, hnew, hfile]
    simp only [hown, hid, and_self]
  | circular hroot hnew hfile hown hnone hwaits =>
    rw [if_neg hroot, hnew, hfile]
    simp only [hown, hnone, if_pos hwaits, and_self]
  | @load path own hroot hnew hfile hown hnone hfree =>
    rw [if_neg hroot, hnew, hfile]
    simp only [hown, hnone, if_neg hfree]
    exact sameAt_loadAs hfree (h own (mem_moduleNames hfile hown) hfree) path s rfl

/-- Deeper than there are modules that are not marked, the recursion does not go. -/
theorem needSameAt_needTo (beyond : Text → LoadM Nat) {depth : Nat}
    (hdepth : fresh (r.moduleNames t) loading < depth) :
    NeedSameAt loading (r.needTo t beyond depth) (r.loadModule t loading) := by
  induction depth generalizing loading with
  | zero => exact absurd hdepth (Nat.not_lt_zero _)
  | succ depth ih =>
    refine sameAt_loadWith fun own hknown hfree => ih ?_
    have hless := fresh_cons_lt hknown hfree
    omega

theorem sameAt_needTo (beyond : Text → LoadM Nat) {depth : Nat}
    (hdepth : fresh (r.moduleNames t) loading < depth) :
    NeedSameAt loading (r.needTo t beyond depth) (r.needModule t) := by
  rintro name s rfl
  exact needSameAt_needTo beyond hdepth name s rfl

end

end Repository

/-! ## Calls -/

section

variable {r : Repository} {t : FileTree} {loading : List Text} {need need' : Text → LoadM Nat}

open Repository

theorem LoadCall.sameAt_reloaded
    (h : ∀ own, own ∉ loading → NeedSameAt (own :: loading) need need') (name path : Text) :
    SameAt loading (performWith.reloaded r t need name path) (performWith.reloaded r t need' name path) := by
  rintro s rfl
  have hmarks : ∀ {f : List Text → LoadM Nat}, (LoadM.marks >>= f).run s = (f s.loading).run s := fun {_} => rfl
  unfold performWith.reloaded
  rw [hmarks, hmarks]
  by_cases hwaits : name ∈ s.loading
  · rw [if_pos hwaits, if_pos hwaits]
    exact ⟨rfl, rfl⟩
  · rw [if_neg hwaits, if_neg hwaits]
    exact sameAt_loadAs hwaits (h name hwaits) _ s rfl

theorem LoadCall.sameAt_performWith (hneed : NeedSameAt loading need need')
    (h : ∀ own, own ∉ loading → NeedSameAt (own :: loading) need need') (c : LoadCall) :
    SameAt loading (c.performWith r t need) (c.performWith r t need') := by
  cases c with
  | module name => exact hneed name
  | moduleFile path =>
    refine (sameAt_lift _).bind fun name => SameAt.bind (sameAt_of_marks fun _ => rfl) fun known => ?_
    cases known with
    | some id => exact sameAt_of_marks fun _ => rfl
    | none => exact sameAt_reloaded h name _
  | reload name path => exact sameAt_reloaded h name path
  | script name topLevelModules globalBindings fileNames =>
    have hmodule (name : Text) : SameAt loading
        (do
          let _ ← need name
          return ForInStep.yield PUnit.unit)
        (do
          let _ ← need' name
          return ForInStep.yield PUnit.unit) :=
      (hneed name).bind fun _ => sameAt_of_marks fun _ => rfl
    have hfile (fileName : Text) : SameAt loading
        (do
          let file ← LoadM.lift (SourceFile.read t (r.resolve fileName) fileName)
          let _ ← file.summarize need
          return file)
        (do
          let file ← LoadM.lift (SourceFile.read t (r.resolve fileName) fileName)
          let _ ← file.summarize need'
          return file) :=
      (sameAt_lift _).bind fun file => (sameAt_summarize hneed file).bind fun _ => sameAt_of_marks fun _ => rfl
    refine (sameAt_forIn hmodule topLevelModules).bind fun _ => (sameAt_mapM hfile fileNames).bind fun files => ?_
    exact sameAt_of_marks fun _ => rfl

theorem Settings.sameAt_loadConfiguredBy {load load' : LoadCall → LoadM Nat}
    (h : ∀ c, SameAt loading (load c) (load' c)) (settings : Settings) :
    SameAt loading (settings.loadConfiguredBy r t load) (settings.loadConfiguredBy r t load') := by
  have hpath (folder : Folder) (path : Text) :
      SameAt loading (folder.loadBy r load path) (folder.loadBy r load' path) := by
    unfold Folder.loadBy
    split
    · exact (h _).bind fun _ => sameAt_of_marks fun _ => rfl
    split
    · exact (h _).bind fun _ => sameAt_of_marks fun _ => rfl
    · exact sameAt_of_marks fun _ => rfl
  unfold loadConfiguredBy
  induction settings.folders with
  | nil => exact sameAt_of_marks fun _ => rfl
  | cons folder folders ih =>
    refine SameAt.bind ?_ fun _ => ih
    dsimp only
    split
    · refine (sameAt_lift _).bind fun paths => SameAt.bind (sameAt_forIn (fun path => ?_) paths) fun _ => ?_
      · exact (hpath folder path).bind fun _ => sameAt_of_marks fun _ => rfl
      · exact sameAt_of_marks fun _ => rfl
    · exact sameAt_of_marks fun _ => rfl

end

theorem Repository.fresh_moduleNames_le (r : Repository) (t : FileTree) (loading : List Text) :
    fresh (r.moduleNames t) loading ≤ t.filePaths.length :=
  Nat.le_trans List.countP_le_length (List.length_filterMap_le _ _)

/-- Every call of a loader and the loading of a package end. Followed deeper than there are modules
with a file that are not marked, or files, the recursion comes to what it comes to in full, with
anything in the place of what would come deeper. -/
theorem loading_ends (t : FileTree) (s : LoadState) (beyond : Text → LoadM Nat) :
    (∀ (r : Repository) (c : LoadCall) (depth : Nat), fresh (r.moduleNames t) s.loading < depth →
      (c.performWith r t (r.needTo t beyond depth)).run s = (c.perform r t).run s) ∧
    ∀ (settings : Settings) (packagePath : Text) (depth : Nat), t.filePaths.length < depth →
      (settings.loadPackageBy t packagePath fun r c => c.performWith r t (r.needTo t beyond depth)).run s =
        (settings.loadPackage t packagePath).run s := by
  have hcall (r : Repository) (c : LoadCall) {depth : Nat} (loading : List Text)
      (hdepth : fresh (r.moduleNames t) loading < depth) :
      Repository.SameAt loading (c.performWith r t (r.needTo t beyond depth)) (c.perform r t) := by
    rw [← c.performWith_needModule]
    refine c.sameAt_performWith (Repository.sameAt_needTo beyond hdepth) fun own _ => ?_
    exact Repository.sameAt_needTo beyond (Nat.lt_of_le_of_lt (fresh_cons_le _ _ own) hdepth)
  refine ⟨fun r c depth hdepth => (hcall r c s.loading hdepth s rfl).1, fun settings packagePath depth hdepth => ?_⟩
  rw [← settings.loadPackageBy_perform]
  unfold Settings.loadPackageBy
  refine (Repository.SameAt.bind (Repository.sameAt_lift _) fun r => ?_ : Repository.SameAt s.loading _ _) s rfl |>.1
  refine Repository.SameAt.bind (Repository.sameAt_of_marks fun _ => rfl) fun _ => ?_
  have hfresh := Nat.lt_of_le_of_lt (r.fresh_moduleNames_le t s.loading) hdepth
  exact (Settings.sameAt_loadConfiguredBy (fun c => hcall r c s.loading hfresh) settings).bind fun _ =>
    Repository.sameAt_of_marks fun _ => rfl

/-- One module is in the language of another, which needs the first under another spelling. The recursion
stops at the mark of the first. -/
theorem loading_ends_circle :
    let r : Repository := ⟨utf8 "/", [utf8 "/m"]⟩
    let t := (({} : FileTree).writeAt [utf8 "m", utf8 "a.fusion"] (utf8 "(module a \"/b\")")).writeAt
      [utf8 "m", utf8 "b.fusion"] (utf8 "(module b '/fusion/private/kernel' (require \"x/../a\"))")
    let settings : Settings := { Settings.default with folders := [{ path := utf8 "m", mode := utf8 "modules" }] }
    let c : LoadCall := .module (utf8 "/a")
    let beyond : Text → LoadM Nat := fun name => throw (.other name)
    fresh (r.moduleNames t) [] < 3 ∧
    (c.performWith r t (r.needTo t beyond 3)).run {} = (c.perform r t).run {} ∧
    ((c.perform r t).run {}).1 = .error (Repository.selfDependent (utf8 "/a")) ∧
    t.filePaths.length < 3 ∧
    (settings.loadPackageBy t (utf8 "/") fun r c => c.performWith r t (r.needTo t beyond 3)).run {} =
      (settings.loadPackage t (utf8 "/")).run {} := by
  intro r t settings c beyond
  have hfresh : fresh (r.moduleNames t) [] < 3 := by decide +kernel
  have hfiles : t.filePaths.length < 3 := by decide +kernel
  obtain ⟨hcall, hpackage⟩ := loading_ends t {} beyond
  have hsame := hcall r c 3 hfresh
  have hfailed : (match ((c.performWith r t (r.needTo t beyond 3)).run {}).1 with
      | .ok _ => none
      | .error e => some e) = some (Repository.selfDependent (utf8 "/a")) := by decide +kernel
  refine ⟨hfresh, hsame, ?_, hfiles, hpackage settings (utf8 "/") 3 hfiles⟩
  rw [hsame] at hfailed
  split at hfailed
  · cases hfailed
  · rename_i hresult
    rw [hresult, Option.some.inj hfailed]

end FusionKit
