import FusionKit.Index.Load
import FusionKit.Proofs.Basics
import FusionKit.Proofs.Places

/-!
# What loading changes

Loading a module lets the index grow: all that was there stays at its place, and the marks are as
before, whether loading succeeds or fails. What a file imports then leads to a module of the index.
All this is one statement, `Loads`, which is composed along the steps of loading, and shown for a
module by induction on the modules that are not marked.
-/
set_option autoImplicit false

namespace FusionKit

/-! ## Running -/

namespace LoadM

variable {α β : Type}

theorem run_bind (x : LoadM α) (f : α → LoadM β) (s : LoadState) :
    (x >>= f).run s =
      match x.run s with
      | (.ok a, s') => (f a).run s'
      | (.error e, s') => (.error e, s') := by
  rw [ExceptT.run_bind]
  rcases h : x.run s with ⟨_ | _, s'⟩
  · simp only [bind, StateT.bind, h]
    rfl
  · simp only [bind, StateT.bind, h]

theorem run_marking (name : Text) (act : LoadM α) (s : LoadState) :
    (marking name act).run s =
      let (result, s') := act.run { s with loading := name :: s.loading }
      (result, { s' with loading := s'.loading.filter (· != name) }) :=
  rfl

theorem run_lift (x : Except Failure α) (s : LoadState) : (lift x).run s = (x, s) := by
  cases x <;> rfl

theorem run_adapt (g : Failure → Failure) (act : LoadM α) (s : LoadState) :
    (ExceptT.adapt g act).run s = ((act.run s).1.mapError g, (act.run s).2) :=
  rfl

/-- An action whose failures are told in another way has the results that it had. -/
theorem ok_of_adapt {g : Failure → Failure} {act : LoadM α} {s : LoadState} {a : α}
    (h : ((ExceptT.adapt g act).run s).1 = .ok a) : (act.run s).1 = .ok a := by
  rw [run_adapt] at h
  cases hrun : (act.run s).1 with
  | error e =>
    rw [hrun] at h
    cases h
  | ok b =>
    rw [hrun] at h
    exact h

end LoadM

/-! ## Imports -/

namespace SourceFile

/-- What a file tells the index. -/
def directives (f : SourceFile) : List Directive := Form.directivesOf false f.forms

/-- Whether a file imports a module by a name, at a place where imports are read. -/
def Imports (f : SourceFile) (name : Text) : Prop := ∃ imports, Directive.require name imports ∈ f.directives

variable {t : FileTree} {path name : Text} {file : SourceFile} {f : Failure}

/-- A file is read if there is one that can be parsed. -/
theorem read_eq_ok : read t path name = .ok file ↔
    ∃ source nodes, t.read path = .ok source ∧ parse name source = .ok nodes ∧ file = ⟨name, path, source, nodes⟩ := by
  unfold read ofSource
  cases hread : t.read path with
  | error e => simp
  | ok source =>
    dsimp only
    cases hparse : parse name source with
    | error e => simp [hparse, bind, Except.bind]
    | ok nodes => simp [hparse, bind, Except.bind, pure, Except.pure, eq_comm]

/-- A file is not read if there is none, or if it cannot be parsed. -/
theorem read_eq_error : read t path name = .error f ↔
    (∃ e, t.read path = .error e ∧ f = .within (utf8 "failed to load " ++ name) (.file e)) ∨
      ∃ source e, t.read path = .ok source ∧ parse name source = .error e ∧
        f = .within (utf8 "failed to load " ++ name) (.ofSyntax e) := by
  unfold read ofSource
  cases hread : t.read path with
  | error e => simp [eq_comm]
  | ok source =>
    dsimp only
    cases hparse : parse name source with
    | error e => simp [hparse, bind, Except.bind, eq_comm]
    | ok nodes => simp [hparse, bind, Except.bind, pure, Except.pure]

end SourceFile

/-- The files of all modules and scripts. -/
def Index.files (idx : Index) : List SourceFile :=
  idx.modules.map (·.file) ++ idx.scripts.flatMap (·.files)

namespace Repository

variable (r : Repository) (t : FileTree)

/-- Whether a name leads to a module of an index: it is its name, or that of the file found for it. -/
def Leads (idx : Index) (name : Text) : Prop :=
  (idx.moduleId? name).isSome ∨
    ∃ path own, r.moduleFile? t name = some path ∧ r.moduleName path = .ok own ∧ (idx.moduleId? own).isSome

/-- Whether all that the files of an index import leads to modules of the index. -/
def Complete (idx : Index) : Prop := ∀ f ∈ idx.files, ∀ name, f.Imports name → r.Leads t idx name

end Repository

/-- All of an index is in another one, at its place. -/
structure Index.Grows (r : Repository) (t : FileTree) (idx idx' : Index) : Prop where
  keeps : idx.Keeps idx'
  modules : ∀ (id : Nat) (m : Module), idx.modules[id]? = some m → idx'.modules[id]? = some m
  scripts : idx'.scripts = idx.scripts
  sound : idx'.Sound
  complete : r.Complete t idx → r.Complete t idx'

/-- Run from a state, an action lets the index grow and leaves the marks; it has a result only with
what `G` says of it. -/
structure Repository.Loads {α : Type} (r : Repository) (t : FileTree) (act : LoadM α) (s : LoadState)
    (G : α → Index → Prop) : Prop where
  loading : (act.run s).2.loading = s.loading
  grows : s.index.Grows r t (act.run s).2.index
  result : ∀ a, (act.run s).1 = .ok a → G a (act.run s).2.index

section

variable {r : Repository} {t : FileTree} {idx idx' idx'' : Index} {name : Text} {m : ModuleBody}

/-! ## Growing -/

theorem Index.Grows.refl (h : idx.Sound) : idx.Grows r t idx :=
  ⟨.refl idx, fun _ _ h => h, rfl, h, fun h => h⟩

theorem Index.Grows.trans (h : idx.Grows r t idx') (h' : idx'.Grows r t idx'') : idx.Grows r t idx'' where
  keeps := h.keeps.trans h'.keeps
  modules id m hm := h'.modules id m (h.modules id m hm)
  scripts := h'.scripts.trans h.scripts
  sound := h'.sound
  complete hc := h'.complete (h.complete hc)

theorem Index.Grows.length_le (h : idx.Grows r t idx') : idx.modules.length ≤ idx'.modules.length :=
  length_le_of_getElem? h.modules

theorem Repository.Leads.mono (h : r.Leads t idx name) (hk : idx.Keeps idx') : r.Leads t idx' name := by
  have hsome : ∀ {name}, (idx.moduleId? name).isSome → (idx'.moduleId? name).isSome := by
    intro name h
    obtain ⟨id, hid⟩ := Option.isSome_iff_exists.mp h
    exact Option.isSome_iff_exists.mpr ⟨id, hk.modules name id hid⟩
  rcases h with h | ⟨path, own, hfound, hnamed, h⟩
  · exact .inl (hsome h)
  · exact .inr ⟨path, own, hfound, hnamed, hsome h⟩

/-- An index with one more module is complete if what its file imports leads to modules. -/
theorem Repository.Complete.putModule (h : r.Complete t idx)
    (hm : ∀ name, m.file.Imports name → r.Leads t idx name) : r.Complete t (idx.putModule m).2 := by
  intro f hf name hname
  have hkeeps := idx.keeps_putModule m
  rcases List.mem_append.mp hf with hf | hf
  · obtain ⟨m', hm', rfl⟩ := List.mem_map.mp hf
    rcases Index.mem_place hm' with rfl | hm'
    · exact (hm name hname).mono hkeeps
    · exact (h m'.file (List.mem_append_left _ (List.mem_map_of_mem hm')) name hname).mono hkeeps
  · exact (h f (List.mem_append_right _ hf) name hname).mono hkeeps

/-- A module whose name was not there lets the index grow, also when the name came up meanwhile. -/
theorem Index.Grows.putModule (h : idx.Grows r t idx') (hs : idx.Sound) (hnew : idx.moduleId? m.name = none)
    (hm : ∀ q ∈ m.requires, q.target < idx'.modules.length)
    (himports : ∀ name, m.file.Imports name → r.Leads t idx' name) : idx.Grows r t (idx'.putModule m).2 where
  keeps := h.keeps.trans (idx'.keeps_putModule m)
  modules id e he := by
    refine h.sound.modules.getElem?_place (h.modules id e he) fun hname => ?_
    have hplace : idx.moduleId? e.name = some id := (hs.modules.entry id e he).2
    have hname : e.name = m.name := hname
    simp [hname, hnew] at hplace
  scripts := h.scripts
  sound := h.sound.putModule hm
  complete hc := (h.complete hc).putModule himports

theorem Index.Grows.root (h : idx.Sound) : idx.Grows r t idx.root.2 := by
  rcases idx.root_cases with ⟨-, heq⟩ | ⟨hnew, heq⟩
  · rw [heq]
    exact .refl h
  · rw [heq]
    refine (Index.Grows.refl h).putModule h hnew (by simp [rootModule]) ?_
    rintro name ⟨imports, himports⟩
    exact absurd himports (List.not_mem_nil)

end

namespace Repository

section

variable {α β : Type} {r : Repository} {t : FileTree} {s : LoadState} {G : α → Index → Prop}
  {H : β → Index → Prop}

/-! ## The steps of loading -/

theorem Loads.of_run {act : LoadM α} {result : Except Failure α} {s' : LoadState} (hrun : act.run s = (result, s'))
    (hloading : s'.loading = s.loading) (hg : s.index.Grows r t s'.index) (hG : ∀ a, result = .ok a → G a s'.index) :
    r.Loads t act s G :=
  ⟨by rw [hrun]; exact hloading, by rw [hrun]; exact hg, by rw [hrun]; exact hG⟩

theorem loads_pure {a : α} (hs : s.index.Sound) (h : G a s.index) : r.Loads t (pure a : LoadM α) s G :=
  ⟨rfl, .refl hs, fun _ ha => Except.ok.inj ha ▸ h⟩

theorem loads_throw (hs : s.index.Sound) (e : Failure) : r.Loads t (throw e : LoadM α) s G :=
  ⟨rfl, .refl hs, fun _ ha => nomatch ha⟩

theorem Loads.mono {act : LoadM α} {G' : α → Index → Prop} (h : r.Loads t act s G)
    (hG : ∀ a idx, s.index.Grows r t idx → G a idx → G' a idx) : r.Loads t act s G' :=
  ⟨h.loading, h.grows, fun a ha => hG a _ h.grows (h.result a ha)⟩

theorem Loads.bind {x : LoadM α} {f : α → LoadM β} (hx : r.Loads t x s G)
    (hf : ∀ a s', s'.loading = s.loading → s.index.Grows r t s'.index → G a s'.index →
      r.Loads t (f a) s' H) : r.Loads t (x >>= f) s H := by
  obtain ⟨hloading, hgrows, hresult⟩ := hx
  rcases hrun : x.run s with ⟨e | a, s'⟩ <;> rw [hrun] at hloading hgrows hresult
  · have hbind : (x >>= f).run s = (.error e, s') := by rw [LoadM.run_bind, hrun]
    exact .of_run hbind hloading hgrows fun b hb => nomatch hb
  · have hbind : (x >>= f).run s = (f a).run s' := by rw [LoadM.run_bind, hrun]
    have hnext := hf a s' hloading hgrows (hresult a rfl)
    exact .of_run hbind (hnext.loading.trans hloading) (hgrows.trans hnext.grows) hnext.result

theorem Loads.adapt {act : LoadM α} (h : r.Loads t act s G) (g : Failure → Failure) :
    r.Loads t (ExceptT.adapt g act) s G :=
  ⟨h.loading, h.grows, fun a ha => h.result a (LoadM.ok_of_adapt ha)⟩

theorem loads_ask {f : Index → α} (hs : s.index.Sound) :
    r.Loads t (LoadM.ask f) s fun a idx => idx = s.index ∧ a = f s.index :=
  ⟨rfl, .refl hs, fun _ ha => ⟨rfl, (Except.ok.inj ha).symm⟩⟩

theorem loads_lift (hs : s.index.Sound) (x : Except Failure α) :
    r.Loads t (LoadM.lift x) s fun a _ => x = .ok a := by
  refine ⟨?_, ?_, ?_⟩
  · rw [LoadM.run_lift]
  · rw [LoadM.run_lift]
    exact .refl hs
  · rw [LoadM.run_lift]
    exact fun a ha => ha

end

/-! ## Files -/

section

variable {r : Repository} {t : FileTree} {s : LoadState} {need : Text → LoadM Nat} {file : SourceFile}
  {loading : List Text}

/-- What is known of a module that is needed: its place, and that its name leads to it. -/
def Found (r : Repository) (t : FileTree) (name : Text) (id : Nat) (idx : Index) : Prop :=
  id < idx.modules.length ∧ r.Leads t idx name

/-- What a module loads of what it needs, while `loading` are marked. -/
def Serves (r : Repository) (t : FileTree) (need : Text → LoadM Nat) (loading : List Text) : Prop :=
  ∀ name s, s.loading = loading → s.index.Sound → r.Loads t (need name) s (r.Found t name)

/-- Whether the requirements of a file so far point to modules that are there. -/
def Summary.Points (sum : Summary) (idx : Index) : Prop := ∀ q ∈ sum.requires, q.target < idx.modules.length

theorem Summary.Points.mono {sum : Summary} {idx idx' : Index} (h : Summary.Points sum idx)
    (hg : idx.Grows r t idx') : Summary.Points sum idx' :=
  fun q hq => Nat.lt_of_lt_of_le (h q hq) hg.length_le

theorem follow_loads (hneed : r.Serves t need loading) (hs : s.index.Sound) (hl : s.loading = loading)
    {sum : Summary} (hsum : Summary.Points sum s.index) (d : Directive) :
    r.Loads t (d.follow need sum) s fun sum' idx =>
      Summary.Points sum' idx ∧ ∀ name imports, d = .require name imports → r.Leads t idx name := by
  cases d with
  | define origin => exact loads_pure hs ⟨hsum, by simp⟩
  | provide origin => exact loads_pure hs ⟨hsum, by simp⟩
  | provideDefined => exact loads_pure hs ⟨hsum, by simp⟩
  | misuse m => exact loads_throw hs _
  | provideAs span inner outer =>
    refine (loads_ask hs).bind fun idx s' _ hg _ => ?_
    split
    · exact loads_pure hg.sound ⟨hsum.mono hg, by simp⟩
    · exact loads_throw hg.sound _
  | language name =>
    refine (hneed name s hl hs).bind fun id s' _ hg _ => ?_
    exact loads_pure hg.sound ⟨hsum.mono hg, by simp⟩
  | require name imports =>
    refine (hneed name s hl hs).bind fun id s' _ hg hid => ?_
    cases imports with
    | error m => exact loads_throw hg.sound _
    | ok imports =>
      refine loads_pure hg.sound ⟨fun q hq => ?_, ?_⟩
      · rcases List.mem_append.mp hq with hq | hq
        · exact hsum.mono hg q hq
        · rw [List.mem_singleton.mp hq]
          exact hid.1
      · rintro _ _ ⟨⟩
        exact hid.2

theorem foldlM_follow_loads (hneed : r.Serves t need loading) (ds : List Directive) {s : LoadState}
    (hs : s.index.Sound) (hl : s.loading = loading) {sum : Summary} (hsum : Summary.Points sum s.index) :
    r.Loads t (ds.foldlM (Directive.follow need) sum) s fun sum' idx =>
      Summary.Points sum' idx ∧ ∀ name imports, .require name imports ∈ ds → r.Leads t idx name := by
  induction ds generalizing s sum with
  | nil => exact loads_pure hs ⟨hsum, by simp⟩
  | cons d ds ih =>
    rw [List.foldlM_cons]
    refine (follow_loads hneed hs hl hsum d).bind fun sum' s' hl' hg hd => ?_
    refine (ih hg.sound (hl'.trans hl) hd.1).mono fun sum'' idx hg' hds => ⟨hds.1, fun name imports hname => ?_⟩
    rcases List.mem_cons.mp hname with hname | hname
    · exact (hd.2 name imports hname.symm).mono hg'.keeps
    · exact hds.2 name imports hname

/-- What a file imports is loaded, and leads to modules. -/
theorem summarize_loads (hneed : r.Serves t need loading) (hs : s.index.Sound) (hl : s.loading = loading) :
    r.Loads t (file.summarize need) s fun sum idx =>
      Summary.Points sum idx ∧ ∀ name, file.Imports name → r.Leads t idx name := by
  have hnone : Summary.Points {} s.index := by simp [Summary.Points]
  refine ((foldlM_follow_loads hneed file.directives hs hl hnone).adapt file.resolve).mono fun _ _ _ h => ⟨h.1, ?_⟩
  rintro name ⟨imports, himports⟩
  exact h.2 name imports himports

/-- What it comes to when a file is loaded as a module: the index grows by what the file needs, and
then, if nothing failed, the module is put. -/
inductive Stored (r : Repository) (t : FileTree) (s : LoadState) (name : Text) :
    Except Failure Nat × LoadState → Prop where
  | failed {idx : Index} {log : List LogEntry} {e : Failure} (hg : s.index.Grows r t idx) :
    Stored r t s name (.error e, ⟨idx, s.loading, log⟩)
  | put {idx : Index} {log : List LogEntry} {m : ModuleBody} (hg : s.index.Grows r t idx)
      (hname : m.name = name) (hpoints : ∀ q ∈ m.requires, q.target < idx.modules.length)
      (himports : ∀ name, m.file.Imports name → r.Leads t idx name) :
    Stored r t s name (.ok (idx.putModule m).1, ⟨(idx.putModule m).2, s.loading, log⟩)

/-- The mark of a module is gone when the module is loaded, or could not be. -/
theorem run_loadAs {own path : Text} (hfree : own ∉ s.loading) (hs : s.index.Sound)
    (hneed : r.Serves t need (own :: s.loading)) : r.Stored t s own ((r.loadAs t need own path).run s) := by
  have hunmark : (own :: s.loading).filter (· != own) = s.loading := by
    rw [List.filter_cons, bne_self_eq_false, if_neg Bool.false_ne_true, List.filter_eq_self]
    exact fun name hname => bne_iff_ne.mpr fun heq => hfree (heq ▸ hname)
  unfold loadAs
  rw [LoadM.run_marking, LoadM.run_bind, LoadM.run_lift]
  cases hread : SourceFile.read t path (r.shown path) with
  | error e =>
    dsimp only
    rw [hunmark]
    exact .failed (.refl hs)
  | ok file =>
    dsimp only
    rw [LoadM.run_bind]
    have hsummary : r.Loads t (file.summarize need) { s with loading := own :: s.loading } fun sum idx =>
        Summary.Points sum idx ∧ ∀ name, file.Imports name → r.Leads t idx name :=
      summarize_loads hneed hs rfl
    obtain ⟨hloading, hgrows, hresult⟩ := hsummary
    rcases hrun : (file.summarize need).run { s with loading := own :: s.loading } with ⟨e | sum, s'⟩
    · rw [hrun] at hloading hgrows
      replace hloading : s'.loading = own :: s.loading := hloading
      dsimp only
      rw [hloading, hunmark]
      exact .failed hgrows
    · rw [hrun] at hloading hgrows hresult
      replace hloading : s'.loading = own :: s.loading := hloading
      obtain ⟨hpoints, himports⟩ := hresult sum rfl
      let m : ModuleBody :=
        { name := own, file, language := sum.language, requires := sum.requires, provides := sum.exports }
      show r.Stored t s own (Except.ok (s'.index.putModule m).1, LoadState.mk (s'.index.putModule m).2
        (s'.loading.filter (· != own)) _)
      rw [hloading, hunmark]
      exact .put hgrows rfl hpoints himports

end

/-! ## Modules -/

/-- What it comes to when a module is needed while some are marked. -/
inductive Need (r : Repository) (t : FileTree) (loading : List Text) (s : LoadState) (name : Text) :
    Except Failure Nat × LoadState → Prop where
  | root (hroot : name = rootModule.name) :
    Need r t loading s name (.ok s.index.root.1, { s with index := s.index.root.2 })
  | known {id : Nat} (hroot : name ≠ rootModule.name) (hid : s.index.moduleId? name = some id) :
    Need r t loading s name (.ok id, s)
  | missing (hroot : name ≠ rootModule.name) (hnew : s.index.moduleId? name = none)
      (hfile : r.moduleFile? t name = none) : Need r t loading s name (.error (.moduleNotFound name), s)
  | nameless {path : Text} {e : Failure} (hroot : name ≠ rootModule.name)
      (hnew : s.index.moduleId? name = none) (hfile : r.moduleFile? t name = some path)
      (hown : r.moduleName path = .error e) : Need r t loading s name (.error e, s)
  | present {path own : Text} {id : Nat} (hroot : name ≠ rootModule.name)
      (hnew : s.index.moduleId? name = none) (hfile : r.moduleFile? t name = some path)
      (hown : r.moduleName path = .ok own) (hid : s.index.moduleId? own = some id) :
      Need r t loading s name (.ok id, s)
  | circular {path own : Text} (hroot : name ≠ rootModule.name) (hnew : s.index.moduleId? name = none)
      (hfile : r.moduleFile? t name = some path) (hown : r.moduleName path = .ok own)
      (hnone : s.index.moduleId? own = none) (hwaits : own ∈ loading) :
      Need r t loading s name (.error (selfDependent own), s)
  | load {path own : Text} (hroot : name ≠ rootModule.name) (hnew : s.index.moduleId? name = none)
      (hfile : r.moduleFile? t name = some path) (hown : r.moduleName path = .ok own)
      (hnone : s.index.moduleId? own = none) (hfree : own ∉ loading) :
      Need r t loading s name ((r.loadAs t (r.loadModule t (own :: loading)) own path).run s)

section

variable {r : Repository} {t : FileTree} {s : LoadState} {idx : Index} {name path own : Text} {id : Nat}
  {loading : List Text}

theorem run_loadModule (r : Repository) (t : FileTree) (loading : List Text) (s : LoadState) (name : Text) :
    r.Need t loading s name ((r.loadModule t loading name).run s) := by
  have hask : ∀ {name : Text} {f : Option Nat → LoadM Nat},
      (LoadM.ask (·.moduleId? name) >>= f).run s = (f (s.index.moduleId? name)).run s := fun {_ _} => rfl
  rw [loadModule]
  split
  · rename_i hroot
    exact .root hroot
  · rename_i hroot
    rw [hask]
    split
    · rename_i hid
      exact .known hroot hid
    · rename_i hnew
      split
      · rename_i hfile
        exact .missing hroot hnew hfile
      · rename_i path hfile
        split
        · rename_i hown
          exact .nameless hroot hnew hfile hown
        · rename_i own hown
          rw [hask]
          split
          · rename_i hid
            exact .present hroot hnew hfile hown hid
          · rename_i hnone
            split
            · rename_i hwaits
              exact .circular hroot hnew hfile hown hnone hwaits
            · rename_i hfree
              exact .load hroot hnew hfile hown hnone hfree

theorem found_of_moduleId? (hs : idx.Sound) (hid : idx.moduleId? name = some id) : r.Found t name id idx :=
  ⟨hs.modules.lt hid, .inl (Option.isSome_iff_exists.mpr ⟨id, hid⟩)⟩

theorem found_of_file (hs : idx.Sound) (hfile : r.moduleFile? t name = some path)
    (hown : r.moduleName path = .ok own) (hid : idx.moduleId? own = some id) : r.Found t name id idx :=
  ⟨hs.modules.lt hid, .inr ⟨path, own, hfile, hown, Option.isSome_iff_exists.mpr ⟨id, hid⟩⟩⟩

/-- A file that is loaded as a module that was not there lets the index grow by it. -/
theorem Stored.loads {act : LoadM Nat} (h : r.Stored t s own (act.run s)) (hs : s.index.Sound)
    (hnew : s.index.moduleId? own = none) : r.Loads t act s fun id idx => idx.moduleId? own = some id := by
  generalize hrun : act.run s = out at h
  cases h with
  | failed hg => exact .of_run hrun rfl hg fun id hid => nomatch hid
  | @put idx log m hg hname hpoints himports =>
    subst hname
    refine .of_run hrun rfl (hg.putModule hs hnew hpoints himports) fun id hid => ?_
    rw [← Except.ok.inj hid]
    exact idx.moduleId?_putModule m

/-- Each module on the way is marked, and was not before, so what holds of loading with a mark as soon as it
holds with one more holds whatever is marked. -/
@[elab_as_elim]
theorem marks_induction (r : Repository) (t : FileTree) {P : List Text → Prop}
    (mark : ∀ loading, (∀ {name path own}, r.moduleFile? t name = some path → r.moduleName path = .ok own →
      own ∉ loading → P (own :: loading)) → P loading) (loading : List Text) : P loading := by
  induction hfresh : fresh (r.moduleNames t) loading using Nat.strongRecOn generalizing loading with
  | ind n ih =>
    refine mark loading fun hfile hown hfree => ?_
    have hlt := fresh_cons_lt (mem_moduleNames hfile hown) hfree
    exact ih _ (hfresh ▸ hlt) _ rfl

/-- A module that is needed is found, or loading it fails; either way the index only grows. -/
theorem loadModule_serves (loading : List Text) : r.Serves t (r.loadModule t loading) loading := by
  induction loading using marks_induction r t with
  | mark loading ih =>
    rintro name s rfl hs
    have hneed := run_loadModule r t s.loading s name
    generalize hrun : (r.loadModule t s.loading name).run s = out at hneed
    cases hneed with
    | root hroot =>
      refine .of_run hrun rfl (.root hs) fun id hid => found_of_moduleId? hs.root ?_
      rw [hroot, ← Except.ok.inj hid]
      exact s.index.moduleId?_root
    | known hroot hid =>
      exact .of_run hrun rfl (.refl hs) fun id hid' => found_of_moduleId? hs (Except.ok.inj hid' ▸ hid)
    | missing => exact .of_run hrun rfl (.refl hs) fun id hid => nomatch hid
    | nameless => exact .of_run hrun rfl (.refl hs) fun id hid => nomatch hid
    | present hroot hnew hfile hown hid =>
      exact .of_run hrun rfl (.refl hs) fun id hid' => found_of_file hs hfile hown (Except.ok.inj hid' ▸ hid)
    | circular => exact .of_run hrun rfl (.refl hs) fun id hid => nomatch hid
    | @load path own hroot hnew hfile hown hnone hfree =>
      have hstored : r.Stored t s own ((r.loadAs t _ own path).run s) :=
        run_loadAs hfree hs (ih hfile hown hfree)
      have hloads := hstored.loads hs hnone
      exact .of_run hrun hloads.loading hloads.grows fun id hid =>
        found_of_file hloads.grows.sound hfile hown (hloads.result id hid)

theorem needModule_loads (hs : s.index.Sound) (name : Text) :
    r.Loads t (r.needModule t name) s (r.Found t name) := by
  obtain ⟨hloading, hg, hresult⟩ := loadModule_serves s.loading name s rfl hs
  exact ⟨hloading, hg, hresult⟩

theorem needModule_serves (loading : List Text) : r.Serves t (r.needModule t) loading :=
  fun name _ _ hs => needModule_loads hs name

end

end Repository

end FusionKit
