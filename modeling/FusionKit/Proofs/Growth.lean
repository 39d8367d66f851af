import Mathlib.Logic.Relation
import FusionKit.Proofs.Keeping

/-!
# How an index grows

Loading adds modules to an index one at a time, each after the modules that its file needs: the root,
or the module of a source file that was read and all of whose directives could be followed. This is
what an `Addition` says. Everything that loading does to an index is a row of additions and of
scripts that are put, so what is true of all modules of a package is shown for one addition.

No file may be the root module's here: the root is put when it is needed first, which is while other
modules are being loaded, and a file with its name would be put in its place.
-/
set_option autoImplicit false

namespace FusionKit

open Relation (ReflTransGen)

/-! ## Directives that were followed -/

namespace Repository

/-- No source file is that of the root module. -/
def LeavesRoot (r : Repository) (t : FileTree) : Prop :=
  ∀ path ∈ t.filePaths, FileTree.IsSource path → r.moduleName path ≠ .ok rootModule.name

/-- Whether a name leads to the module at a place: it is its name, or that of the file found for it. -/
inductive Reaches (r : Repository) (t : FileTree) (idx : Index) (name : Text) (id : Nat) : Prop where
  | known (hid : idx.moduleId? name = some id)
  | file {path own : Text} (hroot : name ≠ rootModule.name) (hfile : r.moduleFile? t name = some path)
    (hown : r.moduleName path = .ok own) (hid : idx.moduleId? own = some id)

end Repository

/-- All modules of an index are in another one, at their places. -/
structure Index.Extends (idx idx' : Index) : Prop where
  ids : ∀ name id, idx.moduleId? name = some id → idx'.moduleId? name = some id
  modules : ∀ (id : Nat) (m : Module), idx.modules[id]? = some m → idx'.modules[id]? = some m

/-- What following a directive makes of a summary. The modules that it needs are among the first
`limit`. -/
inductive Directive.Follows (r : Repository) (t : FileTree) (idx : Index) (limit : Nat) (sum : Summary) :
    Directive → Summary → Prop where
  | define (origin : Origin) :
    Follows r t idx limit sum (.define origin) { sum with defined := sum.defined.put origin.name origin.span }
  | provide (origin : Origin) :
    Follows r t idx limit sum (.provide origin) { sum with provides := sum.provides.put origin.name origin.span }
  | provideDefined : Follows r t idx limit sum .provideDefined { sum with allDefined := true }
  | provideAs {span origin : Span} {inner outer : Text} (h : sum.origin? idx inner = some origin) :
    Follows r t idx limit sum (.provideAs span inner outer) { sum with provides := sum.provides.put outer origin }
  | language {name : Text} {id : Nat} (h : r.Reaches t idx name id) (hlt : id < limit) :
    Follows r t idx limit sum (.language name) { sum with language := name }
  | require {name : Text} {imports : Imports} {target : Nat} (h : r.Reaches t idx name target) (hlt : target < limit) :
    Follows r t idx limit sum (.require name (.ok imports))
      { sum with requires := sum.requires ++ [⟨target, imports⟩] }

/-- What following some directives makes of a summary. -/
inductive Directive.FollowsAll (r : Repository) (t : FileTree) (idx : Index) (limit : Nat) :
    Summary → List Directive → Summary → Prop where
  | nil (sum : Summary) : FollowsAll r t idx limit sum [] sum
  | cons {sum sum' sum'' : Summary} {d : Directive} {ds : List Directive} (h : d.Follows r t idx limit sum sum')
    (hs : FollowsAll r t idx limit sum' ds sum'') : FollowsAll r t idx limit sum (d :: ds) sum''

section

variable {r : Repository} {t : FileTree} {idx idx' : Index} {limit limit' : Nat} {name : Text} {id : Nat}
  {sum sum' : Summary} {d : Directive} {ds : List Directive}

theorem Repository.Reaches.leads (h : r.Reaches t idx name id) : r.Leads t idx name := by
  cases h with
  | known hid => exact .inl (Option.isSome_of_eq_some hid)
  | file _ hfile hown hid => exact .inr ⟨_, _, hfile, hown, Option.isSome_of_eq_some hid⟩

theorem Index.Grows.extends (h : idx.Grows r t idx') : idx.Extends idx' := ⟨h.keeps.modules, h.modules⟩

theorem Index.Extends.refl (idx : Index) : idx.Extends idx := ⟨fun _ _ h => h, fun _ _ h => h⟩

theorem Index.Extends.trans {idx'' : Index} (h : idx.Extends idx') (h' : idx'.Extends idx'') : idx.Extends idx'' :=
  ⟨fun name id hid => h'.ids name id (h.ids name id hid), fun id m hm => h'.modules id m (h.modules id m hm)⟩

theorem Index.Extends.length_le (h : idx.Extends idx') : idx.modules.length ≤ idx'.modules.length :=
  length_le_of_getElem? h.modules

theorem Index.extends_putScript (idx : Index) (b : ScriptBody) : idx.Extends (idx.putScript b).2 :=
  ⟨fun _ _ h => h, fun _ _ h => h⟩

theorem Repository.Reaches.mono (h : r.Reaches t idx name id) (hg : idx.Extends idx') : r.Reaches t idx' name id := by
  cases h with
  | known hid => exact .known (hg.ids _ _ hid)
  | file hroot hfile hown hid => exact .file hroot hfile hown (hg.ids _ _ hid)

theorem Index.originOf?_eq (hg : idx.Extends idx') {q : Requirement} (hq : q.target < idx.modules.length)
    (name : Text) : idx'.originOf? q name = idx.originOf? q name := by
  have hm := hg.modules q.target _ (List.getElem?_eq_getElem hq)
  unfold originOf?
  rw [hm, List.getElem?_eq_getElem hq]

/-- Where a name comes from does not change while modules are added. -/
theorem Summary.origin?_eq (hg : idx.Extends idx') (hsum : Repository.Summary.Points sum idx) (name : Text) :
    sum.origin? idx' name = sum.origin? idx name := by
  unfold origin?
  congr 1
  funext _
  have hall : ∀ q ∈ sum.requires, idx'.originOf? q name = idx.originOf? q name :=
    fun q hq => Index.originOf?_eq hg (hsum q hq) name
  generalize sum.requires = qs at hall
  induction qs with
  | nil => rfl
  | cons q qs ih =>
    rw [List.findSome?_cons, List.findSome?_cons, hall q List.mem_cons_self,
      ih fun q hq => hall q (List.mem_cons_of_mem _ hq)]

namespace Directive

theorem Follows.mono (h : d.Follows r t idx limit sum sum') (hsum : Repository.Summary.Points sum idx)
    (hg : idx.Extends idx') (hlimit : limit ≤ limit') : d.Follows r t idx' limit' sum sum' := by
  cases h with
  | define origin => exact .define origin
  | provide origin => exact .provide origin
  | provideDefined => exact .provideDefined
  | provideAs h => exact .provideAs (by rwa [Summary.origin?_eq hg hsum])
  | language h hlt => exact .language (h.mono hg) (Nat.lt_of_lt_of_le hlt hlimit)
  | require h hlt => exact .require (h.mono hg) (Nat.lt_of_lt_of_le hlt hlimit)

/-- The modules that a file imports are among those it may need. -/
theorem Follows.target_lt (h : d.Follows r t idx limit sum sum') (hsum : ∀ q ∈ sum.requires, q.target < limit) :
    ∀ q ∈ sum'.requires, q.target < limit := by
  cases h with
  | define | provide | provideDefined | provideAs | language => exact hsum
  | require _ hlt =>
    intro q hq
    rcases List.mem_append.mp hq with hq | hq
    · exact hsum q hq
    · rwa [List.mem_singleton.mp hq]

theorem FollowsAll.target_lt (h : FollowsAll r t idx limit sum ds sum') (hsum : ∀ q ∈ sum.requires, q.target < limit) :
    ∀ q ∈ sum'.requires, q.target < limit := by
  induction h with
  | nil => exact hsum
  | cons h _ ih => exact ih (h.target_lt hsum)

theorem FollowsAll.mono (h : FollowsAll r t idx limit sum ds sum') (hsum : ∀ q ∈ sum.requires, q.target < limit)
    (hlength : limit ≤ idx.modules.length) (hg : idx.Extends idx') (hlimit : limit ≤ limit') :
    FollowsAll r t idx' limit' sum ds sum' := by
  induction h with
  | nil sum => exact .nil sum
  | cons h _ ih =>
    have hpoints : Repository.Summary.Points _ idx := fun q hq => Nat.lt_of_lt_of_le (hsum q hq) hlength
    exact .cons (h.mono hpoints hg hlimit) (ih (h.target_lt hsum))

/-- What a file imports is reached. -/
theorem FollowsAll.reaches (h : FollowsAll r t idx limit sum ds sum') {imports : Except Misuse Imports}
    (hname : .require name imports ∈ ds) : ∃ id, r.Reaches t idx name id := by
  induction h with
  | nil => exact absurd hname List.not_mem_nil
  | cons h _ ih =>
    rcases List.mem_cons.mp hname with rfl | hname
    · cases h with
      | require h => exact ⟨_, h⟩
    · exact ih hname

/-- The language of a file is reached, unless none is named. -/
theorem FollowsAll.reaches_language (h : FollowsAll r t idx limit sum ds sum') :
    sum'.language = sum.language ∨ ∃ id, r.Reaches t idx sum'.language id := by
  induction h with
  | nil => exact .inl rfl
  | cons h _ ih =>
    rcases ih with heq | hreached
    · cases h with
      | define | provide | provideDefined | provideAs | require => exact .inl heq
      | language h =>
        rw [heq]
        exact .inr ⟨_, h⟩
    · exact .inr hreached

end Directive

end

/-! ## Additions -/

/-- What is read off a source file for its module. -/
def SourceFile.moduleOf (file : SourceFile) (own : Text) (sum : Summary) : ModuleBody :=
  { name := own, file, language := sum.language, requires := sum.requires, provides := sum.exports }

namespace Repository

/-- A source file whose module can be put: it was read, and its directives could be followed with
the first `limit` modules. -/
structure Readable (r : Repository) (t : FileTree) (idx : Index) (limit : Nat) (own path : Text) (file : SourceFile)
    (sum : Summary) : Prop where
  resolved : r.resolve path = path
  source : FileTree.IsSource path
  named : r.moduleName path = .ok own
  read : SourceFile.read t path (r.shown path) = .ok file
  followed : Directive.FollowsAll r t idx limit {} file.directives sum

/-- A module is added while some are marked: the root, or the module of a file, that was not there. -/
inductive Addition (r : Repository) (t : FileTree) (marks : List Text) : Index → Index → Prop where
  | root (idx : Index) : Addition r t marks idx idx.root.2
  | module {idx : Index} {own path : Text} {file : SourceFile} {sum : Summary} (hfree : own ∉ marks)
    (hroot : own ≠ rootModule.name) (hnew : idx.moduleId? own = none)
    (h : r.Readable t idx idx.modules.length own path file sum) :
    Addition r t marks idx (idx.putModule (file.moduleOf own sum)).2

/-- Run from a state, an action adds modules and leaves the marks; it has a result only with what `G`
says of it. -/
structure Adds {α : Type} (r : Repository) (t : FileTree) (act : LoadM α) (s : LoadState)
    (G : α → Index → Prop) : Prop where
  loading : (act.run s).2.loading = s.loading
  adds : ReflTransGen (r.Addition t s.loading) s.index (act.run s).2.index
  result : ∀ a, (act.run s).1 = .ok a → G a (act.run s).2.index

section

variable {r : Repository} {t : FileTree} {idx idx' : Index} {limit : Nat} {marks : List Text} {own path : Text}
  {file : SourceFile} {sum : Summary}

theorem Readable.target_lt (h : r.Readable t idx limit own path file sum) : ∀ q ∈ sum.requires, q.target < limit :=
  h.followed.target_lt (by simp)

theorem Readable.mono (h : r.Readable t idx limit own path file sum) (hlimit : limit ≤ idx.modules.length)
    (hg : idx.Extends idx') : r.Readable t idx' limit own path file sum :=
  ⟨h.resolved, h.source, h.named, h.read, h.followed.mono (by simp) hlimit hg (Nat.le_refl _)⟩

theorem Addition.grows (h : r.Addition t marks idx idx') (hs : idx.Sound) : idx.Grows r t idx' := by
  cases h with
  | root => exact .root hs
  | module _ _ hnew h =>
    refine (Index.Grows.refl hs).putModule hs hnew h.target_lt ?_
    rintro name ⟨imports, himports⟩
    obtain ⟨id, hid⟩ := h.followed.reaches himports
    exact hid.leads

theorem grows_of_additions (h : ReflTransGen (r.Addition t marks) idx idx') (hs : idx.Sound) :
    idx.Grows r t idx' := by
  induction h with
  | refl => exact .refl hs
  | tail _ h ih => exact ih.trans (h.grows ih.sound)

theorem Addition.unmark {name : Text} (h : r.Addition t (name :: marks) idx idx') : r.Addition t marks idx idx' := by
  cases h with
  | root => exact .root idx
  | module hfree hroot hnew h => exact .module (fun hmem => hfree (List.mem_cons_of_mem _ hmem)) hroot hnew h

/-- What is marked is not added. -/
theorem moduleId?_of_additions (h : ReflTransGen (r.Addition t marks) idx idx') (hmark : own ∈ marks)
    (hroot : own ≠ rootModule.name) (hnew : idx.moduleId? own = none) : idx'.moduleId? own = none := by
  induction h with
  | refl => exact hnew
  | @tail idx' idx'' _ h ih =>
    cases h with
    | root =>
      rcases idx'.root_cases with ⟨-, heq⟩ | ⟨-, heq⟩
      · rwa [heq]
      · rw [heq]
        exact (Index.get?_place.trans (if_neg hroot)).trans ih
    | @module added _ _ _ hfree =>
      have hne : own ≠ added := fun heq => hfree (heq ▸ hmark)
      exact (Index.get?_place.trans (if_neg hne)).trans ih

end

section

variable {α β : Type} {r : Repository} {t : FileTree} {s : LoadState} {G : α → Index → Prop}
  {H : β → Index → Prop}

/-! ## The steps of loading -/

theorem Adds.of_run {act : LoadM α} {result : Except Failure α} {s' : LoadState} (hrun : act.run s = (result, s'))
    (hloading : s'.loading = s.loading) (hadds : ReflTransGen (r.Addition t s.loading) s.index s'.index)
    (hG : ∀ a, result = .ok a → G a s'.index) : r.Adds t act s G :=
  ⟨by rw [hrun]; exact hloading, by rw [hrun]; exact hadds, by rw [hrun]; exact hG⟩

theorem adds_pure {a : α} (h : G a s.index) : r.Adds t (pure a : LoadM α) s G :=
  ⟨rfl, .refl, fun _ ha => Except.ok.inj ha ▸ h⟩

theorem adds_throw (e : Failure) : r.Adds t (throw e : LoadM α) s G :=
  ⟨rfl, .refl, fun _ ha => nomatch ha⟩

theorem Adds.adapt {act : LoadM α} (h : r.Adds t act s G) (g : Failure → Failure) :
    r.Adds t (ExceptT.adapt g act) s G :=
  ⟨h.loading, h.adds, fun a ha => h.result a (LoadM.ok_of_adapt ha)⟩

theorem adds_ask (f : Index → α) : r.Adds t (LoadM.ask f) s fun a idx => idx = s.index ∧ a = f s.index :=
  ⟨rfl, .refl, fun _ ha => ⟨rfl, (Except.ok.inj ha).symm⟩⟩

theorem adds_lift (x : Except Failure α) :
    r.Adds t (LoadM.lift x) s fun a idx => x = .ok a ∧ idx = s.index := by
  refine ⟨?_, ?_, ?_⟩
  · rw [LoadM.run_lift]
  · rw [LoadM.run_lift]
  · rw [LoadM.run_lift]
    exact fun a ha => ⟨ha, rfl⟩

theorem Adds.bind {x : LoadM α} {f : α → LoadM β} (hs : s.index.Sound) (hx : r.Adds t x s G)
    (hf : ∀ a s', s'.loading = s.loading → s.index.Grows r t s'.index → G a s'.index → r.Adds t (f a) s' H) :
    r.Adds t (x >>= f) s H := by
  obtain ⟨hloading, hadds, hresult⟩ := hx
  rcases hrun : x.run s with ⟨e | a, s'⟩ <;> rw [hrun] at hloading hadds hresult
  · have hbind : (x >>= f).run s = (.error e, s') := by rw [LoadM.run_bind, hrun]
    exact .of_run hbind hloading hadds fun b hb => nomatch hb
  · have hbind : (x >>= f).run s = (f a).run s' := by rw [LoadM.run_bind, hrun]
    have hnext := hf a s' hloading (grows_of_additions hadds hs) (hresult a rfl)
    exact .of_run hbind (hnext.loading.trans hloading) (hadds.trans (hloading ▸ hnext.adds)) hnext.result

/-! ## Files -/

variable {need : Text → LoadM Nat} {file : SourceFile} {loading : List Text}

/-- What is known of a module that is needed. -/
def Reached (r : Repository) (t : FileTree) (name : Text) (id : Nat) (idx : Index) : Prop :=
  r.Reaches t idx name id ∧ id < idx.modules.length

/-- What is needed is added, while `loading` are marked. -/
def Supplies (r : Repository) (t : FileTree) (need : Text → LoadM Nat) (loading : List Text) : Prop :=
  ∀ name s, s.loading = loading → s.index.Sound → r.Adds t (need name) s (r.Reached t name)

theorem adds_follow (hneed : r.Supplies t need loading) (hs : s.index.Sound) (hl : s.loading = loading)
    {sum : Summary} (hsum : Summary.Points sum s.index) (d : Directive) :
    r.Adds t (d.follow need sum) s fun sum' idx => d.Follows r t idx idx.modules.length sum sum' := by
  cases d with
  | define origin => exact adds_pure (.define origin)
  | provide origin => exact adds_pure (.provide origin)
  | provideDefined => exact adds_pure .provideDefined
  | misuse m => exact adds_throw _
  | provideAs span inner outer =>
    refine (adds_ask _).bind hs fun idx s' _ hg hidx => ?_
    obtain ⟨heq, rfl⟩ := hidx
    split
    · rename_i origin horigin
      exact adds_pure (.provideAs (by rwa [Summary.origin?_eq hg.extends hsum]))
    · exact adds_throw _
  | language name =>
    exact (hneed name s hl hs).bind hs fun id s' _ _ hid => adds_pure (.language hid.1 hid.2)
  | require name imports =>
    refine (hneed name s hl hs).bind hs fun id s' _ _ hid => ?_
    cases imports with
    | error m => exact adds_throw _
    | ok imports => exact adds_pure (.require hid.1 hid.2)

theorem adds_foldlM_follow (hneed : r.Supplies t need loading) (ds : List Directive) {s : LoadState}
    (hs : s.index.Sound) (hl : s.loading = loading) {sum : Summary} (hsum : Summary.Points sum s.index) :
    r.Adds t (ds.foldlM (Directive.follow need) sum) s fun sum' idx =>
      Directive.FollowsAll r t idx idx.modules.length sum ds sum' := by
  induction ds generalizing s sum with
  | nil => exact adds_pure (.nil sum)
  | cons d ds ih =>
    rw [List.foldlM_cons]
    refine (adds_follow hneed hs hl hsum d).bind hs fun sum' s' hl' hg hd => ?_
    have hsum' : Summary.Points sum' s'.index := hd.target_lt (hsum.mono hg)
    obtain ⟨hloading, hadds, hresult⟩ := ih hg.sound (hl'.trans hl) hsum'
    refine ⟨hloading, hadds, fun sum'' hrun => ?_⟩
    have hg' := grows_of_additions hadds hg.sound
    exact .cons (hd.mono (hsum.mono hg) hg'.extends hg'.length_le) (hresult sum'' hrun)

theorem adds_summarize (hneed : r.Supplies t need loading) (hs : s.index.Sound) (hl : s.loading = loading)
    (file : SourceFile) :
    r.Adds t (file.summarize need) s fun sum idx =>
      Directive.FollowsAll r t idx idx.modules.length {} file.directives sum :=
  (adds_foldlM_follow hneed file.directives hs hl (by simp [Summary.Points])).adapt file.resolve

/-- A file is read, its directives are followed while its module is marked, and the module is put. -/
theorem run_loadAs_eq (r : Repository) (t : FileTree) (need : Text → LoadM Nat) (own path : Text) (s : LoadState) :
    (r.loadAs t need own path).run s =
      match SourceFile.read t path (r.shown path) with
      | .error e => (.error e, { s with loading := (own :: s.loading).filter (· != own) })
      | .ok file =>
        match (file.summarize need).run { s with loading := own :: s.loading } with
        | (.error e, s') => (.error e, { s' with loading := s'.loading.filter (· != own) })
        | (.ok sum, s') => (.ok (s'.index.putModule (file.moduleOf own sum)).1,
            { index := (s'.index.putModule (file.moduleOf own sum)).2
              loading := s'.loading.filter (· != own)
              log := s'.log ++ [⟨.info, utf8 "loaded module", [(utf8 "module", own)]⟩] }) := by
  unfold loadAs
  rw [LoadM.run_marking, LoadM.run_bind, LoadM.run_lift]
  cases SourceFile.read t path (r.shown path) with
  | error e => rfl
  | ok file =>
    dsimp only
    rw [LoadM.run_bind]
    rcases (file.summarize need).run { s with loading := own :: s.loading } with ⟨e | sum, s'⟩ <;> rfl

theorem filter_marked {own : Text} {loading : List Text} (hfree : own ∉ loading) :
    (own :: loading).filter (· != own) = loading := by
  rw [List.filter_cons, bne_self_eq_false, if_neg Bool.false_ne_true, List.filter_eq_self]
  exact fun name hname => bne_iff_ne.mpr fun heq => hfree (heq ▸ hname)

theorem isFile_of_read {path name : Text} (h : SourceFile.read t path name = .ok file) : t.isFile path = true := by
  obtain ⟨source, nodes, hread, -⟩ := SourceFile.read_eq_ok.mp h
  unfold FileTree.read at hread
  unfold FileTree.isFile
  rcases hfind : t.find path with f | ⟨names, _ | _⟩
  · rw [hfind] at hread
    cases hread
  · rfl
  · rw [hfind] at hread
    cases hread

/-- What it comes to when a file is loaded as a module that was not there: what it needs is added,
and then, if nothing failed, it is. -/
theorem adds_loadAs {own path : Text} (hr : r.Rooted) (hroot : r.LeavesRoot t) (hfree : own ∉ s.loading) (hs : s.index.Sound)
    (hneed : r.Supplies t need (own :: s.loading)) (hnew : s.index.moduleId? own = none)
    (hresolved : r.resolve path = path) (hsource : FileTree.IsSource path) (hown : r.moduleName path = .ok own) :
    r.Adds t (r.loadAs t need own path) s fun id idx => idx.moduleId? own = some id := by
  have hrun := run_loadAs_eq r t need own path s
  cases hread : SourceFile.read t path (r.shown path) with
  | error e =>
    rw [hread] at hrun
    dsimp only at hrun
    rw [filter_marked hfree] at hrun
    exact ⟨by rw [hrun], by rw [hrun], fun id hid => by rw [hrun] at hid; cases hid⟩
  | ok file =>
    rw [hread] at hrun
    dsimp only at hrun
    have hne : own ≠ rootModule.name := by
      rintro rfl
      exact hroot path (hr.mem_filePaths hresolved (isFile_of_read hread)) hsource hown
    obtain ⟨hloading, hadds, hresult⟩ :=
      adds_summarize (s := { s with loading := own :: s.loading }) hneed hs rfl file
    generalize (file.summarize need).run { s with loading := own :: s.loading } = out at hrun hloading hadds hresult
    have hadded : ReflTransGen (r.Addition t s.loading) s.index out.2.index :=
      ReflTransGen.mono (fun _ _ h => Addition.unmark h) _ _ hadds
    obtain ⟨e | sum, s'⟩ := out
    · dsimp only at hrun hloading
      rw [hloading, filter_marked hfree] at hrun
      exact ⟨by rw [hrun], by rw [hrun]; exact hadded, fun id hid => by rw [hrun] at hid; cases hid⟩
    · dsimp only at hrun hloading hadds
      rw [hloading, filter_marked hfree] at hrun
      have hnew' : s'.index.moduleId? own = none := moduleId?_of_additions hadds List.mem_cons_self hne hnew
      refine ⟨by rw [hrun], ?_, fun id hid => ?_⟩
      · rw [hrun]
        exact hadded.tail (.module hfree hne hnew' ⟨hresolved, hsource, hown, hread, hresult sum rfl⟩)
      · rw [hrun] at hid ⊢
        rw [← Except.ok.inj hid]
        exact s'.index.moduleId?_putModule (file.moduleOf own sum)

/-! ## Modules -/

theorem reached_of_moduleId? {name : Text} {id : Nat} {idx : Index} (hs : idx.Sound)
    (hid : idx.moduleId? name = some id) : r.Reached t name id idx :=
  ⟨.known hid, hs.modules.lt hid⟩

/-- A module that is needed is added after what it needs, or loading it fails. -/
theorem supplies_loadModule (hr : r.Rooted) (hroot : r.LeavesRoot t) (loading : List Text) :
    r.Supplies t (r.loadModule t loading) loading := by
  induction loading using marks_induction r t with
  | mark loading ih =>
    rintro name s rfl hs
    have hneed := run_loadModule r t s.loading s name
    generalize hrun : (r.loadModule t s.loading name).run s = out at hneed
    cases hneed with
    | root hname =>
      refine .of_run hrun rfl (.single (.root s.index)) fun id hid => ?_
      rw [← Except.ok.inj hid, hname]
      exact reached_of_moduleId? hs.root s.index.moduleId?_root
    | known _ hid =>
      exact .of_run hrun rfl .refl fun id hid' => reached_of_moduleId? hs (Except.ok.inj hid' ▸ hid)
    | missing => exact .of_run hrun rfl .refl fun id hid => nomatch hid
    | nameless => exact .of_run hrun rfl .refl fun id hid => nomatch hid
    | present hname _ hfile hown hid =>
      refine .of_run hrun rfl .refl fun id hid' => ?_
      rw [← Except.ok.inj hid']
      exact ⟨.file hname hfile hown hid, hs.modules.lt hid⟩
    | circular => exact .of_run hrun rfl .refl fun id hid => nomatch hid
    | @load path own hname _ hfile hown hnone hfree =>
      obtain ⟨hloading, hadds, hresult⟩ := adds_loadAs hr hroot hfree hs (ih hfile hown hfree) hnone
        (hr.resolve_moduleFile? hfile) (isSource_moduleFile? hfile) hown
      refine .of_run hrun hloading hadds fun id hid => ?_
      have hplace := hresult id hid
      exact ⟨.file hname hfile hown hplace, (grows_of_additions hadds hs).sound.modules.lt hplace⟩

theorem adds_needModule (hr : r.Rooted) (hroot : r.LeavesRoot t) (hs : s.index.Sound) (name : Text) :
    r.Adds t (r.needModule t name) s (r.Reached t name) := by
  obtain ⟨hloading, hadds, hresult⟩ := supplies_loadModule hr hroot s.loading name s rfl hs
  exact ⟨hloading, hadds, hresult⟩

theorem supplies_needModule (hr : r.Rooted) (hroot : r.LeavesRoot t) (loading : List Text) :
    r.Supplies t (r.needModule t) loading :=
  fun name _ _ hs => adds_needModule hr hroot hs name

/-- A file is loaded as the module of its name, unless there is one. -/
theorem run_loadModuleFile (hr : r.Rooted) (t : FileTree) (path : Text) (s : LoadState) :
    (r.loadModuleFile t path).run s =
      match r.moduleName path with
      | .error e => (.error e, s)
      | .ok own =>
        match s.index.moduleId? own with
        | some id => (.ok id, s)
        | none =>
          if own ∈ s.loading then (.error (selfDependent own), s)
          else (r.loadAs t (r.needModule t) own (r.resolve path)).run s := by
  unfold loadModuleFile
  dsimp only
  rw [LoadM.run_bind, LoadM.run_lift, hr.moduleName_resolve]
  cases r.moduleName path with
  | error e => rfl
  | ok own =>
    show (match s.index.moduleId? own with
      | some id => (pure id : LoadM Nat)
      | none => r.reloadModuleFile t own (r.resolve path)).run s = _
    dsimp only
    cases s.index.moduleId? own with
    | some id => rfl
    | none =>
      show (if own ∈ s.loading then throw (selfDependent own)
        else r.loadAs t (r.needModule t) own (r.resolve (r.resolve path)) : LoadM Nat).run s = _
      rw [hr.resolve_resolve]
      split <;> rfl

/-- A source file is loaded as a module after what it needs, if its module is not there. -/
theorem adds_loadModuleFile (hr : r.Rooted) (hroot : r.LeavesRoot t) (hs : s.index.Sound) {path : Text}
    (hsource : FileTree.IsSource path) :
    r.Adds t (r.loadModuleFile t path) s fun id idx => ∃ own, r.moduleName path = .ok own ∧ idx.moduleId? own = some id := by
  have hrun := run_loadModuleFile hr t path s
  cases hown : r.moduleName path with
  | error e =>
    rw [hown] at hrun
    exact .of_run hrun rfl .refl fun _ hid => nomatch hid
  | ok own =>
    rw [hown] at hrun
    dsimp only at hrun
    cases hknown : s.index.moduleId? own with
    | some id =>
      rw [hknown] at hrun
      exact .of_run hrun rfl .refl fun _ hid => ⟨own, rfl, Except.ok.inj hid ▸ hknown⟩
    | none =>
      rw [hknown] at hrun
      dsimp only at hrun
      by_cases hwaits : own ∈ s.loading
      · rw [if_pos hwaits] at hrun
        exact .of_run hrun rfl .refl fun _ hid => nomatch hid
      · rw [if_neg hwaits] at hrun
        obtain ⟨hloading, hadds, hresult⟩ := adds_loadAs hr hroot hwaits hs (supplies_needModule hr hroot _) hknown
          (hr.resolve_resolve path) hsource.absolute ((hr.moduleName_resolve path).trans hown)
        exact .of_run hrun hloading hadds fun id hid => ⟨own, rfl, hresult id hid⟩

/-! ## Scripts -/

theorem Reached.mono {name : Text} {id : Nat} {idx idx' : Index} (h : r.Reached t name id idx)
    (hg : idx.Extends idx') : r.Reached t name id idx' :=
  ⟨h.1.mono hg, Nat.lt_of_lt_of_le h.2 hg.length_le⟩

theorem adds_forIn (hneed : r.Supplies t need loading) (names : List Text) {s : LoadState} (hs : s.index.Sound)
    (hl : s.loading = loading) :
    r.Adds t (forIn names PUnit.unit fun name _ => do
      let _ ← need name
      return ForInStep.yield PUnit.unit) s fun _ idx => ∀ name ∈ names, ∃ id, r.Reached t name id idx := by
  induction names generalizing s with
  | nil => exact adds_pure (by simp)
  | cons name names ih =>
    rw [List.forIn_cons]
    have hfirst : r.Adds t (do
        let _ ← need name
        return ForInStep.yield PUnit.unit) s fun step idx =>
          step = ForInStep.yield PUnit.unit ∧ ∃ id, r.Reached t name id idx :=
      (hneed name s hl hs).bind hs fun id _ _ _ hid => adds_pure ⟨rfl, id, hid⟩
    refine hfirst.bind hs fun step s' hl' hg hstep => ?_
    obtain ⟨rfl, id, hid⟩ := hstep
    obtain ⟨hloading, hadds, hresult⟩ := ih hg.sound (hl'.trans hl)
    refine ⟨hloading, hadds, fun _ hrun => List.forall_mem_cons.mpr ⟨⟨id, ?_⟩, hresult _ hrun⟩⟩
    exact hid.mono (grows_of_additions hadds hg.sound).extends

end

/-- A script that can be put: the modules it names are there, and its one file, by whose name it goes,
was read and its directives could be followed. -/
structure ReadableScript (r : Repository) (t : FileTree) (idx : Index) (b : ScriptBody) : Prop where
  modules : ∀ name ∈ b.topLevelModules, ∃ id, r.Reached t name id idx
  file : ∃ file sum, b.files = [file] ∧ SourceFile.read t (r.resolve b.name) b.name = .ok file ∧
    Directive.FollowsAll r t idx idx.modules.length {} file.directives sum

theorem ReadableScript.mono {r : Repository} {t : FileTree} {idx idx' : Index} {b : ScriptBody}
    (h : r.ReadableScript t idx b) (hg : idx.Extends idx') : r.ReadableScript t idx' b := by
  obtain ⟨hmodules, file, sum, hfiles, hread, hsum⟩ := h
  refine ⟨fun name hname => ?_, file, sum, hfiles, hread, ?_⟩
  · obtain ⟨id, hid⟩ := hmodules name hname
    exact ⟨id, hid.mono hg⟩
  · exact hsum.mono (by simp) (Nat.le_refl _) hg hg.length_le

/-- An index that additions and scripts made of an empty one. -/
inductive Built (r : Repository) (t : FileTree) : Index → Prop where
  | new : Built r t {}
  | added {idx idx' : Index} (h : Built r t idx) (hadd : r.Addition t [] idx idx') : Built r t idx'
  | script {idx : Index} {b : ScriptBody} (h : Built r t idx) (hb : r.ReadableScript t idx b) :
    Built r t (idx.putScript b).2

section

variable {r : Repository} {t : FileTree} {s : LoadState} {idx idx' : Index}

theorem Built.sound (h : r.Built t idx) : idx.Sound := by
  induction h with
  | new => exact Index.sound_empty
  | added _ hadd ih => exact (hadd.grows ih).sound
  | script _ _ ih => exact ih.putScript _

theorem Built.additions (h : r.Built t idx) (hadds : ReflTransGen (r.Addition t []) idx idx') : r.Built t idx' := by
  induction hadds with
  | refl => exact h
  | tail _ hadd ih => exact ih.added hadd

/-- The state of a loader between calls, with an index that was built. -/
def BuiltState (r : Repository) (t : FileTree) (s : LoadState) : Prop := s.loading = [] ∧ r.Built t s.index

theorem Adds.builtState {α : Type} {act : LoadM α} {G : α → Index → Prop} (h : r.Adds t act s G)
    (hs : r.BuiltState t s) : r.BuiltState t (act.run s).2 := by
  obtain ⟨hloading, hadds, -⟩ := h
  rw [hs.1] at hloading hadds
  exact ⟨hloading, hs.2.additions hadds⟩

/-- What loading a script that is named like its file comes to: what it needs is added, and then, if
nothing failed, the script is put. -/
inductive ScriptLoaded (r : Repository) (t : FileTree) (s : LoadState) (name : Text)
    (topLevelModules globalBindings : List Text) : Except Failure Nat × LoadState → Prop where
  | failed {idx : Index} {log : List LogEntry} {e : Failure} (hadds : ReflTransGen (r.Addition t s.loading) s.index idx) :
    ScriptLoaded r t s name topLevelModules globalBindings (.error e, ⟨idx, s.loading, log⟩)
  | put {idx : Index} {log : List LogEntry} {files : List SourceFile}
    (hadds : ReflTransGen (r.Addition t s.loading) s.index idx)
    (hb : r.ReadableScript t idx { name, topLevelModules, globalBindings, files }) :
    ScriptLoaded r t s name topLevelModules globalBindings
      (.ok (idx.putScript { name, topLevelModules, globalBindings, files }).1,
        ⟨(idx.putScript { name, topLevelModules, globalBindings, files }).2, s.loading, log⟩)

theorem ScriptLoaded.of_adds {name : Text} {topLevelModules globalBindings : List Text} {act : LoadM (List SourceFile)}
    (h : r.Adds t act s fun files idx => r.ReadableScript t idx { name, topLevelModules, globalBindings, files }) :
    r.ScriptLoaded t s name topLevelModules globalBindings
      ((act >>= fun files => LoadM.update (·.putScript { name, topLevelModules, globalBindings, files })).run s) := by
  obtain ⟨hloading, hadds, hresult⟩ := h
  rw [LoadM.run_bind]
  generalize act.run s = out at hloading hadds hresult ⊢
  obtain ⟨e | files, idx, loading, log⟩ := out
  · obtain rfl : loading = s.loading := hloading
    exact .failed hadds
  · obtain rfl : loading = s.loading := hloading
    exact .put hadds (hresult files rfl)

theorem scriptLoaded (hr : r.Rooted) (hroot : r.LeavesRoot t) (hs : s.index.Sound) (name : Text)
    (topLevelModules globalBindings : List Text) :
    r.ScriptLoaded t s name topLevelModules globalBindings
      ((r.loadScript t name topLevelModules globalBindings [name]).run s) := by
  unfold loadScript
  rw [← bind_assoc]
  refine .of_adds ?_
  have hneed := supplies_needModule hr hroot s.loading
  refine (adds_forIn hneed topLevelModules hs rfl).bind hs fun _ s' hl hg hmodules => ?_
  rw [List.mapM_cons, List.mapM_nil]
  have hfile : r.Adds t (do
      let file ← LoadM.lift (SourceFile.read t (r.resolve name) name)
      let _ ← file.summarize (r.needModule t)
      return file) s' fun file idx => SourceFile.read t (r.resolve name) name = .ok file ∧
        ∃ sum, Directive.FollowsAll r t idx idx.modules.length {} file.directives sum := by
    refine (adds_lift _).bind hg.sound fun file s'' hl' hg' hread => ?_
    exact (adds_summarize hneed hg'.sound (hl'.trans hl) file).bind hg'.sound fun sum _ _ hg'' hsum =>
      adds_pure ⟨hread.1, sum, hsum⟩
  refine hfile.bind hg.sound fun file s'' hl' hg' hfile => ?_
  obtain ⟨hread, sum, hsum⟩ := hfile
  refine adds_pure ⟨fun m hm => ?_, file, sum, rfl, hread, hsum⟩
  obtain ⟨id, hid⟩ := hmodules m hm
  exact ⟨id, hid.mono hg'.extends⟩

theorem ScriptLoaded.builtState {name : Text} {topLevelModules globalBindings : List Text}
    {out : Except Failure Nat × LoadState} (h : r.ScriptLoaded t s name topLevelModules globalBindings out)
    (hs : r.BuiltState t s) : r.BuiltState t out.2 := by
  obtain ⟨hloading, hbuilt⟩ := hs
  cases h with
  | failed hadds =>
    rw [hloading] at hadds
    exact ⟨hloading, hbuilt.additions hadds⟩
  | put hadds hb =>
    rw [hloading] at hadds
    exact ⟨hloading, (hbuilt.additions hadds).script hb⟩

/-- The calls that load a package build its index. -/
theorem keptByFiles_built (hr : r.Rooted) (hroot : r.LeavesRoot t) : r.KeptByFiles t (r.BuiltState t) where
  log _ _ hs := hs
  module _ hsource _ hs := (adds_loadModuleFile hr hroot hs.2.sound hsource).builtState hs
  script _ _ _ _ hs := (scriptLoaded hr hroot hs.2.sound _ _ _).builtState hs

end

end Repository

/-- The state after a package was loaded: its index was built by additions and scripts. -/
theorem Settings.builtState_of_loadPackage {settings : Settings} {t : FileTree} {packagePath : Text} {r : Repository}
    {s : LoadState} (h : (settings.loadPackage t packagePath).run {} = (.ok r, s)) (hroot : r.LeavesRoot t) :
    r.BuiltState t s :=
  have hr := Repository.rooted_ofPackage (Settings.ofPackage_of_loadPackage h)
  Settings.holds_of_loadPackage h ⟨rfl, .new⟩ ((Repository.keptByFiles_built hr hroot).byFolders settings.folders)

end FusionKit
