import Mathlib.Data.List.Forall2
import FusionKit.Proofs.Naming
import FusionKit.Proofs.Order

/-!
# Two versions of a package

One file of a package was changed, and the package was loaded before and after. If both indices know
the same modules, each in the file that is found for its name, then a module whose file was not
changed is in the same language and provides the same names in both, though not from the same places.
So what can be followed with the modules of the new index can be followed with those of the old one.
-/
set_option autoImplicit false

namespace FusionKit

/-! ## Names in tables -/

namespace Table

variable {β γ : Type} {t : Table β} {t' : Table γ}

/-- The names of a table, in no order. -/
def keys (t : Table β) : List Text := t.map (·.1)

theorem keys_put (name : Text) (value : β) : (t.put name value).keys = name :: t.keys.filter (· != name) := by
  rw [put, keys, List.map_cons, keys, List.filter_map]
  rfl

theorem isSome_get? (name : Text) : (t.get? name).isSome = t.keys.contains name := by
  unfold get? keys
  induction t with
  | nil => rfl
  | cons entry t ih =>
    rw [List.lookup_cons, List.map_cons, List.contains_cons]
    cases name == entry.1 with
    | true => rfl
    | false => exact ih

theorem names_eq_of_keys (h : t.keys = t'.keys) : t.names = t'.names := by
  have hsorted {β : Type} (t : Table β) : t.names = t.keys.mergeSort Text.le :=
    List.map_mergeSort fun _ _ _ _ => rfl
  rw [hsorted, hsorted, h]

end Table

/-! ## Summaries -/

/-- Two summaries name the same language and the same names. -/
structure Summary.Resembles (sum sum' : Summary) : Prop where
  language : sum.language = sum'.language
  allDefined : sum.allDefined = sum'.allDefined
  defined : sum.defined = sum'.defined
  provides : sum.provides.keys = sum'.provides.keys

section

variable {r r' : Repository} {t t' : FileTree} {idx idx' : Index} {limit limit' : Nat} {sum sum' next next' : Summary}
  {d : Directive} {ds : List Directive}

theorem Summary.Resembles.refl (sum : Summary) : sum.Resembles sum := ⟨rfl, rfl, rfl, rfl⟩

theorem Summary.Resembles.exports (h : sum.Resembles sum') : sum.exports.keys = sum'.exports.keys := by
  unfold Summary.exports
  rw [h.allDefined, h.defined]
  split
  · have hprovides := h.provides
    generalize sum.provides = u at hprovides ⊢
    generalize sum'.provides = u' at hprovides ⊢
    induction sum'.defined generalizing u u' with
    | nil => exact hprovides
    | cons entry entries ih =>
      rw [List.foldl_cons, List.foldl_cons]
      exact ih _ _ (by rw [Table.keys_put, Table.keys_put, hprovides])
  · exact h.provides

/-- In two indices, a directive makes summaries alike of summaries that are. -/
theorem Directive.Follows.resembles (h : d.Follows r t idx limit sum next) (h' : d.Follows r' t' idx' limit' sum' next')
    (hsum : sum.Resembles sum') : next.Resembles next' := by
  obtain ⟨hlanguage, hall, hdefined, hprovides⟩ := hsum
  cases h with
  | define origin =>
    cases h' with
    | define => exact ⟨hlanguage, hall, by rw [hdefined], hprovides⟩
  | provide origin =>
    cases h' with
    | provide => exact ⟨hlanguage, hall, hdefined, by rw [Table.keys_put, Table.keys_put, hprovides]⟩
  | provideDefined =>
    cases h' with
    | provideDefined => exact ⟨hlanguage, rfl, hdefined, hprovides⟩
  | provideAs =>
    cases h' with
    | provideAs => exact ⟨hlanguage, hall, hdefined, by rw [Table.keys_put, Table.keys_put, hprovides]⟩
  | language =>
    cases h' with
    | language => exact ⟨rfl, hall, hdefined, hprovides⟩
  | require =>
    cases h' with
    | require => exact ⟨hlanguage, hall, hdefined, hprovides⟩

theorem Directive.FollowsAll.resembles (h : FollowsAll r t idx limit sum ds next)
    (h' : FollowsAll r' t' idx' limit' sum' ds next') (hsum : sum.Resembles sum') : next.Resembles next' := by
  induction h generalizing sum' with
  | nil =>
    cases h' with
    | nil => exact hsum
  | cons h _ ih =>
    cases h' with
    | cons h' hs' => exact ih hs' (h.resembles h' hsum)

end

/-! ## Versions -/

namespace Repository

/-- An index that was built before one file was changed, and one that was built after that. They know the
same modules, apart from the root, each in the file that is found for its name. -/
structure Versions (r : Repository) (t t' : FileTree) (changed : Text) (idx idx' : Index) : Prop where
  rooted : r.Rooted
  leavesRoot : r.LeavesRoot t'
  moduleFile : ∀ name, r.moduleFile? t' name = r.moduleFile? t name
  read : ∀ path name, r.resolve path = path → path ≠ changed → SourceFile.read t' path name = SourceFile.read t path name
  before : r.Built t idx
  after : r.Built t' idx'
  names : ∀ name, name ≠ rootModule.name → (idx.moduleId? name = none ↔ idx'.moduleId? name = none)
  inPlace : ∀ m ∈ idx.modules, m.name ≠ rootModule.name → r.moduleFile? t m.name = some m.file.path
  inPlace' : ∀ m ∈ idx'.modules, m.name ≠ rootModule.name → r.moduleFile? t m.name = some m.file.path

section

variable {r : Repository} {t t' : FileTree} {changed : Text} {idx idx' i : Index} {m m' : Module} {name : Text}
  {id' : Nat}

/-- The file of a module is the one found for its name, and has its name. -/
theorem Entry.named (h : r.Entry t idx m) (hne : m.name ≠ rootModule.name) :
    r.resolve m.file.path = m.file.path ∧ r.moduleName m.file.path = .ok m.name := by
  cases h with
  | root hbody => exact absurd (congrArg ModuleBody.name hbody) hne
  | @file path file sum _ h hbody =>
    have hfile : m.file = file := congrArg ModuleBody.file hbody
    rw [hfile, path_of_read h.read]
    exact ⟨h.resolved, h.named⟩

theorem Entry.read (h : r.Entry t idx m) (hne : m.name ≠ rootModule.name) :
    SourceFile.read t m.file.path (r.shown m.file.path) = .ok m.file := by
  cases h with
  | root hbody => exact absurd (congrArg ModuleBody.name hbody) hne
  | @file path file sum _ h hbody =>
    have hfile : m.file = file := congrArg ModuleBody.file hbody
    rw [hfile, path_of_read h.read]
    exact h.read

namespace Versions

theorem moduleFile?_of_mem' (h : r.Versions t t' changed idx idx') (hm : m ∈ idx'.modules)
    (hne : m.name ≠ rootModule.name) : r.moduleFile? t' m.name = some m.file.path :=
  (h.moduleFile m.name).trans (h.inPlace' m hm hne)

/-- A module whose file was not changed is in the same language and provides the same names. -/
theorem alike (h : r.Versions t t' changed idx idx') (hm : m ∈ idx.modules) (hm' : m' ∈ idx'.modules)
    (hname : m.name = m'.name) (hother : r.moduleName changed ≠ .ok m.name) :
    m.language = m'.language ∧ m.provides.keys = m'.provides.keys := by
  have hentry := h.before.entries m hm
  have hentry' := h.after.entries m' hm'
  by_cases hroot : m.name = rootModule.name
  · have hbody : ∀ {t : FileTree} {idx : Index} {m : Module}, r.Entry t idx m → m.name = rootModule.name →
        m.toModuleBody = rootModule := by
      intro t idx m hentry hname
      cases hentry with
      | root hbody => exact hbody
      | file hne => exact absurd hname hne
    rw [hbody hentry hroot, hbody hentry' (hname ▸ hroot)]
    exact ⟨rfl, rfl⟩
  · have hroot' : m'.name ≠ rootModule.name := hname ▸ hroot
    have hpath : m'.file.path = m.file.path := by
      have hfile := h.inPlace m hm hroot
      have hfile' := h.inPlace' m' hm' hroot'
      exact Option.some.inj (hfile'.symm.trans (hname ▸ hfile))
    have hne : m.file.path ≠ changed := fun heq => hother (heq ▸ (hentry.named hroot).2)
    cases hentry with
    | root hbody => exact absurd (congrArg ModuleBody.name hbody) hroot
    | @file path file sum _ hread hbody =>
      cases hentry' with
      | root hbody => exact absurd (congrArg ModuleBody.name hbody) hroot'
      | @file path' file' sum' _ hread' hbody' =>
        have hfile : m.file = file := congrArg ModuleBody.file hbody
        have hfile' : m'.file = file' := congrArg ModuleBody.file hbody'
        obtain rfl : path' = path := by
          rw [← path_of_read hread.read, ← path_of_read hread'.read, ← hfile, ← hfile', hpath]
        have hunchanged : path' ≠ changed := by rwa [← path_of_read hread.read, ← hfile]
        have hsame := hread'.read
        rw [h.read path' _ hread.resolved hunchanged, hread.read] at hsame
        obtain rfl := Except.ok.inj hsame
        have hresembles := hread.followed.resembles hread'.followed (.refl {})
        have hlanguage : m.language = sum.language := congrArg ModuleBody.language hbody
        have hlanguage' : m'.language = sum'.language := congrArg ModuleBody.language hbody'
        have hprovides : m.provides = sum.exports := congrArg ModuleBody.provides hbody
        have hprovides' : m'.provides = sum'.exports := congrArg ModuleBody.provides hbody'
        rw [hlanguage, hlanguage', hprovides, hprovides']
        exact ⟨hresembles.language, hresembles.exports⟩

/-- The root may be put in the old index. -/
theorem root (h : r.Versions t t' changed idx idx') : r.Versions t t' changed idx.root.2 idx' := by
  have hinPlace := fun m hm hne => h.inPlace m ((Index.mem_modules_root hm).resolve_left hne) hne
  refine { h with before := h.before.added (.root idx), inPlace := hinPlace, names := fun name hname => ?_ }
  rw [← h.names name hname]
  rcases idx.root_cases with ⟨-, heq⟩ | ⟨-, heq⟩
  · rw [heq]
  · have hother : idx.root.2.moduleId? name = idx.moduleId? name := by
      rw [heq]
      exact Index.get?_place.trans (if_neg hname)
    rw [hother]

end Versions

end

/-! ## Following in the old index what was followed in the new one -/

section

variable {r : Repository} {t t' : FileTree} {changed : Text} {idx' i : Index} {s : LoadState} {name : Text} {id' : Nat}

/-- What a name leads to in the new index is needed in the old one without loading anything. -/
theorem Versions.need (h : r.Versions t t' changed s.index idx') (hreach : r.Reaches t' idx' name id') :
    ∃ id i, (r.needModule t' name).run s = (.ok id, { s with index := i }) ∧ r.Versions t t' changed i idx' ∧
      s.index.Extends i ∧
      ∃ m m', i.modules[id]? = some m ∧ idx'.modules[id']? = some m' ∧ m.name = m'.name := by
  have hs := h.before.sound
  have hs' := h.after.sound
  have hplaced {own : Text} {id id' : Nat} (hid : s.index.moduleId? own = some id) (hid' : idx'.moduleId? own = some id') :
      ∃ m m', s.index.modules[id]? = some m ∧ idx'.modules[id']? = some m' ∧ m.name = m'.name := by
    obtain ⟨m, hm, hname⟩ := hs.modules.get? hid
    obtain ⟨m', hm', hname'⟩ := hs'.modules.get? hid'
    exact ⟨m, m', hm, hm', hname.trans hname'.symm⟩
  have hfound (hroot : name ≠ rootModule.name) (hnew : s.index.moduleId? name = none) :
      ∃ path own, r.moduleFile? t' name = some path ∧ r.moduleName path = .ok own ∧ idx'.moduleId? own = some id' := by
    cases hreach with
    | known hid' =>
      rw [(h.names name hroot).mp hnew] at hid'
      cases hid'
    | file _ hfile hown hid' => exact ⟨_, _, hfile, hown, hid'⟩
  have hthere {path own : Text} (hroot : name ≠ rootModule.name) (hnew : s.index.moduleId? name = none)
      (hfile : r.moduleFile? t' name = some path) (hown : r.moduleName path = .ok own) :
      idx'.moduleId? own = some id' ∧ s.index.moduleId? own ≠ none := by
    obtain ⟨path', own', hfile', hown', hid'⟩ := hfound hroot hnew
    obtain rfl := Option.some.inj (hfile.symm.trans hfile')
    obtain rfl := Except.ok.inj (hown.symm.trans hown')
    have hne : own ≠ rootModule.name := fun heq =>
      h.leavesRoot path (mem_filePaths_of_moduleFile? hfile) (isSource_moduleFile? hfile) (heq ▸ hown)
    refine ⟨hid', fun hnone => ?_⟩
    rw [(h.names own hne).mp hnone] at hid'
    cases hid'
  have hneed : r.Need t' s.loading s name ((r.needModule t' name).run s) := run_loadModule r t' s.loading s name
  generalize (r.needModule t' name).run s = out at hneed ⊢
  cases hneed with
  | root hroot =>
    obtain ⟨m, hm, hname⟩ := hs.root.modules.get? s.index.moduleId?_root
    refine ⟨_, _, rfl, h.root, (Index.Grows.root (r := r) (t := t) hs).extends, m, ?_⟩
    cases hreach with
    | known hid' =>
      obtain ⟨m', hm', hname'⟩ := hs'.modules.get? hid'
      exact ⟨m', hm, hm', hname.trans (hroot ▸ hname'.symm)⟩
    | file hne => exact absurd hroot hne
  | @known id hroot hid =>
    refine ⟨id, s.index, rfl, h, .refl _, ?_⟩
    cases hreach with
    | known hid' => exact hplaced hid hid'
    | @file path own _ hfile hown hid' =>
      -- the module with this name is in the file that was found
      obtain ⟨id'', hid''⟩ : ∃ id, idx'.moduleId? name = some id := by
        refine Option.ne_none_iff_exists'.mp fun hnone => ?_
        rw [(h.names name hroot).mpr hnone] at hid
        cases hid
      obtain ⟨m', hm', hname'⟩ := hs'.modules.get? hid''
      have hmem := List.mem_of_getElem? hm'
      have hne' : m'.name ≠ rootModule.name := hname' ▸ hroot
      have hpath := h.moduleFile?_of_mem' hmem hne'
      rw [hname', hfile] at hpath
      have hsame := ((h.after.entries m' hmem).named hne').2
      rw [← Option.some.inj hpath, hown, hname'] at hsame
      rw [Except.ok.inj hsame] at hid'
      exact hplaced hid hid'
  | missing hroot hnew hfile =>
    obtain ⟨path, own, hfile', -⟩ := hfound hroot hnew
    rw [hfile] at hfile'
    cases hfile'
  | nameless hroot hnew hfile hown =>
    obtain ⟨path, own, hfile', hown', -⟩ := hfound hroot hnew
    rw [← Option.some.inj (hfile.symm.trans hfile'), hown] at hown'
    cases hown'
  | @present path own id hroot hnew hfile hown hid =>
    exact ⟨id, s.index, rfl, h, .refl _, hplaced hid (hthere hroot hnew hfile hown).1⟩
  | circular hroot hnew hfile hown hnone => exact absurd hnone (hthere hroot hnew hfile hown).2
  | load hroot hnew hfile hown hnone => exact absurd hnone (hthere hroot hnew hfile hown).2

/-! ## Following directives -/

/-- Requirements in the old and the new index import in the same way from modules that provide the
same names. -/
def ImportAlike (idx idx' : Index) (q q' : Requirement) : Prop :=
  q.imports = q'.imports ∧ ∃ m m', idx.modules[q.target]? = some m ∧ idx'.modules[q'.target]? = some m' ∧
    m.provides.keys = m'.provides.keys

/-- Summaries in the old and the new index name the same, and import from modules that provide the
same names. -/
structure Corresponds (idx idx' : Index) (sum sum' : Summary) : Prop where
  resembles : sum.Resembles sum'
  requires : List.Forall₂ (ImportAlike idx idx') sum.requires sum'.requires

variable {idx : Index} {sum sum' next' : Summary} {limit : Nat} {d : Directive} {ds : List Directive} {file : SourceFile}
  {qs qs' : List Requirement}

theorem ImportAlike.mono {q q' : Requirement} (h : ImportAlike idx idx' q q') (hg : idx.Extends i) :
    ImportAlike i idx' q q' := by
  obtain ⟨himports, m, m', hm, hm', hkeys⟩ := h
  exact ⟨himports, m, m', hg.modules _ m hm, hm', hkeys⟩

theorem ImportAlike.isSome_originOf? {q q' : Requirement} (h : ImportAlike idx idx' q q') (name : Text) :
    (idx.originOf? q name).isSome = (idx'.originOf? q' name).isSome := by
  obtain ⟨himports, m, m', hm, hm', hkeys⟩ := h
  unfold Index.originOf?
  rw [himports]
  cases q'.imports with
  | all => simp only [hm, hm', Option.bind_some, Table.isSome_get?, hkeys]
  | names | mapped => rfl

theorem isSome_findSome?_originOf? (h : List.Forall₂ (ImportAlike idx idx') qs qs') (name : Text) :
    (qs.findSome? fun q => idx.originOf? q name).isSome = (qs'.findSome? fun q => idx'.originOf? q name).isSome := by
  induction h with
  | nil => rfl
  | @cons q q' qs qs' hq _ ih =>
    have hfirst := hq.isSome_originOf? name
    rw [List.findSome?_cons, List.findSome?_cons]
    cases horigin : idx.originOf? q name <;> cases horigin' : idx'.originOf? q' name
    · exact ih
    · simp [horigin, horigin'] at hfirst
    · simp [horigin, horigin'] at hfirst
    · rfl

/-- The origin of a name is known in both indices or in none. -/
theorem Corresponds.isSome_origin? (h : Corresponds idx idx' sum sum') (name : Text) :
    (sum.origin? idx name).isSome = (sum'.origin? idx' name).isSome := by
  unfold Summary.origin?
  rw [h.resembles.defined]
  cases sum'.defined.get? name with
  | some origin => rfl
  | none => exact isSome_findSome?_originOf? h.requires name

theorem target_lt_of_importAlike (h : List.Forall₂ (ImportAlike idx idx') qs qs') :
    ∀ q ∈ qs, q.target < idx.modules.length := by
  induction h with
  | nil => simp
  | cons hq _ ih =>
    obtain ⟨-, m, -, hm, -⟩ := hq
    exact List.forall_mem_cons.mpr ⟨(List.getElem?_eq_some_iff.mp hm).1, ih⟩

/-- A directive that was followed with the modules of the new index can be followed with those of the
old one. -/
theorem Versions.follow (h : r.Versions t t' changed s.index idx')
    (hother : ∀ id < limit, ∀ m', idx'.modules[id]? = some m' → r.moduleName changed ≠ .ok m'.name)
    (hd : d.Follows r t' idx' limit sum' next') (hsum : Corresponds s.index idx' sum sum') :
    ∃ next i, (d.follow (r.needModule t') sum).run s = (.ok next, { s with index := i }) ∧
      r.Versions t t' changed i idx' ∧ s.index.Extends i ∧ Corresponds i idx' next next' := by
  have hneeded {name : Text} {id' : Nat} (hreach : r.Reaches t' idx' name id') (hlt : id' < limit) :
      ∃ id i, (r.needModule t' name).run s = (.ok id, { s with index := i }) ∧ r.Versions t t' changed i idx' ∧
        s.index.Extends i ∧ ∀ imports, ImportAlike i idx' ⟨id, imports⟩ ⟨id', imports⟩ := by
    obtain ⟨id, i, hrun, hi, hg, m, m', hm, hm', hname⟩ := h.need hreach
    have hne := hother id' hlt m' hm'
    rw [← hname] at hne
    have hkeys := (hi.alike (List.mem_of_getElem? hm) (List.mem_of_getElem? hm') hname hne).2
    exact ⟨id, i, hrun, hi, hg, fun imports => ⟨rfl, m, m', hm, hm', hkeys⟩⟩
  have hrun : ∃ next i, (d.follow (r.needModule t') sum).run s = (.ok next, { s with index := i }) ∧
      r.Versions t t' changed i idx' ∧ s.index.Extends i ∧
      List.Forall₂ (ImportAlike i idx') next.requires next'.requires := by
    cases hd with
    | define | provide | provideDefined => exact ⟨_, s.index, rfl, h, .refl _, hsum.requires⟩
    | @provideAs span origin' inner outer horigin' =>
      have hknown := hsum.isSome_origin? inner
      rw [horigin'] at hknown
      obtain ⟨origin, horigin⟩ := Option.isSome_iff_exists.mp hknown
      refine ⟨{ sum with provides := sum.provides.put outer origin }, s.index, ?_, h, .refl _, hsum.requires⟩
      have hask : (LoadM.ask id).run s = (.ok s.index, s) := rfl
      rw [Directive.follow, LoadM.run_bind, hask]
      dsimp only
      rw [horigin]
      rfl
    | @language name id' hreach hlt =>
      obtain ⟨id, i, hneed, hi, hg, -⟩ := hneeded hreach hlt
      refine ⟨{ sum with language := name }, i, ?_, hi, hg, hsum.requires.imp fun _ _ hq => hq.mono hg⟩
      rw [Directive.follow, LoadM.run_bind, hneed]
      rfl
    | @require name imports id' hreach hlt =>
      obtain ⟨id, i, hneed, hi, hg, halike⟩ := hneeded hreach hlt
      refine ⟨{ sum with requires := sum.requires ++ [⟨id, imports⟩] }, i, ?_, hi, hg, ?_⟩
      · rw [Directive.follow, LoadM.run_bind, hneed]
        rfl
      · exact List.rel_append (hsum.requires.imp fun _ _ hq => hq.mono hg) (.cons (halike imports) .nil)
  obtain ⟨next, i, hrun, hi, hg, hrequires⟩ := hrun
  have hadds : r.Adds t' (d.follow (r.needModule t') sum) s fun sum' idx => d.Follows r t' idx idx.modules.length sum sum' :=
    adds_follow (supplies_needModule h.rooted h.leavesRoot s.loading) h.before.sound rfl
      (target_lt_of_importAlike hsum.requires) d
  have hfollowed := hadds.result next (by rw [hrun])
  exact ⟨next, i, hrun, hi, hg, hfollowed.resembles hd hsum.resembles, hrequires⟩

theorem Versions.foldlM_follow {sum'' : Summary} (h : r.Versions t t' changed s.index idx')
    (hother : ∀ id < limit, ∀ m', idx'.modules[id]? = some m' → r.moduleName changed ≠ .ok m'.name)
    (hds : Directive.FollowsAll r t' idx' limit sum' ds sum'') (hsum : Corresponds s.index idx' sum sum') :
    ∃ next i, (ds.foldlM (Directive.follow (r.needModule t')) sum).run s = (.ok next, { s with index := i }) ∧
      r.Versions t t' changed i idx' ∧ s.index.Extends i ∧ Corresponds i idx' next sum'' := by
  induction hds generalizing s sum with
  | nil => exact ⟨sum, s.index, rfl, h, .refl _, hsum⟩
  | cons hd _ ih =>
    obtain ⟨next, i, hrun, hi, hg, hnext⟩ := h.follow hother hd hsum
    obtain ⟨last, i', hrest, hi', hg', hlast⟩ := ih (s := { s with index := i }) hi hnext
    refine ⟨last, i', ?_, hi', hg.trans hg', hlast⟩
    rw [List.foldlM_cons, LoadM.run_bind, hrun]
    exact hrest

/-- A file that could be read into the new index can be read into the old one. -/
theorem Versions.summarize (h : r.Versions t t' changed s.index idx')
    (hother : ∀ id < limit, ∀ m', idx'.modules[id]? = some m' → r.moduleName changed ≠ .ok m'.name)
    (hfile : Directive.FollowsAll r t' idx' limit {} file.directives sum') :
    ∃ sum i, (file.summarize (r.needModule t')).run s = (.ok sum, { s with index := i }) ∧
      r.Versions t t' changed i idx' ∧ s.index.Extends i ∧ sum.Resembles sum' ∧
      Directive.FollowsAll r t' i i.modules.length {} file.directives sum := by
  obtain ⟨sum, i, hrun, hi, hg, hsum⟩ := h.foldlM_follow hother hfile ⟨.refl {}, .nil⟩
  have hsummarize : (file.summarize (r.needModule t')).run s = (.ok sum, { s with index := i }) := by
    have hfold : ((Form.directivesOf false file.forms).foldlM (Directive.follow (r.needModule t')) {}).run s = _ := hrun
    rw [SourceFile.summarize, LoadM.run_adapt, hfold]
    rfl
  have hfollowed := (adds_summarize (supplies_needModule h.rooted h.leavesRoot s.loading) h.before.sound rfl file).result
    sum (by rw [hsummarize])
  rw [hsummarize] at hfollowed
  exact ⟨sum, i, hsummarize, hi, hg, hsum.resembles, hfollowed⟩

end

end Repository

end FusionKit
