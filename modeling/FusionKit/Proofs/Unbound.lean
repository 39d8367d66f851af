import Mathlib.Data.List.Nodup
import FusionKit.Proofs.Bindings
import FusionKit.Proofs.Symbols

/-!
# Reports of unbound names

A symbol is reported as unbound only if nothing binds its name: no module of the languages that its
resource starts from, no further binding, and no definition that a walk comes to in any file of the
resource, wherever that stands. For the first walk over the files collects all definitions before the
second one reports anything.

The walk comes to each symbol once at most, so none is reported twice.
-/
set_option autoImplicit false

namespace FusionKit

/-! ## Languages -/

namespace Index

variable {idx : Index} {m : Module} {name : Text} {n : Nat}

/-- The module that is so many languages away from a name: the one with that name, the module of its
language, the module of the language of this, and so on up to the root. -/
def language? (idx : Index) : Nat → Text → Option Module
  | 0, name => idx.module? name
  | n + 1, name =>
    (idx.module? name).bind fun m =>
      if name = rootModule.name || m.language.isEmpty then none else idx.language? n m.language

/-- Whether a module or one of its languages provides a name. -/
def Gives (idx : Index) (origin name : Text) : Prop :=
  ∃ n m, idx.language? n origin = some m ∧ name ∈ m.provides.names

/-- All modules on the way through the languages are found, except those beyond a module that was seen
before. From there it is shorter, so the way may go through it again. -/
theorem mem_languagesFrom (seen : List Text) (h : idx.language? n name = some m) :
    m ∈ idx.languagesFrom seen name ∨ ∃ earlier ∈ seen, ∃ k ≤ n, idx.language? k earlier = some m := by
  induction n using Nat.strong_induction_on generalizing seen name with
  | _ n ih =>
    by_cases hseen : name ∈ seen
    · exact .inr ⟨name, hseen, n, Nat.le_refl n, h⟩
    cases n with
    | zero =>
      have hfirst : idx.module? name = some m := h
      rw [languagesFrom_eq, if_neg hseen, hfirst, Option.elim_some]
      left
      split
      · exact List.mem_singleton_self m
      · exact List.mem_cons_self
    | succ n =>
      obtain ⟨own, hown, hnext⟩ := Option.bind_eq_some_iff.mp h
      split at hnext
      · contradiction
      rename_i hmore
      have hfrom : idx.languagesFrom seen name = own :: idx.languagesFrom (name :: seen) own.language := by
        rw [languagesFrom_eq, if_neg hseen, hown, Option.elim_some, if_neg hmore]
      rcases ih n (Nat.lt_succ_self n) (name :: seen) hnext with hfound | ⟨earlier, hearlier, k, hk, hm⟩
      · rw [hfrom]
        exact .inl (List.mem_cons_of_mem own hfound)
      rcases List.mem_cons.mp hearlier with rfl | hearlier
      · -- the way leads in a circle
        rcases ih k (by omega) seen hm with hfound | ⟨other, hother, i, hi, hm⟩
        · exact .inl hfound
        · exact .inr ⟨other, hother, i, by omega, hm⟩
      · exact .inr ⟨earlier, hearlier, k, by omega, hm⟩

theorem Gives.mem_namesOf {origin : Text} (h : idx.Gives origin name) : name ∈ idx.namesOf origin := by
  obtain ⟨n, m, hm, hname⟩ := h
  rcases mem_languagesFrom [] hm with hfound | ⟨earlier, hearlier, -⟩
  · exact List.mem_flatMap.mpr ⟨m, hfound, hname⟩
  · contradiction

end Index

/-! ## Reports -/

/-- The symbol that a problem reports as unbound, with its file and its place. -/
def Problem.use? (p : Problem) : Option (SourceFile × Span × Text) :=
  p.complaint.unbound?.map fun written => (p.file, p.span, written)

/-- The symbols of a file with their places. -/
def SourceFile.symbols (f : SourceFile) : List (SourceFile × Span × Text) := (Node.symbolsOf f.nodes).map (f, ·)

/-- Reports of unbound names in some files, where other names are bound: each is about a symbol of a
file, which stands in the source, and nothing binds its name; no symbol is reported twice; and no name
is reported that a definition defines in any of the files. -/
structure ReportsUnbound (files : List SourceFile) (bound : Text → Prop) (ps : List Problem) : Prop where
  genuine : ∀ p ∈ ps, ∀ written, p.complaint.unbound? = some written → p.file ∈ files ∧
    (∃ n ∈ p.file.nodes, ∃ m, n.Below m ∧ m.kind = .symbol ∧ m.span = p.span ∧ m.value = written) ∧
    (p.file.Parsed → p.span.text? p.file.source = some written) ∧ ¬ bound written.unquoted
  once : (ps.filterMap Problem.use?).Subperm (files.flatMap SourceFile.symbols)
  apart : files.Nodup → (∀ f ∈ files, f.Parsed) →
    ((ps.filterMap Problem.use?).map fun use => (use.1, use.2.1)).Nodup
  undefined : ∀ f ∈ files, ∀ g ∈ f.visits, ∀ name, g.defined? = some name →
    ∀ p ∈ ps, ∀ written, p.complaint.unbound? = some written → written.unquoted ≠ name

namespace Index

variable {idx : Index} {s : Scope} {f : SourceFile} {files : List SourceFile} {name : Text}

/-- A definition that a walk comes to binds its name. -/
theorem binds_of_defined {g : Form} (hg : g ∈ f.visits) (hname : g.defined? = some name) : idx.Binds f name := by
  obtain ⟨e, he, hfits⟩ := idx.exists_fits f
  have hglobal : name ∈ g.globals := List.mem_append_left _ (by rw [hname]; exact List.mem_singleton_self name)
  exact ⟨e, he, List.mem_append_right _ ((hfits.everywhere name).mpr (List.mem_flatMap.mpr ⟨g, hg, hglobal⟩))⟩

/-- A symbol of a file that is reported is not bound. -/
theorem unbound_of_mem_problemsOf {p : Problem} {written : Text} (hp : p ∈ idx.problemsOf s f)
    (hwritten : p.complaint.unbound? = some written) : p.file = f ∧ s.contains written.unquoted = false := by
  obtain ⟨found, -, hfound⟩ := idx.exists_found f
  rw [hfound] at hp
  obtain ⟨finding, hmem, rfl⟩ := List.mem_map.mp hp
  have hstands := (List.mem_filter.mp hmem).2
  rw [Finding.stands, hwritten, Option.all_some] at hstands
  exact ⟨rfl, by simpa using hstands⟩

/-- The symbols of a file that are reported are symbols of its tree. -/
theorem uses_problemsOf (idx : Index) (s : Scope) (f : SourceFile) :
    ((idx.problemsOf s f).filterMap Problem.use?).Sublist f.symbols := by
  obtain ⟨found, huses, hfound⟩ := idx.exists_found f
  have huse : (idx.problemsOf s f).filterMap Problem.use? =
      ((found.filter (·.stands s.contains)).filterMap Finding.use?).map (f, ·) := by
    rw [hfound, List.filterMap_map, List.map_filterMap]
    refine List.filterMap_congr fun finding _ => ?_
    simp only [Function.comp_apply, Problem.use?, Finding.use?, Option.map_map]
    rfl
  rw [huse]
  exact (((List.filter_sublist.filterMap _).trans huses).trans f.uses_sublist).map _

theorem mem_checkFiles {names : List Text} {p : Problem} :
    p ∈ idx.checkFiles names files ↔ ∃ f ∈ files, p ∈ idx.problemsOf (idx.walkFiles (.ofNames names) files) f := by
  rw [checkFiles, Problem.sorted, List.mem_mergeSort,
    problemsIn_of_settled (idx.settled_walkFiles _ files) fun _ => rfl, List.mem_flatMap]

/-- The symbols that are reported in files are symbols of their trees. -/
theorem uses_checkFiles (idx : Index) (names : List Text) (files : List SourceFile) :
    ((idx.checkFiles names files).filterMap Problem.use?).Subperm (files.flatMap SourceFile.symbols) := by
  have hsorted (ps : List Problem) : (Problem.sorted ps).Perm ps := List.mergeSort_perm ps _
  rw [checkFiles, problemsIn_of_settled (idx.settled_walkFiles _ files) fun _ => rfl]
  refine ((hsorted _).filterMap _).subperm.trans ?_
  rw [List.filterMap_flatMap]
  exact (List.Sublist.flatMap_right _ fun f _ => idx.uses_problemsOf _ f).subperm

/-- Different symbols of parsed files have different places. -/
theorem places_nodup (hfiles : files.Nodup) (hparsed : ∀ f ∈ files, f.Parsed) :
    ((files.flatMap SourceFile.symbols).map fun use => (use.1, use.2.1)).Nodup := by
  have hplaces (f : SourceFile) : (f.symbols.map fun use => (use.1, use.2.1)) =
      ((Node.symbolsOf f.nodes).map Prod.fst).map (f, ·) := by
    rw [SourceFile.symbols, List.map_map, List.map_map]
    rfl
  simp only [List.map_flatMap, hplaces, List.nodup_flatMap]
  refine ⟨fun f hf => ?_, hfiles.imp fun {f f'} hne place hplace hplace' => ?_⟩
  · exact (hparsed f hf).symbols.1.map fun _ _ heq => (Prod.mk.inj heq).2
  · obtain ⟨span, -, rfl⟩ := List.mem_map.mp hplace
    obtain ⟨span', -, heq⟩ := List.mem_map.mp hplace'
    exact hne (Prod.mk.inj heq).1.symm

/-- What is reported in files that share a scope with some names. -/
theorem reportsUnbound_checkFiles (idx : Index) {names : List Text} {bound : Text → Prop}
    (hbound : ∀ name, bound name → name ∈ names) (files : List SourceFile) :
    ReportsUnbound files bound (idx.checkFiles names files) where
  genuine p hp written hwritten := by
    obtain ⟨f, hf, hp⟩ := mem_checkFiles.mp hp
    obtain ⟨rfl, hfree⟩ := unbound_of_mem_problemsOf hp hwritten
    have huse : (p.file, p.span, written) ∈ p.file.symbols :=
      (idx.uses_problemsOf _ p.file).subset (List.mem_filterMap.mpr ⟨p, hp, by rw [Problem.use?, hwritten]; rfl⟩)
    obtain ⟨symbol, hsymbol, heq⟩ := List.mem_map.mp huse
    obtain rfl : symbol = (p.span, written) := (Prod.mk.inj heq).2
    refine ⟨hf, Node.below_of_mem_symbolsOf _ _ hsymbol, fun hparsed => hparsed.symbols.2 _ hsymbol, fun hname => ?_⟩
    have hcontains := (idx.contains_walkFiles (.ofNames names) files written.unquoted).mpr
      (.inl (by simpa [Scope.contains_iff, Scope.ofNames] using hbound _ hname))
    rw [hfree] at hcontains
    contradiction
  once := idx.uses_checkFiles names files
  apart hfiles hparsed := by
    obtain ⟨reported, hperm, hsublist⟩ := idx.uses_checkFiles names files
    exact (hperm.map _).nodup ((places_nodup hfiles hparsed).sublist (hsublist.map _))
  undefined f hf g hg name hname p hp written hwritten hsame := by
    obtain ⟨other, hother, hp⟩ := mem_checkFiles.mp hp
    have hfree := (unbound_of_mem_problemsOf hp hwritten).2
    rw [hsame, idx.settled_walkFiles _ files f hf name (binds_of_defined hg hname)] at hfree
    contradiction

/-- The reports of unbound names of a module and of a script. -/
theorem reports_unbound (idx : Index) :
    (∀ (c : Complaint) (written : Text),
      c.unbound? = some written ↔ c.message = utf8 "Unbound identifier " ++ written) ∧
    (∀ m : Module, ReportsUnbound [m.file] (idx.Gives m.name) (idx.checkModule m)) ∧
    ∀ b : Script, ReportsUnbound b.files
      (fun name => (∃ top ∈ b.topLevelModules, idx.Gives top name) ∨ name ∈ b.globalBindings) (idx.checkScript b) := by
  refine ⟨fun _ _ => Complaint.unbound?_eq_some_iff, fun m => ?_, fun b => ?_⟩
  · exact idx.reportsUnbound_checkFiles (fun _ hname => hname.mem_namesOf) [m.file]
  · refine idx.reportsUnbound_checkFiles (fun name hname => ?_) b.files
    rcases hname with ⟨top, htop, hname⟩ | hname
    · exact List.mem_append_left _ (List.mem_flatMap.mpr ⟨top, htop, hname.mem_namesOf⟩)
    · exact List.mem_append_right _ hname

end Index

end FusionKit
