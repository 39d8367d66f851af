import FusionKit.Proofs.Basics
import FusionKit.Proofs.Rewriting
import FusionKit.Watch

/-!
# Folders that hold a file

A walk through a configured folder finds files, and the settings tell for the path of a file from the
package which folder it belongs to. If the path of the folder leads down from the package, the two
agree: what the walk finds belongs to some folder.
-/
set_option autoImplicit false

namespace FusionKit

theorem Text.joinWith_append {separator : Text} {ps qs : List Text} (hps : ps ≠ []) (hqs : qs ≠ []) :
    joinWith separator (ps ++ qs) = joinWith separator ps ++ separator ++ joinWith separator qs := by
  induction ps with
  | nil => exact absurd rfl hps
  | cons p ps ih =>
    cases ps with
    | nil =>
      obtain ⟨q, qs, rfl⟩ := List.exists_cons_of_ne_nil hqs
      rfl
    | cons p' ps =>
      rw [List.cons_append, List.cons_append, joinWith, ← List.cons_append, ih (List.cons_ne_nil _ _), joinWith]
      simp only [List.append_assoc]

namespace Path

variable {p q first : Text} {ps done rest : List Text}

/-! ## Paths that lead down -/

theorem up_mem_walk (h : up ∈ done) (part : Text) : up ∈ walk false done part := by
  unfold walk
  split
  · cases done with
    | nil => exact absurd h List.not_mem_nil
    | cons last rest =>
      dsimp only
      split
      · exact List.mem_cons_self
      · rename_i hlast
        exact (List.mem_cons.mp h).resolve_left fun heq => hlast (beq_iff_eq.mpr heq.symm)
  · exact List.mem_cons_of_mem _ h

theorem up_mem_foldl_walk (h : up ∈ done) (ps : List Text) : up ∈ ps.foldl (walk false) done := by
  induction ps generalizing done with
  | nil => exact h
  | cons part ps ih => exact ih (up_mem_walk h part)

/-- A relative path that climbs nowhere leads to the same names from everywhere. -/
theorem foldl_walk_append (base : List Text) (h : up ∉ ps.foldl (walk false) done) :
    ps.foldl (walk true) (done ++ base) = ps.foldl (walk false) done ++ base := by
  induction ps generalizing done with
  | nil => rfl
  | cons part ps ih =>
    rw [List.foldl_cons] at h
    have hstep : walk true (done ++ base) part = walk false done part ++ base := by
      have hnext : up ∉ walk false done part := fun hmem => h (up_mem_foldl_walk hmem ps)
      have hdone : up ∉ done := fun hmem => hnext (up_mem_walk hmem part)
      unfold walk at hnext ⊢
      by_cases hpart : (part == up) = true
      · rw [if_pos hpart] at hnext
        rw [if_pos hpart, if_pos hpart]
        cases done with
        | nil => exact absurd List.mem_cons_self hnext
        | cons last rest =>
          have hlast : ¬ (last == up) = true := fun heq => hdone (beq_iff_eq.mp heq ▸ List.mem_cons_self)
          simp only [List.cons_append, if_neg hlast]
      · rw [if_neg hpart, if_neg hpart, List.cons_append]
    rw [List.foldl_cons, List.foldl_cons, hstep, ih h]

/-- A path continued by another is walked along the parts of the one and then those of the other. -/
theorem resolve_join_eq (hp : isAbsolute p = true) (q : Text) :
    resolve (join p q) = ((parts q).foldl (walk true) (resolve p).reverse).reverse := by
  have hfirst : (resolve p).reverse = (parts p).foldl (walk true) [] := by rw [resolve, List.reverse_reverse, hp]
  by_cases hne : q = []
  · subst hne
    have hjoin : join p [] = clean p := if_neg (by simpa using ne_nil_of_isAbsolute hp)
    have hparts : parts [] = [] := rfl
    rw [hjoin, resolve_clean, hparts, List.foldl_nil, List.reverse_reverse]
  · rw [join_of_ne_nil (ne_nil_of_isAbsolute hp) hne, resolve_clean, resolve, isAbsolute_append hp, parts_append,
      List.foldl_append, hfirst]

theorem resolve_join (hp : isAbsolute p = true) (hq : isAbsolute q = false) (hup : up ∉ resolve q) :
    resolve (join p q) = resolve p ++ resolve q := by
  have hclimb : up ∉ (parts q).foldl (walk false) [] := by simpa [resolve, hq] using hup
  have hwalk := foldl_walk_append (resolve p).reverse hclimb
  rw [List.nil_append] at hwalk
  rw [resolve_join_eq hp, hwalk, List.reverse_append, List.reverse_reverse, resolve, resolve, hq]

/-- Parts without `..` are those of the path they make. -/
theorem resolve_ofParts {rooted : Bool} (hparts : ∀ part ∈ ps, IsPart part) (hup : up ∉ ps) :
    resolve (ofParts rooted ps) = ps := by
  rw [resolve, parts_ofParts hparts, foldl_walk hup, List.append_nil, List.reverse_reverse]

theorem diverge_append (ps qs : List Text) : diverge ps (ps ++ qs) = ([], qs) := by
  induction ps with
  | nil => cases qs <;> rfl
  | cons p ps ih => rw [List.cons_append, diverge, if_pos (beq_self_eq_true p), ih]

theorem relative?_of_resolve (hp : isAbsolute p = true) (hq : isAbsolute q = true) (h : resolve q = resolve p ++ ps) :
    relative? p q = some (ofParts false ps) := by
  have hboth : ¬ (isAbsolute p != isAbsolute q) = true := by simp [hp, hq]
  rw [relative?, if_neg hboth, h, diverge_append]
  rfl

theorem exists_of_diverge (ps qs : List Text) :
    ∃ common, ps = common ++ (diverge ps qs).1 ∧ qs = common ++ (diverge ps qs).2 := by
  induction ps generalizing qs with
  | nil => exact ⟨[], by cases qs <;> simp [diverge]⟩
  | cons p ps ih =>
    cases qs with
    | nil => exact ⟨[], by simp [diverge]⟩
    | cons q qs =>
      rw [diverge]
      split
      · rename_i heq
        obtain ⟨common, hps, hqs⟩ := ih qs
        refine ⟨p :: common, congrArg (p :: ·) hps, ?_⟩
        rw [beq_iff_eq.mp heq]
        exact congrArg (q :: ·) hqs
      · exact ⟨[], rfl, rfl⟩

/-- As many `..` as there are names lead back. -/
theorem foldl_walk_up (base : List Text) (h : up ∉ ps) : (List.replicate ps.length up).foldl (walk true) (ps ++ base) = base := by
  induction ps with
  | nil => rfl
  | cons p ps ih =>
    rw [List.mem_cons, not_or] at h
    have hlast : ¬ (p == up) = true := fun heq => h.1 (beq_iff_eq.mp heq).symm
    have hback : walk true (p :: ps ++ base) up = ps ++ base := by
      rw [List.cons_append, walk, if_pos (beq_self_eq_true up), if_neg hlast]
    rw [List.length_cons, List.replicate_succ, List.foldl_cons, hback, ih h.2]

/-- The path that leads to a target leads there. -/
theorem resolve_join_relative? {x : Text} (hp : isAbsolute p = true) (hq : isAbsolute q = true)
    (h : relative? p q = some x) : resolve (join p x) = resolve q := by
  unfold relative? at h
  rw [if_neg (by simp [hp, hq])] at h
  obtain ⟨common, hfrom, hto⟩ := exists_of_diverge (resolve p) (resolve q)
  revert h hfrom hto
  rcases diverge (resolve p) (resolve q) with ⟨above, below⟩
  intro h hfrom hto
  dsimp only at h hfrom hto
  have habove : up ∉ above := fun hmem => up_not_mem_resolve hp (hfrom ▸ List.mem_append_right _ hmem)
  have hbelow : up ∉ below := fun hmem => up_not_mem_resolve hq (hto ▸ List.mem_append_right _ hmem)
  split at h
  · cases h
  · obtain rfl := Option.some.inj h
    have hparts : ∀ part ∈ above.map (fun _ => up) ++ below, IsPart part := by
      intro part hpart
      rcases List.mem_append.mp hpart with hpart | hpart
      · obtain ⟨_, -, rfl⟩ := List.mem_map.mp hpart
        exact ⟨by decide, by decide, by decide⟩
      · exact isPart_of_mem_resolve (p := q) (hto ▸ List.mem_append_right _ hpart)
    have hback := foldl_walk_up common.reverse (List.mem_reverse.not.mpr habove)
    rw [List.length_reverse] at hback
    rw [resolve_join_eq hp, parts_ofParts hparts, List.foldl_append, List.map_const', hfrom, List.reverse_append, hback,
      foldl_walk hbelow, List.reverse_append, List.reverse_reverse, List.reverse_reverse, hto]

/-- Two targets with the same path from somewhere are the same. -/
theorem eq_of_relative? {q' x : Text} (hp : isAbsolute p = true) (hq : isAbsolute q = true) (hclean : clean q = q)
    (hq' : isAbsolute q' = true) (hclean' : clean q' = q') (h : relative? p q = some x)
    (h' : relative? p q' = some x) : q = q' := by
  have hresolve : resolve q = resolve q' :=
    (resolve_join_relative? hp hq h).symm.trans (resolve_join_relative? hp hq' h')
  rw [← hclean, ← hclean', clean, clean, hq, hq', hresolve]

/-- Whether a path starts with two dots is seen from its first part. -/
theorem up_isPrefixOf_ofParts (hfirst : IsPart first) :
    up.isPrefixOf (ofParts false (first :: rest)) = up.isPrefixOf first := by
  obtain ⟨hne, hhere, -⟩ := hfirst
  have hjoin : ∃ more, ofParts false (first :: rest) = first ++ more := by
    cases rest with
    | nil => exact ⟨[], (List.append_nil _).symm⟩
    | cons next rest => exact ⟨_, List.append_assoc _ _ _⟩
  obtain ⟨more, hmore⟩ := hjoin
  have hdots : up = [byte '.', byte '.'] := by decide
  have hdot : here = [byte '.'] := by decide
  rw [hmore, hdots]
  match first, hne with
  | [x], _ =>
    have hx : (byte '.' == x) = false := beq_eq_false_iff_ne.mpr fun heq => hhere (by rw [hdot, heq])
    simp [List.isPrefixOf, hx]
  | x :: y :: first, _ => simp [List.isPrefixOf]

/-- A path made of parts does not end in a slash. -/
theorem trimEnd_ofParts (hparts : ∀ part ∈ ps, IsPart part) (hne : ps ≠ []) :
    Text.trimEnd [slash] (ofParts false ps) = ofParts false ps := by
  refine if_neg fun hslash => ?_
  obtain ⟨front, last, rfl⟩ : ∃ front last, ps = front ++ [last] :=
    ⟨_, _, (List.dropLast_append_getLast hne).symm⟩
  obtain ⟨hlast, -, hnone⟩ := hparts last (List.mem_append_right _ List.mem_cons_self)
  have hend : last <:+ ofParts false (front ++ [last]) := by
    rw [ofParts, if_neg Bool.false_ne_true, if_neg (by simp)]
    exact Text.suffix_joinWith _ _ _
  have hlength : [slash].length ≤ last.length := List.length_pos_iff.mpr hlast
  have hin := List.suffix_of_suffix_length_le (List.isSuffixOf_iff_suffix.mp hslash) hend hlength
  exact hnone (hin.subset List.mem_cons_self)

end Path

/-! ## Folders -/

/-- The names in a tree are names: none is empty, `.` or `..`, and none holds a slash. -/
def FileTree.Proper (t : FileTree) : Prop := ∀ entry ∈ t.entries, ∀ part ∈ entry.1, Path.IsPart part ∧ part ≠ Path.up

namespace Folder

/-- The path of a folder leads down from the package, to a name that does not start with two dots. -/
structure Inner (f : Folder) : Prop where
  relative : Path.isAbsolute f.path = false
  below : ∃ first rest, Path.resolve f.path = first :: rest ∧ Path.up.isPrefixOf first = false

/-- Whether a cleaned path from the package lies in a folder, by its text. -/
def holds (f : Folder) (inner : Text) : Bool := Settings.covers (Text.trimEnd [Path.slash] (Path.clean f.path)) inner

variable {f : Folder}

theorem Inner.up_not_mem (h : f.Inner) : Path.up ∉ Path.resolve f.path := by
  obtain ⟨first, rest, heq, hfirst⟩ := h.below
  obtain ⟨inner, n, hdone, hinner, -⟩ := Path.climbsFirst_resolve f.path
  have hpath : Path.resolve f.path = List.replicate n Path.up ++ inner.reverse := by
    rw [← List.reverse_reverse (Path.resolve f.path), hdone, List.reverse_append, List.reverse_replicate]
  cases n with
  | zero => simpa [hpath] using hinner
  | succ n =>
    rw [hpath, List.replicate_succ, List.cons_append] at heq
    rw [← (List.cons.inj heq).1] at hfirst
    exact absurd hfirst (by decide)

theorem Inner.ne_nil (h : f.Inner) : Path.resolve f.path ≠ [] := by
  obtain ⟨first, rest, heq, -⟩ := h.below
  rw [heq]
  exact List.cons_ne_nil _ _

end Folder

/-- A file that a walk through an inner folder finds, by its path from the package. -/
structure Repository.Holds (r : Repository) (f : Folder) (path inner : Text) : Prop where
  absolute : Path.isAbsolute path = true
  clean : Path.clean path = path
  relative : Path.relative? r.packagePath path = some inner
  innerRelative : Path.isAbsolute inner = false
  innerClean : Path.clean inner = inner
  notUp : Path.up.isPrefixOf inner = false
  holds : f.holds inner = true

theorem Repository.Rooted.exists_holds {r : Repository} {t : FileTree} {f : Folder} {path : Text} (hr : r.Rooted)
    (ht : t.Proper) (hf : f.Inner) (h : t.Finds (Path.join r.packagePath f.path) path) :
    ∃ inner, r.Holds f path inner := by
  obtain ⟨base, ns, content, -, hne, hentry, -, -, rfl⟩ := FileTree.finds_iff.mp h
  have hns : ∀ part ∈ ns, Path.IsPart part ∧ part ≠ Path.up :=
    fun part hpart => ht _ hentry part (List.mem_append_right _ hpart)
  have hup : Path.up ∉ ns := fun hmem => (hns _ hmem).2 rfl
  have hbelow : Text.joinWith [Path.slash] ns = Path.ofParts false ns := by
    rw [Path.ofParts, if_neg Bool.false_ne_true, if_neg (by simpa using hne)]
  obtain ⟨dir, hdir, hdirEq⟩ := Path.join_eq_clean hr.package f.path
  have hdirAbs : Path.isAbsolute (Path.join r.packagePath f.path) = true := by
    rw [hdirEq, Path.isAbsolute_clean, hdir]
  obtain ⟨x, hx, hpath⟩ := Path.join_eq_clean hdirAbs (Text.joinWith [Path.slash] ns)
  have hparts : ∀ part ∈ Path.resolve f.path ++ ns, Path.IsPart part := fun part hpart =>
    (List.mem_append.mp hpart).elim Path.isPart_of_mem_resolve fun hpart => (hns part hpart).1
  have hclimb : Path.up ∉ Path.resolve f.path ++ ns := fun hmem => (List.mem_append.mp hmem).elim hf.up_not_mem hup
  have hresolve : Path.resolve (FileTree.pathBelow (Path.join r.packagePath f.path) ns) =
      Path.resolve r.packagePath ++ (Path.resolve f.path ++ ns) := by
    have hbelowAbs : Path.isAbsolute (Path.ofParts false ns) = false :=
      Path.isAbsolute_ofParts fun part hpart => (hns part hpart).1
    have hbelowResolve : Path.resolve (Path.ofParts false ns) = ns :=
      Path.resolve_ofParts (fun part hpart => (hns part hpart).1) hup
    rw [FileTree.pathBelow, hbelow, Path.resolve_join hdirAbs hbelowAbs (by rwa [hbelowResolve]), hbelowResolve,
      Path.resolve_join hr.package hf.relative hf.up_not_mem, List.append_assoc]
  have habs : Path.isAbsolute (FileTree.pathBelow (Path.join r.packagePath f.path) ns) = true := by
    rw [FileTree.pathBelow, hpath, Path.isAbsolute_clean, hx]
  have hclean : Path.clean (Path.ofParts false (Path.resolve f.path ++ ns)) =
      Path.ofParts false (Path.resolve f.path ++ ns) := by
    rw [Path.clean, Path.isAbsolute_ofParts hparts, Path.resolve_ofParts hparts hclimb]
  refine ⟨Path.ofParts false (Path.resolve f.path ++ ns), habs, ?_, ?_, Path.isAbsolute_ofParts hparts, hclean, ?_, ?_⟩
  · rw [FileTree.pathBelow, hpath, Path.clean_clean]
  · exact Path.relative?_of_resolve hr.package habs hresolve
  · obtain ⟨first, rest, heq, hfirst⟩ := hf.below
    rw [heq, List.cons_append, Path.up_isPrefixOf_ofParts, hfirst]
    exact Path.isPart_of_mem_resolve (heq ▸ List.mem_cons_self)
  · have hroot : Text.trimEnd [Path.slash] (Path.clean f.path) = Text.joinWith [Path.slash] (Path.resolve f.path) := by
      rw [Path.clean, hf.relative, Path.trimEnd_ofParts (fun _ => Path.isPart_of_mem_resolve) hf.ne_nil, Path.ofParts,
        if_neg Bool.false_ne_true, if_neg (by simpa using hf.ne_nil)]
    have hinner : Path.ofParts false (Path.resolve f.path ++ ns) =
        Text.joinWith [Path.slash] (Path.resolve f.path) ++ [Path.slash] ++ Text.joinWith [Path.slash] ns := by
      rw [Path.ofParts, if_neg Bool.false_ne_true, if_neg (by simp [hne]), Text.joinWith_append hf.ne_nil hne]
    rw [Folder.holds, Settings.covers, hroot, hinner]
    exact Bool.or_eq_true_iff.mpr (.inr (List.isPrefixOf_iff_prefix.mpr (List.prefix_append _ _)))

section

variable {settings : Settings} {r : Repository} {t : FileTree} {f : Folder} {path inner : Text}

/-- A path that a folder holds belongs to one that holds it. -/
theorem Settings.exists_folderOf? (hf : f ∈ settings.folders) (hclean : Path.clean inner = inner)
    (hholds : f.holds inner = true) :
    ∃ folder ∈ settings.folders, settings.folderOf? inner = some folder ∧ folder.holds inner = true := by
  unfold folderOf?
  dsimp only
  rw [hclean]
  refine exists_of_foldl_choice (fun best f => ?_) ⟨f, hf, hholds⟩
  cases hcovers : f.holds inner with
  | false =>
    have hskip : (!covers (Text.trimEnd [Path.slash] (Path.clean f.path)) inner) = true := by
      rw [← Folder.holds, hcovers]
      rfl
    exact .inl ⟨if_pos hskip, fun h => absurd h Bool.false_ne_true⟩
  | true =>
    have htake : ¬ (!covers (Text.trimEnd [Path.slash] (Path.clean f.path)) inner) = true := by
      rw [← Folder.holds, hcovers]
      decide
    rw [if_neg htake]
    cases best with
    | none => exact .inr ⟨rfl, rfl⟩
    | some b =>
      by_cases hlonger : (Path.clean b.path).length < (Text.trimEnd [Path.slash] (Path.clean f.path)).length
      · exact .inr ⟨rfl, if_pos hlonger⟩
      · exact .inl ⟨if_neg hlonger, fun _ => rfl⟩

theorem Repository.Holds.sourcePath? (h : r.Holds f (t.absolute path) inner) (hpath : FileTree.IsSource path) :
    r.sourcePath? t path = some inner := by
  rw [Repository.sourcePath?, if_pos (List.isSuffixOf_iff_suffix.mpr hpath), h.relative]
  simp [h.notUp]

theorem Repository.Holds.shown (h : r.Holds f path inner) : r.shown path = inner := by
  have hnot : ¬ Path.up <+: inner := fun hup => by
    have hstarts := h.notUp
    rw [List.isPrefixOf_iff_prefix.mpr hup] at hstarts
    cases hstarts
  have hwithin : Path.isWithin r.packagePath path = true := by
    rw [Path.isWithin, h.relative]
    have hne : (inner == Path.up) = false := beq_eq_false_iff_ne.mpr fun heq => hnot (heq ▸ List.prefix_refl _)
    have hbelow : (utf8 "../").isPrefixOf inner = false := by
      rw [Bool.eq_false_iff]
      intro hstarts
      have hup : Path.up <+: utf8 "../" := by decide
      exact hnot (hup.trans (List.isPrefixOf_iff_prefix.mp hstarts))
    simp [hne, hbelow]
  rw [Repository.shown, if_pos hwithin, h.relative, Option.getD_some]

/-- No other file is shown by the same path. -/
theorem Repository.Holds.eq_of_shown (h : r.Holds f path inner) (hr : r.Rooted) {other : Text}
    (habs : Path.isAbsolute other = true) (hclean : Path.clean other = other) (hshown : r.shown other = inner) :
    other = path := by
  unfold Repository.shown at hshown
  split at hshown
  · rename_i hwithin
    cases hother : Path.relative? r.packagePath other with
    | none =>
      rw [Path.isWithin, hother] at hwithin
      cases hwithin
    | some x =>
      rw [hother, Option.getD_some] at hshown
      exact Path.eq_of_relative? hr.package habs hclean h.absolute h.clean (hshown ▸ hother) h.relative
  · have hrelative := h.innerRelative
    rw [← hshown, habs] at hrelative
    cases hrelative

end

end FusionKit
