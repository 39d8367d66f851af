import FusionKit.Proofs.Basics
import FusionKit.Proofs.Paths

/-!
# A tree in which a file was written again

Writing a file that is there changes what is read from it, and nothing else: every path leads to the
same names, every walk finds the same files, and all other files read as before.
-/
set_option autoImplicit false

namespace FusionKit

namespace FileTree

/-! ## Files that a walk finds -/

variable {t : FileTree} {names : List Text} {old dir path : Text}

theorem mem_below {ns : List Text} {e : Entry} :
    (ns, e) ∈ t.below names ↔ ns ≠ [] ∧ (names ++ ns, e) ∈ t.entries := by
  simp only [below, List.mem_mergeSort, List.mem_filterMap]
  constructor
  · rintro ⟨⟨full, e'⟩, hfull, hkept⟩
    dsimp only at hkept
    split at hkept
    · rename_i hstarts
      obtain ⟨hstarts, hne⟩ := Bool.and_eq_true_iff.mp hstarts
      obtain ⟨rest, rfl⟩ := List.isPrefixOf_iff_prefix.mp hstarts
      obtain ⟨hns, rfl⟩ := Prod.mk.inj (Option.some.inj hkept)
      rw [List.drop_left] at hns
      subst hns
      refine ⟨fun heq => bne_iff_ne.mp hne ?_, hfull⟩
      rw [heq, List.append_nil]
    · cases hkept
  · rintro ⟨hne, hfull⟩
    refine ⟨_, hfull, ?_⟩
    have hstarts : names.isPrefixOf (names ++ ns) = true :=
      List.isPrefixOf_iff_prefix.mpr (List.prefix_append names ns)
    have hlonger : (names ++ ns != names) = true := bne_iff_ne.mpr fun heq => hne (List.append_right_eq_self.mp heq)
    dsimp only
    rw [if_pos (Bool.and_eq_true_iff.mpr ⟨hstarts, hlonger⟩), List.drop_left]

/-- A walk finds a file at some names below the folder, unless it is in a hidden folder. -/
theorem finds_iff : t.Finds dir path ↔ ∃ base ns content, t.find dir = .ok (base, .folder) ∧ ns ≠ [] ∧
    (base ++ ns, .file content) ∈ t.entries ∧ ns.dropLast.any isHidden = false ∧
    sourceEnding.isSuffixOf (ns.getLastD []) = true ∧ path = pathBelow dir ns := by
  unfold Finds isFolder sources filesEnding filesBelow
  rcases hfind : t.find dir with f | ⟨base, content | _⟩
  · simp
  · simp
  · simp only [Except.mapError, true_and, Except.ok.injEq, exists_eq_left', List.mem_filterMap, Prod.exists, mem_below,
      Prod.mk.injEq, and_true]
    constructor
    · rintro ⟨ns, e, ⟨hne, hentry⟩, hkept⟩
      cases e with
      | folder => cases hkept
      | file content =>
        dsimp only at hkept
        split at hkept
        · rename_i hshown
          obtain ⟨hshown, hending⟩ := Bool.and_eq_true_iff.mp hshown
          exact ⟨base, ns, content, rfl, hne, hentry, by simpa using hshown, hending, (Option.some.inj hkept).symm⟩
        · cases hkept
    · rintro ⟨_, ns, content, rfl, hne, hentry, hshown, hending, rfl⟩
      refine ⟨ns, .file content, ⟨hne, hentry⟩, ?_⟩
      dsimp only
      rw [if_pos (by rw [hshown, hending]; rfl)]

/-! ## Writing a file again -/

/-- What stands at some names after a file was written. -/
def rewritten (names : List Text) (content : Text) (at_ : List Text × Entry) : List Text × Entry :=
  (at_.1, if at_.1 = names then .file content else at_.2)

section

variable (content : Text) (hold : t.entry? names = some (.file old))
include hold

theorem names_ne_nil : names ≠ [] := by
  rintro rfl
  cases hold

theorem entry?_put (ns : List Text) :
    FileTree.entry? (t.put names (.file content)) ns = if ns = names then some (.file content) else t.entry? ns := by
  have hnames := names_ne_nil hold
  have hput : t.put names (.file content) =
      { t with entries := (names, .file content) :: t.entries.filter (·.1 != names) } :=
    if_neg (by simpa using hnames)
  unfold entry?
  rw [hput, List.lookup_cons]
  by_cases heq : ns = names
  · rw [if_pos heq, if_neg (by simpa [heq] using hnames), beq_iff_eq.mpr heq]
  · rw [if_neg heq, beq_eq_false_iff_ne.mpr heq, lookup_filter_ne heq]

/-- Along a path, only what stands at the names of the file is another. -/
theorem foldlM_follow_put {ps : List Text} (hparts : ∀ part ∈ ps, Path.IsPart part) (hup : Path.up ∉ ps)
    {ns : List Text} {e : Entry} (he : t.entry? ns = some e) :
    ps.foldlM (t.put names (.file content)).follow (rewritten names content (ns, e)) =
      (ps.foldlM t.follow (ns, e)).map (rewritten names content) := by
  induction ps generalizing ns e with
  | nil => rfl
  | cons part ps ih =>
    rw [List.mem_cons, not_or] at hup
    rw [List.foldlM_cons, List.foldlM_cons]
    cases e with
    | file c =>
      unfold rewritten
      split <;> rfl
    | folder =>
      have hne : ns ≠ names := by
        rintro rfl
        rw [hold] at he
        cases he
      have hstart : rewritten names content (ns, .folder) = (ns, .folder) := by simp [rewritten, hne]
      have hpart := hparts part List.mem_cons_self
      rw [hstart, follow_part hpart (Ne.symm hup.1), follow_part hpart (Ne.symm hup.1), entry?_put content hold]
      cases hnext : t.entry? (ns ++ [part]) with
      | none =>
        have hother : ns ++ [part] ≠ names := by
          rintro heq
          rw [heq, hold] at hnext
          cases hnext
        rw [if_neg hother]
        rfl
      | some e =>
        have hrest := ih (fun part hpart => hparts part (List.mem_cons_of_mem _ hpart)) hup.2 hnext
        by_cases heq : ns ++ [part] = names
        · simp only [rewritten, if_pos heq] at hrest ⊢
          exact hrest
        · simp only [rewritten, if_neg heq] at hrest ⊢
          exact hrest

/-- A path leads where it led, unless it leads to the file, which then has the new content. -/
theorem find_put (habs : Path.isAbsolute path = true) (hclean : Path.clean path = path) :
    (t.put names (.file content)).find path = t.find path ∨ Path.resolve path = names ∧
      t.find path = .ok (names, .file old) ∧ (t.put names (.file content)).find path = .ok (names, .file content) := by
  have hstart : rewritten names content ([], .folder) = ([], .folder) := by
    simp [rewritten, Ne.symm (names_ne_nil hold)]
  have hput : (t.put names (.file content)).find path = (t.find path).map (rewritten names content) := by
    rw [find_eq_foldlM habs hclean, find_eq_foldlM habs hclean]
    conv => lhs; rw [← hstart]
    exact foldlM_follow_put content hold (fun _ => Path.isPart_of_mem_resolve) (Path.up_not_mem_resolve habs) rfl
  rcases hfind : t.find path with f | ⟨ns, e⟩
  · rw [hput, hfind]
    exact .inl rfl
  · obtain ⟨hns, hentry⟩ := entry?_of_find habs hclean hfind
    rw [hput, hfind]
    by_cases heq : ns = names
    · subst heq
      obtain rfl := Option.some.inj (hold.symm.trans hentry)
      exact .inr ⟨hns.symm, rfl, by simp [Except.map, rewritten]⟩
    · exact .inl (by simp [Except.map, rewritten, heq])

/-- Another file reads as before. -/
theorem read_put_ne (habs : Path.isAbsolute path = true) (hclean : Path.clean path = path)
    (hne : Path.resolve path ≠ names) : (t.put names (.file content)).read path = t.read path := by
  unfold read
  rcases find_put content hold habs hclean with heq | ⟨heq, -⟩
  · rw [heq]
  · exact absurd heq hne

/-- The file reads as it was written. -/
theorem read_put_self (habs : Path.isAbsolute path = true) (hclean : Path.clean path = path)
    (hfind : t.find path = .ok (names, .file old)) : (t.put names (.file content)).read path = .ok content := by
  have hput : (t.put names (.file content)).find path = .ok (names, .file content) := by
    rcases find_put content hold habs hclean with heq | ⟨-, -, heq⟩
    · rw [hfind] at heq
      have hentry := (entry?_of_find habs hclean heq).2
      rw [entry?_put content hold, if_pos rfl] at hentry
      rw [heq, Option.some.inj hentry]
    · exact heq
  unfold read
  rw [hput]

theorem mem_entries_put {ns : List Text} :
    (∃ c, (ns, .file c) ∈ (t.put names (.file content)).entries) ↔ ∃ c, (ns, .file c) ∈ t.entries := by
  have hnames := names_ne_nil hold
  have hthere : (names, .file old) ∈ t.entries := by
    unfold entry? at hold
    rw [if_neg (by simpa using hnames)] at hold
    obtain ⟨front, rest, heq, -⟩ := List.lookup_eq_some_iff.mp hold
    rw [heq]
    exact List.mem_append_right _ List.mem_cons_self
  have hput : (t.put names (.file content)).entries =
      (names, .file content) :: t.entries.filter (·.1 != names) := by
    rw [put, if_neg (by simpa using hnames)]
  rw [hput]
  by_cases heq : ns = names
  · subst heq
    exact ⟨fun _ => ⟨old, hthere⟩, fun _ => ⟨content, List.mem_cons_self⟩⟩
  · simp [heq]

theorem finds_put (habs : Path.isAbsolute dir = true) (hclean : Path.clean dir = dir) :
    (t.put names (.file content)).Finds dir path ↔ t.Finds dir path := by
  have hfolder (base : List Text) :
      (t.put names (.file content)).find dir = .ok (base, .folder) ↔ t.find dir = .ok (base, .folder) := by
    rcases find_put content hold habs hclean with heq | ⟨-, heq, heq'⟩
    · rw [heq]
    · rw [heq, heq']
      simp
  rw [finds_iff, finds_iff]
  constructor
  · rintro ⟨base, ns, c, hdir, hne, hentry, hrest⟩
    obtain ⟨c', hentry'⟩ := (mem_entries_put content hold).mp ⟨c, hentry⟩
    exact ⟨base, ns, c', (hfolder base).mp hdir, hne, hentry', hrest⟩
  · rintro ⟨base, ns, c, hdir, hne, hentry, hrest⟩
    obtain ⟨c', hentry'⟩ := (mem_entries_put content hold).mpr ⟨c, hentry⟩
    exact ⟨base, ns, c', (hfolder base).mpr hdir, hne, hentry', hrest⟩

theorem mem_filePaths_put : path ∈ (t.put names (.file content)).filePaths ↔ path ∈ t.filePaths := by
  have hmem (t : FileTree) : path ∈ t.filePaths ↔ ∃ ns, (∃ c, (ns, .file c) ∈ t.entries) ∧ path = Path.ofParts true ns := by
    simp only [filePaths, List.mem_filterMap, Prod.exists]
    constructor
    · rintro ⟨ns, e, hentry, hpath⟩
      cases e with
      | folder => cases hpath
      | file c => exact ⟨ns, ⟨c, hentry⟩, (Option.some.inj hpath).symm⟩
    · rintro ⟨ns, ⟨c, hentry⟩, rfl⟩
      exact ⟨ns, .file c, hentry, rfl⟩
  rw [hmem, hmem]
  simp only [mem_entries_put content hold]

theorem moduleFile?_put (r : Repository) (name : Text) :
    r.moduleFile? (t.put names (.file content)) name = r.moduleFile? t name := by
  unfold Repository.moduleFile?
  congr 1
  funext path
  rw [Bool.eq_iff_iff, List.contains_iff_mem, List.contains_iff_mem]
  exact mem_filePaths_put content hold

theorem absolute_put (path : Text) : (t.put names (.file content)).absolute path = t.absolute path := by
  have hput : (t.put names (.file content)).cwd = t.cwd := by
    rw [put, if_neg (by simpa using names_ne_nil hold)]
  unfold absolute workingPath
  rw [hput]

/-- A package has the same repository. -/
theorem ofPackage_put (packagePath : Text) (modulePaths : List Text) :
    Repository.ofPackage (t.put names (.file content)) packagePath modulePaths =
      Repository.ofPackage t packagePath modulePaths := by
  obtain ⟨x, hx, heq⟩ := Path.absolute_eq_clean (p := t.workingPath) rfl packagePath
  have habs : Path.isAbsolute (t.absolute packagePath) = true := by rw [absolute, heq, Path.isAbsolute_clean, hx]
  have hclean : Path.clean (t.absolute packagePath) = t.absolute packagePath := by
    rw [absolute, heq, Path.clean_clean]
  unfold Repository.ofPackage stat
  dsimp only
  rw [absolute_put content hold]
  rcases find_put content hold habs hclean with heq | ⟨-, heq, heq'⟩
  · rw [heq]
  · rw [heq, heq']

end

end FileTree

end FusionKit
