import FusionKit.Proofs.LineEnds
import FusionKit.Repository

/-!
# Cleaned paths

The parts of a cleaned path are names: none is empty, `.` or holds a slash, and `..` stands at the
start only, which it does not in an absolute path. A path made of such parts has just these parts,
so cleaning a path again changes nothing, and neither does taking it from a folder again.
-/
set_option autoImplicit false

namespace FusionKit

namespace Text

variable {b : UInt8}

theorem piecesAt_append_cons (t rest : Text) : piecesAt b (t ++ b :: rest) = piecesAt b t ++ piecesAt b rest := by
  induction t with
  | nil => simp [piecesAt]
  | cons x t ih =>
    rw [List.cons_append, piecesAt, piecesAt, ih]
    split
    · rfl
    · obtain ⟨piece, pieces, h⟩ := List.exists_cons_of_ne_nil (piecesAt_ne_nil b t)
      rw [h]
      rfl

theorem not_mem_of_mem_piecesAt {t piece : Text} (h : piece ∈ piecesAt b t) : b ∉ piece := by
  induction t generalizing piece with
  | nil =>
    rw [List.mem_singleton.mp h]
    exact List.not_mem_nil
  | cons x t ih =>
    obtain ⟨first, pieces, ht⟩ := List.exists_cons_of_ne_nil (piecesAt_ne_nil b t)
    rw [piecesAt, ht] at h
    rw [ht] at ih
    split at h
    · rcases List.mem_cons.mp h with rfl | h
      · exact List.not_mem_nil
      · exact ih h
    · rename_i hx
      rcases List.mem_cons.mp h with rfl | h
      · have hne : b ≠ x := fun heq => hx (beq_iff_eq.mpr heq.symm)
        simpa [hne] using ih List.mem_cons_self
      · exact ih (List.mem_cons_of_mem _ h)

theorem piecesAt_joinWith {ps : List Text} (hne : ps ≠ []) (h : ∀ p ∈ ps, b ∉ p) :
    piecesAt b (joinWith [b] ps) = ps := by
  induction ps with
  | nil => exact absurd rfl hne
  | cons p ps ih =>
    have hp := h p List.mem_cons_self
    cases ps with
    | nil => exact piecesAt_of_not_mem hp
    | cons q qs =>
      rw [joinWith, List.append_assoc, List.singleton_append, piecesAt_append hp,
        ih (List.cons_ne_nil _ _) fun p hp => h p (List.mem_cons_of_mem _ hp)]

/-- A text is what stands behind its last separator, or has a front before that. -/
theorem exists_last_piece (b : UInt8) (t : Text) :
    ∃ last, b ∉ last ∧ (t = last ∨ ∃ front, t = front ++ b :: last) := by
  induction t with
  | nil => exact ⟨[], List.not_mem_nil, .inl rfl⟩
  | cons x t ih =>
    obtain ⟨last, hlast, rfl | ⟨front, rfl⟩⟩ := ih
    · by_cases hx : x = b
      · exact ⟨t, hlast, .inr ⟨[], by rw [hx, List.nil_append]⟩⟩
      · exact ⟨x :: t, by simp [Ne.symm hx, hlast], .inl rfl⟩
    · exact ⟨last, hlast, .inr ⟨x :: front, rfl⟩⟩

theorem suffix_joinWith (separator : Text) (ps : List Text) (p : Text) : p <:+ joinWith separator (ps ++ [p]) := by
  induction ps with
  | nil => exact List.suffix_refl p
  | cons q ps ih =>
    cases ps with
    | nil => exact List.suffix_append _ _
    | cons q' ps => exact ih.trans (List.suffix_append _ _)

end Text

namespace Path

/-- Whether a text can be a part of a cleaned path: it is not empty, not `.`, and has no slash. -/
def IsPart (part : Text) : Prop := part ≠ [] ∧ part ≠ here ∧ slash ∉ part

variable {p q part : Text} {ps qs done : List Text} {rooted : Bool}

/-! ## Parts -/

theorem isPart_of_mem_parts (h : part ∈ parts p) : IsPart part := by
  obtain ⟨hpiece, hkept⟩ := List.mem_filter.mp h
  simp only [Bool.and_eq_true, Bool.not_eq_true', List.isEmpty_eq_false_iff, bne_iff_ne] at hkept
  exact ⟨hkept.1, hkept.2, Text.not_mem_of_mem_piecesAt hpiece⟩

theorem parts_append (p q : Text) : parts (p ++ slash :: q) = parts p ++ parts q := by
  rw [parts, Text.piecesAt_append_cons, List.filter_append]
  rfl

theorem filter_isPart (h : ∀ part ∈ ps, IsPart part) :
    (ps.filter fun part => !part.isEmpty && part != here) = ps := by
  refine List.filter_eq_self.mpr fun part hpart => ?_
  obtain ⟨hne, hhere, -⟩ := h part hpart
  simp [hne, hhere]

theorem parts_ofParts (h : ∀ part ∈ ps, IsPart part) : parts (ofParts rooted ps) = ps := by
  have hjoin (hne : ps ≠ []) : parts (Text.joinWith [slash] ps) = ps := by
    rw [parts, Text.piecesAt_joinWith hne fun part hpart => (h part hpart).2.2, filter_isPart h]
  unfold ofParts
  by_cases hne : ps = []
  · subst hne
    cases rooted <;> decide
  · cases rooted with
    | false => rw [if_neg Bool.false_ne_true, if_neg (by simpa using hne), hjoin hne]
    | true =>
      have hfront : parts (slash :: Text.joinWith [slash] ps) = parts [] ++ parts (Text.joinWith [slash] ps) :=
        parts_append [] _
      rw [if_pos rfl, hfront, hjoin hne]
      rfl

theorem isAbsolute_ofParts (h : ∀ part ∈ ps, IsPart part) : isAbsolute (ofParts rooted ps) = rooted := by
  cases rooted with
  | true => rfl
  | false =>
    cases ps with
    | nil => decide
    | cons part ps =>
      obtain ⟨hne, -, hslash⟩ := h part List.mem_cons_self
      obtain ⟨x, xs, rfl⟩ := List.exists_cons_of_ne_nil hne
      have hx : x ≠ slash := fun heq => hslash (heq ▸ List.mem_cons_self)
      have hhead : (Text.joinWith [slash] ((x :: xs) :: ps)).head? = some x := by cases ps <;> rfl
      rw [isAbsolute, ofParts, if_neg Bool.false_ne_true, if_neg (by simp), hhead]
      exact beq_eq_false_iff_ne.mpr fun heq => hx (Option.some.inj heq)

/-! ## The walk along the parts -/

/-- Whether parts in reverse order have `..` at their start only, and not in an absolute path. -/
def ClimbsFirst (rooted : Bool) (done : List Text) : Prop :=
  ∃ inner n, done = inner ++ List.replicate n up ∧ up ∉ inner ∧ (rooted = true → n = 0)

theorem ClimbsFirst.walk (h : ClimbsFirst rooted done) (part : Text) :
    ClimbsFirst rooted (Path.walk rooted done part) := by
  obtain ⟨inner, n, rfl, hinner, hn⟩ := h
  unfold Path.walk
  split
  · rename_i hup
    cases inner with
    | cons last inner =>
      have hlast : (last == up) = false := beq_eq_false_iff_ne.mpr fun heq => hinner (heq ▸ List.mem_cons_self)
      simp only [List.cons_append, hlast]
      exact ⟨inner, n, rfl, fun hmem => hinner (List.mem_cons_of_mem _ hmem), hn⟩
    | nil =>
      cases n with
      | succ n =>
        refine ⟨[], n + 2, rfl, List.not_mem_nil, fun hrooted => ?_⟩
        exact absurd (hn hrooted) (Nat.succ_ne_zero n)
      | zero =>
        cases rooted with
        | true => exact ⟨[], 0, rfl, List.not_mem_nil, fun _ => rfl⟩
        | false => exact ⟨[], 1, rfl, List.not_mem_nil, fun h => absurd h Bool.false_ne_true⟩
  · rename_i hup
    refine ⟨part :: inner, n, rfl, fun hmem => ?_, hn⟩
    rcases List.mem_cons.mp hmem with heq | hmem
    · exact hup (beq_iff_eq.mpr heq.symm)
    · exact hinner hmem

theorem ClimbsFirst.foldl (h : ClimbsFirst rooted done) (ps : List Text) :
    ClimbsFirst rooted (ps.foldl (Path.walk rooted) done) := by
  induction ps generalizing done with
  | nil => exact h
  | cons part ps ih => exact ih (h.walk part)

/-- Parts without `..` are added one after the other. -/
theorem foldl_walk (h : up ∉ ps) (done : List Text) : ps.foldl (walk rooted) done = ps.reverse ++ done := by
  induction ps generalizing done with
  | nil => rfl
  | cons part ps ih =>
    rw [List.mem_cons, not_or] at h
    have hpart : walk rooted done part = part :: done := if_neg fun heq => h.1 (beq_iff_eq.mp heq).symm
    rw [List.foldl_cons, hpart, ih h.2, List.reverse_cons, List.append_assoc, List.singleton_append]

theorem foldl_walk_replicate (n k : Nat) :
    (List.replicate n up).foldl (walk false) (List.replicate k up) = List.replicate (n + k) up := by
  induction n generalizing k with
  | zero => rw [Nat.zero_add]; rfl
  | succ n ih =>
    have hup : walk false (List.replicate k up) up = List.replicate (k + 1) up := by cases k <;> rfl
    rw [List.replicate_succ, List.foldl_cons, hup, ih, Nat.add_right_comm, Nat.add_assoc]

/-- A walk along parts that are in order ends with these parts. -/
theorem ClimbsFirst.foldl_walk (h : ClimbsFirst rooted ps.reverse) :
    (ps.foldl (Path.walk rooted) []).reverse = ps := by
  obtain ⟨inner, n, hps, hinner, hn⟩ := h
  obtain rfl : ps = List.replicate n up ++ inner.reverse := by
    rw [← List.reverse_reverse ps, hps, List.reverse_append, List.reverse_replicate]
  have hup : (List.replicate n up).foldl (Path.walk rooted) [] = List.replicate n up := by
    cases rooted with
    | true => rw [hn rfl]; rfl
    | false => exact foldl_walk_replicate n 0
  rw [List.foldl_append, hup, Path.foldl_walk (by simpa using hinner), List.reverse_reverse, List.reverse_append,
    List.reverse_replicate]

/-! ## Cleaned paths -/

theorem mem_walk (h : part ∈ walk rooted done q) : part ∈ done ∨ part = q := by
  unfold walk at h
  split at h
  · rename_i hup
    cases done with
    | nil =>
      cases rooted with
      | true => exact absurd h List.not_mem_nil
      | false => exact .inr ((List.mem_singleton.mp h).trans (beq_iff_eq.mp hup).symm)
    | cons last rest =>
      simp only at h
      split at h
      · rcases List.mem_cons.mp h with heq | h
        · exact .inr (heq.trans (beq_iff_eq.mp hup).symm)
        · exact .inl h
      · exact .inl (List.mem_cons_of_mem _ h)
  · rcases List.mem_cons.mp h with heq | h
    · exact .inr heq
    · exact .inl h

theorem mem_foldl_walk (h : part ∈ ps.foldl (walk rooted) done) : part ∈ done ∨ part ∈ ps := by
  induction ps generalizing done with
  | nil => exact .inl h
  | cons q ps ih =>
    rcases ih h with h | h
    · rcases mem_walk h with h | rfl
      · exact .inl h
      · exact .inr List.mem_cons_self
    · exact .inr (List.mem_cons_of_mem _ h)

theorem isPart_of_mem_resolve (h : part ∈ resolve p) : IsPart part := by
  rcases mem_foldl_walk (List.mem_reverse.mp h) with h | h
  · exact absurd h List.not_mem_nil
  · exact isPart_of_mem_parts h

theorem climbsFirst_resolve (p : Text) : ClimbsFirst (isAbsolute p) (resolve p).reverse := by
  rw [resolve, List.reverse_reverse]
  exact ClimbsFirst.foldl ⟨[], 0, rfl, List.not_mem_nil, fun _ => rfl⟩ _

/-- An absolute path climbs nowhere. -/
theorem up_not_mem_resolve (h : isAbsolute p = true) : up ∉ resolve p := by
  obtain ⟨inner, n, heq, hinner, hn⟩ := climbsFirst_resolve p
  rw [hn h, List.replicate_zero, List.append_nil] at heq
  rwa [← List.mem_reverse, heq]

theorem isAbsolute_clean (p : Text) : isAbsolute (clean p) = isAbsolute p :=
  isAbsolute_ofParts fun _ => isPart_of_mem_resolve

theorem parts_clean (p : Text) : parts (clean p) = resolve p := parts_ofParts fun _ => isPart_of_mem_resolve

theorem resolve_clean (p : Text) : resolve (clean p) = resolve p := by
  rw [resolve, parts_clean, isAbsolute_clean]
  exact (climbsFirst_resolve p).foldl_walk

theorem clean_clean (p : Text) : clean (clean p) = clean p := by
  rw [clean, isAbsolute_clean, resolve_clean]
  rfl

theorem ne_nil_of_isAbsolute (h : isAbsolute p = true) : p ≠ [] := by
  rintro rfl
  exact absurd h (by decide)

theorem isAbsolute_append (h : isAbsolute p = true) (q : Text) : isAbsolute (p ++ q) = true := by
  obtain ⟨x, xs, rfl⟩ := List.exists_cons_of_ne_nil (ne_nil_of_isAbsolute h)
  exact h

theorem join_of_ne_nil (hp : p ≠ []) (hq : q ≠ []) : join p q = clean (p ++ slash :: q) := by
  rw [join, if_neg (by simpa using hp), if_neg (by simpa using hq)]

/-- A path from an absolute one is an absolute one, cleaned. -/
theorem join_eq_clean (h : isAbsolute p = true) (q : Text) : ∃ x, isAbsolute x = true ∧ join p q = clean x := by
  by_cases hq : q = []
  · refine ⟨p, h, ?_⟩
    rw [join, if_neg (by simpa using ne_nil_of_isAbsolute h), if_pos (by simpa using hq)]
  · exact ⟨p ++ slash :: q, isAbsolute_append h _, join_of_ne_nil (ne_nil_of_isAbsolute h) hq⟩

theorem absolute_eq_clean (h : isAbsolute p = true) (q : Text) :
    ∃ x, isAbsolute x = true ∧ absolute p q = clean x := by
  unfold absolute
  split
  · rename_i hq
    exact ⟨q, hq, rfl⟩
  · exact join_eq_clean h q

theorem absolute_of_clean (h : isAbsolute q = true) (hclean : clean q = q) : absolute p q = q := by
  rw [absolute, if_pos h, hclean]

/-- A path taken from a folder is not changed by being taken from there again. -/
theorem absolute_absolute (h : isAbsolute p = true) (q : Text) : absolute p (absolute p q) = absolute p q := by
  obtain ⟨x, hx, heq⟩ := absolute_eq_clean h q
  rw [heq]
  exact absolute_of_clean (by rw [isAbsolute_clean, hx]) (clean_clean x)

/-! ## Endings -/

/-- Cleaning a path keeps its ending, if this has no slash and is no mere dots. -/
theorem suffix_clean {ending : Text} (hslash : slash ∉ ending) (hlength : 2 < ending.length) (h : ending <:+ q) :
    ending <:+ clean q := by
  obtain ⟨last, hlast, hq⟩ := Text.exists_last_piece slash q
  have hend : ending <:+ last := by
    rcases hq with rfl | ⟨front, rfl⟩
    · exact h
    · rcases List.suffix_or_suffix_of_suffix h (List.suffix_append front (slash :: last)) with h | h
      · rcases List.suffix_cons_iff.mp h with rfl | h
        · exact absurd List.mem_cons_self hslash
        · exact h
      · exact absurd (h.subset List.mem_cons_self) hslash
  have hlong : 2 < last.length := Nat.lt_of_lt_of_le hlength hend.length_le
  have hkept : parts last = [last] := by
    have hne : last ≠ [] := by
      rintro rfl
      exact absurd hlong (by decide)
    have hhere : last ≠ here := by
      rintro rfl
      exact absurd hlong (by decide)
    rw [parts, Text.piecesAt_of_not_mem hlast]
    exact filter_isPart fun part hpart => (List.mem_singleton.mp hpart) ▸ ⟨hne, hhere, hlast⟩
  have hparts : ∃ front, parts q = front ++ [last] := by
    rcases hq with rfl | ⟨front, rfl⟩
    · exact ⟨[], hkept⟩
    · exact ⟨parts front, by rw [parts_append, hkept]⟩
  obtain ⟨front, hparts⟩ := hparts
  have hup : last ≠ up := by
    rintro rfl
    exact absurd hlong (by decide)
  have hresolve : ∃ ps, resolve q = ps ++ [last] := by
    refine ⟨(front.foldl (walk (isAbsolute q)) []).reverse, ?_⟩
    rw [resolve, hparts, List.foldl_append, foldl_walk (by simpa using hup.symm), List.reverse_append]
    rfl
  obtain ⟨ps, hresolve⟩ := hresolve
  refine hend.trans ?_
  have hjoin := Text.suffix_joinWith [slash] ps last
  rw [clean, hresolve, ofParts]
  split
  · exact hjoin.trans (List.suffix_cons _ _)
  · rw [if_neg (by simp)]
    exact hjoin

theorem suffix_join {ending : Text} (hslash : slash ∉ ending) (hlength : 2 < ending.length) (h : ending <:+ q) :
    ending <:+ join p q := by
  have hne : q ≠ [] := by
    rintro rfl
    have hle := h.length_le
    simp only [List.length_nil] at hle
    omega
  rw [join]
  split
  · rw [if_neg (by simpa using hne)]
    exact suffix_clean hslash hlength h
  · rw [if_neg (by simpa using hne)]
    exact suffix_clean hslash hlength (h.trans ((List.suffix_cons _ _).trans (List.suffix_append _ _)))

theorem suffix_absolute {ending : Text} (hslash : slash ∉ ending) (hlength : 2 < ending.length) (h : ending <:+ q) :
    ending <:+ absolute p q := by
  unfold absolute
  split
  · exact suffix_clean hslash hlength h
  · exact suffix_join hslash hlength h

end Path

namespace FileTree

/-! ## Source files -/

/-- Whether a path ends as those of source files do. -/
def IsSource (path : Text) : Prop := sourceEnding <:+ path

variable {t : FileTree} {dir path : Text}

theorem IsSource.join {p q : Text} (h : IsSource q) : IsSource (Path.join p q) :=
  Path.suffix_join (by decide) (by decide) h

theorem IsSource.absolute {p q : Text} (h : IsSource q) : IsSource (Path.absolute p q) :=
  Path.suffix_absolute (by decide) (by decide) h

/-- A walk through a folder finds a source file. -/
def Finds (t : FileTree) (dir path : Text) : Prop :=
  t.isFolder dir = true ∧ ∃ paths, t.sources dir = .ok paths ∧ path ∈ paths

/-- The files that a walk through a folder finds are source files. -/
theorem Finds.isSource (h : t.Finds dir path) : IsSource path := by
  obtain ⟨hdir, paths, h, hpath⟩ := h
  unfold isFolder at hdir
  unfold sources filesEnding filesBelow at h
  rcases hfind : t.find dir with f | ⟨names, e⟩
  · rw [hfind] at hdir
    cases hdir
  cases e with
  | file content =>
    rw [hfind] at hdir
    cases hdir
  | folder =>
    rw [hfind] at h
    obtain rfl := Except.ok.inj h
    obtain ⟨⟨ns, e⟩, -, hpath⟩ := List.mem_filterMap.mp hpath
    cases e with
    | folder => cases hpath
    | file content =>
      dsimp only at hpath
      split at hpath
      · rename_i hkept
        obtain rfl := Option.some.inj hpath
        have hending : sourceEnding <:+ ns.getLastD [] :=
          List.isSuffixOf_iff_suffix.mp (Bool.and_eq_true_iff.mp hkept).2
        have hne : ns ≠ [] := by
          rintro rfl
          exact absurd hending.length_le (by decide)
        refine IsSource.join (hending.trans ?_)
        rw [List.getLastD_eq_getLast?, List.getLast?_eq_getLast_of_ne_nil hne, Option.getD_some]
        conv => rhs; rw [← List.dropLast_append_getLast hne]
        exact Text.suffix_joinWith _ _ _
      · cases hpath

/-! ## Following a path -/

variable {names names' ps : List Text} {e e' : Entry}

theorem follow_part {part : Text} (hpart : Path.IsPart part) (hup : part ≠ Path.up) :
    t.follow (names, .folder) part = match t.entry? (names ++ [part]) with
      | some e => .ok (names ++ [part], e)
      | none => .error .missing := by
  obtain ⟨hne, hhere, -⟩ := hpart
  have hstay : ¬(part.isEmpty || part == Path.here) = true := by simp [hne, hhere]
  have hdown : ¬(part == Path.up) = true := by simp [hup]
  rw [follow, if_neg hstay]
  exact if_neg hdown

/-- Along parts without `..`, each part is one more name. -/
theorem names_of_foldlM_follow (hparts : ∀ part ∈ ps, Path.IsPart part) (hup : Path.up ∉ ps)
    (he : t.entry? names = some e) (h : ps.foldlM t.follow (names, e) = .ok (names', e')) :
    names' = names ++ ps ∧ t.entry? names' = some e' := by
  induction ps generalizing names e with
  | nil =>
    obtain ⟨rfl, rfl⟩ := Prod.mk.inj (Except.ok.inj h)
    exact ⟨(List.append_nil _).symm, he⟩
  | cons part ps ih =>
    rw [List.mem_cons, not_or] at hup
    cases e with
    | file => cases h
    | folder =>
      rw [List.foldlM_cons, follow_part (hparts part List.mem_cons_self) (Ne.symm hup.1)] at h
      cases hnext : t.entry? (names ++ [part]) with
      | none =>
        rw [hnext] at h
        cases h
      | some e =>
        rw [hnext] at h
        have hrest := ih (fun part hpart => hparts part (List.mem_cons_of_mem _ hpart)) hup.2 hnext h
        rwa [List.append_assoc, List.singleton_append] at hrest

/-- A cleaned path from the root is followed part by part. -/
theorem find_eq_foldlM (habs : Path.isAbsolute path = true) (hclean : Path.clean path = path) :
    t.find path = (Path.resolve path).foldlM t.follow ([], .folder) := by
  have hfront : Text.piecesAt Path.slash path = [] :: Text.piecesAt Path.slash (Text.joinWith [Path.slash] (Path.resolve path)) := by
    conv => lhs; rw [← hclean, Path.clean, habs]
    exact Text.piecesAt_append_cons [] _
  have hstay : t.follow ([], .folder) [] = .ok ([], .folder) := rfl
  rw [find, if_neg (by simpa using Path.ne_nil_of_isAbsolute habs), if_pos habs, hfront, List.foldlM_cons, hstay]
  show (Text.piecesAt Path.slash (Text.joinWith [Path.slash] (Path.resolve path))).foldlM t.follow ([], .folder) = _
  by_cases hne : Path.resolve path = []
  · rw [hne]
    rfl
  · rw [Text.piecesAt_joinWith hne fun part hpart => (Path.isPart_of_mem_resolve hpart).2.2]

/-- The names of what stands under a cleaned path from the root are its parts. -/
theorem entry?_of_find (habs : Path.isAbsolute path = true) (hclean : Path.clean path = path)
    (h : t.find path = .ok (names, e)) : names = Path.resolve path ∧ t.entry? names = some e := by
  rw [find_eq_foldlM habs hclean] at h
  have hparts : ∀ part ∈ Path.resolve path, Path.IsPart part := fun _ => Path.isPart_of_mem_resolve
  exact names_of_foldlM_follow hparts (Path.up_not_mem_resolve habs) rfl h

/-- A file that stands under a cleaned path from the root is among all files. -/
theorem mem_filePaths (habs : Path.isAbsolute path = true) (hclean : Path.clean path = path)
    (h : t.isFile path = true) : path ∈ t.filePaths := by
  unfold isFile at h
  rcases hfind : t.find path with f | ⟨names, content | _⟩
  · rw [hfind] at h
    cases h
  · obtain ⟨rfl, hentry⟩ := entry?_of_find habs hclean hfind
    have hthere : (Path.resolve path, Entry.file content) ∈ t.entries := by
      unfold entry? at hentry
      split at hentry
      · cases hentry
      · obtain ⟨front, rest, heq, -⟩ := List.lookup_eq_some_iff.mp hentry
        rw [heq]
        exact List.mem_append_right _ List.mem_cons_self
    refine List.mem_filterMap.mpr ⟨_, hthere, ?_⟩
    conv => rhs; rw [← hclean, Path.clean, habs]
  · rw [hfind] at h
    cases h

end FileTree

/-! ## Repositories -/

namespace Repository

variable {r : Repository} {t : FileTree} {name path packagePath : Text} {modulePaths : List Text}

/-- The folders of a repository are absolute. -/
structure Rooted (r : Repository) : Prop where
  package : Path.isAbsolute r.packagePath = true
  modules : ∀ dir ∈ r.modulePaths, Path.isAbsolute dir = true

theorem rooted_ofPackage (h : ofPackage t packagePath modulePaths = .ok r) : r.Rooted := by
  have hbase : Path.isAbsolute t.workingPath = true := rfl
  have habsolute {p q : Text} (hp : Path.isAbsolute p = true) : Path.isAbsolute (Path.absolute p q) = true := by
    obtain ⟨x, hx, heq⟩ := Path.absolute_eq_clean hp q
    rw [heq, Path.isAbsolute_clean, hx]
  unfold ofPackage at h
  dsimp only at h
  split at h
  · cases h
  · cases h
  · obtain rfl := Except.ok.inj h
    refine ⟨habsolute hbase, fun dir hdir => ?_⟩
    obtain ⟨p, -, rfl⟩ := List.mem_map.mp hdir
    exact habsolute (habsolute hbase)

theorem Rooted.resolve_resolve (hr : r.Rooted) (path : Text) : r.resolve (r.resolve path) = r.resolve path :=
  Path.absolute_absolute hr.package path

theorem exists_of_moduleFile? (h : r.moduleFile? t name = some path) :
    ∃ dir ∈ r.modulePaths, path = fileIn dir name := by
  obtain ⟨dir, hdir, heq⟩ := List.mem_map.mp (List.mem_of_find?_eq_some h)
  exact ⟨dir, hdir, heq.symm⟩

theorem mem_filePaths_of_moduleFile? (h : r.moduleFile? t name = some path) : path ∈ t.filePaths :=
  List.contains_iff_mem.mp (List.find?_some h)

/-- The path of a file that is found is absolute and cleaned. -/
theorem Rooted.resolve_moduleFile? (hr : r.Rooted) (h : r.moduleFile? t name = some path) : r.resolve path = path := by
  obtain ⟨dir, hdir, rfl⟩ := exists_of_moduleFile? h
  obtain ⟨x, hx, heq⟩ := Path.join_eq_clean (hr.modules dir hdir)
    (Text.trimStart [Path.slash] name ++ FileTree.sourceEnding)
  rw [fileIn, heq]
  exact Path.absolute_of_clean (by rw [Path.isAbsolute_clean, hx]) (Path.clean_clean x)

/-- A file under a path that is taken from a repository is among all files. -/
theorem Rooted.mem_filePaths (hr : r.Rooted) (hresolved : r.resolve path = path) (h : t.isFile path = true) :
    path ∈ t.filePaths := by
  obtain ⟨p, hp, heq⟩ := Path.absolute_eq_clean hr.package path
  have hclean : path = Path.clean p := hresolved.symm.trans heq
  refine FileTree.mem_filePaths ?_ ?_ h
  · rw [hclean, Path.isAbsolute_clean, hp]
  · rw [hclean, Path.clean_clean]

theorem isSource_moduleFile? (h : r.moduleFile? t name = some path) : FileTree.IsSource path := by
  obtain ⟨dir, -, rfl⟩ := exists_of_moduleFile? h
  exact FileTree.IsSource.join (List.suffix_append _ _)

/-- A file has one name of a module, however its path is written. -/
theorem Rooted.moduleName_resolve (hr : r.Rooted) (path : Text) : r.moduleName (r.resolve path) = r.moduleName path := by
  unfold moduleName
  rw [hr.resolve_resolve]

end Repository

end FusionKit
