import FusionKit.Proofs.Basics
import FusionKit.Proofs.Locality

/-!
# Adding a binding

A binding that is added to a script removes the reports of the uses of its name, and no others; those
that remain stay in their order. For the names that a walk binds do not depend on those that are bound
before, so in either case each file is judged in one scope, and the two scopes differ by the name alone.
Sorting the problems before some of them are removed or after that is the same, because it is stable.
-/
set_option autoImplicit false

namespace FusionKit

/-! ## The order of problems -/

namespace Problem

theorem le_iff {p q : Problem} :
    p.le q = true ↔
      if p.file.name = q.file.name then p.span.start ≤ q.span.start
      else Text.le p.file.name q.file.name = true := by
  unfold Problem.le
  simp only [beq_iff_eq]
  split <;> simp

theorem le_total (p q : Problem) : (p.le q || q.le p) = true := by
  have hnames := Text.le_total p.file.name q.file.name
  rw [Bool.or_eq_true, le_iff, le_iff]
  grind

theorem le_trans (p q r : Problem) (h : p.le q = true) (h' : q.le r = true) : p.le r = true := by
  have hnames : Text.le p.file.name q.file.name = true → Text.le q.file.name r.file.name = true →
      Text.le p.file.name r.file.name = true := Text.le_trans
  have hback : Text.le p.file.name q.file.name = true → Text.le q.file.name p.file.name = true →
      p.file.name = q.file.name := Text.le_antisymm
  rw [le_iff] at h h' ⊢
  grind

/-- Problems that are removed before sorting are missing after it. -/
theorem sorted_filter (kept : Problem → Bool) (ps : List Problem) : sorted (ps.filter kept) = (sorted ps).filter kept :=
  (filter_mergeSort le_trans le_total kept ps).symm

end Problem

/-! ## Reports of one name -/

namespace Complaint

/-- Whether a complaint is about the use of a name. -/
def uses (name : Text) (c : Complaint) : Bool := c.unbound?.any (·.unquoted == name)

/-- Only the message for an unbound symbol begins with a capital letter. -/
theorem head?_message {c : Complaint} (h : c.message.head? = some (byte 'U')) : ∃ written, c = .unbound written := by
  have hother {start rest : Text} {b : UInt8} (hstart : start.head? = some b) (hne : b ≠ byte 'U') :
      (start ++ rest).head? ≠ some (byte 'U') := by
    rw [List.head?_append, hstart, Option.some_or]
    exact fun heq => hne (Option.some.inj heq)
  cases c with
  | unbound written => exact ⟨written, rfl⟩
  | unknownModule name => exact absurd h (hother (b := byte 'c') (by decide) (by decide))
  | missingModule head => exact absurd h (hother (b := byte 'e') (by decide) (by decide))
  | requireArgument | requireForm | expectedSymbol | expectedPair | expectedTwoSymbols | prefixedImport =>
    exact absurd h (by decide)

theorem unbound?_eq_some_iff {c : Complaint} {written : Text} :
    c.unbound? = some written ↔ c.message = utf8 "Unbound identifier " ++ written := by
  constructor
  · intro h
    cases c with
    | unbound other => rw [Option.some.inj h, message]
    | _ => cases h
  · intro h
    have hhead : c.message.head? = some (byte 'U') := by
      rw [h, List.head?_append]
      exact congrArg (Option.or · _) (by decide : (utf8 "Unbound identifier ").head? = some (byte 'U'))
    obtain ⟨other, rfl⟩ := head?_message hhead
    exact congrArg some (List.append_cancel_left h)

/-- The message tells whether a complaint is about the use of a name. -/
theorem uses_iff (name : Text) (c : Complaint) :
    c.uses name = true ↔ ∃ written, c.message = utf8 "Unbound identifier " ++ written ∧ written.unquoted = name := by
  simp only [uses, Option.any_eq_true, unbound?_eq_some_iff, beq_iff_eq]

end Complaint

theorem Finding.stands_eq (name : Text) (found : Finding) :
    found.stands (· == name) = !found.complaint.uses name := by
  unfold stands Complaint.uses
  cases found.complaint.unbound? <;> rfl

namespace Index

variable {idx : Index} {s s' : Scope} {name : Text}

/-- Where one more name is bound, the reports of its uses are missing. -/
theorem problemsOf_bound (h : ∀ n, s'.contains n = (s.contains n || n == name)) (f : SourceFile) :
    idx.problemsOf s' f = (idx.problemsOf s f).filter fun p => !p.complaint.uses name := by
  obtain ⟨found, -, hfound⟩ := idx.exists_found f
  rw [hfound, hfound, List.filter_map, List.filter_filter, funext h]
  simp only [Finding.stands_or, Finding.stands_eq, Function.comp_def, Bool.and_comm]

theorem checkFiles_bound (idx : Index) (names : List Text) (name : Text) (files : List SourceFile) :
    idx.checkFiles (names ++ [name]) files =
      (idx.checkFiles names files).filter fun p => !p.complaint.uses name := by
  have hscope : ∀ n, (idx.walkFiles (.ofNames (names ++ [name])) files).contains n =
      ((idx.walkFiles (.ofNames names) files).contains n || n == name) := by
    intro n
    rw [Bool.eq_iff_iff, Bool.or_eq_true, contains_walkFiles, contains_walkFiles]
    simp only [Scope.contains_iff, Scope.ofNames, List.mem_singleton, exists_eq_left, List.mem_append, beq_iff_eq]
    grind
  rw [checkFiles, checkFiles, ← Problem.sorted_filter, problemsIn_of_settled (idx.settled_walkFiles _ files) fun _ => rfl,
    problemsIn_of_settled (idx.settled_walkFiles _ files) fun _ => rfl, List.filter_flatMap]
  exact congrArg Problem.sorted (List.flatMap_congr fun f _ => problemsOf_bound hscope f)

/-- A script with one more binding has the problems it had without it, in their order, except those whose
message reports a use of that name. -/
theorem checkScript_bound (idx : Index) (b : Script) (name : Text) :
    idx.checkScript { b with globalBindings := b.globalBindings ++ [name] } =
      (idx.checkScript b).filter (fun p => !p.complaint.uses name) ∧
    ∀ c : Complaint, c.uses name = true ↔
      ∃ written, c.message = utf8 "Unbound identifier " ++ written ∧ written.unquoted = name := by
  refine ⟨?_, Complaint.uses_iff name⟩
  rw [checkScript, checkScript, ← List.append_assoc]
  exact idx.checkFiles_bound _ name b.files

end Index

end FusionKit
