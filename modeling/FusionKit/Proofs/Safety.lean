import FusionKit.Format
import FusionKit.Proofs.GuardedTidy
import FusionKit.Proofs.Images
import FusionKit.Proofs.Shapes

/-!
# Parsed programs are formatted

A syntax error is the only way in which formatting fails. Everything that a parser gives can be
laid out, with all nodes where they belong, and its layout is printed without a missed index and
without a form that has no indent, with and without the pass that tidies newlines.
-/
set_option autoImplicit false

namespace FusionKit

namespace Guarded

/-- The layout tree that is printed, tidied if so set. -/
def arranged? (s : Settings) (nodes : List Node) : Option (List Node) :=
  if s.fixesNewlines then nodes.mapM fix? else some nodes

/-- The printed form of a layout tree. -/
def printed? (s : Settings) (nodes : List Node) : Option Text := do
  let nodes ← arranged? s nodes
  let p ← nodes.foldlM (fun p n => print? s 0 p n) {}
  trimLineEnds? p.text

theorem mapM_fix? (nodes : List Node) : nodes.mapM fix? = some (nodes.map Node.tidy) := by
  induction nodes with
  | nil => rfl
  | cons n ns ih =>
    rw [List.mapM_cons, fix?_eq, ih]
    rfl

theorem foldlM_print? (s : Settings) (nodes : List Node) (p : Page) :
    nodes.foldlM (fun p n => print? s 0 p n) p = some (nodes.foldl (fun p n => Node.print s 0 p n) p) := by
  induction nodes generalizing p with
  | nil => rfl
  | cons n ns ih =>
    rw [List.foldlM_cons, print?_eq]
    exact ih _

/-- Every layout tree is printed, whatever the settings. -/
theorem printed?_eq (s : Settings) (nodes : List Node) : printed? s nodes = some (Node.printed s nodes) := by
  have harranged : arranged? s nodes = some (if s.fixesNewlines then nodes.map Node.tidy else nodes) := by
    rw [arranged?, mapM_fix?]
    split <;> rfl
  unfold printed? Node.printed
  rw [harranged, Option.bind_eq_bind, Option.bind_some, foldlM_print?]
  exact trimLineEnds?_eq _

end Guarded

variable {file source : Text} {nodes : List Node} {e : SyntaxError}

/-- The nodes of a parsed tree are comments, newline runs and values. -/
theorem shaped_of_parse (h : parse file source = .ok nodes) : ∀ n ∈ nodes, ¬ n.IsTrivia → n.Shaped := by
  obtain ⟨ts, r, -, -, -, hsteps, -, rfl⟩ := steps_of_parse h
  have hfits := hsteps.fits .start ⟨by simp, by simp⟩
  intro n hn
  exact hfits.done n (List.mem_reverse.mp hn)

theorem format_error (h : parse file source = .error e) (s : Settings) :
    format s file source = .error (.notParsed e) := by
  rw [format, h]

/-- A parsed tree has a layout, with every node in its place, and that is printed. -/
theorem format_ok (h : parse file source = .ok nodes) (s : Settings) :
    ∃ tree, Node.layoutAll nodes = .ok tree ∧ (∀ n ∈ tree, n.kind ≠ .structKey) ∧
      (∀ n ∈ tree, ∀ m, n.Below m → m.Placed) ∧ format s file source = .ok (Node.printed s tree) := by
  obtain ⟨tree, htree, hkeys, hplaced⟩ := Node.layoutAll_placed (shaped_of_parse h)
  refine ⟨tree, htree, hkeys, hplaced, ?_⟩
  unfold format
  simp only [h, htree]

/-- Formatting fails where parsing fails, and nowhere else: a parsed tree has a layout, in which
every node is in its place, and which is printed without a missed index or indent. -/
theorem format_safe (s : Settings) (file source : Text) :
    (∀ e, format s file source = .error e ↔ ∃ e', parse file source = .error e' ∧ e = .notParsed e') ∧
    ∀ nodes, parse file source = .ok nodes → ∃ tree, Node.layoutAll nodes = .ok tree ∧
      (∀ n ∈ tree, n.kind ≠ .structKey) ∧ (∀ n ∈ tree, ∀ m, n.Below m → m.Placed) ∧
      Guarded.printed? s tree = some (Node.printed s tree) ∧ format s file source = .ok (Node.printed s tree) := by
  cases hparse : parse file source with
  | error e =>
    rw [format_error hparse]
    constructor
    · intro e'
      constructor
      · rintro ⟨⟩
        exact ⟨e, rfl, rfl⟩
      · rintro ⟨_, ⟨⟩, rfl⟩
        rfl
    · rintro nodes ⟨⟩
  | ok nodes =>
    obtain ⟨tree, htree, hkeys, hplaced, hformat⟩ := format_ok hparse s
    rw [hformat]
    constructor
    · intro e
      constructor
      · rintro ⟨⟩
      · rintro ⟨e', ⟨⟩, -⟩
    · rintro _ ⟨⟩
      exact ⟨tree, htree, hkeys, hplaced, Guarded.printed?_eq s tree, rfl⟩

theorem format_safe_struct : ∃ tree,
    (parse [] (utf8 "\x7bk: // c\n[1, (\na)]\x7d")).map Node.layoutAll = .ok (.ok tree) ∧
    (∀ n ∈ tree, ∀ m, n.Below m → m.Placed) ∧
    Guarded.printed? .default tree = some (Node.printed .default tree) := by
  cases hnodes : parse [] (utf8 "\x7bk: // c\n[1, (\na)]\x7d") with
  | error e =>
    have hok : (parse [] (utf8 "\x7bk: // c\n[1, (\na)]\x7d")).isOk = true := by decide +kernel
    rw [hnodes] at hok
    contradiction
  | ok nodes =>
    obtain ⟨tree, htree, -, hplaced, hprinted, -⟩ := (format_safe .default [] _).2 nodes hnodes
    exact ⟨tree, congrArg Except.ok htree, hplaced, hprinted⟩

end FusionKit
