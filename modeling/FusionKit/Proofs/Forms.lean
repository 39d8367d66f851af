import FusionKit.Form

/-!
# Forms as views of nodes

A form is the view of a node: of a node that is content, unless it is the member of a struct, which is seen
as its key and its value. So the forms of some nodes are those of the content among them, in the same order
and with the same names.
-/
set_option autoImplicit false

namespace FusionKit

namespace Node

theorem valueItems_eq (n : Node) : n.valueItems = contents n.items := by
  cases n
  rfl

/-- What stands among content is no member of a struct. -/
theorem of_mem_contents : ∀ {ns : List Node} {n : Node}, n ∈ contents ns → n.isContent = true ∧ n.kind ≠ .structMember
  | ⟨label, items⟩ :: ns, n, hn => by
    rw [contents] at hn
    rcases List.mem_append.mp hn with hn | hn
    · split at hn
      · rw [valueItems] at hn
        exact of_mem_contents hn
      · split at hn
        · rename_i hmember hcontent
          rw [List.mem_singleton.mp hn]
          exact ⟨hcontent, hmember⟩
        · contradiction
    · exact of_mem_contents hn

end Node

namespace Form

/-- Comments and runs of newlines are seen as no form. -/
theorem ofNode_of_not_content {n : Node} (hcontent : n.isContent = false) : ofNode n = [] := by
  obtain ⟨label, items⟩ := n
  have hkind : label.kind = .commentBlock ∨ label.kind = .commentLine ∨ label.kind = .newlines := by
    revert hcontent
    show (!label.kind.isComment && !label.kind == .newlines) = false → _
    cases label.kind <;> simp [Kind.isComment]
  rcases hkind with hkind | hkind | hkind <;> rw [ofNode, hkind]

/-- Content is seen as one form, which has its name, unless it is a member of a struct. -/
theorem ofNode_of_content {n : Node} (hcontent : n.isContent = true) (hmember : n.kind ≠ .structMember) :
    ∃ f, ofNode n = [f] ∧ f.name? = n.name? := by
  obtain ⟨label, items⟩ := n
  revert hcontent hmember
  show (!label.kind.isComment && !label.kind == .newlines) = true → label.kind ≠ .structMember → _
  unfold ofNode Node.name? Node.symbol? Node.kind
  cases label.kind <;> simp [Kind.isComment, name?, symbol?]

theorem ofNodes_eq_flatMap (ns : List Node) : ofNodes ns = ns.flatMap ofNode := by
  induction ns with
  | nil => rfl
  | cons n ns ih => rw [ofNodes, ih, List.flatMap_cons]

/-- The forms of some nodes are those of the content among them. -/
theorem ofNodes_contents : ∀ ns : List Node, ofNodes (Node.contents ns) = ofNodes ns
  | [] => rfl
  | ⟨label, items⟩ :: ns => by
    rw [ofNodes, Node.contents, ofNodes_eq_flatMap, List.flatMap_append, ← ofNodes_eq_flatMap, ← ofNodes_eq_flatMap,
      ofNodes_contents ns]
    congr 1
    split
    · rename_i hmember
      rw [Node.valueItems, ofNodes_contents items]
      have hkind : label.kind = .structMember := hmember
      rw [ofNode, hkind]
    · split
      · rw [ofNodes, ofNodes, List.append_nil]
      · rename_i hcontent
        exact (ofNode_of_not_content (Bool.eq_false_iff.mpr hcontent)).symm

/-- The forms of what is neither a comment nor a newline run are all there are. -/
theorem ofNodes_filter (ns : List Node) : ofNodes (ns.filter Node.isContent) = ofNodes ns := by
  induction ns with
  | nil => rfl
  | cons n ns ih =>
    rw [List.filter_cons]
    split
    · rw [ofNodes, ofNodes, ih]
    · rename_i h
      rw [ofNodes, ih, ofNode_of_not_content (by simpa using h), List.nil_append]

end Form

end FusionKit
