import FusionKit.Proofs.Exports
import FusionKit.Proofs.Forms
import FusionKit.Proofs.Locality

/-!
# Quoted data

What is quasi-quoted is data as long as nothing in it is unquoted: the loader follows no directive in
it, and the checker leaves its scope and its findings as they are. Both walks go through all of the
data with a mark that it is quoted, and only an unquote takes this mark away, so the argument is one
induction on the forms for each of them.

The walks see forms, which are a view of the nodes of a file. What is said of a node therefore rests on
its value items: the forms of a node are those of its value items, in the same order and with the same
names.
-/
set_option autoImplicit false

namespace FusionKit

/-! ## Quoted forms -/

/-- The one spelling of an unquote. -/
theorem Keyword.ofText?_eq_unquote {t : Text} (h : ofText? t = some .unquote) : t = utf8 "unquote" := by
  obtain ⟨⟨spelling, keyword⟩, hfound, hkeyword⟩ := Option.map_eq_some_iff.mp h
  have hall : ∀ s ∈ spellings, s.2 = .unquote → s.1 = "unquote" := by decide
  have htext := List.find?_some hfound
  rw [beq_iff_eq] at htext
  rw [← htext, hall _ (List.mem_of_find?_eq_some hfound) hkeyword]

namespace Form

variable {f g : Form}

/-- A form is data if neither it nor any form below it unquotes. -/
def IsData (f : Form) : Prop := ∀ g ∈ f.subforms, g.keyword? ≠ some .unquote

theorem IsData.self (h : f.IsData) : f.keyword? ≠ some .unquote := h f List.mem_cons_self

theorem IsData.item (h : f.IsData) (hg : g ∈ f.items) : g.IsData := by
  intro k hk
  refine h k (List.mem_cons_of_mem _ ?_)
  rw [inner_eq, subformsOf_eq_flatMap]
  exact List.mem_flatMap_of_mem hg hk

/-- A symbol at the head of data does not unquote, whether it is read with the quotes around it or
without. -/
theorem IsData.head {span place : Span} {written : Text} {rest : List Form}
    (h : (sexpr span (.symbol place written :: rest)).IsData) :
    (Keyword.ofText? written != some .unquote) = true :=
  bne_iff_ne.mpr fun hwritten => h.self (Keyword.ofText?_unquoted hwritten)

mutual

/-- Quoted data tells the index nothing. -/
theorem directives_quoted : ∀ f : Form, f.IsData → f.directives true = []
  | .symbol _ _ | .string _ _ | .other _ => fun _ => rfl
  | .list _ items | .struct _ items => fun h => directivesOf_quoted items fun _ => h.item
  | .sexpr span items => fun h => by
    unfold directives
    match items with
    | [] => rfl
    | .symbol place written :: rest =>
      rw [sexprDirectives, if_pos rfl, h.head]
      exact directivesOf_quoted rest fun _ hg => h.item (List.mem_cons_of_mem _ hg)
    | .string .. :: _ | .sexpr .. :: _ | .list .. :: _ | .struct .. :: _ | .other .. :: _ => rfl

theorem directivesOf_quoted : ∀ fs : List Form, (∀ f ∈ fs, f.IsData) → directivesOf true fs = []
  | [] => fun _ => rfl
  | f :: fs => fun h => by
    have hrest := directivesOf_quoted fs fun g hg => h g (List.mem_cons_of_mem _ hg)
    rw [directivesOf, directives_quoted f (h f List.mem_cons_self), hrest, List.nil_append]

end

end Form

namespace Walk

open Form (IsData)

variable {idx : Index}

mutual

/-- A walk leaves quoted data as it came to it. -/
theorem check_quoted (w : Walk) : ∀ f : Form, f.IsData → check idx true w f = w
  | .symbol _ _ | .string _ _ | .other _ => fun _ => rfl
  | .list _ items | .struct _ items => fun h => checkAll_quoted w items fun _ => h.item
  | .sexpr span items => fun h => by
    cases hkeyword : (Form.sexpr span items).keyword? with
    | none =>
      rw [check_of_call hkeyword rfl]
      exact checkAll_quoted w items fun _ => h.item
    | some keyword =>
      rw [check_of_keyword hkeyword, if_pos rfl, bne_iff_ne.mpr fun heq => h.self (hkeyword.trans (congrArg some heq))]
      match items with
      | [] => rfl
      | _ :: rest => exact checkAll_quoted w rest fun _ hg => h.item (List.mem_cons_of_mem _ hg)

theorem checkAll_quoted (w : Walk) : ∀ fs : List Form, (∀ f ∈ fs, f.IsData) → checkAll idx true w fs = w
  | [] => fun _ => rfl
  | f :: fs => fun h => by
    have hrest := checkAll_quoted w fs fun g hg => h g (List.mem_cons_of_mem _ hg)
    rw [checkAll, check_quoted w f (h f List.mem_cons_self), hrest]

end

end Walk

/-! ## Nodes and their forms -/

namespace Node

mutual

/-- A node and all nodes below it, each before those below it. -/
def nodes : Node → List Node
  | ⟨label, items⟩ => ⟨label, items⟩ :: nodesOf items

/-- Some nodes and all nodes below them. -/
def nodesOf : List Node → List Node
  | [] => []
  | n :: ns => n.nodes ++ nodesOf ns

end

/-- The name of the symbol that an s-expression has as its first value item. -/
def headName? (n : Node) : Option Text := if n.kind = .sexpr then n.valueItems.head?.bind name? else none

/-- Whether a node unquotes: it is an s-expression and its first value item is the symbol `unquote`,
with quotes around it or without. -/
def Unquotes (n : Node) : Prop := n.headName? = some (utf8 "unquote")

end Node

namespace Form

/-- What is below the form of a node are forms of its items. -/
theorem inner_subset {n : Node} {f : Form} (h : ofNode n = [f]) (hmember : n.kind ≠ .structMember) :
    f.inner ⊆ subformsOf (ofNodes n.items) := by
  obtain ⟨label, items⟩ := n
  unfold ofNode at h
  split at h
  case h_1 => contradiction
  case h_2 | h_3 | h_4 => cases h
  case h_7 | h_8 | h_9 =>
    cases h
    exact List.Subset.refl _
  all_goals
    cases h
    exact List.nil_subset _

/-- A form is the view of a node that is no member of a struct. -/
def Views (f : Form) (n : Node) : Prop := n.kind ≠ .structMember ∧ ofNode n = [f]

mutual

/-- Each form below a node is the view of a node there. -/
theorem exists_node_of_subform : ∀ n : Node, ∀ g ∈ subformsOf (ofNode n), ∃ m ∈ n.nodes, g.Views m
  | ⟨label, items⟩ => by
    have hitems : ∀ g ∈ subformsOf (ofNodes items), ∃ m ∈ Node.nodes ⟨label, items⟩, g.Views m := by
      intro g hg
      obtain ⟨m, hm, hview⟩ := exists_node_of_subformsOf items g hg
      exact ⟨m, List.mem_cons_of_mem _ hm, hview⟩
    by_cases hmember : label.kind = .structMember
    · rw [ofNode, hmember]
      exact hitems
    by_cases hcontent : (Node.mk label items).isContent = true
    · obtain ⟨f, hview, -⟩ := ofNode_of_content hcontent hmember
      intro g hg
      rw [hview, subformsOf, subformsOf, List.append_nil] at hg
      rcases List.mem_cons.mp hg with rfl | hg
      · exact ⟨_, List.mem_cons_self, hmember, hview⟩
      · exact hitems g (inner_subset hview hmember hg)
    · rw [ofNode_of_not_content (Bool.eq_false_iff.mpr hcontent)]
      exact fun _ hg => absurd hg List.not_mem_nil

theorem exists_node_of_subformsOf : ∀ ns : List Node, ∀ g ∈ subformsOf (ofNodes ns), ∃ m ∈ Node.nodesOf ns, g.Views m
  | [] => fun _ hg => absurd hg List.not_mem_nil
  | n :: ns => by
    intro g hg
    rw [ofNodes, subformsOf_append] at hg
    rw [Node.nodesOf]
    rcases List.mem_append.mp hg with hg | hg
    · obtain ⟨m, hm, hview⟩ := exists_node_of_subform n g hg
      exact ⟨m, List.mem_append_left _ hm, hview⟩
    · obtain ⟨m, hm, hview⟩ := exists_node_of_subformsOf ns g hg
      exact ⟨m, List.mem_append_right _ hm, hview⟩

end

/-- An s-expression with a head is the view of an s-expression that has the name of the head. -/
theorem Views.headName? {m : Node} {span : Span} {head : Form} {rest : List Form}
    (h : (sexpr span (head :: rest)).Views m) : m.headName? = head.name? := by
  obtain ⟨label, items⟩ := m
  obtain ⟨hmember, hview⟩ := h
  have hmember : label.kind ≠ .structMember := hmember
  obtain ⟨hkind, hitems⟩ : label.kind = .sexpr ∧ ofNodes items = head :: rest := by
    unfold ofNode at hview
    split at hview <;> simp_all
  rw [← ofNodes_contents, ofNodes_eq_flatMap] at hitems
  rw [Node.headName?, if_pos hkind, Node.valueItems]
  cases hcontents : Node.contents items with
  | nil =>
    rw [hcontents] at hitems
    contradiction
  | cons first others =>
    have hfirst : first ∈ Node.contents items := hcontents ▸ List.mem_cons_self
    obtain ⟨hcontent, hmember⟩ := Node.of_mem_contents hfirst
    obtain ⟨f, hf, hname⟩ := ofNode_of_content hcontent hmember
    rw [hcontents, List.flatMap_cons, hf] at hitems
    rw [List.head?_cons, Option.bind_some, ← hname, (List.cons.inj hitems).1]

/-- A node that is seen as a form that unquotes unquotes itself. -/
theorem Views.unquotes {m : Node} {g : Form} (h : g.Views m) (hg : g.keyword? = some .unquote) : m.Unquotes := by
  obtain ⟨span, head, rest, rfl⟩ : ∃ span head rest, g = sexpr span (head :: rest) := by
    unfold keyword? at hg
    split at hg
    · exact ⟨_, _, _, rfl⟩
    · contradiction
  obtain ⟨name, hname, hkeyword⟩ := Option.bind_eq_some_iff.mp hg
  rw [Node.Unquotes, h.headName?, hname, Keyword.ofText?_eq_unquote hkeyword]

/-- The forms of a node are data if nothing unquotes in it. -/
theorem isData_ofNode {n : Node} (h : ∀ m ∈ n.nodes, ¬m.Unquotes) : ∀ f ∈ ofNode n, f.IsData := by
  intro f hf g hg hkeyword
  have hbelow : g ∈ subformsOf (ofNode n) := by
    rw [subformsOf_eq_flatMap]
    exact List.mem_flatMap_of_mem hf hg
  obtain ⟨m, hm, hview⟩ := exists_node_of_subform n g hbelow
  exact h m hm (hview.unquotes hkeyword)

end Form

/-! ## Visiting nodes -/

/-- Follows what a node of a file tells. -/
def Node.visit (need : Text → LoadM Nat) (quoted : Bool) (sum : Summary) (n : Node) : LoadM Summary :=
  (Form.directivesOf quoted (Form.ofNode n)).foldlM (Directive.follow need) sum

theorem Form.directivesOf_append (quoted : Bool) (fs gs : List Form) :
    directivesOf quoted (fs ++ gs) = directivesOf quoted fs ++ directivesOf quoted gs := by
  induction fs with
  | nil => rfl
  | cons f fs ih => rw [List.cons_append, directivesOf, directivesOf, ih, List.append_assoc]

/-- A file is visited node by node. -/
theorem SourceFile.summarize_eq (need : Text → LoadM Nat) (file : SourceFile) :
    file.summarize need = ExceptT.adapt file.resolve (file.nodes.foldlM (Node.visit need false) {}) := by
  have hall : ∀ (nodes : List Node) (sum : Summary),
      (Form.directivesOf false (Form.ofNodes nodes)).foldlM (Directive.follow need) sum =
        nodes.foldlM (Node.visit need false) sum := by
    intro nodes
    induction nodes with
    | nil => exact fun _ => rfl
    | cons n nodes ih =>
      intro sum
      rw [Form.ofNodes, Form.directivesOf_append, List.foldlM_append, List.foldlM_cons]
      exact bind_congr ih
  exact congrArg (ExceptT.adapt file.resolve) (hall file.nodes {})

/-! ## Quasi-quoted nodes -/

namespace Node

variable {n head : Node} {args : List Node}

/-- The form of an s-expression that the symbol `quasiquote` heads. -/
theorem ofNode_quasiquote (hkind : n.kind = .sexpr) (hitems : n.valueItems = head :: args)
    (hhead : head.symbol? = some (utf8 "quasiquote")) :
    Form.ofNode n = [.sexpr n.span (.symbol head.span (utf8 "quasiquote") :: args.flatMap Form.ofNode)] := by
  obtain ⟨label, items⟩ := n
  obtain ⟨⟨kind, span, annotations, value, lines, count⟩, below⟩ := head
  have hkind : label.kind = .sexpr := hkind
  obtain ⟨hsymbol, hvalue⟩ : kind = .symbol ∧ value = utf8 "quasiquote" := by
    unfold symbol? at hhead
    split at hhead
    · exact ⟨‹_›, Option.some.inj hhead⟩
    · contradiction
  subst hsymbol hvalue
  rw [valueItems] at hitems
  rw [Form.ofNode, hkind]
  dsimp only
  rw [← Form.ofNodes_contents, hitems, Form.ofNodes_eq_flatMap, List.flatMap_cons, Form.ofNode]
  rfl

/-- Quasi-quoted data in which nothing unquotes is inert, quoted again or not: the loader visits it
without a failure, loads nothing and learns nothing from it, and a check binds no name in it and reports
nothing. -/
theorem quasiquoted_inert (hkind : n.kind = .sexpr) (hitems : n.valueItems = head :: args)
    (hhead : head.symbol? = some (utf8 "quasiquote")) (hdata : ∀ e ∈ args, ∀ m ∈ e.nodes, ¬m.Unquotes)
    (quoted : Bool) :
    (∀ need sum (s : LoadState), (n.visit need quoted sum).run s = (.ok sum, s)) ∧
      ∀ idx w, Walk.checkAll idx quoted w (Form.ofNode n) = w := by
  have hform := ofNode_quasiquote hkind hitems hhead
  have hargs : ∀ f ∈ args.flatMap Form.ofNode, f.IsData := by
    intro f hf
    obtain ⟨e, he, hf⟩ := List.mem_flatMap.mp hf
    exact Form.isData_ofNode (hdata e he) f hf
  have hkeyword : Keyword.ofText? (utf8 "quasiquote") = some .quasiquote := by decide
  constructor
  · intro need sum s
    have hnone : Form.directivesOf quoted (Form.ofNode n) = [] := by
      rw [hform, Form.directivesOf, Form.directives, Form.sexprDirectives, hkeyword]
      have hdirectives := Form.directivesOf_quoted _ hargs
      cases quoted <;> rw [← hdirectives] <;> exact List.append_nil _
    rw [visit, hnone]
    rfl
  · intro idx w
    have hwalk : Walk.checkAll idx true w _ = w := Walk.checkAll_quoted w _ hargs
    have hself {place rest} : (Form.sexpr n.span (.symbol place (utf8 "quasiquote") :: rest)).keyword? = some .quasiquote :=
      hkeyword
    rw [hform, Walk.checkAll, Walk.checkAll, Walk.check_of_keyword hself]
    cases quoted <;> exact hwalk

/-- A module, definitions, imports and functions in the groups of quasi-quoted data; the symbol `unquote`
heads nothing there. -/
def quasiquotedDirectives : Text :=
  utf8 "(quasiquote [(module a \"/b\" (define (f x) y)), \x7bk: (provide (rename_out z))\x7d, ((lambda (v) u) (require \"/c\" 1)), 'unquote'])"

theorem quasiquoted_inert_directives :
    ∃ n head arg, parse [] quasiquotedDirectives = .ok [n] ∧ n.kind = .sexpr ∧ n.valueItems = [head, arg] ∧
      head.symbol? = some (utf8 "quasiquote") ∧ (∀ m ∈ arg.nodes, ¬m.Unquotes) ∧
      (∀ need sum (s : LoadState), (n.visit need false sum).run s = (.ok sum, s)) ∧
      ∀ idx w, Walk.checkAll idx false w (Form.ofNode n) = w := by
  have hone : (parse [] quasiquotedDirectives).toOption.map List.length = some 1 := by decide +kernel
  have hshape : ((parse [] quasiquotedDirectives).toOption.all (·.all fun n =>
      n.kind == .sexpr && n.valueItems.length == 2 &&
        n.valueItems.head?.bind symbol? == some (utf8 "quasiquote") &&
        (n.valueItems.drop 1).all (·.nodes.all (·.headName? != some (utf8 "unquote"))))) = true := by
    decide +kernel
  obtain ⟨nodes, hparsed, hlength⟩ := Option.map_eq_some_iff.mp hone
  obtain ⟨n, rfl⟩ := List.length_eq_one_iff.mp hlength
  rw [hparsed] at hshape
  simp only [Option.all_some, List.all_cons, List.all_nil, Bool.and_true, Bool.and_eq_true, beq_iff_eq] at hshape
  obtain ⟨⟨⟨hkind, htwo⟩, hhead⟩, hdata⟩ := hshape
  obtain ⟨head, arg, hitems⟩ := List.length_eq_two.mp htwo
  rw [hitems] at hhead hdata
  simp only [List.drop_one, List.tail_cons, List.all_cons, List.all_nil, Bool.and_true, List.all_eq_true,
    bne_iff_ne] at hdata
  have hok : parse [] quasiquotedDirectives = .ok [n] := by
    cases hparse : parse [] quasiquotedDirectives with
    | error e =>
      rw [hparse] at hparsed
      cases hparsed
    | ok nodes =>
      rw [hparse] at hparsed
      rw [Option.some.inj hparsed]
  exact ⟨n, head, arg, hok, hkind, hitems, hhead, hdata,
    quasiquoted_inert hkind hitems hhead (List.forall_mem_singleton.mpr hdata) false⟩

end Node

end FusionKit
