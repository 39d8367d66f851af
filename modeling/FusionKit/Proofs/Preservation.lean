import FusionKit.Proofs.Basics
import FusionKit.Proofs.Roundtrip
import FusionKit.Proofs.Sources
import FusionKit.Proofs.Tidying

/-!
# Formatting preserves programs

The formatted source is a program again, with the content and the line comments of the source.
-/
set_option autoImplicit false

namespace FusionKit

namespace Node

theorem Apart.of_labels {ns ms : List Node} (h : Apart ns) (hl : ms.map Node.label = ns.map Node.label) :
    Apart ms := by
  have hlabels : ∀ ks : List Node, Apart ks ↔ (ks.map Node.label).IsChain fun k l =>
      ¬ ((⟨k, []⟩ : Node).isValue = true ∧ (⟨l, []⟩ : Node).isValue = true) := by
    intro ks
    rw [List.isChain_map]
    rfl
  rwa [hlabels, hl, ← hlabels]

/-- The tree that is printed. -/
def arranged (s : Settings) (tree : List Node) : List Node :=
  if s.fixesNewlines then tree.map tidy else tree

theorem labels_arranged (s : Settings) (tree : List Node) :
    (arranged s tree).map Node.label = tree.map Node.label := by
  unfold arranged
  split
  · rw [List.map_map]
    exact List.map_congr_left fun n _ => n.tidy_label
  · rfl

end Node

theorem LaidRow.arranged {S : Breadth} {s t : Slot} {items : List Node} (h : LaidRow (LaidIn S) s items t)
    (settings : Settings) :
    LaidRow (LaidIn S) s (Node.arranged settings items) t ∧
      Node.coreOf (Node.arranged settings items) = Node.coreOf items ∧
      Node.lineCommentsOf (Node.arranged settings items) = Node.lineCommentsOf items := by
  unfold Node.arranged
  split
  · exact h.tidied
  · exact ⟨h, rfl, rfl⟩

theorem Row.arranged {s t : Slot} {items : List Node} (h : Row s items t) (settings : Settings) :
    Row s (Node.arranged settings items) t ∧
      Node.coreOf (Node.arranged settings items) = Node.coreOf items ∧
      Node.lineCommentsOf (Node.arranged settings items) = Node.lineCommentsOf items :=
  LaidRow.arranged h settings

/-- The line break at the end of a printed text is no content. -/
theorem LaidRow.kept_ending {S : Breadth} {items ending : List Node}
    (h : LaidRow (LaidIn S) .top items .top) (he : ending ∈ Node.endings) :
    Node.coreOf (Node.rereadFrom [] (items ++ ending)) = Node.coreOf items ∧
      Node.lineCommentsOf (Node.rereadFrom [] (items ++ ending)) = Node.lineCommentsOf items := by
  have hnone : Node.coreOf ending = [] ∧ Node.lineCommentsOf ending = [] := by
    simp only [Node.endings, List.mem_cons, List.not_mem_nil, or_false] at he
    rcases he with rfl | rfl <;> exact ⟨rfl, rfl⟩
  obtain ⟨hcore, hcomments⟩ :=
    LaidRow.kept (h.append_ending he) (fun _ _ h => ⟨h.isContent, h.kept⟩) []
  rw [hcore, hcomments, Node.coreOf_append, Node.lineCommentsOf_append, hnone.1, hnone.2,
    List.append_nil, List.append_nil]
  exact ⟨rfl, rfl⟩

/-- A parsed source whose tree can be laid out is formatted as its layout is printed. -/
theorem format_of_laid {file source : Text} {nodes tree : List Node} (h : parse file source = .ok nodes)
    (htree : Node.layoutAll nodes = .ok tree) (s : Settings) :
    format s file source = .ok (Node.printed s tree) := by
  unfold format
  rw [h]
  simp only [htree]

/-- What formatting makes of a program `nodes`, when it prints the tree `items`: the tree has the content and
the line comments of the program, and the output is the program `nodes'` that is heard of the tree. -/
structure Formatted (S : Breadth) (nodes items nodes' : List Node) : Prop where
  row : LaidRow (LaidIn S) .top items .top
  core : Node.coreOf items = Node.erasedAll nodes
  comments : Node.lineCommentsOf items = Node.lineCommentsOf nodes
  heard : Node.erasedAll nodes' = Node.coreOf (Node.hearAll items)
  heardComments : Node.lineCommentsOf nodes' = Node.lineCommentsOf (Node.hearAll items)

section

variable {S : Breadth} {s : Settings} {file source : Text} {nodes tree : List Node}

/-- The output of formatting is parsed, and is the program that is heard of the tree that is
printed. -/
theorem format_heard (hS : S.Fits s) (h : parse file source = .ok nodes) (htree : Node.layoutAll nodes = .ok tree)
    (hrow : LaidRow (LaidIn S) .top tree .top) (hapart : Node.Apart tree) (file' : Text) :
    ∃ out nodes', format s file source = .ok out ∧ parse file' out = .ok nodes' ∧
      Node.erasedAll nodes' = Node.coreOf (Node.hearAll (Node.arranged s tree)) ∧
      Node.lineCommentsOf nodes' = Node.lineCommentsOf (Node.hearAll (Node.arranged s tree)) := by
  obtain ⟨hrow, -⟩ := hrow.arranged s
  have hapart : Node.Apart (Node.arranged s tree) := hapart.of_labels (Node.labels_arranged s tree)
  obtain ⟨ending, hending, nodes', ls, hparse, hlaid, hread⟩ := hrow.parse_printed hS hapart file'
  obtain ⟨tree', htree'⟩ := parse_laysOut hparse
  obtain rfl : tree' = ls := Except.ok.inj (htree'.laid.symm.trans hlaid)
  have hheard : LaidRow (LaidIn .all) .top (Node.hearAll (Node.arranged s tree)) .top :=
    hrow.hearAll fun _ _ h => h.hear
  obtain ⟨hcore, hcomments⟩ := hheard.kept_ending hending
  refine ⟨Node.printed s tree, nodes', format_of_laid h htree s, hparse, ?_, ?_⟩
  · rw [← htree'.core, ← Node.coreOf_unplaced, hread, hcore]
  · rw [← htree'.comments, ← Node.lineCommentsOf_unplaced, hread, hcomments]

/-- A program that suits a breadth is formatted, if the breadth fits the settings. -/
theorem format_formatted (hS : S.Fits s) (h : parse file source = .ok nodes)
    (hlong : ∀ t ∈ (TokenStream.ofSource file source).tokens, t.type = .longString → S.long)
    (hsuit : Node.AllSuit S false nodes) (hapart : Node.Apart nodes) (file' : Text) :
    ∃ items out nodes', format s file source = .ok out ∧ parse file' out = .ok nodes' ∧
      Formatted S nodes items nodes' := by
  obtain ⟨tree, htree⟩ := parse_laysOut_in S (P := True) h fun _ => hlong
  have hrow := htree.row trivial hsuit
  obtain ⟨harranged, hcore, hcomments⟩ := hrow.arranged s
  obtain ⟨out, nodes', hout, hparse, hheard, hheardComments⟩ :=
    format_heard hS h htree.laid hrow (hapart.of_labels htree.labels) file'
  exact ⟨_, out, nodes', hout, hparse, harranged, hcore.trans htree.core, hcomments.trans htree.comments, hheard,
    hheardComments⟩

/-- Formatting keeps the program: the output is parsed, and differs from the source in nothing but
block comments, line breaks and places. -/
theorem format_preserves (h : parse file source = .ok nodes)
    (hlong : ∀ t ∈ (TokenStream.ofSource file source).tokens, t.type ≠ .longString)
    (hapart : Node.Apart nodes) (hfree : Node.pipeFreeAll nodes = true) (s : Settings) (file' : Text) :
    ∃ out nodes', format s file source = .ok out ∧ parse file' out = .ok nodes' ∧
      Node.erasedAll nodes' = Node.erasedAll nodes ∧
      Node.lineCommentsOf nodes' = Node.lineCommentsOf nodes := by
  obtain ⟨items, out, nodes', hout, hparse, hformatted⟩ := format_formatted (Breadth.plain_fits s) h hlong
    (Node.allSuit_of_pipeFreeAll _ _ hfree) hapart file'
  have hheard : Node.hearAll items = items := Row.hearAll_eq hformatted.row
  refine ⟨out, nodes', hout, hparse, ?_, ?_⟩
  · rw [hformatted.heard, hheard, hformatted.core]
  · rw [hformatted.heardComments, hheard, hformatted.comments]

end

theorem format_preserves_commented : ∃ nodes out nodes',
    parse [] (utf8 "// a\n[x::b, (1 + 2)] /* c */") = .ok nodes ∧
    format .default [] (utf8 "// a\n[x::b, (1 + 2)] /* c */") = .ok out ∧
    parse [] out = .ok nodes' ∧ Node.erasedAll nodes' = Node.erasedAll nodes ∧
    Node.lineCommentsOf nodes' = Node.lineCommentsOf nodes := by
  obtain ⟨nodes, hnodes, hparse⟩ := exists_ok_of_any
    (show ((parse [] (utf8 "// a\n[x::b, (1 + 2)] /* c */")).toOption.any fun nodes =>
      decide (Node.Apart nodes) && Node.pipeFreeAll nodes) = true by decide +kernel)
  simp only [Bool.and_eq_true, decide_eq_true_eq] at hparse
  obtain ⟨out, nodes', h⟩ := format_preserves hnodes (by decide +kernel) hparse.1 hparse.2 .default []
  exact ⟨nodes, out, nodes', hnodes, h⟩

/-! ## Long strings and pipes -/

namespace Node

mutual

/-- Whether formatting leaves the texts of a node as they are, as the item of a clob or elsewhere. -/
def isSteady (inClob : Bool) : Node → Bool
  | ⟨label, items⟩ => label.isSteady inClob && areSteady (label.kind == .clob) items

/-- Whether formatting leaves the texts of some nodes as they are. -/
def areSteady (inClob : Bool) : List Node → Bool
  | [] => true
  | n :: ns => isSteady inClob n && areSteady inClob ns

end

/-- Whether no pipe of an s-expression has annotations but for the one at its head, if one is there. -/
def arePipesBare (items : List Node) : Bool :=
  match items.filter isContent with
  | [] => true
  | p :: ps => !p.isPipe || ps.all fun m => !m.isPipe || m.isBare

mutual

/-- Whether the pipes in the s-expressions of a node have no annotations. -/
def barePipes : Node → Bool
  | ⟨label, items⟩ => (label.kind != .sexpr || arePipesBare items) && barePipesAll items

/-- Whether the pipes in the s-expressions of some nodes have no annotations. -/
def barePipesAll : List Node → Bool
  | [] => true
  | n :: ns => barePipes n && barePipesAll ns

end

theorem barePipes_of_arePipesBare {items : List Node} (h : arePipesBare items = true) : BarePipes items := by
  intro p ps hps hp m hm hpipe
  rw [arePipesBare, hps] at h
  simp only [hp, Bool.not_true, Bool.false_or, List.all_eq_true] at h
  have := h m hm
  rw [hpipe, Bool.not_true, Bool.false_or, isBare, List.isEmpty_iff] at this
  exact this

section

variable {long : Prop}

mutual

theorem suits_piped {inClob : Bool} : ∀ n : Node, (long → isSteady inClob n = true) → barePipes n = true →
    Suits (.piped long) inClob n
  | ⟨label, items⟩, hsteady, hpipes => by
    simp only [isSteady, Bool.and_eq_true] at hsteady
    rw [barePipes, Bool.and_eq_true] at hpipes
    refine ⟨fun h => (hsteady h).1, fun hk => barePipes_of_arePipesBare ?_,
      allSuit_piped items (fun h => (hsteady h).2) hpipes.2⟩
    simpa [hk] using hpipes.1

theorem allSuit_piped {inClob : Bool} : ∀ ns : List Node, (long → areSteady inClob ns = true) →
    barePipesAll ns = true → AllSuit (.piped long) inClob ns
  | [], _, _ => trivial
  | n :: ns, hsteady, hpipes => by
    simp only [areSteady, Bool.and_eq_true] at hsteady
    rw [barePipesAll, Bool.and_eq_true] at hpipes
    exact ⟨suits_piped n (fun h => (hsteady h).1) hpipes.1, allSuit_piped ns (fun h => (hsteady h).2) hpipes.2⟩

end

end

end Node

section

variable {s : Settings} {file source : Text} {nodes : List Node}

/-- A program is formatted if its pipes are bare and its long strings, if it has any, are left as they are. -/
theorem format_steady (h : parse file source = .ok nodes) (hapart : Node.Apart nodes)
    (hpipes : Node.barePipesAll nodes = true)
    (hlong : (∃ t ∈ (TokenStream.ofSource file source).tokens, t.type = .longString) →
      s.formatLongStrings = false ∧ Node.areSteady false nodes = true) (file' : Text) :
    ∃ S items out nodes', format s file source = .ok out ∧ parse file' out = .ok nodes' ∧
      Formatted S nodes items nodes' :=
  ⟨_, format_formatted (Breadth.piped_fits fun hany => (hlong hany).1) h (fun t ht htype => ⟨t, ht, htype⟩)
    (Node.allSuit_piped nodes (fun hany => (hlong hany).2) hpipes) hapart file'⟩

namespace Node

theorem countP_isContent_eq_erased (ns : List Node) : ns.countP isContent = (erasedAll ns).length := by
  induction ns with
  | nil => rfl
  | cons n ns ih =>
    cases hn : n.isContent with
    | true => rw [List.countP_cons_of_pos hn, erasedAll_content hn, ih, List.length_cons]
    | false => rw [List.countP_cons_of_neg (by simp [hn]), erasedAll_skip hn, ih]

/-- As many nodes with content are heard as are printed. -/
theorem length_coreOf_hearAll (ns : List Node) : (coreOf (hearAll ns)).length = (coreOf ns).length := by
  rw [coreOf_eq_map, coreOf_eq_map, List.length_map, List.length_map, hearAll_eq_map, List.filter_map,
    List.length_map]
  exact congrArg (fun p => (ns.filter p).length) (funext isContent_hear)

end Node

/-- Values with a comment or a line break between them are neither joined nor split. -/
theorem format_keeps_values (h : parse file source = .ok nodes) (hapart : Node.Apart nodes)
    (hpipes : Node.barePipesAll nodes = true)
    (hlong : (∃ t ∈ (TokenStream.ofSource file source).tokens, t.type = .longString) →
      s.formatLongStrings = false ∧ Node.areSteady false nodes = true) (file' : Text) :
    ∃ out nodes', format s file source = .ok out ∧ parse file' out = .ok nodes' ∧
      nodes'.countP Node.isContent = nodes.countP Node.isContent := by
  obtain ⟨S, items, out, nodes', hout, hparse, hformatted⟩ := format_steady h hapart hpipes hlong file'
  refine ⟨out, nodes', hout, hparse, ?_⟩
  rw [Node.countP_isContent_eq_erased, hformatted.heard, Node.length_coreOf_hearAll, hformatted.core,
    Node.countP_isContent_eq_erased]

end

theorem format_keeps_values_three : ∃ nodes out nodes', parse [] (utf8 "a\n(| b | c)\n'''d'''") = .ok nodes ∧
    format { Settings.default with formatLongStrings := false } [] (utf8 "a\n(| b | c)\n'''d'''") = .ok out ∧
    parse [] out = .ok nodes' ∧ nodes'.countP Node.isContent = nodes.countP Node.isContent := by
  obtain ⟨nodes, hnodes, hparse⟩ := exists_ok_of_any
    (show ((parse [] (utf8 "a\n(| b | c)\n'''d'''")).toOption.any fun nodes =>
      decide (Node.Apart nodes) && Node.barePipesAll nodes && Node.areSteady false nodes) = true by decide +kernel)
  simp only [Bool.and_eq_true, decide_eq_true_eq] at hparse
  obtain ⟨⟨hapart, hpipes⟩, hsteady⟩ := hparse
  obtain ⟨out, nodes', h⟩ := format_keeps_values (s := { Settings.default with formatLongStrings := false })
    hnodes hapart hpipes (fun _ => ⟨rfl, hsteady⟩) []
  exact ⟨nodes, out, nodes', hnodes, h⟩

/-- Without line break between them two values can become one. -/
theorem format_joins_neighbours :
    (parse [] (utf8 "a b")).map (List.countP Node.isContent) = .ok 2 ∧
    format .default [] (utf8 "a b") = .ok (utf8 "ab\n") ∧
    (parse [] (utf8 "ab\n")).map (List.countP Node.isContent) = .ok 1 := by
  decide +kernel

end FusionKit
