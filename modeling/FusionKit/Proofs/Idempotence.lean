import FusionKit.Proofs.TidyTrees

/-!
# Formatting again

Formatting a formatted source changes nothing where two things hold. No block comment is rewritten,
and tidying the newlines leaves none at the edge of a form: it drops one newline run from each edge,
and there are two where a comma stood between them.
-/
set_option autoImplicit false

namespace FusionKit

namespace Node

variable {n l : Node} {ns ls : List Node}

/-! ## Block comments of a source -/

theorem keepBlocks_append (ns ms : List Node) : keepBlocks (ns ++ ms) = (keepBlocks ns && keepBlocks ms) := by
  induction ns with
  | nil => rfl
  | cons n ns ih => rw [List.cons_append, keepBlocks, ih, keepBlocks, Bool.and_assoc]

theorem keepBlocks_eq_true {ns : List Node} : keepBlocks ns = true ↔ ∀ n ∈ ns, n.keepsBlocks = true := by
  induction ns with
  | nil => simp [keepBlocks]
  | cons n ns ih => simp [keepBlocks, ih]

/-- A node and its layout, which rewrites no block comment if the node has none to rewrite. -/
def KeepsAs (n l : Node) : Prop := n.keepsBlocks = true → l.keepsBlocks = true

theorem keepsAs_of_part (h : LaidPart KeepsAs n l) : KeepsAs n l := by
  cases h with
  | key => exact fun _ => rfl
  | other _ h => exact h

theorem keepBlocks_row (h : List.Forall₂ KeepsAs ns ls) (hns : keepBlocks ns = true) : keepBlocks ls = true := by
  induction h with
  | nil => rfl
  | cons h _ ih =>
    obtain ⟨hn, hns⟩ := keepBlocks_cons.mp hns
    exact keepBlocks_cons.mpr ⟨h hn, ih hns⟩

theorem keepBlocks_items (h : LaidItems KeepsAs ns ls) (hns : keepBlocks ns = true) : keepBlocks ls = true := by
  induction h with
  | nil => rfl
  | @trivia n ns ls _ _ ih =>
    obtain ⟨label, items⟩ := n
    obtain ⟨hn, hns⟩ := keepBlocks_cons.mp hns
    rw [keepsBlocks, Bool.and_eq_true] at hn
    refine keepBlocks_cons.mpr ⟨?_, ih hns⟩
    rw [keepsBlocks, Bool.and_eq_true]
    exact ⟨hn.1, rfl⟩
  | @member n ns first ls _ hfirst _ ih =>
    obtain ⟨label, items⟩ := n
    obtain ⟨hn, hns⟩ := keepBlocks_cons.mp hns
    rw [keepsBlocks, Bool.and_eq_true] at hn
    rw [keepBlocks_append, keepBlocks_row (hfirst.imp fun _ _ => keepsAs_of_part) hn.2, ih hns]
    rfl

/-- Laying a tree out keeps its block comments. -/
theorem keepsBlocks_layout (h : n.layout = .ok l) : KeepsAs n l := by
  refine layout_induction (fun n l h hkeep => ?_) h
  have hform : ∀ {label : Label} {items ls : List Node}, keepsBlocks ⟨label, items⟩ = true →
      (keepBlocks items = true → keepBlocks ls = true) → keepsBlocks ⟨label, ls⟩ = true := by
    intro label items ls hkeep hls
    rw [keepsBlocks, Bool.and_eq_true] at hkeep ⊢
    exact ⟨hkeep.1, hls hkeep.2⟩
  cases h with
  | leaf => exact hform hkeep fun _ => rfl
  | form _ h | clob _ h => exact hform hkeep (keepBlocks_row h)
  | struct _ h => exact hform hkeep (keepBlocks_items h)

theorem keepBlocks_layoutAll (ns : List Node) (h : layoutAll ns = .ok ls) (hns : keepBlocks ns = true) :
    keepBlocks ls = true :=
  keepBlocks_row ((layoutAll_eq_ok.mp h).imp fun _ _ => keepsBlocks_layout) hns

theorem mem_trimEdges {row : Row} {p : Node × Node} (h : p ∈ trimEdges row) : p ∈ row := by
  have hfirst : ∀ {p row}, p ∈ trimFirst row → p ∈ row := by
    intro p row h
    cases row with
    | nil => exact h
    | cons q row =>
      rw [trimFirst] at h
      split at h
      · exact List.mem_cons_of_mem _ h
      · exact h
  have hlast : ∀ {p row}, p ∈ trimLast row → p ∈ row := by
    intro p row h
    unfold trimLast at h
    split at h
    · rename_i hreverse
      split at h
      · rw [List.mem_reverse] at h
        rw [← List.mem_reverse, hreverse]
        exact List.mem_cons_of_mem _ h
      · exact h
    · exact h
  rw [trimEdges_eq] at h
  exact hfirst (hlast h)

theorem keepBlocks_respaced {trim : Row → Row} {items : List Node} (htrim : ∀ row, ∀ p ∈ trim row, p ∈ row)
    (hitems : ∀ m ∈ items, m.tidyItem.keepsBlocks = true) : keepBlocks (respaced trim items) = true := by
  rw [keepBlocks_eq_true]
  intro m hm
  rcases mem_breakRow hm with ⟨n, rfl⟩ | hm
  · rfl
  · obtain ⟨p, hp, rfl⟩ := List.mem_map.mp hm
    have hp := htrim _ p hp
    unfold clearEmpty at hp
    split at hp
    · contradiction
    · have hsnd := (List.of_mem_zip hp).2
      rw [tidyItems_eq_map] at hsnd
      obtain ⟨m, hm, hm'⟩ := List.mem_map.mp hsnd
      rw [← hm']
      exact hitems m hm

theorem keepsBlocks_form {label : Label} {ns : List Node} (hk : label.kind.isCompound = true)
    (h : keepBlocks ns = true) : keepsBlocks ⟨label, ns⟩ = true := by
  have hlabel : (label.kind != .commentBlock) = true := by
    rw [bne_iff_ne]
    intro hb
    rw [hb] at hk
    contradiction
  rw [keepsBlocks, hlabel, h]
  rfl

theorem keepsBlocks_tidyItem (n : Node) : n.keepsBlocks = true → n.tidyItem.keepsBlocks = true := by
  induction n using Node.induct with
  | h n ih =>
    intro h
    obtain ⟨label, items⟩ := n
    have hitems : keepBlocks items = true := by
      rw [keepsBlocks, Bool.and_eq_true] at h
      exact h.2
    rw [tidyItem]
    split
    · rename_i hk
      exact keepsBlocks_form hk (keepBlocks_respaced (fun row p hp => mem_trimEdges (mem_trimEdges hp))
        fun m hm => ih m hm (keepBlocks_eq_true.mp hitems m hm))
    · exact h

/-- Tidying newlines keeps block comments. -/
theorem keepsBlocks_tidy {n : Node} (h : n.keepsBlocks = true) : n.tidy.keepsBlocks = true := by
  obtain ⟨label, items⟩ := n
  have hitems : keepBlocks items = true := by
    rw [keepsBlocks, Bool.and_eq_true] at h
    exact h.2
  rw [tidy]
  split
  · rename_i hk
    exact keepsBlocks_form hk (keepBlocks_respaced (fun row p => mem_trimEdges)
      fun m hm => m.keepsBlocks_tidyItem (keepBlocks_eq_true.mp hitems m hm))
  · exact h

/-- The tree of a source that is printed keeps its block comments. -/
theorem keepBlocks_arranged {tree : List Node} (h : keepBlocks tree = true) (s : Settings) :
    keepBlocks (arranged s tree) = true := by
  unfold arranged
  split
  · rw [keepBlocks_eq_true] at h ⊢
    intro m hm
    obtain ⟨n, hn, rfl⟩ := List.mem_map.mp hm
    exact keepsBlocks_tidy (h n hn)
  · exact h

theorem arranged_of_areTidy {tree : List Node} (s : Settings) (h : s.fixesNewlines = true → areTidy tree = true) :
    arranged s tree = tree := by
  unfold arranged
  split
  · rename_i hs
    rw [List.map_congr_left fun n hn => tidy_of_isTidy (areTidy_eq_true.mp (h hs) n hn), List.map_id']
  · rfl

end Node

open Node (keepBlocks areTidy)

/-- The final line break of a printed text is printed once. -/
theorem print_ending (s : Settings) {p : Page} {cs : List Char} (hp : p.text = Text.ofChars cs) :
    ((Node.ending cs).foldl (fun p n => Node.print s 0 p n) p).text.trimLineEnds = p.text.trimLineEnds := by
  unfold Node.ending
  split
  · rfl
  · rename_i hbreak
    have hfinal : finalBreak cs = ['\n'] := (finalBreak_cases cs).resolve_left hbreak
    have hlast : finalBreak (cs ++ ['\n']) = [] := by simp [finalBreak]
    have htext : (p.newlines 1 0).text = Text.ofChars (cs ++ ['\n']) := by
      rw [Page.newlines, Page.spaces, Page.text_write, Page.text_write, hp, Text.ofChars_append]
      simp [Text.repeated]
      rfl
    rw [List.foldl_cons, List.foldl_nil, Node.print_newlineRun, hp, Text.trimLineEnds_ofChars, hfinal]
    show (p.newlines 1 0).text.trimLineEnds = _
    rw [htext, Text.trimLineEnds_ofChars, hlast, List.append_nil]

/-- A printed row, parsed and printed again, gives the same text. -/
theorem Row.printed_again {items : List Node} (h : Row .top items .top) (hapart : Node.Apart items)
    (hkeep : keepBlocks items = true) (s : Settings) (htidy : s.fixesNewlines = true → areTidy items = true)
    (file : Text) {out : Text}
    (hout : (items.foldl (fun p n => Node.print s 0 p n) ({} : Page)).text.trimLineEnds = out) :
    format s file out = .ok out := by
  obtain ⟨cs, nodes, ls, htext, hparse, hlaid, hread⟩ := h.parse_printed_ending hapart s file
  have hending : keepBlocks (Node.ending cs) = true ∧ areTidy (Node.ending cs) = true := by
    unfold Node.ending
    split <;> exact ⟨rfl, rfl⟩
  have hrow := h.append_ending (Node.ending_mem cs)
  have hls : s.fixesNewlines = true → areTidy ls = true := by
    intro hs
    rw [← Node.areTidy_unplacedAll, hread]
    refine hrow.areTidy_reread (fun _ _ h => h.isContent) (fun _ _ h => h.isTidy_reread) 0 ?_
    rw [Node.areTidy_append, htidy hs, hending.2]
    rfl
  have halike := hrow.print_reread (by rw [Node.keepBlocks_append, hkeep, hending.1]; rfl) hread s {}
  have hprinted : Node.printed s ls = out := by
    show ((Node.arranged s ls).foldl (fun p n => Node.print s 0 p n) ({} : Page)).text.trimLineEnds = out
    rw [Node.arranged_of_areTidy s hls, ← halike.text, List.foldl_append, print_ending s htext, hout]
  have hsource : (Text.ofChars cs).trimLineEnds = out := by rw [← htext, hout]
  rw [hsource] at hparse
  rw [format_of_laid hparse hlaid, hprinted]

section

variable {file source : Text} {nodes : List Node}

/-- A formatted source is formatted again to the same text if the layout of the source is tidied to tidy
trees. -/
theorem format_again (h : parse file source = .ok nodes)
    (hlong : ∀ t ∈ (TokenStream.ofSource file source).tokens, t.type ≠ .longString)
    (hapart : Node.Apart nodes) (hfree : Node.pipeFreeAll nodes = true) (hkeep : keepBlocks nodes = true)
    (s : Settings) (file' : Text) :
    ∃ tree, Node.layoutAll nodes = .ok tree ∧
      ((s.fixesNewlines = true → areTidy (tree.map Node.tidy) = true) →
        ∃ out, format s file source = .ok out ∧ format s file' out = .ok out) := by
  obtain ⟨tree, htree⟩ := parse_laysOut h
  obtain ⟨hrow, -, -⟩ := (htree.row hlong hfree).arranged s
  have hapart : Node.Apart (Node.arranged s tree) :=
    hapart.of_labels ((Node.labels_arranged s tree).trans htree.labels)
  have hkeep := Node.keepBlocks_arranged (Node.keepBlocks_layoutAll nodes htree.laid hkeep) s
  refine ⟨tree, htree.laid, fun htidy => ⟨Node.printed s tree, format_of_laid h htree.laid s,
    Row.printed_again hrow hapart hkeep s (fun hs => ?_) file' rfl⟩⟩
  rw [Node.arranged, if_pos hs]
  exact htidy hs

/-- Formatting a formatted source changes nothing, if no block comment is rewritten and tidying
leaves no newline run at the edge of a form. -/
theorem format_idempotent (h : parse file source = .ok nodes)
    (hlong : ∀ t ∈ (TokenStream.ofSource file source).tokens, t.type ≠ .longString)
    (hapart : Node.Apart nodes) (hfree : Node.pipeFreeAll nodes = true)
    (hkeep : keepBlocks nodes = true) (s : Settings)
    (htidy : s.fixesNewlines = true → ∀ tree, Node.layoutAll nodes = .ok tree →
      areTidy (tree.map Node.tidy) = true)
    (file' : Text) :
    ∃ out, format s file source = .ok out ∧ format s file' out = .ok out := by
  obtain ⟨tree, htree, hagain⟩ := format_again h hlong hapart hfree hkeep s file'
  exact hagain fun hs => htidy hs tree htree

/-- Tidying leaves no newline run at the edge of a form where newline runs stand apart, so formatting a
source changes nothing any more when it was formatted once and no two of its newline runs meet in a form. -/
theorem format_idempotent_of_runsApart (h : parse file source = .ok nodes)
    (hlong : ∀ t ∈ (TokenStream.ofSource file source).tokens, t.type ≠ .longString)
    (hapart : Node.Apart nodes) (hfree : Node.pipeFreeAll nodes = true) (hkeep : keepBlocks nodes = true)
    (hruns : ∀ tree, Node.layoutAll nodes = .ok tree → ∀ n ∈ tree, ∀ m, n.Below m → m.isCompound = true →
      Node.runsApart false m.items = true) (s : Settings) (file' : Text) :
    ∃ out, format s file source = .ok out ∧ format s file' out = .ok out := by
  obtain ⟨tree, htree, hagain⟩ := format_again h hlong hapart hfree hkeep s file'
  refine hagain fun _ => Node.areTidy_eq_true.mpr fun m hm => ?_
  obtain ⟨n, hn, rfl⟩ := List.mem_map.mp hm
  exact Node.isTidy_tidy (hruns tree htree n hn)

end

theorem format_idempotent_commented : ∃ nodes out,
    parse [] (utf8 "// a\n[\nx::b,\n (1 + 2) // b\n] /* c */") = .ok nodes ∧
    format .default [] (utf8 "// a\n[\nx::b,\n (1 + 2) // b\n] /* c */") = .ok out ∧
    format .default [] out = .ok out := by
  obtain ⟨nodes, hnodes, hparse⟩ := exists_ok_of_any
    (show ((parse [] (utf8 "// a\n[\nx::b,\n (1 + 2) // b\n] /* c */")).toOption.any fun nodes =>
      decide (Node.Apart nodes) && Node.pipeFreeAll nodes && keepBlocks nodes &&
        (Node.layoutAll nodes).toOption.all fun tree => areTidy (tree.map Node.tidy)) = true by
      decide +kernel)
  simp only [Bool.and_eq_true, decide_eq_true_eq] at hparse
  obtain ⟨⟨⟨hapart, hfree⟩, hkeep⟩, htidy⟩ := hparse
  obtain ⟨out, h⟩ := format_idempotent hnodes (by decide +kernel) hapart hfree hkeep .default
    (fun _ tree htree => by simpa only [htree, Except.toOption, Option.all_some] using htidy) []
  exact ⟨nodes, out, hnodes, h⟩

/-- Of the newline runs around a comma that goes, each formatting takes one. -/
theorem format_trims_again :
    format .default [] (utf8 "[1\n,\n]") = .ok (utf8 "[1\n]\n") ∧
    format .default [] (utf8 "[1\n]\n") = .ok (utf8 "[1]\n") := by
  decide +kernel

end FusionKit
