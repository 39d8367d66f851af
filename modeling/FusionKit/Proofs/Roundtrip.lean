import FusionKit.Proofs.Pipes
import FusionKit.Proofs.Rereading
import FusionKit.Format

/-!
# Printed trees are read back

The printed form of a well-formed layout tree is a program, and the layout of what is parsed is
the tree again as `reread` tells: without places, with newline runs joined where they meet, and
with the line break that a printed text ends with.
-/
set_option autoImplicit false

namespace FusionKit

/-- The line break that ends a printed text which does not end with one already. -/
def Node.endings : List (List Node) := [[], [.newlineRun 1]]

/-- The newline run that the final line break of some characters is read as. -/
def Node.ending (cs : List Char) : List Node := if finalBreak cs = [] then [] else [.newlineRun 1]

theorem Node.ending_mem (cs : List Char) : Node.ending cs ∈ Node.endings := by
  unfold Node.ending
  split <;> simp [Node.endings]

theorem finalBreak_cases (cs : List Char) : finalBreak cs = [] ∨ finalBreak cs = ['\n'] := by
  unfold finalBreak
  split
  · exact .inl rfl
  · split
    · exact .inl rfl
    · exact .inr rfl

theorem finalBreak_shows (cs : List Char) :
    Shows {} (finalBreak cs) (Node.signsOf false (Node.ending cs)) ∧ Clear false (finalBreak cs) := by
  unfold Node.ending
  rcases finalBreak_cases cs with h | h <;> rw [h]
  · exact ⟨.done rfl, .nil⟩
  · exact ⟨.brk (.done rfl), .newline _⟩

theorem Node.signsOf_append (ns ms : List Node) :
    signsOf false (ns ++ ms) = signsOf false ns ++ signsOf false ms := by
  induction ns with
  | nil => rfl
  | cons n ns ih => simp only [List.cons_append, signsOf, commaSigns, Bool.false_and,
      Bool.false_eq_true, if_false, List.append_nil, ih, List.append_assoc]

section

variable {S : Breadth} {s : Settings} {items ending : List Node}

/-- Where a text shows the signs of a row of top-level items, these items are parsed. -/
theorem LaidRow.parse (h : LaidRow (LaidIn S) .top items .top) (file : Text) {cs : List Char}
    (hcs : Shows {} cs (Node.signsOf false items)) :
    ∃ nodes ls, FusionKit.parse file (Text.ofChars (settled cs)) = .ok nodes ∧
      Node.layoutAll nodes = .ok ls ∧ Node.unplacedAll ls = Node.rereadFrom [] items := by
  have hgives := Token.scan_shows file hcs [] (by simp) {}
  simp only [List.nil_append, List.count_nil, List.replicate_zero] at hgives
  obtain ⟨nodes, ls, hprogram, hnodes, hls⟩ := h.readBack hgives.signs hgives.spaced
  refine ⟨nodes, ls, ?_, hnodes, hls⟩
  have := hprogram (Token.scan file {} {} (Glyph.ofChars (settled cs))).2 []
  rw [List.append_nil] at this
  unfold FusionKit.parse TokenStream.program
  rw [TokenStream.ofSource_eq_scan, Text.glyphs_ofChars]
  refine this.trans ?_
  rw [Reading.program, Reading.finish]
  simp [Reading.isIdle]

theorem LaidRow.append_ending (h : LaidRow (LaidIn S) .top items .top) (he : ending ∈ Node.endings) :
    LaidRow (LaidIn S) .top (items ++ ending) .top := by
  refine LaidRow.append h ?_
  simp only [Node.endings, List.mem_cons, List.not_mem_nil, or_false] at he
  rcases he with rfl | rfl
  · exact .nil _
  · exact .newlines (by decide) (.nil _)

/-- The printed form of a row is a program again, and what is heard of the row is read back with the
final line break. -/
theorem LaidRow.parse_printed_ending (h : LaidRow (LaidIn S) .top items .top) (hS : S.Fits s)
    (hapart : Node.Apart items) (file : Text) :
    ∃ cs nodes ls, (items.foldl (fun p n => Node.print s 0 p n) ({} : Page)).text = Text.ofChars cs ∧
      FusionKit.parse file (Text.ofChars cs).trimLineEnds = .ok nodes ∧ Node.layoutAll nodes = .ok ls ∧
      Node.unplacedAll ls = Node.rereadFrom [] (Node.hearAll items ++ Node.ending cs) := by
  obtain ⟨cs, hadds, hcs⟩ := top_written (h.mono fun _ _ h => h.heard hS) rfl hapart {}
  obtain ⟨hshows, hclear⟩ := finalBreak_shows cs
  have hcolon : ∀ w us, Node.signsOf false (Node.ending cs) ≠ .word .colon w :: us := by
    intro w us
    unfold Node.ending
    split <;> simp [Node.signsOf, Node.signs, Node.newlineRun, Node.commaSigns]
  have hall := hcs.shows rfl rfl hclear hcolon hshows
  rw [← Node.signsOf_append] at hall
  have hheard : LaidRow (LaidIn .all) .top (Node.hearAll items) .top := h.hearAll fun _ _ h => h.hear
  obtain ⟨nodes, ls, hparse, hnodes, hls⟩ :=
    (hheard.append_ending (Node.ending_mem cs)).parse file hall
  exact ⟨cs, nodes, ls, hadds, by rw [Text.trimLineEnds_ofChars, hparse], hnodes, hls⟩

/-- The printed form of a row is a program again. -/
theorem LaidRow.parse_printed (h : LaidRow (LaidIn S) .top items .top) (hS : S.Fits s)
    (hapart : Node.Apart items) (file : Text) :
    ∃ ending ∈ Node.endings, ∃ nodes ls,
      FusionKit.parse file (items.foldl (fun p n => Node.print s 0 p n) ({} : Page)).text.trimLineEnds =
        .ok nodes ∧
      Node.layoutAll nodes = .ok ls ∧
      Node.unplacedAll ls = Node.rereadFrom [] (Node.hearAll items ++ ending) := by
  obtain ⟨cs, nodes, ls, htext, hparse, hread⟩ := h.parse_printed_ending hS hapart file
  exact ⟨Node.ending cs, Node.ending_mem cs, nodes, ls, by rw [htext, hparse], hread⟩

end

/-- A row without s-expressions that are headed by a pipe is heard as it is. -/
theorem Row.hearAll_eq {s t : Slot} {items : List Node} (h : Row s items t) : Node.hearAll items = items :=
  LaidRow.hearAll_eq (LaidRow.mono h fun _ _ h => h.hear_eq)

theorem Row.append_ending {items ending : List Node} (h : Row .top items .top)
    (he : ending ∈ Node.endings) : Row .top (items ++ ending) .top :=
  LaidRow.append_ending h he

/-- The printed form of a row is a program again, and read back with its final line break. -/
theorem Row.parse_printed_ending {items : List Node} (h : Row .top items .top) (hapart : Node.Apart items)
    (s : Settings) (file : Text) :
    ∃ cs nodes ls, (items.foldl (fun p n => Node.print s 0 p n) ({} : Page)).text = Text.ofChars cs ∧
      FusionKit.parse file (Text.ofChars cs).trimLineEnds = .ok nodes ∧ Node.layoutAll nodes = .ok ls ∧
      Node.unplacedAll ls = Node.rereadFrom [] (items ++ Node.ending cs) := by
  have := LaidRow.parse_printed_ending h (Breadth.plain_fits s) hapart file
  rwa [h.hearAll_eq] at this

/-- The printed form of a row is a program again. -/
theorem Row.parse_printed {items : List Node} (h : Row .top items .top) (hapart : Node.Apart items)
    (s : Settings) (file : Text) :
    ∃ ending ∈ Node.endings, ∃ nodes ls,
      FusionKit.parse file (items.foldl (fun p n => Node.print s 0 p n) ({} : Page)).text.trimLineEnds = .ok nodes ∧
      Node.layoutAll nodes = .ok ls ∧
      Node.unplacedAll ls = Node.rereadFrom [] (items ++ ending) := by
  have := LaidRow.parse_printed h (Breadth.plain_fits s) hapart file
  rwa [h.hearAll_eq] at this

end FusionKit
