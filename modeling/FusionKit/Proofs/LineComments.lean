import FusionKit.Proofs.CommentRows
import FusionKit.Proofs.Decisions
import FusionKit.Proofs.Pages
import FusionKit.Proofs.Preservation

/-!
# Line comments on the page

In a printed program nothing but the end of the line follows a line comment on its line. To say what
the text of a comment is in the output, its place in the tree is left open and filled with one text
or another: no layout decision looks at what stands there, so the outputs differ in that text alone,
and behind it each of them has a line feed.
-/
set_option autoImplicit false

namespace FusionKit

namespace Page

/-- Pages that are the same from a line feed on, with `x` and `y` before it. -/
def SameSince (x y : Text) (p q : Page) : Prop :=
  ∃ r, p.reversed = r ++ byte '\n' :: x ∧ q.reversed = r ++ byte '\n' :: y

theorem sameSince_congruence (x y : Text) : Congruence (SameSince x y) where
  write := by
    rintro p q ⟨r, hp, hq⟩ t
    refine ⟨t.reverse ++ r, ?_, ?_⟩ <;> simp [Page.write, List.reverseAux_eq, hp, hq]
  column := by
    rintro p q ⟨r, hp, hq⟩
    have hline : ∀ z : Text, (r ++ byte '\n' :: z).takeWhile (· != byte '\n') = r.takeWhile (· != byte '\n') := by
      intro z
      clear hp hq
      induction r with
      | nil => rfl
      | cons b r ih => simp only [List.cons_append, List.takeWhile_cons, ih]
    rw [Page.column, Page.column, hp, hq, hline, hline]
  head := by
    rintro p q ⟨r, hp, hq⟩
    rw [hp, hq]
    cases r <;> rfl

/-- Pages with a text on them that ends its line, but for spaces, and that are the same in all else. -/
def HoldsLine (F : Text → Page) : Prop :=
  ∃ a n b, ∀ v, (F v).reversed = a ++ byte '\n' :: (List.replicate n (byte ' ') ++ (v.reverse ++ b))

/-- What is written behind the end of the line is written alike. -/
theorem HoldsLine.map {F : Text → Page} {G : Page → Page} (h : HoldsLine F)
    (hG : ∀ {R : Page → Page → Prop} {p q : Page}, Congruence R → R p q → R (G p) (G q)) :
    HoldsLine fun v => G (F v) := by
  obtain ⟨a, n, b, hF⟩ := h
  have hsame : ∀ v, SameSince _ _ (G (F [])) (G (F v)) := fun v =>
    hG (sameSince_congruence _ _) ⟨a, hF [], hF v⟩
  obtain ⟨r, hr, -⟩ := hsame []
  refine ⟨r, n, b, fun v => ?_⟩
  obtain ⟨r', hr', hv⟩ := hsame v
  rw [hv, List.append_cancel_right (hr'.symm.trans hr)]

/-- A text, spaces and a newline run. -/
theorem holds_line (p : Page) (indent : Int) (gap : Bool) {count : Int} (hcount : 1 ≤ count) (next : Int) :
    HoldsLine fun v => (((p.write v).spaces indent).spaceIf gap).newlines count next := by
  obtain ⟨k, hk⟩ : ∃ k : Nat, count = (k + 1 : Nat) := ⟨(count - 1).toNat, by omega⟩
  have hspaces : ∀ (q : Page) (i : Int), (q.spaces i).reversed = List.replicate i.toNat (byte ' ') ++ q.reversed := by
    intro q i
    simp [spaces, write, Text.repeated, List.reverseAux_eq]
  refine ⟨List.replicate next.toNat (byte ' ') ++ List.replicate k (byte '\n'), indent.toNat + gap.toNat, p.reversed,
    fun v => ?_⟩
  have hgap : (((p.write v).spaces indent).spaceIf gap).reversed =
      List.replicate (indent.toNat + gap.toNat) (byte ' ') ++ (v.reverse ++ p.reversed) := by
    cases gap with
    | false => simp [spaceIf, hspaces, write, List.reverseAux_eq]
    | true =>
      rw [Bool.toNat_true, List.replicate_succ]
      show byte ' ' :: ((p.write v).spaces indent).reversed = _
      rw [hspaces]
      simp [write, List.reverseAux_eq]
  have hbreaks : ∀ q : Page, (q.write (Text.repeated (byte '\n') count)).reversed =
      List.replicate k (byte '\n') ++ byte '\n' :: q.reversed := by
    intro q
    rw [hk, List.append_cons, ← List.replicate_succ']
    simp [write, Text.repeated, List.reverseAux_eq]
  show (Page.spaces _ _).reversed = _
  rw [hspaces, hbreaks, hgap, List.append_assoc]

end Page

open Page (HoldsLine Congruence)

/-! ## Rows of every kind -/

/-- The ways in which rows of items are written. -/
inductive RowStyle where
  | list (opening : Int)
  | struct (opening : Int)
  | sexpr (indent : Int) (gaps : List Bool)
  | top

namespace RowStyle

/-- Writes a row. -/
def print (s : Settings) : RowStyle → Page → List Node → Page
  | list opening, p, ns => Node.printList s opening p ns
  | struct opening, p, ns => Node.printStruct s opening p ns
  | sexpr indent gaps, p, ns => Node.printSExpr s indent p ns gaps
  | top, p, ns => ns.foldl (fun p n => n.print s 0 p) p

/-- What is written in front of an item. -/
def before (n : Node) (p : Page) : RowStyle → Page
  | list _ => p.spaceIf (!n.isNewlines && p.endsWithOneOf ",")
  | struct _ => p.spaceIf (!n.isNewlines && (p.endsWithOneOf ":/" || n.isComment))
  | sexpr .. | top => p

/-- The indent that an item is given, with `ns` behind it. -/
def indent (n : Node) (ns : List Node) : RowStyle → Int
  | list opening => if n.isNewlines && ns.isEmpty then opening else opening + 1
  | struct opening => if n.isNewlines then Node.structIndent opening ns else 0
  | sexpr indent _ => indent
  | top => 0

/-- What is written behind an item. -/
def after (n : Node) (ns : List Node) (p : Page) : RowStyle → Page
  | list _ | struct _ => Node.comma p n ns
  | sexpr _ gaps => p.spaceIf (gaps.head?.getD false)
  | top => p

/-- How the other items are written. -/
def rest : RowStyle → RowStyle
  | sexpr indent gaps => sexpr indent gaps.tail
  | style => style

variable {s : Settings} {n m : Node} {ns ms : List Node} {p : Page}

theorem print_cons (style : RowStyle) (p : Page) (n : Node) (ns : List Node) :
    style.print s p (n :: ns) =
      style.rest.print s (style.after n ns (n.print s (style.indent n ns) (style.before n p))) ns := by
  cases style with
  | list opening => simp only [print, Node.printList, rest, after, indent, before]
  | sexpr indent gaps => simp only [print, Node.printSExpr, rest, after, RowStyle.indent, before]
  | top => rfl
  | struct opening =>
    simp only [print, Node.printStruct, rest, after, indent, before]
    cases hn : n.isNewlines with
    | true =>
      have hvalue : n.isValue = false := by simp [Node.isValue, Node.isContent, hn]
      simp [Node.comma, hvalue, Page.spaceIf]
    | false => simp

/-! What is written around an item depends on how it looks, and so do the items behind it. -/

theorem before_congr (h : n.Resembles m) (p : Page) (style : RowStyle) : style.before m p = style.before n p := by
  cases style <;> simp only [before, h.isNewlines, h.isComment]

theorem indent_congr (h : n.Resembles m) (hs : List.Forall₂ Node.Resembles ns ms) (style : RowStyle) :
    style.indent m ms = style.indent n ns := by
  cases style <;> simp only [indent, h.isNewlines, Node.superficial_isEmpty.congr hs,
    (Node.superficial_structIndent _).congr hs]

theorem after_congr (h : n.Resembles m) (hs : List.Forall₂ Node.Resembles ns ms) (p : Page) (style : RowStyle) :
    style.after m ms p = style.after n ns p := by
  have hvalues := Node.superficial_any_isValue.congr hs
  cases style <;> simp only [after, Node.comma, h.isValue, hvalues]

theorem after_related {R : Page → Page → Prop} (hR : Congruence R) (n : Node) (ns : List Node) (style : RowStyle)
    {p q : Page} (h : R p q) : R (style.after n ns p) (style.after n ns q) := by
  cases style with
  | list | struct => exact hR.comma h n ns
  | sexpr => exact hR.spaceIf h _
  | top => exact h

theorem print_related {R : Page → Page → Prop} (hR : Congruence R) (s : Settings) (ns : List Node)
    (style : RowStyle) {p q : Page} (h : R p q) : R (style.print s p ns) (style.print s q ns) := by
  cases style with
  | list => exact Node.printList_congr hR s ns _ h
  | struct => exact Node.printStruct_congr hR s ns _ h
  | sexpr => exact Node.printSExpr_congr hR s ns _ _ h
  | top => exact Node.foldl_print_congr hR s ns h

/-- Newline runs come right behind what is written. -/
theorem before_newlines (hn : n.isNewlines = true) (p : Page) (style : RowStyle) : style.before n p = p := by
  cases style <;> simp [before, hn, Page.spaceIf]

/-- Behind a line comment a space may come. -/
theorem after_comment (hn : n.isCommentLine = true) (ns : List Node) (style : RowStyle) :
    ∃ gap, ∀ p, style.after n ns p = p.spaceIf gap := by
  have hk : n.kind = .commentLine := by simpa [Node.isCommentLine] using hn
  have hvalue : n.isValue = false := by
    simp [Node.isValue, Node.isContent, Node.isComment, Kind.isComment, hk]
  cases style with
  | list | struct => exact ⟨false, fun p => by simp [after, Node.comma, hvalue, Page.spaceIf]⟩
  | sexpr indent gaps => exact ⟨_, fun p => rfl⟩
  | top => exact ⟨false, fun p => rfl⟩

end RowStyle

namespace Node

/-! ## Places -/

/-- A tree with the text of one line comment left open. -/
inductive CommentPlace : (Text → List Node) → Prop where
  | here {l : Label} (hk : l.kind = .commentLine) (items ns : List Node) :
      CommentPlace fun v => ⟨{ l with value := v }, items⟩ :: ns
  | inside {l : Label} {c : Text → List Node} (hk : l.kind.isCompound = true) (h : CommentPlace c)
      (ns : List Node) : CommentPlace fun v => ⟨l, c v⟩ :: ns
  | after {c : Text → List Node} (n : Node) (h : CommentPlace c) : CommentPlace fun v => n :: c v

variable {c : Text → List Node} {n m : Node} {ns : List Node} {v : Text}

/-- Each line comment has its place in a row. -/
theorem CommentPlace.exists_of_mem (hn : n ∈ ns) (hline : n.isCommentLine = true) :
    ∃ c, CommentPlace c ∧ c n.value = ns := by
  induction ns with
  | nil => contradiction
  | cons m ns ih =>
    rcases List.mem_cons.mp hn with rfl | hn
    · obtain ⟨l, items⟩ := n
      exact ⟨_, .here (by simpa [isCommentLine] using hline) items ns, rfl⟩
    · obtain ⟨c, hc, hns⟩ := ih hn
      exact ⟨_, .after m hc, by rw [hns]⟩

/-- A place in a form is one in the row of the form. -/
theorem CommentPlace.exists_of_items (hm : m ∈ ns) (hcompound : m.isCompound = true)
    (h : ∃ c, CommentPlace c ∧ c v = m.items) : ∃ c, CommentPlace c ∧ c v = ns := by
  induction ns with
  | nil => contradiction
  | cons n ns ih =>
    rcases List.mem_cons.mp hm with rfl | hm
    · obtain ⟨c, hc, hitems⟩ := h
      obtain ⟨l, items⟩ := m
      exact ⟨_, .inside hcompound hc ns, by rw [hitems]⟩
    · obtain ⟨c, hc, hns⟩ := ih hm
      exact ⟨_, .after n hc, by rw [hns]⟩

/-- No layout decision looks at the text of a comment. -/
theorem CommentPlace.resembles (h : CommentPlace c) (v w : Text) : List.Forall₂ Resembles (c v) (c w) := by
  induction h with
  | @here l hk items ns =>
    refine .cons ⟨rfl, ?_, ?_⟩ (Resembles.all ns)
    · simp [symbol?, hk]
    · simp [breaks, hk]
  | @inside l c hk h ns ih =>
    refine .cons ⟨rfl, rfl, ?_⟩ (Resembles.all ns)
    have hbreaks := superficial_breaksOf.congr ih
    unfold breaks
    revert hk
    cases l.kind <;> simp [Kind.isCompound, hbreaks]
  | after n h ih => exact .cons (.refl n) ih

theorem Commented.tail (h : Commented (n :: ns)) : Commented ns := by
  refine ⟨⟨fun before m after hns hm => ?_, fun m hm => ?_⟩, fun m hm => ?_, fun m hm => ?_⟩
  · exact h.ended.1 (n :: before) m after (by rw [hns, List.cons_append]) hm
  · exact h.ended.2 m (List.mem_cons_of_mem _ hm)
  · exact h.lined m (List.mem_cons_of_mem _ hm)
  · exact h.formed m (List.mem_cons_of_mem _ hm)

theorem Commented.items (h : Commented ns) (hn : n ∈ ns) (hcompound : n.isCompound = true) :
    Commented n.items where
  ended := ⟨h.ended.2 n hn n (.refl n) hcompound, fun _ hm k hk => h.ended.2 n hn k (.item hm hk)⟩
  lined := (h.lined n hn).items
  formed _ hm k hk := h.formed n hn k (.item hm hk)

/-- Each line comment of a tree has its place, for all that stands between it and the top are forms. -/
theorem CommentPlace.exists_of_below (hn : n ∈ ns) (hm : n.Below m) (hformed : n.Formed)
    (hline : m.isCommentLine = true) : ∃ c, CommentPlace c ∧ c m.value = ns := by
  induction hm generalizing ns with
  | refl => exact exists_of_mem hn hline
  | @item n k m hk hm ih =>
    have hbelow : k.Formed := fun j hj => hformed j (.item hk hj)
    rcases hformed n (.refl n) (List.ne_nil_of_mem hk) with hcompound | ⟨-, hfits⟩
    · exact exists_of_items hn hcompound (ih hk hbelow hline)
    · -- the items of a clob are no comments and have no items
      have hkind : k.isCommentLine = false ∧ k.isCompound = false ∧ k.kind ≠ .clob := by
        have := hfits k hk
        unfold fitsClob at this
        split at this <;> simp_all [isCommentLine, isCompound, Kind.isCompound]
      cases hm with
      | refl => exact absurd hline (by simp [hkind])
      | item hj _ =>
        rcases hbelow k (.refl k) (List.ne_nil_of_mem hj) with h | ⟨h, -⟩
        · exact absurd h (by simp [hkind])
        · exact absurd h hkind.2.2

/-- What stands at a place is the text of a line comment. -/
theorem CommentPlace.lineText (h : CommentPlace c) (hc : Commented (c v)) : LineText v := by
  induction h with
  | here hk items ns => exact hc.lined _ List.mem_cons_self _ (.refl _) (by simp [isCommentLine, hk])
  | inside hk _ ns ih => exact ih (hc.items List.mem_cons_self hk)
  | after n _ ih => exact ih hc.tail

/-! ## Printing -/

/-- A form is written as its items are. -/
theorem holds_form {s : Settings} {l : Label} (hk : l.kind.isCompound = true)
    (hc : ∀ v w, List.Forall₂ Resembles (c v) (c w))
    (h : ∀ (style : RowStyle) (p : Page), HoldsLine fun v => style.print s p (c v)) (indent : Int) (p : Page) :
    HoldsLine fun v => print s indent p ⟨l, c v⟩ := by
  cases hl : l.kind <;> rw [hl] at hk <;> try contradiction
  · simp only [print, hl]
    exact (h (.list _) _).map fun hR h => hR.put h _
  · have hspacing : ∀ v, spacing (c v) = spacing (c []) := fun v => spacing_congr (hc [] v)
    have hcolumn : ∀ v column, s.continuationColumn (c v) column = s.continuationColumn (c []) column := fun v =>
      continuationColumn_congr (superficial_head.congr (hc [] v)) (superficial_contentBeforeBreak.congr (hc [] v))
        (superficial_breaksOf.congr (hc [] v)) s
    simp only [print, hl, hspacing, hcolumn]
    exact (h (.sexpr _ _) _).map fun hR h => hR.put h _
  · simp only [print, hl]
    have hclosed : ∀ {R : Page → Page → Prop} {p q : Page}, Congruence R → R p q →
        R ((p.spaceIf (!p.endsWithOneOf "\x7b\x7d \n")).put "\x7d")
          ((q.spaceIf (!q.endsWithOneOf "\x7b\x7d \n")).put "\x7d") := by
      intro R p q hR h
      rw [hR.endsWithOneOf h]
      exact hR.put (hR.spaceIf h _) _
    exact (h (.struct _) _).map hclosed

/-- The text of a line comment is written and its line is ended, whatever the text. -/
theorem CommentPlace.holds (h : CommentPlace c) (hc : Commented (c v)) (s : Settings) (style : RowStyle) (p : Page) :
    HoldsLine fun w => style.print s p (c w) := by
  induction h generalizing style p with
  | @here l hk items ns =>
    obtain ⟨-, m, rest, rfl, hm, hcount⟩ := hc.ended.1 [] _ ns rfl (by simp [isCommentLine, hk])
    have hlook : ∀ w, Resembles ⟨{ l with value := v }, items⟩ ⟨{ l with value := w }, items⟩ := fun w =>
      (List.forall₂_cons.mp ((CommentPlace.here hk items (m :: rest)).resembles v w)).1
    have hrest := Resembles.all (m :: rest)
    have hline : (⟨{ l with value := v }, items⟩ : Node).isCommentLine = true := by simp [isCommentLine, hk]
    obtain ⟨gap, hgap⟩ := style.after_comment hline (m :: rest)
    have hkm : m.label.kind = .newlines := by simpa [isNewlines] using hm
    have hprint : ∀ indent p, m.print s indent p = p.newlines m.label.count indent := by
      intro indent p
      obtain ⟨label, items⟩ := m
      simp only [print, show label.kind = .newlines from hkm]
    simp only [RowStyle.print_cons, style.before_congr (hlook _), style.indent_congr (hlook _) hrest,
      style.after_congr (hlook _) hrest, hgap, RowStyle.before_newlines hm, hprint]
    simp only [print, hk]
    exact ((Page.holds_line _ _ gap hcount _).map fun hR h => RowStyle.after_related hR m rest _ h).map
      fun hR h => RowStyle.print_related hR s rest _ h
  | @inside l c hk h ns ih =>
    have hlook : ∀ w, Resembles ⟨l, c v⟩ ⟨l, c w⟩ := fun w =>
      (List.forall₂_cons.mp ((CommentPlace.inside hk h ns).resembles v w)).1
    have hrest := Resembles.all ns
    have hform := holds_form hk h.resembles (ih (hc.items List.mem_cons_self hk)) (style.indent ⟨l, c v⟩ ns)
      (style.before ⟨l, c v⟩ p)
    simp only [RowStyle.print_cons, style.before_congr (hlook _), style.indent_congr (hlook _) hrest,
      style.after_congr (hlook _) hrest]
    exact (hform.map fun hR h => RowStyle.after_related hR _ ns style h).map
      fun hR h => RowStyle.print_related hR s ns _ h
  | @after c n h ih =>
    have hrest : ∀ w, List.Forall₂ Resembles (c v) (c w) := h.resembles v
    simp only [RowStyle.print_cons, style.indent_congr (.refl n) (hrest _), style.after_congr (.refl n) (hrest _)]
    exact ih hc.tail _ _

/-- What is printed of a row of top-level nodes. -/
def written (s : Settings) (ns : List Node) : Text :=
  (ns.foldl (fun p n => print s 0 p n) {}).text.trimLineEnds

theorem printed_eq_written (s : Settings) (tree : List Node) : printed s tree = written s (arranged s tree) := rfl

end Node

/-! ## Finished lines -/

theorem Text.dropEndWhile_replicate {p : UInt8 → Bool} {b : UInt8} (hb : p b = true) (t : Text) (n : Nat) :
    dropEndWhile p (t ++ List.replicate n b) = dropEndWhile p t := by
  induction n with
  | zero => rw [List.replicate_zero, List.append_nil]
  | succ n ih => rw [List.replicate_succ', ← List.append_assoc, dropEndWhile_append_of hb, ih]

/-- Behind a text that ends in no blank, spaces at the end of the line go, whatever the text. -/
theorem Text.exists_trimmed_line (b a : Text) (n : Nat) : ∃ before after, ∀ v, LineText v →
    trimLineEnds (b ++ v ++ List.replicate n (byte ' ') ++ byte '\n' :: a) = before ++ v ++ utf8 "\n" ++ after := by
  induction hk : b.length using Nat.strongRecOn generalizing b with
  | ind k ih =>
  by_cases hmem : byte '\n' ∈ b
  · obtain ⟨l, rest, rfl, hl⟩ := List.eq_append_cons_of_mem hmem
    obtain ⟨before, after, hrest⟩ := ih rest.length (by rw [← hk]; simp; omega) rest rfl
    refine ⟨dropEndWhile isSpace l ++ byte '\n' :: before, after, fun v hv => ?_⟩
    have hsplit : l ++ byte '\n' :: rest ++ v ++ List.replicate n (byte ' ') ++ byte '\n' :: a =
        l ++ byte '\n' :: (rest ++ v ++ List.replicate n (byte ' ') ++ byte '\n' :: a) := by simp
    rw [hsplit, trimLineEnds_append hl, hrest v hv]
    simp
  · refine ⟨b, trimLineEnds a, fun v hv => ?_⟩
    have hline : byte '\n' ∉ b ++ v ++ List.replicate n (byte ' ') := by
      simp only [List.mem_append, List.mem_replicate, not_or, not_and]
      exact ⟨⟨hmem, hv.not_mem.1⟩, fun _ => by decide⟩
    obtain ⟨w, rfl, -, hfirm⟩ := hv
    obtain ⟨t, c, ht, hc⟩ := exists_last_of_firm hfirm (by simp)
    rw [trimLineEnds_append hline, dropEndWhile_replicate (by decide), ht, ← List.append_assoc,
      dropEndWhile_append_of_not hc, List.append_assoc _ (utf8 "\n")]
    rfl

open Node (CommentPlace Commented CommentsEnded written arranged)

/-- The output has the text of a line comment, then the end of the line, and would be the same with
another text in its place. -/
theorem Node.CommentPlace.exists_written {c : Text → List Node} {v : Text} (h : CommentPlace c) (hc : Commented (c v))
    (s : Settings) : ∃ before after, ∀ w, LineText w → written s (c w) = before ++ w ++ utf8 "\n" ++ after := by
  obtain ⟨a, n, b, hpage⟩ := h.holds hc s .top {}
  obtain ⟨before, after, htrim⟩ := Text.exists_trimmed_line b.reverse a.reverse n
  refine ⟨before, after, fun w hw => ?_⟩
  rw [← htrim w hw]
  unfold written Page.text
  rw [show (c w).foldl (fun p n => Node.print s 0 p n) {} = RowStyle.top.print s {} (c w) from rfl, hpage w]
  simp

/-- A line comment keeps its line break. In the layout of a program, tidied or not, each line comment
is on one line and a newline run comes right behind it, at the top as in every form. Each has its place
in the tree that is printed, and in the output nothing but the end of the line follows its text. That
text is told from the rest of the output by putting another one in its place: all else stays as it is. -/
theorem format_ends_comments {file source : Text} {nodes : List Node} (h : parse file source = .ok nodes) :
    ∃ tree, Node.layoutAll nodes = .ok tree ∧ CommentsEnded tree ∧ CommentsEnded (tree.map Node.tidy) ∧
      ∀ s, (∀ n ∈ arranged s tree, ∀ m, n.Below m → m.isCommentLine = true →
          ∃ c, CommentPlace c ∧ c m.value = arranged s tree) ∧
        ∀ c v, CommentPlace c → c v = arranged s tree → ∃ before after,
          format s file source = .ok (before ++ v ++ utf8 "\n" ++ after) ∧
          ∀ w, LineText w → written s (c w) = before ++ w ++ utf8 "\n" ++ after := by
  obtain ⟨tree, htree, hplain, htidied⟩ := layout_commented h
  refine ⟨tree, htree, hplain.ended, htidied.ended, fun s => ?_⟩
  have hcommented : Commented (arranged s tree) := by
    unfold arranged
    split
    · exact htidied
    · exact hplain
  constructor
  · exact fun n hn m hm => CommentPlace.exists_of_below hn hm (hcommented.formed n hn)
  · intro c v hplace hc
    rw [← hc] at hcommented
    obtain ⟨before, after, hwritten⟩ := hplace.exists_written hcommented s
    refine ⟨before, after, ?_, hwritten⟩
    rw [format_of_laid h htree, Node.printed_eq_written, ← hc, hwritten v (hplace.lineText hcommented)]

/-- A comment in a form, in front of a comma. -/
theorem format_ends_comments_list : ∃ nodes tree c, parse [] (utf8 "[a // b\n, (f // c\n)]") = .ok nodes ∧
    Node.layoutAll nodes = .ok tree ∧ CommentsEnded tree ∧ CommentsEnded (tree.map Node.tidy) ∧
    CommentPlace c ∧ c (utf8 "// b") = arranged .default tree ∧ ∃ before after,
      format .default [] (utf8 "[a // b\n, (f // c\n)]") = .ok (before ++ utf8 "// b" ++ utf8 "\n" ++ after) ∧
      ∀ w, LineText w → written .default (c w) = before ++ w ++ utf8 "\n" ++ after := by
  obtain ⟨nodes, hnodes, hlaid⟩ := exists_ok_of_any
    (show ((parse [] (utf8 "[a // b\n, (f // c\n)]")).toOption.any fun nodes =>
      (Node.layoutAll nodes).toOption.any fun tree => (arranged .default tree).any fun m =>
        m.items.any fun n => n.isCommentLine && n.value == utf8 "// b") = true by decide +kernel)
  obtain ⟨tree, htree, hplace⟩ := exists_ok_of_any hlaid
  obtain ⟨tree', htree', hended, htidied, hformat⟩ := format_ends_comments hnodes
  obtain rfl : tree = tree' := Except.ok.inj (htree.symm.trans htree')
  obtain ⟨m, hm, hitems⟩ := List.any_eq_true.mp hplace
  obtain ⟨n, hn, hline⟩ := List.any_eq_true.mp hitems
  obtain ⟨hline, hvalue⟩ := Bool.and_eq_true_iff.mp hline
  obtain ⟨hplaces, houtput⟩ := hformat .default
  obtain ⟨c, hc, harranged⟩ := hplaces m hm n (.item hn (.refl n)) hline
  rw [eq_of_beq hvalue] at harranged
  exact ⟨nodes, tree, c, hnodes, htree, hended, htidied, hc, harranged, houtput c _ hc harranged⟩

end FusionKit
