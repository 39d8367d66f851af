import FusionKit.Proofs.Decisions
import FusionKit.Proofs.Pages
import FusionKit.Proofs.Preservation

/-!
# Printing what was printed

The tree that a printed tree is read as prints the same text again, up to blanks at line ends: the
newline runs that it joins, or cuts off behind a line comment, take the same lines. So formatting
again changes nothing where the tidy form of a tree is tidy and no block comment is rewritten.
-/
set_option autoImplicit false

namespace FusionKit

/-- Labels that are written alike and look alike to every layout decision. -/
structure Label.Likens (l l' : Label) : Prop where
  kind : l'.kind = l.kind
  count : l'.count = l.count
  lines : l'.lines = l.lines
  value : l.kind ≠ .blob → l'.value = l.value
  annotations : ∀ p : Page, (p.annotations l).Alike (p.annotations l')
  scalar : ∀ p : Page, (p.scalar l).Alike (p.scalar l')

namespace Node

/-- Nodes that are printed alike and look alike to every layout decision. -/
structure Likens (n m : Node) : Prop where
  label : n.label.Likens m.label
  breaks : m.breaks = n.breaks
  print : ∀ s indent p, (n.print s indent p).Alike (m.print s indent p)

/-- Two newline runs and what they are joined to. -/
inductive Joins : List Node → List Node → Prop where
  | mk {a b : Nat} (hb : 0 < b) (i j k : Span) (ns : List Node) :
      Joins (newlineRun a i :: newlineRun b j :: ns) (newlineRun (a + b) k :: ns)

/-- Rows of nodes that liken one another, where newline runs may be joined or cut. -/
inductive Rejoined : List Node → List Node → Prop where
  | nil : Rejoined [] []
  | cons {n m : Node} {ns ms : List Node} (h : n.Likens m) (hs : Rejoined ns ms) :
      Rejoined (n :: ns) (m :: ms)
  | join {ns ns' ms : List Node} (h : Joins ns ns') (hs : Rejoined ns' ms) : Rejoined ns ms
  | cut {ns ns' ms : List Node} (h : Joins ns' ns) (hs : Rejoined ns' ms) : Rejoined ns ms

section

variable {n m : Node} {ns ms : List Node}

namespace Likens

theorem kind (h : n.Likens m) : m.kind = n.kind := h.label.kind

theorem resembles (h : n.Likens m) : n.Resembles m where
  kind := h.kind
  breaks := h.breaks
  symbol? := by
    unfold Node.symbol?
    rw [h.kind]
    split
    · rename_i hk
      have hvalue := h.label.value (by rw [show n.label.kind = .symbol from hk]; decide)
      rw [Node.value, hvalue]
    · rfl

theorem isNewlines (h : n.Likens m) : m.isNewlines = n.isNewlines := h.resembles.isNewlines

end Likens

/-! ## Layout decisions -/

/-- A reading of rows that takes joined newline runs for the runs and takes nodes that liken one
another for the same. -/
theorem Rejoined.congr {α : Type} (f : List Node → α) (h : Rejoined ns ms)
    (hcons : ∀ {n m ns ms}, n.Likens m → f ms = f ns → f (m :: ms) = f (n :: ns))
    (hjoin : ∀ {ns ns'}, Joins ns ns' → f ns' = f ns) : f ms = f ns := by
  induction h with
  | nil => rfl
  | cons h _ ih => exact hcons h ih
  | join h _ ih => rw [ih, hjoin h]
  | cut h _ ih => rw [ih, hjoin h]

/-- A superficial reading takes nodes that liken one another for the same. -/
theorem Rejoined.superficial {α : Type} {f : List Node → α} (hf : Superficial f) (h : Rejoined ns ms)
    (hjoin : ∀ {ns ns'}, Joins ns ns' → f ns' = f ns) : f ms = f ns :=
  h.congr f (fun h => hf.cons h.resembles) hjoin

theorem Rejoined.isEmpty (h : Rejoined ns ms) : ms.isEmpty = ns.isEmpty :=
  h.superficial superficial_isEmpty (by rintro _ _ ⟨⟩; rfl)

theorem Rejoined.any_isValue (h : Rejoined ns ms) : ms.any Node.isValue = ns.any Node.isValue :=
  h.superficial superficial_any_isValue (by rintro _ _ ⟨⟩; rfl)

theorem Rejoined.contentBeforeBreak (h : Rejoined ns ms) :
    Node.contentBeforeBreak ms = Node.contentBeforeBreak ns :=
  h.superficial superficial_contentBeforeBreak (by rintro _ _ ⟨⟩; rfl)

theorem Rejoined.structIndent (h : Rejoined ns ms) (opening : Int) :
    Node.structIndent opening ms = Node.structIndent opening ns :=
  h.superficial (superficial_structIndent opening) (by rintro _ _ ⟨⟩; rfl)

theorem Rejoined.continuationColumn (h : Rejoined ns ms) (hbreaks : breaksOf ms = breaksOf ns)
    (s : Settings) (opening : Int) : s.continuationColumn ms opening = s.continuationColumn ns opening :=
  continuationColumn_congr (h.superficial superficial_head (by rintro _ _ ⟨⟩; rfl)) h.contentBeforeBreak
    hbreaks s opening

theorem wrap64_add (a b : Int) : Word.wrap64 (a + Word.wrap64 b) = Word.wrap64 (a + b) := by
  unfold Word.wrap64
  rw [Int.add_bmod_bmod]

theorem breaks_newlineRun (k : Nat) (span : Span) : (newlineRun k span).breaks = k := by
  rw [newlineRun, Node.breaks]

theorem Rejoined.breaksOf (h : Rejoined ns ms) : Node.breaksOf ms = Node.breaksOf ns := by
  apply h.superficial superficial_breaksOf
  rintro _ _ ⟨hb, i, j, k, ns⟩
  simp only [Node.breaksOf, breaks_newlineRun, wrap64_add]
  rw [Int.natCast_add, Int.add_assoc]

theorem clobBreaks_cons (n : Node) (ns : List Node) : Node.clobBreaks (n :: ns) =
    Word.wrap64 ((match n.kind with
      | .multilineString => (n.value.length : Int)
      | .newlines => n.label.count
      | _ => 0) + Node.clobBreaks ns) := rfl

theorem Rejoined.clobBreaks (h : Rejoined ns ms) : Node.clobBreaks ms = Node.clobBreaks ns := by
  apply h.congr Node.clobBreaks
  · intro n m ns ms h ih
    rw [clobBreaks_cons, clobBreaks_cons, ih, h.kind, h.label.count]
    split
    · rename_i hk
      have hvalue := h.label.value (by rw [show n.label.kind = .multilineString from hk]; decide)
      rw [Node.value, hvalue]
    · rfl
    · rfl
  · rintro _ _ ⟨hb, i, j, k, ns⟩
    simp only [clobBreaks_cons, newlineRun, wrap64_add]
    rw [Int.natCast_add, Int.add_assoc]

/-! ## Printed rows -/

variable {p q : Page}

theorem print_newlineRun (s : Settings) (indent : Int) (p : Page) (k : Nat) (span : Span) :
    (newlineRun k span).print s indent p = p.newlines k indent := by
  rw [newlineRun, Node.print]

theorem Likens.comma (h : n.Likens m) (hs : Rejoined ns ms) (hp : p.Alike q) :
    (Node.comma p n ns).Alike (Node.comma q m ms) := by
  have hcomma := Page.alike_congruence.comma hp n ns
  unfold Node.comma at hcomma ⊢
  rwa [h.resembles.isValue, hs.any_isValue]

theorem Likens.clobItem (h : n.Likens m) (indent : Int) (p : Page) :
    (p.clobItem indent n).Alike (p.clobItem indent m) := by
  unfold Page.clobItem
  rw [h.isNewlines, h.kind, h.label.count]
  split
  · exact .refl _
  · rename_i hk
    have hvalue := h.label.value (by rw [show n.label.kind = .multilineString from hk]; decide)
    rw [Node.value, Node.value, hvalue]
    exact .refl _
  · exact h.label.scalar _

/-- Printers of rows, from pages that are ready on: they write the first item and go on with the
others, in the same way on pages that are alike, and for a newline run they write no more than the
run. -/
structure PrintsRows (Ready : Page → Prop) (f : Page → List Node → Page) : Prop where
  alike : ∀ (ns : List Node) {p q : Page}, Ready p → p.Alike q → (f p ns).Alike (f q ns)
  ready : ∀ {p : Page} (k indent : Int), Ready p → Ready (p.newlines k indent)
  newlines : ∃ indent : List Node → Int, ∀ (p : Page) (k : Nat) (span : Span) (ns : List Node),
    f p (newlineRun k span :: ns) = f (p.newlines k (indent ns)) ns
  item : ∀ {n m : Node} {ns ms : List Node} {p : Page}, Ready p → n.Likens m → Rejoined ns ms →
    ∃ q r, f p (n :: ns) = f q ns ∧ f p (m :: ms) = f r ms ∧ Ready q ∧ Ready r ∧ q.Alike r

/-- Rows that differ in how their newline runs are joined are printed alike. -/
theorem Rejoined.alike {Ready : Page → Prop} {f : Page → List Node → Page} (h : Rejoined ns ms)
    (hf : PrintsRows Ready f) (hp : Ready p) : (f p ns).Alike (f p ms) := by
  have hjoins : ∀ {ns ms : List Node}, Joins ns ms → ∀ p, Ready p → (f p ns).Alike (f p ms) := by
    rintro _ _ ⟨hb, i, j, k, ns⟩ p hp
    obtain ⟨indent, hnewlines⟩ := hf.newlines
    rw [hnewlines, hnewlines, hnewlines]
    exact hf.alike ns (hf.ready _ _ (hf.ready _ _ hp)) (.newlines_join p hb _ _)
  induction h generalizing p with
  | nil => exact hf.alike [] hp (.refl p)
  | @cons n m ns ms h hs ih =>
    obtain ⟨q, r, hq, hr, hqready, hrready, hqr⟩ := hf.item hp h hs
    rw [hq, hr]
    exact (ih hqready).trans (hf.alike ms hqready hqr)
  | join h _ ih => exact (hjoins h p hp).trans (ih hp)
  | cut h _ ih => exact (hjoins h p hp).symm.trans (ih hp)

section

variable (s : Settings)

theorem printList_rows (opening : Int) : PrintsRows (fun _ => True) (Node.printList s opening) where
  alike ns _ _ _ h := Node.printList_congr Page.alike_congruence s ns opening h
  ready _ _ h := h
  newlines := by
    refine ⟨fun ns => if ns.isEmpty then opening else opening + 1, fun p k span ns => ?_⟩
    rw [Node.printList, print_newlineRun]
    cases ns <;> rfl
  item {n m ns ms p} _ h hs := by
    rw [Node.printList, Node.printList, h.isNewlines, hs.isEmpty]
    exact ⟨_, _, rfl, rfl, trivial, trivial, h.comma hs (h.print s _ _)⟩

theorem printStruct_rows (opening : Int) : PrintsRows (fun _ => True) (Node.printStruct s opening) where
  alike ns _ _ _ h := Node.printStruct_congr Page.alike_congruence s ns opening h
  ready _ _ h := h
  newlines := by
    refine ⟨fun ns => Node.structIndent opening ns, fun p k span ns => ?_⟩
    rw [printStruct_newlines rfl, print_newlineRun]
  item {n m ns ms p} _ h hs := by
    rw [Node.printStruct, Node.printStruct, h.isNewlines, h.resembles.isComment, hs.structIndent]
    split
    · exact ⟨_, _, rfl, rfl, trivial, trivial, h.print s _ _⟩
    · exact ⟨_, _, rfl, rfl, trivial, trivial, h.comma hs (h.print s _ _)⟩

/-- The items of an s-expression, with a space after each but the last and newline runs. -/
theorem printSExpr_rows (indent : Int) : PrintsRows (fun _ => True)
    (fun p ns => Node.printSExpr s indent p ns (Node.spacingAfter false ns)) where
  alike ns _ _ _ h := Node.printSExpr_congr Page.alike_congruence s ns indent _ h
  ready _ _ h := h
  newlines := by
    refine ⟨fun _ => indent, fun p k span ns => ?_⟩
    rw [Node.printSExpr, spacingAfter_cons, print_newlineRun]
    cases ns <;> rfl
  item {n m ns ms p} _ h hs := by
    simp only [Node.printSExpr, spacingAfter_cons, h.isNewlines, hs.isEmpty]
    exact ⟨_, _, rfl, rfl, trivial, trivial, (h.print s indent p).spaceIf _⟩

theorem clobItems_rows (indent : Int) :
    PrintsRows Page.HasBraces (fun p ns => ns.foldl (Page.clobItem indent) p) where
  alike ns _ _ hp h := Page.alike_congruence.clobItems h hp (h.braces hp) indent ns
  ready _ _ h := (h.write _).write _
  newlines := ⟨fun _ => indent, fun _ _ _ _ => rfl⟩
  item {n m _ _ p} hp h _ :=
    ⟨_, _, rfl, rfl, hp.clobItem indent n, hp.clobItem indent m, h.clobItem indent p⟩

/-- Top-level nodes, one after the other. -/
theorem print_rows : PrintsRows (fun _ => True) (fun p ns => ns.foldl (fun p n => n.print s 0 p) p) where
  alike ns _ _ _ h := Node.foldl_print_congr Page.alike_congruence s ns h
  ready _ _ h := h
  newlines := ⟨fun _ => 0, fun p k span ns => by rw [List.foldl_cons, print_newlineRun]⟩
  item _ h _ := ⟨_, _, rfl, rfl, trivial, trivial, h.print s 0 _⟩

end

end

end Node

end FusionKit
