import FusionKit.Layout.Print
import Mathlib.Data.List.Forall2

/-!
# What layout decisions look at

Indents, spaces and commas are decided by a few readings of a row of items. They see the kinds of the
items, their symbols and how many line breaks they take: rows that agree in these are laid out alike,
whatever text stands in them.
-/
set_option autoImplicit false

namespace FusionKit.Node

/-- Nodes that look the same to every layout decision. -/
structure Resembles (n m : Node) : Prop where
  kind : m.kind = n.kind
  symbol? : m.symbol? = n.symbol?
  breaks : m.breaks = n.breaks

/-- A reading of rows that sees no more of an item than how it looks. -/
structure Superficial {α : Type} (f : List Node → α) : Prop where
  cons : ∀ {n m : Node} {ns ms : List Node}, n.Resembles m → f ms = f ns → f (m :: ms) = f (n :: ns)

section

variable {n m : Node} {ns ms : List Node}

theorem Resembles.refl (n : Node) : n.Resembles n := ⟨rfl, rfl, rfl⟩

theorem Resembles.all (ns : List Node) : List.Forall₂ Resembles ns ns := List.forall₂_same.mpr fun n _ => refl n

namespace Resembles

theorem isNewlines (h : n.Resembles m) : m.isNewlines = n.isNewlines := by
  rw [Node.isNewlines, h.kind, Node.isNewlines]

theorem isComment (h : n.Resembles m) : m.isComment = n.isComment := by
  rw [Node.isComment, h.kind, Node.isComment]

theorem isStructKey (h : n.Resembles m) : m.isStructKey = n.isStructKey := by
  rw [Node.isStructKey, h.kind, Node.isStructKey]

theorem isContent (h : n.Resembles m) : m.isContent = n.isContent := by
  rw [Node.isContent, h.isComment, h.isNewlines, Node.isContent]

theorem isValue (h : n.Resembles m) : m.isValue = n.isValue := by
  rw [Node.isValue, h.isContent, h.isStructKey, Node.isValue]

theorem isPipe (h : n.Resembles m) : m.isPipe = n.isPipe := by
  rw [Node.isPipe, h.symbol?, Node.isPipe]

end Resembles

/-! ## Readings of rows -/

theorem Superficial.congr {α : Type} {f : List Node → α} (hf : Superficial f)
    (h : List.Forall₂ Resembles ns ms) : f ms = f ns := by
  induction h with
  | nil => rfl
  | cons h _ ih => exact hf.cons h ih

theorem superficial_isEmpty : Superficial List.isEmpty := ⟨fun _ _ => rfl⟩

theorem superficial_any_isValue : Superficial fun ns => ns.any isValue where
  cons {n m ns ms} h ih := by
    simp only [List.any_cons, h.isValue] at ih ⊢
    rw [ih]

theorem superficial_contentBeforeBreak : Superficial contentBeforeBreak where
  cons {n m ns ms} h ih := by
    rw [contentBeforeBreak, contentBeforeBreak, h.isContent, h.isNewlines, ih]

theorem superficial_breaksOf : Superficial breaksOf where
  cons {n m ns ms} h ih := by
    rw [breaksOf, breaksOf, h.breaks, ih]

theorem structIndent_cons (opening : Int) (n : Node) (ns : List Node) :
    structIndent opening (n :: ns) =
      if n.isStructKey then opening + 1 else if n.isValue then opening + 4 else structIndent opening ns := by
  unfold structIndent
  rw [List.find?_cons]
  cases hk : n.isStructKey <;> cases hv : n.isValue <;> simp [hk]

theorem superficial_structIndent (opening : Int) : Superficial (structIndent opening) where
  cons {n m ns ms} h ih := by
    rw [structIndent_cons, structIndent_cons, h.isValue, h.isStructKey, ih]

/-- What is read of the first item. -/
theorem superficial_head : Superficial fun ns => ns.head?.map fun n => (n.symbol?, n.kind) where
  cons {n m ns ms} h _ := by
    simp only [List.head?_cons, Option.map_some, h.symbol?, h.kind]

/-- What is read of the first item that is neither a comment nor a newline run. -/
theorem superficial_firstContent : Superficial fun ns => (ns.find? isContent).map isPipe where
  cons {n m ns ms} h ih := by
    simp only [List.find?_cons, h.isContent]
    cases n.isContent with
    | true => rw [Option.map_some, Option.map_some, h.isPipe]
    | false => exact ih

/-- The column of the further lines depends on the first item and on counts. -/
theorem continuationColumn_congr
    (hhead : (ms.head?.map fun n => (n.symbol?, n.kind)) = ns.head?.map fun n => (n.symbol?, n.kind))
    (hcontent : contentBeforeBreak ms = contentBeforeBreak ns) (hbreaks : breaksOf ms = breaksOf ns)
    (s : Settings) (opening : Int) : s.continuationColumn ms opening = s.continuationColumn ns opening := by
  have hcontinuation : s.continuation ms opening = s.continuation ns opening := by
    unfold Settings.continuation
    rw [hcontent, hbreaks]
    cases ms with
    | nil =>
      cases ns with
      | nil => rfl
      | cons n ns => cases hhead
    | cons m ms =>
      cases ns with
      | nil => cases hhead
      | cons n ns =>
        simp only [List.head?_cons, Option.map_some, Option.some.injEq, Prod.mk.injEq] at hhead
        simp only [hhead]
  rw [Settings.continuationColumn, hcontinuation, Settings.continuationColumn]

/-- Spaces depend on the item before and the one behind them. -/
theorem spacingAfter_congr (h : List.Forall₂ Resembles ns ms) (argList : Bool) :
    spacingAfter argList ms = spacingAfter argList ns := by
  induction h with
  | nil => rfl
  | cons h hs ih =>
    simp only [spacingAfter, ih, h.isPipe, h.isNewlines]
    cases hs with
    | nil => rfl
    | cons h' _ => simp only [h'.isPipe]

theorem spacing_congr (h : List.Forall₂ Resembles ns ms) : spacing ms = spacing ns := by
  cases h with
  | nil => rfl
  | cons h hs =>
    rw [spacing, spacing, h.isPipe, spacingAfter_congr hs, spacingAfter_congr (.cons h hs)]

end

end FusionKit.Node
