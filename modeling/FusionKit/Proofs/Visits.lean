import Mathlib.Data.List.Flatten
import FusionKit.Check

/-!
# What a walk visits

A walk over a form comes to some of the forms below it: not to what is quoted, provided or required,
not to parameters, and not to the names in front of the values of bindings. Which ones it comes to, and
which of them as data, depends on the forms alone. `Form.parts` tells it for the items of one form, and
`Form.visits` for all that is below a form: each place is visited once at most, in the order in which
the forms stand.

A definition that is visited introduces a name, and so does an import; nothing else does.
-/
set_option autoImplicit false

namespace FusionKit

namespace Form

/-! ## Forms below a form -/

/-- The forms that stand in a group. -/
def items : Form → List Form
  | .sexpr _ items | .list _ items | .struct _ items => items
  | _ => []

mutual

/-- The forms below a form, each before those below it. -/
def inner : Form → List Form
  | .sexpr _ items => subformsOf items
  | .list _ items => subformsOf items
  | .struct _ items => subformsOf items
  | _ => []

/-- Some forms and all forms below them. -/
def subformsOf : List Form → List Form
  | [] => []
  | f :: fs => f :: (inner f ++ subformsOf fs)

end

/-- A form and the forms below it. -/
def subforms (f : Form) : List Form := f :: f.inner

theorem inner_eq (f : Form) : f.inner = subformsOf f.items := by
  cases f <;> rfl

theorem subformsOf_eq_flatMap (fs : List Form) : subformsOf fs = fs.flatMap subforms := by
  induction fs with
  | nil => rfl
  | cons f fs ih => rw [subformsOf, ih, List.flatMap_cons, subforms, List.cons_append]

/-- Below fewer forms there are fewer forms. -/
theorem subformsOf_sublist {fs gs : List Form} (h : fs.Sublist gs) : (subformsOf fs).Sublist (subformsOf gs) := by
  rw [subformsOf_eq_flatMap, subformsOf_eq_flatMap]
  exact h.flatMap subforms

theorem subformsOf_append (fs gs : List Form) : subformsOf (fs ++ gs) = subformsOf fs ++ subformsOf gs := by
  simp only [subformsOf_eq_flatMap, List.flatMap_append]

/-! ## Parts -/

/-- The keyword at the head of an s-expression. -/
def keyword? : Form → Option Keyword
  | .sexpr _ (head :: _) => head.name?.bind Keyword.ofText?
  | _ => none

/-- What follows the head of a group. -/
def arguments (f : Form) : List Form := f.items.tail

/-- What follows the second bar of a function between bars, when its first bar is gone. -/
def afterBar : List Form → List Form
  | [] => []
  | f :: fs => if f.name? = some (utf8 "|") then fs else afterBar fs

/-- What follows the name in a binding. -/
def bindingValues : Form → List Form
  | .sexpr _ (_ :: values) => values
  | _ => []

/-- The values of the bindings of a form that binds local names, and its body; or all that follows its
head, if no bindings follow it. -/
def letParts : List Form → List Form
  | .list _ pairs :: body => pairs.flatMap bindingValues ++ body
  | .sexpr _ pairs :: body => pairs.flatMap bindingValues ++ body
  | fs => fs

/-- What a walk goes on to over a form with a keyword at its head, each with whether it is quoted there. -/
def keywordParts (f : Form) : Keyword → List (Bool × Form)
  | .define | .definePublic | .lambda => f.arguments.tail.map (false, ·)
  | .bar => (afterBar f.arguments).map (false, ·)
  | .plainLet | .sequentialLet | .recursiveLet => (letParts f.arguments).map (false, ·)
  | .moduleForm => (f.arguments.drop 2).map (false, ·)
  | .provide | .quote | .require => []
  | .quasiquote => f.arguments.map (true, ·)
  | .unquote => f.items.map (false, ·)

/-- What a walk goes on to over a form that is quoted or not. -/
def parts (quoted : Bool) (f : Form) : List (Bool × Form) :=
  match f.keyword? with
  | none => f.items.map (quoted, ·)
  | some keyword => if quoted then f.arguments.map (keyword != .unquote, ·) else f.keywordParts keyword

theorem afterBar_sublist (fs : List Form) : (afterBar fs).Sublist fs := by
  induction fs with
  | nil => exact .refl _
  | cons f fs ih =>
    unfold afterBar
    split
    · exact List.sublist_cons_self f fs
    · exact ih.cons f

theorem bindingValues_sublist (f : Form) : (subformsOf f.bindingValues).Sublist f.subforms := by
  unfold bindingValues
  split
  · rename_i span first values
    exact (subformsOf_sublist (List.sublist_cons_self first values)).cons _
  · exact List.nil_sublist _

theorem bindings_sublist (pairs : List Form) :
    (subformsOf (pairs.flatMap bindingValues)).Sublist (subformsOf pairs) := by
  induction pairs with
  | nil => exact .refl _
  | cons pair pairs ih =>
    rw [List.flatMap_cons, subformsOf_append, subformsOf]
    exact (bindingValues_sublist pair).append ih

theorem letParts_sublist (fs : List Form) : (subformsOf (letParts fs)).Sublist (subformsOf fs) := by
  have hpairs : ∀ (f : Form) (pairs body : List Form), f.inner = subformsOf pairs →
      (subformsOf (pairs.flatMap bindingValues ++ body)).Sublist (subformsOf (f :: body)) := by
    intro f pairs body hf
    rw [subformsOf_append, subformsOf, hf]
    exact ((bindings_sublist pairs).append (.refl _)).cons f
  unfold letParts
  split
  · exact hpairs _ _ _ rfl
  · exact hpairs _ _ _ rfl
  · exact .refl _

/-- The parts of a form lie below it, apart from each other and in order. -/
theorem parts_sublist (quoted : Bool) (f : Form) : (subformsOf ((f.parts quoted).map Prod.snd)).Sublist f.inner := by
  have hmap : ∀ (q : Bool) (fs : List Form), (subformsOf fs).Sublist f.inner →
      (subformsOf ((fs.map (q, ·)).map Prod.snd)).Sublist f.inner := by
    intro q fs h
    rw [List.map_map]
    exact (List.map_id fs).symm ▸ h
  have hitems : (subformsOf f.items).Sublist f.inner := f.inner_eq ▸ .refl _
  have harguments : (subformsOf f.arguments).Sublist f.inner :=
    (subformsOf_sublist (List.tail_sublist f.items)).trans hitems
  have hbody : (subformsOf f.arguments.tail).Sublist f.inner :=
    (subformsOf_sublist (List.tail_sublist f.arguments)).trans harguments
  have hlet : (subformsOf (letParts f.arguments)).Sublist f.inner := (letParts_sublist f.arguments).trans harguments
  unfold parts
  cases f.keyword? with
  | none => exact hmap _ _ hitems
  | some keyword =>
    cases quoted with
    | true => exact hmap _ _ harguments
    | false =>
      cases keyword with
      | define | definePublic | lambda => exact hmap _ _ hbody
      | bar => exact hmap _ _ ((subformsOf_sublist (afterBar_sublist f.arguments)).trans harguments)
      | plainLet | sequentialLet | recursiveLet => exact hmap _ _ hlet
      | moduleForm => exact hmap _ _ ((subformsOf_sublist (List.drop_sublist 2 f.arguments)).trans harguments)
      | provide | quote | require => exact List.nil_sublist _
      | quasiquote => exact hmap _ _ harguments
      | unquote => exact hmap _ _ hitems

theorem length_subforms_of_mem_parts {quoted : Bool} {f : Form} {part : Bool × Form} (h : part ∈ f.parts quoted) :
    part.2.subforms.length < f.subforms.length := by
  have hmem : part.2 ∈ (f.parts quoted).map Prod.snd := List.mem_map_of_mem h
  have hpart : part.2.subforms.Sublist (subformsOf ((f.parts quoted).map Prod.snd)) := by
    have hone := subformsOf_sublist (List.singleton_sublist.mpr hmem)
    rwa [subformsOf, subformsOf, List.append_nil] at hone
  have hle := (hpart.trans (parts_sublist quoted f)).length_le
  show _ < (f :: f.inner).length
  rw [List.length_cons]
  omega

/-! ## Visits -/

/-- The forms that a walk over a form comes to, itself first, except those that it takes as data. -/
def visits (quoted : Bool) (f : Form) : List Form :=
  (if quoted then [] else [f]) ++ (f.parts quoted).attach.flatMap fun part => visits part.1.1 part.1.2
termination_by f.subforms.length
decreasing_by exact length_subforms_of_mem_parts part.2

/-- The forms that a walk over some forms comes to, each of them quoted or not. -/
def visitsOf (parts : List (Bool × Form)) : List Form := parts.flatMap fun part => visits part.1 part.2

theorem visitsOf_append (parts parts' : List (Bool × Form)) :
    visitsOf (parts ++ parts') = visitsOf parts ++ visitsOf parts' := List.flatMap_append

theorem visits_eq (quoted : Bool) (f : Form) :
    f.visits quoted = (if quoted then [] else [f]) ++ visitsOf (f.parts quoted) := by
  have hattach := List.flatMap_subtype (l := (f.parts quoted).attach) (f := fun part => visits part.1.1 part.1.2)
    (g := fun part => visits part.1 part.2) fun _ _ => rfl
  rw [visits, visitsOf, hattach, List.unattach_attach]

/-- Each place below a form is visited once at most. -/
theorem visits_sublist (quoted : Bool) (f : Form) : (f.visits quoted).Sublist f.subforms := by
  induction quoted, f using visits.induct with
  | case1 quoted f ih =>
    have hself : (if quoted then [] else [f]).Sublist [f] := by
      cases quoted
      · exact .refl _
      · exact List.nil_sublist _
    have hparts : (visitsOf (f.parts quoted)).Sublist (subformsOf ((f.parts quoted).map Prod.snd)) := by
      rw [visitsOf, subformsOf_eq_flatMap, List.flatMap_map]
      exact List.Sublist.flatMap_right _ fun part hpart => ih ⟨part, hpart⟩
    rw [visits_eq]
    exact hself.append (hparts.trans (parts_sublist quoted f))

/-- The place and the text of a symbol. -/
def use? : Form → Option (Span × Text)
  | .symbol span written => some (span, written)
  | _ => none

/-! ## Names that are introduced -/

/-- The name that the target of a definition gives. -/
def targetName? : Form → Option Text
  | .symbol _ written => some written.unquoted
  | .sexpr _ (head :: _) => head.name?
  | _ => none

/-- The name that a definition defines. -/
def defined? (f : Form) : Option Text :=
  match f.keyword? with
  | some .define | some .definePublic => f.arguments.head?.bind targetName?
  | _ => none

/-- What a require imports. -/
def imports (f : Form) : List Form := if f.keyword? = some .require then f.arguments else []

/-- The names that an import of a module provides. -/
def provided (idx : Index) : Form → List Text
  | .string _ name => (idx.module? name).elim [] (·.provides.names)
  | _ => []

/-- The names that an import lists, of those that a module provides. -/
def listed : Form → List Text
  | .sexpr _ (head :: .string _ _ :: items) =>
    if head.symbol? = some (utf8 "only_in") then items.filterMap name? else []
  | _ => []

/-- The other name that a pair of an import gives to a name of a module. -/
def otherName? : Form → Option Text
  | .sexpr _ [.symbol _ _, .symbol _ outer] => some outer.unquoted
  | _ => none

/-- The other names that an import gives to names of a module. -/
def renamed : Form → List Text
  | .sexpr _ (head :: .string _ _ :: pairs) =>
    if head.symbol? = some (utf8 "rename_in") then pairs.filterMap otherName? else []
  | _ => []

/-- The names that a form introduces for the whole resource: the one that it defines, and those listed
by its imports. -/
def globals (f : Form) : List Text := f.defined?.toList ++ f.imports.flatMap listed

/-- The names that a form introduces where it stands: those that modules provide that it requires, and
the other names that its imports give. -/
def locals (idx : Index) (f : Form) : List Text := f.imports.flatMap fun i => i.provided idx ++ i.renamed

/-- A pair that is no s-expression of two symbols gives no other name. -/
theorem otherName?_eq_none {span : Span} {items : List Form}
    (h : ∀ (span : Span) (written : Text) (span' : Span) (outer : Text),
      items = [.symbol span written, .symbol span' outer] → False) :
    (sexpr span items).otherName? = none := by
  unfold otherName?
  split
  · rename_i heq
    exact (h _ _ _ _ (sexpr.inj heq).2).elim
  · rfl

/-- An import without the name of a module gives no names. -/
theorem importNames_eq_nil {span : Span} {head : Form} {rest : List Form}
    (h : ∀ (span : Span) (name : Text) (items : List Form), rest = .string span name :: items → False) :
    (sexpr span (head :: rest)).listed = [] ∧ (sexpr span (head :: rest)).renamed = [] := by
  cases rest with
  | nil => exact ⟨rfl, rfl⟩
  | cons f items =>
    cases f with
    | string span name => exact (h span name items rfl).elim
    | symbol | sexpr | list | struct | other => exact ⟨rfl, rfl⟩

/-- A form with a keyword at its head is no symbol. -/
theorem use?_of_keyword {f : Form} {keyword : Keyword} (hkeyword : f.keyword? = some keyword) : f.use? = none := by
  cases f with
  | symbol => cases hkeyword
  | string | sexpr | list | struct | other => rfl

end Form

namespace SourceFile

/-- The forms that a walk over a file comes to, except those that it takes as data. -/
def visits (f : SourceFile) : List Form := Form.visitsOf (f.forms.map (false, ·))

theorem visits_sublist (f : SourceFile) : f.visits.Sublist (Form.subformsOf f.forms) := by
  rw [visits, Form.visitsOf, List.flatMap_map, Form.subformsOf_eq_flatMap]
  exact List.Sublist.flatMap_right _ fun g _ => Form.visits_sublist false g

end SourceFile

end FusionKit
