import FusionKit.Check
import FusionKit.Proofs.Places

/-!
# Modules that are asked for

Which modules a check asks for depends on the forms alone, not on the scope. `Form.wanted` gives
their names in the order of the walk: the strings that stand as arguments of a require, also in the
bodies of definitions and behind a head that is no symbol. A walk reports those that are not in the
index.
-/
set_option autoImplicit false

namespace FusionKit

/-! ## Names that are asked for -/

namespace Form

/-- The text of a string. -/
def string? : Form → Option Text
  | string _ text => some text
  | _ => none

mutual

/-- The names of the modules that a check of a form asks for. -/
def wanted (quoted : Bool) : Form → List Text
  | .list _ items => wantedOf quoted items
  | .struct _ items => wantedOf quoted items
  | .sexpr _ items => sexprWanted quoted items
  | _ => []

/-- The names for some forms. -/
def wantedOf (quoted : Bool) : List Form → List Text
  | [] => []
  | f :: fs => wanted quoted f ++ wantedOf quoted fs

/-- The names for an s-expression. -/
def sexprWanted (quoted : Bool) : List Form → List Text
  | [] => []
  | head :: rest =>
    match head.name?.map Keyword.ofText? with
    | some (some keyword) =>
      if quoted then wantedOf (keyword != .unquote) rest
      else
        match keyword with
        | .define | .definePublic | .lambda => bodyWanted rest
        | .bar => barWanted rest
        | .plainLet | .sequentialLet | .recursiveLet => letWanted rest
        | .moduleForm => moduleWanted rest
        | .provide | .quote => []
        | .quasiquote => wantedOf true rest
        | .require => rest.filterMap string?
        | .unquote => wanted false head ++ wantedOf false rest
    | _ => wanted quoted head ++ wantedOf quoted rest

/-- The names for what follows a target or parameters. -/
def bodyWanted : List Form → List Text
  | [] => []
  | _ :: body => wantedOf false body

/-- The names for what follows parameters between bars. -/
def barWanted : List Form → List Text
  | [] => []
  | f :: fs => if f.name? = some (utf8 "|") then wantedOf false fs else barWanted fs

/-- The names for the body of a module form. -/
def moduleWanted : List Form → List Text
  | _ :: _ :: body => wantedOf false body
  | _ => []

/-- The names for a form that binds local names, after its head. -/
def letWanted : List Form → List Text
  | [] => []
  | .list _ pairs :: body => pairsWanted pairs ++ wantedOf false body
  | .sexpr _ pairs :: body => pairsWanted pairs ++ wantedOf false body
  | f :: body => wanted false f ++ wantedOf false body

/-- The names for the values of bindings. -/
def pairsWanted : List Form → List Text
  | [] => []
  | .sexpr _ (_ :: values) :: pairs => wantedOf false values ++ pairsWanted pairs
  | _ :: pairs => pairsWanted pairs

end

end Form

/-- The names of the modules that a check of a file asks for. -/
def SourceFile.wanted (f : SourceFile) : List Text := Form.wantedOf false f.forms

/-! ## Names that are reported -/

/-- Whether there is no module with a name. -/
def Index.lacks (idx : Index) (name : Text) : Bool := (idx.module? name).isNone

/-- The module that a complaint does not find. -/
def Complaint.module? : Complaint → Option Text
  | unknownModule name => some name
  | _ => none

namespace Walk

/-- The names of the modules that were not found. -/
def unknown (w : Walk) : List Text := w.findings.filterMap (·.complaint.module?)

/-- Of the names asked for between two walks, those are reported that have no module. -/
def Asks (idx : Index) (w : Walk) (names : List Text) (w' : Walk) : Prop :=
  w'.unknown = w.unknown ++ names.filter idx.lacks

variable {idx : Index} {w w' w'' : Walk} {span : Span} {names names' : List Text} {complaint : Complaint}

theorem Asks.nothing (h : w'.unknown = w.unknown) : Asks idx w [] w' :=
  h.trans (List.append_nil _).symm

theorem Asks.trans (h : Asks idx w names w') (h' : Asks idx w' names' w'') : Asks idx w (names ++ names') w'' := by
  unfold Asks at *
  rw [h', h, List.filter_append, List.append_assoc]

theorem unknown_report : (w.report span complaint).unknown = w.unknown ++ complaint.module?.toList := by
  simp only [unknown, report, List.filterMap_append, List.filterMap_cons, List.filterMap_nil]
  cases complaint.module? <;> rfl

/-- Any other complaint names no module. -/
theorem unknown_report_other (h : complaint.module? = none) : (w.report span complaint).unknown = w.unknown := by
  rw [unknown_report, h, Option.toList_none, List.append_nil]

theorem unknown_foldl {f : Walk → Form → Walk} (hf : ∀ w item, (f w item).unknown = w.unknown)
    (items : List Form) : (items.foldl f w).unknown = w.unknown := by
  induction items generalizing w with
  | nil => rfl
  | cons item items ih => rw [List.foldl_cons, ih, hf]

theorem unknown_importOnly (item : Form) : (w.importOnly item).unknown = w.unknown := by
  unfold importOnly
  split
  · rfl
  · exact unknown_report_other rfl

theorem unknown_importRenamed (item : Form) : (w.importRenamed item).unknown = w.unknown := by
  unfold importRenamed
  split
  · split
    · rfl
    · exact unknown_report_other rfl
  · exact unknown_report_other rfl

/-- An import of some names only, or under other names, asks for no module. -/
theorem unknown_importForm (items : List Form) : (w.importForm span items).unknown = w.unknown := by
  cases items with
  | nil => exact unknown_report_other rfl
  | cons head rest =>
    unfold importForm
    dsimp only
    split
    · split
      · exact unknown_foldl (fun w item => unknown_importOnly item) _
      · exact unknown_report_other rfl
    · split
      · split
        · exact unknown_foldl (fun w item => unknown_importRenamed item) _
        · exact unknown_report_other rfl
      · split <;> exact unknown_report_other rfl

theorem asks_importArgument (f : Form) : Asks idx w f.string?.toList (importArgument idx w f) := by
  cases f with
  | string span text =>
    unfold importArgument Form.string? Asks
    cases h : idx.module? text with
    | some m => simp [Index.lacks, h, unknown]
    | none => simp [Index.lacks, h, unknown_report, Complaint.module?]
  | sexpr span items => exact .nothing (unknown_importForm items)
  | symbol | list | struct | other => exact .nothing (unknown_report_other rfl)

theorem asks_importArguments (fs : List Form) :
    Asks idx w (fs.filterMap Form.string?) (fs.foldl (importArgument idx) w) := by
  induction fs generalizing w with
  | nil => exact .nothing rfl
  | cons f fs ih =>
    have hsplit : (f :: fs).filterMap Form.string? = f.string?.toList ++ fs.filterMap Form.string? := by
      cases h : f.string? <;> simp [h]
    rw [hsplit, List.foldl_cons]
    exact (asks_importArgument f).trans ih

theorem asks_openLet {keyword : Keyword} {pairs : List Form} {values : Walk → Walk}
    (hvalues : ∀ w, Asks idx w names (values w)) : Asks idx w names (w.openLet keyword pairs values) := by
  unfold openLet
  dsimp only
  split
  · exact hvalues w
  · exact hvalues (w.enter _)
  · exact hvalues (w.enter _)

/-! ## The walk -/

mutual

/-- A walk over a form reports the modules it asks for that are not there. -/
theorem asks_check (idx : Index) (quoted : Bool) (w : Walk) :
    ∀ f : Form, Asks idx w (f.wanted quoted) (check idx quoted w f)
  | .symbol _ _ => by
    unfold check
    split
    · exact .nothing rfl
    · exact .nothing (unknown_report_other rfl)
  | .string _ _ => .nothing rfl
  | .other _ => .nothing rfl
  | .list _ items => asks_checkAll idx quoted w items
  | .struct _ items => asks_checkAll idx quoted w items
  | .sexpr _ items => asks_checkSexpr idx quoted w items

theorem asks_checkAll (idx : Index) (quoted : Bool) (w : Walk) :
    ∀ fs : List Form, Asks idx w (Form.wantedOf quoted fs) (checkAll idx quoted w fs)
  | [] => .nothing rfl
  | f :: fs => (asks_check idx quoted w f).trans (asks_checkAll idx quoted _ fs)

theorem asks_checkSexpr (idx : Index) (quoted : Bool) (w : Walk) :
    ∀ fs : List Form, Asks idx w (Form.sexprWanted quoted fs) (checkSexpr idx quoted w fs)
  | [] => .nothing rfl
  | head :: rest => by
    have hboth (quoted : Bool) := (asks_check idx quoted w head).trans (asks_checkAll idx quoted _ rest)
    unfold checkSexpr Form.sexprWanted
    rcases head.name?.map Keyword.ofText? with _ | _ | keyword
    · exact hboth quoted
    · exact hboth quoted
    cases quoted with
    | true => exact asks_checkAll idx _ w rest
    | false =>
      cases keyword with
      | define | definePublic => exact asks_checkDefine idx w rest
      | lambda => exact asks_checkLambda idx w rest
      | bar => exact asks_checkBar idx (w.enter []) rest
      | plainLet => exact asks_checkLet idx .plainLet w rest
      | sequentialLet => exact asks_checkLet idx .sequentialLet w rest
      | recursiveLet => exact asks_checkLet idx .recursiveLet w rest
      | moduleForm => exact asks_checkModule idx w rest
      | provide | quote => exact .nothing rfl
      | quasiquote => exact asks_checkAll idx true w rest
      | require => exact asks_importArguments rest
      | unquote => exact hboth false

theorem asks_checkDefine (idx : Index) (w : Walk) :
    ∀ fs : List Form, Asks idx w (Form.bodyWanted fs) (checkDefine idx w fs)
  | [] => .nothing rfl
  | target :: body => by
    have hbound : ((definition target).1.elim w w.bindTop).unknown = w.unknown := by
      cases (definition target).1 <;> rfl
    exact Asks.trans (.nothing hbound) (asks_checkAll idx false _ body)

theorem asks_checkLambda (idx : Index) (w : Walk) :
    ∀ fs : List Form, Asks idx w (Form.bodyWanted fs) (checkLambda idx w fs)
  | [] => .nothing rfl
  | _ :: body => asks_checkAll idx false (w.enter _) body

theorem asks_checkBar (idx : Index) (w : Walk) :
    ∀ fs : List Form, Asks idx w (Form.barWanted fs) (checkBar idx w fs)
  | [] => .nothing rfl
  | f :: fs => by
    unfold checkBar Form.barWanted
    cases f.name? with
    | none => exact asks_checkBar idx w fs
    | some name =>
      simp only [Option.some.injEq, beq_iff_eq]
      split
      · exact asks_checkAll idx false w fs
      · exact asks_checkBar idx (w.bind name) fs

theorem asks_checkModule (idx : Index) (w : Walk) :
    ∀ fs : List Form, Asks idx w (Form.moduleWanted fs) (checkModule idx w fs)
  | [] | [_] => .nothing rfl
  | _ :: _ :: body => asks_checkAll idx false w body

theorem asks_checkLet (idx : Index) (keyword : Keyword) (w : Walk) :
    ∀ fs : List Form, Asks idx w (Form.letWanted fs) (checkLet idx keyword w fs)
  | [] => .nothing rfl
  | .list _ pairs :: body | .sexpr _ pairs :: body =>
    (asks_openLet fun w => asks_checkPairs idx _ w pairs).trans (asks_checkAll idx false _ body)
  | .symbol span written :: body =>
    (asks_check idx false (w.enter []) (.symbol span written)).trans (asks_checkAll idx false _ body)
  | .string span text :: body =>
    (asks_check idx false (w.enter []) (.string span text)).trans (asks_checkAll idx false _ body)
  | .struct span items :: body =>
    (asks_check idx false (w.enter []) (.struct span items)).trans (asks_checkAll idx false _ body)
  | .other span :: body =>
    (asks_check idx false (w.enter []) (.other span)).trans (asks_checkAll idx false _ body)

theorem asks_checkPairs (idx : Index) (inTurn : Bool) (w : Walk) :
    ∀ fs : List Form, Asks idx w (Form.pairsWanted fs) (checkPairs idx inTurn w fs)
  | [] => .nothing rfl
  | .sexpr _ (first :: values) :: pairs => by
    have hvalues := asks_checkAll idx false w values
    unfold checkPairs Form.pairsWanted
    refine hvalues.trans (Asks.trans (.nothing ?_) (asks_checkPairs idx inTurn _ pairs))
    cases inTurn <;> cases first.name? <;> rfl
  | .sexpr _ [] :: pairs | .symbol .. :: pairs | .string .. :: pairs | .list .. :: pairs
  | .struct .. :: pairs | .other .. :: pairs => asks_checkPairs idx inTurn w pairs

end

end Walk

/-! ## Problems -/

/-- Whether problems tell of a module that a file asks for and that is not there. -/
def Reported (ps : List Problem) (f : SourceFile) (name : Text) : Prop :=
  ∃ p ∈ ps, p.file = f ∧ p.complaint = .unknownModule name

section

variable {idx : Index} {ps ps' : List Problem} {f : SourceFile} {name : Text}

theorem reported_append : Reported (ps ++ ps') f name ↔ Reported ps f name ∨ Reported ps' f name := by
  simp only [Reported, List.mem_append, or_and_right, exists_or]

theorem reported_sorted : Reported (Problem.sorted ps) f name ↔ Reported ps f name := by
  simp only [Reported, Problem.sorted, List.mem_mergeSort]

theorem reported_flatMap {α : Type} {items : List α} {problems : α → List Problem} :
    Reported (items.flatMap problems) f name ↔ ∃ item ∈ items, Reported (problems item) f name := by
  simp only [Reported, List.mem_flatMap]
  grind

theorem Complaint.module?_eq_some {c : Complaint} : c.module? = some name ↔ c = .unknownModule name := by
  cases c <;> simp [Complaint.module?]

/-- The findings of one file. -/
theorem reported_findings {f' : SourceFile} {w : Walk} :
    Reported (w.findings.map fun found => ⟨f', found.span, found.complaint⟩) f name ↔
      f = f' ∧ name ∈ w.unknown := by
  simp only [Reported, Walk.unknown, List.mem_map, List.mem_filterMap, Complaint.module?_eq_some]
  grind

theorem reported_problemsIn {s : Scope} {files : List SourceFile} :
    Reported (idx.problemsIn s files) f name ↔ f ∈ files ∧ name ∈ f.wanted ∧ idx.module? name = none := by
  induction files generalizing s with
  | nil => simp [Index.problemsIn, Reported]
  | cons f' files ih =>
    have hunknown : (Walk.checkAll idx false { scope := s } f'.forms).unknown = f'.wanted.filter idx.lacks :=
      Eq.trans (Walk.asks_checkAll idx false { scope := s } f'.forms) (List.nil_append _)
    rw [Index.problemsIn, reported_append, reported_findings, ih, hunknown, List.mem_filter, Index.lacks,
      Option.isNone_iff_eq_none, List.mem_cons, or_and_right]
    refine or_congr_left (and_congr_right fun hf => ?_)
    rw [hf]

theorem reported_checkFiles {names : List Text} {files : List SourceFile} :
    Reported (idx.checkFiles names files) f name ↔ f ∈ files ∧ name ∈ f.wanted ∧ idx.module? name = none :=
  reported_sorted.trans reported_problemsIn

namespace Index

/-- The files that are checked: all but that of the root. -/
def checkedFiles (idx : Index) : List SourceFile :=
  (idx.modules.filter (·.name != rootModule.name)).map (·.file) ++ idx.scripts.flatMap (·.files)

theorem Numbered.mem_filterMap_sorted {α : Type} {nameOf : α → Text} {idOf : α → Nat} {ids : Table Nat}
    {entries : List α} {e : α} (h : Numbered nameOf idOf ids entries) :
    e ∈ ids.sorted.filterMap (fun (_, id) => entries[id]?) ↔ e ∈ entries := by
  simp only [List.mem_filterMap, Table.sorted, List.mem_mergeSort]
  refine ⟨fun ⟨_, _, he⟩ => List.mem_of_getElem? he, fun he => ?_⟩
  obtain ⟨id, hid⟩ := List.getElem?_of_mem he
  exact ⟨_, Table.mem_of_get? (h.entry id e hid).2, hid⟩

/-- A check tells of exactly those modules that a checked file asks for and the index does not have. -/
theorem reported_checkAll (hs : idx.Sound) : Reported idx.checkAll f name ↔
    f ∈ idx.checkedFiles ∧ name ∈ f.wanted ∧ idx.module? name = none := by
  have hmodules : ∀ m, m ∈ idx.modulesByName.filter (·.name != rootModule.name) ↔
      m ∈ idx.modules.filter (·.name != rootModule.name) := by
    simp only [List.mem_filter, modulesByName, hs.modules.mem_filterMap_sorted, implies_true]
  have hscripts : ∀ b, b ∈ idx.scriptsByName ↔ b ∈ idx.scripts := fun b => hs.scripts.mem_filterMap_sorted
  rw [checkAll, reported_sorted, reported_append, reported_flatMap, reported_flatMap, checkedFiles]
  simp only [hmodules, hscripts, checkModule, checkScript, reported_checkFiles, List.mem_append, List.mem_map,
    List.mem_flatMap, List.mem_singleton]
  grind

end Index

end

end FusionKit
