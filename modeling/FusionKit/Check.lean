import FusionKit.Fresh
import FusionKit.Index
import FusionKit.Keyword
import FusionKit.Scope

/-!
# Checking

Names that are used without being bound, and imports that cannot be understood. A resource is
walked twice in one scope: the first walk leaves the names behind that hold for the whole
resource, so that the second reports no use that merely comes before its definition.

A head that is no keyword is checked like an argument, and so are all arguments of a call.
-/
namespace FusionKit

/-- What is wrong at a place. -/
inductive Complaint where
  /-- A symbol, as written, that nothing binds. -/
  | unbound (written : Text)
  | unknownModule (name : Text)
  | requireArgument
  | requireForm
  | missingModule (head : Text)
  | expectedSymbol
  | expectedPair
  | expectedTwoSymbols
  | prefixedImport
  deriving DecidableEq, Repr

/-- The message for a complaint. -/
def Complaint.message : Complaint → Text
  | unbound written => utf8 "Unbound identifier " ++ written
  | unknownModule name => utf8 "cannot find module named " ++ name
  | requireArgument => utf8 "arguments to require must be string or s-expr"
  | requireForm => utf8 "invalid argument to require"
  | missingModule head => utf8 "expected module name in " ++ head
  | expectedSymbol => utf8 "expected symbol"
  | expectedPair => utf8 "expected s-expression after module name"
  | expectedTwoSymbols => utf8 "expected two symbols in rename_in pair"
  | prefixedImport => utf8 "support for `(require (prefix_in ...))` is not implemented"

/-- A complaint with its place. -/
structure Finding where
  span : Span
  complaint : Complaint
  deriving DecidableEq, Repr

/-- A walk over forms: the scope reached and what was found. -/
structure Walk where
  scope : Scope
  findings : List Finding := []
  deriving DecidableEq, Repr

namespace Walk

/-- Adds a finding. -/
def report (w : Walk) (span : Span) (complaint : Complaint) : Walk :=
  { w with findings := w.findings ++ [⟨span, complaint⟩] }

/-- Binds a name in the innermost frame. -/
def bind (w : Walk) (name : Text) : Walk := { w with scope := w.scope.bind name }

/-- Binds a name for the whole resource. -/
def bindTop (w : Walk) (name : Text) : Walk := { w with scope := w.scope.bindTop name }

/-- Enters a frame. -/
def enter (w : Walk) (names : List Text) : Walk := { w with scope := w.scope.enter names }

/-- Leaves the innermost frame. -/
def leave (w : Walk) : Walk := { w with scope := w.scope.leave }

/-- Imports some names of a module. -/
def importOnly (w : Walk) (item : Form) : Walk :=
  match item.name? with
  | some name => w.bindTop name
  | none => w.report item.span .expectedSymbol

/-- Imports a name of a module under another name. -/
def importRenamed (w : Walk) : Form → Walk
  | .sexpr span items =>
    match items with
    | [.symbol _ _, .symbol _ outer] => w.bind outer.unquoted
    | _ => w.report span .expectedTwoSymbols
  | f => w.report f.span .expectedPair

/-- An import that is an s-expression. -/
def importForm (w : Walk) (span : Span) : List Form → Walk
  | [] => w.report span .requireForm
  | head :: rest =>
    let importing (word : String) (step : Walk → Form → Walk) : Walk :=
      match rest with
      | .string _ _ :: items => items.foldl step w
      | _ => w.report span (.missingModule (utf8 word))
    if head.symbol? == some (utf8 "only_in") then importing "only_in" importOnly
    else if head.symbol? == some (utf8 "rename_in") then importing "rename_in" importRenamed
    else if head.symbol? == some (utf8 "prefix_in") then w.report head.span .prefixedImport
    else w.report head.span .requireForm

/-- An argument of a require. -/
def importArgument (idx : Index) (w : Walk) : Form → Walk
  | .string span name =>
    match idx.module? name with
    | some m => { w with scope := w.scope.bindAll m.provides.names }
    | none => w.report span (.unknownModule name)
  | .sexpr span items => w.importForm span items
  | f => w.report f.span .requireArgument

/-- The parameters that a form lists: a symbol, or the symbols of an s-expression. -/
def parameters : Form → List Text
  | .symbol _ written => [written.unquoted]
  | .sexpr _ items => items.filterMap Form.name?
  | _ => []

/-- The name that a definition binds and the parameters it has. -/
def definition : Form → Option Text × List Text
  | .symbol _ written => (some written.unquoted, [])
  | .sexpr _ (head :: items) => (head.name?, items.filterMap Form.name?)
  | _ => (none, [])

/-- The name that the first item of a binding gives. -/
def boundName? : Form → Option Text
  | .sexpr _ (first :: _) => first.name?
  | _ => none

/-- Enters the frame of a form that binds local names. `values` walks over the values, which see
the new frame, except in a plain one; a recursive one binds all names before. -/
def openLet (w : Walk) (keyword : Keyword) (pairs : List Form) (values : Walk → Walk) : Walk :=
  let names := pairs.filterMap boundName?
  match keyword with
  | .plainLet => (values w).enter names
  | .recursiveLet => values (w.enter names)
  | _ => values (w.enter [])

mutual

/-- Walks over a form. -/
def check (idx : Index) (quoted : Bool) (w : Walk) : Form → Walk
  | .symbol span written =>
    if quoted || w.scope.contains written.unquoted then w else w.report span (.unbound written)
  | .list _ items => checkAll idx quoted w items
  | .struct _ items => checkAll idx quoted w items
  | .sexpr _ items => checkSexpr idx quoted w items
  | .string _ _ => w
  | .other _ => w

/-- Walks over forms in order. -/
def checkAll (idx : Index) (quoted : Bool) (w : Walk) : List Form → Walk
  | [] => w
  | f :: fs => checkAll idx quoted (check idx quoted w f) fs

/-- Walks over an s-expression. -/
def checkSexpr (idx : Index) (quoted : Bool) (w : Walk) : List Form → Walk
  | [] => w
  | head :: rest =>
    match head.name?.map Keyword.ofText? with
    | some (some keyword) =>
      if quoted then checkAll idx (keyword != .unquote) w rest
      else
        match keyword with
        | .define | .definePublic => checkDefine idx w rest
        | .lambda => checkLambda idx w rest
        | .bar => (checkBar idx (w.enter []) rest).leave
        | .plainLet => checkLet idx .plainLet w rest
        | .sequentialLet => checkLet idx .sequentialLet w rest
        | .recursiveLet => checkLet idx .recursiveLet w rest
        | .moduleForm => checkModule idx w rest
        | .provide | .quote => w
        | .quasiquote => checkAll idx true w rest
        | .require => rest.foldl (importArgument idx) w
        | .unquote => checkAll idx false (check idx false w head) rest
    | _ => checkAll idx quoted (check idx quoted w head) rest

/-- Walks over a definition after its head. -/
def checkDefine (idx : Index) (w : Walk) : List Form → Walk
  | [] => w
  | target :: body =>
    let (name, params) := definition target
    let w := name.elim w w.bindTop
    (checkAll idx false (w.enter params) body).leave

/-- Walks over a lambda after its head. -/
def checkLambda (idx : Index) (w : Walk) : List Form → Walk
  | [] => w
  | params :: body => (checkAll idx false (w.enter (parameters params)) body).leave

/-- Walks over a function between bars, in a frame of its own, up to the second bar and then over
the body. -/
def checkBar (idx : Index) (w : Walk) : List Form → Walk
  | [] => w
  | f :: fs =>
    match f.name? with
    | some name =>
      if name == utf8 "|" then checkAll idx false w fs else checkBar idx (w.bind name) fs
    | none => checkBar idx w fs

/-- Walks over the body of a module form. -/
def checkModule (idx : Index) (w : Walk) : List Form → Walk
  | _ :: _ :: body => checkAll idx false w body
  | _ => w

/-- Walks over a form that binds local names, after its head. -/
def checkLet (idx : Index) (keyword : Keyword) (w : Walk) : List Form → Walk
  | [] => w
  | .list _ pairs :: body =>
    let walk w := checkPairs idx (keyword != .plainLet) w pairs
    (checkAll idx false (w.openLet keyword pairs walk) body).leave
  | .sexpr _ pairs :: body =>
    let walk w := checkPairs idx (keyword != .plainLet) w pairs
    (checkAll idx false (w.openLet keyword pairs walk) body).leave
  | f :: body => (checkAll idx false (check idx false (w.enter []) f) body).leave

/-- Walks over the values of bindings. With `inTurn` each name is bound after its values. -/
def checkPairs (idx : Index) (inTurn : Bool) (w : Walk) : List Form → Walk
  | [] => w
  | .sexpr _ (first :: values) :: pairs =>
    let w := checkAll idx false w values
    checkPairs idx inTurn (if inTurn then first.name?.elim w w.bind else w) pairs
  | _ :: pairs => checkPairs idx inTurn w pairs

end

end Walk

/-- A finding in a file. -/
structure Problem where
  file : SourceFile
  span : Span
  complaint : Complaint
  deriving Repr

namespace Problem

/-- The location of a problem. -/
def location (p : Problem) : Location := p.file.locate p.span.start

/-- A problem as it is shown. -/
def render (p : Problem) : Text := p.location.render ++ utf8 ": " ++ p.complaint.message

/-- The order of problems: by name of file, then by place. -/
def le (p q : Problem) : Bool :=
  if p.file.name == q.file.name then p.span.start ≤ q.span.start
  else Text.le p.file.name q.file.name

/-- The problems in order; those at one place stay as they are. -/
def sorted (ps : List Problem) : List Problem := ps.mergeSort le

end Problem

namespace Index

variable (idx : Index)

/-- The module with a name, the module of its language, and so on up to the root, to a language
that is not loaded or to a module seen before. -/
def languagesFrom (seen : List Text) (name : Text) : List Module :=
  if repeated : name ∈ seen then []
  else
    match found : idx.module? name with
    | none => []
    | some m =>
      if name = rootModule.name || m.language.isEmpty then [m]
      else
        have := fresh_cons_lt (mem_names_of_module? found) repeated
        m :: languagesFrom (name :: seen) m.language
termination_by fresh (idx.moduleIds.map (·.1)) seen

/-- The names that a module and its languages provide. -/
def namesOf (name : Text) : List Text :=
  (idx.languagesFrom [] name).flatMap fun m => m.provides.names

/-- Walks over the files one after the other. -/
def walkFiles (s : Scope) (files : List SourceFile) : Scope :=
  files.foldl (fun s f => (Walk.checkAll idx false { scope := s } f.forms).scope) s

/-- The problems found in the files one after the other. -/
def problemsIn (s : Scope) : List SourceFile → List Problem
  | [] => []
  | f :: fs =>
    let w := Walk.checkAll idx false { scope := s } f.forms
    w.findings.map (fun found => ⟨f, found.span, found.complaint⟩) ++ problemsIn w.scope fs

/-- The problems of files that share a scope with the given names. -/
def checkFiles (names : List Text) (files : List SourceFile) : List Problem :=
  Problem.sorted (idx.problemsIn (idx.walkFiles (.ofNames names) files) files)

/-- The problems of a module. -/
def checkModule (m : Module) : List Problem := idx.checkFiles (idx.namesOf m.name) [m.file]

/-- The problems of a script. -/
def checkScript (s : Script) : List Problem :=
  idx.checkFiles (s.topLevelModules.flatMap idx.namesOf ++ s.globalBindings) s.files

/-- All problems. -/
def checkAll : List Problem :=
  Problem.sorted
    ((idx.modulesByName.filter (·.name != rootModule.name)).flatMap idx.checkModule ++
      idx.scriptsByName.flatMap idx.checkScript)

end Index

end FusionKit
