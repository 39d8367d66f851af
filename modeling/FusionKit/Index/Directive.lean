import FusionKit.Index
import FusionKit.Keyword

/-!
# Directives

What a file tells the index, read off its forms in order: the names it defines and provides, the
language of its module and the modules it imports. Quoted data says nothing; quasi-quoted data
speaks only where it is unquoted.

The form of a directive is judged here and its names are looked up later, so a malformed import
still names the module that is to be loaded before the fault is reported.
-/
namespace FusionKit

/-- What is wrong with a directive. -/
inductive DirectiveFault where
  | missingModuleName
  | missingLanguage
  | requireArgument
  | requireForm
  | prefixedImport
  | onlySymbols
  | renamePair
  | renameSymbol
  | renameLength
  | emptyProvide
  | provideForm
  | renameOutPair
  | renameOutLocal
  | renameOutProvided
  | renameOutUnknown (name : Text)
  deriving DecidableEq, Repr

/-- The message for a fault. -/
def DirectiveFault.message : DirectiveFault → Text
  | missingModuleName => utf8 "missing module name"
  | missingLanguage => utf8 "missing module language"
  | requireArgument => utf8 "argument 0 to require must be string or s-expr"
  | requireForm => utf8 "invalid argument to require"
  | prefixedImport => utf8 "support for `(require (prefix_in ...))` is not implemented"
  | onlySymbols => utf8 "non-symbol found in require only_in list"
  | renamePair => utf8 "expected s-expression"
  | renameSymbol => utf8 "expected symbol"
  | renameLength => utf8 "invalid rename_in mapping"
  | emptyProvide => utf8 "unexpected s-expression"
  | provideForm => utf8 "expected all_defined_out or rename_out"
  | renameOutPair => utf8 "rename_out expected s-expression"
  | renameOutLocal => utf8 "rename_out requires a local name"
  | renameOutProvided => utf8 "rename_out requires a provided name"
  | renameOutUnknown name =>
    utf8 "rename_out of " ++ name ++ utf8 ", which is neither defined nor required"

/-- A fault with its place. -/
structure Misuse where
  span : Span
  fault : DirectiveFault
  deriving DecidableEq, Repr

/-- One thing that a file tells the index. -/
inductive Directive where
  | define (origin : Origin)
  | provide (origin : Origin)
  /-- All that the file defines is provided. -/
  | provideDefined
  /-- What is known as `inner` is provided as `outer`. -/
  | provideAs (span : Span) (inner outer : Text)
  | language (name : Text)
  /-- A module is loaded, and then imported as far as the import is well formed. -/
  | require (name : Text) (imports : Except Misuse Imports)
  | misuse (m : Misuse)

namespace Directive

/-- A directive that consists of a fault. -/
def faulty (span : Span) (fault : DirectiveFault) : Directive := misuse ⟨span, fault⟩

/-- The name that a definition introduces: its target, or the head of its target. -/
def definedName? : List Form → Option Origin
  | .symbol span written :: _ => some ⟨written, span⟩
  | .sexpr _ (.symbol span written :: _) :: _ => some ⟨written, span⟩
  | _ => none

/-- The names of an import of some names. -/
def onlyNames (items : List Form) : Except Misuse (List Origin) :=
  items.mapM fun item =>
    match item.name? with
    | some name => .ok ⟨name, item.span⟩
    | none => .error ⟨item.span, .onlySymbols⟩

/-- One renaming of an import: the name in the module and the new one. -/
def renamed : Form → Except Misuse (Text × Origin)
  | .sexpr span items => do
    let names ← items.mapM fun item =>
      match item.name? with
      | some name => .ok name
      | none => .error ⟨item.span, .renameSymbol⟩
    match names with
    | [inner, outer] => .ok (inner, ⟨outer, span⟩)
    | _ => .error ⟨span, .renameLength⟩
  | f => .error ⟨f.span, .renamePair⟩

/-- The names that an import renames; of two for one name the later counts. -/
def renamedAll (items : List Form) : Except Misuse (Table Origin) := do
  let pairs ← items.mapM renamed
  return pairs.foldl (fun t (inner, origin) => t.put inner origin) []

/-- The import that a form within a require stands for. -/
def requireForm (span : Span) (items : List Form) : List Directive :=
  match items with
  | .symbol headSpan head :: rest =>
    let importing (imports : List Form → Except Misuse Imports) : List Directive :=
      match rest with
      | .string _ name :: more => [.require name (imports more)]
      | _ => [faulty span .missingModuleName]
    if head == utf8 "only_in" then importing fun more => (onlyNames more).map .names
    else if head == utf8 "rename_in" then importing fun more => (renamedAll more).map .mapped
    else if head == utf8 "prefix_in" then [faulty headSpan .prefixedImport]
    else [faulty headSpan .requireForm]
  | _ => []

/-- The import that an argument of a require stands for. -/
def requireArgument : Form → List Directive
  | .string _ name => [.require name (.ok .all)]
  | .sexpr span items => requireForm span items
  | f => [faulty f.span .requireArgument]

/-- What providing something under another name says; `span` is that of the head. -/
def renameOut (span : Span) : List Form → Directive
  | .sexpr _ pair :: _ =>
    match pair with
    | .symbol _ inner :: rest =>
      match rest with
      | .symbol _ outer :: _ => .provideAs span inner outer
      | _ => faulty span .renameOutProvided
    | _ => faulty span .renameOutLocal
  | _ => faulty span .renameOutPair

/-- What an argument of a provide says. -/
def provideArgument : Form → List Directive
  | .symbol span written => [.provide ⟨written.unquoted, span⟩]
  | .sexpr span [] => [faulty span .emptyProvide]
  | .sexpr span (head :: rest) =>
    if head.symbol? == some (utf8 "all_defined_out") then [.provideDefined]
    else if head.symbol? == some (utf8 "rename_out") then [renameOut head.span rest]
    else [faulty span .provideForm]
  | _ => []

/-- The language that a module form names. -/
def languageOf : Form → Text
  | .string _ text => text
  | f => f.name?.getD []

end Directive

namespace Form

mutual

/-- The directives of a form. -/
def directives (quoted : Bool) : Form → List Directive
  | .sexpr span items => sexprDirectives quoted span items
  | .list _ items => directivesOf quoted items
  | .struct _ items => directivesOf quoted items
  | _ => []

/-- The directives of some forms. -/
def directivesOf (quoted : Bool) : List Form → List Directive
  | [] => []
  | f :: fs => directives quoted f ++ directivesOf quoted fs

/-- The directives of an s-expression. One that no symbol heads says nothing. -/
def sexprDirectives (quoted : Bool) (span : Span) : List Form → List Directive
  | .symbol _ head :: rest =>
    if quoted then directivesOf (Keyword.ofText? head != some .unquote) rest
    else
      match Keyword.ofText? head with
      | some .define => (Directive.definedName? rest).toList.map .define
      | some .definePublic => (Directive.definedName? rest).toList.map .provide
      | some .moduleForm => moduleDirectives span rest
      | some .provide => rest.flatMap Directive.provideArgument
      | some .require => rest.flatMap Directive.requireArgument
      | some .quote => []
      | some .quasiquote => directivesOf true rest
      | _ => directivesOf false rest
  | _ => []

/-- The directives of a module form after its head: a name, a language and the body. -/
def moduleDirectives (span : Span) : List Form → List Directive
  | [] => [Directive.faulty span .missingModuleName]
  | _ :: rest =>
    match rest with
    | [] => [Directive.faulty span .missingLanguage]
    | language :: body =>
      let name := Directive.languageOf language
      if name.isEmpty then [Directive.faulty span .missingLanguage]
      else .language name :: directivesOf false body

end

end Form

end FusionKit
