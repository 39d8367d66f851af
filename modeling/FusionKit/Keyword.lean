import FusionKit.Form

/-!
# Keywords

The symbols that give the s-expression they head a meaning of its own. An s-expression with any
other head is a call.
-/
namespace FusionKit

/-- The meanings that a head can have. -/
inductive Keyword where
  | define
  /-- A definition that is provided at once. -/
  | definePublic
  | lambda
  /-- A function written between bars. -/
  | bar
  | plainLet
  | sequentialLet
  | recursiveLet
  | moduleForm
  | provide
  | require
  | quote
  | quasiquote
  | unquote
  deriving DecidableEq, Repr

/-- The spellings of keywords. -/
def Keyword.spellings : List (String × Keyword) :=
  [("define", .define), ("define_syntax", .definePublic), ("defpub", .definePublic),
    ("defpub_j", .definePublic), ("defpub_syntax", .definePublic), ("lambda", .lambda),
    ("|", .bar), ("let", .plainLet), ("lets", .sequentialLet), ("letrec", .recursiveLet),
    ("module", .moduleForm), ("provide", .provide), ("require", .require), ("quote", .quote),
    ("quasiquote", .quasiquote), ("unquote", .unquote)]

/-- The keyword that a text spells. -/
def Keyword.ofText? (t : Text) : Option Keyword :=
  (spellings.find? fun s => utf8 s.1 == t).map (·.2)

end FusionKit
