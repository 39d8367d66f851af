import FusionKit.Node.Parse

/-!
# The steps of the parser

`Step` lists what one token can do to a reading, with its conditions; `step_iff` says that the list
is exact. A program is read by `Steps`, one for each of its tokens, that leave nothing open. What a
run of the parser preserves is proved from this list, and what a run can do by naming the steps it
takes.
-/
set_option autoImplicit false

namespace FusionKit

/-- The types of the tokens that name a member of a struct. -/
def TokenType.keys : List TokenType := [.symbol, .quotedSymbol, .string, .longString]

/-- The types of the tokens that a value starts with, annotations apart. -/
def TokenType.values : List TokenType :=
  [.null, .bool, .int, .real, .timestamp, .symbol, .quotedSymbol, .operator, .string, .longString,
    .blob, .parenOpen, .bracketOpen, .braceOpen, .clobOpen]

namespace Frame

/-- The annotations of the form. -/
def annotations : Frame → List Text
  | sexpr _ a _ | list _ a _ _ | struct _ a _ _ | clob _ a _ => a

/-- The items that are finished, last first. -/
def items : Frame → List Node
  | sexpr _ _ items | list _ _ items _ | struct _ _ items _ | clob _ _ items => items

/-- The kind of the form. -/
def kind : Frame → Kind
  | sexpr .. => .sexpr
  | list .. => .list
  | struct .. => .struct
  | clob .. => .clob

/-- The form that a token opens. -/
def opened? (t : Token) (annotations : List Text) : Option Frame :=
  match t.type with
  | .parenOpen => some (.sexpr t annotations [])
  | .bracketOpen => some (.list t annotations [] true)
  | .braceOpen => some (.struct t annotations [] (.between true))
  | .clobOpen => some (.clob t annotations [])
  | _ => none

/-- The token type that closes the form; none in the middle of a member. -/
def closing? : Frame → Option TokenType
  | sexpr .. => some .parenClose
  | list .. => some .bracketClose
  | struct _ _ _ (.between _) => some .braceClose
  | struct .. => none
  | clob .. => some .clobClose

theorem closing?_cases {f : Frame} {type : TokenType} (h : f.closing? = some type) :
    type = .parenClose ∨ type = .bracketClose ∨ type = .braceClose ∨ type = .clobClose := by
  unfold closing? at h
  split at h <;> cases h <;> simp

/-- The form after a comma. -/
def afterComma? : Frame → Option Frame
  | list o a items false => some (.list o a items true)
  | struct o a items (.between false) => some (.struct o a items (.between true))
  | _ => none

/-- A struct after a key. -/
def named (o : Token) (a : List Text) (items : List Node) (key : Node) : Frame :=
  .struct o a items (.afterKey key [key])

/-- Whether a value may come next. -/
def hasPlace : Frame → Bool
  | sexpr .. => true
  | list _ _ _ ready => ready
  | struct _ _ _ (.afterColon ..) => true
  | _ => false

end Frame

namespace Reading

/-- The annotations that the next value will have. -/
def annotations (r : Reading) : List Text := (r.pending.map Pending.annotations).getD []

/-- A value may come next. -/
def HasPlace (r : Reading) : Prop :=
  r.pending.isSome = true ∨ ∀ f, r.frames.head? = some f → f.hasPlace = true

/-- What one token does to a reading. -/
inductive Step (r : Reading) (t : Token) : Reading → Prop where
  | annotate (hr : r.HasPlace) (ht : t.type = .annotate) :
      Step r t { r with pending := some ⟨r.annotations ++ [t.text], true⟩ }
  | blank {as : List Text} (hp : r.pending = some ⟨as, true⟩) (ht : t.type = .whitespace) :
      Step r t { r with pending := some ⟨as, false⟩ }
  | scalar {n : Node} (hr : r.HasPlace) (hn : Node.scalar? t = some n) :
      Step r t (r.deliver (n.annotated r.annotations))
  | opening {f : Frame} (hr : r.HasPlace) (hf : Frame.opened? t r.annotations = some f) :
      Step r t (r.enter f)
  | trivia {ns : List Node} (hp : r.pending = none)
      (hc : ∀ o a items fs, r.frames = .clob o a items :: fs → t.type = .whitespace)
      (hn : Node.trivia? t = some ns) : Step r t (r.keep ns)
  | clobString {o : Token} {a : List Text} {items : List Node} {fs : List Frame} {n : Node}
      (hp : r.pending = none) (hr : r.frames = .clob o a items :: fs)
      (ht : t.type = .string ∨ t.type = .longString) (hn : Node.scalar? t = some n) :
      Step r t (r.deliver n)
  | closing {f : Frame} {fs : List Frame} (hp : r.pending = none) (hr : r.frames = f :: fs)
      (ht : f.closing? = some t.type) :
      Step r t (r.close fs (.ofForm f.kind f.annotations f.opening t f.items))
  | comma {f g : Frame} {fs : List Frame} (hp : r.pending = none) (hr : r.frames = f :: fs)
      (hg : f.afterComma? = some g) (ht : t.type = .comma) :
      Step r t { r with frames := g :: fs }
  | key {o : Token} {a : List Text} {items : List Node} {fs : List Frame} (hp : r.pending = none)
      (hr : r.frames = .struct o a items (.between true) :: fs) (ht : t.type ∈ TokenType.keys) :
      Step r t { r with frames := .named o a items (.leaf .structKey t t.text) :: fs }
  | colon {o : Token} {a : List Text} {items : List Node} {fs : List Frame} {key : Node}
      {reversed : List Node} (hp : r.pending = none)
      (hr : r.frames = .struct o a items (.afterKey key reversed) :: fs) (ht : t.type = .colon) :
      Step r t { r with frames := .struct o a items (.afterColon key reversed) :: fs }

variable {r r' : Reading} {t : Token} {as items : List Node} {fs : List Frame} {o : Token}
  {a : List Text}

theorem fail_ne_ok (t : Token) (fault : SyntaxFault) : (fail t fault : Except SyntaxError Reading) ≠ .ok r' := by
  unfold fail
  exact nofun

theorem failAt_ne_ok (t : Token) (fault : SyntaxFault) :
    (failAt t fault : Except SyntaxError Reading) ≠ .ok r' := by
  unfold failAt
  split
  · exact fail_ne_ok t _
  · exact fail_ne_ok t _

/-! ## Each step is in the list -/

/-- The first token of a value. -/
theorem Step.of_value (hr : r.HasPlace) (h : r.value r.annotations t = .ok r') : r.Step t r' := by
  unfold Reading.value at h
  split at h
  · rename_i n hn
    cases h
    exact .scalar hr hn
  · split at h
    case h_5 | h_6 | h_7 | h_8 => exact absurd h (fail_ne_ok _ _)
    all_goals
      rename_i ht
      cases h
      exact .opening hr (by rw [Frame.opened?, ht])

theorem Step.of_expression (hp : r.pending = none) (hr : r.HasPlace)
    (h : r.expression t = .ok r') : r.Step t r' := by
  have has : r.annotations = [] := by rw [Reading.annotations, hp]; rfl
  unfold Reading.expression at h
  split at h
  · rename_i ht
    cases h
    have hstep : r.Step t { r with pending := some ⟨r.annotations ++ [t.text], true⟩ } := .annotate hr ht
    rwa [has] at hstep
  · apply Step.of_value hr
    rwa [has]

theorem Step.of_annotated {p : Pending} (hp : r.pending = some p) (h : r.annotated p t = .ok r') :
    r.Step t r' := by
  have hr : r.HasPlace := .inl (by rw [hp]; rfl)
  have has : r.annotations = p.annotations := by rw [Reading.annotations, hp]; rfl
  unfold Reading.annotated at h
  split at h
  · rename_i ht
    cases h
    rw [← has]
    exact .annotate hr ht
  · rename_i ht
    split at h
    · rename_i hb
      cases h
      obtain ⟨annotations, mayBlank⟩ := p
      obtain rfl : mayBlank = true := hb
      exact .blank hp ht
    · rw [← has] at h
      exact Step.of_value hr h
  · rw [← has] at h
    exact Step.of_value hr h

theorem Step.of_inClob {items : List Node} (hp : r.pending = none)
    (hr : r.frames = .clob o a items :: fs) (h : r.inClob fs o a items t = .ok r') : r.Step t r' := by
  have hstring : t.type = .string ∨ t.type = .longString → r.value [] t = .ok r' → r.Step t r' := by
    intro ht h
    unfold Reading.value at h
    split at h
    · rename_i n hn
      cases h
      exact .clobString hp hr ht hn
    · rename_i hn
      rcases ht with ht | ht <;> rw [Node.scalar?, ht] at hn <;> contradiction
  unfold Reading.inClob at h
  split at h
  · rename_i ht
    cases h
    exact .closing (f := .clob o a items) hp hr (by rw [ht]; rfl)
  · rename_i ht
    cases h
    exact .trivia hp (fun _ _ _ _ _ => ht) (by rw [Node.trivia?, ht])
  · rename_i ht
    exact hstring (.inl ht) h
  · rename_i ht
    exact hstring (.inr ht) h
  all_goals exact absurd h (fail_ne_ok _ _)

theorem Step.of_inSExpr {items : List Node} (hp : r.pending = none)
    (hr : r.frames = .sexpr o a items :: fs) (h : r.inSExpr fs o a items t = .ok r') :
    r.Step t r' := by
  unfold Reading.inSExpr at h
  split at h
  · exact absurd h (fail_ne_ok _ _)
  · rename_i ht
    cases h
    exact .closing (f := .sexpr o a items) hp hr (by rw [ht]; rfl)
  · apply Step.of_expression hp _ h
    right
    intro f hf
    rw [hr] at hf
    cases hf
    rfl

theorem Step.of_inList {items : List Node} {ready : Bool} (hp : r.pending = none)
    (hr : r.frames = .list o a items ready :: fs) (h : r.inList fs o a items ready t = .ok r') :
    r.Step t r' := by
  unfold Reading.inList at h
  split at h
  · exact absurd h (fail_ne_ok _ _)
  · rename_i ht
    cases h
    exact .closing (f := .list o a items ready) hp hr (by rw [ht]; rfl)
  · rename_i ht
    split at h
    · exact absurd h (fail_ne_ok _ _)
    · rename_i hready
      cases h
      obtain rfl : ready = false := by simpa using hready
      exact .comma hp hr rfl ht
  · split at h
    · rename_i hready
      apply Step.of_expression hp _ h
      right
      intro f hf
      rw [hr] at hf
      cases hf
      exact hready
    · exact absurd h (failAt_ne_ok _ _)

theorem Step.of_inStruct {items : List Node} {ready : Bool} (hp : r.pending = none)
    (hr : r.frames = .struct o a items (.between ready) :: fs)
    (h : r.inStruct fs o a items ready t = .ok r') : r.Step t r' := by
  unfold Reading.inStruct at h
  dsimp only at h
  split at h
  · exact absurd h (fail_ne_ok _ _)
  · rename_i ht
    cases h
    exact .closing (f := .struct o a items (.between ready)) hp hr (by rw [ht]; rfl)
  · rename_i ht
    split at h
    · exact absurd h (fail_ne_ok _ _)
    · rename_i hready
      cases h
      obtain rfl : ready = false := by simpa using hready
      exact .comma hp hr rfl ht
  · split at h
    · exact absurd h (failAt_ne_ok _ _)
    · rename_i hready
      obtain rfl : ready = true := by simpa using hready
      split at h
      case h_5 => exact absurd h (fail_ne_ok _ _)
      case h_6 => exact absurd h (failAt_ne_ok _ _)
      all_goals
        rename_i ht
        cases h
        exact .key hp hr (by rw [ht]; decide)

theorem Step.of_step (h : r.step t = .ok r') : r.Step t r' := by
  unfold Reading.step at h
  split at h
  · rename_i hp
    exact Step.of_annotated hp h
  · rename_i hp hr
    exact Step.of_inClob hp hr h
  · rename_i hp hclob
    split at h
    · rename_i ns hns
      cases h
      exact .trivia hp (fun o a items fs hr => absurd hr (hclob o a items fs)) hns
    · split at h
      · rename_i hr
        exact Step.of_inSExpr hp hr h
      · rename_i hr
        exact Step.of_inList hp hr h
      · rename_i hr
        exact Step.of_inStruct hp hr h
      · rename_i hr
        split at h
        · rename_i ht
          cases h
          exact .colon hp hr ht
        · exact absurd h (failAt_ne_ok _ _)
      · rename_i hsexpr hlist hbetween hkey
        apply Step.of_expression hp _ h
        right
        intro f hf
        obtain ⟨fs, hr⟩ : ∃ fs, r.frames = f :: fs := by
          cases hr : r.frames with
          | nil => rw [hr] at hf; contradiction
          | cons g fs => rw [hr] at hf; cases hf; exact ⟨fs, rfl⟩
        cases f with
        | sexpr o a items => exact absurd hr (hsexpr o a items fs)
        | list o a items ready => exact absurd hr (hlist o a items ready fs)
        | struct o a items phase =>
          cases phase with
          | between ready => exact absurd hr (hbetween o a items ready fs)
          | afterKey key rev => exact absurd hr (hkey o a items key rev fs)
          | afterColon => rfl
        | clob o a items => exact absurd hr (hclob o a items fs)

/-! ## Each step in the list is made -/

theorem trivia?_of_first (ht : t.type ∈ .annotate :: TokenType.values) : Node.trivia? t = none := by
  unfold Node.trivia?
  simp only [TokenType.values, List.mem_cons, List.not_mem_nil, or_false] at ht
  rcases ht with ht | ht | ht | ht | ht | ht | ht | ht | ht | ht | ht | ht | ht | ht | ht | ht <;> rw [ht]

/-- Where a value may come, its first token is read as such. -/
theorem HasPlace.expression_eq (hr : r.HasPlace) (hp : r.pending = none)
    (ht : t.type ∈ .annotate :: TokenType.values) : r.step t = r.expression t := by
  have htrivia := trivia?_of_first ht
  simp only [HasPlace, hp, Option.isSome_none, Bool.false_eq_true, false_or] at hr
  simp only [TokenType.values, List.mem_cons, List.not_mem_nil, or_false] at ht
  unfold Reading.step
  cases hfs : r.frames with
  | nil => simp only [hp, htrivia]
  | cons f fs =>
    have hf : f.hasPlace = true := hr f (by rw [hfs]; rfl)
    cases f with
    | sexpr o a items =>
      simp only [hp, htrivia, Reading.inSExpr]
      rcases ht with ht | ht | ht | ht | ht | ht | ht | ht | ht | ht | ht | ht | ht | ht | ht | ht <;> rw [ht]
    | list o a items ready =>
      obtain rfl : ready = true := hf
      simp only [hp, htrivia, Reading.inList, if_true]
      rcases ht with ht | ht | ht | ht | ht | ht | ht | ht | ht | ht | ht | ht | ht | ht | ht | ht <;> rw [ht]
    | struct o a items phase =>
      cases phase with
      | afterColon key reversed => simp only [hp, htrivia]
      | between ready => contradiction
      | afterKey key reversed => contradiction
    | clob o a items => contradiction

theorem HasPlace.value_eq (hr : r.HasPlace) (ht : t.type ∈ TokenType.values) :
    r.step t = r.value r.annotations t := by
  have hne : t.type ≠ .annotate := by
    intro h
    rw [h] at ht
    exact absurd ht (by decide)
  cases hp : r.pending with
  | none =>
    rw [hr.expression_eq hp (List.mem_cons_of_mem _ ht), Reading.expression, if_neg hne,
      Reading.annotations, hp]
    rfl
  | some p =>
    have has : r.annotations = p.annotations := by rw [Reading.annotations, hp]; rfl
    have hblank : t.type ≠ .whitespace := by
      intro h
      rw [h] at ht
      exact absurd ht (by decide)
    unfold Reading.step
    simp only [hp, Reading.annotated, has]

theorem HasPlace.annotate_eq (hr : r.HasPlace) (ht : t.type = .annotate) :
    r.step t = .ok { r with pending := some ⟨r.annotations ++ [t.text], true⟩ } := by
  cases hp : r.pending with
  | none =>
    rw [hr.expression_eq hp (by rw [ht]; decide), Reading.expression, if_pos ht, Reading.annotations, hp]
    rfl
  | some p =>
    unfold Reading.step
    simp only [hp, Reading.annotated, ht, Reading.annotations]
    rfl

theorem mem_values_of_scalar? {n : Node} (h : Node.scalar? t = some n) : t.type ∈ TokenType.values := by
  unfold Node.scalar? at h
  split at h
  case h_12 => contradiction
  all_goals
    rename_i ht
    rw [ht]
    decide

theorem mem_values_of_opened? {f : Frame} {a : List Text} (h : Frame.opened? t a = some f) :
    t.type ∈ TokenType.values := by
  unfold Frame.opened? at h
  split at h
  case h_5 => contradiction
  all_goals
    rename_i ht
    rw [ht]
    decide

theorem value_scalar {n : Node} (h : Node.scalar? t = some n) (a : List Text) :
    r.value a t = .ok (r.deliver (n.annotated a)) := by
  rw [Reading.value, h]

theorem value_opened {f : Frame} (h : Frame.opened? t a = some f) : r.value a t = .ok (r.enter f) := by
  unfold Frame.opened? at h
  split at h
  case h_5 => contradiction
  all_goals
    rename_i ht
    cases h
    rw [Reading.value, Node.scalar?, ht]

theorem step_eq_trivia {ns : List Node} (hp : r.pending = none)
    (hc : ∀ o a items fs, r.frames = .clob o a items :: fs → t.type = .whitespace)
    (hn : Node.trivia? t = some ns) : r.step t = .ok (r.keep ns) := by
  unfold Reading.step
  split
  · rename_i hp'
    rw [hp] at hp'
    contradiction
  · rename_i o a items fs _ hr
    have ht := hc o a items fs hr
    rw [Node.trivia?, ht] at hn
    cases hn
    unfold Reading.inClob
    rw [ht]
  · rw [hn]

theorem step_eq_clobString {items : List Node} {n : Node} (hp : r.pending = none)
    (hr : r.frames = .clob o a items :: fs) (ht : t.type = .string ∨ t.type = .longString)
    (hn : Node.scalar? t = some n) : r.step t = .ok (r.deliver n) := by
  have hvalue : r.value [] t = .ok (r.deliver n) := value_scalar hn []
  unfold Reading.step
  simp only [hp, hr, Reading.inClob]
  rcases ht with ht | ht <;> rw [ht, hvalue]

theorem step_eq_closing {f : Frame} (hp : r.pending = none) (hr : r.frames = f :: fs)
    (ht : f.closing? = some t.type) :
    r.step t = .ok (r.close fs (.ofForm f.kind f.annotations f.opening t f.items)) := by
  have htrivia : Node.trivia? t = none := by
    unfold Node.trivia?
    rcases Frame.closing?_cases ht with h | h | h | h <;> rw [h]
  unfold Reading.step
  cases f with
  | sexpr o a items =>
    simp only [hp, hr, htrivia, Reading.inSExpr]
    rw [← Option.some.inj ht]
    rfl
  | list o a items ready =>
    simp only [hp, hr, htrivia, Reading.inList]
    rw [← Option.some.inj ht]
    rfl
  | struct o a items phase =>
    cases phase with
    | between ready =>
      simp only [hp, hr, htrivia, Reading.inStruct]
      rw [← Option.some.inj ht]
      rfl
    | afterKey key reversed => contradiction
    | afterColon key reversed => contradiction
  | clob o a items =>
    simp only [hp, hr, Reading.inClob]
    rw [← Option.some.inj ht]
    rfl

theorem step_eq_comma {f g : Frame} (hp : r.pending = none) (hr : r.frames = f :: fs)
    (hg : f.afterComma? = some g) (ht : t.type = .comma) :
    r.step t = .ok { r with frames := g :: fs } := by
  have htrivia : Node.trivia? t = none := by rw [Node.trivia?, ht]
  unfold Frame.afterComma? at hg
  unfold Reading.step
  split at hg
  · cases hg
    simp only [hp, hr, htrivia, Reading.inList, ht]
    rfl
  · cases hg
    simp only [hp, hr, htrivia, Reading.inStruct, ht]
    rfl
  · contradiction

theorem step_eq_key {items : List Node} (hp : r.pending = none)
    (hr : r.frames = .struct o a items (.between true) :: fs) (ht : t.type ∈ TokenType.keys) :
    r.step t = .ok { r with frames := .named o a items (.leaf .structKey t t.text) :: fs } := by
  simp only [TokenType.keys, List.mem_cons, List.not_mem_nil, or_false] at ht
  unfold Reading.step
  rcases ht with ht | ht | ht | ht <;> simp [hp, hr, Node.trivia?, Reading.inStruct, ht, Frame.named]

theorem Step.step_eq (h : r.Step t r') : r.step t = .ok r' := by
  cases h with
  | annotate hr ht => exact hr.annotate_eq ht
  | blank hp ht => simp only [Reading.step, hp, Reading.annotated, ht, if_true]
  | scalar hr hn => rw [hr.value_eq (mem_values_of_scalar? hn), value_scalar hn]
  | opening hr hf => rw [hr.value_eq (mem_values_of_opened? hf), value_opened hf]
  | trivia hp hc hn => exact step_eq_trivia hp hc hn
  | clobString hp hr ht hn => exact step_eq_clobString hp hr ht hn
  | closing hp hr ht => exact step_eq_closing hp hr ht
  | comma hp hr hg ht => exact step_eq_comma hp hr hg ht
  | key hp hr ht => exact step_eq_key hp hr ht
  | colon hp hr ht =>
    have htrivia : Node.trivia? t = none := by rw [Node.trivia?, ht]
    unfold Reading.step
    simp only [hp, hr, htrivia, ht, if_true]

/-- A token does to a reading what the list says, and nothing else. -/
theorem step_iff : r.step t = .ok r' ↔ r.Step t r' :=
  ⟨Step.of_step, Step.step_eq⟩

/-- No step is made at an end or at a fault. -/
theorem Step.readable (h : r.Step t r') : t.type ∉ [TokenType.eof, .error, .invalid] := by
  have hvalues : t.type ∈ TokenType.values → t.type ∉ [TokenType.eof, .error, .invalid] := by
    intro ht hbad
    rcases List.mem_cons.mp hbad with h | hbad
    · rw [h] at ht
      exact absurd ht (by decide)
    rcases List.mem_cons.mp hbad with h | hbad
    · rw [h] at ht
      exact absurd ht (by decide)
    · rw [List.mem_singleton.mp hbad] at ht
      exact absurd ht (by decide)
  cases h with
  | scalar hr hn => exact hvalues (mem_values_of_scalar? hn)
  | opening hr hf => exact hvalues (mem_values_of_opened? hf)
  | clobString hp hr ht hn => exact hvalues (mem_values_of_scalar? hn)
  | trivia hp hc hn =>
    unfold Node.trivia? at hn
    split at hn <;> rename_i ht <;> simp_all
  | closing hp hr ht => rcases Frame.closing?_cases ht with h | h | h | h <;> rw [h] <;> decide
  | key hp hr ht =>
    simp only [TokenType.keys, List.mem_cons, List.not_mem_nil, or_false] at ht
    rcases ht with ht | ht | ht | ht <;> rw [ht] <;> decide
  | annotate hr ht => rw [ht]; decide
  | blank hp ht => rw [ht]; decide
  | comma hp hr hg ht => rw [ht]; decide
  | colon hp hr ht => rw [ht]; decide

/-- A form is open where a value may come, and annotations stand in front of a value. -/
structure Stacked (r : Reading) : Prop where
  outer : ∀ f ∈ r.frames.tail, f.hasPlace = true
  head : r.pending.isSome = true → ∀ f, r.frames.head? = some f → f.hasPlace = true

theorem Stacked.start : Stacked {} := ⟨by simp, by simp⟩

theorem Stacked.inner {f : Frame} (hs : r.Stacked) (hr : r.frames = f :: fs) :
    ∀ g ∈ fs, g.hasPlace = true := by
  intro g hg
  exact hs.outer g (by rw [hr]; exact hg)

theorem HasPlace.head (hr : r.HasPlace) (hs : r.Stacked) :
    ∀ f, r.frames.head? = some f → f.hasPlace = true := by
  rcases hr with hp | hr
  · exact hs.head hp
  · exact hr

/-- Where a value may come, every open form has a place. -/
theorem HasPlace.all (hr : r.HasPlace) (hs : r.Stacked) : ∀ f ∈ r.frames, f.hasPlace = true := by
  intro f hf
  have hhead := hr.head hs
  cases hfs : r.frames with
  | nil => rw [hfs] at hf; contradiction
  | cons g fs =>
    rw [hfs] at hf hhead
    rcases List.mem_cons.mp hf with rfl | hf
    · exact hhead f rfl
    · exact hs.inner hfs f hf

theorem stacked_deliver (h : ∀ f ∈ r.frames.tail, f.hasPlace = true) (n : Node) :
    (r.deliver n).Stacked := by
  unfold deliver
  cases hfs : r.frames with
  | nil => exact ⟨by simp, by simp⟩
  | cons f fs =>
    rw [hfs] at h
    exact ⟨h, by simp⟩

theorem Step.stacked (h : r.Step t r') (hs : r.Stacked) : r'.Stacked := by
  cases h with
  | annotate hr ht => exact ⟨hs.outer, fun _ => hr.head hs⟩
  | blank hp ht => exact ⟨hs.outer, fun _ => hs.head (by rw [hp]; rfl)⟩
  | scalar hr hn => exact stacked_deliver hs.outer _
  | opening hr hf => exact ⟨hr.all hs, by simp [enter]⟩
  | trivia hp hc hn =>
    unfold keep
    cases hfs : r.frames with
    | nil => exact ⟨by simp, by simp [hp]⟩
    | cons f fs => exact ⟨hs.inner hfs, by simp [hp]⟩
  | clobString hp hr ht hn => exact stacked_deliver hs.outer _
  | closing hp hr ht =>
    exact stacked_deliver (fun g hg => hs.inner hr g (List.mem_of_mem_tail hg)) _
  | comma hp hr hg ht => exact ⟨hs.inner hr, by simp [hp]⟩
  | key hp hr ht => exact ⟨hs.inner hr, by simp [hp]⟩
  | colon hp hr ht => exact ⟨hs.inner hr, by simp [hp]⟩

/-- What some tokens do to a reading, one after the other. -/
inductive Steps : Reading → List Token → Reading → Prop where
  | nil (r : Reading) : Steps r [] r
  | cons {r r' r'' : Reading} {t : Token} {ts : List Token} (h : r.Step t r') (hs : Steps r' ts r'') :
      Steps r (t :: ts) r''

theorem Step.one (h : r.Step t r') : r.Steps [t] r' :=
  .cons h (.nil r')

theorem Steps.trans {r'' : Reading} {ts us : List Token} (h : r.Steps ts r') (h' : r'.Steps us r'') :
    r.Steps (ts ++ us) r'' := by
  induction h with
  | nil => exact h'
  | cons h _ ih => exact .cons h (ih h')

/-- Nothing is read after the last token but its end. -/
theorem finish_iff {last : Token} (hlast : last.type = .eof) {nodes : List Node} :
    r.finish last = .ok nodes ↔ r.isIdle = true ∧ nodes = r.done.reverse := by
  unfold finish
  split
  · rename_i hidle
    constructor
    · intro h
      cases h
      exact ⟨hidle, rfl⟩
    · rintro ⟨-, rfl⟩
      rfl
  · rename_i hidle
    constructor
    · intro h
      cases hstep : r.step last with
      | error e => rw [hstep] at h; contradiction
      | ok r' =>
        have := (Step.of_step hstep).readable
        rw [hlast] at this
        exact absurd (by simp) this
    · exact fun h => absurd h.1 hidle

/-- A program is read by steps that leave nothing open. -/
theorem program_iff {last : Token} {ts : List Token} (hlast : last.type = .eof)
    (hts : ∀ t ∈ ts, t.type ≠ .eof) {nodes : List Node} :
    program last r ts = .ok nodes ↔ ∃ r', r.Steps ts r' ∧ r'.isIdle = true ∧ nodes = r'.done.reverse := by
  induction ts generalizing r with
  | nil =>
    rw [program, finish_iff hlast]
    constructor
    · exact fun h => ⟨r, .nil r, h⟩
    · rintro ⟨r', hsteps, h⟩
      cases hsteps
      exact h
  | cons t ts ih =>
    have ih := fun r => ih (r := r) fun u hu => hts u (List.mem_cons_of_mem _ hu)
    rw [program, if_neg (hts t (by simp))]
    constructor
    · intro h
      cases hstep : r.step t with
      | error e => rw [hstep] at h; contradiction
      | ok r' =>
        rw [hstep] at h
        obtain ⟨r'', hsteps, h⟩ := (ih r').mp h
        exact ⟨r'', .cons (Step.of_step hstep) hsteps, h⟩
    · rintro ⟨r'', hsteps, h⟩
      cases hsteps with
      | @cons _ r' _ _ _ hstep hsteps =>
        rw [hstep.step_eq]
        exact (ih r').mpr ⟨r'', hsteps, h⟩

end Reading

end FusionKit
