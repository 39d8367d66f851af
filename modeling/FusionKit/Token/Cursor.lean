import FusionKit.Location
import FusionKit.Token.Lexeme
import FusionKit.Text.Blank

/-!
# Cursors

A cursor walks over a source character by character and cuts tokens out of what it has passed.
It stands between two places: where the current token starts and where it is. Looking ahead moves
neither, and no step passes a stray byte.

The marks of a cursor are counters of its own, moved by each character it passes. Only `step` moves
them: all other operations that pass something are loops of it, which `Reaches` says of each.
-/
namespace FusionKit

/-- The mark behind a character that stands at `m`: a line feed begins a line, and any other
character takes its bytes of the column. -/
def Mark.pass (m : Mark) (x : Char) : Mark :=
  if x == '\n' then ⟨m.offset + x.utf8Size, m.line + 1, 1⟩
  else ⟨m.offset + x.utf8Size, m.line, m.col + x.utf8Size⟩

/-- A place of a source: its mark and the glyphs from there on. -/
structure Place where
  mark : Mark := {}
  rest : List Glyph
  deriving Repr

/-- A walk over a source. -/
structure Cursor where
  file : Text
  source : Text
  /-- Where the current token starts. -/
  start : Place
  /-- Where the cursor is. -/
  here : Place
  /-- The last character passed. -/
  last : Char := '\x00'
  deriving Repr

namespace Cursor

/-- A cursor at the start of a source. -/
def ofSource (file source : Text) : Cursor :=
  ⟨file, source, { rest := source.glyphs }, { rest := source.glyphs }, '\x00'⟩

/-- Why the cursor cannot go on. -/
inductive Stop where
  | ended
  | stray (b : UInt8)
  deriving DecidableEq, Repr

/-- The message for a stop. -/
def Stop.message : Stop → Text
  | ended => utf8 "EOF"
  | stray b => (LexFault.strayByte b).message

/-- The text from the start of the current token to the cursor. Every glyph has a byte, so no more
glyphs are looked at than there are bytes. -/
def text (c : Cursor) : Text :=
  let length := c.here.mark.offset - c.start.mark.offset
  (Text.ofGlyphs (c.start.rest.take length)).take length

/-- The source from the cursor on. -/
def remaining (c : Cursor) : Text := Text.ofGlyphs c.here.rest

/-- Whether the cursor is at the end of the source. -/
def atEnd (c : Cursor) : Bool := c.here.rest.isEmpty

/-- The location of the cursor. -/
def location (c : Cursor) : Location := .ofMark c.file c.here.mark

/-- The location of the start of the current token. -/
def startLocation (c : Cursor) : Location := .ofMark c.file c.start.mark

/-! ## Looking ahead -/

/-- The stray byte that keeps the cursor from going on. -/
def obstacle? (c : Cursor) : Option Stop :=
  match c.here.rest with
  | .stray b :: _ => some (.stray b)
  | _ => none

/-- The character `n` characters ahead; a negative number looks past every end. -/
def peek? (c : Cursor) (n : Int) : Except Stop Char :=
  let n := if n < 0 then c.here.rest.length else n.toNat
  let ahead := c.here.rest.take (n + 1)
  match ahead.find? (fun g => !g.isCharWith fun _ => true), ahead[n]? with
  | some (.stray b), _ => .error (.stray b)
  | _, some (.char x) => .ok x
  | _, _ => .error .ended

/-- The character shown for what is `n` characters ahead: U+FFFD for a stray byte, and U+0000 behind
the end. -/
def shownAhead (c : Cursor) (n : Int) : Char :=
  match c.peek? n with
  | .ok x => x
  | .error (.stray _) => '\ufffd'
  | .error .ended => '\x00'

/-- Whether the source goes on with `literal`. -/
def startsWith (c : Cursor) (literal : Text) : Bool :=
  literal.isPrefixOf (Text.ofGlyphs (c.here.rest.take literal.length))

/-- How many characters satisfying `p` come next. -/
def countAll (p : Char → Bool) (c : Cursor) : Nat :=
  (c.here.rest.takeWhile (Glyph.isCharWith p)).length

/-! ## Passing characters -/

/-- Reaches the next character. -/
def step (c : Cursor) : Except Stop Cursor :=
  match c.here.rest with
  | [] => .error .ended
  | .stray b :: _ => .error (.stray b)
  | .char x :: gs => .ok { c with here := ⟨c.here.mark.pass x, gs⟩, last := x }

/-- The cursor behind the next character `x`, which `gs` follows. -/
def past (c : Cursor) (x : Char) (gs : List Glyph) : Cursor :=
  { c with here := ⟨c.here.mark.pass x, gs⟩, last := x }

theorem step_of_rest {c : Cursor} {x : Char} {gs : List Glyph} (h : c.here.rest = .char x :: gs) :
    c.step = .ok (c.past x gs) := by
  unfold step
  rw [h]
  rfl

theorem exists_of_step {c c' : Cursor} (h : c.step = .ok c') :
    ∃ x gs, c.here.rest = .char x :: gs ∧ c' = c.past x gs := by
  unfold step at h
  split at h
  · cases h
  · cases h
  · rename_i x gs hrest
    exact ⟨x, gs, hrest, (Except.ok.inj h).symm⟩

theorem length_lt_of_step {c c' : Cursor} (h : c.step = .ok c') :
    c'.here.rest.length < c.here.rest.length := by
  obtain ⟨x, gs, hrest, rfl⟩ := exists_of_step h
  rw [hrest]
  exact Nat.lt_succ_self gs.length

/-- Reaches the next character when there is one. -/
def proceed (c : Cursor) : Cursor := c.step.toOption.getD c

/-- Reaches the next character when it satisfies `p`. -/
def accept (p : Char → Bool) (c : Cursor) : Option Cursor :=
  match c.here.rest with
  | .char x :: _ => if p x then c.step.toOption else none
  | _ => none

theorem exists_of_accept {p : Char → Bool} {c c' : Cursor} (h : c.accept p = some c') :
    c.step = .ok c' ∧ p c'.last = true := by
  unfold accept at h
  split at h
  · rename_i x gs hrest
    split at h
    · rename_i hx
      rw [step_of_rest hrest] at h ⊢
      cases h
      exact ⟨rfl, hx⟩
    · cases h
  · cases h

theorem accept_of_step {p : Char → Bool} {c c' : Cursor} (h : c.step = .ok c') (hp : p c'.last = true) :
    c.accept p = some c' := by
  obtain ⟨x, gs, hrest, rfl⟩ := exists_of_step h
  have hx : p x = true := hp
  simp only [accept, hrest, hx, if_true, h]
  rfl

/-- Reaches the characters satisfying `p` that come next. -/
def acceptAll (p : Char → Bool) (c : Cursor) : Cursor :=
  match _ : c.accept p with
  | some c' => acceptAll p c'
  | none => c
termination_by c.here.rest.length
decreasing_by exact length_lt_of_step (exists_of_accept ‹c.accept p = some c'›).1

/-- Reaches characters until the offset `stop` is reached, or as far as there are any. -/
def advanceTo (stop : Nat) (c : Cursor) : Cursor :=
  if c.here.mark.offset < stop then
    match _ : c.step with
    | .ok c' => advanceTo stop c'
    | .error _ => c
  else c
termination_by c.here.rest.length
decreasing_by exact length_lt_of_step ‹c.step = .ok c'›

/-- Reaches at least `n` bytes of characters, as far as there are any. The end is an offset, so a
number that leads past the largest one passes nothing. -/
def advance (c : Cursor) (n : Int) : Cursor :=
  c.advanceTo (Word.wrap64 (c.here.mark.offset + n)).toNat

/-- Reaches `n` bytes that are known to lie ahead, which no offset is too small for. -/
def skip (n : Nat) (c : Cursor) : Cursor := c.advanceTo (c.here.mark.offset + n)

/-- Reaches `literal` when the source goes on with it. -/
def acceptText (c : Cursor) (literal : Text) : Option Cursor :=
  if c.startsWith literal then some (c.skip literal.length) else none

/-! ## Cutting off tokens -/

/-- Starts a new token at the cursor. -/
def ignore (c : Cursor) : Cursor := { c with start := c.here }

/-- The current token, and the cursor at the start of the next one. -/
def emit (c : Cursor) (type : TokenType) : Token × Cursor :=
  (⟨type, c.text, ⟨c.start.mark.offset, c.here.mark.offset⟩, c.startLocation⟩, c.ignore)

/-- A token at the start of the current one that covers nothing of the source. -/
def bare (c : Cursor) (type : TokenType) (text : Text) : Token :=
  ⟨type, text, ⟨c.start.mark.offset, c.start.mark.offset⟩, c.startLocation⟩

/-! ## Runs of steps -/

/-- One cursor becomes another by passing the characters `w`, one after the other. -/
inductive Passes : List Char → Cursor → Cursor → Prop where
  | nil (c : Cursor) : Passes [] c c
  | cons {c c₁ c₂ : Cursor} {w : List Char} (first : c.step = .ok c₁) (others : Passes w c₁ c₂) :
      Passes (c₁.last :: w) c c₂

theorem Passes.append {c c₁ c₂ : Cursor} {v w : List Char} (h : Passes v c c₁) (h' : Passes w c₁ c₂) :
    Passes (v ++ w) c c₂ := by
  induction h with
  | nil c => exact h'
  | cons first _ ih => exact .cons first (ih h')

theorem Passes.length_eq {c c' : Cursor} {w : List Char} (h : Passes w c c') :
    c.here.rest.length = w.length + c'.here.rest.length := by
  induction h with
  | nil c => exact (Nat.zero_add _).symm
  | cons first _ ih =>
    obtain ⟨x, gs, hrest, rfl⟩ := exists_of_step first
    have hgs : gs.length = _ := ih
    rw [hrest, List.length_cons, List.length_cons, hgs]
    omega

/-- One cursor becomes another by passing some characters. -/
def Reaches (c c' : Cursor) : Prop := ∃ w, Passes w c c'

theorem Reaches.refl (c : Cursor) : c.Reaches c := ⟨[], .nil c⟩

theorem Reaches.trans {c c₁ c₂ : Cursor} (h : c.Reaches c₁) (h' : c₁.Reaches c₂) : c.Reaches c₂ := by
  obtain ⟨v, hv⟩ := h
  obtain ⟨w, hw⟩ := h'
  exact ⟨v ++ w, hv.append hw⟩

theorem Reaches.step {c c₁ c₂ : Cursor} (first : c.step = .ok c₁) (others : c₁.Reaches c₂) :
    c.Reaches c₂ := by
  obtain ⟨w, hw⟩ := others
  exact ⟨c₁.last :: w, .cons first hw⟩

theorem Reaches.length_le {c c' : Cursor} (h : c.Reaches c') :
    c'.here.rest.length ≤ c.here.rest.length := by
  obtain ⟨w, hw⟩ := h
  rw [hw.length_eq]
  exact Nat.le_add_left _ _

theorem Reaches.getD {c c' : Cursor} {accepted : Option Cursor} (h : c'.Reaches c)
    (haccepted : ∀ d, accepted = some d → c.Reaches d) : c'.Reaches (accepted.getD c) := by
  cases accepted with
  | none => exact h
  | some d => exact h.trans (haccepted d rfl)

theorem reaches_of_step {c c' : Cursor} (h : c.step = .ok c') : c.Reaches c' := .step h (.refl c')

theorem proceed_of_step {c c' : Cursor} (h : c.step = .ok c') : c.proceed = c' := by
  rw [proceed, h]
  rfl

theorem reaches_of_accept {p : Char → Bool} {c c' : Cursor} (h : c.accept p = some c') :
    c.Reaches c' := reaches_of_step (exists_of_accept h).1

theorem reaches_acceptAll (p : Char → Bool) (c : Cursor) : c.Reaches (c.acceptAll p) := by
  fun_induction acceptAll p c with
  | case1 c c' h ih => exact (reaches_of_accept h).trans ih
  | case2 c h => exact .refl c

theorem reaches_acceptAll_of_step {p : Char → Bool} {c c' : Cursor} (h : c.step = .ok c')
    (hp : p c'.last = true) : c'.Reaches (c.acceptAll p) := by
  rw [acceptAll, accept_of_step h hp]
  exact reaches_acceptAll p c'

theorem reaches_advanceTo (stop : Nat) (c : Cursor) : c.Reaches (c.advanceTo stop) := by
  fun_induction advanceTo stop c with
  | case1 c hstop c' h ih => exact .step h ih
  | case2 c hstop cause h => exact .refl c
  | case3 c hstop => exact .refl c

theorem reaches_skip (n : Nat) (c : Cursor) : c.Reaches (c.skip n) := reaches_advanceTo _ c

theorem reaches_skip_of_step {n : Nat} {c c' : Cursor} (h : c.step = .ok c') (hn : 0 < n) :
    c'.Reaches (c.skip n) := by
  rw [skip, advanceTo, if_pos (Nat.lt_add_of_pos_right hn), h]
  exact reaches_advanceTo _ c'

theorem reaches_of_acceptText {c c' : Cursor} {literal : Text} (h : c.acceptText literal = some c') :
    c.Reaches c' := by
  unfold acceptText at h
  split at h
  · cases h
    exact reaches_skip _ c
  · cases h

end Cursor

end FusionKit
