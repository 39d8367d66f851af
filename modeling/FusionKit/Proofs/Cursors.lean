import FusionKit.Proofs.Marks
import Mathlib.Tactic.Common

/-!
# Cursors keep their place

Whatever is done with a cursor, and in whatever order, its two marks are places of the source: at
each of them the source itself gives the same line and column. What lies before the cursor is valid
UTF-8 and ends between two characters, and the texts that were cut off are the source up to the start
of the current token. Whatever moves the cursor is a run of steps, so all follows from what one step
does to it and from what cutting off a text does.
-/
set_option autoImplicit false

namespace FusionKit

theorem Text.isUtf8_ofChars (cs : List Char) : Text.isUtf8 (Text.ofChars cs) = true := by
  rw [Text.isUtf8, Text.glyphs_ofChars, Glyph.ofChars, List.all_map]
  exact List.all_eq_true.mpr fun _ _ => rfl

namespace Cursor

/-- What can be done with a cursor. Which characters are accepted is up to the client. -/
inductive Operation where
  | step
  | advance (n : Int)
  | accept (p : Char → Bool)
  | acceptAll (p : Char → Bool)
  | acceptText (literal : Text)
  | peek (n : Int)
  | startsWith (literal : Text)
  | emit (type : TokenType)
  | ignore

/-- What an operation tells. -/
inductive Outcome where
  | done
  | stopped (cause : Stop)
  | accepted (yes : Bool)
  | passed (count : Nat)
  | seen (ahead : Except Stop Char)
  | emitted (token : Token)

/-- Whether the outcome is that the operation could not be carried out. -/
@[simp] def Outcome.failed : Outcome → Bool
  | stopped _ => true
  | accepted yes => !yes
  | passed count => count == 0
  | seen (.error _) => true
  | done | seen (.ok _) | emitted _ => false

/-- Whether an operation only looks at what comes next. -/
@[simp] def Operation.looksAhead : Operation → Bool
  | peek _ | startsWith _ => true
  | step | advance _ | accept _ | acceptAll _ | acceptText _ | emit _ | ignore => false

/-- What an operation tells, and the cursor after it. Where an operation gives no cursor, the old one
is still there. -/
def perform (c : Cursor) : Operation → Outcome × Cursor
  | .step =>
    match c.step with
    | .ok c' => (.done, c')
    | .error cause => (.stopped cause, c)
  | .advance n => (.done, c.advance n)
  | .accept p => (.accepted (c.accept p).isSome, (c.accept p).getD c)
  | .acceptAll p => (.passed (c.countAll p), c.acceptAll p)
  | .acceptText literal => (.accepted (c.acceptText literal).isSome, (c.acceptText literal).getD c)
  | .peek n => (.seen (c.peek? n), c)
  | .startsWith literal => (.accepted (c.startsWith literal), c)
  | .emit type => (.emitted (c.emit type).1, (c.emit type).2)
  | .ignore => (.done, c.ignore)

/-- The text that an operation cuts off: that of a token, or the one that is not wanted. -/
def cut (c : Cursor) : Operation → List Text
  | .emit type => [(c.emit type).1.text]
  | .ignore => [c.text]
  | .step | .advance _ | .accept _ | .acceptAll _ | .acceptText _ | .peek _ | .startsWith _ => []

/-- The texts that some operations cut off one after the other, and the cursor after them. -/
def run (c : Cursor) : List Operation → List Text × Cursor
  | [] => ([], c)
  | op :: ops =>
    let (texts, last) := run (c.perform op).2 ops
    (c.cut op ++ texts, last)

/-- A cursor that keeps its place in a source of which some texts are cut off, and that loses it by no
operation which fails or only looks ahead. -/
structure Tracks (file source : Text) (texts : List Text) (c : Cursor) : Prop where
  start_le : c.start.mark.offset ≤ c.here.mark.offset
  here_le : c.here.mark.offset ≤ source.length
  location : c.location = .locate file source c.here.mark.offset
  startLocation : c.startLocation = .locate file source c.start.mark.offset
  /-- What lies before the cursor is valid UTF-8. -/
  valid : Text.isUtf8 (source.take c.here.mark.offset) = true
  /-- No character of the source lies on both sides of the cursor. -/
  between : source.glyphs =
    Text.glyphs (source.take c.here.mark.offset) ++ Text.glyphs (source.drop c.here.mark.offset)
  texts : texts.flatten = source.take c.start.mark.offset
  text : c.text = (source.take c.here.mark.offset).drop c.start.mark.offset
  remaining : c.remaining = source.drop c.here.mark.offset
  unchanged (op : Operation) :
    op.looksAhead = true ∨ (c.perform op).1.failed = true → (c.perform op).2 = c

/-! ## Texts in front of the cursor -/

/-- The source goes on with a text when that is a prefix of what remains. -/
theorem startsWith_eq (c : Cursor) (literal : Text) :
    c.startsWith literal = literal.isPrefixOf c.remaining := by
  rw [Bool.eq_iff_iff, startsWith, List.isPrefixOf_iff_prefix, List.isPrefixOf_iff_prefix,
    List.prefix_iff_eq_take, List.prefix_iff_eq_take, Text.take_ofGlyphs_take, remaining]

theorem text_eq (c : Cursor) :
    c.text = (Text.ofGlyphs c.start.rest).take (c.here.mark.offset - c.start.mark.offset) :=
  Text.take_ofGlyphs_take _ _

/-! ## Passing characters -/

/-- Passing characters moves the place of the cursor and nothing else. -/
theorem Passes.spec {c c' : Cursor} {w : List Char} (h : Passes w c c') :
    c.here.rest = Glyph.ofChars w ++ c'.here.rest ∧ c'.here.mark = c.here.mark.after (Text.ofChars w) ∧
      c'.file = c.file ∧ c'.start = c.start := by
  induction h with
  | nil c => exact ⟨rfl, rfl, rfl, rfl⟩
  | @cons c c₁ c₂ w first _ ih =>
    obtain ⟨x, gs, hrest, rfl⟩ := exists_of_step first
    obtain ⟨hgs, hmark, hfile, hstart⟩ := ih
    have hgs : gs = Glyph.ofChars w ++ c₂.here.rest := hgs
    have hx : c₂.here.mark = (c.here.mark.pass x).after (Text.ofChars w) := hmark
    refine ⟨?_, ?_, hfile, hstart⟩
    · rw [hrest, hgs]
      rfl
    · rw [hx, Mark.pass_eq_after, ← Mark.after_append]
      rfl

theorem accept_none {p : Char → Bool} {c : Cursor} (h : c.countAll p = 0) : c.accept p = none := by
  unfold countAll at h
  unfold accept
  split
  · rename_i x gs hrest
    split
    · rename_i hx
      have hx : Glyph.isCharWith p (.char x) = true := hx
      rw [hrest, List.takeWhile_cons_of_pos hx] at h
      contradiction
    · rfl
  · rfl

theorem acceptAll_of_accept_none {p : Char → Bool} {c : Cursor} (h : c.accept p = none) :
    c.acceptAll p = c := by
  rw [acceptAll, h]

/-- The characters `us` are cut off, and the current token consists of `vs`. -/
structure Stands (file source : Text) (us vs : List Char) (c : Cursor) : Prop where
  file : c.file = file
  glyphs : source.glyphs = Glyph.ofChars (us ++ vs) ++ c.here.rest
  here : c.here.mark = Mark.after {} (Text.ofChars (us ++ vs))
  start : c.start = ⟨Mark.after {} (Text.ofChars us), Glyph.ofChars vs ++ c.here.rest⟩

variable {file source : Text} {us vs : List Char} {c : Cursor}

theorem stands_ofSource (file source : Text) : Stands file source [] [] (ofSource file source) :=
  ⟨rfl, rfl, rfl, rfl⟩

/-- What is passed belongs to the current token. -/
theorem Stands.passes (h : Stands file source us vs c) {c' : Cursor} {w : List Char} (hc : Passes w c c') :
    Stands file source us (vs ++ w) c' := by
  obtain ⟨hrest, hmark, hfile, hstart⟩ := hc.spec
  have happend : Glyph.ofChars vs ++ c.here.rest = Glyph.ofChars (vs ++ w) ++ c'.here.rest := by
    rw [hrest, Glyph.ofChars_append, List.append_assoc]
  refine ⟨hfile.trans h.file, ?_, ?_, ?_⟩
  · rw [h.glyphs, Glyph.ofChars_append, List.append_assoc, happend, Glyph.ofChars_append us, List.append_assoc]
  · rw [hmark, h.here, ← Mark.after_append, ← Text.ofChars_append, List.append_assoc]
  · rw [hstart, h.start, happend]

theorem Stands.ignore (h : Stands file source us vs c) : Stands file source (us ++ vs) [] c.ignore where
  file := h.file
  glyphs := by
    show _ = _ ++ c.here.rest
    rw [h.glyphs, List.append_nil]
  here := by
    show c.here.mark = _
    rw [h.here, List.append_nil]
  start := by
    show c.here = _
    rw [← h.here]
    rfl

theorem Stands.text (h : Stands file source us vs c) : c.text = Text.ofChars vs := by
  rw [text_eq, h.here, h.start, Mark.offset_after, Mark.offset_after, Text.ofGlyphs_append, Text.ofGlyphs_ofChars,
    Text.ofChars_append, List.length_append]
  exact List.take_left' (by simp)

/-! ## One operation -/

theorem Stands.perform (h : Stands file source us vs c) (op : Operation) :
    ∃ us' vs', Stands file source us' vs' (c.perform op).2 ∧
      Text.ofChars us' = Text.ofChars us ++ (c.cut op).flatten := by
  have hmoves : ∀ {c'}, c.Reaches c' → ∃ us' vs', Stands file source us' vs' c' ∧
      Text.ofChars us' = Text.ofChars us ++ ([] : List Text).flatten := by
    intro c' hc
    obtain ⟨w, hw⟩ := hc
    exact ⟨us, vs ++ w, h.passes hw, (List.append_nil _).symm⟩
  have hcut : ∃ us' vs', Stands file source us' vs' c.ignore ∧
      Text.ofChars us' = Text.ofChars us ++ [c.text].flatten := by
    refine ⟨us ++ vs, [], h.ignore, ?_⟩
    rw [h.text, List.flatten_singleton, Text.ofChars_append]
  cases op with
  | step =>
    refine hmoves ?_
    cases hstep : c.step with
    | ok c' => simpa only [Cursor.perform, hstep] using reaches_of_step hstep
    | error cause => simpa only [Cursor.perform, hstep] using Reaches.refl c
  | advance n => exact hmoves (reaches_advanceTo _ c)
  | accept p => exact hmoves (Reaches.getD (.refl c) fun _ => reaches_of_accept)
  | acceptAll p => exact hmoves (reaches_acceptAll p c)
  | acceptText literal => exact hmoves (Reaches.getD (.refl c) fun _ => reaches_of_acceptText)
  | peek n => exact hmoves (.refl c)
  | startsWith literal => exact hmoves (.refl c)
  | emit type => exact hcut
  | ignore => exact hcut

/-- An operation that fails or only looks ahead leaves the cursor as it is. -/
theorem perform_unchanged (c : Cursor) {op : Operation}
    (h : op.looksAhead = true ∨ (c.perform op).1.failed = true) : (c.perform op).2 = c := by
  cases op with
  | step =>
    cases hstep : c.step with
    | ok c' => simp [Cursor.perform, hstep] at h
    | error cause => simp only [Cursor.perform, hstep]
  | advance n => simp [Cursor.perform] at h
  | accept p =>
    cases haccept : c.accept p with
    | some c' => simp [Cursor.perform, haccept] at h
    | none => simp only [Cursor.perform, haccept, Option.getD_none]
  | acceptAll p =>
    have hcount : c.countAll p = 0 := by simpa [Cursor.perform] using h
    exact acceptAll_of_accept_none (accept_none hcount)
  | acceptText literal =>
    cases haccept : c.acceptText literal with
    | some c' => simp [Cursor.perform, haccept] at h
    | none => simp only [Cursor.perform, haccept, Option.getD_none]
  | peek n => rfl
  | startsWith literal => rfl
  | emit type => simp [Cursor.perform] at h
  | ignore => simp [Cursor.perform] at h

/-! ## Many operations -/

theorem Stands.run (h : Stands file source us vs c) (ops : List Operation) :
    ∃ us' vs', Stands file source us' vs' (c.run ops).2 ∧
      Text.ofChars us' = Text.ofChars us ++ (c.run ops).1.flatten := by
  induction ops generalizing us vs c with
  | nil => exact ⟨us, vs, h, (List.append_nil _).symm⟩
  | cons op ops ih =>
    obtain ⟨us₁, vs₁, h₁, hcut⟩ := h.perform op
    obtain ⟨us₂, vs₂, h₂, htexts⟩ := ih h₁
    refine ⟨us₂, vs₂, h₂, ?_⟩
    rw [htexts, hcut, List.append_assoc, ← List.flatten_append]
    rfl

theorem Stands.tracks (h : Stands file source us vs c) {texts : List Text}
    (htexts : Text.ofChars us = texts.flatten) : Tracks file source texts c := by
  have hsource : source = Text.ofChars (us ++ vs) ++ c.remaining := by
    rw [← Text.ofGlyphs_glyphs source, h.glyphs, Text.ofGlyphs_append, Text.ofGlyphs_ofChars]
    rfl
  have hhere : c.here.mark.offset = (Text.ofChars (us ++ vs)).length := by
    rw [h.here, Mark.offset_after]
    exact Nat.zero_add _
  have hstart : c.start.mark.offset = (Text.ofChars us).length := by
    rw [h.start, Mark.offset_after]
    exact Nat.zero_add _
  have hsplit : Text.ofChars (us ++ vs) = Text.ofChars us ++ Text.ofChars vs := Text.ofChars_append us vs
  have hbefore : source.take c.here.mark.offset = Text.ofChars (us ++ vs) := by
    rw [hhere, hsource, List.take_left]
  have hafter : source.drop c.here.mark.offset = c.remaining := by
    conv_lhs => rw [hhere, hsource, List.drop_left]
  exact {
    start_le := by
      rw [hstart, hhere, hsplit, List.length_append]
      omega
    here_le := by
      rw [hhere, hsource, List.length_append]
      omega
    location := by
      rw [hhere, location, h.file, h.here, hsource]
      exact Location.ofMark_after file _ _
    startLocation := by
      rw [hstart, startLocation, h.file, h.start, hsource, hsplit, List.append_assoc]
      exact Location.ofMark_after file _ _
    valid := by
      rw [hbefore]
      exact Text.isUtf8_ofChars _
    between := by
      rw [hbefore, hafter]
      conv_lhs => rw [hsource]
      rw [Text.glyphs_ofChars_append, Text.glyphs_ofChars]
    texts := by
      rw [hstart, hsource, hsplit, List.append_assoc, List.take_left, htexts]
    text := by
      rw [hbefore, hstart, hsplit, List.drop_left, h.text]
    remaining := hafter.symm
    unchanged := fun op hop => c.perform_unchanged hop }

/-- After any operations on a source, valid UTF-8 or not, the cursor keeps its place in it. This says of
every operation on the way that it does, because it is the last one of some operations. -/
theorem run_tracks (file source : Text) (ops : List Operation) :
    Tracks file source ((ofSource file source).run ops).1 ((ofSource file source).run ops).2 := by
  obtain ⟨us, vs, h, htexts⟩ := (stands_ofSource file source).run ops
  exact h.tracks htexts

/-- A stray byte stops the cursor midway, on the second line. -/
example : ((ofSource [] (utf8 "a\né" ++ [0xff] ++ utf8 "b")).run
    [.step, .emit .symbol, .advance 9, .step]).2.location = ⟨[], 4, 2, 3⟩ := by
  decide +kernel

end Cursor

end FusionKit
