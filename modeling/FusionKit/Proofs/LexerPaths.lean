import FusionKit.Proofs.LineEnds
import FusionKit.Proofs.Tiling

/-!
# The paths of the lexer

Each path of the lexer passes exactly the characters of one lexeme, or notices the fault that the
lexeme is. So the lexer, whose cursor goes from character to character, gives the tokens that a source
has as lexemes. Paths look ahead at bytes and lexemes at glyphs; for ASCII marks this is the same,
because a byte at which no character starts is none of ASCII.
-/
set_option autoImplicit false

namespace FusionKit

open Glyph (ofChars Stops)

/-! ## Looking ahead at bytes -/

/-- Glyphs as they come from a text: a stray byte is none of ASCII. -/
def Glyph.Proper (gs : List Glyph) : Prop := ∀ b, Glyph.stray b ∈ gs → 0x80 ≤ b

namespace Glyph

theorem proper_glyphs (t : Text) : Proper t.glyphs := fun _ => Text.le_of_stray_mem_glyphs

theorem Proper.of_append {gs hs : List Glyph} (h : Proper (gs ++ hs)) : Proper hs :=
  fun b hb => h b (List.mem_append_right gs hb)

end Glyph

/-- Where glyphs are proper, ASCII text stands at the start of the bytes exactly if it does so at the
start of the glyphs. -/
theorem Text.ofChars_isPrefix_iff {w : List Char} (hw : ∀ x ∈ w, x.toNat < 128) {gs : List Glyph}
    (hgs : Glyph.Proper gs) : Text.ofChars w <+: Text.ofGlyphs gs ↔ Glyph.ofChars w <+: gs := by
  induction w generalizing gs with
  | nil => exact ⟨fun _ => List.nil_prefix, fun _ => List.nil_prefix⟩
  | cons x w ih =>
    obtain ⟨hx, hw⟩ := List.forall_mem_cons.mp hw
    rw [Text.ofChars_cons_ascii hx, Glyph.ofChars_cons]
    cases gs with
    | nil => simp [Text.ofGlyphs]
    | cons g gs =>
      have hrest : Glyph.Proper gs := fun b hb => hgs b (List.mem_cons_of_mem g hb)
      cases g with
      | stray b =>
        have hb : byte x ≠ b := by
          rintro rfl
          have hle := UInt8.le_iff_toNat_le.mp (hgs (byte x) (by simp))
          have hbyte : (UInt8.ofNat x.toNat).toNat = x.toNat :=
            Text.toNat_ofNat_byte (Nat.lt_trans hx (by decide))
          exact absurd (hbyte ▸ hle) (Nat.not_le_of_lt hx)
        simp [Text.ofGlyphs, Glyph.bytes, List.cons_prefix_cons, hb]
      | char y =>
        by_cases hxy : x = y
        · subst hxy
          have hcons : Text.ofGlyphs (.char x :: gs) = byte x :: Text.ofGlyphs gs := by
            simp only [Text.ofGlyphs, List.flatMap_cons, Glyph.bytes, Text.encode_one hx]
            rfl
          rw [hcons, List.cons_prefix_cons, List.cons_prefix_cons, ih hw hrest]
          simp
        · constructor
          · rintro ⟨t, ht⟩
            have hmem : byte x ∈ String.utf8EncodeChar y := by
              obtain ⟨b, bs, hbs⟩ := List.exists_cons_of_ne_nil (String.utf8EncodeChar_ne_nil (c := y))
              have hcons : Text.ofGlyphs (.char y :: gs) = b :: (bs ++ Text.ofGlyphs gs) := by
                simp only [Text.ofGlyphs, List.flatMap_cons, Glyph.bytes, hbs, List.cons_append]
              rw [hcons, List.cons_append] at ht
              rw [hbs, (List.cons.inj ht).1]
              exact List.mem_cons_self
            exact absurd (Text.eq_of_mem_encode hx hmem).symm hxy
          · intro h
            exact absurd (Glyph.char.inj (List.cons_prefix_cons.mp h).1) hxy

namespace Cursor

variable {c d : Cursor} {w : List Char} {rest : List Glyph}

theorem startsWith_utf8 {s : String} (hs : s.toList.all (·.toNat < 128)) (hc : Glyph.Proper c.here.rest) :
    c.startsWith (utf8 s) = true ↔ ofChars s.toList <+: c.here.rest := by
  rw [startsWith_eq, List.isPrefixOf_iff_prefix]
  exact Text.ofChars_isPrefix_iff (List.all_iff_forall_prop.mp hs) hc

theorem not_startsWith_utf8 {s : String} (hs : s.toList.all (·.toNat < 128))
    (hc : Glyph.Proper c.here.rest) (h : ¬ c.startsWith (utf8 s) = true) (gs : List Glyph) :
    c.here.rest ≠ ofChars s.toList ++ gs :=
  fun hrest => h ((startsWith_utf8 hs hc).mpr ⟨gs, hrest.symm⟩)

/-- A text that the source goes on with begins with the next character. -/
theorem exists_of_startsWith {s : String} {x y : Char} {gs : List Glyph} (hs : s.toList = y :: w)
    (hascii : s.toList.all (·.toNat < 128)) (hc : Glyph.Proper c.here.rest)
    (hrest : c.here.rest = .char x :: gs) (h : c.startsWith (utf8 s) = true) :
    x = y ∧ ∃ hs, gs = ofChars w ++ hs := by
  obtain ⟨ks, hks⟩ := (startsWith_utf8 hascii hc).mp h
  rw [hrest, hs] at hks
  obtain ⟨hx, hgs⟩ := List.cons.inj hks
  exact ⟨(Glyph.char.inj hx).symm, ks, hgs.symm⟩

/-! ## Passing known characters -/

theorem accept_eq_none {p : Char → Bool} (h : ∀ x gs, c.here.rest = .char x :: gs → ¬ p x = true) :
    c.accept p = none := by
  unfold accept
  split
  · rename_i x gs hrest
    exact if_neg (h x gs hrest)
  · rfl

theorem Passes.rest_eq (h : Passes w c d) (hrest : c.here.rest = ofChars w ++ rest) : d.here.rest = rest :=
  List.append_cancel_left (h.spec.1.symm.trans hrest)

theorem Passes.proper (h : Passes w c d) (hc : Glyph.Proper c.here.rest) : Glyph.Proper d.here.rest := by
  rw [h.spec.1] at hc
  exact hc.of_append

/-- The text of the token that begins where the cursor was. -/
theorem Passes.text (h : Passes w c d) (hc : c.start = c.here) : d.text = Text.ofChars w := by
  obtain ⟨hrest, hmark, -, hstart⟩ := h.spec
  rw [text_eq, hmark, hstart, hc, Mark.offset_after, hrest, Text.ofGlyphs_append, Text.ofGlyphs_ofChars,
    Nat.add_sub_cancel_left, List.take_left]

theorem passes_one {x : Char} (h : c.here.rest = .char x :: rest) : Passes [x] c (c.past x rest) :=
  .cons (step_of_rest h) (.nil _)

theorem passes_proceed {x : Char} (h : c.here.rest = .char x :: rest) : Passes [x] c c.proceed := by
  rw [proceed_of_step (step_of_rest h)]
  exact passes_one h

theorem passes_acceptAll {p : Char → Bool} (hrest : c.here.rest = ofChars w ++ rest)
    (hw : ∀ x ∈ w, p x = true) (hstop : Stops p rest) : Passes w c (c.acceptAll p) := by
  induction w generalizing c with
  | nil =>
    have hcount : c.countAll p = 0 := by
      rw [countAll, hrest]
      exact Lexeme.run_of_stops hstop
    rw [acceptAll_of_accept_none (accept_none hcount)]
    exact .nil c
  | cons x w ih =>
    obtain ⟨hx, hw⟩ := List.forall_mem_cons.mp hw
    have hstep := step_of_rest hrest
    rw [acceptAll, accept_of_step hstep hx]
    exact .cons hstep (ih rfl hw)

/-- Passing as many bytes as some ASCII characters have is passing these. -/
theorem passes_skip (hrest : c.here.rest = ofChars w ++ rest) (hw : ∀ x ∈ w, x.toNat < 128) :
    Passes w c (c.skip w.length) := by
  induction w generalizing c with
  | nil =>
    rw [skip, advanceTo, if_neg (by simp)]
    exact .nil c
  | cons x w ih =>
    obtain ⟨hx, hw⟩ := List.forall_mem_cons.mp hw
    have hstep := step_of_rest hrest
    have hsize : x.utf8Size = 1 := by
      rw [← String.length_utf8EncodeChar, Text.encode_one hx, List.length_singleton]
    have hoffset : (c.past x (ofChars w ++ rest)).here.mark.offset = c.here.mark.offset + 1 := by
      show (c.here.mark.pass x).offset = _
      rw [Mark.pass_eq_after, Mark.offset_after, String.length_utf8EncodeChar, hsize]
    have hskip : c.skip (x :: w).length = (c.past x (ofChars w ++ rest)).skip w.length := by
      rw [skip, advanceTo, if_pos (by simp), hstep, skip, hoffset, List.length_cons, Nat.add_assoc,
        Nat.add_comm 1]
      rfl
    rw [hskip]
    exact .cons hstep (ih rfl hw)

/-- Accepting an ASCII text is finding it and passing it. -/
theorem acceptText_utf8 {s : String} (hs : s.toList.all (·.toNat < 128)) (hc : Glyph.Proper c.here.rest)
    (h : c.acceptText (utf8 s) = some d) :
    ∃ gs, c.here.rest = ofChars s.toList ++ gs ∧ Passes s.toList c d := by
  unfold acceptText at h
  split at h
  · rename_i hstarts
    obtain ⟨gs, hgs⟩ := (startsWith_utf8 hs hc).mp hstarts
    have hlength : (utf8 s).length = s.toList.length := by
      rw [show utf8 s = Text.ofChars s.toList from rfl]
      exact Text.length_ofChars_ascii (List.all_iff_forall_prop.mp hs)
    cases h
    rw [hlength]
    exact ⟨gs, hgs.symm, passes_skip hgs.symm (List.all_iff_forall_prop.mp hs)⟩
  · contradiction

theorem not_acceptText_utf8 {s : String} (hs : s.toList.all (·.toNat < 128))
    (hc : Glyph.Proper c.here.rest) (h : c.acceptText (utf8 s) = none) (gs : List Glyph) :
    c.here.rest ≠ ofChars s.toList ++ gs := by
  refine not_startsWith_utf8 hs hc (fun hstarts => ?_) gs
  rw [acceptText, if_pos hstarts] at h
  contradiction

end Cursor

/-! ## Delimited texts -/

/-- The extent of a delimited text says what the path that looks for its end comes to: it has passed as
many characters, and there is the end or a fault. -/
def Lexeme.Extent.Covers (e : Lexeme.Extent) (c : Cursor) (closed : Cursor → Lexed) (cause : LexFault)
    (r : Lexed) : Prop :=
  ∃ w d, Cursor.Passes w c d ∧ w.length = e.count ∧ r = if e.closed then closed d else .fault cause d

namespace Lexed

open Cursor (Passes exists_of_step passes_one)

variable {c d : Cursor} {closed : Cursor → Lexed} {cause : LexFault} {r : Lexed}

theorem covers_further {e : Lexeme.Extent} {w : List Char} (h : Passes w c d)
    (he : e.Covers d closed cause r) : (e.further w.length).Covers c closed cause r := by
  obtain ⟨v, d', hv, hlength, hr⟩ := he
  refine ⟨w ++ v, d', h.append hv, ?_, hr⟩
  rw [List.length_append, hlength, Nat.add_comm]
  rfl

theorem covers_none : Lexeme.Extent.Covers ⟨false, 0⟩ c closed cause (fault cause c) :=
  ⟨[], c, .nil c, rfl, rfl⟩

/-- No character comes next where a step fails. -/
theorem ne_of_step_error {stop : Cursor.Stop} (h : c.step = .error stop) (x : Char) (gs : List Glyph) :
    c.here.rest ≠ .char x :: gs := by
  intro hrest
  rw [Cursor.step_of_rest hrest] at h
  contradiction

theorem commentEnd_covers (c : Cursor) (hc : Glyph.Proper c.here.rest) :
    (Lexeme.commentEnd c.here.rest).Covers c (token .blockComment) .unterminatedComment (commentEnd c) := by
  fun_induction commentEnd c with
  | case1 c closed hclosed =>
    obtain ⟨gs, hrest, hpasses⟩ := Cursor.acceptText_utf8 (by decide) hc hclosed
    have hends : Lexeme.commentEnd c.here.rest = ⟨true, 2⟩ := by
      rw [hrest]
      exact Lexeme.commentEnd_closing gs
    rw [hends]
    exact ⟨_, closed, hpasses, rfl, rfl⟩
  | case2 c hopen c' hstep ih =>
    obtain ⟨x, gs, hrest, rfl⟩ := exists_of_step hstep
    have hpasses := passes_one hrest
    have hplain : Lexeme.commentEnd c.here.rest = (Lexeme.commentEnd gs).further 1 := by
      rw [hrest]
      refine Lexeme.commentEnd_plain fun hx hhead => ?_
      obtain ⟨hs, rfl⟩ := List.head?_eq_some_iff.mp hhead
      exact Cursor.not_acceptText_utf8 (by decide) hc hopen hs (by rw [hrest, hx]; rfl)
    rw [hplain]
    exact covers_further hpasses (ih (hpasses.proper hc))
  | case3 c hopen stop hstep =>
    have hends : Lexeme.commentEnd c.here.rest = ⟨false, 0⟩ := by
      unfold Lexeme.commentEnd
      split
      · rename_i hrest
        exact absurd hrest (ne_of_step_error hstep _ _)
      · rename_i hrest
        exact absurd hrest (ne_of_step_error hstep _ _)
      · rfl
    rw [hends]
    exact covers_none

theorem quoteEnd_covers {quote : Char} (hquote : quote ≠ '\\') (closed : Cursor → Lexed)
    (cause : LexFault) (c : Cursor) :
    (Lexeme.quoteEnd quote c.here.rest).Covers c closed cause (quoteEnd quote closed cause c) := by
  fun_induction quoteEnd quote closed cause c with
  | case1 c stop hstep =>
    have hends : Lexeme.quoteEnd quote c.here.rest = ⟨false, 0⟩ := by
      unfold Lexeme.quoteEnd
      split
      · rename_i hrest
        exact absurd hrest (ne_of_step_error hstep _ _)
      · rfl
    rw [hends]
    exact covers_none
  | case2 c c' hstep hx =>
    obtain ⟨x, gs, hrest, rfl⟩ := exists_of_step hstep
    obtain rfl : x = quote := beq_iff_eq.mp hx
    rw [hrest, Lexeme.quoteEnd_closing]
    exact ⟨_, _, passes_one hrest, rfl, rfl⟩
  | case3 c c' hstep hx hbreak =>
    obtain ⟨x, gs, hrest, rfl⟩ := exists_of_step hstep
    have hends : Lexeme.quoteEnd quote (.char x :: gs) = ⟨false, 1⟩ := by
      rw [Lexeme.quoteEnd.eq_def]
      exact (if_neg hx).trans (if_pos hbreak)
    rw [hrest, hends]
    exact ⟨_, _, passes_one hrest, rfl, rfl⟩
  | case4 c c' hstep hx hbreak hescape stop hnext =>
    obtain ⟨x, gs, hrest, rfl⟩ := exists_of_step hstep
    have hends : Lexeme.quoteEnd quote (.char x :: gs) = ⟨false, 1⟩ := by
      rw [Lexeme.quoteEnd.eq_def]
      refine (if_neg hx).trans ((if_neg hbreak).trans ((if_pos hescape).trans ?_))
      split
      · rename_i y hs
        exact absurd rfl (ne_of_step_error hnext y hs)
      · rfl
    rw [hrest, hends]
    exact ⟨_, _, passes_one hrest, rfl, rfl⟩
  | case5 c c' hstep hx hbreak hescape escaped hnext ih =>
    obtain ⟨x, gs, hrest, rfl⟩ := exists_of_step hstep
    obtain ⟨y, hs, hgs, rfl⟩ := exists_of_step hnext
    obtain rfl : x = '\\' := beq_iff_eq.mp hescape
    have hpasses : Passes ['\\', y] c _ := (passes_one hrest).append (passes_one hgs)
    have hgs : gs = .char y :: hs := hgs
    rw [hrest, hgs, Lexeme.quoteEnd_escaped hquote]
    exact covers_further hpasses ih
  | case6 c c' hstep hx hbreak hescape ih =>
    obtain ⟨x, gs, hrest, rfl⟩ := exists_of_step hstep
    have hne : x ≠ quote ∧ (x ≠ '\n' ∧ x ≠ '\r') ∧ x ≠ '\\' := by
      simpa [Cursor.past] using And.intro hx (And.intro hbreak hescape)
    rw [hrest, Lexeme.quoteEnd_plain hne.1 hne.2.1.1 hne.2.1.2 hne.2.2]
    exact covers_further (passes_one hrest) ih

theorem longEnd_covers (c : Cursor) (hc : Glyph.Proper c.here.rest) :
    (Lexeme.longEnd c.here.rest).Covers c (token .longString) .unterminatedLongString (longEnd c) := by
  fun_induction longEnd c with
  | case1 c closed hclosed =>
    obtain ⟨gs, hrest, hpasses⟩ := Cursor.acceptText_utf8 (by decide) hc hclosed
    have hends : Lexeme.longEnd c.here.rest = ⟨true, 3⟩ := by
      rw [hrest]
      exact Lexeme.longEnd_closing gs
    rw [hends]
    exact ⟨_, closed, hpasses, rfl, rfl⟩
  | case2 c hopen stop hstep =>
    have hends : Lexeme.longEnd c.here.rest = ⟨false, 0⟩ := by
      unfold Lexeme.longEnd
      split
      case h_5 => rfl
      all_goals
        rename_i hrest
        exact absurd hrest (ne_of_step_error hstep _ _)
    rw [hends]
    exact covers_none
  | case3 c hopen c' hstep hescape stop hnext =>
    obtain ⟨x, gs, hrest, rfl⟩ := exists_of_step hstep
    obtain rfl : x = '\\' := beq_iff_eq.mp hescape
    have hends : Lexeme.longEnd (.char '\\' :: gs) = ⟨false, 1⟩ := by
      rw [Lexeme.longEnd.eq_def]
      split
      · rename_i heq
        exact absurd (Glyph.char.inj (List.cons.inj heq).1) (by decide)
      · rename_i y hs heq
        exact absurd (List.cons.inj heq).2 (ne_of_step_error hnext y hs)
      · rfl
      · rename_i x hs hne heq
        obtain ⟨hx, rfl⟩ := List.cons.inj heq
        exact absurd (Glyph.char.inj hx).symm (by simpa using hne)
      · rename_i hne
        exact absurd rfl (hne _ _)
    rw [hrest, hends]
    exact ⟨_, _, passes_one hrest, rfl, rfl⟩
  | case4 c hopen c' hstep hescape escaped hnext ih =>
    obtain ⟨x, gs, hrest, rfl⟩ := exists_of_step hstep
    obtain ⟨y, hs, hgs, rfl⟩ := exists_of_step hnext
    obtain rfl : x = '\\' := beq_iff_eq.mp hescape
    have hpasses : Passes ['\\', y] c _ := (passes_one hrest).append (passes_one hgs)
    have hgs : gs = .char y :: hs := hgs
    have ih := ih (hpasses.proper hc)
    rw [hrest, hgs, Lexeme.longEnd_escaped]
    exact covers_further hpasses ih
  | case5 c hopen c' hstep hescape ih =>
    obtain ⟨x, gs, hrest, rfl⟩ := exists_of_step hstep
    have hpasses := passes_one hrest
    have hplain : Lexeme.longEnd c.here.rest = (Lexeme.longEnd gs).further 1 := by
      have hnot := Cursor.not_acceptText_utf8 (by decide) hc hopen
      rw [hrest] at hnot ⊢
      exact Lexeme.longEnd_plain (by simpa [Cursor.past] using hescape) hnot
    rw [hplain]
    exact covers_further hpasses (ih (hpasses.proper hc))

/-! ## Words -/

/-- A path comes to what a lexeme says: the cursor has passed as many characters. A fault that is located
behind the first characters is at the start of the token that the cursor begins there. -/
def Matches (c : Cursor) : Lexed → Lexeme → Prop
  | token type d, .token type' more => type = type' ∧ ∃ w, Passes w c d ∧ w.length = more + 1
  | fault cause d, .fault skip reach cause' =>
    cause = cause' ∧ ∃ w e, Passes w c e ∧ w.length = reach ∧
      (skip = 0 ∧ d = e ∨ skip = reach ∧ d = e.ignore)
  | _, _ => False

variable {type : TokenType} {gs : List Glyph} {x : Char}

theorem matches_token {w : List Char} {more : Nat} (h : Passes w c d) (hw : w.length = more + 1) :
    Matches c (token type d) (.token type more) := ⟨rfl, w, h, hw⟩

theorem matches_fault {w : List Char} {reach : Nat} (h : Passes w c d) (hw : w.length = reach) :
    Matches c (fault cause d) (.fault 0 reach cause) := ⟨rfl, w, d, h, hw, .inl ⟨rfl, rfl⟩⟩

theorem matches_here : Matches c (fault cause c) (.fault 0 0 cause) := matches_fault (.nil c) rfl

theorem whitespace_matches (hrest : c.here.rest = .char x :: gs) (hx : Lexeme.isSpace x = true) :
    Matches c (whitespace c) (.token .whitespace (Lexeme.run Lexeme.isSpace gs)) := by
  obtain ⟨w, rest, rfl, hl, hw, hstop⟩ := Lexeme.run_split Lexeme.isSpace gs
  have hpasses : Passes (x :: w) c (c.acceptAll Lexeme.isSpace) :=
    Cursor.passes_acceptAll hrest (List.forall_mem_cons.mpr ⟨hx, hw⟩) hstop
  exact matches_token hpasses (by rw [List.length_cons, hl])

theorem single_matches (hrest : c.here.rest = .char x :: gs) :
    Matches c (single type c) (.token type 0) :=
  matches_token (Cursor.passes_proceed hrest) rfl

/-- Whether a character comes next, as a number of characters. -/
def comesNext (y : Char) (gs : List Glyph) : Nat := if gs.head? = some (.char y) then 1 else 0

theorem passes_next (y : Char) (c : Cursor) :
    ∃ w, Passes w c ((c.accept (· == y)).getD c) ∧ w.length = comesNext y c.here.rest := by
  by_cases hhead : c.here.rest.head? = some (.char y)
  · obtain ⟨gs, hrest⟩ := List.head?_eq_some_iff.mp hhead
    have hstep := Cursor.step_of_rest hrest
    rw [Cursor.accept_of_step (p := (· == y)) hstep (beq_self_eq_true y), Option.getD_some]
    exact ⟨[y], passes_one hrest, (if_pos hhead).symm⟩
  · have hnone : c.accept (· == y) = none := by
      refine Cursor.accept_eq_none fun x gs hrest hx => hhead ?_
      rw [hrest, ← beq_iff_eq.mp hx]
      rfl
    rw [hnone, Option.getD_none]
    exact ⟨[], .nil c, (if_neg hhead).symm⟩

theorem lineBreak_eq (gs : List Glyph) :
    Lexeme.lineBreak gs = comesNext '\r' gs + comesNext '\n' (gs.drop (comesNext '\r' gs)) := by
  unfold Lexeme.lineBreak
  split
  · rfl
  · rename_i hs hne
    have hnext : comesNext '\n' hs = 0 := by
      refine if_neg fun hhead => ?_
      obtain ⟨ks, hks⟩ := List.head?_eq_some_iff.mp hhead
      exact hne ks (by rw [hks])
    exact (congrArg (1 + ·) hnext).symm
  · rfl
  · rename_i hrn hr hn
    have hfirst : comesNext '\r' gs = 0 := by
      refine if_neg fun hhead => ?_
      obtain ⟨ks, hks⟩ := List.head?_eq_some_iff.mp hhead
      exact hr ks hks
    have hsecond : comesNext '\n' gs = 0 := by
      refine if_neg fun hhead => ?_
      obtain ⟨ks, hks⟩ := List.head?_eq_some_iff.mp hhead
      exact hn ks hks
    rw [hfirst, List.drop_zero, hsecond]

/-- The line break at the cursor is passed: a carriage return, a line feed, or both in this order. -/
theorem passes_lineBreak (c : Cursor) :
    let turned := (c.accept (· == '\r')).getD c
    ∃ w, Passes w c ((turned.accept (· == '\n')).getD turned) ∧ w.length = Lexeme.lineBreak c.here.rest := by
  intro turned
  obtain ⟨u, hu, hul⟩ := passes_next '\r' c
  obtain ⟨v, hv, hvl⟩ := passes_next '\n' turned
  have hdrop : turned.here.rest = c.here.rest.drop u.length := by
    rw [hu.spec.1, List.drop_left' (Glyph.length_ofChars u)]
  refine ⟨u ++ v, hu.append hv, ?_⟩
  rw [List.length_append, hvl, hdrop, hul, lineBreak_eq]

theorem lineComment_matches (hrest : c.here.rest = .char '/' :: .char '/' :: gs) :
    Matches c (lineComment c) (Lexeme.lineComment gs) := by
  obtain ⟨w, rest, rfl, hl, hw, hstop⟩ := Lexeme.run_split (fun x => x != '\n' && x != '\r') gs
  have hbody : Passes ('/' :: '/' :: w) c (c.acceptAll fun x => x != '\n' && x != '\r') :=
    Cursor.passes_acceptAll hrest (by simpa using hw) hstop
  obtain ⟨v, hv, hlength⟩ := passes_lineBreak (c.acceptAll fun x => x != '\n' && x != '\r')
  rw [hbody.rest_eq hrest] at hlength
  refine ⟨rfl, _, hbody.append hv, ?_⟩
  rw [← hl, List.drop_left' (Glyph.length_ofChars w), ← hlength]
  simp only [List.length_append, List.length_cons]
  omega

/-- A delimited text whose opening marks are passed. -/
theorem delimited_matches {e : Lexeme.Extent} {w : List Char} {before : Nat} (h : Passes w c d)
    (hw : w.length = before + 1) (he : e.Covers d (token type) cause r) :
    Matches c r (Lexeme.delimited type (before + 1) e cause) := by
  obtain ⟨v, d', hv, hlength, rfl⟩ := he
  have hsum : (w ++ v).length = before + 1 + e.count := by rw [List.length_append, hw, hlength]
  unfold Lexeme.delimited
  cases e.closed with
  | true => exact matches_token (h.append hv) (by rw [hsum]; omega)
  | false => exact matches_fault (h.append hv) hsum

theorem blockComment_matches (hc : Glyph.Proper c.here.rest)
    (hrest : c.here.rest = .char '/' :: .char '*' :: gs) :
    Matches c (blockComment c)
      (Lexeme.delimited .blockComment 2 (Lexeme.commentEnd gs) .unterminatedComment) := by
  have hskip : Passes ['/', '*'] c (c.skip 2) :=
    Cursor.passes_skip hrest (List.all_iff_forall_prop.mp rfl)
  have hends := commentEnd_covers (c.skip 2) (hskip.proper hc)
  rw [hskip.rest_eq hrest] at hends
  exact delimited_matches hskip rfl hends

theorem string_matches (hrest : c.here.rest = .char '"' :: gs) :
    Matches c (string c) (Lexeme.string gs) := by
  have hopen := Cursor.passes_proceed hrest
  have hends := quoteEnd_covers (by decide : '"' ≠ '\\') (token .string) .unterminatedString c.proceed
  rw [hopen.rest_eq hrest] at hends
  exact delimited_matches hopen rfl hends

theorem longString_matches (hc : Glyph.Proper c.here.rest)
    (hrest : c.here.rest = .char '\'' :: .char '\'' :: .char '\'' :: gs) :
    Matches c (longString c) (Lexeme.longString gs) := by
  have hskip : Passes ['\'', '\'', '\''] c (c.skip 3) :=
    Cursor.passes_skip hrest (List.all_iff_forall_prop.mp rfl)
  have hends := longEnd_covers (c.skip 3) (hskip.proper hc)
  rw [hskip.rest_eq hrest] at hends
  exact delimited_matches hskip rfl hends

/-! ## Symbols -/

theorem symbolOr_matches {w : List Char} {more : Nat} (h : Passes w c d) (hw : w.length = more + 1) :
    Matches c (symbolOr type d) (Lexeme.symbolOr type more d.here.rest) := by
  unfold symbolOr Lexeme.symbolOr
  dsimp only
  by_cases hmark : Lexeme.annotationMark d.here.rest = 0
  · rw [if_pos hmark, if_pos hmark]
    exact matches_token h hw
  · obtain ⟨blanks, rest, hrest, hlength, hblanks⟩ := Lexeme.annotationMark_sound hmark
    have hascii : ∀ x ∈ blanks ++ [':', ':'], x.toNat < 128 :=
      List.forall_mem_append.mpr ⟨fun x hx => Text.isSpace_lt (hblanks x hx),
        List.all_iff_forall_prop.mp rfl⟩
    have hskip := Cursor.passes_skip hrest hascii
    rw [if_neg hmark, if_neg hmark, hlength]
    rw [List.length_append] at hskip
    exact matches_token (h.append hskip) (by simp [hw]; omega)

theorem keyword_matches {w : List Char} {more : Nat} {g : Glyph} (hstart : c.start = c.here)
    (h : Passes w c d) (hsplit : ofChars w ++ d.here.rest = g :: gs) (hw : w.length = more + 1) :
    Matches c (keyword type d) (Lexeme.keyword type more g gs) := by
  obtain ⟨htake, hdrop⟩ := Glyph.take_drop_of_word hsplit.symm hw
  unfold keyword Lexeme.keyword
  rw [hdrop, htake, Text.ofGlyphs_ofChars, ← h.text hstart]
  split
  · exact matches_token h hw
  · exact matches_fault h hw

theorem nullLiteral_matches {g : Glyph} (hstart : c.start = c.here) (h : Passes "null".toList c d)
    (hsplit : ofChars "null".toList ++ d.here.rest = g :: gs) :
    Matches c (nullLiteral d) (Lexeme.nullLiteral g gs) := by
  have hdrop : gs.drop 3 = d.here.rest := (Glyph.take_drop_of_word hsplit.symm rfl).2
  by_cases hdot : ∃ rest, d.here.rest = .char '.' :: rest
  · obtain ⟨rest, hrest⟩ := hdot
    obtain ⟨w, tail, rfl, -, hw, hstop⟩ := Lexeme.run_split Lexeme.isIdent rest
    have hdotted := passes_one hrest
    have htyped : Passes w (d.past '.' (ofChars w ++ tail)) _ := Cursor.passes_acceptAll rfl hw hstop
    have hall := (h.append hdotted).append htyped
    have hname : Text.trimStart (utf8 "null.")
        ((d.past '.' (ofChars w ++ tail)).acceptAll Lexeme.isIdent).text = Text.ofChars w := by
      have hprefix : utf8 "null." ++ Text.ofChars w = Text.ofChars ("null".toList ++ ['.'] ++ w) := by
        rw [Text.ofChars_append]
        rfl
      rw [hall.text hstart, ← hprefix, Text.trimStart, if_pos (by simp), List.drop_left]
    have hsplit' : ofChars ("null".toList ++ ['.'] ++ w) ++
        ((d.past '.' (ofChars w ++ tail)).acceptAll Lexeme.isIdent).here.rest = g :: gs := by
      rw [← hsplit, hrest, htyped.rest_eq rfl, Glyph.ofChars_append, Glyph.ofChars_append]
      simp
    rw [Lexeme.nullLiteral_dotted (hdrop.trans hrest) hw hstop, nullLiteral,
      Cursor.accept_of_step (p := (· == '.')) (Cursor.step_of_rest hrest) rfl]
    dsimp only
    rw [hname]
    split
    · exact keyword_matches hstart hall hsplit' (by simp)
    · exact matches_fault hall (by simp)
  · have hnone : d.accept (· == '.') = none := by
      refine Cursor.accept_eq_none fun x rest hrest hx => hdot ⟨rest, ?_⟩
      rw [hrest, beq_iff_eq.mp hx]
    rw [Lexeme.nullLiteral_undotted fun rest hrest => hdot ⟨rest, hdrop.symm.trans hrest⟩, nullLiteral, hnone]
    exact keyword_matches hstart h hsplit rfl

theorem identifier_matches (hstart : c.start = c.here) (hrest : c.here.rest = .char x :: gs)
    (hx : Lexeme.isIdentStart x = true) : Matches c (identifier c) (Lexeme.identifier (.char x) gs) := by
  obtain ⟨w, rest, rfl, -, hw, hstop⟩ := Lexeme.run_split Lexeme.isIdent gs
  have hident : Lexeme.isIdent x = true := by rw [Lexeme.isIdent, hx, Bool.true_or]
  have hnamed : Passes (x :: w) c (c.acceptAll Lexeme.isIdent) :=
    Cursor.passes_acceptAll hrest (List.forall_mem_cons.mpr ⟨hident, hw⟩) hstop
  have hbehind := hnamed.rest_eq hrest
  have hsplit : ofChars (x :: w) ++ (c.acceptAll Lexeme.isIdent).here.rest =
      .char x :: (ofChars w ++ rest) := by
    rw [hbehind]
    rfl
  rw [Lexeme.identifier_exact hw hstop, identifier, hnamed.text hstart]
  simp only [beq_iff_eq, Bool.or_eq_true, Lexeme.ofChars_eq_utf8]
  split
  · rename_i hnull
    rw [hnull] at hnamed hsplit
    exact nullLiteral_matches hstart hnamed hsplit
  split
  · exact keyword_matches hstart hnamed hsplit rfl
  · have hmatches : Matches c (symbolOr .symbol (c.acceptAll Lexeme.isIdent)) _ :=
      symbolOr_matches hnamed rfl
    rwa [hbehind] at hmatches

theorem quotedSymbol_matches (hrest : c.here.rest = .char '\'' :: gs) :
    Matches c (quotedSymbol c) (Lexeme.quotedSymbol gs) := by
  have hopen := Cursor.passes_proceed hrest
  obtain ⟨w, d, hw, hlength, hr⟩ :=
    quoteEnd_covers (by decide : '\'' ≠ '\\') (symbolOr .quotedSymbol) .unterminatedSymbol c.proceed
  have hall := hopen.append hw
  rw [hopen.rest_eq hrest] at hlength hr
  have hdrop : gs.drop (Lexeme.quoteEnd '\'' gs).count = d.here.rest := by
    have hsplit := hw.spec.1
    rw [hopen.rest_eq hrest] at hsplit
    rw [← hlength, hsplit, List.drop_left' (Glyph.length_ofChars w)]
  have hcount : (['\''] ++ w).length = (Lexeme.quoteEnd '\'' gs).count + 1 := by
    rw [List.singleton_append, List.length_cons, hlength]
  unfold quotedSymbol Lexeme.quotedSymbol
  dsimp only
  rw [hr, hdrop]
  split
  · exact symbolOr_matches hall hcount
  · exact matches_fault hall hcount

/-- An operator extends to where no operator character comes next or a comment starts. -/
theorem operator_passes (c : Cursor) (hc : Glyph.Proper c.here.rest) :
    ∃ w d, operator c = token .operator d ∧ Passes w c d ∧ w.length = Lexeme.operatorRun c.here.rest := by
  fun_induction operator c with
  | case1 c hcomment =>
    have hends : Lexeme.operatorRun c.here.rest = 0 := by
      rcases Bool.or_eq_true_iff.mp hcomment with h | h
      all_goals
        obtain ⟨gs, hrest⟩ := (Cursor.startsWith_utf8 (by decide) hc).mp h
        rw [← hrest]
        rfl
    exact ⟨[], c, rfl, .nil c, hends.symm⟩
  | case2 c hcomment c' haccept ih =>
    obtain ⟨hstep, hx⟩ := Cursor.exists_of_accept haccept
    obtain ⟨x, gs, hrest, rfl⟩ := exists_of_step hstep
    have hpasses := passes_one hrest
    obtain ⟨w, d, hd, hw, hlength⟩ := ih (hpasses.proper hc)
    have hne := not_or.mp (Bool.or_eq_true_iff.not.mp hcomment)
    have hline := Cursor.not_startsWith_utf8 (by decide) hc hne.1
    have hblock := Cursor.not_startsWith_utf8 (by decide) hc hne.2
    refine ⟨[x] ++ w, d, hd, hpasses.append hw, ?_⟩
    have hrun : Lexeme.operatorRun (.char x :: gs) = Lexeme.operatorRun gs + 1 := by
      rw [hrest] at hline hblock
      rw [Lexeme.operatorRun.eq_def]
      split
      · rename_i hs heq
        exact absurd heq (hline hs)
      · rename_i hs heq
        exact absurd heq (hblock hs)
      · rename_i heq
        cases heq
        exact if_pos hx
      · rename_i hne
        exact absurd rfl (hne x gs)
    rw [hrest, hrun, List.length_append, hlength, Nat.add_comm]
    rfl
  | case3 c hcomment haccept =>
    have hends : Lexeme.operatorRun c.here.rest = 0 := by
      unfold Lexeme.operatorRun
      split
      · rfl
      · rfl
      · rename_i x gs hrest
        refine if_neg fun hx => ?_
        rw [Cursor.accept_of_step (Cursor.step_of_rest hrest) hx] at haccept
        contradiction
      · rfl
    exact ⟨[], c, rfl, .nil c, hends.symm⟩

theorem operator_matches (hc : Glyph.Proper c.here.rest) (hrest : c.here.rest = .char x :: gs)
    (hx : Lexeme.isOperator x = true) (hline : ¬ c.startsWith (utf8 "//") = true)
    (hblock : ¬ c.startsWith (utf8 "/*") = true) :
    Matches c (operator c) (.token .operator (Lexeme.operatorRun gs)) := by
  have hstep := Cursor.step_of_rest hrest
  have hpasses := passes_one hrest
  obtain ⟨w, d, hd, hw, hlength⟩ := operator_passes _ (hpasses.proper hc)
  have hoperator : operator c = token .operator d := by
    rw [operator, if_neg (by simp [hline, hblock]), Cursor.accept_of_step hstep hx]
    exact hd
  rw [hoperator]
  exact matches_token (hpasses.append hw) (by rw [List.length_append, hlength, Nat.add_comm]; rfl)

/-! ## Numerals and blobs -/

/-- A numeral is made of ASCII characters, so its bytes are as many as its glyphs. -/
theorem exists_chars_of_longest? {gs : List Glyph} {length : Nat}
    (h : Numeral.longest? gs = some (type, length)) :
    ∃ w, w.length = length ∧ gs = ofChars w ++ gs.drop length ∧ ∀ x ∈ w, x.toNat < 128 := by
  obtain ⟨w, hw⟩ := Numeral.ofChars_of_longest? h
  have hlength : w.length = length := by
    have htake := congrArg List.length hw
    rw [List.length_take, Glyph.length_ofChars, Nat.min_eq_left (Numeral.longest?_le h)] at htake
    exact htake.symm
  have hword : Numeral.longest? (ofChars w) = some (type, w.length) := by
    rw [← hw, hlength]
    exact Numeral.longest?_take h
  refine ⟨w, hlength, ?_, fun x hx => Numeral.isPart_lt (Numeral.isPart_of_longest? hword hx)⟩
  rw [← hw, List.take_append_drop]

theorem numeral_matches (inSExpr : Bool) (c : Cursor) :
    Matches c (numeral inSExpr c) (Lexeme.numeral inSExpr c.here.rest) := by
  unfold numeral Lexeme.numeral
  cases hlongest : Numeral.longest? c.here.rest with
  | none => exact matches_here
  | some found =>
    obtain ⟨type, length⟩ := found
    obtain ⟨w, rfl, hsplit, hascii⟩ := exists_chars_of_longest? hlongest
    have hskip := Cursor.passes_skip hsplit hascii
    have hbehind := hskip.rest_eq hsplit
    have hlength : w.length = w.length - 1 + 1 :=
      (Nat.sub_add_cancel (Numeral.longest?_spec hlongest).2).symm
    dsimp only
    rw [hbehind]
    cases hrest : c.here.rest.drop w.length with
    | nil => exact matches_token hskip hlength
    | cons g rest =>
      dsimp only
      split
      · exact matches_token hskip hlength
      · refine ⟨?_, w, _, hskip, rfl, .inr ⟨rfl, rfl⟩⟩
        have hshown : (c.skip w.length).shownAhead 0 = g.shown := by
          rw [hrest] at hbehind
          cases g <;> simp [Cursor.shownAhead, Cursor.peek?, hbehind, Glyph.shown, Glyph.isCharWith]
        rw [hshown]

theorem lob_matches (hrest : c.here.rest = .char '\x7b' :: .char '\x7b' :: gs) :
    Matches c (lob c) (Lexeme.lob gs) := by
  have hdrop : c.here.rest.drop 2 = gs := by rw [hrest]; rfl
  unfold lob Lexeme.lob
  dsimp only
  rw [hdrop]
  split
  · have hskip : Passes ['\x7b', '\x7b'] c (c.skip 2) :=
      Cursor.passes_skip hrest (List.all_iff_forall_prop.mp rfl)
    exact matches_token hskip rfl
  · cases hbody : Lexeme.blobBody? gs with
    | none => exact matches_here
    | some body =>
      dsimp only
      cases hfind : body.find? fun g => !(Lexeme.isSpace g.shown || Lexeme.isBase64 g.shown) with
      | some g => exact matches_here
      | none =>
        obtain ⟨b, rest, rfl, rfl, hb⟩ := Lexeme.blobBody?_chars hbody hfind
        have hbytes : ∀ x ∈ b, x.toNat < 128 := fun x hx => by
          rcases Bool.or_eq_true_iff.mp (hb x hx) with h | h
          · exact Text.isSpace_lt h
          · exact Text.isBase64_lt h
        have hascii : ∀ x ∈ "\x7b\x7b".toList ++ (b ++ "\x7d\x7d".toList), x.toNat < 128 :=
          List.forall_mem_append.mpr ⟨List.all_iff_forall_prop.mp rfl,
            List.forall_mem_append.mpr ⟨hbytes, List.all_iff_forall_prop.mp rfl⟩⟩
        have hlength : ("\x7b\x7b".toList ++ (b ++ "\x7d\x7d".toList)).length = 2 + b.length + 2 := by
          rw [List.length_append, List.length_append, Nat.add_assoc]
          rfl
        have hskip := Cursor.passes_skip hrest hascii
        rw [hlength] at hskip
        rw [Text.ofGlyphs_ofChars, Text.length_ofChars_ascii hbytes, Glyph.length_ofChars]
        exact matches_token hskip (by omega)

/-! ## What stands at the cursor -/

theorem isDecimal_shownAhead (hrest : c.here.rest = .char x :: gs) :
    Numeral.isDecimal (c.shownAhead 1) =
      (gs.head?.map (Glyph.isCharWith Numeral.isDecimal)).getD false := by
  cases gs with
  | nil =>
    have hshown : c.shownAhead 1 = '\x00' := by
      simp [Cursor.shownAhead, Cursor.peek?, hrest, Glyph.isCharWith]
    rw [hshown]
    rfl
  | cons g gs =>
    have hshown : c.shownAhead 1 = g.shown := by
      cases g <;> simp [Cursor.shownAhead, Cursor.peek?, hrest, Glyph.shown, Glyph.isCharWith]
    rw [hshown]
    cases g <;> rfl

theorem startingWith_matches (inSExpr : Bool) (hstart : c.start = c.here) (hc : Glyph.Proper c.here.rest)
    (hrest : c.here.rest = .char x :: gs) (hline : ¬ c.startsWith (utf8 "//") = true)
    (hblock : ¬ c.startsWith (utf8 "/*") = true) :
    Matches c (startingWith inSExpr x c) (Lexeme.single inSExpr x gs) := by
  unfold startingWith
  split
  case h_9 => exact string_matches hrest
  case h_10 => exact quotedSymbol_matches hrest
  case h_11 =>
    have hsingle : Lexeme.single inSExpr x gs =
        if Numeral.isDecimal x || (x == '-' && Numeral.isDecimal (c.shownAhead 1)) then
          Lexeme.numeral inSExpr (.char x :: gs)
        else if Lexeme.isIdentStart x then Lexeme.identifier (.char x) gs
        else if Lexeme.isOperator x then
          if inSExpr then .token .operator (Lexeme.operatorRun gs) else .fault 0 0 (.operatorOutside x)
        else .fault 0 0 (.unexpected x) := by
      rw [isDecimal_shownAhead hrest]
      unfold Lexeme.single
      split
      case h_11 => rfl
      all_goals contradiction
    rw [hsingle]
    split
    · rw [← hrest]
      exact numeral_matches inSExpr c
    split
    · exact identifier_matches hstart hrest ‹_›
    split
    · rename_i hoperator
      split
      · exact operator_matches hc hrest hoperator hline hblock
      · exact matches_here
    · exact matches_here
  all_goals exact single_matches hrest

theorem read_matches (inSExpr : Bool) {g : Glyph} (hstart : c.start = c.here)
    (hc : Glyph.Proper c.here.rest) (hrest : c.here.rest = g :: gs) :
    Matches c (read inSExpr c) (Lexeme.read inSExpr g gs) := by
  unfold read
  rw [hrest]
  cases g with
  | stray b => exact matches_here
  | char x =>
    dsimp only
    by_cases hspace : Lexeme.isSpace x = true
    · have hlexeme : Lexeme.read inSExpr (.char x) gs =
          .token .whitespace (Lexeme.run Lexeme.isSpace gs) := if_pos hspace
      rw [if_pos hspace, hlexeme]
      exact whitespace_matches hrest hspace
    rw [if_neg hspace]
    by_cases hline : c.startsWith (utf8 "//") = true
    · obtain ⟨rfl, hs, rfl⟩ := Cursor.exists_of_startsWith rfl (by decide) hc hrest hline
      rw [if_pos hline]
      exact lineComment_matches hrest
    rw [if_neg hline]
    by_cases hblock : c.startsWith (utf8 "/*") = true
    · obtain ⟨rfl, hs, rfl⟩ := Cursor.exists_of_startsWith rfl (by decide) hc hrest hblock
      rw [if_pos hblock]
      exact blockComment_matches hc hrest
    rw [if_neg hblock]
    by_cases hlob : c.startsWith (utf8 "\x7b\x7b") = true
    · obtain ⟨rfl, hs, rfl⟩ := Cursor.exists_of_startsWith rfl (by decide) hc hrest hlob
      rw [if_pos hlob]
      exact lob_matches hrest
    rw [if_neg hlob]
    by_cases hlong : c.startsWith (utf8 "'''") = true
    · obtain ⟨rfl, hs, rfl⟩ := Cursor.exists_of_startsWith rfl (by decide) hc hrest hlong
      rw [if_pos hlong]
      exact longString_matches hc hrest
    rw [if_neg hlong]
    have hother : Lexeme.read inSExpr (.char x) gs = Lexeme.single inSExpr x gs := by
      unfold Lexeme.read
      dsimp only
      rw [if_neg hspace]
      split
      · exact absurd hrest (Cursor.not_startsWith_utf8 (by decide) hc hline _)
      · exact absurd hrest (Cursor.not_startsWith_utf8 (by decide) hc hblock _)
      · exact absurd hrest (Cursor.not_startsWith_utf8 (by decide) hc hlob _)
      · exact absurd hrest (Cursor.not_startsWith_utf8 (by decide) hc hlong _)
      · rfl
    rw [hother]
    exact startingWith_matches inSExpr hstart hc hrest hline hblock

theorem readInClob_matches {g : Glyph} (hc : Glyph.Proper c.here.rest) (hrest : c.here.rest = g :: gs) :
    Matches c (readInClob c) (Lexeme.readInClob g gs) := by
  unfold readInClob
  rw [hrest]
  cases g with
  | stray b =>
    have hshown : c.shownAhead 0 = '\ufffd' := by
      simp [Cursor.shownAhead, Cursor.peek?, hrest, Glyph.isCharWith]
    dsimp only
    rw [hshown]
    exact matches_here
  | char x =>
    dsimp only
    by_cases hspace : Lexeme.isSpace x = true
    · have hlexeme : Lexeme.readInClob (.char x) gs =
          .token .whitespace (Lexeme.run Lexeme.isSpace gs) := by
        unfold Lexeme.readInClob
        split
        case h_4 => exact if_pos hspace
        all_goals
          rename_i hx
          rw [Glyph.char.inj hx] at hspace
          contradiction
      rw [if_pos hspace, hlexeme]
      exact whitespace_matches hrest hspace
    rw [if_neg hspace]
    by_cases hclose : c.startsWith (utf8 "\x7d\x7d") = true
    · obtain ⟨rfl, hs, rfl⟩ := Cursor.exists_of_startsWith rfl (by decide) hc hrest hclose
      rw [if_pos hclose]
      have hskip : Passes ['\x7d', '\x7d'] c (c.skip 2) :=
        Cursor.passes_skip hrest (List.all_iff_forall_prop.mp rfl)
      exact matches_token hskip rfl
    rw [if_neg hclose]
    by_cases hlong : c.startsWith (utf8 "'''") = true
    · obtain ⟨rfl, hs, rfl⟩ := Cursor.exists_of_startsWith rfl (by decide) hc hrest hlong
      rw [if_pos hlong]
      exact longString_matches hc hrest
    rw [if_neg hlong]
    by_cases hquote : x = '"'
    · subst hquote
      exact string_matches hrest
    · have hlexeme : Lexeme.readInClob (.char x) gs = .fault 0 0 (.charInClob x) := by
        unfold Lexeme.readInClob
        split
        · rename_i hx
          rw [hx] at hrest
          exact absurd hrest (Cursor.not_startsWith_utf8 (by decide) hc hclose _)
        · rename_i hx
          rw [hx] at hrest
          exact absurd hrest (Cursor.not_startsWith_utf8 (by decide) hc hlong _)
        · rename_i hx
          exact absurd (Glyph.char.inj hx) hquote
        · exact if_neg hspace
      rw [if_neg (by simpa using hquote), hlexeme]
      exact matches_here

end Lexed

/-! ## All tokens -/

variable {c : Cursor} {gs : List Glyph} {g : Glyph}

/-- What the lexer reads at its cursor is the lexeme that stands there. -/
theorem LexContext.read_matches (ctx : LexContext) (hstart : c.start = c.here)
    (hc : Glyph.Proper c.here.rest) (hrest : c.here.rest = g :: gs) :
    Lexed.Matches c (ctx.read c) (ctx.lexeme g gs) := by
  unfold LexContext.read LexContext.lexeme
  split
  · exact Lexed.readInClob_matches hc hrest
  · exact Lexed.read_matches _ hstart hc hrest

/-- A cursor at the start of some glyphs. -/
def Cursor.at (file : Text) (m : Mark) (gs : List Glyph) : Cursor :=
  ⟨file, [], ⟨m, gs⟩, ⟨m, gs⟩, '\x00'⟩

/-- A lexeme of the glyphs of a text is a word. -/
theorem LexContext.isWord_of_lexeme {ctx : LexContext} (hproper : Glyph.Proper (g :: gs)) {type : TokenType}
    {more : Nat} (h : ctx.lexeme g gs = .token type more) : Lexeme.IsWord type := by
  have hmatches := ctx.read_matches (c := .at [] {} (g :: gs)) rfl hproper rfl
  have hstarts := ctx.read_startsAt (.at [] {} (g :: gs))
  rw [h] at hmatches
  cases hread : ctx.read (.at [] {} (g :: gs)) with
  | token type' d =>
    rw [hread] at hmatches hstarts
    exact hmatches.1 ▸ hstarts.1
  | fault cause d =>
    rw [hread] at hmatches
    exact hmatches.elim
  | ended =>
    rw [hread] at hmatches
    exact hmatches.elim

namespace Lexer

open Cursor (Passes)

/-- What is passed of a token is cut off as the token of these glyphs. -/
theorem emit_of_passes {d : Cursor} {w : List Char} (type : TokenType) (hstart : c.start = c.here)
    (h : Passes w c d) : (d.emit type).1 = Token.ofGlyphs c.file type c.here.mark (ofChars w) := by
  obtain ⟨-, hmark, hfile, hdstart⟩ := h.spec
  simp only [Cursor.emit, Cursor.startLocation, Token.ofGlyphs, h.text hstart, hdstart, hstart, hfile, hmark,
    Text.ofGlyphs_ofChars]

/-- A fault is the last token, and the end is where it is noticed. -/
theorem drain_of_fault {l : Lexer} (h : l.ended = false) {cause : LexFault}
    (hread : l.context.read l.cursor = .fault cause c) :
    l.drain = ([c.bare .error cause.message], c.ignore.bare .eof []) := by
  have hnext := next_of_fault h hread
  have hne : l.next.1.type ≠ .eof := by
    rw [hnext]
    exact nofun
  rw [drain_of_ne_eof hne, hnext, drain_of_ended rfl]
  rfl

/-- What covers nothing stands at the start of the token. -/
theorem bare_of_start (hstart : c.start = c.here) (type : TokenType) (text : Text) :
    c.bare type text = Token.bare c.file type text c.here.mark := by
  rw [← hstart]
  rfl

/-- At the end of the source there is the end, or the fault of a clob that is not closed. -/
theorem drain_of_rest_nil {l : Lexer} (hended : l.ended = false)
    (hstart : l.cursor.start = l.cursor.here) (hrest : l.cursor.here.rest = []) :
    l.drain = Token.scan l.cursor.file l.context l.cursor.here.mark [] := by
  rw [Token.scan]
  cases hclob : l.context.inClob with
  | true =>
    have hread : l.context.read l.cursor = .fault .unterminatedClob l.cursor := by
      rw [LexContext.read, if_pos hclob, Lexed.readInClob, hrest]
    rw [drain_of_fault hended hread, bare_of_start hstart]
    rfl
  | false =>
    have hread : l.context.read l.cursor = .ended := by
      rw [LexContext.read, if_neg (by simp [hclob]), Lexed.read, hrest]
    have hnext := next_of_end hended hread
    have heof : l.next.1.type = .eof := by
      rw [hnext]
      rfl
    rw [drain_of_eof heof, hnext]
    exact Prod.ext rfl (bare_of_start hstart .eof [])

/-- A fault stands where its lexeme says, and the end where it was noticed. -/
theorem drain_of_matched_fault {l : Lexer} (hended : l.ended = false)
    (hstart : l.cursor.start = l.cursor.here) {cause cause' : LexFault} {skip reach : Nat}
    (hread : l.context.read l.cursor = .fault cause c)
    (hmatches : Lexed.Matches l.cursor (.fault cause c) (.fault skip reach cause')) :
    let behind (n : Nat) := l.cursor.here.mark.after (Text.ofGlyphs (l.cursor.here.rest.take n))
    l.drain = ([Token.bare l.cursor.file .error cause'.message (behind skip)],
      Token.bare l.cursor.file .eof [] (behind reach)) := by
  obtain ⟨rfl, w, e, hw, rfl, hplace⟩ := hmatches
  obtain ⟨hsplit, hmark, hfile, hestart⟩ := hw.spec
  have hreach : l.cursor.here.mark.after (Text.ofGlyphs (l.cursor.here.rest.take w.length)) =
      e.here.mark := by
    rw [hsplit, List.take_left' (Glyph.length_ofChars w), Text.ofGlyphs_ofChars, hmark]
  have hend : c.ignore.bare .eof [] = Token.bare l.cursor.file .eof [] e.here.mark := by
    rcases hplace with ⟨-, rfl⟩ | ⟨-, rfl⟩ <;> exact hfile ▸ rfl
  have hfault : c.bare .error cause.message = Token.bare l.cursor.file .error cause.message
      (l.cursor.here.mark.after (Text.ofGlyphs (l.cursor.here.rest.take skip))) := by
    rcases hplace with ⟨rfl, rfl⟩ | ⟨rfl, rfl⟩
    · refine Eq.trans ?_ (bare_of_start hstart .error cause.message)
      simp only [Cursor.bare, Cursor.startLocation, hestart, hfile]
    · rw [hreach, ← hfile]
      rfl
  rw [drain_of_fault hended hread, hend, hfault, ← hreach]

/-- From the start of a token on, a lexer gives the tokens that the rest of its source has as lexemes. -/
theorem drain_eq_scan {l : Lexer} (hended : l.ended = false) (hstart : l.cursor.start = l.cursor.here)
    (hproper : Glyph.Proper l.cursor.here.rest) :
    l.drain = Token.scan l.cursor.file l.context l.cursor.here.mark l.cursor.here.rest := by
  cases hrest : l.cursor.here.rest with
  | nil => exact drain_of_rest_nil hended hstart hrest
  | cons g gs =>
    have hmatches := l.context.read_matches hstart hproper hrest
    rw [Token.scan]
    cases hread : l.context.read l.cursor with
    | ended =>
      rw [hread] at hmatches
      exact hmatches.elim
    | token type d =>
      cases hlexeme : l.context.lexeme g gs with
      | fault skip reach cause =>
        rw [hread, hlexeme] at hmatches
        exact hmatches.elim
      | token type' more =>
        rw [hread, hlexeme] at hmatches
        obtain ⟨rfl, w, hw, hlength⟩ := hmatches
        obtain ⟨hsplit, hmark, hfile, -⟩ := hw.spec
        rw [hrest] at hsplit
        obtain ⟨htake, hdrop⟩ := Glyph.take_drop_of_word hsplit hlength
        have hnext := next_of_token hended hread
        have hword := LexContext.isWord_of_lexeme (hrest ▸ hproper) hlexeme
        have hne : l.next.1.type ≠ .eof := by
          rw [hnext]
          exact hword.1
        have hothers : l.next.2.drain =
            Token.scan l.cursor.file (l.context.after type) d.here.mark d.here.rest := by
          rw [drain_eq_scan (l := l.next.2) (by rw [hnext]; exact hended) (by rw [hnext]; rfl)
            (by rw [hnext]; exact hw.proper hproper), hnext, ← hfile]
          rfl
        rw [drain_of_ne_eof hne, hothers, hnext, emit_of_passes type hstart hw]
        simp only [htake, hdrop, Text.ofGlyphs_ofChars, ← hmark]
    | fault cause d =>
      cases hlexeme : l.context.lexeme g gs with
      | token type more =>
        rw [hread, hlexeme] at hmatches
        exact hmatches.elim
      | fault skip reach cause' =>
        rw [hread, hlexeme] at hmatches
        rw [drain_of_matched_fault hended hstart hread hmatches, hrest]
termination_by l.ahead
decreasing_by exact ahead_next_lt hne

end Lexer

theorem TokenStream.ofSource_eq_scan (file source : Text) :
    ofSource file source =
      ⟨(Token.scan file {} {} source.glyphs).1, (Token.scan file {} {} source.glyphs).2⟩ := by
  have hdrain := Lexer.drain_eq_scan (l := .ofSource file source) rfl rfl (Glyph.proper_glyphs source)
  unfold ofSource
  rw [hdrain]
  rfl

end FusionKit
