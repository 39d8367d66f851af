import FusionKit.Token.Stream
import FusionKit.Proofs.Cursors

/-!
# Tokens tile their source

Whatever bytes a source holds, its tokens lie one after the other from its start up to its end or
up to the first fault, and every location is the one that the source itself gives to the offset.
A path of the lexer is a run of steps of the cursor, and a token takes at least one of them; so the
cursor keeps its place from one token to the next, and all else follows from that.
-/
set_option autoImplicit false

namespace FusionKit

theorem Span.text?_middle (before body rest : Text) :
    (⟨before.length, before.length + body.length⟩ : Span).text? (before ++ body ++ rest) =
      some body := by
  have hlen : (before ++ body ++ rest).length = before.length + body.length + rest.length := by
    simp only [List.length_append]
  have hdrop : (before ++ body ++ rest).drop before.length = body ++ rest := by
    rw [List.append_assoc]
    exact List.drop_left
  have hcount : ((before.length : Int) + body.length - before.length).toNat = body.length := by
    omega
  simp only [Span.text?]
  rw [if_pos (by omega), Int.toNat_natCast, hdrop, hcount, List.take_left]

/-- Tokens that lie in a source one after the other, from one offset up to another: each with its
own text, none without. -/
inductive Tiles (source : Text) : Int → List Token → Int → Prop where
  | nil (i : Int) : Tiles source i [] i
  | cons {t : Token} {ts : List Token} {j : Int} (nonempty : t.text ≠ [])
      (covers : t.span.text? source = some t.text) (rest : Tiles source t.span.stop ts j) :
      Tiles source t.span.start (t :: ts) j

namespace Tiles

theorem length_le {source : Text} {i j : Int} {ts : List Token} (h : Tiles source i ts j) :
    i + ts.length ≤ j := by
  induction h with
  | nil i => simp
  | @cons t ts j nonempty covers _ ih =>
    have hlt : t.span.start < t.span.stop := by
      unfold Span.text? at covers
      split_ifs at covers with hb
      by_contra hle
      apply nonempty
      rw [← Option.some.inj covers, show (t.span.stop - t.span.start).toNat = 0 by omega,
        List.take_zero]
    rw [List.length_cons]
    omega

theorem flatten {source : Text} {i j : Int} {ts : List Token} (h : Tiles source i ts j)
    (hi : 0 ≤ i) :
    (ts.map Token.text).flatten = (source.drop i.toNat).take (j - i).toNat := by
  induction h with
  | nil i => simp
  | @cons t ts j nonempty covers rest ih =>
    have hrest := rest.length_le
    unfold Span.text? at covers
    split_ifs at covers with hb
    have ih := ih (by omega)
    have hj : (j - t.span.start).toNat =
        (t.span.stop - t.span.start).toNat + (j - t.span.stop).toNat := by omega
    have hstop : t.span.stop.toNat = t.span.start.toNat + (t.span.stop - t.span.start).toNat := by
      omega
    rw [List.map_cons, List.flatten_cons, ih, ← Option.some.inj covers, hj, List.take_add,
      List.drop_drop, hstop]

theorem stop_le {source : Text} {i j : Int} {ts : List Token} (h : Tiles source i ts j)
    (hi : i ≤ source.length) : j ≤ source.length := by
  induction h with
  | nil i => exact hi
  | @cons t ts j nonempty covers _ ih =>
    unfold Span.text? at covers
    split_ifs at covers with hb
    exact ih hb.2.2

end Tiles

/-- A token whose location is the one its source gives to the start of its span. -/
def Token.IsPlaced (file source : Text) (t : Token) : Prop :=
  t.location = Location.locate file source t.location.pos ∧ t.location.pos = t.span.start ∧
    0 ≤ t.location.pos ∧ t.location.pos ≤ source.length

namespace Token

theorem isPlaced_of_mark {file before rest : Text} {t : Token}
    (hl : t.location = .ofMark file (Mark.after {} before))
    (hs : t.span.start = before.length) : t.IsPlaced file (before ++ rest) := by
  have hp : t.location.pos = before.length := by
    rw [hl]
    simp only [Location.ofMark, Mark.offset_after]
    omega
  refine ⟨?_, hp.trans hs.symm, by omega, ?_⟩
  · rw [hp, hl]
    exact Location.ofMark_after file before rest
  · rw [hp, List.length_append]
    omega

/-- The tokens that a lexer gives, as `words` up to the first fault, over a source that is read up
to `start` when it begins. -/
structure Scanned (file source : Text) (start : Nat) (tokens : List Token) (last : Token)
    (words : List Token) : Prop where
  isWord : ∀ t ∈ words, Lexeme.IsWord t.type
  placed : ∀ t ∈ tokens, t.IsPlaced file source
  last_placed : last.IsPlaced file source
  last_type : last.type = .eof
  ends : (tokens = words ∧ Tiles source start words source.length) ∨
    ∃ fault reach, tokens = words ++ [fault] ∧ fault.type = .error ∧ Tiles source start words reach

theorem scanned_cons {file source : Text} {t : Token} {tokens words : List Token} {last : Token}
    {start stop : Nat} (h : Scanned file source stop tokens last words)
    (hstart : t.span.start = start) (hstop : t.span.stop = stop) (hword : Lexeme.IsWord t.type)
    (hplaced : t.IsPlaced file source) (hne : t.text ≠ [])
    (hcovers : t.span.text? source = some t.text) :
    Scanned file source start (t :: tokens) last (t :: words) where
  isWord := by simpa using ⟨hword, h.isWord⟩
  placed := by simpa using ⟨hplaced, h.placed⟩
  last_placed := h.last_placed
  last_type := h.last_type
  ends := by
    rw [← hstart]
    rcases h.ends with ⟨ht, htiles⟩ | ⟨fault, reach, ht, hf, htiles⟩
    · exact .inl ⟨by rw [ht], .cons hne hcovers (by rwa [hstop])⟩
    · exact .inr ⟨fault, reach, by rw [ht]; rfl, hf, .cons hne hcovers (by rwa [hstop])⟩

/-- A fault ends the tokens with one error token and the end. -/
theorem scanned_fault {file source : Text} {fault last : Token} (start : Nat)
    (hf : fault.type = .error) (hl : last.type = .eof) (hfp : fault.IsPlaced file source)
    (hlp : last.IsPlaced file source) : Scanned file source start [fault] last [] where
  isWord := by simp
  placed := by simpa using hfp
  last_placed := hlp
  last_type := hl
  ends := .inr ⟨fault, start, rfl, hf, .nil _⟩

end Token

/-! ## One token -/

namespace Cursor

variable {file source : Text} {us vs : List Char} {c : Cursor}

theorem Stands.source_eq (h : Stands file source us vs c) :
    source = Text.ofChars us ++ (Text.ofChars vs ++ c.remaining) := by
  rw [← Text.ofGlyphs_glyphs source, h.glyphs, Text.ofGlyphs_append, Text.ofGlyphs_ofChars, Text.ofChars_append,
    List.append_assoc, remaining]

theorem Stands.start_offset (h : Stands file source us vs c) :
    c.start.mark.offset = (Text.ofChars us).length := by
  rw [h.start, Mark.offset_after]
  exact Nat.zero_add _

theorem Stands.here_offset (h : Stands file source us vs c) :
    c.here.mark.offset = (Text.ofChars us).length + (Text.ofChars vs).length := by
  rw [h.here, Mark.offset_after, Text.ofChars_append, List.length_append]
  exact Nat.zero_add _

theorem Stands.startLocation (h : Stands file source us vs c) :
    c.startLocation = .ofMark file (Mark.after {} (Text.ofChars us)) := by
  rw [Cursor.startLocation, h.file, h.start]

theorem Stands.bare_isPlaced (h : Stands file source us vs c) (type : TokenType) (text : Text) :
    (c.bare type text).IsPlaced file source := by
  rw [h.source_eq]
  exact Token.isPlaced_of_mark h.startLocation (congrArg Nat.cast h.start_offset)

theorem Stands.emit_isPlaced (h : Stands file source us vs c) (type : TokenType) :
    (c.emit type).1.IsPlaced file source := by
  rw [h.source_eq]
  exact Token.isPlaced_of_mark h.startLocation (congrArg Nat.cast h.start_offset)

/-- A token that is cut off has the text that its span covers. -/
theorem Stands.emit_covers (h : Stands file source us vs c) (type : TokenType) :
    (c.emit type).1.span.text? source = some (c.emit type).1.text := by
  have hmiddle := Span.text?_middle (Text.ofChars us) (Text.ofChars vs) c.remaining
  rw [List.append_assoc, ← h.source_eq] at hmiddle
  simp only [emit, h.text, h.start_offset, h.here_offset]
  simpa using hmiddle

end Cursor

namespace Lexer

open Cursor (Stands)

/-- What one reading of a lexer that stands behind the characters `us` can be: a word of the next
characters, a fault, or the end. -/
inductive Reads (file source : Text) (us : List Char) (l : Lexer) : Prop where
  | word (vs : List Char) (nonempty : vs ≠ []) (behind : Stands file source (us ++ vs) [] l.next.2.cursor)
      (goesOn : l.next.2.ended = false) (isWord : Lexeme.IsWord l.next.1.type)
      (text : l.next.1.text = Text.ofChars vs) (start : l.next.1.span.start = (Text.ofChars us).length)
      (stop : l.next.1.span.stop = (Text.ofChars (us ++ vs)).length)
      (covers : l.next.1.span.text? source = some l.next.1.text)
  | fault (vs : List Char) (behind : Stands file source vs [] l.next.2.cursor)
      (ended : l.next.2.ended = true) (type : l.next.1.type = .error)
  | eof (behind : Stands file source us [] l.next.2.cursor) (ended : l.next.2.ended = true)
      (token : l.next.1 = l.next.2.cursor.ignore.bare .eof []) (whole : l.ended = false → source = Text.ofChars us)

variable {file source : Text} {us : List Char} {l : Lexer}

theorem next_of_ended (h : l.ended = true) : l.next = (l.cursor.ignore.bare .eof [], l) := by
  rw [next, if_pos h]

theorem next_of_token (h : l.ended = false) {type : TokenType} {c : Cursor}
    (hread : l.context.read l.cursor = .token type c) :
    l.next = ((c.emit type).1, { l with cursor := c.ignore, context := l.context.after type }) := by
  rw [next, if_neg (by simp [h]), hread]
  rfl

theorem next_of_fault (h : l.ended = false) {cause : LexFault} {c : Cursor}
    (hread : l.context.read l.cursor = .fault cause c) :
    l.next = (c.bare .error cause.message, { l with cursor := c.ignore, ended := true }) := by
  rw [next, if_neg (by simp [h]), hread]

theorem next_of_end (h : l.ended = false) (hread : l.context.read l.cursor = .ended) :
    l.next = (l.cursor.bare .eof [], { l with cursor := l.cursor.ignore, ended := true }) := by
  rw [next, if_neg (by simp [h]), hread]

/-- A reading keeps the lexer at a place of its source, and its token is in place. -/
theorem next_reads (h : Stands file source us [] l.cursor) :
    Reads file source us l ∧ l.next.1.IsPlaced file source := by
  have hstay : us ++ [] = us := List.append_nil us
  cases hended : l.ended with
  | true =>
    have hnext := next_of_ended hended
    refine ⟨.eof (by rwa [hnext]) (by rwa [hnext]) (by rw [hnext]) (by simp [hended]), ?_⟩
    rw [hnext]
    exact h.ignore.bare_isPlaced _ _
  | false =>
    have hstarts := l.context.read_startsAt l.cursor
    cases hread : l.context.read l.cursor with
    | token type c =>
      have hnext := next_of_token hended hread
      rw [hread] at hstarts
      obtain ⟨hword, d, hstep, w, hw⟩ := hstarts
      have hws := h.passes (.cons hstep hw)
      refine ⟨.word (d.last :: w) (by simp) ?_ ?_ ?_ ?_ ?_ ?_ ?_, ?_⟩ <;> rw [hnext]
      · exact hws.ignore
      · exact hended
      · exact hword
      · exact hws.text
      · exact congrArg Nat.cast hws.start_offset
      · rw [Text.ofChars_append, List.length_append]
        exact congrArg Nat.cast hws.here_offset
      · exact hws.emit_covers type
      · exact hws.emit_isPlaced type
    | fault cause c =>
      have hnext := next_of_fault hended hread
      rw [hread] at hstarts
      obtain ⟨d, ⟨w, hw⟩, hc⟩ := hstarts
      have hws := h.passes hw
      have hstands : ∃ us' vs', Stands file source us' vs' c := by
        rcases hc with rfl | rfl
        · exact ⟨_, _, hws⟩
        · exact ⟨_, _, hws.ignore⟩
      obtain ⟨us', vs', hc⟩ := hstands
      refine ⟨.fault (us' ++ vs') ?_ ?_ ?_, ?_⟩ <;> rw [hnext]
      · exact hc.ignore
      · rfl
      · exact hc.bare_isPlaced _ _
    | ended =>
      have hnext := next_of_end hended hread
      rw [hread] at hstarts
      have hrest : l.cursor.here.rest = [] := hstarts
      refine ⟨.eof ?_ ?_ ?_ fun _ => ?_, ?_⟩
      · rw [hnext, ← hstay]
        exact h.ignore
      · rw [hnext]
      · have hplace : l.cursor.start = l.cursor.here := by
          rw [h.start, ← hstay, ← h.here]
          rfl
        rw [hnext]
        simp only [Cursor.bare, Cursor.ignore, Cursor.startLocation, hplace]
      · have hsource := h.source_eq
        rw [Cursor.remaining, hrest] at hsource
        simpa [Text.ofGlyphs, Text.ofChars] using hsource
      · rw [hnext]
        exact h.bare_isPlaced _ _

theorem drain_of_eof (h : l.next.1.type = .eof) : l.drain = ([], l.next.1) := by
  rw [drain]
  exact dif_pos h

theorem drain_of_ne_eof (h : l.next.1.type ≠ .eof) :
    l.drain = (l.next.1 :: l.next.2.drain.1, l.next.2.drain.2) := by
  rw [drain]
  exact dif_neg h

theorem drain_of_ended (h : l.ended = true) : l.drain = ([], l.cursor.ignore.bare .eof []) := by
  have hnext := next_of_ended h
  rw [drain_of_eof (by rw [hnext]; rfl), hnext]

/-- The tokens that a lexer gives lie one after the other from where it stands. -/
theorem drain_scanned {us : List Char} {l : Lexer} (h : Stands file source us [] l.cursor)
    (hended : l.ended = false) : ∃ words, Token.Scanned file source (Text.ofChars us).length l.drain.1 l.drain.2 words := by
  obtain ⟨hreads, hplaced⟩ := next_reads h
  cases hreads with
  | word vs nonempty behind goesOn isWord text start stop covers =>
    obtain ⟨words, hwords⟩ := drain_scanned behind goesOn
    have hne : l.next.1.text ≠ [] := by
      obtain ⟨v, vs, rfl⟩ := List.exists_cons_of_ne_nil nonempty
      rw [text]
      simp [Text.ofChars]
    rw [drain_of_ne_eof isWord.1]
    exact ⟨_, Token.scanned_cons hwords start stop isWord hplaced hne covers⟩
  | fault vs behind ended type =>
    have hlast := (behind.ignore).bare_isPlaced .eof []
    rw [drain_of_ne_eof (by rw [type]; decide), drain_of_ended ended]
    exact ⟨[], Token.scanned_fault _ type rfl hplaced hlast⟩
  | eof behind ended token whole =>
    have htype : l.next.1.type = .eof := by
      rw [token]
      rfl
    rw [drain_of_eof htype]
    refine ⟨[], by simp, by simp, hplaced, htype, .inl ⟨rfl, ?_⟩⟩
    rw [← whole hended]
    exact .nil _
termination_by l.ahead
decreasing_by exact ahead_next_lt isWord.1

/-- The token that the `n`-th reading of a lexer returns, counted from zero. -/
def reading (l : Lexer) : Nat → Token
  | 0 => l.next.1
  | n + 1 => l.next.2.reading n

/-- Read one by one, the tokens are those that the lexer gives in one go, and then the end again and
again. -/
theorem reading_eq (h : Stands file source us [] l.cursor) (n : Nat) :
    l.reading n = l.drain.1[n]?.getD l.drain.2 := by
  induction n generalizing l us with
  | zero =>
    by_cases heof : l.next.1.type = .eof
    · rw [drain_of_eof heof]
      rfl
    · rw [drain_of_ne_eof heof]
      rfl
  | succ n ih =>
    have hnext : l.reading (n + 1) = l.next.2.reading n := rfl
    obtain ⟨hreads, -⟩ := next_reads h
    cases hreads with
    | word vs nonempty behind goesOn isWord text start stop covers =>
      rw [hnext, ih behind, drain_of_ne_eof (l := l) isWord.1]
      rfl
    | fault vs behind ended type =>
      have hne : l.next.1.type ≠ .eof := by
        rw [type]
        decide
      rw [hnext, ih behind, drain_of_ne_eof (l := l) hne]
      rfl
    | eof behind ended token whole =>
      have htype : l.next.1.type = .eof := by
        rw [token]
        rfl
      rw [hnext, ih behind, drain_of_ended ended, drain_of_eof htype, token]
      rfl

end Lexer

theorem TokenStream.ofSource_scanned (file source : Text) :
    ∃ words, Token.Scanned file source 0 (ofSource file source).tokens (ofSource file source).last words :=
  Lexer.drain_scanned (l := .ofSource file source) (Cursor.stands_ofSource file source) rfl

namespace TokenStream

/-- The token that the `n`-th reading of a stream returns, counted from zero. -/
def reading (s : TokenStream) : Nat → Token
  | 0 => s.peek
  | n + 1 => s.tail.reading n

theorem reading_eq (s : TokenStream) (n : Nat) : s.reading n = s.tokens[n]?.getD s.last := by
  induction n generalizing s with
  | zero => simp [reading, peek, List.head?_eq_getElem?]
  | succ n ih => simp [reading, ih, tail]

/-- A stream of a source gives token by token what the lexer gives. -/
theorem ofSource_reading (file source : Text) (n : Nat) :
    (ofSource file source).reading n = (Lexer.ofSource file source).reading n := by
  rw [reading_eq, Lexer.reading_eq (Cursor.stands_ofSource file source)]
  rfl

end TokenStream

namespace Lexer

/-- A lexer that gives a source back: `words` are its readings up to the first end or fault, which
is the reading `stop`. -/
structure Lossless (file source : Text) (l : Lexer) (words : List Token) (stop : Token) : Prop where
  word : ∀ i (h : i < words.length), l.reading i = words[i]
  isWord : ∀ t ∈ words, t.type ≠ .eof ∧ t.type ≠ .error
  few : words.length ≤ source.length
  tiles : ∃ reach, Tiles source 0 words reach ∧ (stop.type = .eof → reach = source.length)
  whole : stop.type = .eof → (words.map Token.text).flatten = source
  stops : l.reading words.length = stop
  stop_type : stop.type = .eof ∨ stop.type = .error
  later : ∀ i, words.length < i → (l.reading i).type = .eof
  placed : ∀ i, (l.reading i).IsPlaced file source

/-- Every source is read without loss and every token is where it says. -/
theorem ofSource_lossless (file source : Text) :
    ∃ words stop, Lossless file source (ofSource file source) words stop := by
  obtain ⟨words, h⟩ : ∃ words, Token.Scanned file source 0 (ofSource file source).drain.1
      (ofSource file source).drain.2 words := TokenStream.ofSource_scanned file source
  have hreading := reading_eq (l := ofSource file source) (Cursor.stands_ofSource file source)
  have hplaced : ∀ i, ((ofSource file source).reading i).IsPlaced file source := by
    intro i
    rw [hreading]
    cases hi : (ofSource file source).drain.1[i]? with
    | none => exact h.last_placed
    | some t => exact h.placed t (List.mem_of_getElem? hi)
  rcases h.ends with ⟨ht, htiles⟩ | ⟨fault, reach, ht, hf, htiles⟩
  · refine ⟨words, (ofSource file source).drain.2, ?_, h.isWord, ?_, ⟨_, htiles, fun _ => rfl⟩, ?_, ?_,
      .inl h.last_type, ?_, hplaced⟩
    · intro i hi
      rw [hreading, ht, List.getElem?_eq_getElem hi, Option.getD_some]
    · have := htiles.length_le
      omega
    · intro _
      rw [htiles.flatten (Int.le_refl 0)]
      simp
    · rw [hreading, ht, List.getElem?_eq_none (Nat.le_refl _), Option.getD_none]
    · intro i hi
      rw [hreading, ht, List.getElem?_eq_none (by omega), Option.getD_none]
      exact h.last_type
  · have hne : fault.type ≠ .eof := by simp [hf]
    refine ⟨words, fault, ?_, h.isWord, ?_, ⟨_, htiles, fun he => absurd he hne⟩,
      fun he => absurd he hne, ?_, .inr hf, ?_, hplaced⟩
    · intro i hi
      rw [hreading, ht, List.getElem?_append_left hi, List.getElem?_eq_getElem hi,
        Option.getD_some]
    · have h1 := htiles.length_le
      have h2 := htiles.stop_le (by omega)
      omega
    · rw [hreading, ht, List.getElem?_append_right (Nat.le_refl _)]
      simp
    · intro i hi
      rw [hreading, ht, List.getElem?_eq_none (by simp; omega), Option.getD_none]
      exact h.last_type

end Lexer

end FusionKit
