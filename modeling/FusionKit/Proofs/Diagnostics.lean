import Mathlib.Data.Nat.Count
import FusionKit.Proofs.Edits
import FusionKit.Proofs.Faults
import FusionKit.Proofs.Sessions

/-!
# Where diagnostics start

An editor finds a place in a document by its line and by its character there. Lines end with a line feed, a
carriage return, or the two in this order, and characters are words of 16 bits. What a session announces
counts line feeds, and bytes. The two agree on the place of an error exactly when each carriage return before
it stands in front of a line feed, and the line up to it has only glyphs of one byte.
-/
set_option autoImplicit false

namespace FusionKit

/-! ## Lines -/

section

variable {p q : Nat → Prop} [DecidablePred p] [DecidablePred q] {pos : Nat}

/-- Where the line of an offset starts: behind the last place before it at which, by `p`, a line ends. -/
def lineStart (p : Nat → Prop) [DecidablePred p] : Nat → Nat
  | 0 => 0
  | pos + 1 => if p pos then pos + 1 else lineStart p pos

theorem lineStart_le (p : Nat → Prop) [DecidablePred p] (pos : Nat) : lineStart p pos ≤ pos := by
  induction pos with
  | zero => exact Nat.le_refl 0
  | succ pos ih =>
    rw [lineStart]
    split_ifs
    · exact Nat.le_refl _
    · omega

theorem lineStart_congr (h : ∀ i < pos, p i ↔ q i) : lineStart p pos = lineStart q pos := by
  induction pos with
  | zero => rfl
  | succ pos ih =>
    have hlast := h pos (Nat.lt_succ_self pos)
    have hbefore := ih fun i hi => h i (Nat.lt_succ_of_lt hi)
    by_cases hp : p pos
    · rw [lineStart, lineStart, if_pos hp, if_pos (hlast.mp hp)]
    · rw [lineStart, lineStart, if_neg hp, if_neg (hp ∘ hlast.mpr), hbefore]

theorem count_congr (h : ∀ i < pos, p i ↔ q i) : Nat.count p pos = Nat.count q pos := by
  induction pos with
  | zero => rfl
  | succ pos ih =>
    have hbefore := ih fun i hi => h i (Nat.lt_succ_of_lt hi)
    simp only [Nat.count_succ, hbefore, h pos (Nat.lt_succ_self pos)]

/-- Where lines end at fewer places, but no fewer of them before an offset, they end at all of these. -/
theorem of_count_eq (h : ∀ i, p i → q i) (heq : Nat.count p pos = Nat.count q pos) : ∀ i < pos, q i → p i := by
  induction pos with
  | zero => exact fun i hi => absurd hi (Nat.not_lt_zero i)
  | succ pos ih =>
    have hle : Nat.count p pos ≤ Nat.count q pos := Nat.count_mono_left fun i _ => h i
    rw [Nat.count_succ, Nat.count_succ] at heq
    have hlast : q pos → p pos := by
      intro hq
      by_contra hp
      rw [if_pos hq, if_neg hp] at heq
      omega
    have hsame : Nat.count p pos = Nat.count q pos := by
      by_cases hp : p pos
      · rw [if_pos hp, if_pos (h pos hp)] at heq
        omega
      · rw [if_neg hp, if_neg (hp ∘ hlast)] at heq
        omega
    intro i hi hq
    rcases Nat.lt_succ_iff_lt_or_eq.mp hi with hi | rfl
    · exact ih hsame i hi hq
    · exact hlast hq

end

namespace Text

/-- Whether a line feed stands at a place. -/
def IsFeed (t : Text) (i : Nat) : Prop := t[i]? = some (byte '\n')

/-- Whether a line ends at a place, as editors see it: with a line feed, or with a carriage return that no
line feed follows. -/
def EndsLine (t : Text) (i : Nat) : Prop :=
  t[i]? = some (byte '\n') ∨ t[i]? = some (byte '\r') ∧ t[i + 1]? ≠ some (byte '\n')

instance (t : Text) : DecidablePred (IsFeed t) := fun _ => inferInstanceAs (Decidable (_ = _))

instance (t : Text) : DecidablePred (EndsLine t) := fun _ => inferInstanceAs (Decidable (_ ∨ _))

/-- The part of a text between two offsets. -/
def between (t : Text) (start stop : Nat) : Text := (t.take stop).drop start

/-- The words of 16 bits that some glyphs take. -/
def unitsIn : List Glyph → Nat
  | [] => 0
  | g :: gs => unitsOf g + unitsIn gs

/-- The position of an offset, as editors count: the lines that end before it, and the words of 16 bits
between the start of its line and itself. -/
def positionAt (t : Text) (pos : Nat) : Position :=
  ⟨.ofNat (Nat.count (EndsLine t) pos), .ofNat (unitsIn (t.between (lineStart (EndsLine t) pos) pos).glyphs)⟩

variable {t : Text} {pos : Nat} {g : Glyph}

/-- The mark of an offset counts line feeds, and bytes since the last of them. -/
theorem after_take (h : pos ≤ t.length) :
    Mark.after {} (t.take pos) = ⟨pos, Nat.count (IsFeed t) pos + 1, pos - lineStart (IsFeed t) pos + 1⟩ := by
  induction pos with
  | zero => rfl
  | succ pos ih =>
    have hlast : t[pos]? = some t[pos] := List.getElem?_eq_getElem h
    have hle := lineStart_le (IsFeed t) pos
    have hnext (m : Mark) : m.after [t[pos]] = m.next t[pos] := rfl
    rw [List.take_add_one, hlast, Option.toList_some, Mark.after_append, ih (Nat.le_of_succ_le h), hnext, Nat.count_succ,
      lineStart, Mark.next]
    by_cases hfeed : t[pos] = byte '\n'
    · have hp : IsFeed t pos := hlast.trans (congrArg some hfeed)
      rw [if_pos (beq_iff_eq.mpr hfeed), if_pos hp, if_pos hp, Nat.sub_self]
    · have hp : ¬IsFeed t pos := fun h => hfeed (Option.some.inj (hlast.symm.trans h))
      rw [if_neg (hfeed ∘ beq_iff_eq.mp), if_neg hp, if_neg hp, Nat.add_zero, Nat.succ_sub hle]

/-! ## Characters -/

/-- A glyph takes no more words than bytes, and as many only if it is one byte. -/
theorem unitsOf_le (g : Glyph) : unitsOf g ≤ g.bytes.length ∧ (unitsOf g = g.bytes.length ↔ g.bytes.length = 1) := by
  cases g with
  | stray b => exact ⟨Nat.le_refl 1, iff_of_true rfl rfl⟩
  | char c =>
    have hlength : (Glyph.char c).bytes.length = c.utf8Size := String.length_utf8EncodeChar c
    rw [hlength, unitsOf, Char.utf8Size]
    have hval : c.toNat = c.val.toNat := rfl
    simp only [hval, UInt32.le_iff_toNat_le, UInt32.toNat_ofNatLT]
    split_ifs <;> omega

theorem unitsIn_le (gs : List Glyph) :
    unitsIn gs ≤ (ofGlyphs gs).length ∧ (unitsIn gs = (ofGlyphs gs).length ↔ ∀ g ∈ gs, g.bytes.length = 1) := by
  induction gs with
  | nil => exact ⟨Nat.le_refl 0, iff_of_true rfl fun _ h => absurd h List.not_mem_nil⟩
  | cons g gs ih =>
    obtain ⟨hle, hiff⟩ := unitsOf_le g
    have hlength : (ofGlyphs (g :: gs)).length = g.bytes.length + (ofGlyphs gs).length := List.length_append
    rw [unitsIn, hlength, List.forall_mem_cons, ← hiff, ← ih.2]
    constructor <;> omega

/-! ## Positions -/

/-- Line feeds and bytes give the position of an offset exactly when each carriage return before it stands in
front of a line feed, and the line up to it has only glyphs of one byte. -/
theorem eq_positionAt_iff (hpos : pos ≤ t.length) (hsize : t.length < UInt32.size) :
    (⟨.ofNat (Nat.count (IsFeed t) pos), .ofNat (pos - lineStart (IsFeed t) pos)⟩ : Position) = t.positionAt pos ↔
      (∀ i < pos, t[i]? = some (byte '\r') → t[i + 1]? = some (byte '\n')) ∧
      ∀ g ∈ (t.between (lineStart (IsFeed t) pos) pos).glyphs, g.bytes.length = 1 := by
  have hends : ∀ i, IsFeed t i → EndsLine t i := fun i => Or.inl
  have hunits (start : Nat) := unitsIn_le (t.between start pos).glyphs
  have hline (start : Nat) : (ofGlyphs (t.between start pos).glyphs).length = pos - start := by
    rw [ofGlyphs_glyphs, between, List.length_drop, List.length_take, min_eq_left hpos]
  have hword {m n : Nat} (hm : m ≤ pos) (hn : n ≤ pos) : UInt32.ofNat m = UInt32.ofNat n ↔ m = n := by
    have hlt : pos < UInt32.size := Nat.lt_of_le_of_lt hpos hsize
    rw [← UInt32.toNat_inj, UInt32.toNat_ofNat', UInt32.toNat_ofNat', Nat.mod_eq_of_lt (Nat.lt_of_le_of_lt hm hlt),
      Nat.mod_eq_of_lt (Nat.lt_of_le_of_lt hn hlt)]
  have hunitsLe : unitsIn (t.between (lineStart (EndsLine t) pos) pos).glyphs ≤ pos := by
    have hle := (hunits (lineStart (EndsLine t) pos)).1
    rw [hline] at hle
    omega
  rw [positionAt, Position.mk.injEq, hword (Nat.count_le _) (Nat.count_le _), hword (Nat.sub_le _ _) hunitsLe]
  constructor
  · rintro ⟨hcount, hcharacter⟩
    have hfeeds := of_count_eq hends hcount
    have hstart : lineStart (EndsLine t) pos = lineStart (IsFeed t) pos :=
      lineStart_congr fun i hi => ⟨hfeeds i hi, hends i⟩
    rw [hstart] at hcharacter
    refine ⟨fun i hi hreturn => ?_, (hunits _).2.mp (by rw [hline]; exact hcharacter.symm)⟩
    by_contra hlone
    have hfeed : IsFeed t i := hfeeds i hi (.inr ⟨hreturn, hlone⟩)
    exact absurd (Option.some.inj (hreturn.symm.trans hfeed)) (by decide)
  · rintro ⟨hreturns, hglyphs⟩
    have hfeeds : ∀ i < pos, IsFeed t i ↔ EndsLine t i := by
      refine fun i hi => ⟨hends i, ?_⟩
      rintro (hfeed | ⟨hreturn, hlone⟩)
      · exact hfeed
      · exact absurd (hreturns i hi hreturn) hlone
    rw [← lineStart_congr hfeeds]
    refine ⟨count_congr hfeeds, ?_⟩
    rw [(hunits _).2.mpr hglyphs, hline]

end Text

/-! ## Diagnostics -/

namespace Editor

variable {e : Editor} {uri : Text}

theorem Named.run (h : e.Named) (rs : List Request) : (e.run rs).2.Named := by
  induction rs generalizing e with
  | nil => exact h
  | cons r rs ih => exact ih (h.act r)

/-- A request that tells what a document is has this announced of it. -/
theorem Named.sent_of_tells (h : e.Named) {r : Request} {d : OpenDocument} (htells : r.tells uri = some (some d)) :
    (e.act r).1.sent = [.ofTold uri (some d)] := by
  rcases cases_of_tells htells with ⟨rfl, rfl⟩ | ⟨version, texts, rfl, rfl⟩
  · exact d.sent_announce
  · show (announce (e.changed uri version (texts.getLastD []))).sent = _
    rw [h.changed]
    exact OpenDocument.sent_announce _

/-- Where the extent of a syntax error starts. -/
theorem start_ofSyntax {path content : Text} {err : SyntaxError} (h : parse path content = .error err) :
    ∃ pos : Nat, err.location.pos = pos ∧ pos ≤ content.length ∧
      (Extent.ofFailure (.ofSyntax err)).start =
        ⟨.ofNat (Nat.count (Text.IsFeed content) pos), .ofNat (pos - lineStart (Text.IsFeed content) pos)⟩ := by
  obtain ⟨hlocate, hstart, hend⟩ := (parse_refused path content).1 err h
  obtain ⟨pos, hpos⟩ := Int.eq_ofNat_of_zero_le hstart
  have hle : pos ≤ content.length := by omega
  have hmark := Text.after_take hle
  have hline : err.location.line = (Nat.count (Text.IsFeed content) pos + 1 : Nat) := by
    rw [hlocate, Location.locate, hpos, Int.toNat_natCast, hmark]
  have hcol : err.location.col = (pos - lineStart (Text.IsFeed content) pos + 1 : Nat) := by
    rw [hlocate, Location.locate, hpos, Int.toNat_natCast, hmark]
  refine ⟨pos, hpos, hle, ?_⟩
  have hplace : (Failure.ofSyntax err).place? = some (err.location, err.fault.message) := rfl
  rw [Extent.ofFailure, hplace]
  dsimp only
  have hword (n : Nat) : Extent.word ((n + 1 : Nat) - 1) = .ofNat n := by
    rw [Extent.word, show ((n + 1 : Nat) - 1 : Int) = n by omega, Int.toNat_natCast]
  rw [if_pos (by omega), Extent.ofLocation, hline, hcol]
  dsimp only
  rw [hword, hword]

/-- Whatever a session was asked before, a document that it is told of and that does not parse has one
diagnostic, with the message of the error. It starts in the line of as many line feeds as there are before the
error, and behind as many characters as there are bytes between the last of them and the error. This is where
the error is to an editor exactly when each carriage return before it stands in front of a line feed, and the
line up to it has only glyphs of one byte. -/
theorem diagnostic_start (s : Settings) (rs : List Request) {r : Request} {uri : Text} {d : OpenDocument}
    {err : SyntaxError} (htells : r.tells uri = some (some d)) (hparse : parse (pathOfUri uri) d.content = .error err) :
    ∃ (pos : Nat) (extent : Extent), err.location.pos = pos ∧ pos ≤ d.content.length ∧
      ((run { settings := s } rs).2.act r).1.sent = [⟨uri, [⟨extent, err.fault.message⟩]⟩] ∧
      extent.start = ⟨.ofNat (Nat.count d.content.IsFeed pos), .ofNat (pos - lineStart d.content.IsFeed pos)⟩ ∧
      (d.content.length < UInt32.size →
        (extent.start = d.content.positionAt pos ↔
          (∀ i < pos, d.content[i]? = some (byte '\r') → d.content[i + 1]? = some (byte '\n')) ∧
          ∀ g ∈ (d.content.between (lineStart d.content.IsFeed pos) pos).glyphs, g.bytes.length = 1)) := by
  have hnamed : Named { settings := s } := by
    intro uri d hd
    cases hd
  obtain ⟨pos, hpos, hle, hstart⟩ := start_ofSyntax hparse
  refine ⟨pos, .ofFailure (.ofSyntax err), hpos, hle, ?_, hstart, fun hsize => ?_⟩
  · rw [(hnamed.run rs).sent_of_tells htells, Announcement.ofTold, hparse]
  · rw [hstart]
    exact Text.eq_positionAt_iff hle hsize

/-- A string without its end in the second line. -/
theorem diagnostic_start_unterminated :
    let uri := utf8 "file:///a.fusion"
    let d : OpenDocument := ⟨uri, 1, utf8 "(a\n  \"b\n)"⟩
    (Request.opened d).tells uri = some (some d) ∧ ∃ err extent, parse (pathOfUri uri) d.content = .error err ∧
      err.location.pos = 5 ∧
      ((run {} [.shutdown]).2.act (.opened d)).1.sent = [⟨uri, [⟨extent, err.fault.message⟩]⟩] ∧
      extent.start = ⟨1, 2⟩ ∧ extent.start = d.content.positionAt 5 := by
  intro uri d
  have htells : (Request.opened d).tells uri = some (some d) := by decide
  have herror : ((syntaxFailure? (pathOfUri uri) d.content).bind Failure.place?).map (·.1.pos) = some 5 := by decide +kernel
  unfold syntaxFailure? at herror
  cases hparse : parse (pathOfUri uri) d.content with
  | ok nodes =>
    rw [hparse] at herror
    cases herror
  | error err =>
    rw [hparse] at herror
    obtain ⟨pos, extent, hpos, -, hsent, hstart, hiff⟩ := diagnostic_start .default [.shutdown] htells hparse
    obtain rfl : pos = 5 := by
      have hfive : err.location.pos = 5 := Option.some.inj herror
      omega
    have hposition : d.content.positionAt 5 = ⟨1, 2⟩ := by decide +kernel
    have hagrees : extent.start = ⟨1, 2⟩ := hstart.trans (by decide +kernel)
    exact ⟨htells, err, extent, rfl, hpos, hsent, hagrees, hagrees.trans hposition.symm⟩

/-- Where a character of two bytes stands before an error, the diagnostic starts a character behind the error.
Where a carriage return does, it starts in the line before. -/
theorem diagnostic_start_elsewhere :
    let uri := utf8 "file:///a.fusion"
    let place (content : Text) := ((syntaxFailure? (pathOfUri uri) content).bind Failure.place?).map (·.1.pos)
    let diagnostic (start stop : Position) : Announcement :=
      ⟨uri, [⟨⟨start, stop⟩, utf8 "unterminated string literal"⟩]⟩
    (place (utf8 "\"é\" \"b") = some 5 ∧
      (act {} (.opened ⟨uri, 1, utf8 "\"é\" \"b"⟩)).1.sent = [diagnostic ⟨0, 5⟩ ⟨0, 6⟩] ∧
      Text.positionAt (utf8 "\"é\" \"b") 5 = ⟨0, 4⟩) ∧
    place (utf8 "\r\"b") = some 1 ∧
      (act {} (.opened ⟨uri, 1, utf8 "\r\"b"⟩)).1.sent = [diagnostic ⟨0, 1⟩ ⟨0, 2⟩] ∧
      Text.positionAt (utf8 "\r\"b") 1 = ⟨1, 0⟩ := by
  decide +kernel

end Editor

end FusionKit
