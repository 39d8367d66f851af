import FusionKit.Node.Parse
import FusionKit.Proofs.Lexing
import FusionKit.Proofs.LineEnds
import FusionKit.Proofs.LexerPaths
import Mathlib.Data.List.Chain

/-!
# Signs

What the tokens of a text say to a parser, without their places: the words, the comments and every
single line break. A text that is put together from words and blanks shows the signs that were put
into it, if each word may end where it does; how many blanks there are and how they are shared out
among white space tokens does not matter.
-/
set_option autoImplicit false

namespace FusionKit

open Glyph (ofChars Stops)
open Lexeme (Spelling CommentBody isSpace annotationMark)

/-- What a token says to a parser. -/
inductive Sign where
  | word (type : TokenType) (text : Text)
  | brk
  | line (text : Text)
  | block (lines : List Text)
  deriving DecidableEq, Repr

namespace Sign

/-- Whether a sign is a comment or a line break. -/
def isTrivia : Sign → Bool
  | word .. => false
  | _ => true

end Sign

namespace Token

/-- The signs of a token; a line comment brings its line break along. -/
def signs (t : Token) : List Sign :=
  match t.type with
  | .whitespace => List.replicate t.text.countBreaks .brk
  | .lineComment => [.line (Text.dropEndWhile Text.isSpace t.text), .brk]
  | .blockComment => [.block (commentLines t.text)]
  | type => [.word type t.text]

/-- The signs of some tokens. -/
def signsOf (ts : List Token) : List Sign := ts.flatMap signs

@[simp] theorem signsOf_nil : signsOf [] = [] := rfl

@[simp] theorem signsOf_cons (t : Token) (ts : List Token) :
    signsOf (t :: ts) = t.signs ++ signsOf ts := rfl

@[simp] theorem signsOf_append (ts us : List Token) :
    signsOf (ts ++ us) = signsOf ts ++ signsOf us := List.flatMap_append

/-- No two white space tokens stand side by side. -/
def Spaced (ts : List Token) : Prop :=
  ts.IsChain fun t u => ¬ (t.type = .whitespace ∧ u.type = .whitespace)

end Token

namespace Lexeme

theorem isSpace_of_isPart {d : Char} (h : Numeral.isPart d = true) : isSpace d = false := by
  cases hs : isSpace d with
  | false => rfl
  | true =>
    have hno : ∀ e ∈ [' ', '\t', '\r', '\n', '\x0c', '\x0b'], Numeral.isPart e = false :=
      List.all_iff_forall_prop.mp rfl
    rw [hno d (isSpace_cases hs)] at h
    contradiction

/-- Whether a token of a type may start with a character. -/
def mayStart (type : TokenType) (c : Char) : Bool :=
  match type with
  | .int | .real => Numeral.isDecimal c || c == '-'
  | .timestamp => Numeral.isDecimal c
  | .null => c == 'n'
  | .bool => c == 't' || c == 'f'
  | .symbol => isIdentStart c
  | .annotate => isIdentStart c || c == '\''
  | .quotedSymbol | .longString => c == '\''
  | .operator => isOperator c
  | .string => c == '"'
  | .whitespace => isSpace c
  | .lineComment | .blockComment => c == '/'
  | .blob | .clobOpen | .braceOpen => c == '\x7b'
  | .clobClose | .braceClose => c == '\x7d'
  | .parenOpen => c == '('
  | .parenClose => c == ')'
  | .bracketOpen => c == '['
  | .bracketClose => c == ']'
  | .colon => c == ':'
  | .comma => c == ','
  | .invalid | .error | .eof => false

/-- A spelling starts as its token type says. -/
theorem spelling_first {inSExpr : Bool} {type : TokenType} {w : List Char} (h : Spelling inSExpr type w) :
    ∃ d ds, w = d :: ds ∧ mayStart type d = true := by
  cases h with
  | @numeral type w ht h =>
    cases w with
    | nil => cases h
    | cons d ds =>
      obtain ⟨e, he, hstart⟩ := Numeral.longest?_starts
        (show (Numeral.longest? (.char d :: ofChars ds)).isSome = true by
          rw [← Glyph.ofChars_cons, h]
          rfl)
      obtain rfl := Glyph.char.inj he
      refine ⟨d, ds, rfl, ?_⟩
      simp only [List.mem_cons, List.not_mem_nil, or_false] at ht
      rcases hstart with hd | ⟨rfl, -⟩
      · rcases ht with rfl | rfl | rfl <;> simp [mayStart, hd]
      · rcases ht with rfl | rfl | rfl
        · rfl
        · rfl
        · exact absurd h (Numeral.not_timestamp_signed _ _)
  | symbol h =>
    obtain ⟨d, ds, rfl, hd, -⟩ := h.starts
    exact ⟨d, ds, rfl, hd⟩
  | null h =>
    rcases h with rfl | ⟨t, -, rfl⟩
    · exact ⟨'n', ['u', 'l', 'l'], rfl, rfl⟩
    · exact ⟨'n', ['u', 'l', 'l', '.'] ++ t.toList, rfl, rfl⟩
  | bool h =>
    rcases h with rfl | rfl
    · exact ⟨'t', ['r', 'u', 'e'], rfl, rfl⟩
    · exact ⟨'f', ['a', 'l', 's', 'e'], rfl, rfl⟩
  | quotedSymbol h =>
    obtain ⟨b, -, rfl⟩ := h
    exact ⟨_, _, rfl, rfl⟩
  | operator h =>
    obtain ⟨d, ds, rfl, hd, -⟩ := h
    exact ⟨d, ds, rfl, hd⟩
  | string => exact ⟨_, _, rfl, rfl⟩
  | @longString b => exact ⟨'\'', ['\'', '\''] ++ b ++ ['\'', '\'', '\''], rfl, rfl⟩
  | @annotate name blanks h =>
    rcases h with h | ⟨b, -, rfl⟩
    · obtain ⟨d, ds, rfl, hd, -⟩ := h.starts
      exact ⟨d, ds ++ blanks ++ [':', ':'], rfl, by simp [mayStart, hd]⟩
    · exact ⟨'\'', b ++ ['\''] ++ blanks ++ [':', ':'], rfl, rfl⟩
  | @blob b => exact ⟨'\x7b', ['\x7b'] ++ b ++ ['\x7d', '\x7d'], rfl, rfl⟩
  | @whitespace w hw h =>
    obtain ⟨d, ds, rfl⟩ := List.exists_cons_of_ne_nil hw
    exact ⟨d, ds, rfl, h d List.mem_cons_self⟩
  | @lineComment b e => exact ⟨'/', ['/'] ++ b ++ e, rfl, rfl⟩
  | @blockComment b => exact ⟨'/', ['*'] ++ b ++ ['*', '/'], rfl, rfl⟩
  | fixed h =>
    simp only [fixedSpellings, List.mem_cons, Prod.mk.injEq, List.not_mem_nil, or_false] at h
    rcases h with ⟨rfl, rfl⟩ | ⟨rfl, rfl⟩ | ⟨rfl, rfl⟩ | ⟨rfl, rfl⟩ | ⟨rfl, rfl⟩ | ⟨rfl, rfl⟩ |
      ⟨rfl, rfl⟩ | ⟨rfl, rfl⟩ | ⟨rfl, rfl⟩ | ⟨rfl, rfl⟩ <;> exact ⟨_, _, rfl, rfl⟩

theorem isSpace_of_mayStart {type : TokenType} {d : Char} (h : mayStart type d = true) (hw : type ≠ .whitespace) :
    isSpace d = false := by
  cases type with
  | whitespace => contradiction
  | timestamp | symbol | operator => exact isSpace_of_isWordStart (by simp_all [isWordStart, mayStart])
  | int | real | annotate =>
    simp only [mayStart, Bool.or_eq_true, beq_iff_eq] at h
    rcases h with hd | rfl
    · exact isSpace_of_isWordStart (by simp [isWordStart, hd])
    · rfl
  | bool =>
    simp only [mayStart, Bool.or_eq_true, beq_iff_eq] at h
    rcases h with rfl | rfl <;> rfl
  | invalid | error | eof => contradiction
  | _ =>
    obtain rfl := eq_of_beq h
    rfl

/-- The first characters of spellings: no token but white space starts with a blank, and none but
the colon with a colon. -/
theorem spelling_starts {inSExpr : Bool} {type : TokenType} {w : List Char}
    (h : Spelling inSExpr type w) (hw : type ≠ .whitespace) :
    ∃ d ds, w = d :: ds ∧ isSpace d = false ∧ (d = ':' → type = .colon) := by
  obtain ⟨d, ds, rfl, hd⟩ := spelling_first h
  refine ⟨d, ds, rfl, isSpace_of_mayStart hd hw, ?_⟩
  rintro rfl
  revert hd
  cases type <;> decide

end Lexeme

/-- In front of `rest` the characters `w` are cut off as one token. -/
def Cut (c : LexContext) (type : TokenType) (w rest : List Char) : Prop :=
  ∃ d ds, w = d :: ds ∧
    c.lexeme (.char d) (ofChars ds ++ ofChars rest) = .token type ds.length

/-- Characters put together from words, comments and blanks, with the signs they show once the
blanks at line ends are dropped. -/
inductive Shows : LexContext → List Char → List Sign → Prop where
  | done {c : LexContext} (h : c.inClob = false) : Shows c [] []
  | space {c : LexContext} {cs : List Char} {ms : List Sign} (h : Shows c cs ms) :
      Shows c (' ' :: cs) ms
  | brk {c : LexContext} {cs : List Char} {ms : List Sign} (h : Shows c cs ms) :
      Shows c ('\n' :: cs) (.brk :: ms)
  | word {c : LexContext} {type : TokenType} {w cs : List Char} {ms : List Sign} (hfirm : Firm w)
      (hspell : Spelling c.inSExpr type (settled w))
      (htype : type ∉ [.whitespace, .lineComment, .blockComment])
      (hcolon : type = .colon → (settled cs).head? ≠ some ':')
      (hcut : Cut c type (settled w) (settled cs)) (h : Shows (c.after type) cs ms) :
      Shows c (w ++ cs) (.word type (Text.ofChars (settled w)) :: ms)
  | line {c : LexContext} {b sp cs : List Char} {ms : List Sign} (hc : c.inClob = false)
      (hb : ∀ d ∈ b, d ≠ '\n' ∧ d ≠ '\r') (hfirm : Firm (['/', '/'] ++ b)) (hsp : ∀ d ∈ sp, d = ' ')
      (h : Shows c cs ms) :
      Shows c (['/', '/'] ++ b ++ sp ++ '\n' :: cs)
        (.line (Text.ofChars (['/', '/'] ++ b)) :: .brk :: ms)
  | block {c : LexContext} {b cs : List Char} {ms : List Sign} (hc : c.inClob = false)
      (hbody : CommentBody b) (hset : settled (['/', '*'] ++ b ++ ['*', '/']) =
        ['/', '*'] ++ b ++ ['*', '/']) (h : Shows c cs ms) :
      Shows c (['/', '*'] ++ b ++ ['*', '/'] ++ cs)
        (.block (commentLines (Text.ofChars (['/', '*'] ++ b ++ ['*', '/']))) :: ms)

namespace Shows

theorem spaces {c : LexContext} {cs sp : List Char} {ms : List Sign} (h : Shows c cs ms)
    (hsp : ∀ d ∈ sp, d = ' ') : Shows c (sp ++ cs) ms := by
  induction sp with
  | nil => exact h
  | cons d sp ih =>
    obtain rfl := hsp d (by simp)
    exact .space (ih fun e he => hsp e (by simp [he]))

theorem breaks {c : LexContext} {cs : List Char} {ms : List Sign} (h : Shows c cs ms) (n : Nat) :
    Shows c (List.replicate n '\n' ++ cs) (List.replicate n .brk ++ ms) := by
  induction n with
  | zero => exact h
  | succ n ih =>
    rw [List.replicate_succ, List.replicate_succ]
    exact .brk ih

/-- Two colons never come next, so nothing becomes an annotation by what follows it. -/
theorem annotationMark_eq_zero {c : LexContext} {cs : List Char} {ms : List Sign}
    (h : Shows c cs ms) : annotationMark (ofChars (settled cs)) = 0 := by
  have hblank : ∀ {d : Char} {ds : List Char}, isSpace d = true →
      annotationMark (ofChars ds) = 0 → annotationMark (ofChars (d :: ds)) = 0 := by
    intro d ds hd hds
    unfold annotationMark at hds ⊢
    dsimp only at hds ⊢
    rw [Glyph.ofChars_cons, Lexeme.run_cons hd, List.drop_succ_cons]
    split
    · rename_i heq
      rw [heq] at hds
      simp at hds
    · rfl
  have hword : ∀ {d : Char} {ds : List Char}, isSpace d = false →
      (d = ':' → ds.head? ≠ some ':') → annotationMark (ofChars (d :: ds)) = 0 := by
    intro d ds hd hds
    unfold annotationMark
    dsimp only
    rw [Glyph.ofChars_cons, Lexeme.run_of_stops (Glyph.stops_cons.mpr hd), List.drop_zero]
    split
    · rename_i heq
      match ds, heq with
      | e :: ds, heq =>
        simp only [Glyph.ofChars_cons, List.cons.injEq, Glyph.char.injEq] at heq
        exact absurd (by rw [heq.2.1]; rfl) (hds heq.1)
      | [], heq => simp at heq
    · rfl
  induction h with
  | done => rfl
  | space _ ih =>
    rw [settled]
    split
    · exact ih
    · exact hblank (by decide) ih
  | brk _ ih =>
    rw [settled_newline]
    exact hblank (by decide) ih
  | @word c type w cs ms hfirm hspell htype hcolon _ _ _ =>
    have hne : type ≠ .whitespace := by
      rintro rfl
      simp at htype
    obtain ⟨d, ds, hw, hd, hc⟩ := Lexeme.spelling_starts hspell hne
    rw [settled_append hfirm, hw]
    refine hword hd ?_
    rintro rfl
    have htype := hc rfl
    subst htype
    have hds : ds = [] := by
      cases hspell with
      | numeral ht => simp at ht
      | fixed h =>
        simp only [Lexeme.fixedSpellings, List.mem_cons, Prod.mk.injEq, reduceCtorEq, false_and,
          true_and, List.not_mem_nil, or_false, false_or] at h
        rw [h] at hw
        simpa using hw.symm
    subst hds
    exact hcolon rfl
  | line =>
    rw [List.append_assoc, List.append_assoc, settled_append (by simp [Firm, isSpace])]
    exact hword (by decide) (fun h => absurd h (by decide))
  | block =>
    rw [List.append_assoc, List.append_assoc, settled_append (by simp [Firm, isSpace])]
    exact hword (by decide) (fun h => absurd h (by decide))

end Shows

namespace LexContext

/-- Blanks are one token, inside clobs as well as outside. -/
theorem lexeme_whitespace (c : LexContext) {d : Char} {ds : List Char} {rest : List Glyph}
    (hd : isSpace d = true) (hds : ∀ e ∈ ds, isSpace e = true) (hrest : Stops isSpace rest) :
    c.lexeme (.char d) (ofChars ds ++ rest) = .token .whitespace ds.length := by
  unfold lexeme
  split
  · exact Lexeme.readInClob_whitespace hd hds hrest
  · exact Lexeme.read_whitespace hd hds hrest

end LexContext

namespace Token

theorem scan_nil {file : Text} {c : LexContext} {m : Mark} (h : c.inClob = false) :
    scan file c m [] = ([], bare file .eof [] m) := by
  rw [scan]
  simp [h]

theorem scan_cut (file : Text) {c : LexContext} (m : Mark) {type : TokenType} {w rest : List Char}
    (h : Cut c type w rest) :
    ∃ t, t.type = type ∧ t.text = Text.ofChars w ∧
      scan file c m (ofChars (w ++ rest)) =
        (t :: (scan file (c.after type) (m.after (Text.ofChars w)) (ofChars rest)).1,
          (scan file (c.after type) (m.after (Text.ofChars w)) (ofChars rest)).2) := by
  obtain ⟨d, ds, rfl, hlex⟩ := h
  refine ⟨ofGlyphs file type m (ofChars (d :: ds)), rfl, Text.ofGlyphs_ofChars _, ?_⟩
  rw [Glyph.ofChars_append, Glyph.ofChars_cons, List.cons_append, scan, hlex]
  dsimp only
  rw [List.take_left' (by simp), List.drop_left' (by simp), ← Glyph.ofChars_cons, Text.ofGlyphs_ofChars]

/-- What a scan of some characters gives: the signs, the end, and nothing that is no word. -/
structure Gives (ts : List Token) (last : Token) (ss : List Sign) : Prop where
  signs : signsOf ts = ss
  spaced : Spaced ts
  last_type : last.type = .eof
  words : ∀ t ∈ ts, Lexeme.IsWord t.type

theorem Gives.cons {ts : List Token} {last t : Token} {ss : List Sign} (h : Gives ts last ss)
    (ht : Lexeme.IsWord t.type) (hspaced : t.type = .whitespace → ∀ u, ts.head? = some u →
      u.type ≠ .whitespace) : Gives (t :: ts) last (t.signs ++ ss) where
  signs := by rw [signsOf_cons, h.signs]
  spaced := by
    refine List.isChain_cons.mpr ⟨?_, h.spaced⟩
    rintro u hu ⟨h1, h2⟩
    exact hspaced h1 u hu h2
  last_type := h.last_type
  words := by simpa using ⟨ht, h.words⟩

theorem countBreaks_gap {g : List Char} (h : ∀ d ∈ g, d = ' ' ∨ d = '\n') :
    Text.countBreaks (Text.ofChars g) = g.count '\n' := by
  have hcons : ∀ {b : UInt8} {t : Text}, b ≠ byte '\r' →
      Text.countBreaks (b :: t) = Text.countBreaks t + if b = byte '\n' then 1 else 0 := by
    intro b t hb
    cases t with
    | nil =>
      simp only [Text.countBreaks, beq_iff_eq, hb, Bool.or_eq_true, false_or, Nat.zero_add]
    | cons x t =>
      simp only [Text.countBreaks, beq_iff_eq, hb, if_false]
      split <;> rfl
  induction g with
  | nil => rfl
  | cons d g ih =>
    have ih := ih fun e he => h e (by simp [he])
    rcases h d (by simp) with rfl | rfl
    · rw [Text.ofChars_cons_ascii (by decide), hcons (by decide), ih, if_neg (by decide)]
      simp
    · rw [Text.ofChars_cons_ascii (by decide), hcons (by decide), ih, if_pos rfl]
      simp

theorem isSpace_gap {g : List Char} (h : ∀ d ∈ g, d = ' ' ∨ d = '\n') :
    ∀ d ∈ g, isSpace d = true := by
  intro d hd
  rcases h d hd with rfl | rfl <;> decide

/-- A gap in front of what starts with no blank is one token, or none when it is empty. -/
theorem scan_gap {file : Text} {c : LexContext} {m : Mark} {g rest : List Char} {ss : List Sign}
    (hg : ∀ d ∈ g, d = ' ' ∨ d = '\n') (hstop : Stops isSpace (ofChars rest))
    (h : ∀ m, Gives (scan file c m (ofChars rest)).1 (scan file c m (ofChars rest)).2 ss ∧
      ∀ t, (scan file c m (ofChars rest)).1.head? = some t → t.type ≠ .whitespace) :
    Gives (scan file c m (ofChars (g ++ rest))).1 (scan file c m (ofChars (g ++ rest))).2
      (List.replicate (g.count '\n') .brk ++ ss) := by
  cases g with
  | nil => exact (h m).1
  | cons d g =>
    have hspace := isSpace_gap hg
    have hcut : Cut c .whitespace (d :: g) rest :=
      ⟨d, g, rfl, c.lexeme_whitespace (hspace d (by simp)) (fun e he => hspace e (by simp [he])) hstop⟩
    obtain ⟨t, htype, htext, hscan⟩ := scan_cut file m hcut
    rw [hscan]
    have hsigns : t.signs = List.replicate ((d :: g).count '\n') .brk := by
      simp only [signs, htype, htext, countBreaks_gap hg]
    rw [← hsigns]
    have hrest := h (m.after (Text.ofChars (d :: g)))
    exact hrest.1.cons (by rw [htype]; decide) fun _ => hrest.2

/-- Only words are cut off. -/
theorem isWord_of_cut {c : LexContext} {type : TokenType} {w rest : List Char} (h : Cut c type w rest) :
    Lexeme.IsWord type := by
  obtain ⟨e, es, -, hlex⟩ := h
  refine LexContext.isWord_of_lexeme (fun b hb => ?_) hlex
  simp [ofChars] at hb

/-- Behind any gap, a token is scanned in front of what shows the other signs. -/
theorem scan_token (us : List Sign) {file : Text} {c : LexContext} {type : TokenType} {w rest g : List Char}
    {ss : List Sign} (hcut : Cut c type w rest) (hne : type ≠ .whitespace) (hstop : Stops isSpace (ofChars (w ++ rest)))
    (hsigns : ∀ t : Token, t.type = type → t.text = Text.ofChars w → t.signs = us)
    (hrest : ∀ m, Gives (scan file (c.after type) m (ofChars rest)).1 (scan file (c.after type) m (ofChars rest)).2 ss)
    (hg : ∀ d ∈ g, d = ' ' ∨ d = '\n') (m : Mark) :
    Gives (scan file c m (ofChars (g ++ (w ++ rest)))).1 (scan file c m (ofChars (g ++ (w ++ rest)))).2
      (List.replicate (g.count '\n') .brk ++ (us ++ ss)) := by
  refine scan_gap hg hstop fun m => ?_
  obtain ⟨t, rfl, htext, hscan⟩ := scan_cut file m hcut
  rw [hscan, ← hsigns t rfl htext]
  refine ⟨(hrest _).cons (isWord_of_cut hcut) fun h => absurd h hne, fun u hu => ?_⟩
  cases hu
  exact hne

/-- Characters that show signs are scanned to tokens with these signs, after any gap. -/
theorem scan_shows (file : Text) {c : LexContext} {cs : List Char} {ss : List Sign}
    (h : Shows c cs ss) (g : List Char) (hg : ∀ d ∈ g, d = ' ' ∨ d = '\n') (m : Mark) :
    Gives (scan file c m (ofChars (g ++ settled cs))).1
      (scan file c m (ofChars (g ++ settled cs))).2 (List.replicate (g.count '\n') .brk ++ ss) := by
  induction h generalizing g m with
  | done hc =>
    refine scan_gap hg (Glyph.stops_nil _) fun m => ?_
    rw [show ofChars (settled []) = [] from rfl, scan_nil hc]
    exact ⟨⟨rfl, List.isChain_nil, rfl, by simp⟩, by simp⟩
  | @space c cs ss _ ih =>
    rw [settled]
    split
    · exact ih g hg m
    · have := ih (g ++ [' ']) (by simpa [or_imp, forall_and] using hg) m
      simpa using this
  | @brk c cs ss _ ih =>
    have := ih (g ++ ['\n']) (by simpa [or_imp, forall_and] using hg) m
    rw [settled_newline]
    simpa [List.replicate_succ'] using this
  | @word c type w cs ss hfirm hspell htype _ hcut _ ih =>
    simp only [List.mem_cons, List.not_mem_nil, or_false, not_or] at htype
    obtain ⟨d, ds, hw, hd, -⟩ := Lexeme.spelling_starts hspell htype.1
    rw [settled_append hfirm]
    refine scan_token [.word type _] hcut htype.1 (by rw [hw]; exact Glyph.stops_cons.mpr hd) (fun t ht htext => ?_)
      (fun m => ih [] (by simp) m) hg m
    unfold signs
    split
    · exact absurd (ht.symm.trans ‹_›) htype.1
    · exact absurd (ht.symm.trans ‹_›) htype.2.1
    · exact absurd (ht.symm.trans ‹_›) htype.2.2
    · rw [ht, htext]
  | @line c b sp cs ss hc hb hfirm hsp _ ih =>
    have hn : '\n' ∉ ['/', '/'] ++ b := by
      simp only [List.mem_append, List.mem_cons, List.not_mem_nil, or_false, not_or]
      exact ⟨by decide, fun h => (hb _ h).1 rfl⟩
    rw [List.append_assoc, settled_append hfirm, settled_of_firm hfirm hn,
      (settled_spaces_newline hsp cs).1]
    have hcut : Cut c .lineComment (['/', '/'] ++ b ++ ['\n']) (settled cs) := by
      refine ⟨'/', ['/'] ++ b ++ ['\n'], rfl, ?_⟩
      unfold LexContext.lexeme
      rw [hc, if_neg (by decide), Lexeme.read_lineComment hb]
      simp
    rw [show ['/', '/'] ++ b ++ '\n' :: settled cs = ['/', '/'] ++ b ++ ['\n'] ++ settled cs by simp]
    refine scan_token [.line _, .brk] hcut (by decide) (Glyph.stops_cons.mpr (by decide)) (fun t ht htext => ?_)
      (fun m => ih [] (by simp) m) hg m
    simp only [signs, ht, htext]
    rw [Text.dropEndWhile_spaces (List.all_iff_forall_prop.mp rfl), Text.dropEndWhile_firm hfirm]
  | @block c b cs ss hc hbody hset _ ih =>
    have hfirm : Firm (['/', '*'] ++ b ++ ['*', '/']) :=
      firm_append (by simp [Firm, isSpace]) (by simp)
    rw [settled_append hfirm, hset]
    have hcut : Cut c .blockComment (['/', '*'] ++ b ++ ['*', '/']) (settled cs) := by
      refine ⟨'/', ['*'] ++ b ++ ['*', '/'], rfl, ?_⟩
      unfold LexContext.lexeme
      rw [hc, if_neg (by decide), Lexeme.read_blockComment hbody]
      simp
    refine scan_token [.block _] hcut (by decide) (Glyph.stops_cons.mpr (by decide)) (fun t ht htext => ?_)
      (fun m => ih [] (by simp) m) hg m
    simp only [signs, ht, htext]

end Token

end FusionKit
