import FusionKit.Proofs.Scanning
import FusionKit.Proofs.Words

/-!
# Tokens stand for themselves

Where a token ends depends on what comes after it, and whether an operator is one on what came
before. The text of a token needs neither again: read alone, up to the end of the text, it is that
one token. Operators need the parenthesis that they stand in, and the marks of a clob what is
between them.
-/
set_option autoImplicit false

namespace FusionKit

open Lexeme
open Glyph (ofChars)

namespace Lexeme

/-- A line comment at the end of a text, with or without its line break. -/
theorem read_lineComment_last {inSExpr : Bool} {b e : List Char}
    (h : ∀ d ∈ b, d ≠ '\n' ∧ d ≠ '\r') (he : e ∈ [[], ['\r'], ['\n'], ['\r', '\n']]) :
    read inSExpr (.char '/') (ofChars (['/'] ++ b ++ e)) =
      .token .lineComment (['/'] ++ b ++ e).length := by
  have hread : read inSExpr (.char '/') (ofChars (['/'] ++ b ++ e)) =
      lineComment (ofChars b ++ ofChars e) := by
    rw [List.append_assoc, Glyph.ofChars_append, Glyph.ofChars_append]
    rfl
  have hinside : ∀ d ∈ b, (d != '\n' && d != '\r') = true := by
    intro d hd
    simpa using h d hd
  have hbreak : Glyph.Stops (fun c => c != '\n' && c != '\r') (ofChars e) ∧
      lineBreak (ofChars e) = e.length := by
    simp only [List.mem_cons, List.not_mem_nil, or_false] at he
    rcases he with rfl | rfl | rfl | rfl
    · exact ⟨Glyph.stops_nil _, rfl⟩
    · exact ⟨Glyph.stops_cons.mpr (by decide), rfl⟩
    · exact ⟨Glyph.stops_cons.mpr (by decide), rfl⟩
    · exact ⟨Glyph.stops_cons.mpr (by decide), rfl⟩
  rw [hread]
  show Lexeme.token .lineComment (1 + run _ _ + lineBreak (List.drop (run _ _) _)) = _
  rw [run_exact hinside hbreak.1, List.drop_left' (by simp), hbreak.2]
  simp only [List.length_append, List.length_cons, List.length_nil]

end Lexeme

open Shows (cut_of_read cut_plain)

/-- What is spelled as a word is cut off whole where the text ends. -/
theorem Lexeme.Spelling.cut_last {c : LexContext} {type : TokenType} {w : List Char}
    (h : Spelling c.inSExpr type w) (hc : c.inClob = false)
    (ht : type ∉ [TokenType.clobOpen, .clobClose]) : Cut c type w [] := by
  by_cases hplain : type ∈ plainTypes
  · exact cut_plain h hplain hc .nil (fun _ => Glyph.stops_nil _) rfl
  -- the other words end by themselves, but for blanks and line comments
  cases h with
  | @longString b h =>
    apply cut_of_read '\'' (['\'', '\''] ++ b ++ ['\'', '\'', '\'']) hc
    rw [read_longString h]
    simp
  | @annotate name blanks h hb =>
    obtain ⟨d, ds, hsplit⟩ : ∃ d ds, name ++ blanks ++ "::".toList = d :: ds :=
      List.exists_cons_of_ne_nil (by simp)
    rw [hsplit]
    apply cut_of_read d ds hc
    exact read_annotated h hb hsplit
  | @blob b h =>
    apply cut_of_read '\x7b' (['\x7b'] ++ b ++ ['\x7d', '\x7d']) hc
    rw [read_blob h]
    simp
  | whitespace hw h =>
    obtain ⟨d, ds, rfl⟩ := List.exists_cons_of_ne_nil hw
    apply cut_of_read d ds hc
    exact read_whitespace (h d (by simp)) (fun e he => h e (by simp [he])) (Glyph.stops_nil _)
  | @lineComment b e h he =>
    apply cut_of_read '/' (['/'] ++ b ++ e) hc
    rw [Glyph.ofChars_nil, List.append_nil]
    exact read_lineComment_last h he
  | @blockComment b h =>
    apply cut_of_read '/' (['*'] ++ b ++ ['*', '/']) hc
    rw [read_blockComment h]
    simp
  | fixed h =>
    have hsingle : ∃ d, w = [d] := by
      simp only [fixedSpellings, List.mem_cons, Prod.mk.injEq, List.not_mem_nil, or_false] at h
      rcases h with ⟨-, rfl⟩ | ⟨-, rfl⟩ | ⟨-, rfl⟩ | ⟨-, rfl⟩ | ⟨-, rfl⟩ | ⟨-, rfl⟩ | ⟨-, rfl⟩ |
        ⟨-, rfl⟩ | ⟨rfl, -⟩ | ⟨rfl, -⟩
      all_goals first | exact ⟨_, rfl⟩ | exact absurd (by simp) ht
    obtain ⟨d, rfl⟩ := hsingle
    apply cut_of_read d [] hc
    exact read_fixed h (by simp)
  | numeral ht' =>
    simp only [List.mem_cons, List.not_mem_nil, or_false] at ht'
    rcases ht' with rfl | rfl | rfl <;> exact absurd (by decide) hplain
  | _ => exact absurd (by decide) hplain

/-! ## Sources of one word -/

/-- A source whose tokens have the given types and texts, and which ends after them. -/
def Text.ReadsAs (source : Text) (words : List (TokenType × Text)) : Prop :=
  ∀ file, (TokenStream.ofSource file source).tokens.map (fun t => (t.type, t.text)) = words ∧
    (TokenStream.ofSource file source).last.type = .eof

namespace Token

/-- The end of a text after a word that opens no clob. -/
theorem scan_last (file : Text) {c : LexContext} (m : Mark) {type : TokenType} {w : List Char}
    (h : Cut c type w []) (hc : (c.after type).inClob = false) :
    (scan file c m (ofChars w)).1.map (fun t => (t.type, t.text)) = [(type, Text.ofChars w)] ∧
      (scan file c m (ofChars w)).2.type = .eof := by
  obtain ⟨t, htype, htext, hscan⟩ := scan_cut file m h
  rw [List.append_nil] at hscan
  rw [hscan, Glyph.ofChars_nil, scan_nil hc]
  constructor
  · show [(t.type, t.text)] = _
    rw [htype, htext]
  · rfl

/-- A token of a scan is spelled as its type says, unless it is the fault. -/
theorem Scan.exists_spelling {c : LexContext} {owes : Bool} {ts : List Token} (h : Scan c owes ts)
    {t : Token} (ht : t ∈ ts) (hne : t.type ≠ .error) :
    ∃ b w, t.text = Text.ofChars w ∧ Spelling b t.type w := by
  induction h with
  | done => contradiction
  | fault c owes hfault =>
    obtain rfl := List.mem_singleton.mp ht
    contradiction
  | @token c owes u us hu _ _ ih =>
    rcases List.mem_cons.mp ht with rfl | ht
    · cases hc : c.inClob with
      | true =>
        obtain ⟨-, w, hw⟩ := hu.inside hc
        exact ⟨false, w, hw⟩
      | false =>
        obtain ⟨w, hw⟩ := hu.outside hc
        exact ⟨c.inSExpr, w, hw⟩
    · exact ih ht

end Token

/-- No word but the marks of a clob opens or closes one. -/
theorem LexContext.inClob_after {c : LexContext} {type : TokenType}
    (ht : type ∉ [TokenType.clobOpen, .clobClose]) (hc : c.inClob = false) :
    (c.after type).inClob = false := by
  have hclose : ∀ opening, (c.close opening).inClob = c.inClob := by
    intro opening
    unfold close
    split <;> rfl
  cases type <;> first | exact hc | exact (hclose _).trans hc | exact absurd (by simp) ht

/-- What is spelled as a word outside s-expressions is a source of this one word. -/
theorem Lexeme.Spelling.readsAs {type : TokenType} {w : List Char} (h : Spelling false type w)
    (ht : type ∉ [TokenType.clobOpen, .clobClose]) : (Text.ofChars w).ReadsAs [(type, Text.ofChars w)] := by
  intro file
  have hcut : Cut {} type w [] := Spelling.cut_last (c := {}) h rfl ht
  rw [TokenStream.ofSource_eq_scan, Text.glyphs_ofChars]
  exact Token.scan_last file {} hcut (LexContext.inClob_after ht rfl)

/-- An operator is a source of this one word after an opening parenthesis. -/
theorem Lexeme.IsOperatorWord.readsAs {w : List Char} (h : IsOperatorWord w) :
    (utf8 "(" ++ Text.ofChars w).ReadsAs
      [(.parenOpen, utf8 "("), (.operator, Text.ofChars w)] := by
  intro file
  have hopen : Cut {} .parenOpen ['('] w := cut_of_read '(' [] rfl (read_fixed (by decide) (by simp))
  have hcut : Cut (LexContext.after {} .parenOpen) .operator w [] :=
    Spelling.cut_last (.operator h rfl) rfl (by decide)
  obtain ⟨t, htype, htext, hscan⟩ := Token.scan_cut file {} hopen
  have hrest := Token.scan_last file (Mark.after {} (Text.ofChars ['('])) hcut rfl
  have hsource : utf8 "(" ++ Text.ofChars w = Text.ofChars (['('] ++ w) := by
    rw [Text.ofChars_append]
    rfl
  rw [hsource, TokenStream.ofSource_eq_scan, Text.glyphs_ofChars, hscan]
  constructor
  · show (t.type, t.text) :: _ = _
    rw [hrest.1, htype, htext]
    rfl
  · exact hrest.2

/-- What a source of one word holds is spelled as the type of that word says. -/
theorem Text.ReadsAs.spelling {type : TokenType} {t : Text} (h : t.ReadsAs [(type, t)])
    (hne : type ≠ .error) : ∃ b w, t = Text.ofChars w ∧ Spelling b type w := by
  obtain ⟨u, hu, hword⟩ : ∃ u ∈ (TokenStream.ofSource [] t).tokens, (u.type, u.text) = (type, t) := by
    rw [← List.mem_map, (h []).1]
    exact List.mem_singleton_self _
  obtain ⟨rfl, rfl⟩ := Prod.mk.inj hword
  exact (TokenStream.ofSource_scan [] u.text).exists_spelling hu hne

/-- Every token stands for itself: its text alone is read as this one token and the end, and so is
the text of an operator after an opening parenthesis. -/
theorem TokenStream.readsAs_of_mem (file source : Text) {t : Token}
    (ht : t ∈ (ofSource file source).tokens)
    (hkind : t.type ∉ [TokenType.eof, .error, .clobOpen, .clobClose]) :
    (t.type ≠ .operator → t.text.ReadsAs [(t.type, t.text)]) ∧
      (t.type = .operator →
        (utf8 "(" ++ t.text).ReadsAs [(.parenOpen, utf8 "("), (t.type, t.text)]) := by
  have hscan := ofSource_scan file source
  simp only [List.mem_cons, List.not_mem_nil, or_false, not_or] at hkind
  have hclob : t.type ∉ [TokenType.clobOpen, .clobClose] := by
    simpa using hkind.2.2
  obtain ⟨b, w, hw, hspell⟩ := hscan.exists_spelling ht hkind.2.1
  rw [hw]
  constructor
  · intro hop
    exact (hspell.elsewhere fun h => absurd h hop).readsAs hclob
  · intro hop
    rw [hop] at hspell ⊢
    cases hspell with
    | operator h => exact h.readsAs
    | numeral ht' => simp at ht'
    | fixed h => simp [fixedSpellings] at h

/-- The operator of an s-expression, in front of a numeral and of a comment. -/
theorem TokenStream.readsAs_of_mem_operator :
    (utf8 "(-").ReadsAs [(.parenOpen, utf8 "("), (.operator, utf8 "-")] ∧
      (utf8 "1").ReadsAs [(.int, utf8 "1")] := by
  have hmem : ∀ word ∈ [(TokenType.operator, utf8 "-"), (.int, utf8 "1")],
      ∃ t ∈ (ofSource [] (utf8 "(1-//2")).tokens, (t.type, t.text) = word := by
    decide +kernel
  obtain ⟨t, ht, hword⟩ := hmem (.operator, utf8 "-") (by simp)
  obtain ⟨u, hu, hone⟩ := hmem (.int, utf8 "1") (by simp)
  obtain ⟨htype, htext⟩ := Prod.mk.inj hword
  obtain ⟨utype, utext⟩ := Prod.mk.inj hone
  have hop := (readsAs_of_mem [] (utf8 "(1-//2") ht (by rw [htype]; decide)).2 htype
  have hint := (readsAs_of_mem [] (utf8 "(1-//2") hu (by rw [utype]; decide)).1
    (by rw [utype]; decide)
  rw [htype, htext] at hop
  rw [utype, utext] at hint
  exact ⟨hop, hint⟩

end FusionKit
