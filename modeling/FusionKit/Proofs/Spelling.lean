import FusionKit.Proofs.Lexemes
import FusionKit.Proofs.Numerals
import Mathlib.Data.Bool.AllAny
import Mathlib.Tactic.Common

/-!
# How tokens are spelled

The lexemes of the language, said without the functions that look for them. A spelling belongs to
one token type and speaks of the characters of the token alone; what may come after a token, so
that it ends where it does, is said for each type by the lemma that reads it back.
-/
set_option autoImplicit false

namespace FusionKit

namespace Lexeme

open Glyph (ofChars Stops)

theorem run_cons {p : Char → Bool} {c : Char} (h : p c = true) (gs : List Glyph) :
    run p (.char c :: gs) = run p gs + 1 := by
  simp [run, Glyph.isCharWith, h]

theorem run_append {p : Char → Bool} {w : List Char} (h : ∀ c ∈ w, p c = true) (rest : List Glyph) :
    run p (ofChars w ++ rest) = w.length + run p rest := by
  induction w with
  | nil => simp
  | cons c w ih =>
    have ih := ih fun d hd => h d (by simp [hd])
    rw [Glyph.ofChars_cons, List.cons_append, run_cons (h c (by simp)), ih, List.length_cons]
    omega

theorem run_of_stops {p : Char → Bool} {gs : List Glyph} (h : Stops p gs) : run p gs = 0 := by
  cases gs with
  | nil => rfl
  | cons g gs =>
    cases g with
    | stray b => rfl
    | char c =>
      have := Glyph.stops_cons.mp h
      simp [run, Glyph.isCharWith, this]

theorem run_exact {p : Char → Bool} {w : List Char} {rest : List Glyph}
    (h : ∀ c ∈ w, p c = true) (hr : Stops p rest) : run p (ofChars w ++ rest) = w.length := by
  rw [run_append h, run_of_stops hr, Nat.add_zero]

/-- A run splits its input into characters that satisfy the predicate and a rest that does not go
on with one. -/
theorem run_split (p : Char → Bool) (gs : List Glyph) :
    ∃ w rest, gs = ofChars w ++ rest ∧ w.length = run p gs ∧ (∀ c ∈ w, p c = true) ∧
      Stops p rest := by
  induction gs with
  | nil => exact ⟨[], [], by simp [run, Stops]⟩
  | cons g gs ih =>
    by_cases hg : g.isCharWith p = true
    · cases g with
      | stray b => simp [Glyph.isCharWith] at hg
      | char c =>
        simp only [Glyph.isCharWith] at hg
        obtain ⟨w, rest, hw, hl, hp, hr⟩ := ih
        refine ⟨c :: w, rest, by simp [hw], ?_, by simpa [hg] using hp, hr⟩
        rw [run_cons hg, List.length_cons, hl]
    · refine ⟨[], g :: gs, rfl, ?_, by simp, ?_⟩
      · simp [run, hg]
      · intro c hc
        simp only [List.head?_cons, Option.some.injEq] at hc
        subst hc
        simpa [Glyph.isCharWith] using hg

/-! ## Delimited texts -/

/-- What may stand between two quotes on one line. -/
inductive QuoteBody (quote : Char) : List Char → Prop where
  | nil : QuoteBody quote []
  | plain {c : Char} {w : List Char} (hq : c ≠ quote) (hn : c ≠ '\n') (hr : c ≠ '\r')
      (hb : c ≠ '\\') (h : QuoteBody quote w) : QuoteBody quote (c :: w)
  | escaped (c : Char) {w : List Char} (h : QuoteBody quote w) : QuoteBody quote ('\\' :: c :: w)

/-- What may stand between three single quotes and the next three. -/
inductive LongBody : List Char → Prop where
  | nil : LongBody []
  | plain {c : Char} {w : List Char} (hb : c ≠ '\\')
      (hq : ¬ ['\'', '\'', '\''] <+: c :: (w ++ ['\'', '\'', '\''])) (h : LongBody w) :
      LongBody (c :: w)
  | escaped (c : Char) {w : List Char} (h : LongBody w) : LongBody ('\\' :: c :: w)

/-- What may stand between the marks of a block comment. -/
inductive CommentBody : List Char → Prop where
  | nil : CommentBody []
  | cons {c : Char} {w : List Char} (hc : c = '*' → w.head? ≠ some '/') (h : CommentBody w) :
      CommentBody (c :: w)

theorem quoteEnd_closing (q : Char) (gs : List Glyph) :
    quoteEnd q (.char q :: gs) = ⟨true, 1⟩ := by
  rw [quoteEnd.eq_def]
  simp

theorem quoteEnd_plain {q c : Char} (hq : c ≠ q) (hn : c ≠ '\n') (hr : c ≠ '\r') (hb : c ≠ '\\')
    (gs : List Glyph) : quoteEnd q (.char c :: gs) = (quoteEnd q gs).further 1 := by
  rw [quoteEnd.eq_def]
  simp [hq, hn, hr, hb]

theorem quoteEnd_escaped {q : Char} (hq : q ≠ '\\') (c : Char) (gs : List Glyph) :
    quoteEnd q (.char '\\' :: .char c :: gs) = (quoteEnd q gs).further 2 := by
  rw [quoteEnd.eq_def]
  simp [hq.symm]

theorem quoteEnd_complete {q : Char} {w : List Char} (h : QuoteBody q w) (hq : q ≠ '\\')
    (rest : List Glyph) :
    quoteEnd q (ofChars w ++ .char q :: rest) = ⟨true, w.length + 1⟩ := by
  induction h with
  | nil => exact quoteEnd_closing q rest
  | plain h1 h2 h3 h4 _ ih =>
    rw [Glyph.ofChars_cons, List.cons_append, quoteEnd_plain h1 h2 h3 h4, ih]
    rfl
  | escaped c _ ih =>
    simp only [Glyph.ofChars_cons, List.cons_append]
    rw [quoteEnd_escaped hq, ih]
    rfl

theorem further_eq_closed {e : Extent} {k n : Nat} (h : e.further k = ⟨true, n⟩) :
    e = ⟨true, e.count⟩ ∧ n = e.count + k := by
  cases e
  simp only [Extent.further, Extent.mk.injEq] at h
  obtain ⟨rfl, rfl⟩ := h
  exact ⟨rfl, rfl⟩

theorem quoteEnd_sound {q : Char} {gs : List Glyph} {n : Nat} (h : quoteEnd q gs = ⟨true, n⟩) :
    ∃ w rest, gs = ofChars w ++ .char q :: rest ∧ n = w.length + 1 ∧ QuoteBody q w := by
  fun_induction quoteEnd q gs generalizing n with
  | case1 c gs hc =>
    simp only [Extent.mk.injEq, true_and] at h
    obtain rfl := beq_iff_eq.mp hc
    exact ⟨[], gs, rfl, h.symm, .nil⟩
  | case2 => simp at h
  | case3 c hq hn hb d ds ih =>
    obtain ⟨hc, rfl⟩ := further_eq_closed h
    obtain ⟨w, rest, rfl, hw, hbody⟩ := ih hc
    obtain rfl := beq_iff_eq.mp hb
    exact ⟨'\\' :: d :: w, rest, rfl, by simp [hw], .escaped d hbody⟩
  | case4 => simp at h
  | case5 c gs hq hn hb ih =>
    obtain ⟨hc, rfl⟩ := further_eq_closed h
    obtain ⟨w, rest, rfl, hw, hbody⟩ := ih hc
    simp only [beq_iff_eq, Bool.or_eq_true, not_or] at hq hn hb
    exact ⟨c :: w, rest, rfl, by simp [hw], .plain hq hn.1 hn.2 hb hbody⟩
  | case6 => simp at h

theorem longEnd_closing (gs : List Glyph) :
    longEnd (.char '\'' :: .char '\'' :: .char '\'' :: gs) = ⟨true, 3⟩ := by
  rw [longEnd.eq_def]
  rfl

theorem longEnd_escaped (c : Char) (gs : List Glyph) :
    longEnd (.char '\\' :: .char c :: gs) = (longEnd gs).further 2 := by
  rw [longEnd.eq_def]
  rfl

theorem longEnd_plain {c : Char} {gs : List Glyph} (hb : c ≠ '\\')
    (hq : ∀ hs, .char c :: gs ≠ .char '\'' :: .char '\'' :: .char '\'' :: hs) :
    longEnd (.char c :: gs) = (longEnd gs).further 1 := by
  rw [longEnd.eq_def]
  split
  · rename_i heq
    exact absurd heq (hq _)
  · simp_all
  · simp_all
  · rename_i heq
    cases heq
    rfl
  · simp_all

theorem longEnd_complete {w : List Char} (h : LongBody w) (rest : List Glyph) :
    longEnd (ofChars (w ++ ['\'', '\'', '\'']) ++ rest) = ⟨true, w.length + 3⟩ := by
  induction h with
  | nil => exact longEnd_closing rest
  | @plain c w hb hq _ ih =>
    rw [List.cons_append, Glyph.ofChars_cons, List.cons_append, longEnd_plain hb, ih]
    · rfl
    · intro hs heq
      apply hq
      match w with
      | [] =>
        simp at heq
        simp [heq.1]
      | [d] =>
        simp at heq
        simp [heq.1, heq.2.1]
      | d :: e :: w =>
        simp at heq
        simp [heq.1, heq.2.1, heq.2.2.1]
  | escaped c _ ih =>
    simp only [List.cons_append, Glyph.ofChars_cons]
    rw [longEnd_escaped, ih]
    rfl

theorem longEnd_sound {gs : List Glyph} {n : Nat} (h : longEnd gs = ⟨true, n⟩) :
    ∃ w rest, gs = ofChars (w ++ ['\'', '\'', '\'']) ++ rest ∧ n = w.length + 3 ∧ LongBody w := by
  fun_induction longEnd gs generalizing n with
  | case1 gs =>
    simp only [Extent.mk.injEq, true_and] at h
    exact ⟨[], gs, rfl, h.symm, .nil⟩
  | case2 d gs ih =>
    obtain ⟨hc, rfl⟩ := further_eq_closed h
    obtain ⟨w, rest, rfl, hw, hbody⟩ := ih hc
    exact ⟨'\\' :: d :: w, rest, rfl, by rw [hw]; rfl, .escaped d hbody⟩
  | case3 => simp at h
  | case4 c gs hnot hesc hb ih =>
    obtain ⟨hc, rfl⟩ := further_eq_closed h
    obtain ⟨w, rest, rfl, hw, hbody⟩ := ih hc
    refine ⟨c :: w, rest, rfl, by rw [hw]; rfl, .plain hb ?_ hbody⟩
    · rintro ⟨t, ht⟩
      have hq : ofChars (c :: (w ++ ['\'', '\'', '\''])) =
          ofChars (['\'', '\'', '\''] ++ t) := congrArg ofChars ht.symm
      simp only [Glyph.ofChars_cons, List.cons_append, List.nil_append, List.cons.injEq,
        Glyph.char.injEq] at hq
      refine hnot (ofChars t ++ rest) ?_ hq.1
      rw [hq.2]
      rfl
  | case5 => simp at h

theorem commentEnd_closing (gs : List Glyph) :
    commentEnd (.char '*' :: .char '/' :: gs) = ⟨true, 2⟩ := by
  rw [commentEnd.eq_def]
  rfl

theorem commentEnd_plain {c : Char} {gs : List Glyph} (hc : c = '*' → gs.head? ≠ some (.char '/')) :
    commentEnd (.char c :: gs) = (commentEnd gs).further 1 := by
  rw [commentEnd.eq_def]
  split
  · rename_i heq
    cases heq
    exact absurd rfl (hc rfl)
  · rename_i heq
    cases heq
    rfl
  · simp_all

theorem commentEnd_complete {w : List Char} (h : CommentBody w) (rest : List Glyph) :
    commentEnd (ofChars (w ++ ['*', '/']) ++ rest) = ⟨true, w.length + 2⟩ := by
  induction h with
  | nil => exact commentEnd_closing rest
  | @cons c w hc _ ih =>
    rw [List.cons_append, Glyph.ofChars_cons, List.cons_append, commentEnd_plain, ih]
    · rfl
    · intro hstar
      match w, hc hstar with
      | [], _ => simp
      | d :: w, hd => simpa using hd

theorem commentEnd_sound {gs : List Glyph} {n : Nat} (h : commentEnd gs = ⟨true, n⟩) :
    ∃ w rest, gs = ofChars (w ++ ['*', '/']) ++ rest ∧ n = w.length + 2 ∧ CommentBody w := by
  fun_induction commentEnd gs generalizing n with
  | case1 gs =>
    simp only [Extent.mk.injEq, true_and] at h
    exact ⟨[], gs, rfl, h.symm, .nil⟩
  | case2 c gs hnot ih =>
    obtain ⟨hc, rfl⟩ := further_eq_closed h
    obtain ⟨w, rest, rfl, hw, hbody⟩ := ih hc
    refine ⟨c :: w, rest, rfl, by rw [hw]; rfl, .cons ?_ hbody⟩
    rintro rfl hd
    match w, hd with
    | d :: w, hd =>
      obtain rfl : d = '/' := by simpa using hd
      exact hnot (ofChars (w ++ ['*', '/']) ++ rest) rfl rfl
  | case3 => simp at h

/-! ## Annotation marks -/

theorem annotationMark_complete {blanks : List Char} (h : ∀ c ∈ blanks, isSpace c = true)
    (rest : List Glyph) :
    annotationMark (ofChars (blanks ++ [':', ':']) ++ rest) = blanks.length + 2 := by
  have hrun : run isSpace (ofChars (blanks ++ [':', ':']) ++ rest) = blanks.length := by
    rw [Glyph.ofChars_append, List.append_assoc]
    exact run_exact h (Glyph.stops_cons.mpr (by decide))
  unfold annotationMark
  dsimp only
  rw [hrun, Glyph.ofChars_append, List.append_assoc, List.drop_left' (by simp)]
  rfl

theorem annotationMark_sound {gs : List Glyph} (h : annotationMark gs ≠ 0) :
    ∃ blanks rest, gs = ofChars (blanks ++ [':', ':']) ++ rest ∧
      annotationMark gs = blanks.length + 2 ∧ ∀ c ∈ blanks, isSpace c = true := by
  obtain ⟨blanks, rest, rfl, hl, hb, hr⟩ := run_split isSpace gs
  unfold annotationMark at h
  dsimp only at h
  rw [← hl, List.drop_left' (by simp)] at h
  split at h
  · rename_i rs
    refine ⟨blanks, rs, by simp, ?_, hb⟩
    have := annotationMark_complete hb rs
    rwa [Glyph.ofChars_append, List.append_assoc] at this
  · exact absurd rfl h

/-! ## Spellings -/

/-- The names that are no symbols. -/
def keywords : List (List Char) := ["null".toList, "true".toList, "false".toList]

/-- An identifier that is no keyword. -/
structure IsName (w : List Char) : Prop where
  starts : ∃ c cs, w = c :: cs ∧ isIdentStart c = true ∧ ∀ d ∈ cs, isIdent d = true
  free : w ∉ keywords

/-- A text between single quotes. -/
def IsQuoted (w : List Char) : Prop := ∃ b, QuoteBody '\'' b ∧ w = '\'' :: (b ++ ['\''])

/-- The spellings of a null: alone, or with the name of a type. -/
def IsNull (w : List Char) : Prop :=
  w = "null".toList ∨ ∃ t ∈ nullTypes, w = "null.".toList ++ t.toList

/-- An operator: it starts no comment and holds none. -/
def IsOperatorWord (w : List Char) : Prop :=
  ∃ c cs, w = c :: cs ∧ isOperator c = true ∧ operatorRun (ofChars cs) = cs.length ∧
    (c = '/' → cs.head? ≠ some '/' ∧ cs.head? ≠ some '*')

/-- The tokens of a fixed spelling. -/
def fixedSpellings : List (TokenType × List Char) :=
  [(.parenOpen, ['(']), (.parenClose, [')']), (.bracketOpen, ['[']), (.bracketClose, [']']),
    (.braceOpen, ['\x7b']), (.braceClose, ['\x7d']), (.colon, [':']), (.comma, [',']),
    (.clobOpen, ['\x7b', '\x7b']), (.clobClose, ['\x7d', '\x7d'])]

/-- The spellings of a token type, directly inside an s-expression or not. -/
inductive Spelling (inSExpr : Bool) : TokenType → List Char → Prop where
  | numeral {type : TokenType} {w : List Char} (ht : type ∈ [.int, .real, .timestamp])
      (h : Numeral.longest? (ofChars w) = some (type, w.length)) : Spelling inSExpr type w
  | symbol {w : List Char} (h : IsName w) : Spelling inSExpr .symbol w
  | null {w : List Char} (h : IsNull w) : Spelling inSExpr .null w
  | bool {w : List Char} (h : w = "true".toList ∨ w = "false".toList) : Spelling inSExpr .bool w
  | quotedSymbol {w : List Char} (h : IsQuoted w) : Spelling inSExpr .quotedSymbol w
  | operator {w : List Char} (h : IsOperatorWord w) (hin : inSExpr = true) : Spelling inSExpr .operator w
  | string {b : List Char} (h : QuoteBody '"' b) : Spelling inSExpr .string ('"' :: (b ++ ['"']))
  | longString {b : List Char} (h : LongBody b) :
      Spelling inSExpr .longString ("'''".toList ++ b ++ "'''".toList)
  | annotate {name blanks : List Char} (h : IsName name ∨ IsQuoted name)
      (hb : ∀ c ∈ blanks, isSpace c = true) : Spelling inSExpr .annotate (name ++ blanks ++ "::".toList)
  | blob {b : List Char} (h : ∀ c ∈ b, (isSpace c || isBase64 c) = true) :
      Spelling inSExpr .blob ("\x7b\x7b".toList ++ b ++ "\x7d\x7d".toList)
  | whitespace {w : List Char} (hw : w ≠ []) (h : ∀ c ∈ w, isSpace c = true) :
      Spelling inSExpr .whitespace w
  | lineComment {b e : List Char} (h : ∀ c ∈ b, c ≠ '\n' ∧ c ≠ '\r')
      (he : e ∈ [[], ['\r'], ['\n'], ['\r', '\n']]) : Spelling inSExpr .lineComment ("//".toList ++ b ++ e)
  | blockComment {b : List Char} (h : CommentBody b) :
      Spelling inSExpr .blockComment ("/*".toList ++ b ++ "*/".toList)
  | fixed {type : TokenType} {w : List Char} (h : (type, w) ∈ fixedSpellings) : Spelling inSExpr type w

/-- Only operators are spelled inside s-expressions and nowhere else. -/
theorem Spelling.elsewhere {b b' : Bool} {type : TokenType} {w : List Char}
    (h : Spelling b type w) (hop : type = .operator → b' = true) : Spelling b' type w := by
  cases h with
  | numeral ht h => exact .numeral ht h
  | symbol h => exact .symbol h
  | null h => exact .null h
  | bool h => exact .bool h
  | quotedSymbol h => exact .quotedSymbol h
  | operator h => exact .operator h (hop rfl)
  | string h => exact .string h
  | longString h => exact .longString h
  | annotate h hb => exact .annotate h hb
  | blob h => exact .blob h
  | whitespace hw h => exact .whitespace hw h
  | lineComment h he => exact .lineComment h he
  | blockComment h => exact .blockComment h
  | fixed h => exact .fixed h

theorem spelling_clobOpen {inSExpr : Bool} {w : List Char} (h : Spelling inSExpr .clobOpen w) :
    w = ['\x7b', '\x7b'] := by
  cases h with
  | numeral ht => simp at ht
  | fixed h => simpa [fixedSpellings] using h

theorem ofChars_eq_utf8 {w : List Char} {s : String} :
    Text.ofChars w = utf8 s ↔ w = s.toList := by
  constructor
  · intro h
    have := congrArg Text.glyphs h
    rw [Text.glyphs_ofChars, show utf8 s = Text.ofChars s.toList from rfl, Text.glyphs_ofChars] at this
    exact Glyph.ofChars_injective this
  · rintro rfl
    rfl

/-- The glyphs `g :: gs` start with a spelling of `1 + more` characters. -/
def Begins (inSExpr : Bool) (type : TokenType) (more : Nat) (g : Glyph) (gs : List Glyph) : Prop :=
  ∃ w rest, g :: gs = ofChars w ++ rest ∧ w.length = more + 1 ∧ Spelling inSExpr type w

section Sound

variable {inSExpr : Bool} {type : TokenType} {more : Nat} {g : Glyph} {gs : List Glyph}

theorem symbolOr_sound {plain : TokenType} {w : List Char} {k : Nat} {rest : List Glyph}
    (hsplit : g :: gs = ofChars w ++ rest) (hw : w.length = k + 1) (hname : IsName w ∨ IsQuoted w)
    (hplain : Spelling inSExpr plain w) (h : symbolOr plain k rest = .token type more) :
    Begins inSExpr type more g gs := by
  unfold symbolOr at h
  dsimp only at h
  split_ifs at h with hm
  · cases h
    exact ⟨w, rest, hsplit, hw, hplain⟩
  · cases h
    obtain ⟨blanks, rest', hrest, hlen, hb⟩ := annotationMark_sound hm
    refine ⟨w ++ blanks ++ "::".toList, rest', ?_, ?_, .annotate hname hb⟩
    · rw [hsplit, hrest]
      simp [Glyph.ofChars_append]
    · rw [hlen]
      simp [hw]
      omega

theorem keyword_sound {plain : TokenType} {w : List Char} {k : Nat} {rest : List Glyph}
    (hsplit : g :: gs = ofChars w ++ rest) (hw : w.length = k + 1) (hplain : Spelling inSExpr plain w)
    (h : keyword plain k g gs = .token type more) : Begins inSExpr type more g gs := by
  unfold keyword at h
  split_ifs at h
  cases h
  exact ⟨w, rest, hsplit, hw, hplain⟩

/-- A null is typed if a point follows it, and the name behind the point is its type. -/
theorem nullLiteral_dotted {w : List Char} {rest : List Glyph}
    (hdrop : gs.drop 3 = .char '.' :: (ofChars w ++ rest)) (hw : ∀ c ∈ w, isIdent c = true)
    (hrest : Stops isIdent rest) :
    nullLiteral g gs =
      if nullTypes.any (utf8 · == Text.ofChars w) then keyword .null (w.length + 4) g gs
      else .fault 0 (w.length + 5) (.nullType (Text.ofChars w)) := by
  unfold nullLiteral
  rw [hdrop]
  simp only [run_exact hw hrest, List.take_left' (Glyph.length_ofChars w), Text.ofGlyphs_ofChars]

theorem nullLiteral_undotted (hdrop : ∀ rest, gs.drop 3 ≠ .char '.' :: rest) :
    nullLiteral g gs = keyword .null 3 g gs := by
  unfold nullLiteral
  split
  · exact absurd ‹_› (hdrop _)
  · rfl

theorem nullLiteral_sound {rest : List Glyph} (hsplit : g :: gs = ofChars "null".toList ++ rest)
    (h : nullLiteral g gs = .token type more) : Begins inSExpr type more g gs := by
  have hdrop : gs.drop 3 = rest := (Glyph.take_drop_of_word hsplit rfl).2
  by_cases hdot : ∃ tail, rest = .char '.' :: tail
  · obtain ⟨tail, rfl⟩ := hdot
    obtain ⟨w, rs, rfl, -, hident, hstop⟩ := run_split isIdent tail
    rw [nullLiteral_dotted hdrop hident hstop] at h
    split_ifs at h with hany
    · obtain ⟨t, ht, hw⟩ := List.any_eq_true.mp hany
      have hw := ofChars_eq_utf8.mp (beq_iff_eq.mp hw).symm
      have hnull : g :: gs = ofChars ("null.".toList ++ w) ++ rs := by
        rw [hsplit]
        simp
      refine keyword_sound hnull ?_ (.null (.inr ⟨t, ht, ?_⟩)) h
      · simp
      · rw [hw]
  · rw [nullLiteral_undotted fun tail htail => hdot ⟨tail, hdrop.symm.trans htail⟩] at h
    exact keyword_sound hsplit rfl (.null (.inl rfl)) h

/-- What an identifier is depends on its name alone, but for an annotation mark after it. -/
theorem identifier_exact {c : Char} {cs : List Char} {rest : List Glyph} (hcs : ∀ d ∈ cs, isIdent d = true)
    (hrest : Stops isIdent rest) :
    identifier (.char c) (ofChars cs ++ rest) =
      if c :: cs = "null".toList then nullLiteral (.char c) (ofChars cs ++ rest)
      else if c :: cs = "true".toList ∨ c :: cs = "false".toList then
        keyword .bool cs.length (.char c) (ofChars cs ++ rest)
      else symbolOr .symbol cs.length rest := by
  unfold identifier
  dsimp only
  rw [run_exact hcs hrest, List.take_left' (by simp), List.drop_left' (by simp),
    ← Glyph.ofChars_cons, Text.ofGlyphs_ofChars]
  simp only [beq_iff_eq, Bool.or_eq_true, ofChars_eq_utf8]

theorem identifier_sound (hg : ∃ c, g = .char c ∧ isIdentStart c = true)
    (h : identifier g gs = .token type more) : Begins inSExpr type more g gs := by
  obtain ⟨c, rfl, hc⟩ := hg
  obtain ⟨w, rest, rfl, -, hident, hstop⟩ := run_split isIdent gs
  have hsplit : .char c :: (ofChars w ++ rest) = ofChars (c :: w) ++ rest := rfl
  rw [identifier_exact hident hstop] at h
  split_ifs at h with hnull hbool
  · rw [hnull] at hsplit
    exact nullLiteral_sound hsplit h
  · exact keyword_sound hsplit rfl (.bool hbool) h
  · have hname : IsName (c :: w) :=
      ⟨⟨c, w, rfl, hc, hident⟩, by
        simp only [keywords, List.mem_cons, List.not_mem_nil, or_false, not_or]
        exact ⟨hnull, not_or.mp hbool⟩⟩
    exact symbolOr_sound hsplit rfl (.inl hname) (.symbol hname) h

theorem numeral_sound (h : numeral inSExpr (g :: gs) = .token type more) :
    Begins inSExpr type more g gs := by
  unfold numeral at h
  cases hlong : Numeral.longest? (g :: gs) with
  | none => simp [hlong] at h
  | some found =>
    obtain ⟨kind, n⟩ := found
    simp only [hlong] at h
    have hn : kind = type ∧ n - 1 = more := by
      split at h
      · simpa using h
      · split_ifs at h
        simpa using h
    obtain ⟨rfl, rfl⟩ := hn
    have htake := Numeral.longest?_take hlong
    have hle := Numeral.longest?_le hlong
    obtain ⟨w, hw⟩ := Numeral.ofChars_of_longest? hlong
    have hlen : w.length = n := by
      have := congrArg List.length hw
      rw [List.length_take, Glyph.length_ofChars] at this
      omega
    obtain ⟨htype, hpos⟩ := Numeral.longest?_spec hlong
    refine ⟨w, (g :: gs).drop n, ?_, by omega, .numeral htype ?_⟩
    · rw [← hw, List.take_append_drop]
    · rw [← hw, htake, hlen]

theorem operatorRun_split (gs : List Glyph) :
    ∃ w rest, gs = ofChars w ++ rest ∧ w.length = operatorRun gs ∧
      operatorRun (ofChars w) = w.length := by
  fun_induction operatorRun gs with
  | case1 gs => exact ⟨[], _, rfl, rfl, rfl⟩
  | case2 gs => exact ⟨[], _, rfl, rfl, rfl⟩
  | case3 c gs h1 h2 hc ih =>
    obtain ⟨w, rest, rfl, hl, hw⟩ := ih
    refine ⟨c :: w, rest, rfl, by rw [List.length_cons, hl], ?_⟩
    rw [Glyph.ofChars_cons, operatorRun.eq_def]
    split
    · rename_i heq
      simp only [List.cons.injEq, Glyph.char.injEq] at heq
      exact (h1 _ (by rw [heq.2]; rfl) heq.1).elim
    · rename_i heq
      simp only [List.cons.injEq, Glyph.char.injEq] at heq
      exact (h2 _ (by rw [heq.2]; rfl) heq.1).elim
    · rename_i heq
      cases heq
      rw [if_pos hc, hw, List.length_cons]
    · simp_all
  | case4 c gs h1 h2 hc => exact ⟨[], _, rfl, rfl, rfl⟩
  | case5 gs h => exact ⟨[], _, rfl, rfl, rfl⟩

theorem blobBody?_split {gs body : List Glyph} (h : blobBody? gs = some body) :
    ∃ rest, gs = body ++ .char '\x7d' :: .char '\x7d' :: rest := by
  fun_induction blobBody? gs generalizing body with
  | case1 => simp at h
  | case2 gs =>
    cases h
    exact ⟨gs, rfl⟩
  | case3 g gs hne ih =>
    obtain ⟨b, hb, rfl⟩ := Option.map_eq_some_iff.mp h
    obtain ⟨rest, rfl⟩ := ih hb
    exact ⟨rest, rfl⟩

/-- Glyphs that all are shown as characters of a class without U+FFFD are characters. -/
theorem exists_chars {p : Char → Bool} (hp : p '\ufffd' = false) {gs : List Glyph}
    (h : ∀ g ∈ gs, p g.shown = true) : ∃ w, gs = ofChars w ∧ ∀ c ∈ w, p c = true := by
  induction gs with
  | nil => exact ⟨[], rfl, by simp⟩
  | cons g gs ih =>
    obtain ⟨w, rfl, hw⟩ := ih fun g hg => h g (by simp [hg])
    have hg := h g (by simp)
    cases g with
    | stray b => simp [Glyph.shown, hp] at hg
    | char c => exact ⟨c :: w, rfl, by simpa using ⟨hg, hw⟩⟩

/-- The body of a blob without another character is made of blanks and digits, and the closing marks
follow it. -/
theorem blobBody?_chars {gs body : List Glyph} (h : blobBody? gs = some body)
    (hfind : body.find? (fun g => !(isSpace g.shown || isBase64 g.shown)) = none) :
    ∃ b rest, body = ofChars b ∧ gs = ofChars (b ++ "\x7d\x7d".toList) ++ rest ∧
      ∀ c ∈ b, (isSpace c || isBase64 c) = true := by
  have hall : ∀ g ∈ body, (isSpace g.shown || isBase64 g.shown) = true := by
    intro g hg
    have hg := List.find?_eq_none.mp hfind g hg
    simpa only [Bool.not_eq_true', Bool.not_eq_false] using hg
  obtain ⟨b, rfl, hb⟩ := exists_chars (p := fun c => isSpace c || isBase64 c) (by decide) hall
  obtain ⟨rest, rfl⟩ := blobBody?_split h
  refine ⟨b, rest, rfl, ?_, hb⟩
  rw [Glyph.ofChars_append, List.append_assoc]
  rfl

theorem lob_sound (h : lob gs = .token type more) :
    (type = .clobOpen ∧ more = 1 ∧ startsString (gs.drop (run isSpace gs)) = true) ∨
      ∃ b rest, gs = ofChars (b ++ "\x7d\x7d".toList) ++ rest ∧ type = .blob ∧
        more = b.length + 3 ∧ ∀ c ∈ b, (isSpace c || isBase64 c) = true := by
  unfold lob at h
  split_ifs at h with hs
  · cases h
    exact .inl ⟨rfl, rfl, hs⟩
  · split at h
    · contradiction
    · rename_i body hbody
      split at h
      · contradiction
      · rename_i hfind
        cases h
        obtain ⟨b, rest, rfl, hgs, hb⟩ := blobBody?_chars hbody hfind
        exact .inr ⟨b, rest, hgs, rfl, by simp, hb⟩

theorem delimited_sound {plain : TokenType} {before : Nat} {e : Extent} {cause : LexFault}
    (h : delimited plain before e cause = .token type more) :
    ∃ n, e = ⟨true, n⟩ ∧ type = plain ∧ more = before + n - 1 := by
  unfold delimited at h
  split_ifs at h with hc
  cases h
  exact ⟨e.count, by rw [← hc], rfl, rfl⟩

theorem quotedSymbol_sound (h : quotedSymbol gs = .token type more) :
    Begins inSExpr type more (.char '\'') gs := by
  unfold quotedSymbol at h
  dsimp only at h
  split_ifs at h with hc
  have he : quoteEnd '\'' gs = ⟨true, (quoteEnd '\'' gs).count⟩ := by rw [← hc]
  obtain ⟨b, rest, hgs, hn, hb⟩ := quoteEnd_sound he
  have hquoted : IsQuoted ('\'' :: (b ++ ['\''])) := ⟨b, hb, rfl⟩
  have hsplit : gs = ofChars (b ++ ['\'']) ++ rest := by
    rw [hgs]
    simp
  have hdrop : gs.drop (quoteEnd '\'' gs).count = rest := by
    rw [hn]
    conv_lhs => rw [hsplit]
    exact List.drop_left' (by simp)
  rw [hdrop, hn] at h
  refine symbolOr_sound (w := '\'' :: (b ++ ['\''])) (by rw [hsplit]; rfl) (by simp) (.inr hquoted)
    (.quotedSymbol hquoted) h

theorem string_sound (h : string gs = .token type more) :
    type = .string ∧ Begins inSExpr type more (.char '"') gs := by
  obtain ⟨n, he, rfl, rfl⟩ := delimited_sound h
  obtain ⟨b, rest, rfl, rfl, hb⟩ := quoteEnd_sound he
  exact ⟨rfl, '"' :: (b ++ ['"']), rest, by simp, by simp, .string hb⟩

theorem longString_sound (h : longString gs = .token type more) :
    type = .longString ∧ Begins inSExpr type more (.char '\'') (.char '\'' :: .char '\'' :: gs) := by
  obtain ⟨n, he, rfl, rfl⟩ := delimited_sound h
  obtain ⟨b, rest, rfl, rfl, hb⟩ := longEnd_sound he
  exact ⟨rfl, "'''".toList ++ b ++ "'''".toList, rest, by simp, by simp; omega, .longString hb⟩

theorem lineBreak_split (gs : List Glyph) :
    ∃ e rest, gs = ofChars e ++ rest ∧ e.length = lineBreak gs ∧
      e ∈ [[], ['\r'], ['\n'], ['\r', '\n']] := by
  unfold lineBreak
  split
  · exact ⟨['\r', '\n'], _, rfl, rfl, by simp⟩
  · exact ⟨['\r'], _, rfl, rfl, by simp⟩
  · exact ⟨['\n'], _, rfl, rfl, by simp⟩
  · exact ⟨[], _, rfl, rfl, by simp⟩

theorem lineComment_sound (h : lineComment gs = .token type more) :
    Begins inSExpr type more (.char '/') (.char '/' :: gs) := by
  obtain ⟨b, rest, rfl, hl, hb, -⟩ := run_split (fun c => c != '\n' && c != '\r') gs
  unfold lineComment at h
  rw [← hl] at h
  dsimp only at h
  rw [List.drop_left' (by simp)] at h
  obtain ⟨e, rest, rfl, he, hmem⟩ := lineBreak_split rest
  rw [← he] at h
  cases h
  refine ⟨"//".toList ++ b ++ e, rest, by simp, by simp; omega, .lineComment ?_ hmem⟩
  intro c hc
  simpa using hb c hc

theorem single_sound {c : Char}
    (hslash : c = '/' → gs.head? ≠ some (.char '/') ∧ gs.head? ≠ some (.char '*'))
    (h : single inSExpr c gs = .token type more) : Begins inSExpr type more (.char c) gs := by
  unfold single at h
  split at h
  case h_9 => exact (string_sound h).2
  case h_10 => exact quotedSymbol_sound h
  case h_11 =>
    split_ifs at h with hnum hid hop hin
    · exact numeral_sound h
    · exact identifier_sound ⟨_, rfl, hid⟩ h
    · cases h
      obtain ⟨w, rest, rfl, hl, hw⟩ := operatorRun_split gs
      refine ⟨c :: w, rest, rfl, by simp [hl], .operator ⟨c, w, rfl, hop, hw, ?_⟩ hin⟩
      intro hc
      have := hslash hc
      match w, this with
      | [], _ => simp
      | d :: w, this => simpa using this
  all_goals
    cases h
    exact ⟨[_], gs, rfl, rfl, .fixed (by simp [fixedSpellings])⟩

/-- A token read outside of clobs is spelled as its type says; a clob only opens before a
string. -/
theorem read_sound (h : read inSExpr g gs = .token type more) :
    Begins inSExpr type more g gs ∧
      (type = .clobOpen → startsString ((gs.drop 1).drop (run isSpace (gs.drop 1))) = true) := by
  unfold read at h
  split at h
  · contradiction
  · rename_i c
    split_ifs at h with hspace
    · cases h
      obtain ⟨w, rest, rfl, hl, hw, -⟩ := run_split isSpace gs
      exact ⟨⟨c :: w, rest, rfl, by simp [hl], .whitespace (by simp) (by simpa using ⟨hspace, hw⟩)⟩,
        by simp⟩
    · split at h
      · rename_i rest
        refine ⟨lineComment_sound h, ?_⟩
        cases h
        simp
      · rename_i rest
        obtain ⟨n, he, rfl, rfl⟩ := delimited_sound h
        obtain ⟨b, rest, rfl, rfl, hb⟩ := commentEnd_sound he
        exact ⟨⟨"/*".toList ++ b ++ "*/".toList, rest, by simp, by simp; omega, .blockComment hb⟩,
          by simp⟩
      · rename_i rest
        rcases lob_sound h with ⟨rfl, rfl, hs⟩ | ⟨b, rest, rfl, rfl, rfl, hb⟩
        · exact ⟨⟨['\x7b', '\x7b'], rest, rfl, rfl, .fixed (by simp [fixedSpellings])⟩, fun _ => hs⟩
        · exact ⟨⟨"\x7b\x7b".toList ++ b ++ "\x7d\x7d".toList, rest, by simp, by simp, .blob hb⟩,
            by simp⟩
      · obtain ⟨rfl, h⟩ := longString_sound h
        exact ⟨h, by simp⟩
      · rename_i h1 h2 h3 h4
        have hbegins : Begins inSExpr type more (.char c) gs := by
          refine single_sound ?_ h
          rintro rfl
          match gs, h1, h2 with
          | [], _, _ => simp
          | d :: gs, h1, h2 =>
            constructor <;> intro hd <;> simp at hd <;> subst hd
            · exact h1 gs rfl rfl
            · exact h2 gs rfl rfl
        refine ⟨hbegins, ?_⟩
        rintro rfl
        obtain ⟨w, rest, hsplit, -, hw⟩ := hbegins
        obtain rfl := spelling_clobOpen hw
        simp only [Glyph.ofChars_cons, List.cons_append, List.cons.injEq, Glyph.char.injEq] at hsplit
        exact (h3 _ hsplit.1 hsplit.2).elim

theorem readInClob_sound (h : readInClob g gs = .token type more) :
    Begins false type more g gs ∧ type ∈ [.clobClose, .longString, .string, .whitespace] := by
  unfold readInClob at h
  split at h
  · rename_i rest
    cases h
    exact ⟨⟨['\x7d', '\x7d'], rest, rfl, rfl, .fixed (by simp [fixedSpellings])⟩, by simp⟩
  · obtain ⟨rfl, h⟩ := longString_sound h
    exact ⟨h, by simp⟩
  · obtain ⟨rfl, h⟩ := string_sound h
    exact ⟨h, by simp⟩
  · split_ifs at h with hspace
    cases h
    cases g with
    | stray b => simp [Glyph.isCharWith] at hspace
    | char c =>
      simp only [Glyph.isCharWith] at hspace
      obtain ⟨w, rest, rfl, hl, hw, -⟩ := run_split isSpace gs
      exact ⟨⟨c :: w, rest, rfl, by simp [hl], .whitespace (by simp) (by simpa using ⟨hspace, hw⟩)⟩,
        by simp⟩

end Sound

end Lexeme

end FusionKit
