import FusionKit.Proofs.Blanks
import FusionKit.Proofs.Signs

/-!
# Words and what may follow them

Which words lose no blanks when lines are settled, and what has to follow a word so that it is cut
off where it ends. The words that a printer writes are put in front of what shows signs already.
-/
set_option autoImplicit false

namespace FusionKit

open Glyph (ofChars Stops)
open Lexeme

/-! ## Words without blanks to lose -/

/-- The contents of a long string that loses no blanks. -/
structure LongText (w : List Char) : Prop where
  body : LongBody w
  settled : settled ("'''".toList ++ w ++ "'''".toList) = "'''".toList ++ w ++ "'''".toList

/-- A text that lines keep as it is. -/
structure Settles (w : List Char) : Prop where
  firm : Firm w
  eq : settled w = w

theorem settles_of_no_space {w : List Char} (h : ∀ c ∈ w, isSpace c = false) : Settles w := by
  have hfirm : Firm w := fun c hc => h c (List.mem_of_mem_getLast? hc)
  refine ⟨hfirm, settled_of_firm hfirm fun hmem => ?_⟩
  have := h _ hmem
  contradiction

namespace Lexeme

/-- Within quotes every line feed comes after a backslash. -/
theorem QuoteBody.not_endsLine {q : Char} {b : List Char} (h : QuoteBody q b)
    (hq : isSpace q = false) (rest : List Char) : endsLine (b ++ q :: rest) = false := by
  induction h with
  | nil =>
    have : q ≠ '\n' := by
      rintro rfl
      contradiction
    simp [endsLine, isInline, hq, this]
  | @plain c w h1 h2 h3 h4 _ ih =>
    rw [List.cons_append, endsLine]
    split
    · exact ih
    · simpa using h2
  | escaped c _ ih =>
    rw [List.cons_append, endsLine]
    rfl

theorem QuoteBody.settled_eq {q : Char} {b : List Char} (h : QuoteBody q b) (hq : isSpace q = false) :
    settled (b ++ [q]) = b ++ [q] := by
  induction h with
  | nil => simp [settled, isInline, hq]
  | @plain c w h1 h2 h3 h4 hw ih =>
    rw [List.cons_append, settled, hw.not_endsLine hq, ih]
    simp
  | @escaped c w hw ih =>
    rw [List.cons_append, List.cons_append, settled, settled,
      hw.not_endsLine hq, ih]
    simp [isInline, isSpace]

theorem settles_quoted {q : Char} {b : List Char} (h : QuoteBody q b) (hq : isSpace q = false) :
    Settles (q :: (b ++ [q])) := by
  refine ⟨?_, ?_⟩
  · rw [← List.cons_append]
    exact firm_concat hq
  · rw [settled, h.settled_eq hq]
    simp [isInline, hq]

theorem isSpace_of_isIdent {c : Char} (h : isIdent c = true) : isSpace c = false := by
  by_contra hs
  rw [Bool.not_eq_false] at hs
  have hno : ∀ d ∈ [' ', '\t', '\r', '\n', '\x0c', '\x0b'], isIdent d = false :=
    List.all_iff_forall_prop.mp rfl
  rw [hno c (isSpace_cases hs)] at h
  contradiction

theorem IsName.settles {w : List Char} (h : IsName w) : Settles w := by
  obtain ⟨c, cs, rfl, hc, hcs⟩ := h.starts
  refine settles_of_no_space fun d hd => isSpace_of_isIdent ?_
  rcases List.mem_cons.mp hd with rfl | hd
  · simp [isIdent, hc]
  · exact hcs d hd

theorem IsQuoted.settles {w : List Char} (h : IsQuoted w) : Settles w := by
  obtain ⟨b, hb, rfl⟩ := h
  exact settles_quoted hb (by decide)

theorem isOperator_of_run {cs : List Char} (h : operatorRun (ofChars cs) = cs.length) :
    ∀ d ∈ cs, isOperator d = true := by
  induction cs with
  | nil => simp
  | cons c cs ih =>
    obtain ⟨hc, hrun, -⟩ := operatorRun_eq_length h
    exact List.forall_mem_cons.mpr ⟨hc, ih hrun⟩

theorem IsOperatorWord.settles {w : List Char} (h : IsOperatorWord w) : Settles w := by
  obtain ⟨c, cs, rfl, hc, hrun, -⟩ := h
  refine settles_of_no_space fun d hd => ?_
  have hop : isOperator d = true := by
    rcases List.mem_cons.mp hd with rfl | hd
    · exact hc
    · exact isOperator_of_run hrun d hd
  exact isSpace_of_isWordStart (by simp [isWordStart, hop])

theorem IsNull.settles {w : List Char} (h : IsNull w) : Settles w := by
  refine settles_of_no_space ?_
  rcases h with rfl | ⟨t, ht, rfl⟩
  · exact List.all_iff_forall_prop.mp rfl
  · intro c hc
    have hnames : ∀ t ∈ nullTypes, t.toList.all (!isSpace ·) = true := by decide
    rcases List.mem_append.mp hc with hc | hc
    · have hnull : ∀ d ∈ "null.".toList, isSpace d = false :=
        List.all_iff_forall_prop.mp rfl
      exact hnull c hc
    · simpa using List.all_eq_true.mp (hnames t ht) c hc

/-- The types of the words that may be the key of a struct member. -/
def keyTypes : List TokenType := [.symbol, .quotedSymbol, .string, .longString]

/-- The types of the words that end where other words may not go on. -/
def plainTypes : List TokenType :=
  [.null, .bool, .int, .real, .timestamp, .symbol, .quotedSymbol, .operator, .string]

/-- A spelling of a plain word loses no blanks. -/
theorem Spelling.settles {inSExpr : Bool} {type : TokenType} {w : List Char}
    (h : Spelling inSExpr type w) (ht : type ∈ plainTypes) : Settles w := by
  cases h with
  | numeral _ h => exact settles_of_no_space fun c hc => isSpace_of_isPart (Numeral.isPart_of_longest? h hc)
  | symbol h => exact h.settles
  | null h => exact h.settles
  | bool h =>
    refine settles_of_no_space ?_
    rcases h with rfl | rfl <;> exact List.all_iff_forall_prop.mp rfl
  | quotedSymbol h => exact h.settles
  | operator h => exact h.settles
  | string h => exact settles_quoted h (by decide)
  | fixed h =>
    refine settles_of_no_space ?_
    simp only [fixedSpellings, List.mem_cons, Prod.mk.injEq, List.not_mem_nil, or_false] at h
    rcases h with ⟨-, rfl⟩ | ⟨-, rfl⟩ | ⟨-, rfl⟩ | ⟨-, rfl⟩ | ⟨-, rfl⟩ | ⟨-, rfl⟩ | ⟨-, rfl⟩ |
      ⟨-, rfl⟩ | ⟨-, rfl⟩ | ⟨-, rfl⟩ <;> exact List.all_iff_forall_prop.mp rfl
  | _ => simp [plainTypes] at ht

/-- The blanks that an annotation loses stand in front of its colons. -/
theorem settled_annotation {name : List Char} (h : IsName name ∨ IsQuoted name)
    (blanks : List Char) :
    ∃ blanks', blanks'.Sublist blanks ∧
      settled (name ++ blanks ++ "::".toList) = name ++ blanks' ++ "::".toList := by
  have hname : Settles name := h.elim IsName.settles IsQuoted.settles
  obtain ⟨blanks', hsub, hblanks⟩ := settled_append_exists blanks "::".toList
  refine ⟨blanks', hsub, ?_⟩
  rw [List.append_assoc, settled_append hname.firm, hname.eq, hblanks, List.append_assoc]
  rfl

theorem spelling_annotate {inSExpr : Bool} {w : List Char} (h : Spelling inSExpr .annotate w) :
    ∃ name blanks, w = name ++ blanks ++ "::".toList ∧ (IsName name ∨ IsQuoted name) ∧
      ∀ c ∈ blanks, isSpace c = true := by
  cases h with
  | numeral ht => simp at ht
  | annotate h hb => exact ⟨_, _, rfl, h, hb⟩
  | fixed h => simp [fixedSpellings] at h

end Lexeme

theorem spelling_numeral {inSExpr : Bool} {type : TokenType} {w : List Char}
    (h : Spelling inSExpr type w) (ht : type ∈ [TokenType.int, .real, .timestamp]) :
    Numeral.longest? (ofChars w) = some (type, w.length) := by
  cases h with
  | numeral _ h => exact h
  | fixed h =>
    simp only [fixedSpellings, List.mem_cons, Prod.mk.injEq, List.not_mem_nil, or_false] at h
    rcases h with ⟨rfl, -⟩ | ⟨rfl, -⟩ | ⟨rfl, -⟩ | ⟨rfl, -⟩ | ⟨rfl, -⟩ | ⟨rfl, -⟩ | ⟨rfl, -⟩ |
      ⟨rfl, -⟩ | ⟨rfl, -⟩ | ⟨rfl, -⟩ <;> simp at ht
  | _ => simp at ht

theorem spelling_longString {inSExpr : Bool} {w : List Char} (h : Spelling inSExpr .longString w) :
    ∃ b, LongBody b ∧ w = "'''".toList ++ b ++ "'''".toList := by
  cases h with
  | numeral ht => simp at ht
  | longString h => exact ⟨_, h, rfl⟩
  | fixed h => simp [fixedSpellings] at h

theorem spelling_operator {inSExpr : Bool} {w : List Char} (h : Spelling inSExpr .operator w) :
    IsOperatorWord w ∧ inSExpr = true := by
  cases h with
  | numeral ht => simp at ht
  | operator h hin => exact ⟨h, hin⟩
  | fixed h => simp [fixedSpellings] at h

/-! ## What may follow a word -/

/-- What no word but an operator goes on over. -/
structure Halts (inSExpr : Bool) (rest : List Glyph) : Prop where
  stops : Stops (fun d => isIdent d || Numeral.isPart d || d == '.' || d == '\'') rest
  numeral : mayFollowNumeral inSExpr rest = true

theorem Halts.mono {inSExpr : Bool} {rest : List Glyph} (h : Halts inSExpr rest) {p : Char → Bool}
    (hp : ∀ d, p d = true → (isIdent d || Numeral.isPart d || d == '.' || d == '\'') = true) :
    Stops p rest := by
  intro d hd
  by_contra hd'
  have := hp d (by simpa using hd')
  exact absurd this (by simpa using h.stops d hd)

theorem Lexeme.Ends.halts {rest : List Glyph} (h : Ends rest) (inSExpr : Bool) : Halts inSExpr rest :=
  ⟨h.stops (List.all_iff_forall_prop.mp rfl), h.mayFollowNumeral _⟩

/-- Inside an s-expression a pipe may come right behind a word. -/
theorem halts_pipe (gs : List Glyph) : Halts true (.char '|' :: gs) :=
  ⟨Glyph.stops_cons.mpr (by decide), by simp [mayFollowNumeral, isOperator]⟩

/-- What may follow a value, directly inside an s-expression or not. -/
structure Clear (inSExpr : Bool) (rest : List Char) : Prop where
  ends : Ends (ofChars (settled rest))
  stops : inSExpr = true → Stops isOperator (ofChars (settled rest))

namespace Clear

variable {b : Bool} {rest : List Char}

theorem of_settled {c : Char} {cs : List Char} (h : settled rest = c :: cs)
    (hc : isSpace c = true ∨ c ∈ [',', ')', ']', '\x7d']) : Clear b rest := by
  have hends : Ends (ofChars (settled rest)) := by
    rw [h, Glyph.ofChars_cons]
    rcases hc with hc | hc
    · exact .blank hc _
    · exact .closing hc _
  refine ⟨hends, fun _ => ?_⟩
  rw [h, Glyph.ofChars_cons]
  refine Glyph.stops_cons.mpr ?_
  rcases hc with hc | hc
  · have hno : ∀ d ∈ [' ', '\t', '\r', '\n', '\x0c', '\x0b'], isOperator d = false :=
      List.all_iff_forall_prop.mp rfl
    exact hno c (isSpace_cases hc)
  · have hno : ∀ d ∈ [',', ')', ']', '\x7d'], isOperator d = false :=
      List.all_iff_forall_prop.mp rfl
    exact hno c hc

theorem nil : Clear b [] := ⟨.nil, fun _ => Glyph.stops_nil _⟩

theorem newline (cs : List Char) : Clear b ('\n' :: cs) :=
  of_settled (settled_newline cs) (.inl (by decide))

/-- A space goes before anything: it stays, or a line ends there. -/
theorem space (cs : List Char) : Clear b (' ' :: cs) := by
  have hin : isInline ' ' = true := by decide
  by_cases hends : endsLine cs = true
  · have hdrop : settled (' ' :: cs) = settled cs := by rw [settled, hin, hends]; rfl
    have hline : endsLine (settled cs) = true := by rw [endsLine_settled, hends]
    cases hcs : settled cs with
    | nil => exact ⟨by rw [hdrop, hcs]; exact .nil, fun _ => by rw [hdrop, hcs]; exact Glyph.stops_nil _⟩
    | cons d ds =>
      refine of_settled (hdrop.trans hcs) (.inl ?_)
      rw [hcs, endsLine] at hline
      split at hline
      · rename_i hd
        simp only [isInline, Bool.and_eq_true] at hd
        exact hd.1
      · rw [beq_iff_eq.mp hline]
        decide
  · rw [Bool.not_eq_true] at hends
    exact of_settled (by rw [settled, hin, hends]; rfl) (.inl (by decide))

theorem closing {c : Char} (h : c ∈ [',', ')', ']', '\x7d']) (cs : List Char) : Clear b (c :: cs) := by
  have hc : isInline c = false := by
    have hno : ∀ d ∈ [',', ')', ']', '\x7d'], isInline d = false :=
      List.all_iff_forall_prop.mp rfl
    exact hno c h
  exact of_settled (by rw [settled, hc]; rfl) (.inr h)

theorem comment {c : Char} (h : c = '/' ∨ c = '*') (cs : List Char) : Clear false ('/' :: c :: cs) := by
  refine ⟨?_, fun h => by contradiction⟩
  rw [settled, settled]
  rcases h with rfl | rfl
  · exact .comment (.inl rfl) _
  · exact .comment (.inr rfl) _

theorem spaces {sp : List Char} (hsp : ∀ c ∈ sp, c = ' ') (h : Clear b rest) :
    Clear b (sp ++ rest) := by
  cases sp with
  | nil => exact h
  | cons c sp =>
    obtain rfl := hsp c (by simp)
    exact space _

end Clear

/-! ## Words in front of what shows signs -/

namespace Shows

variable {c : LexContext} {rest : List Char} {ss : List Sign}

theorem cut_of_read {type : TokenType} (d : Char) (ds : List Char) (hc : c.inClob = false)
    (h : read c.inSExpr (.char d) (ofChars ds ++ ofChars rest) = .token type ds.length) :
    Cut c type (d :: ds) rest := by
  refine ⟨d, ds, rfl, ?_⟩
  unfold LexContext.lexeme
  rw [hc, if_neg (by decide), h]

/-- An operator is cut off where no operator character comes next. -/
theorem cut_operator {w : List Char} (hw : IsOperatorWord w) (hin : c.inSExpr = true)
    (hc : c.inClob = false) {cs : List Char} (hstops : Stops isOperator (ofChars cs))
    (hdigit : w.head? = some '-' → Stops Numeral.isDecimal (ofChars cs)) : Cut c .operator w cs := by
  obtain ⟨d, ds, rfl, -⟩ := id hw
  refine cut_of_read _ _ hc ?_
  rw [hin]
  exact read_operator hw hstops fun hd => hdigit (by rw [hd]; rfl)

/-- A word that is no operator is cut off where nothing goes on with it. -/
theorem cut_word {type : TokenType} {w : List Char} (hw : Spelling c.inSExpr type w)
    (ht : type ∈ plainTypes) (hop : type ≠ .operator) (hc : c.inClob = false) {cs : List Char}
    (hhalts : Halts c.inSExpr (ofChars cs)) (hmark : annotationMark (ofChars cs) = 0) :
    Cut c type w cs := by
  cases hw with
  | numeral ht' h =>
    match w, h with
    | d :: ds, h =>
      exact cut_of_read _ _ hc (read_numeral h (hhalts.mono fun d => by simp +contextual) hhalts.numeral)
  | symbol h =>
    obtain ⟨d, ds, rfl, -⟩ := h.starts
    exact cut_of_read _ _ hc (read_symbol h (hhalts.mono fun d => by simp +contextual) hmark)
  | null h =>
    match w, h with
    | d :: ds, h =>
      refine cut_of_read _ _ hc (read_null h (hhalts.mono fun d hd => ?_) hmark)
      rw [Bool.or_eq_true] at hd
      rcases hd with hd | hd <;> simp [hd]
    | [], h =>
      rcases h with h | ⟨t, -, h⟩
      · exact absurd h (by decide)
      · simp at h
  | bool h =>
    match w, h with
    | d :: ds, h => exact cut_of_read _ _ hc (read_bool h (hhalts.mono fun d => by simp +contextual) hmark)
    | [], h => exact absurd h (by decide)
  | quotedSymbol h =>
    obtain ⟨b, hb, rfl⟩ := h
    refine cut_of_read _ _ hc ?_
    rw [read_quoted hb (hhalts.mono fun d => by simp +contextual) hmark]
    simp
  | operator => contradiction
  | string h =>
    refine cut_of_read _ _ hc ?_
    rw [read_string h]
    simp
  | fixed h =>
    simp only [fixedSpellings, List.mem_cons, Prod.mk.injEq, List.not_mem_nil, or_false] at h
    rcases h with ⟨rfl, -⟩ | ⟨rfl, -⟩ | ⟨rfl, -⟩ | ⟨rfl, -⟩ | ⟨rfl, -⟩ | ⟨rfl, -⟩ | ⟨rfl, -⟩ |
      ⟨rfl, -⟩ | ⟨rfl, -⟩ | ⟨rfl, -⟩ <;> simp [plainTypes] at ht
  | _ => simp [plainTypes] at ht

/-- A plain word is cut off where words end. -/
theorem cut_plain {type : TokenType} {w : List Char} (hw : Spelling c.inSExpr type w)
    (ht : type ∈ plainTypes) (hc : c.inClob = false) {cs : List Char} (hends : Ends (ofChars cs))
    (hstops : c.inSExpr = true → Stops isOperator (ofChars cs))
    (hmark : annotationMark (ofChars cs) = 0) : Cut c type w cs := by
  by_cases hop : type = .operator
  · subst hop
    obtain ⟨hw, hin⟩ := spelling_operator hw
    exact cut_operator hw hin hc (hstops hin) fun _ => hends.stops (List.all_iff_forall_prop.mp rfl)
  · exact cut_word hw ht hop hc (hends.halts _) hmark

theorem after_plain {type : TokenType} (ht : type ∈ .annotate :: .blob :: plainTypes) :
    c.after type = c := by
  simp only [plainTypes, List.mem_cons, List.not_mem_nil, or_false] at ht
  rcases ht with rfl | rfl | rfl | rfl | rfl | rfl | rfl | rfl | rfl | rfl | rfl <;> rfl

theorem settled_word {type : TokenType} {w : List Char} (hw : Settles w)
    (hspell : Spelling c.inSExpr type w) (ht : type ∈ plainTypes)
    (hcut : Cut c type w (settled rest)) (h : Shows c rest ss) :
    Shows c (w ++ rest) (.word type (Text.ofChars w) :: ss) := by
  have hword : Shows c (w ++ rest) (.word type (Text.ofChars (settled w)) :: ss) := .word hw.firm
    (by rwa [hw.eq]) ?_ ?_ (by rwa [hw.eq]) (by rwa [after_plain (by simp [ht])])
  · rwa [hw.eq] at hword
  · intro h
    simp only [List.mem_cons, List.not_mem_nil, or_false] at h
    rcases h with rfl | rfl | rfl <;> simp [plainTypes] at ht
  · rintro rfl
    simp [plainTypes] at ht

/-- A plain word in front of what may follow it. -/
theorem plain {type : TokenType} {w : List Char} (hw : Spelling c.inSExpr type w)
    (ht : type ∈ plainTypes) (hc : c.inClob = false) (hclear : Clear c.inSExpr rest)
    (h : Shows c rest ss) : Shows c (w ++ rest) (.word type (Text.ofChars w) :: ss) :=
  settled_word (hw.settles ht) hw ht
    (cut_plain hw ht hc hclear.ends hclear.stops h.annotationMark_eq_zero) h

/-- A word other than an operator right in front of a pipe. -/
theorem beforePipe {type : TokenType} {w cs : List Char} (hw : Spelling c.inSExpr type w)
    (ht : type ∈ plainTypes) (hop : type ≠ .operator) (hc : c.inClob = false) (hin : c.inSExpr = true)
    (h : Shows c ('|' :: cs) ss) : Shows c (w ++ '|' :: cs) (.word type (Text.ofChars w) :: ss) := by
  refine settled_word (hw.settles ht) hw ht (cut_word hw ht hop hc ?_ h.annotationMark_eq_zero) h
  rw [hin]
  exact halts_pipe _

/-- An operator that starts with a pipe, right in front of what is neither a blank nor an operator. -/
theorem afterPipe {v cs : List Char} {d : Char} (hv : IsOperatorWord ('|' :: v)) (hc : c.inClob = false)
    (hin : c.inSExpr = true) (hd : isOperator d = false) (hinline : isInline d = false)
    (h : Shows c (d :: cs) ss) :
    Shows c ('|' :: v ++ d :: cs) (.word .operator (Text.ofChars ('|' :: v)) :: ss) := by
  have hsettled : settled (d :: cs) = d :: settled cs := by
    rw [settled, hinline]
    rfl
  refine settled_word hv.settles (.operator hv hin) (by simp [plainTypes])
    (cut_operator hv hin hc ?_ fun h => absurd h (by simp)) h
  rw [hsettled]
  exact Glyph.stops_cons.mpr hd

/-- A pipe right in front of a comment. -/
theorem pipeComment {cs : List Char} {d : Char} (hc : c.inClob = false) (hin : c.inSExpr = true)
    (hd : d = '/' ∨ d = '*') (h : Shows c ('/' :: d :: cs) ss) :
    Shows c ('|' :: '/' :: d :: cs) (.word .operator (Text.ofChars ['|']) :: ss) := by
  have hpipe : IsOperatorWord ['|'] := ⟨'|', [], rfl, by decide, rfl, fun h => absurd h (by decide)⟩
  have hsettled : settled ('/' :: d :: cs) = '/' :: d :: settled cs := by
    rcases hd with rfl | rfl <;> rfl
  refine settled_word hpipe.settles (.operator hpipe hin) (by simp [plainTypes]) ?_ h
  rw [hsettled]
  refine cut_of_read _ _ hc ?_
  rw [hin]
  exact read_pipe_comment hd

/-- A long string needs nothing to follow it, inside of clobs and outside. -/
theorem longString {b : List Char} (hb : LongText b) (h : Shows c rest ss) :
    Shows c ("'''".toList ++ b ++ "'''".toList ++ rest)
      (.word .longString (Text.ofChars ("'''".toList ++ b ++ "'''".toList)) :: ss) := by
  have hword : Shows c ("'''".toList ++ b ++ "'''".toList ++ rest)
      (.word .longString (Text.ofChars (settled ("'''".toList ++ b ++ "'''".toList))) :: ss) :=
    .word (firm_append (by intro d hd; cases hd; rfl) (by simp))
      (by rw [hb.settled]; exact .longString hb.body) (by decide) (fun h => by contradiction) ?_
      (by rwa [show c.after .longString = c from rfl])
  · rwa [hb.settled] at hword
  · rw [hb.settled]
    refine ⟨'\'', ['\'', '\''] ++ b ++ ['\'', '\'', '\''], rfl, ?_⟩
    unfold LexContext.lexeme
    split
    · rw [readInClob_longString hb.body]
      simp
    · rw [read_longString hb.body]
      simp

/-- A key in front of its colon. -/
theorem key {type : TokenType} {w : List Char} (hw : Spelling c.inSExpr type w)
    (ht : type ∈ keyTypes) (hset : settled w = w) (hc : c.inClob = false)
    (h : Shows c (':' :: rest) ss) :
    Shows c (w ++ ':' :: rest) (.word type (Text.ofChars w) :: ss) := by
  by_cases hlong : type = .longString
  · subst hlong
    obtain ⟨b, hb, rfl⟩ := spelling_longString hw
    exact longString ⟨hb, hset⟩ h
  have hplain : type ∈ plainTypes := by
    simp only [keyTypes, List.mem_cons, List.not_mem_nil, or_false, hlong] at ht
    rcases ht with rfl | rfl | rfl <;> simp [plainTypes]
  refine settled_word (hw.settles hplain) hw hplain ?_ h
  have hsettled : settled (':' :: rest) = ':' :: settled rest := rfl
  have hmark := h.annotationMark_eq_zero
  rw [hsettled] at hmark ⊢
  have hstops : ∀ {p : Char → Bool}, p ':' = false → Stops p (ofChars (':' :: settled rest)) :=
    fun hp => Glyph.stops_cons.mpr hp
  cases hw with
  | symbol h =>
    obtain ⟨d, ds, rfl, -⟩ := h.starts
    exact cut_of_read _ _ hc (read_symbol h (hstops (by decide)) hmark)
  | quotedSymbol h =>
    obtain ⟨b, hb, rfl⟩ := h
    refine cut_of_read _ _ hc ?_
    rw [read_quoted hb (hstops (by decide)) hmark]
    simp
  | string h =>
    refine cut_of_read _ _ hc ?_
    rw [read_string h]
    simp
  | longString => contradiction
  | numeral ht' =>
    simp only [List.mem_cons, List.not_mem_nil, or_false] at ht'
    rcases ht' with rfl | rfl | rfl <;> simp [keyTypes] at ht
  | fixed h =>
    simp only [fixedSpellings, List.mem_cons, Prod.mk.injEq, List.not_mem_nil, or_false] at h
    rcases h with ⟨rfl, -⟩ | ⟨rfl, -⟩ | ⟨rfl, -⟩ | ⟨rfl, -⟩ | ⟨rfl, -⟩ | ⟨rfl, -⟩ | ⟨rfl, -⟩ |
      ⟨rfl, -⟩ | ⟨rfl, -⟩ | ⟨rfl, -⟩ <;> simp [keyTypes] at ht
  | _ => simp [keyTypes] at ht

/-- A delimiter of one character. -/
theorem fixed {type : TokenType} {d : Char} (hd : (type, [d]) ∈ fixedSpellings)
    (hc : c.inClob = false) (hbrace : d = '\x7b' → (settled rest).head? ≠ some '\x7b')
    (hcolon : type = .colon → (settled rest).head? ≠ some ':') (h : Shows (c.after type) rest ss) :
    Shows c (d :: rest) (.word type (Text.ofChars [d]) :: ss) := by
  have hspace : isSpace d = false := by
    simp only [fixedSpellings, List.mem_cons, Prod.mk.injEq, List.cons.injEq, and_true,
      List.not_mem_nil, or_false, reduceCtorEq, and_false] at hd
    rcases hd with ⟨-, rfl⟩ | ⟨-, rfl⟩ | ⟨-, rfl⟩ | ⟨-, rfl⟩ | ⟨-, rfl⟩ | ⟨-, rfl⟩ | ⟨-, rfl⟩ |
      ⟨-, rfl⟩ <;> decide
  have hsettles : Settles [d] := settles_of_no_space (by simpa using hspace)
  have hword : Shows c ([d] ++ rest) (.word type (Text.ofChars (settled [d])) :: ss) :=
    .word hsettles.firm (by rw [hsettles.eq]; exact .fixed hd) ?_ hcolon ?_ h
  · rwa [hsettles.eq] at hword
  · simp only [fixedSpellings, List.mem_cons, Prod.mk.injEq, List.not_mem_nil, or_false] at hd
    rcases hd with ⟨rfl, -⟩ | ⟨rfl, -⟩ | ⟨rfl, -⟩ | ⟨rfl, -⟩ | ⟨rfl, -⟩ | ⟨rfl, -⟩ | ⟨rfl, -⟩ |
      ⟨rfl, -⟩ | ⟨rfl, -⟩ | ⟨rfl, -⟩ <;> decide
  · rw [hsettles.eq]
    refine cut_of_read _ _ hc ?_
    rw [Glyph.ofChars_nil, List.nil_append, read_fixed hd]
    · rfl
    · intro he
      cases hr : settled rest with
      | nil => simp
      | cons e es =>
        have := hbrace he
        rw [hr] at this
        simpa using this

/-- An annotation needs nothing to follow it. -/
theorem annotation {w : List Char} (hw : Spelling false .annotate w) (hc : c.inClob = false)
    (h : Shows c rest ss) :
    Shows c (w ++ rest) (.word .annotate (Text.ofChars (settled w)) :: ss) := by
  obtain ⟨name, blanks, rfl, hname, hblanks⟩ := spelling_annotate hw
  obtain ⟨blanks', hsub, hsettled⟩ := settled_annotation hname blanks
  have hblanks' : ∀ d ∈ blanks', isSpace d = true := fun d hd => hblanks d (hsub.subset hd)
  refine .word (firm_append (by intro d hd; cases hd; rfl) (by simp)) ?_ (by decide)
    (fun h => by contradiction) ?_ (by rwa [after_plain (by simp)])
  · rw [hsettled]
    exact .annotate hname hblanks'
  · rw [hsettled]
    match hsplit : name ++ blanks' ++ "::".toList with
    | d :: ds => exact cut_of_read _ _ hc (read_annotated hname hblanks' hsplit)
    | [] => simp at hsplit

theorem blob {w : List Char} (hw : BlobText w) (hc : c.inClob = false) (h : Shows c rest ss) :
    Shows c (braced w ++ rest) (.word .blob (Text.ofChars (settled (braced w))) :: ss) := by
  have hinner : ∀ {v : List Char}, BlobText v → ∃ b, (∀ d ∈ b, (isSpace d || isBase64 d) = true) ∧
      braced v = "\x7b\x7b".toList ++ b ++ "\x7d\x7d".toList := by
    intro v hv
    refine ⟨(if v = [] then [] else ' ' :: v) ++ [' '], ?_, by simp [braced]⟩
    intro d hd
    split at hd
    · simp only [List.nil_append, List.mem_singleton] at hd
      rw [hd]
      decide
    · simp only [List.cons_append, List.mem_cons, List.mem_append, List.not_mem_nil, or_false] at hd
      rcases hd with rfl | hd | rfl
      · decide
      · exact hv.chars d hd
      · decide
  obtain ⟨b, hb, hsplit⟩ := hinner hw.settled
  refine .word ?_ ?_ (by decide) (fun h => by contradiction) ?_ (by rwa [after_plain (by simp)])
  · exact firm_append (by intro d hd; cases hd; rfl) (by simp)
  · rw [hw.settled_braced, hsplit]
    exact .blob hb
  · rw [hw.settled_braced, hsplit]
    refine cut_of_read '\x7b' (['\x7b'] ++ b ++ ['\x7d', '\x7d']) hc ?_
    rw [read_blob hb]
    simp

/-- The braces that open a clob come before a string. -/
theorem clobOpen (hc : c.inClob = false)
    (hstring : startsString ((ofChars (settled rest)).drop (run isSpace (ofChars (settled rest)))) = true)
    (h : Shows (c.after .clobOpen) rest ss) :
    Shows c ("\x7b\x7b".toList ++ rest) (.word .clobOpen (utf8 "\x7b\x7b") :: ss) := by
  have hsettles : Settles "\x7b\x7b".toList := settles_of_no_space (List.all_iff_forall_prop.mp rfl)
  have hword : Shows c ("\x7b\x7b".toList ++ rest)
      (.word .clobOpen (Text.ofChars (settled "\x7b\x7b".toList)) :: ss) :=
    .word hsettles.firm (by rw [hsettles.eq]; exact .fixed (by simp [fixedSpellings]))
    (by decide) (fun h => by contradiction) ?_ h
  · rwa [hsettles.eq] at hword
  · rw [hsettles.eq]
    exact cut_of_read '\x7b' ['\x7b'] hc (read_clobOpen hstring)

theorem clobClose (hc : c.inClob = true) (h : Shows (c.after .clobClose) rest ss) :
    Shows c ("\x7d\x7d".toList ++ rest) (.word .clobClose (utf8 "\x7d\x7d") :: ss) := by
  have hsettles : Settles "\x7d\x7d".toList := settles_of_no_space (List.all_iff_forall_prop.mp rfl)
  have hword : Shows c ("\x7d\x7d".toList ++ rest)
      (.word .clobClose (Text.ofChars (settled "\x7d\x7d".toList)) :: ss) :=
    .word hsettles.firm (by rw [hsettles.eq]; exact .fixed (by simp [fixedSpellings]))
    (by decide) (fun h => by contradiction) ?_ h
  · rwa [hsettles.eq] at hword
  · rw [hsettles.eq]
    refine ⟨'\x7d', ['\x7d'], rfl, ?_⟩
    unfold LexContext.lexeme
    rw [hc, if_pos rfl]
    exact readInClob_close

/-- A short string needs nothing to follow it, inside of clobs and outside. -/
theorem string {b : List Char} (hb : QuoteBody '"' b) (h : Shows c rest ss) :
    Shows c ('"' :: (b ++ ['"']) ++ rest) (.word .string (Text.ofChars ('"' :: (b ++ ['"']))) :: ss) := by
  refine settled_word (settles_quoted hb (by decide)) (.string hb) (by simp [plainTypes]) ?_ h
  refine ⟨'"', b ++ ['"'], rfl, ?_⟩
  unfold LexContext.lexeme
  split
  · rw [readInClob_string hb]
    simp
  · rw [read_string hb]
    simp

/-- What is shown first, if it is neither blank nor a comment, is the first word. -/
theorem head_word (h : Shows c rest ss) {d : Char} (hd : (settled rest).head? = some d)
    (hspace : isSpace d = false) (hslash : d ≠ '/') :
    ∃ inSExpr type ds us, ss = .word type (Text.ofChars (d :: ds)) :: us ∧
      Spelling inSExpr type (d :: ds) ∧ type ≠ .whitespace := by
  induction h with
  | done => simp [settled] at hd
  | space _ ih =>
    rw [settled] at hd
    split at hd
    · exact ih hd
    · simp only [List.head?_cons, Option.some.injEq] at hd
      subst hd
      contradiction
  | brk =>
    rw [settled_newline] at hd
    simp only [List.head?_cons, Option.some.injEq] at hd
    subst hd
    contradiction
  | @word c type w cs ss hfirm hspell htype _ _ _ _ =>
    have hne : type ≠ .whitespace := by
      rintro rfl
      simp at htype
    obtain ⟨e, es, hw, -⟩ := spelling_starts hspell hne
    rw [settled_append hfirm, hw] at hd
    simp only [List.cons_append, List.head?_cons, Option.some.injEq] at hd
    subst hd
    exact ⟨_, _, es, _, by rw [hw], by rwa [← hw], hne⟩
  | line =>
    rw [List.append_assoc, List.append_assoc, settled_append (by simp [Firm, isSpace])] at hd
    simp [settled, isInline, isSpace] at hd
    exact absurd hd.symm hslash
  | block =>
    rw [List.append_assoc, List.append_assoc, settled_append (by simp [Firm, isSpace])] at hd
    simp [settled, isInline, isSpace] at hd
    exact absurd hd.symm hslash

/-- No colon is shown first unless it is the first sign. -/
theorem head_ne_colon (h : Shows c rest ss) (hs : ∀ w us, ss ≠ .word .colon w :: us) :
    (settled rest).head? ≠ some ':' := by
  intro hd
  obtain ⟨inSExpr, type, ds, us, rfl, hspell, htype⟩ := h.head_word hd (by decide) (by decide)
  obtain ⟨e, es, heq, -, hcolon⟩ := spelling_starts hspell htype
  obtain ⟨rfl, rfl⟩ := List.cons.inj heq
  rw [hcolon rfl] at hs
  exact hs _ _ rfl

end Shows

namespace Lexeme

/-- The words that start with an operator character are operators and numbers with a minus sign. -/
theorem spelling_operator_start {inSExpr : Bool} {type : TokenType} {d : Char} {ds : List Char}
    (h : Spelling inSExpr type (d :: ds)) (ht : type ∈ plainTypes) (hop : type ≠ .operator)
    (hd : isOperator d = true) : d = '-' ∧ (type = .int ∨ type = .real) := by
  obtain ⟨e, es, heq, hfirst⟩ := spelling_first h
  obtain ⟨rfl, rfl⟩ := List.cons.inj heq
  have hident := isIdentStart_of_isOperator hd
  have hdecimal := isDecimal_of_isOperator hd
  simp only [plainTypes, List.mem_cons, List.not_mem_nil, or_false] at ht
  rcases ht with rfl | rfl | rfl | rfl | rfl | rfl | rfl | rfl | rfl
  · obtain rfl := eq_of_beq hfirst
    contradiction
  · simp only [mayStart, Bool.or_eq_true, beq_iff_eq] at hfirst
    rcases hfirst with rfl | rfl <;> contradiction
  · exact ⟨by simpa [mayStart, hdecimal] using hfirst, .inl rfl⟩
  · exact ⟨by simpa [mayStart, hdecimal] using hfirst, .inr rfl⟩
  · rw [mayStart, hdecimal] at hfirst
    contradiction
  · rw [mayStart, hident] at hfirst
    contradiction
  · obtain rfl := eq_of_beq hfirst
    contradiction
  · contradiction
  · obtain rfl := eq_of_beq hfirst
    contradiction

/-- The words that start with a brace. -/
theorem spelling_brace {inSExpr : Bool} {type : TokenType} {ds : List Char}
    (h : Spelling inSExpr type ('\x7b' :: ds)) : type ∈ [TokenType.blob, .braceOpen, .clobOpen] := by
  obtain ⟨e, es, heq, hfirst⟩ := spelling_first h
  obtain ⟨rfl, rfl⟩ := List.cons.inj heq
  revert hfirst
  cases type <;> decide

end Lexeme

end FusionKit
