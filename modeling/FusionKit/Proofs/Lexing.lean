import FusionKit.Proofs.Spelling

/-!
# Spellings are read back

A spelling is read as the token that it spells, provided that what follows ends it. Most words end
before blanks, closing delimiters and comments, and where two colons do not follow; texts between
delimiters end by themselves.
-/
set_option autoImplicit false

namespace FusionKit.Lexeme

open Glyph (ofChars Stops)

/-- Where every word but an operator may end. -/
inductive Ends : List Glyph → Prop where
  | nil : Ends []
  | blank {c : Char} (h : isSpace c = true) (gs : List Glyph) : Ends (.char c :: gs)
  | closing {c : Char} (h : c ∈ [',', ')', ']', '\x7d']) (gs : List Glyph) : Ends (.char c :: gs)
  | comment {c : Char} (h : c = '/' ∨ c = '*') (gs : List Glyph) :
      Ends (.char '/' :: .char c :: gs)

theorem isSpace_cases {c : Char} (h : isSpace c = true) :
    c ∈ [' ', '\t', '\r', '\n', '\x0c', '\x0b'] := by
  simpa [isSpace, or_assoc] using h

/-- No word goes on with a character at which words end. -/
theorem Ends.stops {rest : List Glyph} (h : Ends rest) {p : Char → Bool}
    (hp : ∀ c ∈ [' ', '\t', '\r', '\n', '\x0c', '\x0b', ',', ')', ']', '\x7d', '/'], p c = false) :
    Stops p rest := by
  cases h with
  | nil => exact Glyph.stops_nil p
  | @blank c h gs =>
    refine Glyph.stops_cons.mpr (hp c ?_)
    have := isSpace_cases h
    simp only [List.mem_cons, List.not_mem_nil, or_false] at this ⊢
    tauto
  | @closing c h gs =>
    refine Glyph.stops_cons.mpr (hp c ?_)
    simp only [List.mem_cons, List.not_mem_nil, or_false] at h ⊢
    tauto
  | comment h gs => exact Glyph.stops_cons.mpr (hp '/' (by simp))

theorem Ends.mayFollowNumeral {rest : List Glyph} (h : Ends rest) (inSExpr : Bool) :
    mayFollowNumeral inSExpr rest = true := by
  cases h with
  | nil => rfl
  | blank h gs => simp [Lexeme.mayFollowNumeral, h]
  | @closing c h gs =>
    have : isDelimiter c = true := by
      simp only [List.mem_cons, List.not_mem_nil, or_false] at h
      rcases h with rfl | rfl | rfl | rfl <;> decide
    simp [Lexeme.mayFollowNumeral, this]
  | comment h gs => rcases h with rfl | rfl <;> simp [Lexeme.mayFollowNumeral]

/-! ## Reading by the first character -/

theorem read_single {c : Char} {gs : List Glyph} (inSExpr : Bool) (hspace : isSpace c = false)
    (hslash : c = '/' → gs.head? ≠ some (.char '/') ∧ gs.head? ≠ some (.char '*'))
    (hbrace : c = '\x7b' → gs.head? ≠ some (.char '\x7b'))
    (hquote : c = '\'' → ∀ rest, gs ≠ .char '\'' :: .char '\'' :: rest) :
    read inSExpr (.char c) gs = single inSExpr c gs := by
  unfold read
  simp only [hspace, Bool.false_eq_true, if_false]
  split
  · simp at hslash
  · simp at hslash
  · simp at hbrace
  · exact absurd rfl (hquote rfl _)
  · rfl

/-- A character that is no delimiter starts a word. -/
theorem single_word {c : Char} (h : c ∉ ['(', ')', '[', ']', '\x7b', '\x7d', ':', ',', '"', '\''])
    (inSExpr : Bool) (gs : List Glyph) :
    single inSExpr c gs =
      if Numeral.isDecimal c ||
          (c == '-' && (gs.head?.map (Glyph.isCharWith Numeral.isDecimal)).getD false) then
        numeral inSExpr (.char c :: gs)
      else if isIdentStart c then identifier (.char c) gs
      else if isOperator c then
        if inSExpr then .token .operator (operatorRun gs) else .fault 0 0 (.operatorOutside c)
      else .fault 0 0 (.unexpected c) := by
  simp only [List.mem_cons, List.not_mem_nil, or_false, not_or] at h
  rw [single.eq_def]
  simp [h]

/-- The characters that a word starts with, when it is no delimiter. -/
def isWordStart (c : Char) : Bool := Numeral.isDecimal c || isIdentStart c || isOperator c

theorem isIdentStart_range {c : Char} (h : isIdentStart c = true) :
    (0x41 ≤ c.toNat ∧ c.toNat ≤ 0x5a) ∨ (0x61 ≤ c.toNat ∧ c.toNat ≤ 0x7a) ∨ c.toNat = 0x5f ∨
      c.toNat = 0x24 := by
  simp only [isIdentStart, Bool.or_eq_true, Bool.and_eq_true, decide_eq_true_eq, beq_iff_eq] at h
  rcases h with ((⟨h1, h2⟩ | ⟨h1, h2⟩) | rfl) | rfl
  · exact .inr (.inl ⟨h1, h2⟩)
  · exact .inl ⟨h1, h2⟩
  · exact .inr (.inr (.inl rfl))
  · exact .inr (.inr (.inr rfl))

theorem isDecimal_range {c : Char} (h : Numeral.isDecimal c = true) :
    0x30 ≤ c.toNat ∧ c.toNat ≤ 0x39 := by
  simp only [Numeral.isDecimal, Bool.and_eq_true, decide_eq_true_eq] at h
  exact h

theorem isOperator_mem {c : Char} (h : isOperator c = true) : c ∈ "!#%&*+-./;<=>?@^`|~".toList := by
  simpa [isOperator] using h

theorem wordStart_not_mem {c : Char} (h : isWordStart c = true) {others : List Char}
    (ho : ∀ d ∈ others, isWordStart d = false) : c ∉ others := by
  intro hc
  rw [ho c hc] at h
  contradiction

theorem isSpace_of_isWordStart {c : Char} (h : isWordStart c = true) : isSpace c = false := by
  cases hs : isSpace c with
  | false => rfl
  | true => exact absurd (isSpace_cases hs) (wordStart_not_mem h (List.all_iff_forall_prop.mp rfl))

theorem read_word {c : Char} {gs : List Glyph} (inSExpr : Bool) (h : isWordStart c = true)
    (hslash : c = '/' → gs.head? ≠ some (.char '/') ∧ gs.head? ≠ some (.char '*')) :
    read inSExpr (.char c) gs = single inSExpr c gs := by
  refine read_single inSExpr (isSpace_of_isWordStart h) hslash ?_ ?_
  · rintro rfl
    exact absurd h (by decide)
  · rintro rfl
    exact absurd h (by decide)

theorem isDecimal_of_isOperator {c : Char} (h : isOperator c = true) :
    Numeral.isDecimal c = false := by
  have hno : ∀ d ∈ "!#%&*+-./;<=>?@^`|~".toList, Numeral.isDecimal d = false :=
    List.all_iff_forall_prop.mp rfl
  exact hno c (isOperator_mem h)

theorem isIdentStart_of_isOperator {c : Char} (h : isOperator c = true) :
    isIdentStart c = false := by
  have hno : ∀ d ∈ "!#%&*+-./;<=>?@^`|~".toList, isIdentStart d = false :=
    List.all_iff_forall_prop.mp rfl
  exact hno c (isOperator_mem h)

theorem isOperator_of_isIdentStart {c : Char} (h : isIdentStart c = true) : isOperator c = false := by
  by_contra hop
  rw [Bool.not_eq_false] at hop
  rw [isIdentStart_of_isOperator hop] at h
  contradiction

theorem isDecimal_of_isIdentStart {c : Char} (h : isIdentStart c = true) :
    Numeral.isDecimal c = false := by
  cases hd : Numeral.isDecimal c with
  | false => rfl
  | true =>
    have h1 := isIdentStart_range h
    have h2 := isDecimal_range hd
    omega

/-! ## Words -/

variable {inSExpr : Bool} {c : Char} {cs : List Char} {rest : List Glyph}

theorem wordStart_not_delimiter {c : Char} (h : isWordStart c = true) :
    c ∉ ['(', ')', '[', ']', '\x7b', '\x7d', ':', ',', '"', '\''] :=
  wordStart_not_mem h (List.all_iff_forall_prop.mp rfl)

theorem read_numeral {type : TokenType}
    (h : Numeral.longest? (ofChars (c :: cs)) = some (type, cs.length + 1))
    (hpart : Stops Numeral.isPart rest) (hmay : mayFollowNumeral inSExpr rest = true) :
    read inSExpr (.char c) (ofChars cs ++ rest) = .token type cs.length := by
  have hlong : Numeral.longest? (.char c :: (ofChars cs ++ rest)) = some (type, cs.length + 1) := by
    rw [← List.cons_append, ← Glyph.ofChars_cons, Numeral.longest?_append hpart, h]
  obtain ⟨d, hd, hstart⟩ := Numeral.longest?_starts (by rw [hlong]; rfl)
  obtain rfl := Glyph.char.inj hd
  have hword : isWordStart c = true := by
    rcases hstart with hdec | ⟨rfl, -⟩
    · simp [isWordStart, hdec]
    · decide
  have hnum : (Numeral.isDecimal c || (c == '-' &&
      ((ofChars cs ++ rest).head?.map (Glyph.isCharWith Numeral.isDecimal)).getD false)) = true := by
    rcases hstart with hdec | ⟨rfl, d, rs, hrs, hdec⟩
    · simp [hdec]
    · simp [hrs, Glyph.isCharWith, hdec]
  have hslash : c ≠ '/' := by
    rintro rfl
    rcases hstart with hdec | ⟨hdash, -⟩
    · exact absurd hdec (by decide)
    · exact absurd hdash (by decide)
  rw [read_word inSExpr hword (fun hc => absurd hc hslash),
    single_word (wordStart_not_delimiter hword), if_pos hnum]
  unfold numeral
  rw [hlong]
  dsimp only
  rw [List.drop_succ_cons, List.drop_left' (by simp)]
  cases rest with
  | nil => rfl
  | cons g rest => simp [hmay]

theorem read_identifier (hc : isIdentStart c = true) (gs : List Glyph) :
    read inSExpr (.char c) gs = identifier (.char c) gs := by
  have hword : isWordStart c = true := by simp [isWordStart, hc]
  have hne : c ≠ '/' ∧ c ≠ '-' := by
    constructor <;> rintro rfl <;> exact absurd hc (by decide)
  rw [read_word inSExpr hword (fun h => absurd h hne.1), single_word (wordStart_not_delimiter hword),
    isDecimal_of_isIdentStart hc]
  simp [hne.2, hc]

theorem identifier_name (h : IsName (c :: cs)) (hrest : Stops isIdent rest) :
    identifier (.char c) (ofChars cs ++ rest) = symbolOr .symbol cs.length rest := by
  obtain ⟨⟨d, ds, heq, -, hds⟩, hfree⟩ := h
  obtain ⟨rfl, rfl⟩ := List.cons.inj heq
  simp only [keywords, List.mem_cons, List.not_mem_nil, or_false, not_or] at hfree
  rw [identifier_exact hds hrest, if_neg hfree.1, if_neg (not_or.mpr hfree.2)]

theorem IsName.isIdentStart (h : IsName (c :: cs)) : isIdentStart c = true := by
  obtain ⟨⟨d, ds, heq, hd, -⟩, -⟩ := h
  obtain ⟨rfl, rfl⟩ := List.cons.inj heq
  exact hd

theorem read_symbol (h : IsName (c :: cs)) (hrest : Stops isIdent rest)
    (hmark : annotationMark rest = 0) :
    read inSExpr (.char c) (ofChars cs ++ rest) = .token .symbol cs.length := by
  rw [read_identifier h.isIdentStart, identifier_name h hrest, symbolOr]
  simp [hmark]

theorem keyword_exact {type : TokenType} (hmark : annotationMark rest = 0) :
    keyword type cs.length (.char c) (ofChars cs ++ rest) = .token type cs.length := by
  unfold keyword
  rw [List.drop_left' (by simp), if_pos hmark]

theorem read_bool (h : c :: cs = "true".toList ∨ c :: cs = "false".toList)
    (hrest : Stops isIdent rest) (hmark : annotationMark rest = 0) :
    read inSExpr (.char c) (ofChars cs ++ rest) = .token .bool cs.length := by
  have hparts : isIdentStart c = true ∧ (∀ d ∈ cs, isIdent d = true) ∧ c :: cs ≠ "null".toList := by
    rcases h with h | h <;>
    · obtain ⟨rfl, rfl⟩ := List.cons.inj h
      exact ⟨rfl, List.all_iff_forall_prop.mp rfl, by decide⟩
  obtain ⟨hc, hcs, hnull⟩ := hparts
  rw [read_identifier hc, identifier_exact hcs hrest, if_neg hnull, if_pos h, keyword_exact hmark]

theorem nullLiteral_untyped (hrest : Stops (· == '.') rest) (hmark : annotationMark rest = 0) :
    nullLiteral (.char 'n') (ofChars ['u', 'l', 'l'] ++ rest) = .token .null 3 := by
  have hdot : ∀ tail, (ofChars ['u', 'l', 'l'] ++ rest).drop 3 ≠ .char '.' :: tail := by
    intro tail (htail : rest = _)
    subst htail
    exact absurd (hrest '.' rfl) (by decide)
  have h : keyword .null ['u', 'l', 'l'].length (.char 'n') (ofChars ['u', 'l', 'l'] ++ rest) =
      .token .null ['u', 'l', 'l'].length := keyword_exact hmark
  rw [nullLiteral_undotted hdot]
  exact h

theorem nullLiteral_typed {t : String} (ht : t ∈ nullTypes) (hrest : Stops isIdent rest)
    (hmark : annotationMark rest = 0) :
    nullLiteral (.char 'n') (ofChars (['u', 'l', 'l', '.'] ++ t.toList) ++ rest) =
      .token .null (t.toList.length + 4) := by
  have hident : ∀ t ∈ nullTypes, t.toList.all isIdent = true := by decide
  have hdrop : (ofChars (['u', 'l', 'l', '.'] ++ t.toList) ++ rest).drop 3 =
      .char '.' :: (ofChars t.toList ++ rest) := by
    rw [Glyph.ofChars_append]
    rfl
  have hany : nullTypes.any (utf8 · == Text.ofChars t.toList) = true := by
    rw [List.any_eq_true]
    exact ⟨t, ht, beq_iff_eq.mpr rfl⟩
  rw [nullLiteral_dotted hdrop (List.all_eq_true.mp (hident t ht)) hrest, if_pos hany]
  have h : keyword .null (['u', 'l', 'l', '.'] ++ t.toList).length (.char 'n')
      (ofChars (['u', 'l', 'l', '.'] ++ t.toList) ++ rest) = .token .null _ := keyword_exact hmark
  rwa [List.length_append, Nat.add_comm] at h

theorem read_null (h : IsNull (c :: cs)) (hrest : Stops (fun d => isIdent d || d == '.') rest)
    (hmark : annotationMark rest = 0) :
    read inSExpr (.char c) (ofChars cs ++ rest) = .token .null cs.length := by
  have hident : Stops isIdent rest := fun d hd => (Bool.or_eq_false_iff.mp (hrest d hd)).1
  have hdot : Stops (· == '.') rest := fun d hd => (Bool.or_eq_false_iff.mp (hrest d hd)).2
  have hnull : ∀ gs, Stops isIdent gs → read inSExpr (.char 'n') (ofChars ['u', 'l', 'l'] ++ gs) =
      nullLiteral (.char 'n') (ofChars ['u', 'l', 'l'] ++ gs) := by
    intro gs hgs
    rw [read_identifier (by decide), identifier_exact (List.all_iff_forall_prop.mp rfl) hgs,
      if_pos (by decide)]
  rcases h with h | ⟨t, ht, h⟩
  · rw [show "null".toList = ['n', 'u', 'l', 'l'] from rfl] at h
    obtain ⟨rfl, rfl⟩ := List.cons.inj h
    rw [hnull rest hident, nullLiteral_untyped hdot hmark]
    rfl
  · rw [show "null.".toList = ['n', 'u', 'l', 'l', '.'] from rfl] at h
    obtain ⟨rfl, rfl⟩ := List.cons.inj h
    have hsplit : ofChars (['u', 'l', 'l', '.'] ++ t.toList) ++ rest =
        ofChars ['u', 'l', 'l'] ++ .char '.' :: (ofChars t.toList ++ rest) := by simp
    have h := hnull (.char '.' :: (ofChars t.toList ++ rest)) (Glyph.stops_cons.mpr (by decide))
    rw [← hsplit, nullLiteral_typed ht hident hmark] at h
    rw [List.append_eq, h, List.length_append, Nat.add_comm]
    rfl

theorem operatorRun_cons {d : Char} {gs : List Glyph} (hd : isOperator d = true)
    (hslash : d = '/' → gs.head? ≠ some (.char '/') ∧ gs.head? ≠ some (.char '*')) :
    operatorRun (.char d :: gs) = operatorRun gs + 1 := by
  rw [operatorRun.eq_def]
  split
  · rename_i heq
    cases heq
    simp at hslash
  · rename_i heq
    cases heq
    simp at hslash
  · rename_i heq
    cases heq
    rw [if_pos hd]
  · simp_all

/-- The characters of an operator are operator characters and start no comment. -/
theorem operatorRun_eq_length {d : Char} {ds : List Char}
    (h : operatorRun (ofChars (d :: ds)) = ds.length + 1) :
    isOperator d = true ∧ operatorRun (ofChars ds) = ds.length ∧
      (d = '/' → ds.head? ≠ some '/' ∧ ds.head? ≠ some '*') := by
  rw [Glyph.ofChars_cons, operatorRun.eq_def] at h
  split at h
  · omega
  · omega
  · rename_i c gs h1 h2 heq
    obtain ⟨hc, rfl⟩ := List.cons.inj heq
    obtain rfl := Glyph.char.inj hc
    split_ifs at h with hop
    refine ⟨hop, by omega, ?_⟩
    rintro rfl
    match ds, h1, h2 with
    | [], _, _ => simp
    | e :: ds, h1, h2 =>
      constructor <;> intro he <;> simp at he <;> subst he
      · exact h1 (ofChars ds) rfl rfl
      · exact h2 (ofChars ds) rfl rfl
  · omega

theorem head?_append_ne {d : Char} (hd : isOperator d = true) (hcs : cs.head? ≠ some d)
    (hrest : Stops isOperator rest) : (ofChars cs ++ rest).head? ≠ some (.char d) := by
  intro heq
  cases cs with
  | nil => exact absurd (hrest d heq) (by simp [hd])
  | cons e cs => exact hcs (by simpa using heq)

theorem operatorRun_append (h : operatorRun (ofChars cs) = cs.length)
    (hrest : Stops isOperator rest) : operatorRun (ofChars cs ++ rest) = cs.length := by
  induction cs with
  | nil =>
    match rest, hrest with
    | [], _ => rfl
    | .stray b :: gs, _ => rfl
    | .char d :: gs, hrest =>
      have hd := Glyph.stops_cons.mp hrest
      have hne : d ≠ '/' := by
        rintro rfl
        exact absurd hd (by decide)
      rw [Glyph.ofChars_nil, List.nil_append, operatorRun.eq_def]
      simp [hd, hne]
  | cons d cs ih =>
    obtain ⟨hd, hrun, hslash⟩ := operatorRun_eq_length h
    rw [Glyph.ofChars_cons, List.cons_append, operatorRun_cons hd, ih hrun, List.length_cons]
    exact fun hs => ⟨head?_append_ne (by decide) (hslash hs).1 hrest,
      head?_append_ne (by decide) (hslash hs).2 hrest⟩

theorem read_operator (h : IsOperatorWord (c :: cs)) (hrest : Stops isOperator rest)
    (hdigit : c = '-' → Stops Numeral.isDecimal rest) :
    read true (.char c) (ofChars cs ++ rest) = .token .operator cs.length := by
  obtain ⟨d, ds, heq, hc, hrun, hslash⟩ := h
  obtain ⟨rfl, rfl⟩ := List.cons.inj heq
  have hword : isWordStart c = true := by simp [isWordStart, hc]
  have hnodigit : c = '-' → ((ofChars cs ++ rest).head?.map
      (Glyph.isCharWith Numeral.isDecimal)).getD false = false := by
    intro hminus
    match cs, hrun with
    | [], _ =>
      match rest, hdigit hminus with
      | [], _ => rfl
      | .stray b :: gs, _ => rfl
      | .char d :: gs, hdigit => exact Glyph.stops_cons.mp hdigit
    | d :: ds, hrun => exact isDecimal_of_isOperator (operatorRun_eq_length hrun).1
  rw [read_word true hword (fun hs => ⟨head?_append_ne (by decide) (hslash hs).1 hrest,
      head?_append_ne (by decide) (hslash hs).2 hrest⟩),
    single_word (wordStart_not_delimiter hword), isDecimal_of_isOperator hc,
    isIdentStart_of_isOperator hc, operatorRun_append hrun hrest, if_neg]
  · simp [hc]
  · simpa using hnodigit

/-- A pipe ends before a comment. -/
theorem read_pipe_comment {d : Char} (hd : d = '/' ∨ d = '*') :
    read true (.char '|') (.char '/' :: .char d :: rest) = .token .operator 0 := by
  rcases hd with rfl | rfl <;> rfl

/-! ## Texts between delimiters -/

theorem QuoteBody.head_ne {q : Char} {b : List Char} (h : QuoteBody q b) (hq : q ≠ '\\') :
    b.head? ≠ some q := by
  cases h with
  | nil => simp
  | plain hc => simpa using hc
  | escaped => simpa using hq.symm

/-- A quoted symbol is read up to its closing quote, and on to an annotation mark if there is
one. -/
theorem read_quote {b : List Char} (h : QuoteBody '\'' b) (hrest : Stops (· == '\'') rest) :
    read inSExpr (.char '\'') (ofChars (b ++ ['\'']) ++ rest) =
      symbolOr .quotedSymbol (b.length + 1) rest := by
  have hcount : quoteEnd '\'' (ofChars (b ++ ['\'']) ++ rest) = ⟨true, b.length + 1⟩ := by
    have := quoteEnd_complete h (by decide) rest
    simpa using this
  rw [read_single inSExpr (by decide) (by simp) (by simp)]
  · show quotedSymbol _ = _
    unfold quotedSymbol
    rw [hcount]
    dsimp only
    rw [if_pos rfl, List.drop_left' (by simp)]
  · rintro - gs heq
    match b, h.head_ne (by decide) with
    | [], _ =>
      simp only [List.nil_append, Glyph.ofChars_cons, Glyph.ofChars_nil, List.cons_append,
        List.cons.injEq, true_and] at heq
      exact absurd (hrest '\'' (by rw [heq]; rfl)) (by decide)
    | d :: b, hd =>
      simp only [List.cons_append, Glyph.ofChars_cons, List.cons.injEq, Glyph.char.injEq] at heq
      exact hd (by rw [heq.1]; rfl)

theorem read_quoted {b : List Char} (h : QuoteBody '\'' b) (hrest : Stops (· == '\'') rest)
    (hmark : annotationMark rest = 0) :
    read inSExpr (.char '\'') (ofChars (b ++ ['\'']) ++ rest) =
      .token .quotedSymbol (b.length + 1) := by
  rw [read_quote h hrest, symbolOr]
  simp [hmark]

theorem symbolOr_mark {type : TokenType} {k : Nat} {blanks : List Char}
    (hb : ∀ d ∈ blanks, isSpace d = true) :
    symbolOr type k (ofChars (blanks ++ [':', ':']) ++ rest) =
      .token .annotate (k + (blanks.length + 2)) := by
  unfold symbolOr
  rw [annotationMark_complete hb]
  rfl

/-- A mark goes on with neither a name nor a quote. -/
theorem stops_mark {blanks : List Char} (hb : ∀ d ∈ blanks, isSpace d = true) {p : Char → Bool}
    (hp : ∀ c ∈ [' ', '\t', '\r', '\n', '\x0c', '\x0b', ':'], p c = false) :
    Stops p (ofChars (blanks ++ [':', ':']) ++ rest) := by
  match blanks, hb with
  | [], _ => exact Glyph.stops_cons.mpr (hp ':' (by simp))
  | d :: ds, hb =>
    refine Glyph.stops_cons.mpr (hp d ?_)
    have := isSpace_cases (hb d (by simp))
    simp only [List.mem_cons, List.not_mem_nil, or_false] at this ⊢
    tauto

theorem read_annotated {name blanks : List Char} (h : IsName name ∨ IsQuoted name)
    (hb : ∀ d ∈ blanks, isSpace d = true) (hsplit : name ++ blanks ++ [':', ':'] = c :: cs) :
    read inSExpr (.char c) (ofChars cs ++ rest) = .token .annotate cs.length := by
  rcases h with h | ⟨b, hbody, rfl⟩
  · obtain ⟨⟨d, ds, rfl, -, -⟩, -⟩ := id h
    obtain ⟨rfl, rfl⟩ := List.cons.inj hsplit
    have hgs : ofChars (ds.append blanks ++ [':', ':']) ++ rest =
        ofChars ds ++ (ofChars (blanks ++ [':', ':']) ++ rest) := by simp
    rw [List.append_eq, List.append_eq] at *
    rw [hgs, read_identifier h.isIdentStart,
      identifier_name h (stops_mark hb (List.all_iff_forall_prop.mp rfl)), symbolOr_mark hb]
    simp only [List.length_append, Lexeme.token.injEq, true_and]
    simp only [List.length_cons, List.length_nil]
    omega
  · obtain ⟨rfl, rfl⟩ := List.cons.inj hsplit
    have hgs : ofChars ((b ++ ['\'']) ++ blanks ++ [':', ':']) ++ rest =
        ofChars (b ++ ['\'']) ++ (ofChars (blanks ++ [':', ':']) ++ rest) := by simp
    rw [List.append_eq, List.append_eq, hgs,
      read_quote hbody (stops_mark hb (List.all_iff_forall_prop.mp rfl)),
      symbolOr_mark hb]
    simp only [List.length_append, Lexeme.token.injEq, true_and]
    simp only [List.length_cons, List.length_nil]
    omega

theorem read_string {b : List Char} (h : QuoteBody '"' b) :
    read inSExpr (.char '"') (ofChars (b ++ ['"']) ++ rest) = .token .string (b.length + 1) := by
  have hcount : quoteEnd '"' (ofChars (b ++ ['"']) ++ rest) = ⟨true, b.length + 1⟩ := by
    have := quoteEnd_complete h (by decide) rest
    simpa using this
  rw [read_single inSExpr (by decide) (by simp) (by simp) (by simp)]
  show string _ = _
  unfold string delimited
  rw [hcount, if_pos rfl]
  simp

theorem longString_exact {b : List Char} (h : LongBody b) :
    longString (ofChars (b ++ ['\'', '\'', '\'']) ++ rest) = .token .longString (b.length + 5) := by
  unfold longString delimited
  rw [longEnd_complete h, if_pos rfl, show 3 + (b.length + 3) - 1 = b.length + 5 by omega]

theorem read_longString {b : List Char} (h : LongBody b) :
    read inSExpr (.char '\'') (ofChars (['\'', '\''] ++ b ++ ['\'', '\'', '\'']) ++ rest) =
      .token .longString (b.length + 5) := by
  exact longString_exact h

theorem read_blockComment {b : List Char} (h : CommentBody b) :
    read inSExpr (.char '/') (ofChars (['*'] ++ b ++ ['*', '/']) ++ rest) =
      .token .blockComment (b.length + 3) := by
  have hread : read inSExpr (.char '/') (ofChars (['*'] ++ b ++ ['*', '/']) ++ rest) =
      delimited .blockComment 2 (commentEnd (ofChars (b ++ ['*', '/']) ++ rest)) .unterminatedComment :=
    rfl
  rw [hread, commentEnd_complete h, delimited, if_pos rfl,
    show 2 + (b.length + 2) - 1 = b.length + 3 by omega]

theorem read_lineComment {b : List Char} (h : ∀ d ∈ b, d ≠ '\n' ∧ d ≠ '\r') :
    read inSExpr (.char '/') (ofChars (['/'] ++ b ++ ['\n']) ++ rest) =
      .token .lineComment (b.length + 2) := by
  have hread : read inSExpr (.char '/') (ofChars (['/'] ++ b ++ ['\n']) ++ rest) =
      lineComment (ofChars b ++ (.char '\n' :: rest)) := by
    rw [List.append_assoc, Glyph.ofChars_append, List.append_assoc, Glyph.ofChars_append,
      List.append_assoc]
    rfl
  rw [hread]
  unfold lineComment
  dsimp only
  rw [run_exact _ (Glyph.stops_cons.mpr (by decide)), List.drop_left' (by simp)]
  · simp only [lineBreak]
    congr 1
    omega
  · intro d hd
    simpa using h d hd

theorem blobBody?_exact {b : List Char} (hb : '\x7d' ∉ b) (gs : List Glyph) :
    blobBody? (ofChars b ++ .char '\x7d' :: .char '\x7d' :: gs) = some (ofChars b) := by
  induction b with
  | nil => rfl
  | cons d b ih =>
    simp only [List.mem_cons, not_or] at hb
    rw [Glyph.ofChars_cons, List.cons_append, blobBody?.eq_def]
    have hd : Glyph.char d ≠ .char '\x7d' := by simpa using Ne.symm hb.1
    simp [Ne.symm hb.1, ih hb.2]

/-- The contents of a blob start no string, blanks apart. -/
theorem startsString_blob {b : List Char} (h : ∀ d ∈ b, (isSpace d || isBase64 d) = true)
    {gs : List Glyph} :
    startsString ((ofChars b ++ .char '\x7d' :: gs).drop
      (run isSpace (ofChars b ++ .char '\x7d' :: gs))) = false := by
  induction b with
  | nil => rfl
  | cons d b ih =>
    have ih := ih fun e he => h e (by simp [he])
    cases hd : isSpace d with
    | true =>
      rw [Glyph.ofChars_cons, List.cons_append, run_cons hd, List.drop_succ_cons]
      exact ih
    | false =>
      have hb : isBase64 d = true := by simpa [hd] using h d (by simp)
      have hne : d ≠ '"' ∧ d ≠ '\'' := by
        constructor <;> rintro rfl <;> exact absurd hb (by decide)
      rw [Glyph.ofChars_cons, List.cons_append, run_of_stops (Glyph.stops_cons.mpr hd),
        List.drop_zero]
      simp [startsString, hne]

theorem read_blob {b : List Char} (h : ∀ d ∈ b, (isSpace d || isBase64 d) = true) :
    read inSExpr (.char '\x7b') (ofChars (['\x7b'] ++ b ++ ['\x7d', '\x7d']) ++ rest) =
      .token .blob (b.length + 3) := by
  have hread : read inSExpr (.char '\x7b') (ofChars (['\x7b'] ++ b ++ ['\x7d', '\x7d']) ++ rest) =
      lob (ofChars b ++ .char '\x7d' :: .char '\x7d' :: rest) := by
    rw [List.append_assoc, Glyph.ofChars_append, List.append_assoc, Glyph.ofChars_append,
      List.append_assoc]
    rfl
  have hclose : '\x7d' ∉ b := fun hmem => absurd (h _ hmem) (by decide)
  rw [hread]
  unfold lob
  rw [startsString_blob h, blobBody?_exact hclose]
  have hfind : (ofChars b).find? (fun g => !(isSpace g.shown || isBase64 g.shown)) = none := by
    rw [List.find?_eq_none]
    intro g hg
    obtain ⟨d, hd, rfl⟩ := List.mem_map.mp hg
    have := h d hd
    simp [Glyph.shown, this]
  simp only [hfind]
  simp

theorem read_whitespace (hc : isSpace c = true) (h : ∀ d ∈ cs, isSpace d = true)
    (hrest : Stops isSpace rest) :
    read inSExpr (.char c) (ofChars cs ++ rest) = .token .whitespace cs.length := by
  unfold read
  simp only [hc, if_true]
  rw [run_exact h hrest]

theorem read_clobOpen (h : startsString (rest.drop (run isSpace rest)) = true) :
    read inSExpr (.char '\x7b') (.char '\x7b' :: rest) = .token .clobOpen 1 := by
  have hread : read inSExpr (.char '\x7b') (.char '\x7b' :: rest) = lob rest := rfl
  rw [hread, lob, if_pos h]

/-- The tokens of one character, but for an opening brace before another one. -/
theorem read_fixed {type : TokenType} (h : (type, [c]) ∈ fixedSpellings)
    (hbrace : c = '\x7b' → rest.head? ≠ some (.char '\x7b')) :
    read inSExpr (.char c) rest = .token type 0 := by
  simp only [fixedSpellings, List.mem_cons, Prod.mk.injEq, List.cons.injEq, and_true,
    List.not_mem_nil, or_false, reduceCtorEq, and_false] at h
  have hread : ∀ d, d ∈ ['(', ')', '[', ']', '\x7b', '\x7d', ':', ','] → c = d →
      read inSExpr (.char c) rest = single inSExpr d rest := by
    rintro d hd rfl
    have hparts : isSpace c = false ∧ c ≠ '/' ∧ c ≠ '\'' := by
      simp only [List.mem_cons, List.not_mem_nil, or_false] at hd
      rcases hd with rfl | rfl | rfl | rfl | rfl | rfl | rfl | rfl <;> decide
    exact read_single inSExpr hparts.1 (fun h => absurd h hparts.2.1) hbrace
      (fun h => absurd h hparts.2.2)
  rcases h with ⟨rfl, h⟩ | ⟨rfl, h⟩ | ⟨rfl, h⟩ | ⟨rfl, h⟩ | ⟨rfl, h⟩ | ⟨rfl, h⟩ | ⟨rfl, h⟩ | ⟨rfl, h⟩ <;>
  · rw [hread _ (by simp) h]
    rfl

/-! ## Inside clobs -/

theorem readInClob_string {b : List Char} (h : QuoteBody '"' b) :
    readInClob (.char '"') (ofChars (b ++ ['"']) ++ rest) = .token .string (b.length + 1) := by
  have hread : read false (.char '"') (ofChars (b ++ ['"']) ++ rest) = .token .string (b.length + 1) :=
    read_string h
  rw [read_single false (by decide) (by simp) (by simp) (by simp)] at hread
  exact hread

theorem readInClob_longString {b : List Char} (h : LongBody b) :
    readInClob (.char '\'') (ofChars (['\'', '\''] ++ b ++ ['\'', '\'', '\'']) ++ rest) =
      .token .longString (b.length + 5) := longString_exact h

theorem readInClob_whitespace (hc : isSpace c = true) (h : ∀ d ∈ cs, isSpace d = true)
    (hrest : Stops isSpace rest) :
    readInClob (.char c) (ofChars cs ++ rest) = .token .whitespace cs.length := by
  have hne : c ≠ '\x7d' ∧ c ≠ '\'' ∧ c ≠ '"' := by
    refine ⟨?_, ?_, ?_⟩ <;> rintro rfl <;> exact absurd hc (by decide)
  unfold readInClob
  split
  · rename_i heq _
    exact absurd (Glyph.char.inj heq) hne.1
  · rename_i heq _
    exact absurd (Glyph.char.inj heq) hne.2.1
  · rename_i heq
    exact absurd (Glyph.char.inj heq) hne.2.2
  · rw [run_exact h hrest]
    simp [Glyph.isCharWith, hc]

theorem readInClob_close : readInClob (.char '\x7d') (.char '\x7d' :: rest) = .token .clobClose 1 :=
  rfl

end FusionKit.Lexeme
