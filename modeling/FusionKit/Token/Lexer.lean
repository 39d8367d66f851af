import FusionKit.Token.Cursor

/-!
# The lexer

A lexer reads the tokens of a source one by one. What stands at its cursor selects one of the paths
below. A path is made of operations of the cursor; what it has passed in the end is the token. Each
path comes with the lemma that a token takes at least one character, which is why reading token by
token ends.

Whether a symbol made of operator characters may start depends on the innermost open delimiter.
Inside a clob only white space and strings may stand.
-/
namespace FusionKit

open Lexeme

/-- What reading a token comes to. -/
inductive Lexed where
  /-- A token of what the cursor has passed since its start. -/
  | token (type : TokenType) (c : Cursor)
  /-- A fault at the start of the cursor, noticed where the cursor is. -/
  | fault (cause : LexFault) (c : Cursor)
  /-- The end of the source. -/
  | ended
  deriving Repr

namespace Lexed

variable {c d : Cursor}

/-- A path that has come as far as the cursor `c` gives a word after some more characters, or a fault
after some more, which then perhaps are not part of it. -/
def GoesOn (c : Cursor) : Lexed → Prop
  | token type c' => IsWord type ∧ c.Reaches c'
  | fault _ c' => ∃ d, c.Reaches d ∧ (c' = d ∨ c' = d.ignore)
  | ended => False

/-- A path from the cursor `c` on gives a word of one character or more, a fault, or the end when there
is nothing to read. -/
def StartsAt (c : Cursor) : Lexed → Prop
  | token type c' => IsWord type ∧ ∃ d, c.step = .ok d ∧ d.Reaches c'
  | fault cause c' => GoesOn c (fault cause c')
  | ended => c.here.rest = []

theorem goesOn_token {type : TokenType} {c c' : Cursor} (h : c.Reaches c') (hword : IsWord type) :
    GoesOn c (token type c') := ⟨hword, h⟩

theorem goesOn_fault (cause : LexFault) {c c' : Cursor} (h : c.Reaches c') : GoesOn c (fault cause c') :=
  ⟨c', h, .inl rfl⟩

theorem GoesOn.after {c d : Cursor} {r : Lexed} (hr : GoesOn d r) (h : c.Reaches d) : GoesOn c r := by
  cases r with
  | token type c' => exact ⟨hr.1, h.trans hr.2⟩
  | fault cause c' =>
    obtain ⟨e, he, hc'⟩ := hr
    exact ⟨e, h.trans he, hc'⟩
  | ended => exact hr

/-- A path starts where its first character is passed. -/
theorem GoesOn.startsAt {c d : Cursor} {r : Lexed} (hr : GoesOn d r) (h : c.step = .ok d) :
    StartsAt c r := by
  cases r with
  | token type c' => exact ⟨hr.1, d, h, hr.2⟩
  | fault cause c' => exact hr.after (Cursor.reaches_of_step h)
  | ended => exact hr.elim

theorem startsAt_fault (cause : LexFault) (c : Cursor) : StartsAt c (fault cause c) :=
  goesOn_fault cause (.refl c)

/-! ## Words -/

/-- White space. -/
def whitespace (c : Cursor) : Lexed := token .whitespace (c.acceptAll isSpace)

theorem whitespace_startsAt (h : c.step = .ok d) (hx : isSpace d.last = true) :
    StartsAt c (whitespace c) :=
  (goesOn_token (Cursor.reaches_acceptAll_of_step h hx) (by decide)).startsAt h

/-- A token of one character. -/
def single (type : TokenType) (c : Cursor) : Lexed := token type c.proceed

theorem single_startsAt {type : TokenType} (hword : IsWord type) (h : c.step = .ok d) :
    StartsAt c (single type c) := by
  rw [single, Cursor.proceed_of_step h]
  exact (goesOn_token (.refl d) hword).startsAt h

/-- A line comment with its line break: carriage return, line feed, or both in this order. -/
def lineComment (c : Cursor) : Lexed :=
  let body := c.acceptAll fun x => x != '\n' && x != '\r'
  let turned := (body.accept (· == '\r')).getD body
  token .lineComment ((turned.accept (· == '\n')).getD turned)

theorem lineComment_startsAt (h : c.step = .ok d) (hx : isSpace d.last = false) :
    StartsAt c (lineComment c) := by
  have hbreak : (d.last != '\n' && d.last != '\r') = true := by
    simp only [isSpace, Bool.or_eq_false_iff] at hx
    simp [bne, hx]
  have hbody := Cursor.reaches_acceptAll_of_step (p := fun x => x != '\n' && x != '\r') h hbreak
  have hturned := hbody.getD fun e he => Cursor.reaches_of_accept (p := (· == '\r')) he
  have hended := hturned.getD fun e he => Cursor.reaches_of_accept (p := (· == '\n')) he
  exact (goesOn_token hended (by decide)).startsAt h

/-- The rest of a block comment. -/
def commentEnd (c : Cursor) : Lexed :=
  match c.acceptText (utf8 "*/") with
  | some closed => token .blockComment closed
  | none =>
    match _ : c.step with
    | .ok c' => commentEnd c'
    | .error _ => fault .unterminatedComment c
termination_by c.here.rest.length
decreasing_by exact Cursor.length_lt_of_step ‹c.step = .ok c'›

theorem commentEnd_goesOn (c : Cursor) : GoesOn c (commentEnd c) := by
  fun_induction commentEnd c with
  | case1 c closed hclosed => exact goesOn_token (Cursor.reaches_of_acceptText hclosed) (by decide)
  | case2 c hopen c' hstep ih => exact ih.after (Cursor.reaches_of_step hstep)
  | case3 c hopen cause hstep => exact goesOn_fault _ (.refl c)

/-- A block comment. -/
def blockComment (c : Cursor) : Lexed := commentEnd (c.skip 2)

theorem blockComment_startsAt (h : c.step = .ok d) : StartsAt c (blockComment c) :=
  ((commentEnd_goesOn _).after (Cursor.reaches_skip_of_step h (by decide))).startsAt h

/-- The rest of a text on one line closed by `quote`; a backslash takes the next character along. -/
def quoteEnd (quote : Char) (closed : Cursor → Lexed) (cause : LexFault) (c : Cursor) : Lexed :=
  match _ : c.step with
  | .error _ => fault cause c
  | .ok c' =>
    if c'.last == quote then closed c'
    else if c'.last == '\n' || c'.last == '\r' then fault cause c'
    else if c'.last == '\\' then
      match _ : c'.step with
      | .error _ => fault cause c'
      | .ok escaped => quoteEnd quote closed cause escaped
    else quoteEnd quote closed cause c'
termination_by c.here.rest.length
decreasing_by
  · exact Nat.lt_trans (Cursor.length_lt_of_step ‹c'.step = .ok escaped›)
      (Cursor.length_lt_of_step ‹c.step = .ok c'›)
  · exact Cursor.length_lt_of_step ‹c.step = .ok c'›

theorem quoteEnd_goesOn {quote : Char} {closed : Cursor → Lexed} {cause : LexFault}
    (hclosed : ∀ c, GoesOn c (closed c)) (c : Cursor) : GoesOn c (quoteEnd quote closed cause c) := by
  fun_induction quoteEnd quote closed cause c with
  | case1 c stop hstep => exact goesOn_fault cause (.refl c)
  | case2 c c' hstep hquote => exact (hclosed c').after (Cursor.reaches_of_step hstep)
  | case3 c c' hstep hquote hbreak => exact goesOn_fault cause (Cursor.reaches_of_step hstep)
  | case4 c c' hstep hquote hbreak hescape stop hnext =>
    exact goesOn_fault cause (Cursor.reaches_of_step hstep)
  | case5 c c' hstep hquote hbreak hescape escaped hnext ih =>
    exact ih.after (.step hstep (Cursor.reaches_of_step hnext))
  | case6 c c' hstep hquote hbreak hescape ih => exact ih.after (Cursor.reaches_of_step hstep)

/-- A string. -/
def string (c : Cursor) : Lexed := quoteEnd '"' (token .string) .unterminatedString c.proceed

theorem string_startsAt (h : c.step = .ok d) : StartsAt c (string c) := by
  rw [string, Cursor.proceed_of_step h]
  exact (quoteEnd_goesOn (fun e => goesOn_token (.refl e) (by decide)) d).startsAt h

/-- The rest of a text closed by three single quotes. -/
def longEnd (c : Cursor) : Lexed :=
  match c.acceptText (utf8 "'''") with
  | some closed => token .longString closed
  | none =>
    match _ : c.step with
    | .error _ => fault .unterminatedLongString c
    | .ok c' =>
      if c'.last == '\\' then
        match _ : c'.step with
        | .error _ => fault .unterminatedLongString c'
        | .ok escaped => longEnd escaped
      else longEnd c'
termination_by c.here.rest.length
decreasing_by
  · exact Nat.lt_trans (Cursor.length_lt_of_step ‹c'.step = .ok escaped›)
      (Cursor.length_lt_of_step ‹c.step = .ok c'›)
  · exact Cursor.length_lt_of_step ‹c.step = .ok c'›

theorem longEnd_goesOn (c : Cursor) : GoesOn c (longEnd c) := by
  fun_induction longEnd c with
  | case1 c closed hclosed => exact goesOn_token (Cursor.reaches_of_acceptText hclosed) (by decide)
  | case2 c hopen stop hstep => exact goesOn_fault _ (.refl c)
  | case3 c hopen c' hstep hescape stop hnext => exact goesOn_fault _ (Cursor.reaches_of_step hstep)
  | case4 c hopen c' hstep hescape escaped hnext ih =>
    exact ih.after (.step hstep (Cursor.reaches_of_step hnext))
  | case5 c hopen c' hstep hescape ih => exact ih.after (Cursor.reaches_of_step hstep)

/-- A long string. -/
def longString (c : Cursor) : Lexed := longEnd (c.skip 3)

theorem longString_startsAt (h : c.step = .ok d) : StartsAt c (longString c) :=
  ((longEnd_goesOn _).after (Cursor.reaches_skip_of_step h (by decide))).startsAt h

/-- The symbol just passed, or the annotation that it is part of. -/
def symbolOr (type : TokenType) (c : Cursor) : Lexed :=
  let mark := annotationMark c.here.rest
  if mark = 0 then token type c else token .annotate (c.skip mark)

theorem symbolOr_goesOn {type : TokenType} (hword : IsWord type) (c : Cursor) :
    GoesOn c (symbolOr type c) := by
  unfold symbolOr
  dsimp only
  split
  · exact goesOn_token (.refl c) hword
  · exact goesOn_token (Cursor.reaches_skip _ c) (by decide)

/-- The keyword just passed, which cannot annotate. -/
def keyword (type : TokenType) (c : Cursor) : Lexed :=
  if annotationMark c.here.rest = 0 then token type c else fault (.annotatingKeyword c.text) c

theorem keyword_goesOn {type : TokenType} (hword : IsWord type) (c : Cursor) :
    GoesOn c (keyword type c) := by
  unfold keyword
  split
  · exact goesOn_token (.refl c) hword
  · exact goesOn_fault _ (.refl c)

/-- A quoted symbol, or an annotation. -/
def quotedSymbol (c : Cursor) : Lexed :=
  quoteEnd '\'' (symbolOr .quotedSymbol) .unterminatedSymbol c.proceed

theorem quotedSymbol_startsAt (h : c.step = .ok d) : StartsAt c (quotedSymbol c) := by
  rw [quotedSymbol, Cursor.proceed_of_step h]
  exact (quoteEnd_goesOn (symbolOr_goesOn (by decide)) d).startsAt h

/-- A typed or untyped null whose first four characters are passed. -/
def nullLiteral (c : Cursor) : Lexed :=
  match c.accept (· == '.') with
  | none => keyword .null c
  | some dotted =>
    let typed := dotted.acceptAll isIdent
    let name := Text.trimStart (utf8 "null.") typed.text
    if nullTypes.any (utf8 · == name) then keyword .null typed else fault (.nullType name) typed

theorem nullLiteral_goesOn (c : Cursor) : GoesOn c (nullLiteral c) := by
  have hword : IsWord .null := by decide
  unfold nullLiteral
  split
  · exact keyword_goesOn hword c
  · rename_i dotted hdotted
    have htyped := (Cursor.reaches_of_accept hdotted).trans (Cursor.reaches_acceptAll isIdent dotted)
    dsimp only
    split
    · exact (keyword_goesOn hword _).after htyped
    · exact goesOn_fault _ htyped

/-- An identifier, a keyword or an annotation. -/
def identifier (c : Cursor) : Lexed :=
  let named := c.acceptAll isIdent
  let name := named.text
  if name == utf8 "null" then nullLiteral named
  else if name == utf8 "true" || name == utf8 "false" then keyword .bool named
  else symbolOr .symbol named

theorem identifier_startsAt (h : c.step = .ok d) (hx : isIdentStart d.last = true) :
    StartsAt c (identifier c) := by
  have hident : isIdent d.last = true := by rw [isIdent, hx, Bool.true_or]
  have hnamed := Cursor.reaches_acceptAll_of_step h hident
  refine GoesOn.startsAt (GoesOn.after ?_ hnamed) h
  unfold identifier
  dsimp only
  split
  · exact nullLiteral_goesOn _
  split
  · exact keyword_goesOn (by decide) _
  · exact symbolOr_goesOn (by decide) _

/-- A symbol made of operator characters, which ends before a comment. -/
def operator (c : Cursor) : Lexed :=
  if c.startsWith (utf8 "//") || c.startsWith (utf8 "/*") then token .operator c
  else
    match _ : c.accept isOperator with
    | some c' => operator c'
    | none => token .operator c
termination_by c.here.rest.length
decreasing_by
  exact Cursor.length_lt_of_step (Cursor.exists_of_accept ‹c.accept isOperator = some c'›).1

theorem operator_goesOn (c : Cursor) : GoesOn c (operator c) := by
  have hword : IsWord .operator := by decide
  fun_induction operator c with
  | case1 c hcomment => exact goesOn_token (.refl c) hword
  | case2 c hcomment c' haccept ih => exact ih.after (Cursor.reaches_of_accept haccept)
  | case3 c hcomment haccept => exact goesOn_token (.refl c) hword

/-- An operator symbol starts where no comment does. -/
theorem operator_startsAt (h : c.step = .ok d) (hx : isOperator d.last = true)
    (hline : c.startsWith (utf8 "//") = false) (hblock : c.startsWith (utf8 "/*") = false) :
    StartsAt c (operator c) := by
  rw [operator, if_neg (by simp [hline, hblock]), Cursor.accept_of_step h hx]
  exact (operator_goesOn d).startsAt h

/-- A numeral, which has to end at a delimiter. A character that must not follow it is the place of
the fault. -/
def numeral (inSExpr : Bool) (c : Cursor) : Lexed :=
  match Numeral.longest? c.here.rest with
  | none => fault .numeral c
  | some (type, length) =>
    let behind := c.skip length
    if mayFollowNumeral inSExpr behind.here.rest then token type behind
    else fault (.charInNumeral (behind.shownAhead 0)) behind.ignore

theorem numeral_startsAt (inSExpr : Bool) (h : c.step = .ok d) : StartsAt c (numeral inSExpr c) := by
  unfold numeral
  split
  · exact startsAt_fault _ c
  · rename_i type length hlongest
    obtain ⟨htype, hlength⟩ := Numeral.longest?_spec hlongest
    have hword : IsWord type := (by decide : ∀ t ∈ [.int, .real, .timestamp], IsWord t) type htype
    have hbehind := Cursor.reaches_skip_of_step h hlength
    dsimp only
    split
    · exact (goesOn_token hbehind hword).startsAt h
    · exact ⟨_, .step h hbehind, .inr rfl⟩

/-- The start of a clob, or a blob. -/
def lob (c : Cursor) : Lexed :=
  let content := c.here.rest.drop 2
  if startsString (content.drop (run isSpace content)) then token .clobOpen (c.skip 2)
  else
    match blobBody? content with
    | none => fault .unterminatedBlob c
    | some body =>
      match body.find? fun g => !(isSpace g.shown || isBase64 g.shown) with
      | some g => fault (.charInBlob g.shown) c
      | none => token .blob (c.skip (2 + (Text.ofGlyphs body).length + 2))

theorem lob_startsAt (h : c.step = .ok d) : StartsAt c (lob c) := by
  unfold lob
  dsimp only
  split
  · exact (goesOn_token (Cursor.reaches_skip_of_step h (by decide)) (by decide)).startsAt h
  · split
    · exact startsAt_fault _ c
    · split
      · exact startsAt_fault _ c
      · exact (goesOn_token (Cursor.reaches_skip_of_step h (by omega)) (by decide)).startsAt h

/-- A token that starts with the character `x`, when it is not a blank and starts none of the
delimiters of several characters. -/
def startingWith (inSExpr : Bool) (x : Char) (c : Cursor) : Lexed :=
  match x with
  | '(' => single .parenOpen c
  | ')' => single .parenClose c
  | '[' => single .bracketOpen c
  | ']' => single .bracketClose c
  | '\x7b' => single .braceOpen c
  | '\x7d' => single .braceClose c
  | ':' => single .colon c
  | ',' => single .comma c
  | '"' => string c
  | '\'' => quotedSymbol c
  | _ =>
    if Numeral.isDecimal x || (x == '-' && Numeral.isDecimal (c.shownAhead 1)) then numeral inSExpr c
    else if isIdentStart x then identifier c
    else if isOperator x then
      if inSExpr then operator c else fault (.operatorOutside x) c
    else fault (.unexpected x) c

theorem startingWith_startsAt (inSExpr : Bool) (h : c.step = .ok d)
    (hline : c.startsWith (utf8 "//") = false) (hblock : c.startsWith (utf8 "/*") = false) :
    StartsAt c (startingWith inSExpr d.last c) := by
  unfold startingWith
  split
  case h_9 => exact string_startsAt h
  case h_10 => exact quotedSymbol_startsAt h
  case h_11 =>
    split
    · exact numeral_startsAt inSExpr h
    split
    · exact identifier_startsAt h ‹_›
    split
    · rename_i hoperator
      split
      · exact operator_startsAt h hoperator hline hblock
      · exact startsAt_fault _ c
    · exact startsAt_fault _ c
  all_goals exact single_startsAt (by decide) h

/-- Reads a token outside of clobs. -/
def read (inSExpr : Bool) (c : Cursor) : Lexed :=
  match c.here.rest with
  | [] => ended
  | .stray b :: _ => fault (.strayByte b) c
  | .char x :: _ =>
    if isSpace x then whitespace c
    else if c.startsWith (utf8 "//") then lineComment c
    else if c.startsWith (utf8 "/*") then blockComment c
    else if c.startsWith (utf8 "\x7b\x7b") then lob c
    else if c.startsWith (utf8 "'''") then longString c
    else startingWith inSExpr x c

theorem read_startsAt (inSExpr : Bool) (c : Cursor) : StartsAt c (read inSExpr c) := by
  unfold read
  split
  · rename_i hrest
    exact hrest
  · exact startsAt_fault _ c
  · rename_i x gs hrest
    have hstep := Cursor.step_of_rest hrest
    split
    · exact whitespace_startsAt hstep ‹_›
    rename_i hspace
    split
    · exact lineComment_startsAt hstep (eq_false_of_ne_true hspace)
    rename_i hline
    split
    · exact blockComment_startsAt hstep
    rename_i hblock
    split
    · exact lob_startsAt hstep
    split
    · exact longString_startsAt hstep
    · exact startingWith_startsAt inSExpr hstep (eq_false_of_ne_true hline)
        (eq_false_of_ne_true hblock)

/-- Reads a token inside a clob. -/
def readInClob (c : Cursor) : Lexed :=
  match c.here.rest with
  | [] => fault .unterminatedClob c
  | .stray _ :: _ => fault (.charInClob (c.shownAhead 0)) c
  | .char x :: _ =>
    if isSpace x then whitespace c
    else if c.startsWith (utf8 "\x7d\x7d") then token .clobClose (c.skip 2)
    else if c.startsWith (utf8 "'''") then longString c
    else if x == '"' then string c
    else fault (.charInClob x) c

theorem readInClob_startsAt (c : Cursor) : StartsAt c (readInClob c) := by
  unfold readInClob
  split
  · exact startsAt_fault _ c
  · exact startsAt_fault _ c
  · rename_i x gs hrest
    have hstep := Cursor.step_of_rest hrest
    split
    · exact whitespace_startsAt hstep ‹_›
    split
    · exact (goesOn_token (Cursor.reaches_skip_of_step hstep (by decide)) (by decide)).startsAt hstep
    split
    · exact longString_startsAt hstep
    split
    · exact string_startsAt hstep
    · exact startsAt_fault _ c

end Lexed

/-- Where a source is read: which delimiters are open, the innermost first, and whether the
reader is inside a clob. -/
structure LexContext where
  opened : List TokenType := []
  inClob : Bool := false
  deriving DecidableEq, Repr

namespace LexContext

/-- Whether the innermost open delimiter is a parenthesis. -/
def inSExpr (c : LexContext) : Bool := c.opened.head? == some .parenOpen

/-- Forgets the innermost open delimiter when it is the given one. -/
def close (c : LexContext) (opening : TokenType) : LexContext :=
  if c.opened.head? == some opening then { c with opened := c.opened.tail } else c

/-- The context after a token. -/
def after (c : LexContext) : TokenType → LexContext
  | .parenOpen => { c with opened := .parenOpen :: c.opened }
  | .bracketOpen => { c with opened := .bracketOpen :: c.opened }
  | .braceOpen => { c with opened := .braceOpen :: c.opened }
  | .parenClose => c.close .parenOpen
  | .bracketClose => c.close .bracketOpen
  | .braceClose => c.close .braceOpen
  | .clobOpen => { c with inClob := true }
  | .clobClose => { c with inClob := false }
  | _ => c

/-- Reads what stands at a cursor. -/
def read (c : LexContext) (cursor : Cursor) : Lexed :=
  if c.inClob then Lexed.readInClob cursor else Lexed.read c.inSExpr cursor

theorem read_startsAt (c : LexContext) (cursor : Cursor) :
    Lexed.StartsAt cursor (c.read cursor) := by
  unfold read
  split
  · exact Lexed.readInClob_startsAt cursor
  · exact Lexed.read_startsAt _ cursor

end LexContext

/-- A reader of tokens: a cursor at the start of a token, and the context there. -/
structure Lexer where
  cursor : Cursor
  context : LexContext := {}
  /-- Whether the end or a fault has been read. -/
  ended : Bool := false
  deriving Repr

namespace Lexer

/-- A lexer at the start of a source. -/
def ofSource (file source : Text) : Lexer := { cursor := .ofSource file source }

/-- Reads the next token. After the end or a fault there are only ends, all of them where the cursor
is. -/
def next (l : Lexer) : Token × Lexer :=
  if l.ended then (l.cursor.ignore.bare .eof [], l)
  else
    match l.context.read l.cursor with
    | .token type c =>
      ((c.emit type).1, { l with cursor := (c.emit type).2, context := l.context.after type })
    | .fault cause c => (c.bare .error cause.message, { l with cursor := c.ignore, ended := true })
    | .ended => (l.cursor.bare .eof [], { l with cursor := l.cursor.ignore, ended := true })

/-- How much there is to read before there are only ends. -/
def ahead (l : Lexer) : Nat := if l.ended then 0 else l.cursor.here.rest.length + 1

theorem ahead_next_lt {l : Lexer} (h : l.next.1.type ≠ .eof) : l.next.2.ahead < l.ahead := by
  have hread := l.context.read_startsAt l.cursor
  unfold next at h ⊢
  cases hended : l.ended with
  | true =>
    rw [hended] at h
    exact absurd rfl h
  | false =>
    have hahead : l.ahead = l.cursor.here.rest.length + 1 := by simp [ahead, hended]
    rw [hahead]
    simp only [Bool.false_eq_true, if_false]
    split
    · rename_i type c htoken
      rw [htoken] at hread
      obtain ⟨-, d, hstep, hreaches⟩ := hread
      have hlt := Nat.lt_of_le_of_lt hreaches.length_le (Cursor.length_lt_of_step hstep)
      simpa [ahead, hended, Cursor.emit, Cursor.ignore] using hlt
    · exact Nat.succ_pos _
    · exact Nat.succ_pos _

/-- All tokens in front of the end, and the end. -/
def drain (l : Lexer) : List Token × Token :=
  match _ : l.next with
  | (t, l') =>
    if _ : t.type = .eof then ([], t)
    else
      let (tokens, last) := drain l'
      (t :: tokens, last)
termination_by l.ahead
decreasing_by
  have hnext : l.next = (t, l') := ‹l.next = (t, l')›
  have hlt : l.next.2.ahead < l.ahead := ahead_next_lt (by rw [hnext]; assumption)
  rwa [hnext] at hlt

end Lexer

end FusionKit
