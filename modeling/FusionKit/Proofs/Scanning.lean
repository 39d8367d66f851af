import FusionKit.Proofs.BlockComments
import FusionKit.Proofs.LexerPaths

/-!
# What a scan yields

Each token of a source is spelled as its type says, in the context in which it stands, and after
the opening of a clob there is a string before the clob is closed. Only the last token may be a
fault.
-/
set_option autoImplicit false

namespace FusionKit

open Lexeme (Spelling QuoteBody CommentBody run startsString isSpace fixedSpellings)
open Glyph (ofChars)

/-- A token that is spelled as its type says, in a context. -/
structure Token.Spelled (c : LexContext) (t : Token) : Prop where
  outside : c.inClob = false → ∃ w, t.text = Text.ofChars w ∧ Spelling c.inSExpr t.type w
  inside : c.inClob = true → t.type ∈ [TokenType.clobClose, .longString, .string, .whitespace] ∧
    ∃ w, t.text = Text.ofChars w ∧ Spelling false t.type w

/-- Whether a clob has to hold a string still, after a token. -/
def LexContext.owesAfter (owes : Bool) : TokenType → Bool
  | .clobOpen => true
  | .string | .longString => false
  | _ => owes

/-- The tokens of a source from a context on; `owes` tells that a clob is open in which no string
was read yet. -/
inductive Token.Scan : LexContext → Bool → List Token → Prop where
  | done (c : LexContext) (owes : Bool) : Scan c owes []
  | fault (c : LexContext) (owes : Bool) {t : Token} (h : t.type = .error) : Scan c owes [t]
  | token {c : LexContext} {owes : Bool} {t : Token} {ts : List Token} (ht : t.Spelled c)
      (hclob : owes = true → t.type ≠ .clobClose)
      (h : Scan (c.after t.type) (LexContext.owesAfter owes t.type) ts) : Scan c owes (t :: ts)

namespace Lexeme

/-- Where a string starts after blanks, there is nothing that closes a clob. -/
theorem readInClob_startsString {g : Glyph} {gs : List Glyph}
    (h : startsString ((g :: gs).drop (run isSpace (g :: gs))) = true) {more : Nat} {type : TokenType}
    (hread : readInClob g gs = .token type more) :
    type ∈ [TokenType.string, .longString] ∨ type = .whitespace ∧
      startsString ((gs.drop more).drop (run isSpace (gs.drop more))) = true := by
  cases hg : g.isCharWith isSpace with
  | false =>
    have hrun : run isSpace (g :: gs) = 0 := by simp [run, hg]
    rw [hrun, List.drop_zero] at h
    unfold startsString at h
    split at h
    · rename_i heq
      cases heq
      obtain ⟨rfl, -⟩ := @string_sound false _ _ gs hread
      exact .inl (by simp)
    · rename_i rest heq
      cases heq
      obtain ⟨rfl, -⟩ := @longString_sound false _ _ rest hread
      exact .inl (by simp)
    · contradiction
  | true =>
    cases g with
    | stray b => simp [Glyph.isCharWith] at hg
    | char c =>
      have hc : isSpace c = true := hg
      rw [run_cons hc, List.drop_succ_cons] at h
      obtain ⟨w, rest, rfl, hl, hw, hstops⟩ := run_split isSpace gs
      rw [readInClob_whitespace hc hw hstops] at hread
      cases hread
      refine .inr ⟨rfl, ?_⟩
      rw [← hl, List.drop_left' (by simp)] at h
      rw [List.drop_left' (by simp), run_of_stops hstops]
      exact h

end Lexeme

namespace Token

theorem spelled_ofGlyphs {file : Text} {c : LexContext} {m : Mark} {type : TokenType} {more : Nat}
    {g : Glyph} {gs : List Glyph} (h : c.lexeme g gs = .token type more) :
    (ofGlyphs file type m (g :: gs.take more)).Spelled c := by
  have hbegins : ∀ {b : Bool}, Lexeme.Begins b type more g gs → ∃ w,
      (ofGlyphs file type m (g :: gs.take more)).text = Text.ofChars w ∧ Spelling b type w := by
    rintro b ⟨w, rest, hsplit, hlen, hw⟩
    refine ⟨w, ?_, hw⟩
    have htake := congrArg (List.take (more + 1)) hsplit
    rw [List.take_succ_cons, List.take_left' (by simp [hlen])] at htake
    show Text.ofGlyphs (g :: gs.take more) = Text.ofChars w
    rw [htake, Text.ofGlyphs_ofChars]
  constructor
  · intro hc
    rw [LexContext.lexeme, hc] at h
    exact hbegins (Lexeme.read_sound h).1
  · intro hc
    rw [LexContext.lexeme, if_pos hc] at h
    obtain ⟨hw, ht⟩ := Lexeme.readInClob_sound h
    exact ⟨ht, hbegins hw⟩

theorem scan_scan (file : Text) (c : LexContext) (m : Mark) (gs : List Glyph) (owes : Bool)
    (howes : owes = true → c.inClob = true ∧ startsString (gs.drop (run isSpace gs)) = true) :
    Scan c owes (scan file c m gs).1 := by
  fun_induction scan file c m gs generalizing owes with
  | case1 c m hclob => exact .fault c owes rfl
  | case2 c m hclob => exact .done c owes
  | case3 c m g gs type more hlex body tokens last htail ih =>
    have hspelled : (ofGlyphs file type m body).Spelled c := spelled_ofGlyphs hlex
    -- a clob that holds no string yet goes on with blanks or a string
    have hclob : owes = true → type ∈ [TokenType.string, .longString] ∨ type = .whitespace ∧
        startsString ((gs.drop more).drop (run isSpace (gs.drop more))) = true := by
      intro hw
      obtain ⟨hin, hstarts⟩ := howes hw
      rw [LexContext.lexeme, if_pos hin] at hlex
      exact Lexeme.readInClob_startsString hstarts hlex
    refine .token hspelled (fun hw => ?_) ?_
    · rcases hclob hw with h | ⟨h, -⟩
      · simp only [List.mem_cons, List.not_mem_nil, or_false] at h
        rcases h with rfl | rfl <;> simp [ofGlyphs]
      · simp [ofGlyphs, h]
    · have hrest := ih (LexContext.owesAfter owes type) ?_
      · rwa [htail] at hrest
      intro hw
      by_cases ho : type = .clobOpen
      · subst ho
        refine ⟨rfl, ?_⟩
        by_cases hin : c.inClob = true
        · have := (hspelled.inside hin).1
          simp [ofGlyphs] at this
        · rw [LexContext.lexeme, if_neg hin] at hlex
          obtain ⟨⟨w, rest, -, hlen, hw⟩, hstarts⟩ := Lexeme.read_sound hlex
          obtain rfl := Lexeme.spelling_clobOpen hw
          obtain rfl : more = 1 := by simpa using hlen.symm
          exact hstarts rfl
      · have hkeep : owes = true ∧ type ∉ [TokenType.string, .longString] := by
          unfold LexContext.owesAfter at hw
          split at hw <;> simp_all
        rcases hclob hkeep.1 with h | ⟨rfl, hstarts⟩
        · exact absurd h hkeep.2
        · exact ⟨(howes hkeep.1).1, hstarts⟩
  | case4 c m g gs skip reach cause hlex => exact .fault c owes rfl

end Token

theorem TokenStream.ofSource_scan (file source : Text) : Token.Scan {} false (ofSource file source).tokens := by
  rw [ofSource_eq_scan]
  exact Token.scan_scan file {} {} source.glyphs false (by simp)

/-! ## Texts of tokens -/

theorem lineText_of_spelling {inSExpr : Bool} {w : List Char} (h : Spelling inSExpr .lineComment w) :
    LineText (Text.dropEndWhile Text.isSpace (Text.ofChars w)) := by
  cases h with
  | numeral ht => simp at ht
  | fixed h => simp [fixedSpellings] at h
  | @lineComment b e hb he =>
    have hlf : '\n' ∉ b := fun hmem => (hb _ hmem).1 rfl
    obtain ⟨v, sp, rfl, hfirm, hsp⟩ := exists_firm b hlf
    have hspace : ∀ c ∈ sp ++ e, isSpace c = true := by
      intro c hc
      rcases List.mem_append.mp hc with hc | hc
      · have := hsp c hc
        simp only [isInline, Bool.and_eq_true] at this
        exact this.1
      · simp only [List.mem_cons, List.not_mem_nil, or_false] at he
        rcases he with rfl | rfl | rfl | rfl
        · simp at hc
        · rw [List.mem_singleton.mp hc]
          decide
        · rw [List.mem_singleton.mp hc]
          decide
        · simp only [List.mem_cons, List.not_mem_nil, or_false] at hc
          rcases hc with rfl | rfl <;> decide
    have hline : Firm ("//".toList ++ v) := by
      by_cases hv : v = []
      · subst hv
        intro c hc
        cases hc
        rfl
      · exact firm_append hfirm hv
    refine ⟨v, ?_, fun d hd => hb d (by simp [hd]), hline⟩
    rw [show "//".toList ++ (v ++ sp) ++ e = ("//".toList ++ v) ++ (sp ++ e) by simp,
      Text.dropEndWhile_spaces hspace, Text.dropEndWhile_firm hline]
    rfl

/-- The first byte of a text is an ASCII character only if its first character is. -/
theorem Text.head_ofChars_ne {c d : Char} (hc : c.toNat < 128) (hne : d ≠ c) (w : List Char) :
    ∃ b rest, ofChars (d :: w) = b :: rest ∧ b ≠ byte c := by
  obtain ⟨b, bs, hb⟩ := List.exists_cons_of_ne_nil (String.utf8EncodeChar_ne_nil (c := d))
  refine ⟨b, bs ++ ofChars w, by rw [ofChars_cons, hb, List.cons_append], ?_⟩
  rintro rfl
  exact hne (eq_of_mem_encode hc (by simp [hb]))

/-- A line without its star is the end of what is left of it without blanks around it. -/
theorem exists_plainLine (w : List Char) :
    ∃ a v, stripped w = a ++ v ∧ plainLine (Text.ofChars w) = Text.ofChars v := by
  unfold plainLine
  rw [Text.strip_ofChars]
  cases stripped w with
  | nil => exact ⟨[], [], rfl, rfl⟩
  | cons c v =>
    by_cases hc : c = '*'
    · subst hc
      rw [Text.ofChars_cons_ascii (by decide)]
      simp only [BEq.rfl, if_true]
      cases v with
      | nil => exact ⟨['*'], [], rfl, rfl⟩
      | cons d v =>
        by_cases hd : d = ' '
        · subst hd
          refine ⟨['*', ' '], v, rfl, ?_⟩
          rw [Text.ofChars_cons_ascii (by decide)]
          exact Text.trimStart_append [byte ' '] _
        · refine ⟨['*'], d :: v, rfl, ?_⟩
          obtain ⟨b, rest, hb, hne⟩ := Text.head_ofChars_ne (c := ' ') (by decide) hd v
          rw [hb, Text.trimStart, if_neg]
          simp [hne.symm]
    · refine ⟨[], c :: v, rfl, ?_⟩
      obtain ⟨b, rest, hb, hne⟩ := Text.head_ofChars_ne (c := '*') (by decide) hc v
      rw [hb]
      simp [hne]

/-- A line of a comment without its star is a line again. -/
theorem blockLine_plainLine {w : List Char} (hw : CommentBody w) (hn : '\n' ∉ w) :
    BlockLine (plainLine (Text.ofChars w)) := by
  obtain ⟨a, v, hsplit, hplain⟩ := exists_plainLine w
  obtain ⟨x, y, haround, -, -⟩ := exists_stripped w
  rw [hsplit] at haround
  refine ⟨v, hplain, ?_, fun h => hn (by rw [haround]; simp [h]), fun c hc => ?_⟩
  · rw [haround] at hw
    exact hw.of_append.1.of_append.2.of_append.2
  · refine (trimmed_stripped w).2 c ?_
    rw [hsplit, List.getLast?_append, hc]
    rfl

/-- A carriage return at the end of a line does not matter. -/
theorem plainLine_trimEnd_cr (w : List Char) :
    plainLine (Text.trimEnd [byte '\r'] (Text.ofChars w)) = plainLine (Text.ofChars w) := by
  rcases List.eq_nil_or_concat w with rfl | ⟨v, c, rfl⟩
  · rfl
  · rw [List.concat_eq_append]
    by_cases hc : c = '\r'
    · subst hc
      have hcr : Text.ofChars ['\r'] = [byte '\r'] := rfl
      rw [Text.ofChars_append, hcr, Text.trimEnd_append, ← hcr, ← Text.ofChars_append]
      refine plainLine_congr ?_
      have := stripped_blanks [] v ['\r'] (by simp) (List.all_iff_forall_prop.mp rfl)
      rw [← this]
      rfl
    · obtain ⟨bs, b, hb⟩ : ∃ bs b, Text.ofChars [c] = bs ++ [b] := by
        rcases List.eq_nil_or_concat (Text.ofChars [c]) with h | ⟨bs, b, h⟩
        · simp [Text.ofChars_cons] at h
        · exact ⟨bs, b, by rw [h, List.concat_eq_append]⟩
      have hmem : b ∈ String.utf8EncodeChar c := by
        have : b ∈ Text.ofChars [c] := by simp [hb]
        simpa [Text.ofChars] using this
      have hne : b ≠ byte '\r' := by
        rintro rfl
        exact hc (Text.eq_of_mem_encode (by decide) hmem)
      rw [Text.ofChars_append, hb, ← List.append_assoc, Text.trimEnd_cr_concat _ hne]

/-- The lines of a block comment of a source. -/
theorem blockLines_of_spelling {inSExpr : Bool} {w : List Char} (h : Spelling inSExpr .blockComment w) :
    ∀ l ∈ commentLines (Text.ofChars w), BlockLine l := by
  cases h with
  | numeral ht => simp at ht
  | fixed h => simp [fixedSpellings] at h
  | @blockComment b hb =>
    have hlines : commentLines (Text.ofChars ("/*".toList ++ b ++ "*/".toList)) =
        (Text.ofChars b).lines.map plainLine := commentLines_ofChars b
    rw [hlines]
    clear hlines
    induction hk : b.length using Nat.strongRecOn generalizing b with
    | ind k ih =>
      have hlf : ('\n' : Char).toNat < 128 := by decide
      by_cases hmem : '\n' ∈ b
      · obtain ⟨l, rest, rfl, hl⟩ := List.eq_append_cons_of_mem hmem
        obtain ⟨hbody, hrest⟩ := hb.of_append
        rw [Text.ofChars_append, Text.ofChars_cons_ascii hlf,
          Text.lines_append (by rwa [Text.byte_mem_ofChars hlf]), List.map_cons, plainLine_trimEnd_cr]
        intro m hm
        rcases List.mem_cons.mp hm with rfl | hm
        · exact blockLine_plainLine hbody hl
        · cases hrest with
          | cons _ hrest => exact ih rest.length (by simp at hk; omega) hrest rfl m hm
      · by_cases hne : b = []
        · subst hne
          intro m hm
          contradiction
        · have hbytes : Text.ofChars b ≠ [] := by
            obtain ⟨c, cs, rfl⟩ := List.exists_cons_of_ne_nil hne
            simp [Text.ofChars_cons]
          rw [Text.lines_of_not_mem (by rwa [Text.byte_mem_ofChars hlf]) hbytes, List.map_singleton,
            plainLine_trimEnd_cr]
          intro m hm
          rw [List.mem_singleton.mp hm]
          exact blockLine_plainLine hb hmem

end FusionKit
