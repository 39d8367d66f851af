import FusionKit.Proofs.BlockComments
import FusionKit.Proofs.Joining
import FusionKit.Proofs.Leading

/-!
# Printed trees show their signs

The printed form of a well-formed layout tree shows exactly the signs of what is heard of the tree,
wherever it is printed and whatever comes after it, as long as that may follow a value. `Written` is
what all printers of rows have in common: which of the spaces they write are needed and which are
not.
-/
set_option autoImplicit false

namespace FusionKit

open Lexeme (Spelling QuoteBody CommentBody fixedSpellings keyTypes isSpace isOperator)
open Page (Adds)

/-- What stands right behind a value of an s-expression where no space is written. -/
inductive Touches (n : Node) : List Char → Prop where
  | pipe (hn : n.isOperator = false) (cs : List Char) : Touches n ('|' :: cs)
  /-- Behind an operator that starts with a pipe. -/
  | behind {v : List Char} {d : Char} (hn : n.isOperator = true)
      (hv : n.value = Text.ofChars ('|' :: v)) (hd : isOperator d = false) (hinline : isInline d = false)
      (cs : List Char) : Touches n (d :: cs)
  | comment {d : Char} (hn : n.isPipe = true) (hd : d = '/' ∨ d = '*') (cs : List Char) :
      Touches n ('/' :: d :: cs)

/-- What follows a value. -/
def Follows (inSExpr : Bool) (n : Node) (rest : List Char) : Prop :=
  Clear inSExpr rest ∨ inSExpr = true ∧ Touches n rest

/-- The characters of a value show its signs in front of all that may follow it. -/
def ShowsAs (inSExpr : Bool) (n : Node) (cs : List Char) : Prop :=
  ∀ (c : LexContext) (rest : List Char) (ss : List Sign), c.inClob = false → c.inSExpr = inSExpr →
    Follows inSExpr n rest → Shows c rest ss → Shows c (cs ++ rest) (n.signs ++ ss)

/-- The characters of a value start with no blank, and with no operator character unless this is how
a symbol or a number without annotations starts. -/
def StartsAs (n : Node) (cs : List Char) : Prop :=
  ∃ d ds, cs = d :: ds ∧ isInline d = false ∧
    (isOperator d = true → n.isBare = true ∧ (n.isOperator = true ∨ n.isNegative = true))

/-- What is printed for a value shows the signs of another one, in all places. -/
def PrintsAs (s : Settings) (inSExpr : Bool) (n m : Node) : Prop :=
  ∀ (indent : Int) (p : Page), ∃ cs, Adds p (n.print s indent p) cs ∧ ShowsAs inSExpr m cs ∧
    StartsAs m cs

/-- A value whose printed form shows the signs of what is heard of it. -/
structure Heard (s : Settings) (inSExpr : Bool) (n : Node) : Prop where
  laid : LaidIn .all inSExpr n.hear
  prints : PrintsAs s inSExpr n n.hear

namespace Heard

variable {s : Settings} {b : Bool} {n : Node}

theorem isValue (h : Heard s b n) : n.isValue = true := by
  rw [← Node.isValue_hear, h.laid.isValue]

theorem isContent (h : Heard s b n) : n.isContent = true := by
  rw [← Node.isContent_hear, h.laid.isContent]

theorem isNewlines (h : Heard s b n) : n.isNewlines = false := by
  have := h.isContent
  simp only [Node.isContent, Bool.and_eq_true, Bool.not_eq_true'] at this
  exact this.2

end Heard

/-- How items come to be written: with any spaces between them, and with those that are needed. -/
inductive Written (inSExpr commas : Bool) : List Node → List Char → Prop where
  | nil : Written inSExpr commas [] []
  | space {ns : List Node} {cs : List Char} (h : Written inSExpr commas ns cs) :
      Written inSExpr commas ns (' ' :: cs)
  | newlines {ns : List Node} {cs : List Char} {k : Nat} {span : Span} (hk : 0 < k)
      (h : Written inSExpr commas ns cs) :
      Written inSExpr commas (.newlineRun k span :: ns) (List.replicate k '\n' ++ cs)
  | line {ns : List Node} {b sp cs : List Char} {k : Nat} {span span' : Span}
      (hb : ∀ d ∈ b, d ≠ '\n' ∧ d ≠ '\r') (hfirm : Firm (['/', '/'] ++ b)) (hsp : ∀ d ∈ sp, d = ' ')
      (h : Written inSExpr commas ns cs) :
      Written inSExpr commas
        (.lineComment (Text.ofChars (['/', '/'] ++ b)) span :: .newlineRun (k + 1) span' :: ns)
        (['/', '/'] ++ b ++ sp ++ '\n' :: (List.replicate k '\n' ++ cs))
  | block {ns : List Node} {b cs : List Char} {ls : List Text} {span : Span}
      (hb : PrintedBody b (relined ls)) (h : Written inSExpr commas ns cs) :
      Written inSExpr commas (.blockComment ls span :: ns) (['/', '*'] ++ b ++ ['*', '/'] ++ cs)
  | key {ns : List Node} {w cs : List Char} {type : TokenType} {span : Span} (hs : inSExpr = false)
      (ht : type ∈ keyTypes) (hw : Spelling false type w) (hset : settled w = w)
      (h : Written inSExpr commas ns cs) :
      Written inSExpr commas (.structKey (Text.ofChars w) span :: ns) (w ++ ':' :: cs)
  | value {n : Node} {ns : List Node} {w cs : List Char} (hn : LaidIn .all inSExpr n)
      (hw : ShowsAs inSExpr n w)
      (hnext : (commas && ns.any Node.isValue) = true ∨ cs.head? = some ' ' ∨
        (∀ m, ns.head? = some m → inSExpr = false ∧ m.isContent = false) ∨
        inSExpr = true ∧ ∀ rest, Touches n (cs ++ rest))
      (h : Written inSExpr commas ns cs) :
      Written inSExpr commas (n :: ns)
        (w ++ ((if commas && n.isValue && ns.any Node.isValue then [','] else []) ++ cs))

namespace LaidIn

/-- The signs of a value start with an annotation or the first word of its body. -/
theorem signs_starts {S : Breadth} {b : Bool} {n : Node} (h : LaidIn S b n) :
    ∃ type w ss, n.signs = .word type w :: ss ∧ type ≠ .colon := by
  have hstart : ∀ (as : List Text) (type : TokenType) (w : Text) (ss : List Sign), type ≠ .colon →
      ∃ type' w' ss', as.map (fun a => Sign.word .annotate a.settled) ++ .word type w :: ss =
        .word type' w' :: ss' ∧ type' ≠ .colon := by
    intro as type w ss ht
    cases as with
    | nil => exact ⟨_, _, _, rfl, ht⟩
    | cons a as => exact ⟨_, _, _, rfl, by decide⟩
  cases h with
  | scalar h =>
    cases h with
    | word hk hw =>
      have htype := wordType_of_wordKinds hw hk
      simp only [wordKinds, List.mem_cons, Prod.mk.injEq, List.not_mem_nil, or_false] at hk
      rcases hk with ⟨rfl, rfl⟩ | ⟨rfl, rfl⟩ | ⟨rfl, rfl⟩ | ⟨rfl, rfl⟩ | ⟨rfl, rfl⟩ | ⟨rfl, rfl⟩ |
        ⟨rfl, rfl⟩ | ⟨rfl, rfl⟩ <;>
      · simp only [Node.signs, Label.scalarSign, htype]
        exact hstart _ _ _ _ (by decide)
    | string | long | blob => exact hstart _ _ _ _ (by decide)
  | list => exact hstart _ _ _ _ (by decide)
  | sexpr => exact hstart _ _ _ _ (by decide)
  | struct => exact hstart _ _ _ _ (by decide)
  | clob => exact hstart _ _ _ _ (by decide)

end LaidIn

namespace Written

variable {inSExpr commas : Bool} {items : List Node} {cs rest : List Char} {ss : List Sign}

theorem spaces (h : Written inSExpr commas items cs) {sp : List Char} (hsp : ∀ c ∈ sp, c = ' ') :
    Written inSExpr commas items (sp ++ cs) := by
  induction sp with
  | nil => exact h
  | cons c sp ih =>
    obtain rfl := hsp c (by simp)
    exact .space (ih fun d hd => hsp d (by simp [hd]))

/-- A row never starts with a colon. -/
theorem signs_ne_colon (h : Written inSExpr commas items cs)
    (hs : ∀ w us, ss ≠ .word .colon w :: us) :
    ∀ w us, Node.signsOf commas items ++ ss ≠ .word .colon w :: us := by
  intro w us
  induction h with
  | nil => exact hs w us
  | space _ ih => exact ih
  | @newlines ns cs k span hk =>
    obtain ⟨k, rfl⟩ := Nat.exists_eq_succ_of_ne_zero (by omega : k ≠ 0)
    rw [Node.signsOf_skip rfl, Node.signs_newlineRun, List.replicate_succ]
    simp
  | line =>
    rw [Node.signsOf_skip rfl, Node.signs_lineComment]
    simp
  | block =>
    rw [Node.signsOf_skip rfl, Node.signs_blockComment]
    simp
  | @key ns w cs type span _ ht hw =>
    have htype := wordType_of_spelling .structKey hw (by simp) (List.mem_cons_of_mem _ ht)
    intro heq
    have hfirst : Sign.word (wordType .structKey (Text.ofChars w)) (Text.ofChars w) = .word .colon _ :=
      (List.cons.inj heq).1
    rw [htype] at hfirst
    obtain ⟨rfl, -⟩ := Sign.word.inj hfirst
    simp [keyTypes] at ht
  | value hn =>
    obtain ⟨type, v, vs, hsigns, htype⟩ := hn.signs_starts
    rw [Node.signsOf, hsigns]
    intro heq
    exact htype (Sign.word.inj (List.cons.inj heq).1).1

/-- After a value there may be comments and newline runs. -/
theorem clear (h : Written inSExpr commas items cs)
    (hhead : ∀ m, items.head? = some m → inSExpr = false ∧ m.isContent = false)
    (hrest : Clear inSExpr rest) : Clear inSExpr (cs ++ rest) := by
  induction h with
  | nil => exact hrest
  | space => exact .space _
  | @newlines ns cs k span hk =>
    obtain ⟨k, rfl⟩ := Nat.exists_eq_succ_of_ne_zero (by omega : k ≠ 0)
    exact .newline _
  | line =>
    obtain ⟨rfl, -⟩ := hhead _ rfl
    exact .comment (.inl rfl) _
  | block =>
    obtain ⟨rfl, -⟩ := hhead _ rfl
    exact .comment (.inr rfl) _
  | key =>
    have := (hhead _ rfl).2
    contradiction
  | value hn =>
    have := (hhead _ rfl).2
    rw [hn.isContent] at this
    contradiction

/-- A written row shows its signs. -/
theorem shows (h : Written inSExpr commas items cs) {c : LexContext} (hc : c.inClob = false)
    (hs : c.inSExpr = inSExpr) (hclear : Clear inSExpr rest)
    (hcolon : ∀ w us, ss ≠ .word .colon w :: us) (hrest : Shows c rest ss) :
    Shows c (cs ++ rest) (Node.signsOf commas items ++ ss) := by
  induction h with
  | nil => exact hrest
  | space _ ih => exact .space ih
  | newlines hk _ ih =>
    rw [Node.signsOf_skip rfl, Node.signs_newlineRun, List.append_assoc, List.append_assoc]
    exact ih.breaks _
  | @line ns b sp cs k span span' hb hfirm hsp _ ih =>
    rw [Node.signsOf_skip rfl, Node.signsOf_skip rfl, Node.signs_lineComment, Node.signs_newlineRun,
      List.append_assoc, List.cons_append, List.append_assoc, List.replicate_succ]
    have := Shows.line hc hb hfirm hsp (ih.breaks k)
    simpa using this
  | @block ns b cs ls span hb _ ih =>
    rw [Node.signsOf_skip rfl, Node.signs_blockComment, List.append_assoc]
    have := Shows.block hc hb.body hb.settled_eq ih
    rwa [hb.lines_eq] at this
  | @key ns w cs type span hs' ht hw hset h ih =>
    have htype := wordType_of_spelling .structKey hw (by simp) (List.mem_cons_of_mem _ ht)
    have hsigns : Node.signsOf commas (.structKey (Text.ofChars w) span :: ns) =
        .word (wordType .structKey (Text.ofChars w)) (Text.ofChars w) :: .word .colon (utf8 ":") ::
          Node.signsOf commas ns := by
      rw [Node.signsOf, Node.commaSigns, show (Node.structKey (Text.ofChars w) span).isValue = false from rfl,
        Bool.and_false, Bool.false_and]
      rfl
    rw [hsigns, htype, List.append_assoc]
    refine Shows.key (by rwa [hs, hs']) ht hset hc ?_
    refine Shows.fixed (by simp [fixedSpellings]) hc (fun h => absurd h (by decide)) (fun _ => ?_) ih
    exact ih.head_ne_colon (h.signs_ne_colon hcolon)
  | @value n ns w cs hn hw hnext h ih =>
    rw [Node.signsOf, List.append_assoc, List.append_assoc, List.append_assoc, List.append_assoc]
    by_cases hcomma : (commas && n.isValue && ns.any Node.isValue) = true
    · rw [if_pos hcomma, Node.commaSigns, if_pos hcomma, List.singleton_append, List.singleton_append]
      refine hw c _ _ hc hs (.inl (.closing (by simp) _)) ?_
      exact Shows.fixed (by simp [fixedSpellings]) hc (fun h => absurd h (by decide))
        (fun h => by contradiction) ih
    · rw [if_neg hcomma, Node.commaSigns, if_neg hcomma, List.nil_append, List.nil_append]
      refine hw c _ _ hc hs ?_ ih
      rw [hn.isValue, Bool.and_true] at hcomma
      rcases hnext with hnext | hnext | hnext | ⟨hin, hnext⟩
      · exact absurd hnext hcomma
      · cases cs with
        | nil => simp at hnext
        | cons d ds =>
          obtain rfl : d = ' ' := by simpa using hnext
          exact .inl (.space _)
      · exact .inl (h.clear hnext hclear)
      · exact .inr ⟨hin, hnext rest⟩

end Written

/-! ## Items on a page -/

/-- What is added to a page is told by the page before and after. -/
theorem Page.Adds.unique {p q : Page} {cs ds : List Char} (h : Adds p q cs) (h' : Adds p q ds) :
    cs = ds := by
  unfold Adds at h h'
  rw [h] at h'
  exact Text.ofChars_injective (List.append_cancel_left h')

theorem Page.spaceIf_spaces (b : Bool) : ∀ c ∈ (if b then [' '] else []), c = ' ' := by
  intro c hc
  split at hc
  · simpa using hc
  · simp at hc

theorem replicate_spaces (n : Nat) : ∀ c ∈ List.replicate n ' ', c = ' ' :=
  fun _ hc => List.eq_of_mem_replicate hc

/-- A page becomes another one by some items being written. -/
def Fills (inSExpr commas : Bool) (p q : Page) (items : List Node) : Prop :=
  ∃ cs, Adds p q cs ∧ Written inSExpr commas items cs

namespace Fills

variable {b commas : Bool} {p q : Page} {ns : List Node} {s : Settings} {indent : Int} {span : Span}

theorem refl (p : Page) : Fills b commas p p [] := ⟨[], .refl p, .nil⟩

theorem spaced {p' : Page} {sp : List Char} (hp : Adds p p' sp) (hsp : ∀ c ∈ sp, c = ' ')
    (h : Fills b commas p' q ns) : Fills b commas p q ns := by
  obtain ⟨cs, hadds, hcs⟩ := h
  exact ⟨sp ++ cs, hp.trans hadds, hcs.spaces hsp⟩

theorem spaceIf {g : Bool} (h : Fills b commas (p.spaceIf g) q ns) : Fills b commas p q ns :=
  h.spaced (Page.adds_spaceIf p g) (Page.spaceIf_spaces g)

theorem newlines {k : Nat} (hk : 0 < k)
    (h : Fills b commas (Node.print s indent p (.newlineRun k span)) q ns) :
    Fills b commas p q (.newlineRun k span :: ns) := by
  obtain ⟨cs, hadds, hcs⟩ := h
  have hrun : Adds p (Node.print s indent p (.newlineRun k span))
      (List.replicate k '\n' ++ List.replicate indent.toNat ' ') := by
    have := Page.adds_newlines p k indent
    rwa [Int.toNat_natCast] at this
  have := hrun.trans hadds
  rw [List.append_assoc] at this
  exact ⟨_, this, .newlines hk (hcs.spaces (replicate_spaces _))⟩

theorem line {v : Text} {k : Nat} {span' : Span} {indent' : Int} {p' : Page} {sp : List Char}
    (hv : LineText v) (hk : 0 < k) (hp : Adds (Node.print s indent p (.lineComment v span)) p' sp)
    (hsp : ∀ c ∈ sp, c = ' ')
    (h : Fills b commas (Node.print s indent' p' (.newlineRun k span')) q ns) :
    Fills b commas p q (.lineComment v span :: .newlineRun k span' :: ns) := by
  obtain ⟨cs, hadds, hcs⟩ := h
  obtain ⟨w, rfl, hw, hfirm⟩ := hv
  obtain ⟨k, rfl⟩ := Nat.exists_eq_succ_of_ne_zero (by omega : k ≠ 0)
  have hrun : Adds p' (Node.print s indent' p' (.newlineRun (k + 1) span'))
      (List.replicate (k + 1) '\n' ++ List.replicate indent'.toNat ' ') := by
    have := Page.adds_newlines p' (k + 1 : Nat) indent'
    rwa [Int.toNat_natCast] at this
  have hline : Adds p (Node.print s indent p (.lineComment (Text.ofChars (['/', '/'] ++ w)) span))
      (['/', '/'] ++ w ++ List.replicate indent.toNat ' ') :=
    (Page.adds_write p _).trans (Page.adds_spaces _ _)
  have := ((hline.trans hp).trans hrun).trans hadds
  refine ⟨_, this, ?_⟩
  have hwritten : Written b commas
      (.lineComment (Text.ofChars (['/', '/'] ++ w)) span :: .newlineRun (k + 1) span' :: ns)
      (['/', '/'] ++ w ++ (List.replicate indent.toNat ' ' ++ sp) ++
        '\n' :: (List.replicate k '\n' ++ (List.replicate indent'.toNat ' ' ++ cs))) := .line hw hfirm
    (fun c hc => (List.mem_append.mp hc).elim (replicate_spaces _ c) (hsp c))
    (hcs.spaces (replicate_spaces indent'.toNat))
  simpa [List.replicate_succ] using hwritten

theorem block {ls : List Text} (hl : ∀ l ∈ ls, BlockLine l)
    (h : Fills b commas (Node.print s indent p (.blockComment ls span)) q ns) :
    Fills b commas p q (.blockComment ls span :: ns) := by
  obtain ⟨cs, hadds, hcs⟩ := h
  obtain ⟨w, hcomment, hw⟩ := Page.adds_blockComment hl p
  exact ⟨_, Adds.trans hcomment hadds, .block hw hcs⟩

theorem key {v : Text} (hv : KeyText v)
    (h : Fills false commas (Node.print s indent p (.structKey v span)) q ns) :
    Fills false commas p q (.structKey v span :: ns) := by
  obtain ⟨cs, hadds, hcs⟩ := h
  obtain ⟨type, w, rfl, ht, hw, hset⟩ := hv
  have hkey : Adds p (Node.print s indent p (.structKey (Text.ofChars w) span))
      ((if !p.endsWithOneOf "\n" then [' '] else []) ++ w ++ ":".toList) :=
    ((Page.adds_spaceIf p _).trans (Page.adds_write _ w)).trans (Page.adds_put _ ":")
  have := hkey.trans hadds
  rw [List.append_assoc, List.append_assoc] at this
  exact ⟨_, this, (Written.key rfl ht hw hset hcs).spaces (Page.spaceIf_spaces _)⟩

/-- A value, and a comma when another value follows. -/
theorem value {n m : Node} (hm : LaidIn .all b m) (hn : PrintsAs s b n m)
    (hnext : (commas && ns.any Node.isValue) = true ∨
      ∀ m, ns.head? = some m → b = false ∧ m.isContent = false) {p' : Page}
    (hcomma : Adds (Node.print s indent p n) p'
      (if commas && m.isValue && ns.any Node.isValue then [','] else []))
    (h : Fills b commas p' q ns) : Fills b commas p q (m :: ns) := by
  obtain ⟨cs, hadds, hcs⟩ := h
  obtain ⟨w, hvalue, hw, -⟩ := hn indent p
  have := hvalue.trans (hcomma.trans hadds)
  refine ⟨_, this, .value hm hw ?_ hcs⟩
  exact hnext.elim .inl fun h => .inr (.inr (.inl h))

/-- A value and a space. -/
theorem valueSpace {n m : Node} (hm : LaidIn .all b m) (hn : PrintsAs s b n m)
    (h : Fills b false ((Node.print s indent p n).put " ") q ns) : Fills b false p q (m :: ns) := by
  obtain ⟨cs, hadds, hcs⟩ := h
  obtain ⟨w, hvalue, hw, -⟩ := hn indent p
  have := hvalue.trans ((Page.adds_put _ " ").trans hadds)
  exact ⟨_, this, .value hm hw (.inr (.inl rfl)) (.space hcs)⟩

end Fills

theorem Node.adds_comma (p : Page) (n : Node) (rest : List Node) :
    Adds p (comma p n rest) (if n.isValue && rest.any isValue then [','] else []) := by
  unfold comma
  split
  · exact Page.adds_put p ","
  · exact .refl p

theorem Node.adds_comma_hear (p : Page) (n : Node) (rest : List Node) :
    Adds p (comma p n rest) (if n.hear.isValue && (hearAll rest).any isValue then [','] else []) := by
  rw [isValue_hear, any_isValue_hearAll]
  exact adds_comma p n rest

theorem Node.comma_skip {n : Node} (hn : n.isContent = false) (p : Page) (rest : List Node) :
    comma p n rest = p := by
  unfold comma
  rw [isValue_of_not_isContent hn, Bool.false_and, if_neg (by decide)]

/-! ## Rows -/

/-- The items of a list are written. -/
theorem list_written {s : Settings} {sl t : Slot} {items : List Node}
    (h : LaidRow (Heard s) sl items t) (hs : sl = .list)
    (opening : Int) (p : Page) : Fills false true p (Node.printList s opening p items) (Node.hearAll items) := by
  induction h generalizing p with
  | nil => exact .refl p
  | newlines hk _ ih =>
    rw [Node.printList, Node.comma_skip rfl, Node.hearAll, Node.hear_newlineRun]
    exact ((ih hs _).newlines hk).spaceIf
  | line hs' hv hk _ ih =>
    rw [Node.printList, Node.printList, Node.comma_skip rfl, Node.comma_skip rfl, Node.hearAll,
      Node.hearAll, Node.hear_lineComment, Node.hear_newlineRun]
    exact (Fills.line hv hk (Page.adds_spaceIf _ _) (Page.spaceIf_spaces _) (ih hs _)).spaceIf
  | block hs' hl _ ih =>
    rw [Node.printList, Node.comma_skip rfl, Node.hearAll, Node.hear_blockComment]
    exact ((ih hs _).block hl).spaceIf
  | key => contradiction
  | @value sl sl' t n ns hs' hn h ih =>
    subst hs
    obtain rfl : Slot.list = sl' := by simpa [Slot.afterValue?] using hs'
    rw [Node.printList, Node.hearAll]
    refine (Fills.value hn.laid hn.prints ?_ (Node.adds_comma_hear _ _ _) (ih rfl _)).spaceIf
    by_cases hany : (Node.hearAll ns).any Node.isValue = true
    · exact .inl hany
    · right
      rw [Bool.not_eq_true] at hany
      have hrow := h.hearAll fun _ _ h => h.laid
      exact fun m hm => ⟨rfl, hrow.head_not_isContent (fun _ _ h => h.isValue) (.inl (by simp)) hany m hm⟩
  | string => contradiction

/-- After each item of an s-expression but the last and newline runs there is a space. -/
theorem spacingAfter_cons (n : Node) (ns : List Node) :
    Node.spacingAfter false (n :: ns) =
      (!ns.isEmpty && !n.isNewlines) :: Node.spacingAfter false ns := by
  cases ns with
  | nil => rfl
  | cons m ns => simp [Node.spacingAfter]

/-- The items of an s-expression are written. -/
theorem sexpr_written {s : Settings} {sl t : Slot} {items : List Node}
    (h : LaidRow (Heard s) sl items t) (hs : sl = .sexpr) (indent : Int) (p : Page) :
    Fills true false p (Node.printSExpr s indent p items (Node.spacingAfter false items))
      (Node.hearAll items) := by
  induction h generalizing p with
  | nil => exact .refl p
  | newlines hk _ ih =>
    rw [spacingAfter_cons, Node.printSExpr, Node.hearAll, Node.hear_newlineRun]
    exact ((ih hs _).spaceIf).newlines hk
  | line hs' hv hk _ ih =>
    rw [spacingAfter_cons, spacingAfter_cons, Node.printSExpr, Node.printSExpr, Node.hearAll,
      Node.hearAll, Node.hear_lineComment, Node.hear_newlineRun]
    exact .line hv hk (Page.adds_spaceIf _ _) (Page.spaceIf_spaces _) (ih hs _).spaceIf
  | block hs' hl _ ih =>
    rw [spacingAfter_cons, Node.printSExpr, Node.hearAll, Node.hear_blockComment]
    exact ((ih hs _).spaceIf).block hl
  | key => contradiction
  | @value sl sl' t n ns hs' hn h ih =>
    subst hs
    obtain rfl : Slot.sexpr = sl' := by simpa [Slot.afterValue?] using hs'
    rw [spacingAfter_cons, Node.printSExpr, hn.isNewlines, Node.hearAll]
    cases ns with
    | nil => exact .value hn.laid hn.prints (.inr (by simp [Node.hearAll])) (.refl _) (ih rfl _)
    | cons m ns => exact .valueSpace hn.laid hn.prints (ih rfl _)
  | string => contradiction

theorem printStruct_newlines {n : Node} (hn : n.isNewlines = true) (s : Settings) (opening : Int)
    (p : Page) (ns : List Node) : Node.printStruct s opening p (n :: ns) =
      Node.printStruct s opening (n.print s (Node.structIndent opening ns) p) ns := by
  rw [Node.printStruct, if_pos hn]

theorem printStruct_other {n : Node} (hn : n.isNewlines = false) (s : Settings) (opening : Int)
    (p : Page) (ns : List Node) : Node.printStruct s opening p (n :: ns) =
      Node.printStruct s opening
        (Node.comma (n.print s 0 (p.spaceIf (p.endsWithOneOf ":/" || n.isComment))) n ns) ns := by
  rw [Node.printStruct, hn, if_neg (by decide)]

/-- The items of a struct are written. -/
theorem struct_written {s : Settings} {sl t : Slot} {items : List Node}
    (h : LaidRow (Heard s) sl items t) (ht : t = .key) (hs : sl = .key ∨ sl = .value)
    (opening : Int) (p : Page) :
    Fills false true p (Node.printStruct s opening p items) (Node.hearAll items) := by
  induction h generalizing p with
  | nil => exact .refl p
  | newlines hk _ ih =>
    rw [printStruct_newlines rfl, Node.hearAll, Node.hear_newlineRun]
    exact (ih ht hs _).newlines hk
  | line hs' hv hk _ ih =>
    rw [printStruct_other rfl, printStruct_newlines rfl, Node.comma_skip rfl, Node.hearAll, Node.hearAll,
      Node.hear_lineComment, Node.hear_newlineRun]
    exact (Fills.line hv hk (.refl _) (by simp) (ih ht hs _)).spaceIf
  | block hs' hl _ ih =>
    rw [printStruct_other rfl, Node.comma_skip rfl, Node.hearAll, Node.hear_blockComment]
    exact ((ih ht hs _).block hl).spaceIf
  | @key t v span ns hv _ ih =>
    have hcomma : ∀ p, Node.comma p (.structKey v span) ns = p := fun p => by
      unfold Node.comma
      rw [show (Node.structKey v span).isValue = false from rfl, Bool.false_and, if_neg (by decide)]
    rw [printStruct_other rfl, hcomma, Node.hearAll, Node.hear_structKey]
    exact ((ih ht (.inr rfl) _).key hv).spaceIf
  | @value sl sl' t n ns hs' hn h ih =>
    have hslot : sl = .value ∧ sl' = .key := by
      rcases hs with rfl | rfl
      · simp [Slot.afterValue?] at hs'
      · exact ⟨rfl, by simpa [Slot.afterValue?] using hs'.symm⟩
    obtain ⟨rfl, rfl⟩ := hslot
    rw [printStruct_other hn.isNewlines, Node.hearAll]
    refine (Fills.value hn.laid hn.prints ?_ (Node.adds_comma_hear _ _ _) (ih ht (.inl rfl) _)).spaceIf
    by_cases hany : (Node.hearAll ns).any Node.isValue = true
    · exact .inl hany
    · right
      rw [Bool.not_eq_true] at hany
      have hrow := h.hearAll fun _ _ h => h.laid
      exact fun m hm =>
        ⟨rfl, hrow.head_not_isContent (fun _ _ h => h.isValue) (.inr ⟨rfl, ht⟩) hany m hm⟩
  | string =>
    rcases hs with hs | hs <;> contradiction

/-- No two values are neighbours. -/
def Node.Apart (ns : List Node) : Prop := ns.IsChain fun m n => ¬ (m.isValue = true ∧ n.isValue = true)

instance (ns : List Node) : Decidable (Node.Apart ns) :=
  inferInstanceAs (Decidable (ns.IsChain fun m n => ¬ (m.isValue = true ∧ n.isValue = true)))

/-- The top-level items are written, when no two values are neighbours. -/
theorem top_written {s : Settings} {sl t : Slot} {items : List Node}
    (h : LaidRow (Heard s) sl items t) (hs : sl = .top) (hapart : Node.Apart items) (p : Page) :
    Fills false false p (items.foldl (fun p n => n.print s 0 p) p) (Node.hearAll items) := by
  induction h generalizing p with
  | nil => exact .refl p
  | newlines hk _ ih =>
    rw [List.foldl_cons, Node.hearAll, Node.hear_newlineRun]
    exact (ih hs (List.isChain_cons.mp hapart).2 _).newlines hk
  | line hs' hv hk _ ih =>
    rw [List.foldl_cons, List.foldl_cons, Node.hearAll, Node.hearAll, Node.hear_lineComment,
      Node.hear_newlineRun]
    have := (List.isChain_cons.mp (List.isChain_cons.mp hapart).2).2
    exact .line hv hk (.refl _) (by simp) (ih hs this _)
  | block hs' hl _ ih =>
    rw [List.foldl_cons, Node.hearAll, Node.hear_blockComment]
    exact (ih hs (List.isChain_cons.mp hapart).2 _).block hl
  | key => contradiction
  | @value sl sl' t n ns hs' hn h ih =>
    subst hs
    obtain rfl : Slot.top = sl' := by simpa [Slot.afterValue?] using hs'
    have hchain := List.isChain_cons.mp hapart
    rw [List.foldl_cons, Node.hearAll]
    refine .value hn.laid hn.prints (.inr fun m hm => ⟨rfl, ?_⟩) (.refl _) (ih rfl hchain.2 _)
    rw [Node.hearAll_eq_map, List.head?_map, Option.map_eq_some_iff] at hm
    obtain ⟨k, hk, rfl⟩ := hm
    rw [Node.isContent_hear]
    have hvalue : k.isValue = false := by
      have := hchain.1 k hk
      simpa [hn.isValue] using this
    cases h with
    | nil => simp at hk
    | newlines | line | block =>
      cases hk
      rfl
    | value hs' hn' =>
      cases hk
      rw [hn'.isValue] at hvalue
      contradiction
  | string => contradiction

/-! ## Clobs -/

/-- After blanks there comes a string. -/
def OpensString (cs : List Char) : Prop :=
  Lexeme.startsString ((Glyph.ofChars (settled cs)).drop
    (Lexeme.run isSpace (Glyph.ofChars (settled cs)))) = true

theorem OpensString.blank {d : Char} {cs : List Char} (hd : isSpace d = true) (h : OpensString cs) :
    OpensString (d :: cs) := by
  unfold OpensString
  rw [settled]
  split
  · exact h
  · rw [Glyph.ofChars_cons, Lexeme.run_cons hd, List.drop_succ_cons]
    exact h

theorem OpensString.quote (cs : List Char) : OpensString ('"' :: cs) := rfl

theorem OpensString.quotes (cs : List Char) : OpensString ('\'' :: '\'' :: '\'' :: cs) := rfl

theorem OpensString.blanks {sp cs : List Char} (hsp : ∀ c ∈ sp, isSpace c = true)
    (h : OpensString cs) : OpensString (sp ++ cs) := by
  induction sp with
  | nil => exact h
  | cons d sp ih => exact .blank (hsp d (by simp)) (ih fun c hc => hsp c (by simp [hc]))

/-- What the items of a clob are written as: they show their signs and start with a string. -/
structure ClobWritten (items : List Node) (cs : List Char) : Prop where
  shows : ∀ (c : LexContext) (rest : List Char) (ss : List Sign), c.inClob = true →
    Shows c rest ss → Shows c (cs ++ rest) (Node.signsOf false items ++ ss)
  opens : items.any Node.isContent = true → ∀ rest, OpensString (cs ++ rest)

/-- How a string of a clob is written. -/
theorem ClobString.written {n : Node} (h : ClobString n) (indent : Int) (p : Page) :
    ∃ w, Adds p (Page.clobItem indent p n) ((if !p.endsWithGap then [' '] else []) ++ w) ∧
      (∀ (c : LexContext) (rest : List Char) (ss : List Sign), c.inClob = true → Shows c rest ss →
        Shows c (w ++ rest) (n.signs ++ ss)) ∧ ∀ rest, OpensString (w ++ rest) := by
  cases h with
  | @short w span hw =>
    refine ⟨'"' :: (w ++ ['"']), ?_, fun c rest ss hc h => ?_, fun rest => .quote _⟩
    · have := (((Page.adds_spaceIf p (!p.endsWithGap)).trans (Page.adds_put _ "\"")).trans
        (Page.adds_write _ w)).trans (Page.adds_put _ "\"")
      rw [List.append_assoc, List.append_assoc] at this
      exact this
    · have hsign : Text.ofChars ('"' :: (w ++ ['"'])) = utf8 "\"" ++ Text.ofChars w ++ utf8 "\"" := by
        rw [Text.ofChars_cons_ascii (by decide), Text.ofChars_append]
        rfl
      have := Shows.string hw h
      rwa [hsign] at this
  | @long w span hw =>
    refine ⟨"'''".toList ++ w ++ "'''".toList, ?_, fun c rest ss _ h => ?_, fun rest => .quotes _⟩
    · have := (((Page.adds_spaceIf p (!p.endsWithGap)).trans (Page.adds_put _ "'''")).trans
        (Page.adds_write _ w)).trans (Page.adds_put _ "'''")
      rw [List.append_assoc, List.append_assoc, ← List.append_assoc "'''".toList] at this
      exact this
    · have := Shows.longString hw h
      rwa [Text.ofChars_append, Text.ofChars_append] at this

theorem clob_written {V : Bool → Node → Prop} {sl t : Slot} {items : List Node}
    (h : LaidRow V sl items t) (hs : sl = .clob) (indent : Int) (p : Page) :
    ∃ cs, Adds p (items.foldl (Page.clobItem indent) p) cs ∧ ClobWritten items cs := by
  induction h generalizing p with
  | nil => exact ⟨[], .refl p, fun _ _ _ _ h => h, by simp⟩
  | @newlines sl t k span ns hk _ ih =>
    obtain ⟨cs, hadds, hcs⟩ := ih hs (p.newlines k indent)
    have hrun := (Page.adds_newlines p k indent).trans hadds
    rw [Int.toNat_natCast] at hrun
    refine ⟨_, hrun, fun c rest ss hc hrest => ?_, fun hany rest => ?_⟩
    · rw [Node.signsOf_skip rfl, Node.signs_newlineRun, List.append_assoc, List.append_assoc,
        List.append_assoc]
      exact ((hcs.shows c rest ss hc hrest).spaces (replicate_spaces _)).breaks k
    · rw [List.append_assoc, List.append_assoc]
      refine .blanks (fun d hd => ?_) (.blanks (fun d hd => ?_) (hcs.opens hany rest))
      · rw [List.eq_of_mem_replicate hd]
        decide
      · rw [List.eq_of_mem_replicate hd]
        decide
  | line hs' => exact absurd hs hs'
  | block hs' => exact absurd hs hs'
  | key => contradiction
  | value hs' =>
    subst hs
    simp [Slot.afterValue?] at hs'
  | @string t n ns hn _ ih =>
    obtain ⟨cs, hadds, hcs⟩ := ih rfl (Page.clobItem indent p n)
    obtain ⟨w, hitem, hw, hopens⟩ := hn.written indent p
    refine ⟨_, Page.Adds.trans hitem hadds, ?_, ?_⟩
    · intro c rest ss hc hrest
      rw [Node.signsOf, Node.commaSigns, Bool.false_and, Bool.false_and,
        if_neg (show ¬ (false = true) by decide), List.append_nil, List.append_assoc, List.append_assoc,
        List.append_assoc]
      exact (hw c _ _ hc (hcs.shows c rest ss hc hrest)).spaces (Page.spaceIf_spaces (!p.endsWithGap))
    · intro _ rest
      rw [List.append_assoc, List.append_assoc]
      refine .blanks (fun d hd => ?_) (hopens _)
      rw [Page.spaceIf_spaces _ d hd]
      decide

/-- The items of a clob are heard as they are. -/
theorem hearAll_clob {V : Bool → Node → Prop} {sl t : Slot} {items : List Node}
    (h : LaidRow V sl items t) (hs : sl = .clob) : Node.hearAll items = items := by
  induction h with
  | nil => rfl
  | newlines _ _ ih => rw [Node.hearAll, Node.hear_newlineRun, ih hs]
  | line hs' => exact absurd hs hs'
  | block hs' => exact absurd hs hs'
  | key => contradiction
  | value hs' =>
    subst hs
    simp [Slot.afterValue?] at hs'
  | string hn _ ih => rw [Node.hearAll, hn.hear, ih rfl]

/-! ## Values -/

/-- Annotations start with no blank and no operator character. -/
def AnnotationsStart (as : List Text) (w : List Char) : Prop :=
  as = [] ∧ w = [] ∨ ∃ d ds, w = d :: ds ∧ isInline d = false ∧ isOperator d = false

theorem annotation_starts {v : List Char} (h : Spelling false .annotate v) :
    ∃ d ds, v = d :: ds ∧ isInline d = false ∧ isOperator d = false := by
  obtain ⟨d, ds, rfl, hd⟩ := Lexeme.spelling_first h
  have hspace := Lexeme.isSpace_of_mayStart hd (by decide)
  refine ⟨d, ds, rfl, by rw [isInline, hspace]; rfl, ?_⟩
  simp only [Lexeme.mayStart, Bool.or_eq_true, beq_iff_eq] at hd
  rcases hd with hd | rfl
  · exact Lexeme.isOperator_of_isIdentStart hd
  · rfl

/-- Annotations show their signs in front of anything. -/
theorem annotations_shows {as : List Text} (h : AnnotationTexts as) :
    ∃ w, as.flatten = Text.ofChars w ∧ (∀ (c : LexContext) (rest : List Char) (ss : List Sign),
      c.inClob = false → Shows c rest ss →
        Shows c (w ++ rest) (as.map (fun a => .word .annotate a.settled) ++ ss)) ∧
      AnnotationsStart as w := by
  induction as with
  | nil => exact ⟨[], rfl, fun _ _ _ _ h => h, .inl ⟨rfl, rfl⟩⟩
  | cons a as ih =>
    obtain ⟨v, rfl, hv⟩ := h a (by simp)
    obtain ⟨w, hflat, hw, -⟩ := ih fun a ha => h a (by simp [ha])
    refine ⟨v ++ w, by rw [List.flatten_cons, hflat, Text.ofChars_append], fun c rest ss hc hrest => ?_, ?_⟩
    · rw [List.append_assoc, List.map_cons, List.cons_append, Text.settled_ofChars]
      exact Shows.annotation hv hc (hw c rest ss hc hrest)
    · obtain ⟨d, ds, rfl, hd⟩ := annotation_starts hv
      exact .inr ⟨d, ds ++ w, rfl, hd⟩

/-- What is annotated starts as its annotations do, or as it does without any. -/
theorem StartsAs.annotated {m : Node} {as : List Text} {w cs : List Char} (h : AnnotationsStart as w)
    (hcs : as = [] → StartsAs m cs) : StartsAs m (w ++ cs) := by
  rcases h with ⟨has, rfl⟩ | ⟨d, ds, rfl, hinline, hd⟩
  · exact hcs has
  · exact ⟨d, ds ++ cs, rfl, hinline, fun h => by rw [hd] at h; contradiction⟩

namespace LexContext

variable {c : LexContext}

theorem after_open (hc : c.inClob = false) {type : TokenType}
    (ht : type ∈ [TokenType.parenOpen, .bracketOpen, .braceOpen]) :
    (c.after type).inClob = false ∧ (c.after type).inSExpr = decide (type = .parenOpen) := by
  simp only [List.mem_cons, List.not_mem_nil, or_false] at ht
  rcases ht with rfl | rfl | rfl <;> exact ⟨hc, rfl⟩

theorem after_clob (hc : c.inClob = false) : (c.after .clobOpen).after .clobClose = c := by
  obtain ⟨opened, inClob⟩ := c
  cases hc
  rfl

end LexContext

namespace PrintsAs

variable {s : Settings} {b : Bool} {span : Span} {as : List Text} {items : List Node}

theorem adds_annotations {w : List Char} (hw : as.flatten = Text.ofChars w) (p : Page) (kind : Kind)
    (span : Span) (value : Text) :
    Adds p (p.annotations { kind, span, annotations := as, value }) w := by
  have := Page.adds_write p w
  rwa [← hw] at this

/-- A form shows its signs if its body does. -/
theorem form_shows (ot ct : TokenType) (o d : Char) {c : LexContext} {w cs rest : List Char}
    {ss inner : List Sign} (hc : c.inClob = false)
    (hann : ∀ (c : LexContext) (rest : List Char) (ss : List Sign), c.inClob = false →
      Shows c rest ss → Shows c (w ++ rest) (as.map (fun a => .word .annotate a.settled) ++ ss))
    (hopen : (ot, o, ct, d) ∈ [(TokenType.parenOpen, '(', TokenType.parenClose, ')'),
      (.bracketOpen, '[', .bracketClose, ']'), (.braceOpen, '\x7b', .braceClose, '\x7d')])
    (hbrace : o = '\x7b' →
      Shows (c.after ot) (cs ++ d :: rest) (inner ++ .word ct (Text.ofChars [d]) :: ss) →
      (settled (cs ++ d :: rest)).head? ≠ some '\x7b')
    (hbody : (c.after ot).inClob = false → (c.after ot).inSExpr = decide (ot = .parenOpen) →
      (∀ b, Clear b (d :: rest)) → Shows (c.after ot) (d :: rest) (.word ct (Text.ofChars [d]) :: ss) →
      Shows (c.after ot) (cs ++ d :: rest) (inner ++ .word ct (Text.ofChars [d]) :: ss))
    (hrest : Shows c rest ss) :
    Shows c (w ++ o :: (cs ++ d :: rest)) (as.map (fun a => .word .annotate a.settled) ++
      .word ot (Text.ofChars [o]) :: (inner ++ .word ct (Text.ofChars [d]) :: ss)) := by
  have hfixed : (ot, [o]) ∈ fixedSpellings ∧ (ct, [d]) ∈ fixedSpellings ∧
      ot ∈ [TokenType.parenOpen, .bracketOpen, .braceOpen] ∧ ot ≠ .colon ∧ ct ≠ .colon ∧
      d ∈ [',', ')', ']', '\x7d'] ∧ d ≠ '\x7b' ∧ (c.after ot).after ct = c := by
    simp only [List.mem_cons, Prod.mk.injEq, List.not_mem_nil, or_false] at hopen
    rcases hopen with ⟨rfl, rfl, rfl, rfl⟩ | ⟨rfl, rfl, rfl, rfl⟩ | ⟨rfl, rfl, rfl, rfl⟩ <;>
      exact ⟨by decide, by decide, by decide, by decide, by decide, by decide, by decide, rfl⟩
  obtain ⟨ho, hd, hot, hotc, hctc, hclosing, hdbrace, hback⟩ := hfixed
  obtain ⟨hc', hs'⟩ := LexContext.after_open hc hot
  have hclose := Shows.fixed hd hc' (fun h => absurd h hdbrace) (fun h => absurd h hctc)
    (show Shows ((c.after ot).after ct) rest ss by rwa [hback])
  have hinner := hbody hc' hs' (fun b => .closing hclosing rest) hclose
  exact hann c _ _ hc (Shows.fixed ho hc (fun h => hbrace h hinner) (fun h => absurd h hotc) hinner)

theorem list (ha : AnnotationTexts as) (h : LaidRow (Heard s) .list items .list) :
    PrintsAs s b ⟨{ kind := .list, span, annotations := as }, items⟩
      ⟨{ kind := .list, span, annotations := as }, Node.hearAll items⟩ := by
  intro indent p
  obtain ⟨w, hw, hann, hstart⟩ := annotations_shows ha
  obtain ⟨cs, hadds, hcs⟩ := list_written h rfl
    (p.annotations { kind := .list, span, annotations := as }).column
    ((p.annotations { kind := .list, span, annotations := as }).put "[")
  refine ⟨_, (adds_annotations hw p _ _ _).trans ((Page.adds_put _ "[").trans
    (hadds.trans (Page.adds_put _ "]"))), fun c rest ss hc _ _ hrest => ?_,
    .annotated hstart fun _ => ⟨_, _, rfl, by decide, fun h => absurd h (by decide)⟩⟩
  have := form_shows .bracketOpen .bracketClose '[' ']' hc hann (by simp) (fun h => absurd h (by decide))
    (fun hc' hs' hclear hclose => hcs.shows hc' hs' (hclear _) (by simp) hclose) hrest
  simp only [Node.signs, List.append_assoc, List.cons_append, List.nil_append]
  exact this

/-- An s-expression whose items are written shows their signs. -/
theorem sexpr_of_items (ha : AnnotationTexts as) {items' : List Node}
    (h : ∀ indent p, Fills true false p (Node.printSExpr s indent p items (Node.spacing items)) items') :
    PrintsAs s b ⟨{ kind := .sexpr, span, annotations := as }, items⟩
      ⟨{ kind := .sexpr, span, annotations := as }, items'⟩ := by
  intro indent p
  obtain ⟨w, hw, hann, hstart⟩ := annotations_shows ha
  obtain ⟨cs, hadds, hcs⟩ := h
    (s.continuationColumn items (p.annotations { kind := .sexpr, span, annotations := as }).column)
    ((p.annotations { kind := .sexpr, span, annotations := as }).put "(")
  refine ⟨_, (adds_annotations hw p _ _ _).trans ((Page.adds_put _ "(").trans
    (hadds.trans (Page.adds_put _ ")"))), fun c rest ss hc _ _ hrest => ?_,
    .annotated hstart fun _ => ⟨_, _, rfl, by decide, fun h => absurd h (by decide)⟩⟩
  have := form_shows .parenOpen .parenClose '(' ')' hc hann (by simp) (fun h => absurd h (by decide))
    (fun hc' hs' hclear hclose => hcs.shows hc' hs' (hclear _) (by simp) hclose) hrest
  simp only [Node.signs, List.append_assoc, List.cons_append, List.nil_append]
  exact this

/-- Where no pipe comes first, spaces stand after all items but the last and newline runs. -/
theorem spacing_eq (h : ∀ p, items.head? = some p → p.isPipe = false) :
    Node.spacing items = Node.spacingAfter false items := by
  cases items with
  | nil => rfl
  | cons n ns => rw [Node.spacing, h n rfl, if_neg (by decide)]

/-- No second brace comes after the brace that opens a struct. -/
theorem head_ne_brace {V : Bool → Node → Prop} {c : LexContext} {cs : List Char} {ss : List Sign}
    (h : LaidRow V .key items .key)
    (hshows : Shows c cs (Node.signsOf true items ++ .word .braceClose (Text.ofChars ['\x7d']) :: ss)) :
    (settled cs).head? ≠ some '\x7b' := by
  intro hd
  obtain ⟨inSExpr, type, ds, us, hsigns, hspell, -⟩ := hshows.head_word hd (by decide) (by decide)
  have htype := Lexeme.spelling_brace hspell
  cases h with
  | nil =>
    obtain ⟨rfl, -⟩ := Sign.word.inj (List.cons.inj hsigns).1
    simp at htype
  | @newlines _ _ k _ _ hk =>
    obtain ⟨k, rfl⟩ := Nat.exists_eq_succ_of_ne_zero (by omega : k ≠ 0)
    rw [Node.signsOf_skip rfl, Node.signs_newlineRun, List.replicate_succ] at hsigns
    simp at hsigns
  | line =>
    rw [Node.signsOf_skip rfl, Node.signs_lineComment] at hsigns
    simp at hsigns
  | block =>
    rw [Node.signsOf_skip rfl, Node.signs_blockComment] at hsigns
    simp at hsigns
  | key hv =>
    obtain ⟨keyType, w, rfl, ht, hw, -⟩ := hv
    have hkey := wordType_of_spelling .structKey hw (by simp) (List.mem_cons_of_mem _ ht)
    obtain ⟨heq, -⟩ := Sign.word.inj (List.cons.inj hsigns).1
    rw [← heq.symm.trans hkey] at ht
    simp only [keyTypes, List.mem_cons, List.not_mem_nil, or_false] at ht htype
    rcases htype with rfl | rfl | rfl <;> simp at ht
  | value hs' => simp [Slot.afterValue?] at hs'

theorem struct (ha : AnnotationTexts as) (h : LaidRow (Heard s) .key items .key) :
    PrintsAs s b ⟨{ kind := .struct, span, annotations := as }, items⟩
      ⟨{ kind := .struct, span, annotations := as }, Node.hearAll items⟩ := by
  intro indent p
  obtain ⟨w, hw, hann, hstart⟩ := annotations_shows ha
  obtain ⟨cs, hadds, hcs⟩ := struct_written h rfl (.inl rfl)
    (p.annotations { kind := .struct, span, annotations := as }).column
    ((p.annotations { kind := .struct, span, annotations := as }).put "\x7b")
  have hspaces := Page.spaceIf_spaces (!(Node.printStruct s
    (p.annotations { kind := .struct, span, annotations := as }).column
    ((p.annotations { kind := .struct, span, annotations := as }).put "\x7b") items).endsWithOneOf
      "\x7b\x7d \n")
  refine ⟨_, (adds_annotations hw p _ _ _).trans ((Page.adds_put _ "\x7b").trans
    (hadds.trans ((Page.adds_spaceIf _ _).trans (Page.adds_put _ "\x7d")))),
    fun c rest ss hc _ _ hrest => ?_,
    .annotated hstart fun _ => ⟨_, _, rfl, by decide, fun h => absurd h (by decide)⟩⟩
  have hrow : LaidRow (LaidIn .all) .key (Node.hearAll items) .key := h.hearAll fun _ _ h => h.laid
  have := form_shows .braceOpen .braceClose '\x7b' '\x7d' hc hann (by simp)
    (fun _ hinner => head_ne_brace hrow hinner)
    (fun hc' hs' hclear hclose => by
      have := hcs.shows hc' hs' ((hclear _).spaces hspaces) (by simp) (hclose.spaces hspaces)
      rwa [← List.append_assoc] at this) hrest
  simp only [Node.signs, List.append_assoc, List.cons_append, List.nil_append] at this ⊢
  exact this

theorem clob {V : Bool → Node → Prop} (ha : AnnotationTexts as) (h : LaidRow V .clob items .clob)
    (hs : items.any Node.isContent = true) :
    PrintsAs s b ⟨{ kind := .clob, span, annotations := as }, items⟩
      ⟨{ kind := .clob, span, annotations := as }, items⟩ := by
  intro indent p
  obtain ⟨w, hw, hann, hstart⟩ := annotations_shows ha
  let opened := (p.annotations { kind := .clob, span, annotations := as }).put "\x7b\x7b"
  let inner : Int := if Node.contentBeforeBreak items = 0 then indent + 1 else opened.column + 1
  obtain ⟨cs, hadds, hcs⟩ := clob_written h rfl inner opened
  have hspaces := Page.spaceIf_spaces (!(items.foldl (Page.clobItem inner) opened).endsWithGap)
  refine ⟨_, (adds_annotations hw p _ _ _).trans ((Page.adds_put _ "\x7b\x7b").trans
    (hadds.trans ((Page.adds_spaceIf _ _).trans (Page.adds_put _ "\x7d\x7d")))),
    fun c rest ss hc _ _ hrest => ?_,
    .annotated hstart fun _ => ⟨_, _, rfl, by decide, fun h => absurd h (by decide)⟩⟩
  have hback : Shows ((c.after .clobOpen).after .clobClose) rest ss := by
    rwa [LexContext.after_clob hc]
  have hclose := (Shows.clobClose rfl hback).spaces hspaces
  have hopen := Shows.clobOpen hc (hcs.opens hs _) (hcs.shows _ _ _ rfl hclose)
  have := hann c _ _ hc hopen
  simp only [Node.signs, List.append_assoc, List.cons_append, List.nil_append] at this ⊢
  exact this


/-! ### Scalars -/

variable {type : TokenType} {kind : Kind} {v w : List Char}

theorem plain_of_wordKinds (hk : (type, kind) ∈ wordKinds) : type ∈ Lexeme.plainTypes := by
  simp only [wordKinds, List.mem_cons, Prod.mk.injEq, List.not_mem_nil, or_false] at hk
  rcases hk with ⟨rfl, -⟩ | ⟨rfl, -⟩ | ⟨rfl, -⟩ | ⟨rfl, -⟩ | ⟨rfl, -⟩ | ⟨rfl, -⟩ | ⟨rfl, -⟩ |
    ⟨rfl, -⟩ <;> decide

/-- Whether a word is an operator is told by its token. -/
theorem isOperator_word (hk : (type, kind) ∈ wordKinds) (hv : Spelling b type v) :
    Node.isOperator ⟨{ kind, span, annotations := as, value := Text.ofChars v }, []⟩ =
      decide (type = .operator) := by
  have htype := wordType_of_wordKinds hv hk
  simp only [wordKinds, List.mem_cons, Prod.mk.injEq, List.not_mem_nil, or_false] at hk
  unfold Node.isOperator Node.kind Node.value
  rcases hk with ⟨rfl, rfl⟩ | ⟨rfl, rfl⟩ | ⟨rfl, rfl⟩ | ⟨rfl, rfl⟩ | ⟨rfl, rfl⟩ | ⟨rfl, rfl⟩ |
    ⟨rfl, rfl⟩ | ⟨rfl, rfl⟩
  all_goals first | rfl | exact (congrArg (· == TokenType.operator) htype).trans rfl

theorem word_adds (hw : as.flatten = Text.ofChars w) (hk : (type, kind) ∈ wordKinds) (indent : Int)
    (p : Page) :
    Adds p (Node.print s indent p ⟨{ kind, span, annotations := as, value := Text.ofChars v }, []⟩)
      (w ++ v) := by
  have hadds := (adds_annotations hw p kind span (Text.ofChars v)).trans (Page.adds_write _ v)
  simp only [wordKinds, List.mem_cons, Prod.mk.injEq, List.not_mem_nil, or_false] at hk
  rcases hk with ⟨-, rfl⟩ | ⟨-, rfl⟩ | ⟨-, rfl⟩ | ⟨-, rfl⟩ | ⟨-, rfl⟩ | ⟨-, rfl⟩ | ⟨-, rfl⟩ |
    ⟨-, rfl⟩ <;> exact hadds

/-- A word shows itself in front of all that may follow it. -/
theorem word_shows (hk : (type, kind) ∈ wordKinds) (hv : Spelling b type v)
    (hann : ∀ (c : LexContext) (rest : List Char) (ss : List Sign), c.inClob = false → Shows c rest ss →
      Shows c (w ++ rest) (as.map (fun a => .word .annotate a.settled) ++ ss)) :
    ShowsAs b ⟨{ kind, span, annotations := as, value := Text.ofChars v }, []⟩ (w ++ v) := by
  intro c rest ss hc hs hnext hrest
  have hplain := plain_of_wordKinds hk
  have hop : Node.isOperator ⟨{ kind, span, annotations := as, value := Text.ofChars v }, []⟩ =
      decide (type = .operator) := isOperator_word hk hv
  have hword : Shows c (v ++ rest) (.word type (Text.ofChars v) :: ss) := by
    subst hs
    rcases hnext with hclear | ⟨hin, htouch⟩
    · exact Shows.plain hv hplain hc hclear hrest
    · cases htouch with
      | pipe hn cs =>
        exact Shows.beforePipe hv hplain (by simpa using hop.symm.trans hn) hc hin hrest
      | behind hn hstart hd hinline cs =>
        obtain rfl : type = .operator := by simpa using hop.symm.trans hn
        obtain rfl := Text.ofChars_injective hstart
        exact Shows.afterPipe (spelling_operator hv).1 hc hin hd hinline hrest
      | comment hn hd cs =>
        obtain rfl : type = .operator := by simpa using hop.symm.trans (Node.isOperator_of_isPipe hn)
        obtain rfl : kind = .symbol := by simpa [wordKinds] using hk
        have hstart : Text.ofChars v = utf8 "|" := by simpa [Node.isPipe, Node.symbol?] using hn
        obtain rfl : v = ['|'] := Text.ofChars_injective hstart
        exact Shows.pipeComment hc hin hd hrest
  have htype := wordType_of_wordKinds hv hk
  have := hann c _ _ hc hword
  rw [List.append_assoc]
  simp only [wordKinds, List.mem_cons, Prod.mk.injEq, List.not_mem_nil, or_false] at hk
  rcases hk with ⟨-, rfl⟩ | ⟨-, rfl⟩ | ⟨-, rfl⟩ | ⟨-, rfl⟩ | ⟨-, rfl⟩ | ⟨-, rfl⟩ | ⟨-, rfl⟩ |
    ⟨-, rfl⟩ <;>
  · simp only [Node.signs, Label.scalarSign, htype, List.append_assoc]
    exact this

/-- Words that start with an operator character are operators and numbers with a minus sign. -/
theorem word_starts (hk : (type, kind) ∈ wordKinds) (hv : Spelling b type v) :
    StartsAs ⟨{ kind, span, value := Text.ofChars v }, []⟩ v := by
  obtain ⟨d, ds, rfl, hspace, -⟩ := Lexeme.spelling_starts hv (by
    rintro rfl
    simp [wordKinds] at hk)
  refine ⟨d, ds, rfl, by rw [isInline, hspace]; rfl, fun hd => ⟨rfl, ?_⟩⟩
  by_cases hop : type = .operator
  · left
    rw [isOperator_word hk hv, hop]
    rfl
  · right
    obtain ⟨rfl, htype⟩ := Lexeme.spelling_operator_start hv (plain_of_wordKinds hk) hop hd
    have hkind : kind = .integer ∨ kind = .real := by
      rcases htype with rfl | rfl
      · exact .inl (by simpa [wordKinds] using hk)
      · exact .inr (by simpa [wordKinds] using hk)
    unfold Node.isNegative Node.kind Node.value
    rw [Text.chars_ofChars]
    rcases hkind with rfl | rfl <;> rfl

theorem word (hk : (type, kind) ∈ wordKinds) (hv : Spelling b type v) (ha : AnnotationTexts as) :
    PrintsAs s b ⟨{ kind, span, annotations := as, value := Text.ofChars v }, []⟩
      ⟨{ kind, span, annotations := as, value := Text.ofChars v }, []⟩ := by
  intro indent p
  obtain ⟨w, hw, hann, hstart⟩ := annotations_shows ha
  refine ⟨w ++ v, word_adds hw hk indent p, word_shows hk hv hann, .annotated hstart ?_⟩
  rintro rfl
  exact word_starts hk hv

/-- Contents that end with neither a blank nor a line break are printed as they are. -/
theorem longString_adds {p : Page} {l : Label} (hs : s.formatLongStrings = false) {w v : List Char}
    (hw : Adds p (p.annotations l) w) (hl : l.value = Text.ofChars v)
    (hend : ∀ c, v.getLast? = some c → c ∉ [' ', '\t', '\n']) :
    Adds p (p.longString s l) (w ++ ("'''".toList ++ v ++ "'''".toList)) := by
  have hopened := hw.trans ((Page.adds_put (p.annotations l) "'''").trans (Page.adds_write _ v))
  obtain ⟨hkept, hline⟩ : Text.dropEndWhile Text.isIndent (Text.ofChars v) = Text.ofChars v ∧
      (((p.annotations l).put "'''").write (Text.ofChars v)).endsWithOneOf "\n" = false := by
    rcases List.eq_nil_or_concat v with rfl | ⟨u, c, rfl⟩
    · exact ⟨rfl, rfl⟩
    rw [List.concat_eq_append] at hend ⊢
    obtain ⟨t, b, ht, hmem⟩ := Text.ofChars_concat u c
    have hbyte : ∀ d ∈ [' ', '\t', '\n'], b ≠ byte d := by
      rintro d hd rfl
      have hascii : d.toNat < 128 := by
        simp only [List.mem_cons, List.not_mem_nil, or_false] at hd
        rcases hd with rfl | rfl | rfl <;> decide
      exact hend c (by simp) (Text.eq_of_mem_encode hascii hmem ▸ hd)
    rw [ht]
    refine ⟨Text.dropEndWhile_append_of_not ?_, ?_⟩
    · simp [Text.isIndent, hbyte ' ', hbyte '\t']
    · unfold Page.endsWithOneOf Page.write
      rw [List.reverseAux_eq, List.reverse_append]
      show [byte '\n'].contains b = false
      simpa using hbyte '\n'
  have hcontents : p.longString s l =
      (((p.annotations l).put "'''").write (Text.ofChars v)).put "'''" := by
    unfold Page.longString
    simp only [hs, Bool.false_eq_true, if_false, hl, hkept, hline]
  rw [hcontents]
  have := hopened.trans (Page.adds_put _ "'''")
  rwa [List.append_assoc] at this

theorem scalar {S : Breadth} (hs : S.long → s.formatLongStrings = false) {label : Label}
    (h : LaidScalar S b label) : PrintsAs s b ⟨label, []⟩ ⟨label, []⟩ := by
  cases h with
  | word hk hv ha => exact word hk hv ha
  | @string v span as hv ha =>
    intro indent p
    obtain ⟨w, hw, hann, hstart⟩ := annotations_shows ha
    refine ⟨_, (adds_annotations hw p .quotedString span (Text.ofChars v)).trans
      (((Page.adds_put _ "\"").trans (Page.adds_write _ v)).trans (Page.adds_put _ "\"")),
      fun c rest ss hc hs hnext hrest => ?_,
      .annotated hstart fun _ => ⟨_, _, rfl, by decide, fun h => absurd h (by decide)⟩⟩
    subst hs
    have := hann c _ _ hc (Shows.string hv hrest)
    have hsign : Text.ofChars ('"' :: (v ++ ['"'])) = utf8 "\"" ++ Text.ofChars v ++ utf8 "\"" := by
      rw [Text.ofChars_cons_ascii (by decide), Text.ofChars_append]
      rfl
    rw [hsign] at this
    simp only [Node.signs, Label.scalarSign, List.append_assoc, List.cons_append] at this ⊢
    exact this
  | @long v span as hS hv hend ha =>
    intro indent p
    obtain ⟨w, hw, hann, hstart⟩ := annotations_shows ha
    refine ⟨_, longString_adds (hs hS) (adds_annotations hw p .multilineString span (Text.ofChars v)) rfl hend,
      fun c rest ss hc _ _ hrest => ?_,
      .annotated hstart fun _ => ⟨_, _, rfl, by decide, fun h => absurd h (by decide)⟩⟩
    have := hann c _ _ hc (Shows.longString hv hrest)
    rw [Text.ofChars_append, Text.ofChars_append] at this
    simp only [Node.signs, Label.scalarSign, List.append_assoc] at this ⊢
    exact this
  | @blob v span as hv ha =>
    intro indent p
    obtain ⟨w, hw, hann, hstart⟩ := annotations_shows ha
    refine ⟨w ++ braced v, ?_, fun c rest ss hc _ _ hrest => ?_,
      .annotated hstart fun _ => ⟨_, _, rfl, by decide, fun h => absurd h (by decide)⟩⟩
    · have hopen := (adds_annotations hw p .blob span (Text.ofChars v)).trans
        (Page.adds_put _ "\x7b\x7b")
      cases v with
      | nil =>
        have := hopen.trans (Page.adds_put _ " \x7d\x7d")
        rw [List.append_assoc] at this
        exact this
      | cons d v =>
        have hvalue : (Text.ofChars (d :: v)).isEmpty = false := by
          rw [Text.ofChars_cons]
          simp
        have hadds := hopen.trans (((Page.adds_put _ " ").trans (Page.adds_write _ (d :: v))).trans
          (Page.adds_put _ " \x7d\x7d"))
        rw [List.append_assoc] at hadds
        rw [Node.print]
        simp only [Page.scalar, hvalue, Bool.false_eq_true, if_false]
        exact hadds
    · have := hann c _ _ hc (Shows.blob hv hc hrest)
      simp only [Node.signs, Label.scalarSign, List.append_assoc, Text.chars_ofChars]
      exact this

end PrintsAs

end FusionKit
