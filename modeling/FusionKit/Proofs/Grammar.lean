import FusionKit.Proofs.Leading
import FusionKit.Proofs.Steps

/-!
# The grammar of programs

The grammar is data: phrases over token types, one for each rule, and `Derives` says which
sequences of token types a phrase stands for. The parser accepts what the rule for programs derives,
and nothing else.

That it accepts nothing else is told by what an open form demands of the tokens to come: each step
takes one token off the demand. That it accepts all is told by `Reads`: from any reading of one
sort, the tokens of a phrase lead to a reading of another sort. Forms nest, so that is an induction
on how many tokens there are.
-/
set_option autoImplicit false

namespace FusionKit

/-- The names of the rules. -/
inductive Rule where
  | program | trivia | expr | value | member
  deriving DecidableEq, Repr

/-- What the right-hand side of a rule is made of. -/
inductive Phrase where
  | empty
  /-- One token of one of some types. -/
  | one (types : List TokenType)
  | seq (a b : Phrase)
  | alt (a b : Phrase)
  /-- Any number of times, none included. -/
  | many (a : Phrase)
  | rule (r : Rule)
  deriving Repr

namespace Phrase

/-- One phrase after the other. -/
def row (as : List Phrase) : Phrase := as.foldr seq empty

/-- One of some phrases. -/
def choice (as : List Phrase) : Phrase := as.foldr alt (one [])

/-- A phrase or nothing. -/
def maybe (a : Phrase) : Phrase := alt empty a

/-- `trivia*` -/
def gap : Phrase := many (rule .trivia)

/-- `(',' trivia* a trivia*)*` -/
def further (a : Phrase) : Phrase := many (row [one [.comma], gap, a, gap])

/-- `(',' trivia*)?` -/
def lastComma : Phrase := maybe (row [one [.comma], gap])

/-- `trivia* (a trivia* (',' trivia* a trivia*)* (',' trivia*)?)?` -/
def separated (a : Phrase) : List Phrase := [gap, maybe (row [a, gap, further a, lastComma])]

/-- Some phrases between two tokens. -/
def delimited (opening : TokenType) (as : List Phrase) (closing : TokenType) : Phrase :=
  row (one [opening] :: (as ++ [one [closing]]))

/-- `trivia | expr` -/
def item : Phrase := choice [rule .trivia, rule .expr]

end Phrase

open Phrase

/-- The types of the tokens that are values by themselves. -/
def TokenType.atoms : List TokenType :=
  [.null, .bool, .int, .real, .timestamp, .symbol, .quotedSymbol, .operator, .string, .longString, .blob]

/-- The types of the tokens that stand in a clob. -/
def TokenType.clobItems : List TokenType := [.whitespace, .string, .longString]

/-- The right-hand sides of the rules. -/
def Rule.body : Rule → Phrase
  | program => many item
  | trivia => one [.whitespace, .lineComment, .blockComment]
  | expr => row [many (row [one [.annotate], maybe (one [.whitespace])]), rule .value]
  | value => choice
      [one TokenType.atoms,
        delimited .parenOpen [many item] .parenClose,
        delimited .bracketOpen (separated (rule .expr)) .bracketClose,
        delimited .braceOpen (separated (rule .member)) .braceClose,
        delimited .clobOpen [many (one TokenType.clobItems)] .clobClose]
  | member => row [one TokenType.keys, gap, one [.colon], gap, rule .expr]

/-- The sequences of token types that a phrase stands for. -/
inductive Derives : Phrase → List TokenType → Prop where
  | empty : Derives .empty []
  | one {types : List TokenType} {t : TokenType} (h : t ∈ types) : Derives (.one types) [t]
  | seq {a b : Phrase} {xs ys : List TokenType} (ha : Derives a xs) (hb : Derives b ys) :
      Derives (.seq a b) (xs ++ ys)
  | left {a b : Phrase} {xs : List TokenType} (h : Derives a xs) : Derives (.alt a b) xs
  | right {a b : Phrase} {xs : List TokenType} (h : Derives b xs) : Derives (.alt a b) xs
  | none {a : Phrase} : Derives (.many a) []
  | more {a : Phrase} {xs ys : List TokenType} (ha : Derives a xs) (h : Derives (.many a) ys) :
      Derives (.many a) (xs ++ ys)
  | rule {r : Rule} {xs : List TokenType} (h : Derives r.body xs) : Derives (.rule r) xs

/-! ## What phrases derive -/

variable {a b : Phrase} {as bs : List Phrase} {xs ys : List TokenType} {x : TokenType}
  {types : List TokenType}

theorem derives_empty : Derives .empty xs ↔ xs = [] := by
  constructor
  · intro h
    cases h
    rfl
  · rintro rfl
    exact .empty

theorem derives_one : Derives (.one types) xs ↔ ∃ t ∈ types, xs = [t] := by
  constructor
  · intro h
    cases h with
    | one h => exact ⟨_, h, rfl⟩
  · rintro ⟨t, h, rfl⟩
    exact .one h

theorem derives_seq : Derives (.seq a b) xs ↔ ∃ ys zs, xs = ys ++ zs ∧ Derives a ys ∧ Derives b zs := by
  constructor
  · intro h
    cases h with
    | seq ha hb => exact ⟨_, _, rfl, ha, hb⟩
  · rintro ⟨ys, zs, rfl, ha, hb⟩
    exact .seq ha hb

theorem derives_alt : Derives (.alt a b) xs ↔ Derives a xs ∨ Derives b xs := by
  constructor
  · intro h
    cases h with
    | left h => exact .inl h
    | right h => exact .inr h
  · rintro (h | h)
    · exact .left h
    · exact .right h

/-- What is derived any number of times is put together of what is derived once. -/
theorem derives_many : Derives (.many a) xs ↔
    ∃ yss : List (List TokenType), xs = yss.flatten ∧ ∀ ys ∈ yss, Derives a ys := by
  constructor
  · intro h
    generalize he : Phrase.many a = e at h
    induction h with
    | none => exact ⟨[], rfl, by simp⟩
    | @more b ys zs hb h _ ih =>
      cases he
      obtain ⟨yss, rfl, hyss⟩ := ih rfl
      exact ⟨ys :: yss, rfl, List.forall_mem_cons.mpr ⟨hb, hyss⟩⟩
    | _ => contradiction
  · rintro ⟨yss, rfl, hyss⟩
    induction yss with
    | nil => exact .none
    | cons ys yss ih =>
      obtain ⟨hys, hyss⟩ := List.forall_mem_cons.mp hyss
      exact .more hys (ih hyss)

theorem derives_rule {r : Rule} : Derives (.rule r) xs ↔ Derives r.body xs := by
  constructor
  · intro h
    cases h with
    | rule h => exact h
  · exact .rule

theorem derives_maybe : Derives (maybe a) xs ↔ xs = [] ∨ Derives a xs := by
  rw [maybe, derives_alt, derives_empty]

theorem row_cons : row (a :: as) = .seq a (row as) := rfl

theorem derives_row_nil : Derives (row []) xs ↔ xs = [] := derives_empty

theorem derives_row_append : Derives (row (as ++ bs)) xs ↔
    ∃ ys zs, xs = ys ++ zs ∧ Derives (row as) ys ∧ Derives (row bs) zs := by
  induction as generalizing xs with
  | nil => simp [derives_row_nil]
  | cons a as ih =>
    rw [List.cons_append, row_cons, derives_seq]
    constructor
    · rintro ⟨ys, zs, rfl, ha, h⟩
      obtain ⟨us, vs, rfl, has, hbs⟩ := ih.mp h
      exact ⟨ys ++ us, vs, by simp, .seq ha has, hbs⟩
    · rintro ⟨ys, zs, rfl, h, hbs⟩
      rw [row_cons, derives_seq] at h
      obtain ⟨us, vs, rfl, ha, has⟩ := h
      exact ⟨us, vs ++ zs, by simp, ha, ih.mpr ⟨vs, zs, rfl, has, hbs⟩⟩

theorem derives_choice : Derives (choice as) xs ↔ ∃ a ∈ as, Derives a xs := by
  induction as with
  | nil => simp [choice, derives_one]
  | cons a as ih =>
    rw [choice, List.foldr_cons, derives_alt, show List.foldr alt (one []) as = choice as from rfl, ih]
    simp

theorem derives_row_row : Derives (row (row as :: bs)) xs ↔ Derives (row (as ++ bs)) xs := by
  rw [row_cons, derives_seq, derives_row_append]

/-- A rule stands for its row. -/
theorem derives_rule_row {r : Rule} (hr : r.body = row as) :
    Derives (row (.rule r :: bs)) xs ↔ Derives (row (as ++ bs)) xs := by
  rw [← derives_row_row, row_cons, row_cons, derives_seq, derives_seq]
  simp only [derives_rule, hr]

namespace Derives

theorem head (hb : ∀ ys, Derives b ys → Derives a ys) (h : Derives (row (b :: as)) xs) :
    Derives (row (a :: as)) xs := by
  rw [row_cons, derives_seq] at h ⊢
  obtain ⟨ys, zs, rfl, hys, hzs⟩ := h
  exact ⟨ys, zs, rfl, hb ys hys, hzs⟩

theorem token (hx : x ∈ types) (h : Derives (row as) xs) : Derives (row (.one types :: as)) (x :: xs) :=
  .seq (.one hx) h

theorem skip (h : Derives (row as) xs) : Derives (row (.many a :: as)) xs :=
  @Derives.seq _ _ [] _ .none h

theorem skip_maybe (h : Derives (row as) xs) : Derives (row (maybe a :: as)) xs :=
  @Derives.seq _ _ [] _ (.left .empty) h

theorem again (h : Derives (row (a :: .many a :: as)) xs) : Derives (row (.many a :: as)) xs := by
  rw [row_cons, derives_seq] at h
  obtain ⟨us, vs, rfl, hus, h⟩ := h
  rw [row_cons, derives_seq] at h
  obtain ⟨vs, ws, rfl, hvs, hws⟩ := h
  rw [← List.append_assoc]
  exact .seq (.more hus hvs) hws

theorem again_token (hx : Derives a [x]) (h : Derives (row (.many a :: as)) xs) :
    Derives (row (.many a :: as)) (x :: xs) :=
  again (.seq hx h)

end Derives

theorem derives_row_maybe : Derives (row (maybe a :: as)) xs ↔ Derives (row as) xs ∨ Derives (row (a :: as)) xs := by
  constructor
  · intro h
    rw [row_cons, derives_seq] at h
    obtain ⟨ys, zs, rfl, hys, hzs⟩ := h
    rcases derives_maybe.mp hys with rfl | hys
    · exact .inl hzs
    · exact .inr (.seq hys hzs)
  · rintro (h | h)
    · exact h.skip_maybe
    · exact h.head fun _ => .right

/-! ## What an open form demands -/

/-- The rest of a row of items, after one of them. -/
def Phrase.furtherItems (a : Phrase) : List Phrase := [gap, further a, lastComma]

theorem derives_separated {closing : List Phrase} :
    Derives (row (separated a ++ closing)) xs ↔
      Derives (row (gap :: closing)) xs ∨ Derives (row (gap :: a :: (furtherItems a ++ closing))) xs := by
  have hrow : ∀ ys, Derives (row (maybe (row (a :: furtherItems a)) :: closing)) ys ↔
      Derives (row closing) ys ∨ Derives (row (a :: (furtherItems a ++ closing))) ys := by
    intro ys
    rw [derives_row_maybe, derives_row_row]
    rfl
  show Derives (.seq gap (row (maybe (row (a :: furtherItems a)) :: closing))) xs ↔
    Derives (.seq gap (row closing)) xs ∨
      Derives (.seq gap (row (a :: (furtherItems a ++ closing)))) xs
  simp only [derives_seq, hrow, and_or_left, exists_or]

/-- A comma and an item are further items. -/
theorem Derives.comma_item (h : Derives (row (gap :: a :: (furtherItems a ++ bs))) xs) :
    Derives (row (furtherItems a ++ bs)) (.comma :: xs) :=
  .skip (.again (derives_row_row.mpr (.token (List.mem_singleton_self _) h)))

/-- A comma may come last. -/
theorem Derives.comma_last (h : Derives (row (gap :: bs)) xs) :
    Derives (row (furtherItems a ++ bs)) (.comma :: xs) :=
  .skip (.skip (derives_row_maybe.mpr
    (.inr (derives_row_row.mpr (.token (List.mem_singleton_self _) h)))))

theorem Derives.no_item (h : Derives (row bs) xs) : Derives (row (furtherItems a ++ bs)) xs :=
  .skip (.skip (.skip_maybe h))

/-- A value of one token, and annotations, in front of the rest. -/
theorem Derives.value_expr (h : Derives (row (.rule .value :: as)) xs) :
    Derives (row (.rule .expr :: as)) xs :=
  (derives_rule_row rfl).mpr (.skip h)

theorem Derives.annotate (h : Derives (row (maybe (.one [.whitespace]) :: .rule .expr :: as)) xs) :
    Derives (row (.rule .expr :: as)) (.annotate :: xs) := by
  rw [derives_rule_row rfl]
  refine .again (derives_row_row.mpr (.token (List.mem_singleton_self _) ?_))
  show Derives (.seq (maybe (.one [.whitespace])) (row (_ :: Phrase.rule .value :: as))) xs
  rw [derives_seq]
  rw [row_cons, derives_seq] at h
  obtain ⟨ys, zs, rfl, hys, hzs⟩ := h
  exact ⟨ys, zs, rfl, hys, (derives_rule_row rfl).mp hzs⟩

theorem Token.mem_atoms_of_scalar? {t : Token} {n : Node} (h : Node.scalar? t = some n) :
    t.type ∈ TokenType.atoms := by
  unfold Node.scalar? at h
  split at h
  case h_12 => contradiction
  all_goals
    rename_i ht
    rw [ht]
    decide

theorem Token.isTrivia_of_nodes {t : Token} {ns : List Node} (h : Node.trivia? t = some ns) :
    t.IsTrivia := by
  unfold Node.trivia? at h
  split at h
  case h_4 => contradiction
  all_goals
    rename_i ht
    rw [Token.IsTrivia, ht]
    decide

namespace Frame

/-- What the tokens of a form are after a value in it. -/
def afterValue : Frame → List Phrase
  | sexpr .. => [many item, one [.parenClose]]
  | list .. => furtherItems (rule .expr) ++ [one [.bracketClose]]
  | struct .. => furtherItems (rule .member) ++ [one [.braceClose]]
  | clob .. => [many (one TokenType.clobItems), one [.clobClose]]

/-- What the next tokens of an open form are. -/
def rest : Frame → List Phrase
  | sexpr .. => [many item, one [.parenClose]]
  | list _ _ _ true => separated (rule .expr) ++ [one [.bracketClose]]
  | list _ _ _ false => furtherItems (rule .expr) ++ [one [.bracketClose]]
  | struct _ _ _ (.between true) => separated (rule .member) ++ [one [.braceClose]]
  | struct _ _ _ (.between false) => furtherItems (rule .member) ++ [one [.braceClose]]
  | struct _ _ _ (.afterKey ..) =>
    gap :: one [.colon] :: gap :: rule .expr :: (furtherItems (rule .member) ++ [one [.braceClose]])
  | struct _ _ _ (.afterColon ..) =>
    gap :: rule .expr :: (furtherItems (rule .member) ++ [one [.braceClose]])
  | clob .. => [many (one TokenType.clobItems), one [.clobClose]]

/-- What the tokens after an open form are, when the forms around it wait for it. -/
def outer : List Frame → List Phrase
  | [] => [many item]
  | f :: fs => f.afterValue ++ outer fs

variable {f g : Frame} {ks : List Phrase}

theorem rest_value (hf : f.hasPlace = true) (h : Derives (row (.rule .expr :: (f.afterValue ++ ks))) xs) :
    Derives (row (f.rest ++ ks)) xs := by
  cases f with
  | sexpr o a items =>
    refine .again (h.head fun ys hys => ?_)
    exact derives_choice.mpr ⟨_, by simp, hys⟩
  | list o a items ready =>
    obtain rfl : ready = true := hf
    rw [rest, List.append_assoc, derives_separated]
    exact .inr (.skip h)
  | struct o a items phase =>
    cases phase with
    | afterColon key reversed => exact .skip h
    | between ready => contradiction
    | afterKey key reversed => contradiction
  | clob o a items => contradiction

theorem rest_trivia (hx : x = .whitespace ∨ x ∈ [TokenType.lineComment, .blockComment] ∧ f.kind ≠ .clob)
    (h : Derives (row (f.rest ++ ks)) xs) : Derives (row (f.rest ++ ks)) (x :: xs) := by
  have htrivia : Derives (.rule .trivia) [x] := by
    refine .rule (.one ?_)
    rcases hx with rfl | ⟨hx, -⟩
    · simp
    · exact List.mem_cons_of_mem _ hx
  cases f with
  | sexpr o a items => exact .again_token (derives_choice.mpr ⟨_, by simp, htrivia⟩) h
  | list o a items ready => cases ready <;> exact .again_token htrivia h
  | struct o a items phase =>
    cases phase with
    | between ready => cases ready <;> exact .again_token htrivia h
    | afterKey key reversed => exact .again_token htrivia h
    | afterColon key reversed => exact .again_token htrivia h
  | clob o a items =>
    rcases hx with rfl | ⟨-, hx⟩
    · exact .again_token (.one (by decide)) h
    · exact absurd rfl hx

theorem rest_closing (hx : f.closing? = some x) (h : Derives (row ks) xs) :
    Derives (row (f.rest ++ ks)) (x :: xs) := by
  have hclose : ∀ y, some y = some x → Derives (row (.one [y] :: ks)) (x :: xs) := by
    intro y hy
    obtain rfl := Option.some.inj hy
    exact .token (List.mem_singleton_self _) h
  cases f with
  | sexpr o a items => exact .skip (hclose _ hx)
  | list o a items ready =>
    cases ready with
    | true =>
      rw [rest, List.append_assoc, derives_separated]
      exact .inl (.skip (hclose _ hx))
    | false =>
      rw [rest, List.append_assoc]
      exact .no_item (hclose _ hx)
  | struct o a items phase =>
    cases phase with
    | between ready =>
      cases ready with
      | true =>
        rw [rest, List.append_assoc, derives_separated]
        exact .inl (.skip (hclose _ hx))
      | false =>
        rw [rest, List.append_assoc]
        exact .no_item (hclose _ hx)
    | afterKey key reversed => contradiction
    | afterColon key reversed => contradiction
  | clob o a items => exact .skip (hclose _ hx)

theorem rest_comma (hg : f.afterComma? = some g) (h : Derives (row (g.rest ++ ks)) xs) :
    Derives (row (f.rest ++ ks)) (.comma :: xs) := by
  unfold afterComma? at hg
  split at hg
  case h_3 => contradiction
  all_goals
    cases hg
    rw [rest, List.append_assoc, derives_separated] at h
    rw [rest, List.append_assoc]
    rcases h with h | h
    · exact h.comma_last
    · exact h.comma_item

theorem rest_key {o : Token} {a : List Text} {items : List Node} {key : Node} (hx : x ∈ TokenType.keys)
    (h : Derives (row ((named o a items key).rest ++ ks)) xs) :
    Derives (row ((Frame.struct o a items (.between true)).rest ++ ks)) (x :: xs) := by
  rw [rest, List.append_assoc, derives_separated]
  refine .inr (.skip ((derives_rule_row rfl).mpr (.token hx ?_)))
  rw [named, rest] at h
  simp only [List.cons_append, List.append_assoc] at h ⊢
  exact h

theorem rest_opened {t : Token} {a : List Text} (hf : opened? t a = some f)
    (h : Derives (row (f.rest ++ ks)) xs) : Derives (row (.rule .value :: ks)) (t.type :: xs) := by
  have hvalue : ∀ (o c : TokenType) (bs : List Phrase), delimited o bs c ∈
      [delimited .parenOpen [many item] .parenClose,
        delimited .bracketOpen (separated (rule .expr)) .bracketClose,
        delimited .braceOpen (separated (rule .member)) .braceClose,
        delimited .clobOpen [many (one TokenType.clobItems)] .clobClose] →
      Derives (row ((bs ++ [.one [c]]) ++ ks)) xs → Derives (row (.rule .value :: ks)) (o :: xs) := by
    intro o c bs hmem h
    have hrow : Derives (row (delimited o bs c :: ks)) (o :: xs) := by
      rw [delimited, derives_row_row]
      exact .token (List.mem_singleton_self _) h
    refine hrow.head fun ys hys => .rule (derives_choice.mpr ⟨_, List.mem_cons_of_mem _ hmem, hys⟩)
  unfold opened? at hf
  split at hf <;> rename_i ht <;> cases hf <;> rw [ht]
  · exact hvalue _ .parenClose [many item] (by simp) h
  · exact hvalue _ .bracketClose (separated (rule .expr)) (by simp) h
  · exact hvalue _ .braceClose (separated (rule .member)) (by simp) h
  · exact hvalue _ .clobClose [many (one TokenType.clobItems)] (by simp) h

theorem rest_push (hf : f.hasPlace = true) (n : Node) : (f.push n).rest = f.afterValue := by
  cases f with
  | struct o a items phase =>
    cases phase with
    | afterColon key reversed => rfl
    | between ready => contradiction
    | afterKey key reversed => contradiction
  | clob o a items => contradiction
  | _ => rfl

theorem rest_keep (ns : List Node) : (f.keep ns).rest = f.rest := by
  unfold keep
  split
  case h_2 => 
    rename_i ready
    cases ready <;> rfl
  case h_5 => 
    rename_i phase _ _
    cases phase with
    | between ready => cases ready <;> rfl
    | _ => rfl
  all_goals rfl

end Frame

namespace Reading

/-- What the tokens to come are. -/
def demand (r : Reading) : List Phrase :=
  match r.pending, r.frames with
  | some p, fs =>
    (if p.mayBlank then maybe (one [.whitespace]) else .empty) :: rule .expr :: Frame.outer fs
  | none, f :: fs => f.rest ++ Frame.outer fs
  | none, [] => [many item]

theorem demand_open {r : Reading} {f : Frame} {fs : List Frame} (hp : r.pending = none)
    (hfs : r.frames = f :: fs) : r.demand = f.rest ++ Frame.outer fs := by
  rw [demand, hp, hfs]

theorem demand_top {r : Reading} (hp : r.pending = none) (hfs : r.frames = []) :
    r.demand = [many item] := by
  rw [demand, hp, hfs]

variable {r r' : Reading} {t : Token} {ts : List Token}

/-- Where a value may come, a value is what comes first. -/
theorem demand_expr (hr : r.HasPlace) (hs : r.Stacked)
    (h : Derives (row (.rule .expr :: Frame.outer r.frames)) xs) : Derives (row r.demand) xs := by
  have hhead := hr.head hs
  unfold demand
  split
  · split
    · exact h.skip_maybe
    · exact @Derives.seq _ _ [] _ .empty h
  · rename_i f fs hp hfs
    rw [hfs] at h hhead
    exact Frame.rest_value (hhead f rfl) h
  · rename_i hp hfs
    rw [hfs] at h
    exact .again (h.head fun ys hys => derives_choice.mpr ⟨_, by simp, hys⟩)

/-- After a value, what the open forms demand is left. -/
theorem demand_deliver (hhead : ∀ f, r.frames.head? = some f → f.hasPlace = true) (n : Node) :
    (r.deliver n).demand = Frame.outer r.frames := by
  unfold deliver
  cases hfs : r.frames with
  | nil => rfl
  | cons f fs =>
    rw [hfs] at hhead
    show (f.push n).rest ++ Frame.outer fs = Frame.outer (f :: fs)
    rw [Frame.rest_push (hhead f rfl), Frame.outer]

/-- A step takes one token off what is demanded. -/
theorem Step.demand (h : r.Step t r') (hs : r.Stacked) (hderives : Derives (row r'.demand) xs) :
    Derives (row r.demand) (t.type :: xs) := by
  cases h with
  | annotate hr ht =>
    rw [ht]
    exact demand_expr hr hs (.annotate hderives)
  | blank hp ht =>
    obtain ⟨ys, zs, rfl, hys, hzs⟩ := derives_seq.mp hderives
    obtain rfl := derives_empty.mp hys
    rw [ht, Reading.demand, hp]
    exact derives_row_maybe.mpr (.inr (.token (List.mem_singleton_self _) hzs))
  | scalar hr hn =>
    rw [demand_deliver (hr.head hs)] at hderives
    refine demand_expr hr hs (.value_expr (@Derives.seq _ _ [t.type] _ (.rule ?_) hderives))
    exact derives_choice.mpr ⟨_, by simp, .one (Token.mem_atoms_of_scalar? hn)⟩
  | opening hr hf => exact demand_expr hr hs (.value_expr (Frame.rest_opened hf hderives))
  | @trivia ns hp hc hn =>
    unfold keep at hderives
    cases hfs : r.frames with
    | nil =>
      rw [hfs, demand_top (r := ⟨ns.reverse ++ r.done, [], r.pending⟩) hp rfl] at hderives
      rw [demand_top hp hfs]
      have htrivia : Derives (rule .trivia) [t.type] := .rule (.one (Token.isTrivia_of_nodes hn))
      exact .again_token (derives_choice.mpr ⟨_, by simp, htrivia⟩) hderives
    | cons f fs =>
      rw [hfs, demand_open (r := ⟨r.done, f.keep ns :: fs, r.pending⟩) hp rfl, Frame.rest_keep] at hderives
      rw [demand_open hp hfs]
      refine Frame.rest_trivia ?_ hderives
      rcases List.mem_cons.mp (Token.isTrivia_of_nodes hn) with hx | hx
      · exact .inl hx
      · refine .inr ⟨hx, fun hk => ?_⟩
        have hclob := hc f.opening f.annotations f.items fs
        cases f <;> cases hk
        rw [hclob hfs] at hx
        exact absurd hx (by decide)
  | clobString hp hr ht hn =>
    rw [deliver, hr, demand_open rfl rfl] at hderives
    rw [demand_open hp hr]
    refine .again_token (.one ?_) hderives
    rcases ht with ht | ht <;> rw [ht] <;> decide
  | @closing f fs hp hr ht =>
    have hhead : ∀ g, ({ r with frames := fs } : Reading).frames.head? = some g → g.hasPlace = true :=
      fun g hg => hs.inner hr g (List.mem_of_head? hg)
    rw [close, demand_deliver hhead] at hderives
    rw [demand_open hp hr]
    exact Frame.rest_closing ht hderives
  | comma hp hr hg ht =>
    rw [demand_open (r := { r with frames := _ :: _ }) hp rfl] at hderives
    rw [demand_open hp hr, ht]
    exact Frame.rest_comma hg hderives
  | key hp hr ht =>
    rw [demand_open (r := { r with frames := _ :: _ }) hp rfl] at hderives
    rw [demand_open hp hr]
    exact Frame.rest_key ht hderives
  | colon hp hr ht =>
    rw [demand_open (r := { r with frames := _ :: _ }) hp rfl] at hderives
    rw [demand_open hp hr, ht]
    exact .skip (.token (List.mem_singleton_self _) hderives)

/-- The tokens that lead to an end are what was demanded. -/
theorem Steps.demand (h : r.Steps ts r') (hs : r.Stacked) (hidle : r'.isIdle = true) :
    Derives (row r.demand) (ts.map Token.type) := by
  induction h with
  | nil r =>
    have hidle : r.frames = [] ∧ r.pending = none := by simpa [isIdle] using hidle
    rw [Reading.demand, hidle.1, hidle.2]
    exact .skip .empty
  | cons h _ ih =>
    exact h.demand hs (ih (h.stacked hs) hidle)

/-! ## Where the tokens of a phrase lead -/

/-- From each reading of one sort, fewer than `k` tokens of a phrase lead to a reading of another. -/
def Reads (k : Nat) (P : Reading → Prop) (a : Phrase) (Q : Reading → Prop) : Prop :=
  ∀ ts : List Token, ts.length < k → Derives a (ts.map Token.type) →
    ∀ r, P r → ∃ r', Q r' ∧ r.Steps ts r'

namespace Reads

variable {k : Nat} {P Q R : Reading → Prop}

theorem empty : Reads k P .empty P := by
  intro ts _ h r hr
  obtain rfl : ts = [] := List.map_eq_nil_iff.mp (derives_empty.mp h)
  exact ⟨r, hr, .nil r⟩

theorem row_nil : Reads k P (row []) P := empty

theorem one (h : ∀ r t, P r → t.type ∈ types → ∃ r', Q r' ∧ r.Step t r') : Reads k P (.one types) Q := by
  intro ts _ hts r hr
  obtain ⟨x, hx, hts⟩ := derives_one.mp hts
  obtain ⟨t, rfl, rfl⟩ := List.map_eq_singleton_iff.mp hts
  obtain ⟨r', hr', hstep⟩ := h r t hr hx
  exact ⟨r', hr', hstep.one⟩

theorem seq (ha : Reads k P a Q) (hb : Reads k Q b R) : Reads k P (.seq a b) R := by
  intro ts hk h r hr
  obtain ⟨ys, zs, hts, hys, hzs⟩ := derives_seq.mp h
  obtain ⟨us, vs, rfl, rfl, rfl⟩ := List.map_eq_append_iff.mp hts
  rw [List.length_append] at hk
  obtain ⟨r', hr', hus⟩ := ha us (by omega) hys r hr
  obtain ⟨r'', hr'', hvs⟩ := hb vs (by omega) hzs r' hr'
  exact ⟨r'', hr'', hus.trans hvs⟩

theorem alt (ha : Reads k P a Q) (hb : Reads k P b Q) : Reads k P (.alt a b) Q := by
  intro ts hk h
  rcases derives_alt.mp h with h | h
  · exact ha ts hk h
  · exact hb ts hk h

theorem many (ha : Reads k P a P) : Reads k P (.many a) P := by
  intro ts hk h
  obtain ⟨yss, hts, hyss⟩ := derives_many.mp h
  induction yss generalizing ts with
  | nil =>
    intro r hr
    obtain rfl : ts = [] := List.map_eq_nil_iff.mp hts
    exact ⟨r, hr, .nil r⟩
  | cons ys yss ih =>
    intro r hr
    obtain ⟨us, vs, rfl, rfl, hvs⟩ := List.map_eq_append_iff.mp hts
    rw [List.length_append] at hk
    obtain ⟨hus, hyss⟩ := List.forall_mem_cons.mp hyss
    obtain ⟨r', hr', hsteps⟩ := ha us (by omega) hus r hr
    obtain ⟨r'', hr'', hrest⟩ :=
      ih vs (by omega) (derives_many.mpr ⟨yss, hvs, hyss⟩) hvs hyss r' hr'
    exact ⟨r'', hr'', hsteps.trans hrest⟩

theorem rule {r : Rule} (h : Reads k P r.body Q) : Reads k P (.rule r) Q := by
  intro ts hk hts
  exact h ts hk (derives_rule.mp hts)

theorem choice (h : ∀ a ∈ as, Reads k P a Q) : Reads k P (choice as) Q := by
  intro ts hk hts
  obtain ⟨a, ha, hts⟩ := derives_choice.mp hts
  exact h a ha ts hk hts

theorem row_cons (ha : Reads k P a Q) (h : Reads k Q (row as) R) : Reads k P (row (a :: as)) R :=
  ha.seq h

theorem weaken (h : Reads k P a Q) (hQ : ∀ r, Q r → R r) : Reads k P a R := by
  intro ts hk hts r hr
  obtain ⟨r', hr', hsteps⟩ := h ts hk hts r hr
  exact ⟨r', hQ r' hr', hsteps⟩

theorem maybe (hP : ∀ r, P r → Q r) (h : Reads k P a Q) : Reads k P (maybe a) Q :=
  .alt (empty.weaken hP) h

end Reads

/-- A reading that differs from another in the annotations of the next value only. -/
structure Near (r0 r : Reading) : Prop where
  done : r.done = r0.done
  frames : r.frames = r0.frames
  place : r.HasPlace

/-- The reading after a value. -/
def After (r0 r : Reading) : Prop := ∃ n, r = r0.deliver n

/-- The reading with one more open form. -/
def Inside (r0 : Reading) (s : Frame → Prop) (r : Reading) : Prop :=
  ∃ f, s f ∧ r = ⟨r0.done, f :: r0.frames, none⟩

variable {k : Nat} {r0 : Reading} {s s' : Frame → Prop} {c o : TokenType}

theorem reads_trivia (hclob : ∀ f, s f → f.kind ≠ .clob) (hkeep : ∀ f ns, s f → s (f.keep ns)) :
    Reads k (Inside r0 s) (rule .trivia) (Inside r0 s) := by
  refine .rule (.one ?_)
  rintro r t ⟨f, hf, rfl⟩ ht
  refine ⟨_, ⟨f.keep t.triviaNodes, hkeep f _ hf, rfl⟩, .trivia rfl ?_ (Token.trivia?_of_isTrivia ht)⟩
  intro o a items fs hfs
  obtain ⟨rfl, -⟩ := List.cons.inj hfs
  exact absurd rfl (hclob _ hf)

theorem reads_closing (hclosing : ∀ f, s f → f.closing? = some c) :
    Reads k (Inside r0 s) (one [c]) (After r0) := by
  refine .one ?_
  rintro r t ⟨f, hf, rfl⟩ ht
  have hc : f.closing? = some t.type := by rw [List.mem_singleton.mp ht, hclosing f hf]
  exact ⟨_, ⟨_, deliver_congr rfl rfl _⟩, .closing rfl rfl hc⟩

theorem reads_opening {bs : List Phrase}
    (hopened : ∀ t a, t.type = o → ∃ f, Frame.opened? t a = some f ∧ s f)
    (h : Reads k (Inside r0 s) (row (bs ++ [one [c]])) (After r0)) :
    Reads (k + 1) (Near r0) (delimited o bs c) (After r0) := by
  intro ts hk hts r hr
  obtain ⟨ys, zs, hsplit, hys, hzs⟩ := derives_seq.mp hts
  obtain ⟨us, vs, rfl, hus, rfl⟩ := List.map_eq_append_iff.mp hsplit
  obtain ⟨x, hx, rfl⟩ := derives_one.mp hys
  obtain ⟨t, rfl, rfl⟩ := List.map_eq_singleton_iff.mp hus
  rw [List.length_append, List.length_singleton] at hk
  obtain ⟨f, hf, hs⟩ := hopened t r.annotations (List.mem_singleton.mp hx)
  obtain ⟨r', hr', hsteps⟩ := h vs (by omega) hzs ⟨r0.done, f :: r0.frames, none⟩ ⟨f, hs, rfl⟩
  have henter : r.enter f = ⟨r0.done, f :: r0.frames, none⟩ := enter_congr hr.done hr.frames f
  have hstep : r.Step t (r.enter f) := .opening hr.place hf
  rw [henter] at hstep
  exact ⟨r', hr', .cons hstep hsteps⟩

/-- Whether the forms of one sort, before and after an item, hold items with commas between them. -/
structure Separates (s : Bool → Frame → Prop) (c : TokenType) : Prop where
  kind : ∀ {ready f}, s ready f → f.kind ≠ .clob
  keep : ∀ {ready f} ns, s ready f → s ready (f.keep ns)
  comma : ∀ {f}, s false f → ∃ g, f.afterComma? = some g ∧ s true g
  closing : ∀ {ready f}, s ready f → f.closing? = some c

theorem Separates.reads {s : Bool → Frame → Prop} (hs : Separates s c)
    (ha : Reads k (Inside r0 (s true)) a (Inside r0 (s false))) :
    Reads k (Inside r0 (s true)) (row (separated a ++ [one [c]])) (After r0) := by
  have hgap : ∀ ready, Reads k (Inside r0 (s ready)) gap (Inside r0 (s ready)) := fun ready =>
    .many (reads_trivia (fun _ => hs.kind) fun _ ns => hs.keep ns)
  have hcomma : Reads k (Inside r0 (s false)) (one [.comma]) (Inside r0 (s true)) := by
    refine .one ?_
    rintro r t ⟨f, hf, rfl⟩ ht
    obtain ⟨g, hg, hsg⟩ := hs.comma hf
    exact ⟨_, ⟨g, hsg, rfl⟩, .comma rfl rfl hg (List.mem_singleton.mp ht)⟩
  have hfurther : Reads k (Inside r0 (s false)) (further a) (Inside r0 (s false)) :=
    .many (hcomma.row_cons ((hgap true).row_cons (ha.row_cons ((hgap false).row_cons .row_nil))))
  -- The items end after a comma or after an item.
  have hany : ∀ ready r, Inside r0 (s ready) r → Inside r0 (fun f => ∃ ready, s ready f) r := by
    rintro ready r ⟨f, hf, rfl⟩
    exact ⟨f, ⟨ready, hf⟩, rfl⟩
  have hlast : Reads k (Inside r0 (s false)) lastComma (Inside r0 fun f => ∃ ready, s ready f) :=
    .maybe (hany false)
      (.weaken (hcomma.row_cons ((hgap true).row_cons .row_nil)) (hany true))
  have hitems := ha.row_cons ((hgap false).row_cons (hfurther.row_cons (hlast.row_cons .row_nil)))
  refine (hgap true).row_cons ((Reads.maybe (hany true) hitems).row_cons ?_)
  exact Reads.row_cons (reads_closing fun f ⟨_, hf⟩ => hs.closing hf) .row_nil

section

variable (ih : ∀ r0, Reads k (Near r0) (rule .expr) (After r0))

include ih in
theorem reads_expr (hplace : ∀ f, s f → f.hasPlace = true) (hpush : ∀ f n, s f → s' (f.push n)) :
    Reads k (Inside r0 s) (rule .expr) (Inside r0 s') := by
  rintro ts hk h r ⟨f, hf, rfl⟩
  have hnear : Near ⟨r0.done, f :: r0.frames, none⟩ ⟨r0.done, f :: r0.frames, none⟩ := by
    refine ⟨rfl, rfl, .inr fun g hg => ?_⟩
    cases hg
    exact hplace f hf
  obtain ⟨_, ⟨n, rfl⟩, hsteps⟩ := ih _ ts hk h _ hnear
  exact ⟨_, ⟨f.push n, hpush f n hf, rfl⟩, hsteps⟩

include ih in
theorem reads_sexpr : Reads (k + 1) (Near r0) (delimited .parenOpen [many item] .parenClose) (After r0) := by
  have hitem : Reads k (Inside r0 (·.kind = .sexpr)) item (Inside r0 (·.kind = .sexpr)) := by
    refine .choice fun a ha => ?_
    rcases List.mem_pair.mp ha with rfl | rfl
    · refine reads_trivia (fun f hf => by rw [hf]; decide) fun f ns hf => ?_
      cases f <;> cases hf
      rfl
    · refine reads_expr ih (fun f hf => ?_) fun f n hf => ?_ <;> cases f <;> cases hf <;> rfl
  refine reads_opening (fun t a ht => ?_) (hitem.many.row_cons (Reads.row_cons (reads_closing ?_) .row_nil))
  · exact ⟨.sexpr t a [], by rw [Frame.opened?, ht], rfl⟩
  · intro f hf
    cases f <;> cases hf
    rfl

include ih in
theorem reads_list :
    Reads (k + 1) (Near r0) (delimited .bracketOpen (separated (rule .expr)) .bracketClose) (After r0) := by
  let s (ready : Bool) (f : Frame) : Prop := ∃ o a items, f = .list o a items ready
  have hs : Separates s .bracketClose := by
    refine ⟨?_, ?_, ?_, ?_⟩
    · rintro _ _ ⟨_, _, _, rfl⟩
      exact nofun
    · rintro _ _ ns ⟨o, a, items, rfl⟩
      exact ⟨o, a, _, rfl⟩
    · rintro _ ⟨o, a, items, rfl⟩
      exact ⟨_, rfl, o, a, items, rfl⟩
    · rintro _ _ ⟨_, _, _, rfl⟩
      rfl
  refine reads_opening (s := s true) (fun t a ht => ?_) (hs.reads (reads_expr ih ?_ ?_))
  · exact ⟨.list t a [] true, by rw [Frame.opened?, ht], t, a, [], rfl⟩
  · rintro _ ⟨_, _, _, rfl⟩
    rfl
  · rintro _ n ⟨o, a, items, rfl⟩
    exact ⟨o, a, _, rfl⟩

include ih in
theorem reads_struct :
    Reads (k + 1) (Near r0) (delimited .braceOpen (separated (rule .member)) .braceClose) (After r0) := by
  let s (ready : Bool) (f : Frame) : Prop := ∃ o a items, f = .struct o a items (.between ready)
  let named (f : Frame) : Prop := ∃ o a items key rev, f = .struct o a items (.afterKey key rev)
  let waiting (f : Frame) : Prop := ∃ o a items key rev, f = .struct o a items (.afterColon key rev)
  have hs : Separates s .braceClose := by
    refine ⟨?_, ?_, ?_, ?_⟩
    · rintro _ _ ⟨_, _, _, rfl⟩
      exact nofun
    · rintro _ _ ns ⟨o, a, items, rfl⟩
      exact ⟨o, a, _, rfl⟩
    · rintro _ ⟨o, a, items, rfl⟩
      exact ⟨_, rfl, o, a, items, rfl⟩
    · rintro _ _ ⟨_, _, _, rfl⟩
      rfl
  have hkey : Reads k (Inside r0 (s true)) (one TokenType.keys) (Inside r0 named) := by
    refine .one ?_
    rintro _ t ⟨_, ⟨o, a, items, rfl⟩, rfl⟩ ht
    exact ⟨_, ⟨_, ⟨o, a, items, _, _, rfl⟩, rfl⟩, .key rfl rfl ht⟩
  have hcolon : Reads k (Inside r0 named) (one [.colon]) (Inside r0 waiting) := by
    refine .one ?_
    rintro _ t ⟨_, ⟨o, a, items, key, rev, rfl⟩, rfl⟩ ht
    exact ⟨_, ⟨_, ⟨o, a, items, key, rev, rfl⟩, rfl⟩, .colon rfl rfl (List.mem_singleton.mp ht)⟩
  have hnamed : Reads k (Inside r0 named) gap (Inside r0 named) := by
    refine .many (reads_trivia ?_ ?_)
    · rintro _ ⟨_, _, _, _, _, rfl⟩
      exact nofun
    · rintro _ ns ⟨o, a, items, key, rev, rfl⟩
      exact ⟨o, a, items, key, _, rfl⟩
  have hwaiting : Reads k (Inside r0 waiting) gap (Inside r0 waiting) := by
    refine .many (reads_trivia ?_ ?_)
    · rintro _ ⟨_, _, _, _, _, rfl⟩
      exact nofun
    · rintro _ ns ⟨o, a, items, key, rev, rfl⟩
      exact ⟨o, a, items, key, _, rfl⟩
  have hvalue : Reads k (Inside r0 waiting) (rule .expr) (Inside r0 (s false)) := by
    refine reads_expr ih ?_ ?_
    · rintro _ ⟨_, _, _, _, _, rfl⟩
      rfl
    · rintro _ n ⟨o, a, items, key, rev, rfl⟩
      exact ⟨o, a, _, rfl⟩
  have hmember : Reads k (Inside r0 (s true)) (rule .member) (Inside r0 (s false)) :=
    .rule (hkey.row_cons (hnamed.row_cons (hcolon.row_cons (hwaiting.row_cons (hvalue.row_cons .row_nil)))))
  refine reads_opening (s := s true) (fun t a ht => ?_) (hs.reads hmember)
  exact ⟨.struct t a [] (.between true), by rw [Frame.opened?, ht], t, a, [], rfl⟩

end

theorem scalar?_of_atom (ht : t.type ∈ TokenType.atoms) : ∃ n, Node.scalar? t = some n := by
  simp only [TokenType.atoms, List.mem_cons, List.not_mem_nil, or_false] at ht
  unfold Node.scalar?
  rcases ht with ht | ht | ht | ht | ht | ht | ht | ht | ht | ht | ht <;> rw [ht] <;> exact ⟨_, rfl⟩

theorem reads_clob :
    Reads (k + 1) (Near r0) (delimited .clobOpen [many (one TokenType.clobItems)] .clobClose)
      (After r0) := by
  let s (f : Frame) : Prop := ∃ o a items, f = .clob o a items
  have hitem : Reads k (Inside r0 s) (one TokenType.clobItems) (Inside r0 s) := by
    refine .one ?_
    rintro _ t ⟨_, ⟨o, a, items, rfl⟩, rfl⟩ ht
    have hstring : t.type = .string ∨ t.type = .longString →
        ∃ r', Inside r0 s r' ∧ Step ⟨r0.done, .clob o a items :: r0.frames, none⟩ t r' := by
      intro ht
      obtain ⟨n, hn⟩ := scalar?_of_atom (t := t) (by rcases ht with ht | ht <;> rw [ht] <;> decide)
      exact ⟨_, ⟨_, ⟨o, a, n :: items, rfl⟩, rfl⟩, .clobString rfl rfl ht hn⟩
    simp only [TokenType.clobItems, List.mem_cons, List.not_mem_nil, or_false] at ht
    rcases ht with ht | ht
    · have hn : Node.trivia? t = some (Node.newlines? t) := by rw [Node.trivia?, ht]
      exact ⟨_, ⟨_, ⟨o, a, _, rfl⟩, rfl⟩, .trivia rfl (fun _ _ _ _ _ => ht) hn⟩
    · exact hstring ht
  refine reads_opening (s := s) (fun t a ht => ?_)
    (hitem.many.row_cons (Reads.row_cons (reads_closing ?_) .row_nil))
  · exact ⟨.clob t a [], by rw [Frame.opened?, ht], t, a, [], rfl⟩
  · rintro _ ⟨_, _, _, rfl⟩
    rfl

theorem reads_annotations :
    Reads k (Near r0) (many (row [one [.annotate], maybe (one [.whitespace])])) (Near r0) := by
  let blankable (r : Reading) : Prop := Near r0 r ∧ ∃ as, r.pending = some ⟨as, true⟩
  have hannotate : Reads k (Near r0) (one [.annotate]) blankable := by
    refine .one fun r t hr ht => ?_
    refine ⟨_, ?_, .annotate hr.place (List.mem_singleton.mp ht)⟩
    exact ⟨⟨hr.done, hr.frames, .inl rfl⟩, _, rfl⟩
  have hblank : Reads k blankable (one [.whitespace]) (Near r0) := by
    refine .one fun r t hr ht => ?_
    obtain ⟨hr, as, hp⟩ := hr
    refine ⟨_, ?_, .blank hp (List.mem_singleton.mp ht)⟩
    exact ⟨hr.done, hr.frames, .inl rfl⟩
  exact .many (hannotate.row_cons (Reads.row_cons (.maybe (fun r hr => hr.1) hblank) .row_nil))

theorem reads_atom : Reads k (Near r0) (one TokenType.atoms) (After r0) := by
  refine .one fun r t hr ht => ?_
  obtain ⟨n, hn⟩ := scalar?_of_atom ht
  exact ⟨_, ⟨_, deliver_congr hr.done hr.frames _⟩, .scalar hr.place hn⟩

/-- Where a value may come, the tokens of a value are read as one. -/
theorem expr_reads (k : Nat) (r0 : Reading) : Reads k (Near r0) (rule .expr) (After r0) := by
  induction k generalizing r0 with
  | zero => exact fun ts hk => absurd hk (Nat.not_lt_zero _)
  | succ k ih =>
    refine .rule (reads_annotations.row_cons (Reads.row_cons (.rule (.choice fun a ha => ?_)) .row_nil))
    simp only [List.mem_cons, List.not_mem_nil, or_false] at ha
    rcases ha with rfl | rfl | rfl | rfl | rfl
    · exact reads_atom
    · exact reads_sexpr ih
    · exact reads_list ih
    · exact reads_struct ih
    · exact reads_clob

theorem program_reads :
    Reads k (fun r => r.isIdle = true) (rule .program) (fun r => r.isIdle = true) := by
  refine .rule (.many (.choice fun a ha => ?_))
  rcases List.mem_pair.mp ha with rfl | rfl
  · refine .rule (.one fun r t hr ht => ?_)
    obtain ⟨hfs, hp⟩ : r.frames = [] ∧ r.pending = none := by simpa [isIdle] using hr
    refine ⟨_, ?_, .trivia hp ?_ (Token.trivia?_of_isTrivia ht)⟩
    · simp [keep, isIdle, hfs, hp]
    · intro o a items fs h
      rw [hfs] at h
      contradiction
  · intro ts hk h r hr
    obtain ⟨hfs, hp⟩ : r.frames = [] ∧ r.pending = none := by simpa [isIdle] using hr
    have hnear : Near r r := by
      refine ⟨rfl, rfl, .inr fun f hf => ?_⟩
      rw [hfs] at hf
      contradiction
    obtain ⟨_, ⟨n, rfl⟩, hsteps⟩ := expr_reads k r ts hk h r hnear
    exact ⟨_, by simp [deliver, isIdle, hfs], hsteps⟩

end Reading

/-- The parser accepts what the grammar derives, and nothing else. -/
theorem TokenStream.program_ok_iff (ts : List Token) (h : ∀ t ∈ ts, t.type ≠ .eof) :
    (∃ nodes, (TokenStream.ofTokens ts).program = .ok nodes) ↔
      Derives (.rule .program) (ts.map Token.type) := by
  have hlast : (TokenStream.ofTokens ts).last.type = .eof := rfl
  constructor
  · rintro ⟨nodes, hnodes⟩
    obtain ⟨r', hsteps, hidle, -⟩ := (Reading.program_iff hlast h).mp hnodes
    have hderives := hsteps.demand Reading.Stacked.start hidle
    obtain ⟨ys, zs, hsplit, hys, hzs⟩ := derives_seq.mp hderives
    obtain rfl := derives_row_nil.mp hzs
    rw [hsplit, List.append_nil]
    exact .rule hys
  · intro hderives
    obtain ⟨r', hidle, hsteps⟩ :=
      Reading.program_reads (k := ts.length + 1) ts (by omega) hderives {} rfl
    exact ⟨_, (Reading.program_iff hlast h).mpr ⟨r', hsteps, hidle, rfl⟩⟩

/-- A struct whose member holds a list, and a comma after the member. -/
theorem TokenStream.program_ok_iff_struct :
    let ts : List Token := [.braceOpen, .symbol, .colon, .whitespace, .bracketOpen, .int, .comma, .int,
      .bracketClose, .comma, .braceClose].map fun type => ⟨type, [], ⟨0, 0⟩, {}⟩
    (∀ t ∈ ts, t.type ≠ .eof) ∧ Derives (.rule .program) (ts.map Token.type) := by
  intro ts
  have hts : ∀ t ∈ ts, t.type ≠ .eof := by decide
  refine ⟨hts, (TokenStream.program_ok_iff ts hts).mp ?_⟩
  exact ⟨_, rfl⟩

end FusionKit
