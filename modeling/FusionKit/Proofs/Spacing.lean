import FusionKit.Proofs.Runs
import FusionKit.Proofs.Safety

/-!
# Newline runs of parsed trees

A white space token takes all blanks there are, so no two of them meet, and two newline runs meet
only around a comma or after the line break of a line comment. In a form that is closed, one run at
most stands at the start and two at the end: one before and one after the last comma. That is all
that tidying needs, and all that makes a difference to a second pass.
-/
set_option autoImplicit false

namespace FusionKit

open Lexeme (isSpace)
open Glyph (ofChars Stops)

/-! ## White space tokens -/

/-- White space is read up to what is no blank. -/
theorem LexContext.whitespace_of_lexeme {c : LexContext} {g : Glyph} {gs : List Glyph} {more : Nat}
    (h : c.lexeme g gs = .token .whitespace more) :
    ∃ d ds rest, g = .char d ∧ isSpace d = true ∧ gs = ofChars ds ++ rest ∧ more = ds.length ∧
      Stops isSpace rest := by
  have hbegins : ∀ {b : Bool}, Lexeme.Begins b .whitespace more g gs → ∃ d, g = .char d ∧ isSpace d = true := by
    rintro b ⟨w, rest, hsplit, hlen, hw⟩
    cases w with
    | nil => contradiction
    | cons d w =>
      refine ⟨d, (List.cons.inj hsplit).1, ?_⟩
      cases hw with
      | numeral ht => simp at ht
      | whitespace _ hspace => exact hspace d List.mem_cons_self
      | fixed h => simp [Lexeme.fixedSpellings] at h
  obtain ⟨d, rfl, hd⟩ : ∃ d, g = .char d ∧ isSpace d = true := by
    unfold LexContext.lexeme at h
    split at h
    · exact hbegins (Lexeme.readInClob_sound h).1
    · exact hbegins (Lexeme.read_sound h).1
  obtain ⟨ds, rest, rfl, -, hds, hstops⟩ := Lexeme.run_split isSpace gs
  rw [c.lexeme_whitespace hd hds hstops] at h
  cases h
  exact ⟨d, ds, rest, rfl, hd, rfl, rfl, hstops⟩

namespace Token

/-- No white space token follows one, and the first token is none where no blank comes first. -/
theorem scan_spaced (file : Text) (c : LexContext) (m : Mark) (gs : List Glyph) :
    Spaced (scan file c m gs).1 ∧ (Stops isSpace gs →
      ∀ t, (scan file c m gs).1.head? = some t → t.type ≠ .whitespace) := by
  fun_induction scan file c m gs with
  | case1 c m hclob => exact ⟨.singleton _, by simp [bare]⟩
  | case2 c m hclob => exact ⟨.nil, by simp⟩
  | case3 c m g gs type more hlex body tokens last htail ih =>
    rw [htail] at ih
    refine ⟨List.isChain_cons.mpr ⟨fun u hu => ?_, ih.1⟩, fun hstops t ht => ?_⟩
    · rintro ⟨rfl, hblank⟩
      obtain ⟨d, ds, rest, -, -, rfl, rfl, hstops⟩ := LexContext.whitespace_of_lexeme hlex
      rw [List.drop_left' (by simp [ofChars])] at ih
      exact ih.2 hstops u hu hblank
    · cases ht
      rintro rfl
      obtain ⟨d, ds, rest, rfl, hd, -⟩ := LexContext.whitespace_of_lexeme hlex
      have := hstops d rfl
      rw [hd] at this
      contradiction
  | case4 c m g gs skip reach cause hlex => exact ⟨.singleton _, by simp [bare]⟩

end Token

theorem TokenStream.ofSource_spaced (file source : Text) : Token.Spaced (ofSource file source).tokens := by
  rw [ofSource_eq_scan]
  exact (Token.scan_spaced file {} {} source.glyphs).1

/-! ## Nodes -/

namespace Node

open Cell (leading spare ended)

/-- The forms in a node are edged, and the members in it are to newline runs what one value is. -/
def Spaced (n : Node) : Prop := ∀ m, n.Below m →
  (m.isCompound = true → Edged m.items) ∧ (m.kind = .structMember → Cell.Alike (cells m.items) [.other])

variable {n m : Node} {ns items : List Node} {t : Token}

theorem spaced_leaf (hitems : n.items = []) (hk : n.kind ≠ .structMember) : n.Spaced := by
  refine forall_below ⟨fun _ => ?_, fun h => absurd h hk⟩ (by simp [hitems])
  rw [hitems]
  exact edged_nil

theorem Spaced.annotated (h : n.Spaced) (annotations : List Text) : (n.annotated annotations).Spaced := by
  unfold Node.annotated
  split
  · exact h
  · exact forall_below (h n (.refl n)) fun m hm k hk => h k (.item hm hk)

theorem cell_annotated (annotations : List Text) (n : Node) : (n.annotated annotations).cell = n.cell := by
  unfold annotated
  split <;> rfl

theorem cell_of_kind (hk : n.kind ≠ .newlines) (hk' : n.kind ≠ .commentLine) : n.cell = .other := by
  simp [cell, isNewlines, isCommentLine, hk, hk']

theorem spaced_scalar (h : Node.scalar? t = some n) : n.Spaced ∧ n.cell = .other := by
  obtain ⟨hk, hitems⟩ := shaped_scalar h
  have hne : ∀ k ∈ [Kind.structMember, .newlines, .commentLine], n.kind ≠ k := by
    rintro k hno rfl
    exact absurd (And.intro hno hk) (by revert hno; cases n.kind <;> simp [scalarKinds])
  exact ⟨spaced_leaf hitems (hne _ (by simp)), cell_of_kind (hne _ (by simp)) (hne _ (by simp))⟩

/-- Blanks become one newline run at most, and line comments bring theirs along. -/
theorem cells_trivia (h : Node.trivia? t = some ns) : (∀ n ∈ ns, n.Spaced) ∧
    (t.type = .whitespace ∧ (cells ns = [] ∨ ∃ count, cells ns = [.run count]) ∨
      t.type ≠ .whitespace ∧ (cells ns = [.line, .run 1] ∨ cells ns = [.other])) := by
  unfold Node.trivia? at h
  split at h
  · rename_i ht
    cases h
    unfold newlines?
    split
    · exact ⟨by simp, .inl ⟨ht, .inl rfl⟩⟩
    · exact ⟨by simpa using spaced_leaf rfl (by simp), .inl ⟨ht, .inr ⟨_, rfl⟩⟩⟩
  · rename_i ht
    cases h
    refine ⟨?_, .inr ⟨by rw [ht]; decide, .inl rfl⟩⟩
    simpa using ⟨spaced_leaf rfl (by simp [leaf]), spaced_leaf rfl (by simp)⟩
  · rename_i ht
    cases h
    exact ⟨by simpa using spaced_leaf rfl (by simp), .inr ⟨by rw [ht]; decide, .inr rfl⟩⟩
  · contradiction

theorem ended_trivia (h : Node.trivia? t = some ns) : ended false (cells ns) = true := by
  rcases (cells_trivia h).2 with ⟨-, h | ⟨count, h⟩⟩ | ⟨-, h | h⟩ <;> rw [h] <;> rfl

/-! ## Rows of items -/

/-- The finished items of an open form, last first. -/
structure OpenRow (items : List Node) : Prop where
  below : ∀ n ∈ items, n.Spaced
  leading : leading (cells items.reverse) ≤ 1
  ended : ended false (cells items.reverse) = true

/-- How many newline runs end the row of items. -/
def spareOf (items : List Node) : Nat := spare (cells items.reverse)

/-- Whether there is anything but newline runs. -/
def isFirm (items : List Node) : Bool := items.any fun n => !n.isNewlines

theorem isFirm_iff : isFirm items = true ↔ ∃ n ∈ items, n.isNewlines = false := by simp [isFirm]

theorem OpenRow.nil : OpenRow [] := ⟨by simp, Nat.zero_le _, rfl⟩

theorem OpenRow.push (h : OpenRow items) (hn : n.Spaced) (hcell : n.cell = .other) : OpenRow (n :: items) where
  below := List.forall_mem_cons.mpr ⟨hn, h.below⟩
  leading := by
    rw [List.reverse_cons, cells_concat, hcell, Cell.leading_append_firm rfl]
    exact h.leading
  ended := by
    rw [List.reverse_cons, cells_concat, hcell, Cell.ended_append h.ended]
    rfl

theorem spareOf_push (hcell : n.cell = .other) (items : List Node) : spareOf (n :: items) = 0 := by
  rw [spareOf, List.reverse_cons, cells_concat, hcell, Cell.spare_append_firm rfl]

theorem cells_keep (ns items : List Node) : cells (ns.reverse ++ items).reverse = cells items.reverse ++ cells ns := by
  simp [cells]

/-- Before anything else, blanks are read once at most. -/
theorem OpenRow.keep (h : OpenRow items) (hns : Node.trivia? t = some ns)
    (hblank : t.type = .whitespace → isFirm items = false → spareOf items = 0) : OpenRow (ns.reverse ++ items) where
  below m hm := by
    rcases List.mem_append.mp hm with hm | hm
    · exact (cells_trivia hns).1 m (List.mem_reverse.mp hm)
    · exact h.below m hm
  leading := by
    rw [cells_keep]
    cases hfirm : isFirm items with
    | true =>
      obtain ⟨n, hn, hfirm⟩ := isFirm_iff.mp hfirm
      rw [Cell.leading_append_of_firm (firm_cells ⟨n, List.mem_reverse.mpr hn, hfirm⟩)]
      exact h.leading
    | false =>
      rcases (cells_trivia hns).2 with ⟨ht, hcells⟩ | ⟨-, hcells⟩
      · -- nothing but newline runs were read, and they are all at the end: so nothing was
        have hruns : ¬ ∃ c ∈ cells items.reverse, c.isFirm = true := by
          rintro ⟨c, hc, hc'⟩
          obtain ⟨m, hm, rfl⟩ := List.mem_map.mp hc
          rw [← Bool.not_eq_true, isFirm_iff] at hfirm
          exact hfirm ⟨m, List.mem_reverse.mp hm, by simpa [isFirm_cell] using hc'⟩
        have hnone : cells items.reverse = [] := by
          rw [← List.length_eq_zero_iff, ← Cell.spare_eq_length hruns]
          exact hblank ht hfirm
        rcases hcells with hcells | ⟨count, hcells⟩ <;> rw [hnone, hcells] <;> simp [Cell.leading]
      · rcases hcells with hcells | hcells <;> rw [hcells, Cell.leading_append_firm rfl] <;> exact h.leading
  ended := by
    rw [cells_keep, Cell.ended_append h.ended]
    exact ended_trivia hns

/-- Blanks add one newline run at most, and a comment ends them. -/
theorem spareOf_keep (hns : Node.trivia? t = some ns) (items : List Node) :
    spareOf (ns.reverse ++ items) ≤ if t.type = .whitespace then spareOf items + 1 else 0 := by
  rw [spareOf, cells_keep]
  rcases (cells_trivia hns).2 with ⟨ht, hcells | ⟨count, hcells⟩⟩ | ⟨ht, hcells | hcells⟩
  · rw [hcells, if_pos ht, List.append_nil]
    exact Nat.le_succ _
  · rw [hcells, if_pos ht]
    exact Cell.spare_append_run count
  · rw [hcells, if_neg ht]
    simp [spare, Cell.after]
  · rw [hcells, if_neg ht, Cell.spare_append_firm rfl]

/-- How many newline runs may come last, where a comma was read or none is needed: the one in front of
the comma. -/
def room (ready : Bool) (items : List Node) : Nat := if ready && isFirm items then 1 else 0

theorem room_le_one (ready : Bool) (items : List Node) : room ready items ≤ 1 := by
  unfold room
  split <;> decide

theorem isFirm_keep (h : isFirm items = true) (ns : List Node) : isFirm (ns.reverse ++ items) = true := by
  rw [isFirm, List.any_append, ← isFirm, ← isFirm, h, Bool.or_true]

theorem room_keep (ready : Bool) (ns items : List Node) : room ready items ≤ room ready (ns.reverse ++ items) := by
  unfold room
  split
  · rename_i h
    rw [Bool.and_eq_true] at h
    rw [if_pos (by rw [h.1, isFirm_keep h.2 ns]; rfl)]
  · exact Nat.zero_le _

/-- Blanks and comments in a row, where `blank` tells whether blanks were read just now. -/
theorem OpenRow.keep_room {ready blank : Bool} (h : OpenRow items) (hns : Node.trivia? t = some ns)
    (hblank : blank = true → t.type ≠ .whitespace) (hroom : spareOf items ≤ room ready items + blank.toNat) :
    OpenRow (ns.reverse ++ items) ∧
      spareOf (ns.reverse ++ items) ≤ room ready (ns.reverse ++ items) + (t.type == .whitespace).toNat := by
  by_cases ht : t.type = .whitespace
  · obtain rfl : blank = false := Bool.eq_false_iff.mpr fun h => hblank h ht
    constructor
    · refine h.keep hns fun _ hfirm => ?_
      rw [room, hfirm, Bool.and_false] at hroom
      exact Nat.le_zero.mp hroom
    · have hspare := spareOf_keep hns items
      have hmore := room_keep ready ns items
      rw [if_pos ht] at hspare
      rw [ht]
      exact hspare.trans (Nat.succ_le_succ (hroom.trans hmore))
  · refine ⟨h.keep hns fun h => absurd h ht, ?_⟩
    have hspare := spareOf_keep hns items
    rw [if_neg ht] at hspare
    exact hspare.trans (Nat.zero_le _)

theorem OpenRow.edged (h : OpenRow items) (hspare : spareOf items ≤ 2) : Edged items.reverse :=
  ⟨h.leading, hspare, h.ended⟩

/-! ## Members -/

/-- A member without its value, last first: the key and what follows it. -/
structure OpenMember (reversed : List Node) : Prop where
  below : ∀ n ∈ reversed, n.Spaced
  opens : ∃ ms, cells reversed.reverse = .other :: ms ∧ Cell.ended false ms = true

variable {reversed : List Node}

theorem OpenMember.keep (h : OpenMember reversed) (hns : Node.trivia? t = some ns) :
    OpenMember (ns.reverse ++ reversed) where
  below m hm := by
    rcases List.mem_append.mp hm with hm | hm
    · exact (cells_trivia hns).1 m (List.mem_reverse.mp hm)
    · exact h.below m hm
  opens := by
    obtain ⟨ms, hms, hended⟩ := h.opens
    refine ⟨ms ++ cells ns, ?_, ?_⟩
    · rw [cells_keep, hms, List.cons_append]
    · rw [Cell.ended_append hended]
      exact ended_trivia hns

/-- A member is to newline runs what one value is. -/
theorem OpenMember.spaced_ofMember (h : OpenMember reversed) (hn : n.Spaced) (hcell : n.cell = .other) (key : Node) :
    (ofMember key n reversed).Spaced := by
  obtain ⟨ms, hms, hended⟩ := h.opens
  have hcompound : (ofMember key n reversed).isCompound = false := rfl
  refine forall_below ⟨fun h => absurd (hcompound.symm.trans h) (by decide), fun _ => ?_⟩ fun m hm => ?_
  · rw [ofMember, List.reverse_cons, cells_concat, hms, hcell]
    exact Cell.alike_enclosed hended
  · simp only [ofMember, List.reverse_cons, List.mem_append, List.mem_reverse, List.mem_singleton] at hm
    rcases hm with hm | rfl
    · exact h.below m hm
    · exact hn

end Node

/-! ## Open forms -/

open Node (OpenRow OpenMember)

/-- A member that is read starts with its key; before the next member there is one that is
finished, or a comma. -/
def MemberPhase.Spaced (items : List Node) : MemberPhase → Prop
  | between ready => ready = false → Node.isFirm items = true
  | afterKey _ reversed | afterColon _ reversed => OpenMember reversed

namespace Frame

/-- An open form whose newline runs are where a parser leaves them. -/
def Spaced : Frame → Prop
  | sexpr _ _ items | clob _ _ items => OpenRow items
  | list _ _ items ready => OpenRow items ∧ (ready = false → Node.isFirm items = true)
  | struct _ _ items phase => OpenRow items ∧ phase.Spaced items

/-- How many newline runs may come last, blanks that were read just now apart; in the middle of a
member that is over. -/
def room? : Frame → Option Nat
  | sexpr _ _ items | clob _ _ items => some (Node.room false items)
  | list _ _ items ready | struct _ _ items (.between ready) => some (Node.room ready items)
  | struct .. => none

/-- At most as many newline runs come last as there is room for; `blank` tells whether blanks were
read just now. -/
def Roomy (blank : Bool) (f : Frame) : Prop :=
  ∀ room, f.room? = some room → Node.spareOf f.items ≤ room + blank.toNat

variable {f g : Frame} {n : Node} {ns : List Node} {t : Token} {blank : Bool}

theorem Roomy.after_blank (h : f.Roomy blank) : f.Roomy true := fun room hroom =>
  (h room hroom).trans (Nat.add_le_add_left (Bool.toNat_le blank) room)

/-- In the middle of a member there may be any number. -/
theorem roomy_of_member (h : f.room? = none) : f.Roomy blank := by
  intro room hroom
  rw [h] at hroom
  contradiction

theorem Spaced.openRow (h : f.Spaced) : OpenRow f.items := by
  cases f with
  | sexpr | clob => exact h
  | list | struct => exact h.1

theorem Spaced.push (h : f.Spaced) (hn : n.Spaced) (hcell : n.cell = .other) :
    (f.push n).Spaced ∧ (f.push n).Roomy false := by
  have hroomy : ∀ {g : Frame} {m : Node} {items : List Node}, g.items = m :: items → m.cell = .other →
      g.Roomy false := by
    intro g m items hitems hm room hroom
    rw [hitems, Node.spareOf_push hm]
    exact Nat.zero_le _
  have hfirm : ∀ {m : Node} {items : List Node}, m.cell = .other → Node.isFirm (m :: items) = true := by
    intro m items hm
    have := Node.isFirm_cell m
    rw [hm] at this
    simp [Node.isFirm, ← this, Cell.isFirm]
  cases f with
  | sexpr o a items | clob o a items => exact ⟨OpenRow.push h hn hcell, hroomy rfl hcell⟩
  | list o a items ready => exact ⟨⟨h.1.push hn hcell, fun _ => hfirm hcell⟩, hroomy rfl hcell⟩
  | struct o a items phase =>
    cases phase with
    | between ready => exact ⟨⟨h.1.push hn hcell, fun _ => hfirm hcell⟩, hroomy rfl hcell⟩
    | afterKey key reversed => exact ⟨⟨h.1.push hn hcell, h.2⟩, roomy_of_member rfl⟩
    | afterColon key reversed =>
      have hmember : (Node.ofMember key n reversed).cell = .other := rfl
      have hspaced := OpenMember.spaced_ofMember h.2 hn hcell key
      exact ⟨⟨h.1.push hspaced hmember, fun _ => hfirm hmember⟩, hroomy rfl hmember⟩

/-- Blanks may follow where none were read just now. -/
theorem Spaced.keep (h : f.Spaced) (hroomy : f.Roomy blank) (hns : Node.trivia? t = some ns)
    (hblank : blank = true → t.type ≠ .whitespace) :
    (f.keep ns).Spaced ∧ (f.keep ns).Roomy (t.type == .whitespace) := by
  cases f with
  | sexpr o a items | clob o a items =>
    obtain ⟨hrow, hroom⟩ := OpenRow.keep_room h hns hblank (hroomy _ rfl)
    exact ⟨hrow, fun _ heq => Option.some.inj heq ▸ hroom⟩
  | list o a items ready =>
    obtain ⟨hrow, hroom⟩ := OpenRow.keep_room h.1 hns hblank (hroomy _ rfl)
    exact ⟨⟨hrow, fun hready => Node.isFirm_keep (h.2 hready) ns⟩, fun _ heq => Option.some.inj heq ▸ hroom⟩
  | struct o a items phase =>
    cases phase with
    | between ready =>
      obtain ⟨hrow, hroom⟩ := OpenRow.keep_room h.1 hns hblank (hroomy _ rfl)
      exact ⟨⟨hrow, fun hready => Node.isFirm_keep (h.2 hready) ns⟩, fun _ heq => Option.some.inj heq ▸ hroom⟩
    | afterKey key reversed => exact ⟨⟨h.1, OpenMember.keep h.2 hns⟩, roomy_of_member rfl⟩
    | afterColon key reversed => exact ⟨⟨h.1, OpenMember.keep h.2 hns⟩, roomy_of_member rfl⟩

/-- A comma makes room for one more newline run. -/
theorem Spaced.comma (h : f.Spaced) (hroomy : f.Roomy blank) (hg : f.afterComma? = some g) :
    g.Spaced ∧ g.Roomy false := by
  have hroom : ∀ {items : List Node}, Node.isFirm items = true →
      Node.spareOf items ≤ Node.room false items + blank.toNat →
      Node.spareOf items ≤ Node.room true items + false.toNat := by
    intro items hfirm hspare
    rw [Node.room, Bool.true_and, if_pos hfirm]
    exact hspare.trans (Nat.add_le_add_left (Bool.toNat_le blank) 0)
  unfold afterComma? at hg
  split at hg
  · cases hg
    exact ⟨⟨h.1, nofun⟩, fun _ heq => Option.some.inj heq ▸ hroom (h.2 rfl) (hroomy _ rfl)⟩
  · cases hg
    exact ⟨⟨h.1, nofun⟩, fun _ heq => Option.some.inj heq ▸ hroom (h.2 rfl) (hroomy _ rfl)⟩
  · contradiction

/-- The node of a form that is closed. -/
theorem Spaced.form (h : f.Spaced) (hroomy : f.Roomy blank) (closing : Token)
    (hclosing : f.closing? = some closing.type) :
    (Node.ofForm f.kind f.annotations f.opening closing f.items).Spaced ∧
      (Node.ofForm f.kind f.annotations f.opening closing f.items).cell = .other := by
  have hrow := h.openRow
  have hroom : ∃ room, f.room? = some room ∧ room ≤ 1 := by
    cases f with
    | sexpr | list | clob => exact ⟨_, rfl, Node.room_le_one _ _⟩
    | struct o a items phase =>
      cases phase with
      | between ready => exact ⟨_, rfl, Node.room_le_one _ _⟩
      | afterKey | afterColon => contradiction
  have hspare : Node.spareOf f.items ≤ 2 := by
    obtain ⟨room, hroom, hle⟩ := hroom
    have := hroomy room hroom
    have := Bool.toNat_le blank
    omega
  have hkind : f.kind ≠ .structMember ∧ f.kind ≠ .newlines ∧ f.kind ≠ .commentLine := by
    cases f <;> simp [kind]
  constructor
  · apply Node.Spaced.annotated
    refine Node.forall_below ⟨fun _ => hrow.edged hspare, fun heq => absurd heq hkind.1⟩ fun m hm => ?_
    exact hrow.below m (List.mem_reverse.mp hm)
  · rw [Node.ofForm, Node.cell_annotated]
    exact Node.cell_of_kind hkind.2.1 hkind.2.2

end Frame

/-! ## Readings -/

namespace Reading

/-- What is read holds newline runs only where a parser leaves them; `blank` tells whether blanks
were read just now. -/
structure Spaced (blank : Bool) (r : Reading) : Prop where
  done : ∀ n ∈ r.done, n.Spaced
  frames : ∀ f ∈ r.frames, f.Spaced
  head : ∀ f, r.frames.head? = some f → f.Roomy (blank || r.pending.isSome)

variable {r r' : Reading} {t : Token} {n : Node} {fs : List Frame} {blank : Bool}

theorem Spaced.inner {f : Frame} (h : r.Spaced blank) (hr : r.frames = f :: fs) :
    f.Spaced ∧ (∀ g ∈ fs, g.Spaced) ∧ f.Roomy (blank || r.pending.isSome) := by
  have hframes := h.frames
  rw [hr] at hframes
  exact ⟨hframes f List.mem_cons_self, fun g hg => hframes g (List.mem_cons_of_mem _ hg), h.head f (by rw [hr]; rfl)⟩

/-- After a value there is room for the blanks to come. -/
theorem spaced_deliver (hdone : ∀ n ∈ r.done, n.Spaced) (hframes : ∀ f ∈ r.frames, f.Spaced) (hn : n.Spaced)
    (hcell : n.cell = .other) : (r.deliver n).Spaced false := by
  unfold Reading.deliver
  cases hfs : r.frames with
  | nil => exact ⟨List.forall_mem_cons.mpr ⟨hn, hdone⟩, by simp, by simp⟩
  | cons f fs =>
    rw [hfs] at hframes
    obtain ⟨hf, hfs⟩ := List.forall_mem_cons.mp hframes
    obtain ⟨hspaced, hroomy⟩ := hf.push hn hcell
    refine ⟨hdone, List.forall_mem_cons.mpr ⟨hspaced, hfs⟩, fun g hg => ?_⟩
    cases hg
    exact hroomy

theorem spaced_opened {f : Frame} {annotations : List Text} (h : Frame.opened? t annotations = some f) :
    f.Spaced ∧ f.Roomy false := by
  unfold Frame.opened? at h
  split at h <;> cases h
  all_goals
    refine ⟨?_, fun room hroom => Nat.zero_le _⟩
    first
    | exact Node.OpenRow.nil
    | exact ⟨Node.OpenRow.nil, nofun⟩

/-- A token keeps newline runs where they may be, if it is not the second white space token in a row. -/
theorem Step.spaced (h : r.Step t r') (hr : r.Spaced blank) (hblank : blank = true → t.type ≠ .whitespace) :
    r'.Spaced (t.type == .whitespace) := by
  have hvalue : t.type ∈ TokenType.values → (t.type == .whitespace) = false := by
    intro ht
    rw [beq_eq_false_iff_ne]
    intro heq
    rw [heq] at ht
    exact absurd ht (by decide)
  cases h with
  | annotate hplace ht =>
    refine ⟨hr.done, hr.frames, fun f hf => ?_⟩
    rw [Option.isSome_some, Bool.or_true]
    exact (hr.head f hf).after_blank
  | blank hp ht =>
    refine ⟨hr.done, hr.frames, fun f hf => ?_⟩
    rw [Option.isSome_some, Bool.or_true]
    exact (hr.head f hf).after_blank
  | scalar hplace hn =>
    obtain ⟨hspaced, hcell⟩ := Node.spaced_scalar hn
    rw [hvalue (mem_values_of_scalar? hn)]
    exact spaced_deliver hr.done hr.frames (hspaced.annotated _) (by rw [Node.cell_annotated, hcell])
  | opening hplace hf =>
    obtain ⟨hspaced, hroomy⟩ := spaced_opened hf
    rw [hvalue (mem_values_of_opened? hf)]
    refine ⟨hr.done, List.forall_mem_cons.mpr ⟨hspaced, hr.frames⟩, fun g hg => ?_⟩
    cases hg
    exact hroomy
  | @trivia ns hp hc hn =>
    unfold keep
    cases hfs : r.frames with
    | nil =>
      refine ⟨fun m hm => ?_, by simp, by simp⟩
      rcases List.mem_append.mp hm with hm | hm
      · exact (Node.cells_trivia hn).1 m (List.mem_reverse.mp hm)
      · exact hr.done m hm
    | cons f fs =>
      obtain ⟨hspaced, hfs, hroomy⟩ := hr.inner hfs
      rw [hp, Option.isSome_none, Bool.or_false] at hroomy
      obtain ⟨hkept, hroom⟩ := hspaced.keep hroomy hn hblank
      refine ⟨hr.done, List.forall_mem_cons.mpr ⟨hkept, hfs⟩, fun g hg => ?_⟩
      cases hg
      rw [hp, Option.isSome_none, Bool.or_false]
      exact hroom
  | clobString hp hfs ht hn =>
    obtain ⟨hspaced, hcell⟩ := Node.spaced_scalar hn
    rw [hvalue (mem_values_of_scalar? hn)]
    exact spaced_deliver hr.done hr.frames hspaced hcell
  | closing hp hfs ht =>
    obtain ⟨hspaced, hfs, hroomy⟩ := hr.inner hfs
    obtain ⟨hform, hcell⟩ := hspaced.form hroomy t ht
    have hno : (t.type == .whitespace) = false := by
      rcases Frame.closing?_cases ht with h | h | h | h <;> rw [h] <;> rfl
    rw [hno]
    exact spaced_deliver hr.done hfs hform hcell
  | comma hp hfs hg ht =>
    obtain ⟨hspaced, hfs, hroomy⟩ := hr.inner hfs
    obtain ⟨hcomma, hroom⟩ := hspaced.comma hroomy hg
    refine ⟨hr.done, List.forall_mem_cons.mpr ⟨hcomma, hfs⟩, fun g hg => ?_⟩
    cases hg
    rw [hp, ht]
    exact hroom
  | key hp hfs ht =>
    obtain ⟨hspaced, hfs, -⟩ := hr.inner hfs
    have hkey : (Node.leaf .structKey t t.text).Spaced := Node.spaced_leaf rfl (by simp [Node.leaf])
    refine ⟨hr.done, List.forall_mem_cons.mpr ⟨⟨hspaced.1, by simpa using hkey, [], rfl, rfl⟩, hfs⟩, fun g hg => ?_⟩
    cases hg
    exact Frame.roomy_of_member rfl
  | colon hp hfs ht =>
    obtain ⟨hspaced, hfs, -⟩ := hr.inner hfs
    refine ⟨hr.done, List.forall_mem_cons.mpr ⟨hspaced, hfs⟩, fun g hg => ?_⟩
    cases hg
    exact Frame.roomy_of_member rfl

/-- All that is remembered of the tokens before is whether the last one was white space. -/
theorem Steps.spaced {ts : List Token} (h : r.Steps ts r') (hr : r.Spaced blank) (hts : Token.Spaced ts)
    (hblank : blank = true → ∀ t, ts.head? = some t → t.type ≠ .whitespace) : ∃ blank, r'.Spaced blank := by
  induction h generalizing blank with
  | nil => exact ⟨blank, hr⟩
  | @cons r r' r'' t ts h _ ih =>
    obtain ⟨hnext, hts⟩ := List.isChain_cons.mp hts
    refine ih (h.spaced hr fun hb => hblank hb t rfl) hts fun hb u hu hspace => ?_
    exact hnext u hu ⟨by simpa using hb, hspace⟩

end Reading

variable {file source : Text} {nodes : List Node}

/-- In a parsed tree newline runs stand only where a parser leaves them. -/
theorem spaced_of_parse (h : parse file source = .ok nodes) : ∀ n ∈ nodes, n.Spaced := by
  obtain ⟨ts, r, rfl, -, -, hsteps, -, rfl⟩ := steps_of_parse h
  have hstart : Reading.Spaced false {} := ⟨by simp, by simp, by simp⟩
  obtain ⟨blank, hr⟩ := hsteps.spaced hstart (TokenStream.ofSource_spaced file source) nofun
  exact fun n hn => hr.done n (List.mem_reverse.mp hn)

/-! ## Layout trees -/

namespace Node

/-- The forms in a node are edged. -/
def EdgedBelow (n : Node) : Prop := ∀ m, n.Below m → m.isCompound = true → Edged m.items

variable {n l : Node} {ns ls : List Node}

theorem edgedBelow_leaf (hitems : n.items = []) : n.EdgedBelow := by
  refine forall_below (fun _ => ?_) (by simp [hitems])
  rw [hitems]
  exact edged_nil

theorem Spaced.items (h : n.Spaced) : ∀ m ∈ n.items, m.Spaced := fun _ hm k hk => h k (.item hm hk)

/-- A node and its layout, which has its newline runs where the node has them. -/
def EdgedAs (n l : Node) : Prop := n.Spaced → l.cell = n.cell ∧ l.EdgedBelow

theorem edgedAs_of_part (h : LaidPart EdgedAs n l) : EdgedAs n l := by
  cases h with
  | key hk =>
    intro _
    rw [cell_of_kind (n := n) (by rw [hk]; decide) (by rw [hk]; decide)]
    exact ⟨rfl, edgedBelow_leaf rfl⟩
  | other _ h => exact h

theorem edged_row (h : List.Forall₂ EdgedAs ns ls) (hns : ∀ n ∈ ns, n.Spaced) :
    cells ls = cells ns ∧ ∀ l ∈ ls, l.EdgedBelow := by
  induction h with
  | nil => exact ⟨rfl, by simp⟩
  | cons h _ ih =>
    obtain ⟨hn, hns⟩ := List.forall_mem_cons.mp hns
    obtain ⟨hcell, hedged⟩ := h hn
    obtain ⟨hcells, hothers⟩ := ih hns
    exact ⟨List.cons_eq_cons.mpr ⟨hcell, hcells⟩, List.forall_mem_cons.mpr ⟨hedged, hothers⟩⟩

/-- A member gives way to its key and its value, with the newline runs that stood in it. -/
theorem edged_items (h : LaidItems EdgedAs ns ls) (hns : ∀ n ∈ ns, n.Spaced) :
    Cell.Alike (cells ls) (cells ns) ∧ ∀ l ∈ ls, l.EdgedBelow := by
  induction h with
  | nil => exact ⟨.refl _, by simp⟩
  | @trivia n ns ls _ _ ih =>
    obtain ⟨halike, hothers⟩ := ih (List.forall_mem_cons.mp hns).2
    have hone : Cell.Alike [cell ⟨n.label, []⟩] [n.cell] := by
      rw [cell_of_label (m := ⟨n.label, []⟩) rfl]
      exact .refl _
    exact ⟨hone.cons halike, List.forall_mem_cons.mpr ⟨edgedBelow_leaf rfl, hothers⟩⟩
  | @member n ns first ls hk hfirst _ ih =>
    obtain ⟨hn, hns⟩ := List.forall_mem_cons.mp hns
    obtain ⟨halike, hothers⟩ := ih hns
    obtain ⟨hcells, hedged⟩ := edged_row (hfirst.imp fun _ _ => edgedAs_of_part) hn.items
    have hone : Cell.Alike (cells first) [n.cell] := by
      rw [hcells, cell_of_kind (by rw [hk]; decide) (by rw [hk]; decide)]
      exact (hn _ (.refl _)).2 hk
    refine ⟨?_, List.forall_mem_append.mpr ⟨hedged, hothers⟩⟩
    rw [cells, List.map_append]
    exact hone.cons halike

/-- The layout of a tree has its newline runs where the tree has them. -/
theorem edged_layout (h : n.layout = .ok l) : EdgedAs n l := by
  refine layout_induction (fun n l h hn => ?_) h
  have hrow : ∀ {label : Label} {items ls : List Node}, Spaced ⟨label, items⟩ →
      Cell.Alike (cells ls) (cells items) ∧ (∀ l ∈ ls, l.EdgedBelow) → EdgedBelow ⟨label, ls⟩ :=
    fun hn hls => forall_below (fun hk => ((hn _ (.refl _)).1 hk).of_alike hls.1) hls.2
  cases h with
  | leaf => exact ⟨cell_of_label rfl, edgedBelow_leaf rfl⟩
  | form _ h | clob _ h =>
    obtain ⟨hcells, hedged⟩ := edged_row h hn.items
    exact ⟨cell_of_label rfl, hrow hn ⟨hcells ▸ .refl _, hedged⟩⟩
  | struct _ h => exact ⟨cell_of_label rfl, hrow hn (edged_items h hn.items)⟩

theorem edged_layoutAll (ns : List Node) (h : layoutAll ns = .ok ls) (hns : ∀ n ∈ ns, n.Spaced) :
    cells ls = cells ns ∧ ∀ l ∈ ls, l.EdgedBelow :=
  edged_row ((layoutAll_eq_ok.mp h).imp fun _ _ => edged_layout) hns

end Node

/-- The layout of a program is tidied by one pass, but for the top-level forms that end in two
newline runs: these it leaves one, which a second pass takes. A third pass changes nothing. -/
theorem tidied_once (h : parse file source = .ok nodes) : ∃ tree, Node.layoutAll nodes = .ok tree ∧
    ((tree.map Node.tidy).map Node.tidy = tree.map Node.tidy ↔
      ∀ n ∈ tree, n.isCompound = true → Cell.spare (Node.cells n.items) ≤ 1) ∧
    ∀ n ∈ tree, n.tidy.tidy.tidy = n.tidy.tidy := by
  obtain ⟨tree, htree, -⟩ := Node.layoutAll_placed (shaped_of_parse h)
  have hedged := (Node.edged_layoutAll nodes htree (spaced_of_parse h)).2
  refine ⟨tree, htree, ?_, fun n hn => Node.tidy_tidy_tidy (hedged n hn)⟩
  rw [List.map_map, List.map_inj_left]
  exact forall_congr' fun n => forall_congr' fun hn => Node.tidy_tidy_iff (hedged n hn)

theorem tidied_once_line : ∃ nodes tree, parse [] (utf8 "[\n1 // c\n,\n]") = .ok nodes ∧
    Node.layoutAll nodes = .ok tree ∧ tree.map (fun n => Cell.spare (Node.cells n.items)) = [1] ∧
    (tree.map Node.tidy).map Node.tidy = tree.map Node.tidy := by
  cases hnodes : parse [] (utf8 "[\n1 // c\n,\n]") with
  | error e =>
    have hok : (parse [] (utf8 "[\n1 // c\n,\n]")).isOk = true := by decide +kernel
    rw [hnodes] at hok
    contradiction
  | ok nodes =>
    obtain ⟨tree, htree, hiff, -⟩ := tidied_once hnodes
    have hspare : (parse [] (utf8 "[\n1 // c\n,\n]")).toOption.map (fun nodes => (Node.layoutAll nodes).toOption.map
        fun tree => tree.map fun n => Cell.spare (Node.cells n.items)) = some (some [1]) := by decide +kernel
    rw [hnodes] at hspare
    simp only [Except.toOption, Option.map_some, htree, Option.some.injEq] at hspare
    refine ⟨nodes, tree, rfl, htree, hspare, hiff.mpr fun n hn _ => ?_⟩
    have := List.mem_map_of_mem (f := fun n => Cell.spare (Node.cells n.items)) hn
    rw [hspare, List.mem_singleton] at this
    exact Nat.le_of_eq this

/-- A form that ends in a comma on a line of its own: one newline run stands before the comma, and
one after it. -/
theorem not_tidied_once : ∃ nodes tree, parse [] (utf8 "[1\n,\n]") = .ok nodes ∧
    Node.layoutAll nodes = .ok tree ∧ (tree.map Node.tidy).map Node.tidy ≠ tree.map Node.tidy := by
  have hcounts : (parse [] (utf8 "[1\n,\n]")).toOption.map (fun nodes => (Node.layoutAll nodes).toOption.map
      fun tree => ((tree.map Node.tidy).map fun n => n.items.length,
        ((tree.map Node.tidy).map Node.tidy).map fun n => n.items.length)) = some (some ([2], [1])) := by
    decide +kernel
  cases hnodes : parse [] (utf8 "[1\n,\n]") with
  | error e =>
    rw [hnodes] at hcounts
    contradiction
  | ok nodes =>
    rw [hnodes, Except.toOption, Option.map_some, Option.some.injEq] at hcounts
    cases htree : Node.layoutAll nodes with
    | error e =>
      rw [htree] at hcounts
      contradiction
    | ok tree =>
      rw [htree, Except.toOption, Option.map_some, Option.some.injEq, Prod.mk.injEq] at hcounts
      refine ⟨nodes, tree, rfl, htree, fun hsame => ?_⟩
      rw [hsame, hcounts.1] at hcounts
      exact absurd hcounts.2 (by decide)

end FusionKit
