import FusionKit.Proofs.Nesting
import FusionKit.Proofs.Rebreaking
import FusionKit.Proofs.Spacing

/-!
# Line comments in rows

A line comment is read together with its line break, and no pass takes the two apart: laying out
keeps rows as they are, trimming spares the newline run behind a line comment, and the newlines that
tidying adds stand in front of forms.
-/
set_option autoImplicit false

namespace FusionKit

theorem LineText.not_mem {v : Text} (h : LineText v) : byte '\n' ∉ v ∧ byte '\r' ∉ v := by
  obtain ⟨b, rfl, hb, -⟩ := h
  have hnot : ∀ c : Char, c.toNat < 128 → c ≠ '/' → (∀ d ∈ b, d ≠ c) →
      byte c ∉ Text.ofChars (['/', '/'] ++ b) := by
    intro c hc hslash hbody hmem
    rw [Text.byte_mem_ofChars hc] at hmem
    simp only [List.cons_append, List.nil_append, List.mem_cons, hslash, false_or] at hmem
    exact hbody c hmem rfl
  exact ⟨hnot '\n' (by decide) (by decide) fun d hd => (hb d hd).1,
    hnot '\r' (by decide) (by decide) fun d hd => (hb d hd).2⟩

namespace Node

open Cell (ended)

/-- A row in which each line comment is on one line and a newline run comes right behind it. -/
def EndsComments (ns : List Node) : Prop :=
  ∀ before n after, ns = before ++ n :: after → n.isCommentLine = true →
    (byte '\n' ∉ n.value ∧ byte '\r' ∉ n.value) ∧
      ∃ m rest, after = m :: rest ∧ m.isNewlines = true ∧ 1 ≤ m.label.count

/-- The line comments of a tree have their line breaks: those at the top, and those among the items of
every form. -/
def CommentsEnded (ns : List Node) : Prop :=
  EndsComments ns ∧ ∀ n ∈ ns, ∀ m, n.Below m → m.isCompound = true → EndsComments m.items

/-- The line comments in a node have texts that a scanner reads as line comments. -/
def Lined (n : Node) : Prop := ∀ m, n.Below m → m.isCommentLine = true → LineText m.value

/-- Only forms and clobs have items, and those of a clob are strings and newline runs. -/
def Formed (n : Node) : Prop := ∀ m, n.Below m → m.items ≠ [] →
  m.isCompound = true ∨ m.kind = .clob ∧ ∀ k ∈ m.items, k.fitsClob = true

/-- A tree with line comments in forms only, where they are whole and have their line breaks. -/
structure Commented (ns : List Node) : Prop where
  ended : CommentsEnded ns
  lined : ∀ n ∈ ns, n.Lined
  formed : ∀ n ∈ ns, n.Formed

/-- The forms in a node have the line breaks of their line comments. -/
def EndedBelow (n : Node) : Prop := ∀ m, n.Below m → m.isCompound = true → ended false (cells m.items) = true

variable {n m : Node} {ns ms : List Node} {t : Token} {owed : Bool}

theorem not_isCommentLine_of_cell (h : n.cell = .other) : n.isCommentLine = false := by
  cases hn : n.isCommentLine with
  | false => rfl
  | true =>
    rw [cell_of_isCommentLine hn] at h
    contradiction

theorem lined_of_items (hn : n.isCommentLine = false) (hitems : ∀ m ∈ n.items, m.Lined) : n.Lined :=
  forall_below (fun h => absurd (hn.symm.trans h) (by decide)) hitems

theorem formed_of_items
    (hn : n.items ≠ [] → n.isCompound = true ∨ n.kind = .clob ∧ ∀ m ∈ n.items, m.fitsClob = true)
    (hitems : ∀ m ∈ n.items, m.Formed) : n.Formed := forall_below hn hitems

theorem Lined.items (h : n.Lined) : ∀ m ∈ n.items, m.Lined := fun _ hm k hk => h k (.item hm hk)

theorem Lined.of_below (h : n.Lined) (hm : n.Below m) : m.Lined := by
  induction hm with
  | refl => exact h
  | item hm _ ih => exact ih (h.items _ hm)

theorem Lined.annotated (h : n.Lined) (annotations : List Text) : (n.annotated annotations).Lined := by
  unfold Node.annotated
  split
  · exact h
  · exact forall_below (h n (.refl n)) h.items

/-- In a row of cells in which nothing is owed at the end, a line comment is followed by its line
break. -/
theorem ended_after_comment (hn : n.isCommentLine = true) (h : ended owed (cells (ms ++ n :: ns)) = true) :
    ∃ m rest, ns = m :: rest ∧ m.isNewlines = true ∧ m.label.count = 1 := by
  induction ms generalizing owed with
  | nil =>
    rw [List.nil_append, cells, List.map_cons, cell_of_isCommentLine hn, ended, Bool.and_eq_true] at h
    cases ns with
    | nil => exact absurd h.2 (by decide)
    | cons m rest =>
      have howed := h.2
      unfold cell at howed
      rw [List.map_cons] at howed
      split at howed
      · rename_i hm
        simp only [ended, Bool.and_eq_true, Bool.not_true, Bool.false_or, beq_iff_eq] at howed
        exact ⟨m, rest, rfl, hm, howed.1⟩
      · split at howed <;> simp [ended] at howed
  | cons k ms ih =>
    rw [List.cons_append, cells, List.map_cons] at h
    cases hcell : k.cell <;> rw [hcell, ended, Bool.and_eq_true] at h <;> exact ih h.2

theorem endsComments_of_ended (h : ended false (cells ns) = true) (hlined : ∀ n ∈ ns, n.Lined) :
    EndsComments ns := by
  rintro before n after rfl hn
  obtain ⟨m, rest, hafter, hm, hcount⟩ := ended_after_comment hn h
  have hn := hlined n (by simp) n (.refl n) hn
  exact ⟨hn.not_mem, m, rest, hafter, hm, by omega⟩

theorem commented_of_ended (h : ended false (cells ns) = true) (hbelow : ∀ n ∈ ns, n.EndedBelow)
    (hlined : ∀ n ∈ ns, n.Lined) (hformed : ∀ n ∈ ns, n.Formed) : Commented ns := by
  refine ⟨⟨endsComments_of_ended h hlined, fun n hn m hm hcompound => ?_⟩, hlined, hformed⟩
  apply endsComments_of_ended (hbelow n hn m hm hcompound)
  exact ((hlined n hn).of_below hm).items

/-! ## Reading -/

/-- A comment is read with its line break, and the text of a line comment is its own. -/
theorem lined_trivia (h : trivia? t = some ns)
    (ht : t.type = .lineComment → LineText (Text.dropEndWhile Text.isSpace t.text)) : ∀ n ∈ ns, n.Lined := by
  have hrun : ∀ (span : Span) (count : Int), Lined ⟨{ kind := .newlines, span, count }, []⟩ :=
    fun _ _ => lined_of_items rfl (by simp)
  unfold trivia? at h
  split at h
  · cases h
    unfold newlines?
    split
    · simp
    · simpa using hrun _ _
  · rename_i htype
    cases h
    refine List.forall_mem_cons.mpr ⟨forall_below (fun _ => ht htype) (by simp [leaf]), ?_⟩
    simpa using hrun _ _
  · cases h
    simpa using lined_of_items rfl (by simp)
  · contradiction

end Node

namespace Frame

variable {f : Frame} {n : Node}

theorem lined_push (h : ∀ m ∈ f.held, m.Lined) (hn : n.Lined) : ∀ m ∈ (f.push n).held, m.Lined := by
  intro m hm
  rcases mem_held_push hm with rfl | hm | ⟨-, key, reversed, rfl, hreversed⟩
  · exact hn
  · exact h m hm
  · refine Node.lined_of_items rfl fun k hk => ?_
    rcases List.mem_cons.mp (List.mem_reverse.mp hk) with rfl | hk
    · exact hn
    · exact h k (hreversed k hk)

theorem lined_form (h : ∀ m ∈ f.held, m.Lined) (closing : Token) :
    (Node.ofForm f.kind f.annotations f.opening closing f.items).Lined ∧
      (Node.ofForm f.kind f.annotations f.opening closing f.items).cell = .other := by
  have hcell : (⟨{ kind := f.kind, span := f.opening.span.join closing.span }, f.items.reverse⟩ : Node).cell =
      .other := by
    cases f <;> rfl
  constructor
  · apply Node.Lined.annotated
    refine Node.lined_of_items (Node.not_isCommentLine_of_cell hcell) fun m hm => ?_
    exact h m (mem_held_of_items (List.mem_reverse.mp hm))
  · rw [Node.ofForm, Node.cell_annotated]
    exact hcell

end Frame

namespace Reading

/-- What is read has its line comments whole, and at the top their line breaks. -/
structure Lined (r : Reading) : Prop where
  done : ∀ n ∈ r.done, n.Lined
  ended : Cell.ended false (Node.cells r.done.reverse) = true
  frames : ∀ f ∈ r.frames, ∀ n ∈ f.held, n.Lined

variable {r r' : Reading} {t : Token} {n : Node} {fs : List Frame}

theorem Lined.deliver (h : r.Lined) (hn : n.Lined) (hcell : n.cell = .other) : (r.deliver n).Lined := by
  have hframes := h.frames
  unfold Reading.deliver
  cases hfs : r.frames with
  | nil =>
    refine ⟨List.forall_mem_cons.mpr ⟨hn, h.done⟩, ?_, by simp⟩
    rw [List.reverse_cons, Node.cells_concat, hcell, Cell.ended_append h.ended]
    rfl
  | cons f fs =>
    rw [hfs] at hframes
    obtain ⟨hf, hrest⟩ := List.forall_mem_cons.mp hframes
    exact ⟨h.done, h.ended, List.forall_mem_cons.mpr ⟨f.lined_push hf hn, hrest⟩⟩

theorem Lined.reframe {f g : Frame} (h : r.Lined) (hr : r.frames = f :: fs)
    (hg : (∀ n ∈ f.held, n.Lined) → ∀ n ∈ g.held, n.Lined) :
    ({ r with frames := g :: fs } : Reading).Lined := by
  have hframes := h.frames
  rw [hr] at hframes
  obtain ⟨hf, hfs⟩ := List.forall_mem_cons.mp hframes
  exact ⟨h.done, h.ended, List.forall_mem_cons.mpr ⟨hg hf, hfs⟩⟩

theorem Step.lined (h : r.Step t r') (hr : r.Lined)
    (ht : t.type = .lineComment → LineText (Text.dropEndWhile Text.isSpace t.text)) : r'.Lined := by
  have hscalar : ∀ {n : Node}, Node.scalar? t = some n → n.Lined ∧ n.cell = .other := by
    intro n hn
    have hcell := (Node.spaced_scalar hn).2
    refine ⟨Node.lined_of_items (Node.not_isCommentLine_of_cell hcell) ?_, hcell⟩
    rw [(Node.shaped_scalar hn).2]
    simp
  cases h with
  | annotate | blank => exact ⟨hr.done, hr.ended, hr.frames⟩
  | scalar hplace hn =>
    obtain ⟨hlined, hcell⟩ := hscalar hn
    exact hr.deliver (hlined.annotated _) (by rw [Node.cell_annotated, hcell])
  | opening hplace hf =>
    refine ⟨hr.done, hr.ended, List.forall_mem_cons.mpr ⟨?_, hr.frames⟩⟩
    unfold Frame.opened? at hf
    split at hf <;> cases hf <;> simp [Frame.held, Frame.member?, Frame.items]
  | @trivia ns hp hc hn =>
    have hns := Node.lined_trivia hn ht
    unfold keep
    cases hfs : r.frames with
    | nil =>
      refine ⟨fun m hm => ?_, ?_, by simp⟩
      · rcases List.mem_append.mp hm with hm | hm
        · exact hns m (List.mem_reverse.mp hm)
        · exact hr.done m hm
      · rw [Node.cells_keep, Cell.ended_append hr.ended]
        exact Node.ended_trivia hn
    | cons f fs =>
      refine hr.reframe hfs fun hf m hm => ?_
      rcases Frame.mem_held_keep hm with hm | hm
      · exact hns m hm
      · exact hf m hm
  | clobString hp hfs htype hn =>
    obtain ⟨hlined, hcell⟩ := hscalar hn
    exact hr.deliver hlined hcell
  | @closing f fs hp hfs htype =>
    have hframes := hr.frames
    rw [hfs] at hframes
    obtain ⟨hf, hrest⟩ := List.forall_mem_cons.mp hframes
    obtain ⟨hform, hcell⟩ := f.lined_form hf t
    have hrest : ({ r with frames := fs } : Reading).Lined := ⟨hr.done, hr.ended, hrest⟩
    exact hrest.deliver hform hcell
  | comma hp hfs hg htype =>
    refine hr.reframe hfs fun hf => ?_
    unfold Frame.afterComma? at hg
    split at hg <;> cases hg <;> exact hf
  | key hp hfs htype =>
    refine hr.reframe hfs fun hf => List.forall_mem_cons.mpr ⟨?_, hf⟩
    exact Node.lined_of_items rfl (by simp [Node.leaf])
  | colon hp hfs htype => exact hr.reframe hfs fun hf => hf

theorem Steps.lined {ts : List Token} (h : r.Steps ts r') (hr : r.Lined)
    (hts : ∀ t ∈ ts, t.type = .lineComment → LineText (Text.dropEndWhile Text.isSpace t.text)) : r'.Lined := by
  induction h with
  | nil => exact hr
  | cons h _ ih =>
    obtain ⟨ht, hts⟩ := List.forall_mem_cons.mp hts
    exact ih (h.lined hr ht) hts

end Reading

/-- The texts of the line comments that are scanned. -/
theorem Token.Scan.lineText {c : LexContext} {owes : Bool} {ts : List Token} (h : Token.Scan c owes ts) :
    ∀ t ∈ ts, t.type = .lineComment → LineText (Text.dropEndWhile Text.isSpace t.text) := by
  induction h with
  | done => simp
  | fault c owes herror =>
    intro t ht htype
    rw [List.mem_singleton.mp ht, herror] at htype
    contradiction
  | @token c owes t ts hspelled _ _ ih =>
    refine List.forall_mem_cons.mpr ⟨fun htype => ?_, ih⟩
    have hspelling : ∃ b w, t.text = Text.ofChars w ∧ Lexeme.Spelling b t.type w := by
      cases hc : c.inClob with
      | false => exact ⟨_, hspelled.outside hc⟩
      | true => exact ⟨_, (hspelled.inside hc).2⟩
    obtain ⟨b, w, htext, hspelling⟩ := hspelling
    rw [htype] at hspelling
    rw [htext]
    exact lineText_of_spelling hspelling

theorem lined_of_parse {file source : Text} {nodes : List Node} (h : parse file source = .ok nodes) :
    (∀ n ∈ nodes, n.Lined) ∧ Cell.ended false (Node.cells nodes) = true := by
  obtain ⟨ts, r, rfl, -, -, hsteps, -, rfl⟩ := steps_of_parse h
  have hscan := TokenStream.ofSource_scan file source
  have hr : r.Lined := hsteps.lined ⟨by simp, rfl, by simp⟩ hscan.lineText
  exact ⟨fun n hn => hr.done n (List.mem_reverse.mp hn), hr.ended⟩

namespace Node

variable {n m l : Node} {ns ms ls : List Node}

/-! ## Laying out -/

/-- A node and its layout: line comments are kept, and items are left to forms and clobs. -/
def LinedAs (n l : Node) : Prop := n.Lined → l.Lined ∧ l.Formed

theorem linedAs_of_part (h : LaidPart LinedAs n l) : LinedAs n l := by
  cases h with
  | key =>
    intro _
    exact ⟨lined_of_items rfl fun m hm => absurd hm List.not_mem_nil,
      formed_of_items (fun h => absurd rfl h) fun m hm => absurd hm List.not_mem_nil⟩
  | other _ h => exact h

theorem lined_row (h : List.Forall₂ LinedAs ns ls) (hns : ∀ n ∈ ns, n.Lined) : ∀ l ∈ ls, l.Lined ∧ l.Formed := by
  induction h with
  | nil => simp
  | cons h _ ih =>
    obtain ⟨hn, hns⟩ := List.forall_mem_cons.mp hns
    exact List.forall_mem_cons.mpr ⟨h hn, ih hns⟩

theorem lined_items (h : LaidItems LinedAs ns ls) (hns : ∀ n ∈ ns, n.Lined) : ∀ l ∈ ls, l.Lined ∧ l.Formed := by
  induction h with
  | nil => simp
  | @trivia n ns ls _ _ ih =>
    obtain ⟨hn, hns⟩ := List.forall_mem_cons.mp hns
    have hleaf : Lined ⟨n.label, []⟩ := forall_below (hn n (.refl _)) (by simp)
    exact List.forall_mem_cons.mpr ⟨⟨hleaf, formed_of_items (fun h => absurd rfl h) (by simp)⟩, ih hns⟩
  | member _ hfirst _ ih =>
    obtain ⟨hn, hns⟩ := List.forall_mem_cons.mp hns
    exact List.forall_mem_append.mpr ⟨lined_row (hfirst.imp fun _ _ => linedAs_of_part) hn.items, ih hns⟩

/-- Laying out keeps line comments, and leaves items to forms and clobs. -/
theorem lined_layout (h : n.layout = .ok l) : LinedAs n l := by
  refine layout_induction (fun n l h hn => ?_) h
  have hform : ∀ {label : Label} {items ls : List Node}, Lined ⟨label, items⟩ →
      (ls ≠ [] → label.kind.isCompound = true ∨ label.kind = .clob ∧ ∀ l ∈ ls, l.fitsClob = true) →
      (∀ l ∈ ls, l.Lined ∧ l.Formed) → Lined ⟨label, ls⟩ ∧ Formed ⟨label, ls⟩ := by
    intro label items ls hn hkind hls
    exact ⟨forall_below (hn ⟨label, items⟩ (.refl _)) fun l hl => (hls l hl).1,
      formed_of_items hkind fun l hl => (hls l hl).2⟩
  cases h with
  | leaf => exact hform hn (fun h => absurd rfl h) (by simp)
  | form hk h =>
    refine hform hn (fun _ => .inl ?_) (lined_row h hn.items)
    rcases List.mem_pair.mp hk with hk | hk <;> rw [hk] <;> rfl
  | struct hk h => exact hform hn (fun _ => .inl (by rw [hk]; rfl)) (lined_items h hn.items)
  | clob hk h hfits => exact hform hn (fun _ => .inr ⟨hk, hfits⟩) (lined_row h hn.items)

theorem lined_layoutAll (ns : List Node) (h : layoutAll ns = .ok ls) (hns : ∀ n ∈ ns, n.Lined) :
    ∀ l ∈ ls, l.Lined ∧ l.Formed :=
  lined_row ((layoutAll_eq_ok.mp h).imp fun _ _ => lined_layout) hns

/-! ## Tidying -/

/-- What holds of the nodes of a tree, of forms and of newlines holds of the nodes of what it becomes. -/
theorem Rebroken.forall_below {P : Node → Prop} (hform : ∀ k : Node, k.isCompound = true → P k)
    (hrun : ∀ k : Node, k.isNewlines = true → k.items = [] → P k) (h : Rebroken n m)
    (hn : ∀ k, n.Below k → P k) : ∀ k, m.Below k → P k := by
  induction n using Node.induct generalizing m with
  | h n ih =>
    cases h with
    | same => exact hn
    | @form label ns ms hk hrow =>
      refine Node.forall_below (hform _ hk) ?_
      have hns : ∀ j ∈ ns, ∀ k, j.Below k → P k := fun j hj k hk => hn k (.item hj hk)
      clear hn
      dsimp only at ih ⊢
      induction hrow with
      | nil => simp
      | kept hnm _ hrest =>
        obtain ⟨hn, hns⟩ := List.forall_mem_cons.mp hns
        obtain ⟨ih, ihs⟩ := List.forall_mem_cons.mp ih
        exact List.forall_mem_cons.mpr ⟨ih hnm hn, hrest ihs hns⟩
      | dropped _ _ hrest => exact hrest (List.forall_mem_cons.mp ih).2 (List.forall_mem_cons.mp hns).2
      | inserted _ hnm _ hrest =>
        obtain ⟨hn, hns⟩ := List.forall_mem_cons.mp hns
        obtain ⟨ih, ihs⟩ := List.forall_mem_cons.mp ih
        refine List.forall_mem_cons.mpr ⟨Node.forall_below (hrun _ rfl rfl) (by simp), ?_⟩
        exact List.forall_mem_cons.mpr ⟨ih hnm hn, hrest ihs hns⟩

/-- Tidying makes no line comment. -/
theorem Rebroken.lined (h : Rebroken n m) (hn : n.Lined) : m.Lined := by
  have hnot : ∀ {k : Node}, k.isCommentLine = true → k.isCompound = false ∧ k.isNewlines = false := by
    intro k hk
    have hkind : k.kind = .commentLine := by simpa [isCommentLine] using hk
    simp [isCompound, Kind.isCompound, isNewlines, hkind]
  refine h.forall_below (fun k hk hline => ?_) (fun k hk _ hline => ?_) hn
  · exact absurd hk (by simp [hnot hline])
  · exact absurd hk (by simp [hnot hline])

theorem Rebroken.formed (h : Rebroken n m) (hn : n.Formed) : m.Formed :=
  h.forall_below (fun _ hk _ => .inl hk) (fun _ _ hnil hne => absurd hnil hne) hn

open Cell (ended)
open Guarded (trimmed cleared row)

/-- A row that may be trimmed: there is nothing in it, or something beside newline runs, and its line
comments have their line breaks. -/
def Trimmable (items : List Node) : Prop :=
  (items = [] ∨ ∃ n ∈ items, n.isNewlines = false) ∧ ended false (cells items) = true

theorem trimmable_cleared (hn : n.isCompound = true) (h : ended false (cells n.items) = true) :
    Trimmable (cleared n).items := by
  unfold cleared
  split
  · exact ⟨.inl rfl, rfl⟩
  · rename_i hall
    refine ⟨.inr ?_, h⟩
    simpa [hn] using hall

theorem Trimmable.trimmed {items : List Node} (h : Trimmable items) : Trimmable (trimmed items) := by
  obtain ⟨rfl | hfirm, hended⟩ := h
  · exact ⟨.inl rfl, rfl⟩
  · exact ⟨.inr (firm_trimmed hfirm), ended_trimmed hfirm hended⟩

/-- What a form is tidied to, once its edges are trimmed. -/
theorem endedBelow_form {label : Label} {items : List Node} (h : Trimmable items)
    (hitems : ∀ m ∈ items, m.tidyItem.EndedBelow) :
    EndedBelow ⟨label, breakRow true (row items)⟩ := by
  refine forall_below (fun _ => ended_breakRow tidyItem tidyItem_label true h.2) fun m hm => ?_
  rcases mem_breakRow hm with ⟨k, rfl⟩ | hm
  · refine forall_below (fun hk => absurd hk ?_) (by simp [breakBefore])
    simp [breakBefore, isCompound, Kind.isCompound]
  · simp only [row, List.map_map, List.mem_map, Function.comp_apply] at hm
    obtain ⟨k, hk, rfl⟩ := hm
    exact hitems k hk

theorem EndedBelow.tidyItem (h : n.EndedBelow) : n.tidyItem.EndedBelow := by
  induction n using Node.induct with
  | h n ih =>
    cases hn : n.isCompound with
    | false =>
      rw [tidyItem_of_not_isCompound hn]
      exact h
    | true =>
      rw [Guarded.tidyItem_eq hn]
      have hitems : (trimmed (trimmed (cleared n).items)).Sublist n.items :=
        (Guarded.trimmed_sublist _).trans ((Guarded.trimmed_sublist _).trans (Guarded.cleared_sublist n))
      refine endedBelow_form (trimmable_cleared hn (h n (.refl n) hn)).trimmed.trimmed fun m hm => ?_
      exact ih m (hitems.subset hm) fun k hk => h k (.item (hitems.subset hm) hk)

theorem EndedBelow.tidy (h : n.EndedBelow) : n.tidy.EndedBelow := by
  cases hn : n.isCompound with
  | false =>
    rw [tidy_of_not_isCompound hn]
    exact h
  | true =>
    rw [Guarded.tidy_eq hn]
    have hitems := (Guarded.trimmed_sublist (cleared n).items).trans (Guarded.cleared_sublist n)
    refine endedBelow_form (trimmable_cleared hn (h n (.refl n) hn)).trimmed fun m hm => ?_
    exact EndedBelow.tidyItem fun k hk => h k (.item (hitems.subset hm) hk)

end Node

open Node (Commented)

/-- In the layout of a program, tidied or not, each line comment is whole and has its line break. -/
theorem layout_commented {file source : Text} {nodes : List Node} (h : parse file source = .ok nodes) :
    ∃ tree, Node.layoutAll nodes = .ok tree ∧ Commented tree ∧ Commented (tree.map Node.tidy) := by
  obtain ⟨tree, htree, -⟩ := Node.layoutAll_placed (shaped_of_parse h)
  obtain ⟨hnodes, hended⟩ := lined_of_parse h
  obtain ⟨hcells, hedged⟩ := Node.edged_layoutAll nodes htree (spaced_of_parse h)
  have hlaid := Node.lined_layoutAll nodes htree hnodes
  have hlined : ∀ n ∈ tree, n.Lined := fun n hn => (hlaid n hn).1
  have hformed : ∀ n ∈ tree, n.Formed := fun n hn => (hlaid n hn).2
  have hbelow : ∀ n ∈ tree, n.EndedBelow := fun n hn m hm hcompound => (hedged n hn m hm hcompound).ended
  rw [← hcells] at hended
  have htidied : Node.cells (tree.map Node.tidy) = Node.cells tree := by
    rw [Node.cells, Node.cells, List.map_map]
    exact List.map_congr_left fun n _ => Node.cell_of_label n.tidy_label
  refine ⟨tree, htree, Node.commented_of_ended hended hbelow hlined hformed,
    Node.commented_of_ended (by rw [htidied, hended]) ?_ ?_ ?_⟩
  · exact List.forall_mem_map.mpr fun n hn => (hbelow n hn).tidy
  · exact List.forall_mem_map.mpr fun n hn => (Node.rebroken_tidy n).lined (hlined n hn)
  · exact List.forall_mem_map.mpr fun n hn => (Node.rebroken_tidy n).formed (hformed n hn)

end FusionKit
