import FusionKit.Proofs.Reprinting

/-!
# What is read back likens what was printed

The tree that a printed tree is read as prints the same: its labels have lost blanks at line ends,
its newline runs may be split elsewhere, and its block comments are the same where rereading them
changes nothing.
-/
set_option autoImplicit false

namespace FusionKit

open Lexeme (Spelling)

/-! ## Labels that are read back -/

theorem Page.write_append (p : Page) (t u : Text) : p.write (t ++ u) = (p.write t).write u := by
  unfold Page.write
  rw [List.reverseAux_eq, List.reverseAux_eq, List.reverseAux_eq, List.reverse_append, List.append_assoc]

theorem firm_of_annotate {w : List Char} (h : Spelling false .annotate w) : Firm w := by
  obtain ⟨name, blanks, rfl, -, -⟩ := Lexeme.spelling_annotate h
  exact firm_append (by intro c hc; cases hc; rfl) (by simp)

/-- Annotations lose blanks in front of line feeds alone. -/
theorem AnnotationTexts.alike {as : List Text} (h : AnnotationTexts as) {p q : Page} (hpq : p.Alike q) :
    (p.write as.flatten).Alike (q.write (as.map Text.settled).flatten) := by
  induction as generalizing p q with
  | nil => exact hpq.write _
  | cons a as ih =>
    obtain ⟨w, rfl, hw⟩ := h a (by simp)
    rw [List.flatten_cons, List.map_cons, List.flatten_cons, Page.write_append, Page.write_append,
      Text.settled_ofChars]
    exact ih (fun a ha => h a (by simp [ha])) (hpq.write_settled (firm_of_annotate hw))

/-- The contents of a blob are settled as well, and not emptied. -/
theorem Page.Alike.blobContents {w : List Char} {p q : Page} (hpq : p.Alike q) (h : BlobText w) (k l : Label)
    (hk : k.value = Text.ofChars w) (hl : l.value = Text.ofChars (settled w)) :
    (if k.value.isEmpty then p else (p.put " ").write k.value).Alike
      (if l.value.isEmpty then q else (q.put " ").write l.value) := by
  rw [hk, hl]
  cases w with
  | nil => exact hpq
  | cons c w =>
    have hc : isInline c = false := by simp [isInline, h.starts c rfl]
    have hsettled : settled (c :: w) = c :: settled w := by simp [settled, hc]
    have hnonempty : ∀ v : List Char, (Text.ofChars (c :: v)).isEmpty = false := by
      intro v
      rw [Text.ofChars_cons]
      simp
    rw [if_neg (by simp [hnonempty]), if_neg (by simp [hsettled, hnonempty])]
    exact (hpq.put " ").write_settled h.firm

/-- A label is written as it is read back. -/
theorem Label.likens_reread {l l' : Label} (h : { l' with span := ⟨0, 0⟩ } = l.reread)
    (ha : AnnotationTexts l.annotations)
    (hblob : l.kind = .blob → ∃ w, l.value = Text.ofChars w ∧ BlobText w) : l.Likens l' := by
  have hkind : l'.kind = l.kind := (congrArg Label.kind h :)
  have hannotations : l'.annotations = l.annotations.map Text.settled := (congrArg Label.annotations h :)
  have hvalue : l'.value = if l.kind = .blob then l.value.settled else l.value := (congrArg Label.value h :)
  have hnotes : ∀ p : Page, (p.annotations l).Alike (p.annotations l') := by
    intro p
    rw [Page.annotations, Page.annotations, hannotations]
    exact ha.alike (.refl p)
  refine ⟨hkind, (congrArg Label.count h :), (congrArg Label.lines h :), fun hk => by rw [hvalue, if_neg hk],
    hnotes, fun p => ?_⟩
  unfold Page.scalar
  rw [hkind]
  split
  · rename_i hk
    rw [hvalue, if_neg (by rw [hk]; decide)]
    exact (((hnotes p).put _).write _).put _
  · rename_i hk
    obtain ⟨w, hw, hblob⟩ := hblob hk
    rw [if_pos hk, hw, Text.settled_ofChars] at hvalue
    exact (((hnotes p).put _).blobContents hblob l l' hw hvalue).put _
  · rename_i hk
    rw [hvalue, if_neg hk]
    exact (hnotes p).write _

namespace Node

/-! ## Nodes that are read back -/

section

variable {l l' : Label} {ns ms : List Node}

/-- The place of a node makes no difference. -/
theorem likens_of_place (h : { l' with span := ⟨0, 0⟩ } = { l with span := ⟨0, 0⟩ }) :
    Likens ⟨l, []⟩ ⟨l', []⟩ := by
  obtain ⟨kind, span, annotations, value, lines, count⟩ := l
  obtain ⟨kind', span', annotations', value', lines', count'⟩ := l'
  simp only [Label.mk.injEq, true_and] at h
  obtain ⟨rfl, rfl, rfl, rfl, rfl⟩ := h
  refine ⟨⟨rfl, rfl, rfl, fun _ => rfl, fun p => .refl _, fun p => .refl _⟩, ?_, fun s indent p => ?_⟩
  · rw [breaks, breaks]
  · rw [print, print]
    exact .refl _

theorem print_scalar (hk : l.kind.isAtomic = true) (s : Settings) (indent : Int) (p : Page) :
    print s indent p ⟨l, ns⟩ = p.scalar l := by
  unfold print
  cases h : l.kind <;> simp_all [Kind.isAtomic]

theorem breaks_scalar (hk : l.kind.isAtomic = true) : breaks ⟨l, ns⟩ = 0 := by
  unfold breaks
  cases h : l.kind <;> simp_all [Kind.isAtomic]

theorem likens_scalar (hk : l.kind.isAtomic = true) (h : l.Likens l') : Likens ⟨l, ns⟩ ⟨l', ms⟩ := by
  have hk' : l'.kind.isAtomic = true := by rw [h.kind, hk]
  refine ⟨h, by rw [breaks_scalar hk, breaks_scalar hk'], fun s indent p => ?_⟩
  rw [print_scalar hk, print_scalar hk']
  exact h.scalar p

theorem likens_list (hk : l.kind = .list) (h : l.Likens l') (hs : Rejoined ns ms) :
    Likens ⟨l, ns⟩ ⟨l', ms⟩ := by
  have hk' : l'.kind = .list := by rw [h.kind, hk]
  refine ⟨h, ?_, fun s indent p => ?_⟩
  · simpa only [breaks, hk, hk'] using hs.breaksOf
  · have hnotes := h.annotations p
    simp only [print, hk, hk', hnotes.column]
    exact ((hs.alike (printList_rows s _) trivial).trans (printList_congr Page.alike_congruence s ms _ (hnotes.put "["))).put "]"

theorem likens_sexpr (hk : l.kind = .sexpr) (h : l.Likens l') (hs : Rejoined ns ms)
    (hp : ∀ n, ns.find? isContent = some n → n.isPipe = false) : Likens ⟨l, ns⟩ ⟨l', ms⟩ := by
  have hk' : l'.kind = .sexpr := by rw [h.kind, hk]
  have hfirst := hs.superficial superficial_firstContent (by rintro _ _ ⟨⟩; rfl)
  have hp' : ∀ n, ms.find? isContent = some n → n.isPipe = false := by
    intro n hn
    rw [hn, Option.map_some, eq_comm, Option.map_eq_some_iff] at hfirst
    obtain ⟨m, hm, hpipe⟩ := hfirst
    rw [← hpipe, hp m hm]
  refine ⟨h, ?_, fun s indent p => ?_⟩
  · simpa only [breaks, hk, hk'] using hs.breaksOf
  · have hnotes := h.annotations p
    simp only [print, hk, hk', hnotes.column, hs.continuationColumn hs.breaksOf,
      PrintsAs.spacing_eq (PipeFree.head hp), PrintsAs.spacing_eq (PipeFree.head hp')]
    exact ((hs.alike (printSExpr_rows s _) trivial).trans
      (printSExpr_congr Page.alike_congruence s ms _ _ (hnotes.put "("))).put ")"

theorem likens_struct (hk : l.kind = .struct) (h : l.Likens l') (hs : Rejoined ns ms) :
    Likens ⟨l, ns⟩ ⟨l', ms⟩ := by
  have hk' : l'.kind = .struct := by rw [h.kind, hk]
  refine ⟨h, ?_, fun s indent p => ?_⟩
  · simpa only [breaks, hk, hk'] using hs.breaksOf
  · have hnotes := h.annotations p
    simp only [print, hk, hk', hnotes.column]
    have hitems := (hs.alike (printStruct_rows s (p.annotations l').column) trivial).trans
      (printStruct_congr Page.alike_congruence s ms _ (hnotes.put "\x7b"))
    rw [hitems.endsWithOneOf]
    exact (hitems.spaceIf _).put _

theorem likens_clob (hk : l.kind = .clob) (h : l.Likens l') (hs : Rejoined ns ms) :
    Likens ⟨l, ns⟩ ⟨l', ms⟩ := by
  have hk' : l'.kind = .clob := by rw [h.kind, hk]
  refine ⟨h, ?_, fun s indent p => ?_⟩
  · simpa only [breaks, hk, hk'] using hs.clobBreaks
  · have hopened := (h.annotations p).put "\x7b\x7b"
    have hbraces := Page.HasBraces.annotated p l
    simp only [print, hk, hk', Page.clob, hs.contentBeforeBreak, hopened.column]
    generalize (if contentBeforeBreak ns = 0 then indent + 1
      else (((p.annotations l').put "\x7b\x7b").column : Int) + 1) = inner
    have hitems := (hs.alike (clobItems_rows inner) hbraces).trans
      (Page.alike_congruence.clobItems hopened hbraces (Page.HasBraces.annotated p l') inner ms)
    rw [Page.alike_congruence.endsWithGap hitems (hbraces.clobItems inner ns)
      ((Page.HasBraces.annotated p l').clobItems inner ms)]
    exact (hitems.spaceIf _).put _

end

/-! ## Rows that are read back -/

mutual

/-- Whether the block comments of a tree are read back as they are. -/
def keepsBlocks : Node → Bool
  | ⟨label, items⟩ => (label.kind != .commentBlock || relined label.lines == label.lines) && keepBlocks items

/-- Whether the block comments of some trees are read back as they are. -/
def keepBlocks : List Node → Bool
  | [] => true
  | n :: ns => keepsBlocks n && keepBlocks ns

end

theorem unplacedAll_eq_map (ns : List Node) : unplacedAll ns = ns.map unplaced := by
  induction ns with
  | nil => rfl
  | cons n ns ih => rw [unplacedAll, ih, List.map_cons]

/-- Signs that are read by themselves are read before all others. -/
theorem rereadFrom_append {pre : List Sign} {read : List Node}
    (h : ∀ post, trivia (pre ++ post) = read ++ trivia post) (post : List Sign) (ns : List Node) :
    rereadFrom (pre ++ post) ns = read ++ rereadFrom post ns := by
  induction ns generalizing post with
  | nil => exact h post
  | cons n ns ih =>
    cases hn : n.isContent with
    | true => rw [rereadFrom_content hn, rereadFrom_content hn, h, List.append_assoc]
    | false => rw [rereadFrom_skip hn, rereadFrom_skip hn, List.append_assoc, ih]

/-- The items that are read after `k` line breaks. -/
abbrev rereadAfter (k : Nat) (ns : List Node) : List Node := rereadFrom (List.replicate k .brk) ns

section

variable (k : Nat) (ns : List Node)

theorem rereadAfter_nil : rereadAfter k [] = flush k := by
  rw [rereadAfter, rereadFrom, trivia, ← List.append_nil (List.replicate k Sign.brk), triviaFrom_replicate,
    Nat.zero_add, triviaFrom]

theorem rereadAfter_newlines (j : Nat) (span : Span) :
    rereadAfter k (newlineRun j span :: ns) = rereadAfter (k + j) ns := by
  rw [rereadAfter, rereadFrom_skip rfl, signs_newlineRun, List.replicate_append_replicate]

theorem rereadAfter_line (v : Text) (j : Nat) (span span' : Span) :
    rereadAfter k (lineComment v span :: newlineRun (j + 1) span' :: ns) =
      flush k ++ lineComment v :: newlineRun 1 :: rereadAfter j ns := by
  have hread : ∀ post, trivia ((List.replicate k .brk ++ [.line v, .brk]) ++ post) =
      (flush k ++ [lineComment v, newlineRun 1]) ++ trivia post := by
    intro post
    rw [List.append_assoc, trivia, triviaFrom_replicate, Nat.zero_add, List.append_assoc]
    rfl
  rw [rereadAfter, rereadFrom_skip rfl, rereadFrom_skip rfl, signs_lineComment, signs_newlineRun,
    List.replicate_succ]
  have := rereadFrom_append hread (List.replicate j .brk) ns
  simpa only [List.append_assoc, List.cons_append, List.nil_append] using this

theorem rereadAfter_block (ls : List Text) (span : Span) :
    rereadAfter k (blockComment ls span :: ns) = flush k ++ blockComment (relined ls) :: rereadAfter 0 ns := by
  have hread : ∀ post, trivia ((List.replicate k .brk ++ [.block (relined ls)]) ++ post) =
      (flush k ++ [blockComment (relined ls)]) ++ trivia post := by
    intro post
    rw [List.append_assoc, trivia, triviaFrom_replicate, Nat.zero_add, List.append_assoc]
    rfl
  rw [rereadAfter, rereadFrom_skip rfl, signs_blockComment]
  have := rereadFrom_append hread [] ns
  rwa [List.append_nil, List.append_assoc] at this

theorem rereadAfter_content {n : Node} (hn : n.isContent = true) :
    rereadAfter k (n :: ns) = flush k ++ reread n :: rereadAfter 0 ns := by
  rw [rereadAfter, rereadFrom_content hn, ← rereadAfter_nil, rereadAfter, rereadFrom]
  rfl

end

section

variable {ns ms : List Node} {n : Node}

theorem likens_of_unplaced {l : Label} (h : n.unplaced = ⟨{ l with span := ⟨0, 0⟩ }, []⟩) :
    Likens ⟨l, []⟩ n := by
  obtain ⟨l', items⟩ := n
  rw [unplaced, mk.injEq, unplacedAll_eq_map, List.map_eq_nil_iff] at h
  obtain ⟨hl, rfl⟩ := h
  exact likens_of_place hl

/-- Newline runs take no part in how they are split. -/
theorem Rejoined.newlines {k j : Nat} (hj : 0 < j) {span : Span}
    (h : Rejoined (flush (k + j) ++ ns) ms) : Rejoined (flush k ++ newlineRun j span :: ns) ms := by
  have hall : flush (k + j) ++ ns = newlineRun (k + j) :: ns := by rw [flush, if_neg (by omega)]; rfl
  rw [hall] at h
  by_cases hk : k = 0
  · subst hk
    have hplaced : Joins (newlineRun 0 :: newlineRun j span :: ns) (newlineRun j span :: ns) := by
      simpa only [Nat.zero_add] using Joins.mk (a := 0) hj ⟨0, 0⟩ span span ns
    exact .cut hplaced (.join (.mk hj _ _ _ ns) h)
  · rw [flush, if_neg hk]
    exact .join (.mk hj _ _ _ ns) h

/-- What is read of the line breaks before an item likens them. -/
theorem Rejoined.flushed {k : Nat} {read : List Node} (hread : unplacedAll read = flush k)
    (h : Rejoined ns ms) : Rejoined (flush k ++ ns) (read ++ ms) := by
  rw [unplacedAll_eq_map] at hread
  unfold Node.flush at hread ⊢
  split at hread
  · obtain rfl := List.map_eq_nil_iff.mp hread
    rw [if_pos ‹_›]
    exact h
  · rw [if_neg ‹_›]
    obtain ⟨m, rest, rfl, hm, hrest⟩ := List.map_eq_cons_iff.mp hread
    obtain rfl := List.map_eq_nil_iff.mp hrest
    exact .cons (likens_of_unplaced hm) h

end

/-- What is read back of a node likens it, if its block comments are kept. -/
def ReadsAlike (n : Node) : Prop :=
  n.keepsBlocks = true → ∀ m : Node, m.unplaced = n.reread → n.Likens m

theorem keepBlocks_cons {n : Node} {ns : List Node} :
    keepBlocks (n :: ns) = true ↔ n.keepsBlocks = true ∧ keepBlocks ns = true := by
  rw [keepBlocks, Bool.and_eq_true]

theorem exists_of_unplacedAll_append {ns read others : List Node} (h : unplacedAll ns = read ++ others) :
    ∃ front rest, ns = front ++ rest ∧ unplacedAll front = read ∧ unplacedAll rest = others := by
  simp only [unplacedAll_eq_map] at h ⊢
  exact List.map_eq_append_iff.mp h

theorem exists_of_unplacedAll_cons {ns others : List Node} {n : Node} (h : unplacedAll ns = n :: others) :
    ∃ m rest, ns = m :: rest ∧ m.unplaced = n ∧ unplacedAll rest = others := by
  simp only [unplacedAll_eq_map] at h ⊢
  exact List.map_eq_cons_iff.mp h

section

variable {k : Nat} {ns ms : List Node}

/-- An item that is no newline run, behind the line breaks before it. -/
theorem Rejoined.item {n r : Node} {others : List Node} (hms : unplacedAll ms = flush k ++ r :: others)
    (hn : ∀ m : Node, m.unplaced = r → n.Likens m)
    (hns : ∀ ms : List Node, unplacedAll ms = others → Rejoined ns ms) : Rejoined (flush k ++ n :: ns) ms := by
  obtain ⟨read, rest, rfl, hread, hrest⟩ := exists_of_unplacedAll_append hms
  obtain ⟨m, rest, rfl, hm, hrest⟩ := exists_of_unplacedAll_cons hrest
  exact .flushed hread (.cons (hn m hm) (hns rest hrest))

/-- The line break of a line comment is read apart from those after it. -/
theorem Rejoined.own_break {j : Nat} {span : Span} {others : List Node}
    (hms : unplacedAll ms = newlineRun 1 :: others)
    (hns : ∀ ms : List Node, unplacedAll ms = others → Rejoined (Node.flush j ++ ns) ms) :
    Rejoined (newlineRun (j + 1) span :: ns) ms := by
  obtain ⟨m, rest, rfl, hm, hrest⟩ := exists_of_unplacedAll_cons hms
  have hrest := hns rest hrest
  by_cases hj : j = 0
  · subst hj
    exact .cons (likens_of_unplaced hm) hrest
  · rw [Node.flush, if_neg hj] at hrest
    have hjoined : Joins (newlineRun 1 span :: newlineRun j :: ns) (newlineRun (j + 1) span :: ns) := by
      rw [Nat.add_comm]
      exact .mk (by omega) _ _ _ ns
    exact .cut hjoined (.cons (likens_of_unplaced hm) hrest)

end

end Node

open Node (keepBlocks keepsBlocks rereadAfter flush unplacedAll Rejoined ReadsAlike)

/-- The strings of a clob are read back as they are. -/
theorem ClobString.reread {n : Node} (h : ClobString n) : n.reread = n.unplaced := by
  cases h <;> rfl

/-- What is read back of a row differs from it in how its newline runs are split. The induction
carries the line breaks that no newline run was made of yet. -/
theorem LaidRow.rejoined {s t : Slot} {items : List Node}
    (h : LaidRow (fun b n => Laid b n ∧ ReadsAlike n) s items t) (hkeep : keepBlocks items = true)
    (k : Nat) {ms : List Node} (hms : unplacedAll ms = rereadAfter k items) : Rejoined (flush k ++ items) ms := by
  induction h generalizing k ms with
  | nil s =>
    rw [Node.rereadAfter_nil] at hms
    have := Rejoined.flushed hms .nil
    rwa [List.append_nil ms] at this
  | newlines hj _ ih =>
    rw [Node.rereadAfter_newlines] at hms
    exact .newlines hj (ih (Node.keepBlocks_cons.mp hkeep).2 _ hms)
  | @line s t v j span span' ns hs hv hj _ ih =>
    obtain ⟨j, rfl⟩ := Nat.exists_eq_succ_of_ne_zero (by omega : j ≠ 0)
    rw [Node.rereadAfter_line] at hms
    have hkeep := (Node.keepBlocks_cons.mp (Node.keepBlocks_cons.mp hkeep).2).2
    exact .item hms (fun m hm => Node.likens_of_unplaced hm) fun ms hms => .own_break hms fun ms => ih hkeep j
  | @block s t ls span ns hs hl _ ih =>
    rw [Node.rereadAfter_block] at hms
    obtain ⟨hblock, hkeep⟩ := Node.keepBlocks_cons.mp hkeep
    have hlines : relined ls = ls := by
      simpa [keepsBlocks, Node.blockComment, keepBlocks] using hblock
    rw [hlines] at hms
    exact .item hms (fun m hm => Node.likens_of_unplaced hm) fun ms => ih hkeep 0
  | key hv _ ih =>
    rw [Node.rereadAfter_content _ _ rfl] at hms
    exact .item hms (fun m hm => Node.likens_of_unplaced hm) fun ms => ih (Node.keepBlocks_cons.mp hkeep).2 0
  | value hs hn _ ih =>
    rw [Node.rereadAfter_content _ _ hn.1.isContent] at hms
    obtain ⟨hfirst, hkeep⟩ := Node.keepBlocks_cons.mp hkeep
    exact .item hms (hn.2 hfirst) fun ms => ih hkeep 0
  | string hn _ ih =>
    rw [Node.rereadAfter_content _ _ hn.isContent, hn.reread] at hms
    obtain ⟨l, rfl⟩ := hn.exists_leaf
    exact .item hms (fun m hm => Node.likens_of_unplaced hm) fun ms => ih (Node.keepBlocks_cons.mp hkeep).2 0

namespace Node

variable {l : Label} {ns : List Node}

theorem isAtomic_of_laidScalar {b : Bool} (h : LaidScalar .plain b l) : l.kind.isAtomic = true := by
  cases h with
  | word hk =>
    simp only [wordKinds, List.mem_cons, Prod.mk.injEq, List.not_mem_nil, or_false] at hk
    rcases hk with ⟨-, rfl⟩ | ⟨-, rfl⟩ | ⟨-, rfl⟩ | ⟨-, rfl⟩ | ⟨-, rfl⟩ | ⟨-, rfl⟩ | ⟨-, rfl⟩ |
      ⟨-, rfl⟩ <;> rfl
  | string | blob => rfl
  | long hS => exact hS.elim

theorem readsAlike_scalar {b : Bool} (h : LaidScalar .plain b l) : ReadsAlike ⟨l, []⟩ := by
  intro _ m hm
  obtain ⟨l', items⟩ := m
  obtain ⟨hl, -⟩ := Node.mk.inj hm
  refine likens_scalar (isAtomic_of_laidScalar h) (Label.likens_reread hl ?_ fun hk => ?_)
  · cases h <;> assumption
  · cases h with
    | word hk' =>
      simp only at hk
      subst hk
      simp [wordKinds] at hk'
    | string | long => contradiction
    | blob hw => exact ⟨_, rfl, hw⟩

/-- A form is read back alike if its items are. -/
theorem readsAlike_form (ha : AnnotationTexts l.annotations) (hk : l.kind ∈ [Kind.list, .sexpr, .struct, .clob])
    (hrow : keepBlocks ns = true → ∀ ms, unplacedAll ms = rereadAfter 0 ns → Rejoined ns ms)
    (hform : ∀ l' ms, l.Likens l' → Rejoined ns ms → Likens ⟨l, ns⟩ ⟨l', ms⟩) :
    ReadsAlike ⟨l, ns⟩ := by
  intro hkeep m hm
  obtain ⟨l', ms⟩ := m
  obtain ⟨hl, hms⟩ := Node.mk.inj hm
  rw [keepsBlocks, Bool.and_eq_true] at hkeep
  refine hform l' ms (Label.likens_reread hl ha fun hblob => ?_) (hrow hkeep.2 ms hms)
  rw [hblob] at hk
  simp at hk

end Node

/-- What is read back of a value likens it. -/
theorem Laid.readsAlike {b : Bool} {n : Node} (h : Laid b n) : ReadsAlike n := by
  refine h.induct (P := fun _ n => ReadsAlike n) (fun _ _ => Node.readsAlike_scalar) ?_ ?_ ?_ ?_
  · intro b span as items ha hrow
    exact Node.readsAlike_form ha (by simp) (fun hkeep ms => hrow.rejoined hkeep 0)
      fun l' ms hl hs => Node.likens_list rfl hl hs
  · intro b span as items ha hrow hp
    exact Node.readsAlike_form ha (by simp) (fun hkeep ms => hrow.rejoined hkeep 0)
      fun l' ms hl hs => Node.likens_sexpr rfl hl hs hp
  · intro b span as items ha hrow
    exact Node.readsAlike_form ha (by simp) (fun hkeep ms => hrow.rejoined hkeep 0)
      fun l' ms hl hs => Node.likens_struct rfl hl hs
  · intro b span as items ha hrow _
    exact Node.readsAlike_form ha (by simp) (fun hkeep ms => hrow.rejoined hkeep 0)
      fun l' ms hl hs => Node.likens_clob rfl hl hs

/-- What is read back of a program prints as it does. -/
theorem Row.print_reread {items ms : List Node} (h : Row .top items .top) (hkeep : keepBlocks items = true)
    (hms : unplacedAll ms = Node.rereadFrom [] items) (s : Settings) (p : Page) :
    (items.foldl (fun p n => Node.print s 0 p n) p).Alike (ms.foldl (fun p n => Node.print s 0 p n) p) := by
  have hrow := LaidRow.mono h fun _ _ h => And.intro h h.readsAlike
  exact (hrow.rejoined hkeep 0 hms).alike (Node.print_rows s) trivial

end FusionKit
