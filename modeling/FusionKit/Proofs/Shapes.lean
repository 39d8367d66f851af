import FusionKit.Proofs.Leading
import FusionKit.Proofs.Steps

/-!
# Shapes of trees

In a parsed tree a struct holds members, a member its key and one value, a clob strings, and every
other form values; comments and newline runs stand between them. So it can be laid out, and in the
layout every key of a struct has its value.
-/
set_option autoImplicit false

namespace FusionKit

namespace Node

/-- The kinds of the values that have no items. -/
def scalarKinds : List Kind :=
  [.null, .boolean, .integer, .real, .timestamp, .symbol, .quotedString, .multilineString, .blob]

/-- The kinds of what stands in a clob. -/
def clobKinds : List Kind := [.quotedString, .multilineString, .newlines]

mutual

/-- A value of a parsed tree. -/
inductive Shaped : Node → Prop where
  | scalar {n : Node} (hk : n.kind ∈ scalarKinds) (hitems : n.items = []) : Shaped n
  | form {n : Node} (hk : n.kind ∈ [Kind.sexpr, .list]) (h : ∀ m ∈ n.items, ¬ m.IsTrivia → Shaped m) :
      Shaped n
  | struct {n : Node} (hk : n.kind = .struct) (h : ∀ m ∈ n.items, ¬ m.IsTrivia → ShapedMember m) :
      Shaped n
  | clob {n : Node} (hk : n.kind = .clob) (h : ∀ m ∈ n.items, m.kind ∈ clobKinds ∧ m.items = []) :
      Shaped n

/-- A member of a struct of a parsed tree. -/
inductive ShapedMember : Node → Prop where
  | mk {n key value : Node} {between : List Node} (hk : n.kind = .structMember)
      (hitems : n.items = key :: (between ++ [value])) (hkey : key.kind = .structKey)
      (hbetween : ∀ m ∈ between, m.IsTrivia) (hvalue : Shaped value) : ShapedMember n

end

/-- The items of a struct in a layout tree: comments, newline runs, and members, each a key and,
after comments and newline runs, one value. -/
inductive Members : List Node → Prop where
  | nil : Members []
  | trivia {n : Node} {ns : List Node} (hn : n.isContent = false) (h : Members ns) : Members (n :: ns)
  | member {key value : Node} {between ns : List Node} (hkey : key.kind = .structKey)
      (hbetween : ∀ n ∈ between, n.isContent = false) (hvalue : value.isValue = true) (h : Members ns) :
      Members (key :: (between ++ value :: ns))

/-- A node of a layout tree whose items are where they belong. -/
structure Placed (n : Node) : Prop where
  kind : n.kind ≠ .structMember
  keys : n.kind ≠ .struct → ∀ m ∈ n.items, m.kind ≠ .structKey
  clob : n.kind = .clob → ∀ m ∈ n.items, m.kind ∈ clobKinds
  struct : n.kind = .struct → Members n.items

variable {n m : Node} {ns : List Node}

/-! ## Parsed trees -/

theorem Shaped.of_items (h : n.Shaped) (hk : m.kind = n.kind) (hi : m.items = n.items) : m.Shaped := by
  cases h with
  | scalar h hitems => exact .scalar (hk ▸ h) (hi.trans hitems)
  | form h hitems => exact .form (hk ▸ h) (by rwa [hi])
  | struct h hitems => exact .struct (hk.trans h) (by rwa [hi])
  | clob h hitems => exact .clob (hk.trans h) (by rwa [hi])

theorem Shaped.annotated (h : n.Shaped) (annotations : List Text) : (n.annotated annotations).Shaped := by
  unfold Node.annotated
  split
  · exact h
  · exact h.of_items rfl rfl

theorem Shaped.isValue (h : n.Shaped) : n.isValue = true := by
  have hcases : n.kind ∈ scalarKinds ++ [.sexpr, .list, .struct, .clob] := by
    cases h with
    | scalar hk => exact List.mem_append_left _ hk
    | form hk =>
      rcases List.mem_pair.mp hk with hk | hk <;> rw [hk] <;> decide
    | struct hk => rw [hk]; decide
    | clob hk => rw [hk]; decide
  unfold Node.isValue Node.isContent Node.isComment Node.isNewlines Node.isStructKey
  revert hcases
  generalize n.kind = k
  revert k
  decide

theorem shaped_scalar {t : Token} (h : Node.scalar? t = some n) :
    n.kind ∈ scalarKinds ∧ n.items = [] := by
  unfold Node.scalar? at h
  split at h
  case h_12 => contradiction
  all_goals
    cases h
    exact ⟨by simp [leaf, scalarKinds], rfl⟩

end Node

/-- What follows a key of a struct, before its value. -/
def MemberPhase.Fits : MemberPhase → Prop
  | between _ => True
  | afterKey key reversed | afterColon key reversed =>
    key.kind = .structKey ∧ ∃ trivia, reversed.reverse = key :: trivia ∧ ∀ m ∈ trivia, m.IsTrivia

namespace Frame

/-- An open form whose items fit it. -/
def Fits : Frame → Prop
  | sexpr _ _ items | list _ _ items _ => ∀ m ∈ items, ¬ m.IsTrivia → m.Shaped
  | struct _ _ items phase => (∀ m ∈ items, ¬ m.IsTrivia → m.ShapedMember) ∧ phase.Fits
  | clob _ _ items => ∀ m ∈ items, m.kind ∈ Node.clobKinds ∧ m.items = []

variable {f g : Frame} {n : Node} {ns : List Node} {t : Token}

theorem Fits.keep (h : f.Fits) (hns : ∀ m ∈ ns, m.IsTrivia)
    (hclob : f.kind = .clob → ∀ m ∈ ns, m.kind = .newlines) : (f.keep ns).Fits := by
  have hitems : ∀ {P : Node → Prop} {items : List Node}, (∀ m ∈ items, ¬ m.IsTrivia → P m) →
      ∀ m ∈ ns.reverse ++ items, ¬ m.IsTrivia → P m := by
    intro P items h m hm htrivia
    rcases List.mem_append.mp hm with hm | hm
    · exact absurd (hns m (List.mem_reverse.mp hm)) htrivia
    · exact h m hm htrivia
  have hphase : ∀ {key : Node} {reversed : List Node},
      (∃ trivia, reversed.reverse = key :: trivia ∧ ∀ m ∈ trivia, m.IsTrivia) →
      ∃ trivia, (ns.reverse ++ reversed).reverse = key :: trivia ∧ ∀ m ∈ trivia, m.IsTrivia := by
    rintro key reversed ⟨trivia, hreversed, htrivia⟩
    refine ⟨trivia ++ ns, by simp [hreversed], fun m hm => ?_⟩
    rcases List.mem_append.mp hm with hm | hm
    · exact htrivia m hm
    · exact hns m hm
  cases f with
  | sexpr | list => exact hitems h
  | struct o a items phase =>
    cases phase with
    | between ready => exact ⟨hitems h.1, trivial⟩
    | afterKey key reversed => exact ⟨h.1, h.2.1, hphase h.2.2⟩
    | afterColon key reversed => exact ⟨h.1, h.2.1, hphase h.2.2⟩
  | clob o a items =>
    intro m hm
    rcases List.mem_append.mp hm with hm | hm
    · have hm := List.mem_reverse.mp hm
      rw [hclob rfl m hm]
      exact ⟨by decide, (hns m hm).items⟩
    · exact h m hm

theorem Fits.push (h : f.Fits) (hf : f.hasPlace = true) (hn : n.Shaped) : (f.push n).Fits := by
  cases f with
  | sexpr | list => exact List.forall_mem_cons.mpr ⟨fun _ => hn, h⟩
  | struct o a items phase =>
    cases phase with
    | afterColon key reversed =>
      obtain ⟨hitems, hkey, trivia, hreversed, htrivia⟩ := h
      refine ⟨List.forall_mem_cons.mpr ⟨fun _ => ?_, hitems⟩, trivial⟩
      refine @Node.ShapedMember.mk _ key n _ rfl ?_ hkey htrivia hn
      show (n :: reversed).reverse = _
      rw [List.reverse_cons, hreversed, List.cons_append]
    | between ready => contradiction
    | afterKey key reversed => contradiction
  | clob o a items => contradiction

theorem Fits.comma (h : f.Fits) (hg : f.afterComma? = some g) : g.Fits := by
  unfold afterComma? at hg
  split at hg
  · cases hg
    exact h
  · cases hg
    exact ⟨h.1, trivial⟩
  · contradiction

/-- The node of a form that is closed. -/
theorem Fits.form (h : f.Fits) (closing : Token) :
    (Node.ofForm f.kind f.annotations f.opening closing f.items).Shaped := by
  apply Node.Shaped.annotated
  have hreverse : ∀ {P : Node → Prop}, (∀ m ∈ f.items, P m) → ∀ m ∈ f.items.reverse, P m :=
    fun h m hm => h m (List.mem_reverse.mp hm)
  cases f with
  | sexpr o a items => exact .form (by simp [kind]) (hreverse h)
  | list o a items => exact .form (by simp [kind]) (hreverse h)
  | struct o a items => exact .struct rfl (hreverse h.1)
  | clob o a items => exact .clob rfl (hreverse h)

end Frame

namespace Reading

/-- What is read is shaped as a parsed tree. -/
structure Fits (r : Reading) : Prop where
  done : ∀ m ∈ r.done, ¬ m.IsTrivia → m.Shaped
  frames : ∀ f ∈ r.frames, f.Fits

variable {r r' : Reading} {t : Token} {n : Node} {fs : List Frame}

theorem Fits.deliver (h : r.Fits) (hhead : ∀ f, r.frames.head? = some f → f.hasPlace = true)
    (hn : n.Shaped) : (r.deliver n).Fits := by
  unfold Reading.deliver
  have hframes := h.frames
  cases hfs : r.frames with
  | nil => exact ⟨List.forall_mem_cons.mpr ⟨fun _ => hn, h.done⟩, by simp⟩
  | cons f fs =>
    rw [hfs] at hframes hhead
    obtain ⟨hf, hfs⟩ := List.forall_mem_cons.mp hframes
    exact ⟨h.done, List.forall_mem_cons.mpr ⟨hf.push (hhead f rfl) hn, hfs⟩⟩

theorem Fits.reframe {f g : Frame} (h : r.Fits) (hr : r.frames = f :: fs) (hg : f.Fits → g.Fits) :
    ({ r with frames := g :: fs } : Reading).Fits := by
  have hframes := h.frames
  rw [hr] at hframes
  obtain ⟨hf, hfs⟩ := List.forall_mem_cons.mp hframes
  exact ⟨h.done, List.forall_mem_cons.mpr ⟨hg hf, hfs⟩⟩

theorem Step.fits (h : r.Step t r') (hs : r.Stacked) (hr : r.Fits) : r'.Fits := by
  cases h with
  | annotate hplace ht => exact ⟨hr.done, hr.frames⟩
  | blank hp ht => exact ⟨hr.done, hr.frames⟩
  | scalar hplace hn =>
    obtain ⟨hk, hi⟩ := Node.shaped_scalar hn
    exact hr.deliver (hplace.head hs) (Node.Shaped.annotated (.scalar hk hi) _)
  | opening hplace hf =>
    refine ⟨hr.done, List.forall_mem_cons.mpr ⟨?_, hr.frames⟩⟩
    unfold Frame.opened? at hf
    split at hf <;> cases hf <;> simp [Frame.Fits, MemberPhase.Fits]
  | @trivia ns hp hc hn =>
    have hns := Token.isTrivia_of_trivia? hn
    unfold keep
    cases hfs : r.frames with
    | nil =>
      refine ⟨fun m hm htrivia => ?_, by simp⟩
      rcases List.mem_append.mp hm with hm | hm
      · exact absurd (hns m (List.mem_reverse.mp hm)) htrivia
      · exact hr.done m hm htrivia
    | cons f fs =>
      refine hr.reframe hfs fun hf => hf.keep hns fun hk m hm => ?_
      have hblank : t.type = .whitespace := by
        cases f <;> cases hk
        exact hc _ _ _ _ hfs
      rw [Node.trivia?, hblank] at hn
      cases hn
      unfold Node.newlines? at hm
      split at hm
      · contradiction
      · rw [List.mem_singleton.mp hm]
  | @clobString o a items fs n hp hfs ht hn =>
    have hn : n.kind ∈ Node.clobKinds ∧ n.items = [] := by
      unfold Node.scalar? at hn
      rcases ht with ht | ht <;> rw [ht] at hn <;> cases hn <;> exact ⟨by simp [Node.leaf, Node.clobKinds], rfl⟩
    have hitems := hr.frames (.clob o a items) (by rw [hfs]; exact List.mem_cons_self)
    have hpushed : (Frame.clob o a (n :: items)).Fits := List.forall_mem_cons.mpr ⟨hn, hitems⟩
    have hdone := hr.reframe hfs fun _ => hpushed
    unfold deliver
    rw [hfs]
    exact ⟨hdone.done, hdone.frames⟩
  | @closing f fs hp hfs ht =>
    have hframes := hr.frames
    rw [hfs] at hframes
    obtain ⟨hf, hrest⟩ := List.forall_mem_cons.mp hframes
    exact Fits.deliver ⟨hr.done, hrest⟩ (fun g hg => hs.inner hfs g (List.mem_of_mem_head? hg)) (hf.form t)
  | comma hp hfs hg ht => exact hr.reframe hfs fun hf => hf.comma hg
  | key hp hfs ht => exact hr.reframe hfs fun hf => ⟨hf.1, rfl, [], rfl, by simp⟩
  | colon hp hfs ht => exact hr.reframe hfs fun hf => hf

theorem Steps.fits {ts : List Token} (h : r.Steps ts r') (hs : r.Stacked) (hr : r.Fits) : r'.Fits := by
  induction h with
  | nil => exact hr
  | cons h _ ih => exact ih (h.stacked hs) (h.fits hs hr)

end Reading

/-! ## Their layout -/

namespace Node

variable {n l : Node} {ns ls : List Node}

theorem Members.append {ms : List Node} (h : Members ns) (h' : Members ms) : Members (ns ++ ms) := by
  induction h with
  | nil => exact h'
  | trivia hn _ ih => exact .trivia hn ih
  | member hkey hbetween hvalue _ ih =>
    rw [List.cons_append, List.append_assoc, List.cons_append]
    exact .member hkey hbetween hvalue ih

theorem IsTrivia.placed (h : n.IsTrivia) : ∀ m, n.Below m → m.Placed := by
  refine forall_below ?_ (by simp [h.items])
  have hk := h.kind
  have hmember : n.kind ≠ .structMember := by
    rintro heq
    rw [heq] at hk
    exact absurd hk (by decide)
  have hstruct : n.kind ≠ .struct := by
    rintro heq
    rw [heq] at hk
    exact absurd hk (by decide)
  exact ⟨hmember, by simp [h.items], by simp [h.items], fun heq => absurd heq hstruct⟩

/-- A node without items that may stand anywhere. -/
theorem placed_scalar (hk : n.kind ∈ scalarKinds ++ [.structKey]) (hi : n.items = []) :
    ∀ m, n.Below m → m.Placed := by
  refine forall_below ⟨?_, by simp [hi], by simp [hi], ?_⟩ (by simp [hi])
  · rintro heq
    rw [heq] at hk
    exact absurd hk (by decide)
  · intro heq
    rw [heq] at hk
    exact absurd hk (by decide)

theorem fitsClob_iff : n.fitsClob = true ↔ n.kind ∈ clobKinds := by
  unfold fitsClob
  generalize n.kind = k
  cases k <;> decide

/-- The layout of a node has its label, and all is placed in it. -/
def Lays (n l : Node) : Prop := l.label = n.label ∧ ∀ m, l.Below m → m.Placed

theorem Lays.isValue (h : Lays n l) : l.isValue = n.isValue := by
  unfold Node.isValue Node.isContent Node.isComment Node.isNewlines Node.isStructKey Node.kind
  rw [h.1]

theorem Lays.not_key (h : Lays n l) (hn : n.Shaped) : l.kind ≠ .structKey := by
  have hvalue := hn.isValue
  rw [← h.isValue, Node.isValue, isStructKey] at hvalue
  simp only [Bool.and_eq_true, Bool.not_eq_true', beq_eq_false_iff_ne] at hvalue
  exact hvalue.2

/-- What is laid out in a list or an s-expression: each item. -/
theorem layoutAll_lays {ns : List Node} (h : ∀ n ∈ ns, ∃ l, n.layout = .ok l ∧ Lays n l ∧ l.kind ≠ .structKey) :
    ∃ ls, layoutAll ns = .ok ls ∧ ls.map label = ns.map label ∧ (∀ l ∈ ls, l.kind ≠ .structKey) ∧
      ∀ l ∈ ls, ∀ m, l.Below m → m.Placed := by
  induction ns with
  | nil => exact ⟨[], rfl, rfl, by simp, by simp⟩
  | cons n ns ih =>
    obtain ⟨hn, hns⟩ := List.forall_mem_cons.mp h
    obtain ⟨l, hl, hlays, hkey⟩ := hn
    obtain ⟨ls, hls, hlabels, hkeys, hplaced⟩ := ih hns
    refine ⟨l :: ls, ?_, ?_, List.forall_mem_cons.mpr ⟨hkey, hkeys⟩,
      List.forall_mem_cons.mpr ⟨hlays.2, hplaced⟩⟩
    · rw [layoutAll_cons, hl, hls]
      rfl
    · rw [List.map_cons, List.map_cons, hlays.1, hlabels]

theorem layoutMember_single {value : Node} (hl : value.layout = .ok l) (hvalue : value.isValue = true) :
    layoutMember [value] = .ok [l] := by
  have hkey : value.kind ≠ .structKey := by
    intro heq
    rw [Node.isValue, isStructKey, heq] at hvalue
    simp at hvalue
  exact layoutMember_eq_ok.mpr (.cons (.other hkey hl) .nil)

/-- A member is laid out as its key, what follows it, and its value. -/
theorem layoutMember_lays {key value : Node} {between : List Node} (hkey : key.kind = .structKey)
    (hbetween : ∀ m ∈ between, m.IsTrivia) (hvalue : value.isValue = true) (hl : value.layout = .ok l)
    (hlays : Lays value l) : ∃ ls, layoutMember (key :: (between ++ [value])) = .ok ls ∧ Members ls ∧
      ∀ l ∈ ls, ∀ m, l.Below m → m.Placed := by
  have hkey' : layoutMember [key] = .ok [structKey key.value key.span] :=
    layoutMember_eq_ok.mpr (.cons (.key hkey) .nil)
  have hrest := layoutMember_append (layoutMember_trivia hbetween) (layoutMember_single hl hvalue)
  refine ⟨structKey key.value key.span :: (between ++ [l]), layoutMember_append hkey' hrest, ?_, ?_⟩
  · exact .member rfl (fun n hn => (hbetween n hn).isContent) (hlays.isValue.trans hvalue) .nil
  · refine List.forall_mem_cons.mpr ⟨placed_scalar (by simp [structKey, scalarKinds]) rfl, fun n hn => ?_⟩
    rcases List.mem_append.mp hn with hn | hn
    · exact (hbetween n hn).placed
    · rw [List.mem_singleton.mp hn]
      exact hlays.2

/-- A struct is laid out as its members, with what stands between them. -/
theorem layoutStruct_lays (h : ∀ n ∈ ns, n.IsTrivia ∨ n.kind = .structMember ∧ ∃ ls,
      layoutMember n.items = .ok ls ∧ Members ls ∧ ∀ l ∈ ls, ∀ m, l.Below m → m.Placed) :
    ∃ ls, layoutStruct ns = .ok ls ∧ Members ls ∧ ∀ l ∈ ls, ∀ m, l.Below m → m.Placed := by
  induction ns with
  | nil => exact ⟨[], rfl, .nil, by simp⟩
  | cons n ns ih =>
    obtain ⟨hn, hns⟩ := List.forall_mem_cons.mp h
    obtain ⟨ks, hks, hmembers, hplaced⟩ := ih hns
    have hfirst : ∃ ls, layoutStruct [n] = .ok ls ∧ Members ls ∧ ∀ l ∈ ls, ∀ m, l.Below m → m.Placed := by
      rcases hn with hn | ⟨hk, ls, hls, hmembers, hplaced⟩
      · refine ⟨[n], layoutStruct_trivia (by simpa using hn), .trivia ?_ .nil, by simpa using hn.placed⟩
        exact hn.isContent
      · refine ⟨ls, ?_, hmembers, hplaced⟩
        rw [layoutStruct_cons, if_pos hk, hls]
        exact congrArg Except.ok (List.append_nil ls)
    obtain ⟨ls, hls, hmembers', hplaced'⟩ := hfirst
    refine ⟨ls ++ ks, layoutStruct_append hls hks, hmembers'.append hmembers, fun l hl => ?_⟩
    rcases List.mem_append.mp hl with hl | hl
    · exact hplaced' l hl
    · exact hplaced l hl

section

variable {label : Label} {items : List Node}

theorem lays_form (hk : label.kind ∈ [Kind.sexpr, .list])
    (h : ∀ m ∈ items, ∃ l, m.layout = .ok l ∧ Lays m l ∧ l.kind ≠ .structKey) :
    ∃ l, layout ⟨label, items⟩ = .ok l ∧ Lays ⟨label, items⟩ l := by
  obtain ⟨ls, hls, -, hkeys, hplaced⟩ := layoutAll_lays h
  have hne : label.kind ≠ .structMember ∧ label.kind ≠ .clob ∧ label.kind ≠ .struct := by
    rcases List.mem_pair.mp hk with hk | hk <;> rw [hk] <;> decide
  refine ⟨⟨label, ls⟩, ?_, rfl, forall_below ?_ hplaced⟩
  · exact layout_eq_ok.mpr (.form (List.mem_pair.mpr (List.mem_pair.mp hk).symm) (layoutAll_eq_ok.mp hls))
  · exact ⟨hne.1, fun _ => hkeys, fun heq => absurd heq hne.2.1, fun heq => absurd heq hne.2.2⟩

theorem lays_struct (hk : label.kind = .struct)
    (h : ∀ m ∈ items, m.IsTrivia ∨ m.kind = .structMember ∧ ∃ ls,
      layoutMember m.items = .ok ls ∧ Members ls ∧ ∀ l ∈ ls, ∀ m, l.Below m → m.Placed) :
    ∃ l, layout ⟨label, items⟩ = .ok l ∧ Lays ⟨label, items⟩ l := by
  obtain ⟨ls, hls, hmembers, hplaced⟩ := layoutStruct_lays h
  have hne : label.kind ≠ .structMember ∧ label.kind ≠ .clob := by rw [hk]; decide
  refine ⟨⟨label, ls⟩, ?_, rfl, forall_below ?_ hplaced⟩
  · exact layout_eq_ok.mpr (.struct hk (layoutStruct_eq_ok.mp hls))
  · exact ⟨hne.1, fun heq => absurd hk heq, fun heq => absurd heq hne.2, fun _ => hmembers⟩

theorem lays_clob (hk : label.kind = .clob)
    (h : ∀ m ∈ items, ∃ l, m.layout = .ok l ∧ Lays m l ∧ l.kind ≠ .structKey)
    (hkinds : ∀ m ∈ items, m.kind ∈ clobKinds) :
    ∃ l, layout ⟨label, items⟩ = .ok l ∧ Lays ⟨label, items⟩ l := by
  obtain ⟨ls, hls, hlabels, hkeys, hplaced⟩ := layoutAll_lays h
  have hne : label.kind ≠ .structMember ∧ label.kind ≠ .struct := by rw [hk]; decide
  have hlaid : ∀ l ∈ ls, l.kind ∈ clobKinds := by
    intro l hl
    obtain ⟨m, hm, hlabel⟩ := List.mem_map.mp (hlabels ▸ List.mem_map_of_mem hl)
    rw [Node.kind, ← hlabel]
    exact hkinds m hm
  refine ⟨⟨label, ls⟩, ?_, rfl, forall_below ?_ hplaced⟩
  · exact layout_eq_ok.mpr (.clob hk (layoutAll_eq_ok.mp hls) fun l hl => fitsClob_iff.mpr (hlaid l hl))
  · exact ⟨hne.1, fun _ => hkeys, fun _ => hlaid, fun heq => absurd heq hne.2⟩

theorem layout_scalar (hk : label.kind ∈ scalarKinds) : layout ⟨label, []⟩ = .ok ⟨label, []⟩ := by
  refine layout_eq_ok.mpr (.leaf ?_)
  revert hk
  generalize label.kind = k
  cases k <;> decide

end

/-- A string of a clob is a value, a newline run is none. -/
theorem shaped_clobItem (hk : n.kind ∈ clobKinds) (hi : n.items = []) : ¬ n.IsTrivia → n.Shaped := by
  intro htrivia
  simp only [clobKinds, List.mem_cons, List.not_mem_nil, or_false] at hk
  rcases hk with hk | hk | hk
  · exact .scalar (by rw [hk]; decide) hi
  · exact .scalar (by rw [hk]; decide) hi
  · exact absurd ⟨by rw [hk]; decide, hi⟩ htrivia

/-- An item of a form is laid out when the values among the items are. -/
theorem lays_item (ih : n.Shaped → ∃ l, n.layout = .ok l ∧ Lays n l) (h : ¬ n.IsTrivia → n.Shaped) :
    ∃ l, n.layout = .ok l ∧ Lays n l ∧ l.kind ≠ .structKey := by
  by_cases htrivia : n.IsTrivia
  · exact ⟨n, layout_trivia htrivia, ⟨rfl, htrivia.placed⟩, htrivia.not_key⟩
  · obtain ⟨l, hl, hlays⟩ := ih (h htrivia)
    exact ⟨l, hl, hlays, hlays.not_key (h htrivia)⟩

/-- Every value of a parsed tree is laid out, and every member. -/
theorem shaped_lays (n : Node) : (n.Shaped → ∃ l, n.layout = .ok l ∧ Lays n l) ∧
    (n.ShapedMember → ∃ ls, layoutMember n.items = .ok ls ∧ Members ls ∧
      ∀ l ∈ ls, ∀ m, l.Below m → m.Placed) := by
  induction n using Node.induct with
  | h n ih =>
    obtain ⟨label, items⟩ := n
    constructor
    · intro h
      cases h with
      | scalar hk hi =>
        obtain rfl : items = [] := hi
        exact ⟨_, layout_scalar hk, rfl, placed_scalar (List.mem_append_left _ hk) rfl⟩
      | form hk h => exact lays_form hk fun m hm => lays_item (ih m hm).1 (h m hm)
      | struct hk h =>
        refine lays_struct hk fun m hm => ?_
        by_cases htrivia : m.IsTrivia
        · exact .inl htrivia
        · have hmember := h m hm htrivia
          refine .inr ⟨?_, (ih m hm).2 hmember⟩
          cases hmember with
          | mk hk => exact hk
      | clob hk h =>
        refine lays_clob hk (fun m hm => ?_) fun m hm => (h m hm).1
        exact lays_item (ih m hm).1 (shaped_clobItem (h m hm).1 (h m hm).2)
    · intro h
      cases h with
      | @mk _ key value between hk hitems hkey hbetween hvalue =>
        obtain ⟨l, hl, hlays⟩ := (ih value (by rw [hitems]; simp)).1 hvalue
        rw [hitems]
        exact layoutMember_lays hkey hbetween hvalue.isValue hl hlays

/-- A parsed tree is laid out without fault, with everything in its place. -/
theorem layoutAll_placed (h : ∀ n ∈ ns, ¬ n.IsTrivia → n.Shaped) : ∃ ls, layoutAll ns = .ok ls ∧
    (∀ l ∈ ls, l.kind ≠ .structKey) ∧ ∀ l ∈ ls, ∀ m, l.Below m → m.Placed := by
  obtain ⟨ls, hls, -, hkeys, hplaced⟩ :=
    @layoutAll_lays ns fun n hn => lays_item (shaped_lays n).1 (h n hn)
  exact ⟨ls, hls, hkeys, hplaced⟩

end Node

end FusionKit
