import FusionKit.Proofs.Forms
import FusionKit.Proofs.Shapes

/-!
# Trees that can be laid out

A tree is laid out exactly if each node is in its place, whatever tree it is: one that was built by
hand may have a struct member with several keys, or with none. `Node.WellFormed` says this without
the layout. What is laid out carries the content of the tree node for node, although a struct loses
its members on the way: their keys and values follow each other in the order in which a reader of the
tree comes to them. So who reads the layout and who reads the tree see the same forms.
-/
set_option autoImplicit false

namespace FusionKit

namespace Node

mutual

/-- A node that is in its place, with all that is below it. -/
inductive WellFormed : Node → Prop where
  | leaf {n : Node}
      (hk : n.kind ∉ [.invalid, .structMember, .structKey, .list, .sexpr, .struct, .clob]) : WellFormed n
  | form {n : Node} (hk : n.kind ∈ [.list, .sexpr]) (h : ∀ m ∈ n.items, WellFormed m) : WellFormed n
  | struct {n : Node} (hk : n.kind = .struct) (h : ∀ m ∈ n.items, WellFormedItem m) : WellFormed n
  | clob {n : Node} (hk : n.kind = .clob) (h : ∀ m ∈ n.items, WellFormed m)
      (hkinds : ∀ m ∈ n.items, m.kind ∈ clobKinds) : WellFormed n

/-- An item of a struct that is in its place: a comment, a newline run, or a member of keys and of
nodes that are in their places. -/
inductive WellFormedItem : Node → Prop where
  | trivia {n : Node} (h : n.isComment = true ∨ n.isNewlines = true) : WellFormedItem n
  | member {n : Node} (hk : n.kind = .structMember)
      (h : ∀ m ∈ n.items, m.kind ≠ .structKey → WellFormed m) : WellFormedItem n

end

/-- A layout carries a node: it has the kind, the range and the text of the node and, for a list, an
s-expression or a struct, carries its content, one node for each. -/
inductive Carries : Node → Node → Prop where
  | mk {n l : Node} (hkind : l.kind = n.kind) (hspan : l.span = n.span) (hvalue : l.value = n.value)
      (hitems : n.isCompound = true → List.Forall₂ Carries n.valueItems (l.items.filter isContent)) :
      Carries n l

variable {n m l : Node} {ns ls : List Node}

/-! ## Content -/

theorem isContent_of_kind (h : m.kind = n.kind) : m.isContent = n.isContent := by
  unfold isContent isComment isNewlines
  rw [h]

theorem WellFormed.ne_structMember (h : n.WellFormed) : n.kind ≠ .structMember := by
  intro heq
  cases h with
  | leaf hk => exact hk (by simp [heq])
  | form hk => simp [heq] at hk
  | struct hk => simp [heq] at hk
  | clob hk => simp [heq] at hk

/-- Where there are no members, the content is what is neither a comment nor a newline run. -/
theorem contents_eq_filter (h : ∀ n ∈ ns, n.kind ≠ .structMember) : contents ns = ns.filter isContent := by
  induction ns with
  | nil => rfl
  | cons n ns ih =>
    obtain ⟨hn, hns⟩ := List.forall_mem_cons.mp h
    rw [contents, if_neg hn, ih hns, List.filter_cons]
    split <;> rfl

theorem filter_carries (h : List.Forall₂ Carries ns ls) :
    List.Forall₂ Carries (ns.filter isContent) (ls.filter isContent) := by
  refine List.rel_filter ?_ h
  intro n l hcarries
  cases hcarries with
  | mk hkind => exact Eq.congr (isContent_of_kind hkind).symm rfl

theorem map_kind_of_carries (h : List.Forall₂ Carries ns ls) : ls.map kind = ns.map kind := by
  induction h with
  | nil => rfl
  | cons hn _ ih =>
    cases hn with
    | mk hkind => rw [List.map_cons, List.map_cons, hkind, ih]

/-! ## What is laid out is well-formed -/

/-- A node that is laid out was in its place, and its layout carries it. -/
def LaysWell (n : Node) : Prop := ∀ l, n.layout = .ok l → n.WellFormed ∧ n.Carries l

theorem laysWell_all (hns : ∀ n ∈ ns, n.LaysWell) (h : layoutAll ns = .ok ls) :
    (∀ n ∈ ns, n.WellFormed) ∧ List.Forall₂ Carries ns ls :=
  (List.forall₂_and_left ns ls).mp (forall₂_imp_of_mem (layoutAll_eq_ok.mp h) hns)

theorem wellFormed_of_parts (h : List.Forall₂ (LaidPart fun n l => n.WellFormed ∧ n.Carries l) ns ls) :
    (∀ n ∈ ns, n.kind ≠ .structKey → n.WellFormed) ∧ (∀ n ∈ ns, n.kind ≠ .structMember) ∧
      List.Forall₂ Carries ns ls := by
  induction h with
  | nil => exact ⟨by simp, by simp, .nil⟩
  | @cons n l ns ls hl _ ih =>
    obtain ⟨hwells, hkinds, hall⟩ := ih
    obtain ⟨hwell, hkind, hcarries⟩ :
        (n.kind ≠ .structKey → n.WellFormed) ∧ n.kind ≠ .structMember ∧ n.Carries l := by
      cases hl with
      | key hkey =>
        refine ⟨fun hne => absurd hkey hne, by simp [hkey], .mk hkey.symm rfl rfl fun hcompound => ?_⟩
        rw [isCompound, hkey] at hcompound
        contradiction
      | other _ h => exact ⟨fun _ => h.1, h.1.ne_structMember, h.2⟩
    exact ⟨List.forall_mem_cons.mpr ⟨hwell, hwells⟩, List.forall_mem_cons.mpr ⟨hkind, hkinds⟩,
      .cons hcarries hall⟩

/-- In a struct that is laid out the content of the members follows each other. -/
theorem wellFormed_of_items (h : LaidItems (fun n l => n.WellFormed ∧ n.Carries l) ns ls) :
    (∀ n ∈ ns, n.WellFormedItem) ∧ List.Forall₂ Carries (contents ns) (ls.filter isContent) := by
  induction h with
  | nil => exact ⟨by simp, .nil⟩
  | @trivia n ns ls hn _ ih =>
    have hcontent : n.isContent = false := by
      unfold isContent
      rcases hn with hn | hn <;> simp [hn]
    have hlabel : isContent ⟨n.label, []⟩ = false := hcontent
    rw [contents, if_neg (ne_structMember_of_trivia hn), if_neg (by simp [hcontent]),
      List.filter_cons_of_neg (by simp [hlabel])]
    exact ⟨List.forall_mem_cons.mpr ⟨.trivia hn, ih.1⟩, ih.2⟩
  | @member n ns first ls hk hfirst _ ih =>
    obtain ⟨hwells, hkinds, hrow⟩ := wellFormed_of_parts hfirst
    rw [contents, if_pos hk, valueItems_eq, contents_eq_filter hkinds, List.filter_append]
    exact ⟨List.forall_mem_cons.mpr ⟨.member hk hwells, ih.1⟩, List.rel_append (filter_carries hrow) ih.2⟩

theorem laysWell (n : Node) : n.LaysWell := by
  intro l hl
  refine layout_induction (P := fun n l => n.WellFormed ∧ n.Carries l) (fun n l h => ?_) hl
  have hplain : ∀ {label : Label} {items ls : List Node}, label.kind.isCompound = false →
      Carries ⟨label, items⟩ ⟨label, ls⟩ :=
    fun hcompound => .mk rfl rfl rfl fun h => absurd (hcompound.symm.trans h) (by decide)
  cases h with
  | @leaf label items hk =>
    refine ⟨.leaf hk, hplain ?_⟩
    revert hk
    generalize label.kind = k
    cases k <;> decide
  | @form label items ls hk h =>
    obtain ⟨hwells, hall⟩ := (List.forall₂_and_left items ls).mp h
    refine ⟨.form hk hwells, .mk rfl rfl rfl fun _ => ?_⟩
    rw [valueItems, contents_eq_filter fun m hm => (hwells m hm).ne_structMember]
    exact filter_carries hall
  | struct hk h =>
    obtain ⟨hitems, hall⟩ := wellFormed_of_items h
    exact ⟨.struct hk hitems, .mk rfl rfl rfl fun _ => hall⟩
  | @clob label items ls hk h hfits =>
    obtain ⟨hwells, hall⟩ := (List.forall₂_and_left items ls).mp h
    refine ⟨.clob hk hwells fun m hm => ?_, hplain (by rw [hk]; rfl)⟩
    obtain ⟨l, hl, hkind⟩ := List.mem_map.mp (map_kind_of_carries hall ▸ List.mem_map_of_mem hm)
    exact hkind ▸ fitsClob_iff.mp (hfits l hl)

/-! ## What is well-formed is laid out -/

theorem lays_items (hns : ∀ n ∈ ns, n.WellFormedItem)
    (h : ∀ n ∈ ns, ∀ m ∈ n.items, m.WellFormed → ∃ l, m.layout = .ok l) :
    ∃ ls, LaidItems (fun n l => n.layout = .ok l) ns ls := by
  induction ns with
  | nil => exact ⟨[], .nil⟩
  | cons n ns ih =>
    obtain ⟨hn, hns⟩ := List.forall_mem_cons.mp hns
    obtain ⟨hbelow, h⟩ := List.forall_mem_cons.mp h
    obtain ⟨ls, hls⟩ := ih hns h
    cases hn with
    | trivia htrivia => exact ⟨_, .trivia htrivia hls⟩
    | member hmember hwell =>
      have hparts : ∀ m ∈ n.items, ∃ l, LaidPart (fun n l => n.layout = .ok l) m l := by
        intro m hm
        by_cases hkey : m.kind = .structKey
        · exact ⟨_, .key hkey⟩
        · obtain ⟨l, hl⟩ := hbelow m hm (hwell m hm hkey)
          exact ⟨l, .other hkey hl⟩
      obtain ⟨first, hfirst⟩ := exists_forall₂ hparts
      exact ⟨first ++ ls, .member hmember hfirst hls⟩

theorem WellFormed.lays (h : n.WellFormed) : ∃ l, n.layout = .ok l := by
  induction n using induct_items with
  | h n ih =>
    obtain ⟨label, items⟩ := n
    refine (exists_congr fun _ => layout_eq_ok).mpr ?_
    have hrow : (∀ m ∈ items, m.WellFormed) → ∃ ls, List.Forall₂ (fun m l => m.layout = .ok l) items ls :=
      fun hitems => exists_forall₂ fun m hm => (ih m hm).1 (hitems m hm)
    cases h with
    | leaf hk => exact ⟨_, .leaf hk⟩
    | form hk hitems =>
      obtain ⟨ls, hls⟩ := hrow hitems
      exact ⟨_, .form hk hls⟩
    | struct hk hitems =>
      obtain ⟨ls, hls⟩ := lays_items hitems fun m hm => (ih m hm).2
      exact ⟨_, .struct hk hls⟩
    | clob hk hitems hkinds =>
      obtain ⟨ls, hls⟩ := hrow hitems
      refine ⟨_, .clob hk hls fun l hl => ?_⟩
      have hlabels := layoutAll_labels (layoutAll_eq_ok.mpr hls)
      obtain ⟨m, hm, hlabel⟩ := List.mem_map.mp (hlabels ▸ List.mem_map_of_mem hl)
      rw [fitsClob_iff, kind, ← hlabel]
      exact hkinds m hm

theorem lays_all (h : ∀ n ∈ ns, ∃ l, n.layout = .ok l) : ∃ ls, layoutAll ns = .ok ls := by
  obtain ⟨ls, hls⟩ := exists_forall₂ h
  exact ⟨ls, layoutAll_eq_ok.mpr hls⟩

/-! ## The forms of a layout -/

/-- What is carried is read as the same form. -/
theorem Carries.ofNode_eq (h : n.Carries l) : n.kind ≠ .structMember → Form.ofNode l = Form.ofNode n := by
  refine @Carries.rec (fun n l _ => n.kind ≠ .structMember → Form.ofNode l = Form.ofNode n)
    (fun ns ls _ => (∀ n ∈ ns, n.kind ≠ .structMember) → Form.ofNodes ls = Form.ofNodes ns) ?_ ?_ ?_ n l h
  · rintro ⟨label, items⟩ ⟨label', items'⟩ hkind hspan hvalue - ih hmember
    have hitems : label.kind.isCompound = true → Form.ofNodes items' = Form.ofNodes items := by
      intro hcompound
      have hmembers : ∀ m ∈ contents items, m.kind ≠ .structMember := fun m hm => (of_mem_contents hm).2
      rw [← Form.ofNodes_filter, ih hcompound hmembers, valueItems, Form.ofNodes_contents]
    replace hkind : label'.kind = label.kind := hkind
    replace hspan : label'.span = label.span := hspan
    replace hvalue : label'.value = label.value := hvalue
    replace hmember : label.kind ≠ .structMember := hmember
    unfold Form.ofNode
    rw [hkind, hspan, hvalue]
    revert hitems hmember
    generalize label.kind = k
    cases k <;> simp [Kind.isCompound]
  · intro _
    rfl
  · intro n l ns ls _ _ ihn ihns hall
    obtain ⟨hn, hns⟩ := List.forall_mem_cons.mp hall
    rw [Form.ofNodes, Form.ofNodes, ihn hn, ihns hns]

theorem ofNodes_of_carries (h : List.Forall₂ Carries ns ls) (hns : ∀ n ∈ ns, n.WellFormed) :
    Form.ofNodes ls = Form.ofNodes ns := by
  induction h with
  | nil => rfl
  | cons hn _ ih =>
    obtain ⟨hwell, hwells⟩ := List.forall_mem_cons.mp hns
    rw [Form.ofNodes, Form.ofNodes, hn.ofNode_eq hwell.ne_structMember, ih hwells]

/-- A tree is laid out exactly if it is well-formed. The layout carries it node for node, and whoever
reads the layout sees the forms of the tree. -/
theorem layoutAll_ok_iff_wellFormed (ns : List Node) :
    ((∃ ls, layoutAll ns = .ok ls) ↔ ∀ n ∈ ns, n.WellFormed) ∧
      ∀ ls, layoutAll ns = .ok ls → List.Forall₂ Carries ns ls ∧ Form.ofNodes ls = Form.ofNodes ns := by
  have hsound : ∀ ls, layoutAll ns = .ok ls → (∀ n ∈ ns, n.WellFormed) ∧ List.Forall₂ Carries ns ls :=
    fun ls hls => laysWell_all (fun n _ => laysWell n) hls
  refine ⟨⟨fun ⟨ls, hls⟩ => (hsound ls hls).1, fun h => lays_all fun n hn => (h n hn).lays⟩, fun ls hls => ?_⟩
  obtain ⟨hwell, hcarries⟩ := hsound ls hls
  exact ⟨hcarries, ofNodes_of_carries hcarries hwell⟩

/-- A struct that no source has: its member has two keys, and a comment after its value. -/
def oddStruct : Node :=
  let leaf (kind : Kind) (start : Int) (value : String) : Node :=
    ⟨{ kind, span := ⟨start, start + 1⟩, value := utf8 value }, []⟩
  let list : Node := ⟨{ kind := .list, span := ⟨4, 9⟩ }, [leaf .integer 5 "1", leaf .commentLine 6 "//", leaf .newlines 6 ""]⟩
  let member : Node :=
    ⟨{ kind := .structMember, span := ⟨1, 9⟩ }, [leaf .structKey 1 "a", leaf .structKey 2 "b", list, leaf .commentBlock 9 ""]⟩
  ⟨{ kind := .struct, span := ⟨0, 11⟩ }, [leaf .newlines 0 "", member, leaf .commentBlock 10 ""]⟩

theorem layoutAll_ok_iff_wellFormed_oddStruct : ∃ l, layoutAll [oddStruct] = .ok [l] ∧ oddStruct.WellFormed ∧
    oddStruct.Carries l ∧ Form.ofNodes [l] = Form.ofNodes [oddStruct] ∧
    l.items.map kind = [.newlines, .structKey, .structKey, .list, .commentBlock, .commentBlock] := by
  obtain ⟨hiff, hcarries⟩ := layoutAll_ok_iff_wellFormed [oddStruct]
  obtain ⟨l, hl, hkinds⟩ : ∃ l, layoutAll [oddStruct] = .ok [l] ∧
      l.items.map kind = [.newlines, .structKey, .structKey, .list, .commentBlock, .commentBlock] := ⟨_, rfl, rfl⟩
  obtain ⟨hone, hforms⟩ := hcarries [l] hl
  have hwell : oddStruct.WellFormed := hiff.mp ⟨_, hl⟩ oddStruct List.mem_cons_self
  cases hone with
  | cons hone => exact ⟨l, hl, hwell, hone, hforms, hkinds⟩

end Node

end FusionKit
