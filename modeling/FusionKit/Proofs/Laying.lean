import FusionKit.Proofs.Basics
import FusionKit.Proofs.Trees

/-!
# Laying out a tree

A node is laid out as itself with its items laid out. Only a struct is laid out in another way: each
of its members makes room for its key and its values. `Node.layout_eq_ok` says what a layout can be and
when there is one, and `Node.layout_induction` is the induction over the layouts of a tree.
-/
set_option autoImplicit false

namespace FusionKit

namespace Node

/-- The items of a struct member with their layouts: a key, or a node that `R` lays out. -/
inductive LaidPart (R : Node → Node → Prop) : Node → Node → Prop where
  | key {n : Node} (hk : n.kind = .structKey) : LaidPart R n (.structKey n.value n.span)
  | other {n l : Node} (hk : n.kind ≠ .structKey) (h : R n l) : LaidPart R n l

/-- The items of a struct with their layouts: a comment or a newline run stands for itself, and a
member for its items. -/
inductive LaidItems (R : Node → Node → Prop) : List Node → List Node → Prop where
  | nil : LaidItems R [] []
  | trivia {n : Node} {ns ls : List Node} (hn : n.isComment = true ∨ n.isNewlines = true)
      (h : LaidItems R ns ls) : LaidItems R (n :: ns) (⟨n.label, []⟩ :: ls)
  | member {n : Node} {ns first ls : List Node} (hk : n.kind = .structMember)
      (hfirst : List.Forall₂ (LaidPart R) n.items first) (h : LaidItems R ns ls) :
      LaidItems R (n :: ns) (first ++ ls)

/-- A node with its layout, if `R` lays out what stands in it. -/
inductive LaidBy (R : Node → Node → Prop) : Node → Node → Prop where
  | leaf {label : Label} {items : List Node}
      (hk : label.kind ∉ [.invalid, .structMember, .structKey, .list, .sexpr, .struct, .clob]) :
      LaidBy R ⟨label, items⟩ ⟨label, []⟩
  | form {label : Label} {items ls : List Node} (hk : label.kind ∈ [Kind.list, .sexpr])
      (h : List.Forall₂ R items ls) : LaidBy R ⟨label, items⟩ ⟨label, ls⟩
  | struct {label : Label} {items ls : List Node} (hk : label.kind = .struct) (h : LaidItems R items ls) :
      LaidBy R ⟨label, items⟩ ⟨label, ls⟩
  | clob {label : Label} {items ls : List Node} (hk : label.kind = .clob) (h : List.Forall₂ R items ls)
      (hfits : ∀ l ∈ ls, l.fitsClob = true) : LaidBy R ⟨label, items⟩ ⟨label, ls⟩

variable {n l : Node} {ns ms ls ks : List Node} {R S : Node → Node → Prop}

/-! ## One relation for another -/

theorem LaidPart.imp (h : LaidPart R n l) (himp : R n l → S n l) : LaidPart S n l := by
  cases h with
  | key hk => exact .key hk
  | other hk h => exact .other hk (himp h)

theorem LaidItems.imp (h : LaidItems R ns ls) (himp : ∀ n ∈ ns, ∀ m ∈ n.items, ∀ l, R m l → S m l) :
    LaidItems S ns ls := by
  induction h with
  | nil => exact .nil
  | trivia hn _ ih => exact .trivia hn (ih (List.forall_mem_cons.mp himp).2)
  | member hk hfirst _ ih =>
    obtain ⟨hone, hothers⟩ := List.forall_mem_cons.mp himp
    exact .member hk (forall₂_imp_of_mem hfirst fun m hm l hpart => hpart.imp (hone m hm l)) (ih hothers)

theorem LaidBy.imp (h : LaidBy R n l) (hitems : ∀ m ∈ n.items, ∀ l, R m l → S m l)
    (hparts : ∀ m ∈ n.items, ∀ k ∈ m.items, ∀ l, R k l → S k l) : LaidBy S n l := by
  cases h with
  | leaf hk => exact .leaf hk
  | form hk h => exact .form hk (forall₂_imp_of_mem h hitems)
  | struct hk h => exact .struct hk (h.imp hparts)
  | clob hk h hfits => exact .clob hk (forall₂_imp_of_mem h hitems) hfits

theorem LaidItems.append (hn : LaidItems R ns ls) (hm : LaidItems R ms ks) :
    LaidItems R (ns ++ ms) (ls ++ ks) := by
  induction hn with
  | nil => exact hm
  | trivia hn _ ih => exact .trivia hn ih
  | member hk hfirst _ ih =>
    rw [List.append_assoc]
    exact .member hk hfirst ih

/-! ## Rows -/

/-- One layout for each node, if the nodes are laid out one after the other. -/
theorem forall₂_of_traversal {lay : Node → Except LayoutFault Node} {layAll : List Node → Except LayoutFault (List Node)}
    (hnil : layAll [] = .ok [])
    (hcons : ∀ n ns, layAll (n :: ns) = (lay n >>= fun l => layAll ns >>= fun ls => .ok (l :: ls))) :
    layAll ns = .ok ls ↔ List.Forall₂ (fun n l => lay n = .ok l) ns ls := by
  induction ns generalizing ls with
  | nil => rw [hnil, List.forall₂_nil_left_iff, Except.ok.injEq, eq_comm]
  | cons n ns ih =>
    rw [hcons, List.forall₂_cons_left_iff, except_bind_ok]
    simp only [except_bind_ok, ih, Except.ok.injEq]
    constructor
    · rintro ⟨l, hl, ls, hls, rfl⟩
      exact ⟨l, ls, hl, hls, rfl⟩
    · rintro ⟨l, ls, hl, hls, rfl⟩
      exact ⟨l, hl, ls, hls, rfl⟩

theorem layoutAll_cons (n : Node) (ns : List Node) :
    layoutAll (n :: ns) = (n.layout >>= fun first => layoutAll ns >>= fun others => .ok (first :: others)) := by
  conv_lhs => unfold layoutAll
  rfl

theorem layoutAll_eq_ok : layoutAll ns = .ok ls ↔ List.Forall₂ (fun n l => n.layout = .ok l) ns ls :=
  forall₂_of_traversal rfl layoutAll_cons

/-- The layout of an item of a struct member. -/
def layoutPart (n : Node) : Except LayoutFault Node :=
  if n.kind = .structKey then .ok (.structKey n.value n.span) else n.layout

theorem layoutPart_eq_ok : n.layoutPart = .ok l ↔ LaidPart (fun n l => n.layout = .ok l) n l := by
  unfold layoutPart
  constructor
  · intro h
    split at h
    · rename_i hk
      cases h
      exact .key hk
    · rename_i hk
      exact .other hk h
  · intro h
    cases h with
    | key hk => rw [if_pos hk]
    | other hk h => rw [if_neg hk, h]

theorem layoutMember_cons (n : Node) (ns : List Node) :
    layoutMember (n :: ns) =
      ((if n.kind = .structKey then .ok (.structKey n.value n.span) else layout n) >>= fun first =>
        layoutMember ns >>= fun others => .ok (first :: others)) := by
  conv_lhs => unfold layoutMember
  split <;> rfl

theorem layoutMember_eq_ok :
    layoutMember ns = .ok ls ↔ List.Forall₂ (LaidPart fun n l => n.layout = .ok l) ns ls := by
  have hparts : layoutMember ns = .ok ls ↔ List.Forall₂ (fun n l => n.layoutPart = .ok l) ns ls :=
    forall₂_of_traversal rfl layoutMember_cons
  simp only [hparts, layoutPart_eq_ok]

theorem layoutStruct_cons (n : Node) (ns : List Node) :
    layoutStruct (n :: ns) =
      ((if n.kind = .structMember then layoutMember n.items
        else if n.isComment || n.isNewlines then .ok [⟨n.label, []⟩]
        else .error (.insideStruct n.kind n.span)) >>= fun first =>
          layoutStruct ns >>= fun others => .ok (first ++ others)) := by
  obtain ⟨label, below⟩ := n
  conv_lhs => unfold layoutStruct
  by_cases hm : label.kind = .structMember
  · simp only [Node.kind, hm, if_true]
    rfl
  · by_cases hc : (label.kind.isComment || label.kind == .newlines) = true
    · simp only [Node.kind, hm, if_false, hc, if_true, Node.isComment, Node.isNewlines]
      rfl
    · simp only [Node.kind, hm, if_false, hc, Node.isComment, Node.isNewlines]
      rfl

theorem ne_structMember_of_trivia (h : n.isComment = true ∨ n.isNewlines = true) : n.kind ≠ .structMember := by
  intro hk
  simp [isComment, isNewlines, hk, Kind.isComment] at h

theorem layoutStruct_eq_ok :
    layoutStruct ns = .ok ls ↔ LaidItems (fun n l => n.layout = .ok l) ns ls := by
  induction ns generalizing ls with
  | nil =>
    rw [layoutStruct, Except.ok.injEq]
    constructor
    · rintro rfl
      exact .nil
    · intro h
      cases h
      rfl
  | cons n ns ih =>
    rw [layoutStruct_cons]
    constructor
    · intro h
      obtain ⟨first, hfirst, h⟩ := except_bind_ok.mp h
      obtain ⟨others, hothers, h⟩ := except_bind_ok.mp h
      cases h
      split at hfirst
      · rename_i hmember
        exact .member hmember (layoutMember_eq_ok.mp hfirst) (ih.mp hothers)
      · split at hfirst
        · rename_i htrivia
          cases hfirst
          exact .trivia (by simpa using htrivia) (ih.mp hothers)
        · contradiction
    · intro h
      cases h with
      | trivia hn h =>
        rw [if_neg (ne_structMember_of_trivia hn), if_pos (by simpa using hn), ih.mpr h]
        rfl
      | member hk hfirst h =>
        rw [if_pos hk, layoutMember_eq_ok.mpr hfirst, ih.mpr h]
        rfl

theorem layoutAll_append (hn : layoutAll ns = .ok ls) (hm : layoutAll ms = .ok ks) :
    layoutAll (ns ++ ms) = .ok (ls ++ ks) :=
  layoutAll_eq_ok.mpr (List.rel_append (layoutAll_eq_ok.mp hn) (layoutAll_eq_ok.mp hm))

theorem layoutMember_append (hn : layoutMember ns = .ok ls) (hm : layoutMember ms = .ok ks) :
    layoutMember (ns ++ ms) = .ok (ls ++ ks) :=
  layoutMember_eq_ok.mpr (List.rel_append (layoutMember_eq_ok.mp hn) (layoutMember_eq_ok.mp hm))

theorem layoutStruct_append (hn : layoutStruct ns = .ok ls) (hm : layoutStruct ms = .ok ks) :
    layoutStruct (ns ++ ms) = .ok (ls ++ ks) :=
  layoutStruct_eq_ok.mpr ((layoutStruct_eq_ok.mp hn).append (layoutStruct_eq_ok.mp hm))

/-! ## Nodes -/

/-- What a node is laid out as, and when it is. -/
theorem layout_eq_ok : n.layout = .ok l ↔ LaidBy (fun n l => n.layout = .ok l) n l := by
  constructor
  · intro h
    obtain ⟨label, items⟩ := n
    unfold layout at h
    split at h
    case h_1 hk =>
      obtain ⟨ls, hls, h⟩ := except_bind_ok.mp h
      cases h
      exact .form (by simp [hk]) (layoutAll_eq_ok.mp hls)
    case h_2 hk =>
      obtain ⟨ls, hls, h⟩ := except_bind_ok.mp h
      cases h
      exact .form (by simp [hk]) (layoutAll_eq_ok.mp hls)
    case h_3 hk =>
      obtain ⟨ls, hls, h⟩ := except_bind_ok.mp h
      cases h
      exact .struct hk (layoutStruct_eq_ok.mp hls)
    case h_4 hk =>
      obtain ⟨ls, hls, h⟩ := except_bind_ok.mp h
      split at h
      · contradiction
      · rename_i hfits
        cases h
        exact .clob hk (layoutAll_eq_ok.mp hls) (by simpa using hfits)
    case h_5 | h_6 | h_7 => contradiction
    case h_8 hlist hsexpr hstruct hclob hmember hkey hinvalid =>
      cases h
      refine .leaf ?_
      simp only [List.mem_cons, List.not_mem_nil, or_false, not_or]
      exact ⟨hinvalid, hmember, hkey, hlist, hsexpr, hstruct, hclob⟩
  · intro h
    cases h with
    | leaf hk =>
      unfold layout
      split <;> simp_all
    | form hk h =>
      unfold layout
      rcases List.mem_pair.mp hk with hk | hk <;> simp only [hk, layoutAll_eq_ok.mpr h] <;> rfl
    | struct hk h =>
      unfold layout
      simp only [hk, layoutStruct_eq_ok.mpr h]
      rfl
    | clob hk h hfits =>
      have hnone : ∀ ls : List Node, (∀ l ∈ ls, l.fitsClob = true) → ls.find? (fun l => !l.fitsClob) = none := by
        intro ls hfits
        simpa using hfits
      unfold layout
      simp only [hk, layoutAll_eq_ok.mpr h, bind, Except.bind, hnone _ hfits]
      rfl

/-- The layout of a node has its label. -/
theorem layout_label (h : n.layout = .ok l) : l.label = n.label := by
  cases layout_eq_ok.mp h <;> rfl

theorem layoutAll_labels (h : layoutAll ns = .ok ls) : ls.map label = ns.map label := by
  have hrow := layoutAll_eq_ok.mp h
  clear h
  induction hrow with
  | nil => rfl
  | cons hl _ ih => rw [List.map_cons, List.map_cons, layout_label hl, ih]

/-- Induction over trees in which a node may use what holds of its items and of the items of these:
the values of a struct are two steps below it. -/
theorem induct_items {P : Node → Prop} (h : ∀ n : Node, (∀ m ∈ n.items, P m ∧ ∀ k ∈ m.items, P k) → P n) (n : Node) :
    P n := by
  have hboth : P n ∧ ∀ m ∈ n.items, P m := by
    induction n using Node.induct with
    | h n ih => exact ⟨h n ih, fun m hm => (ih m hm).1⟩
  exact hboth.1

/-- Induction over layouts: what holds of a node and its layout if it holds of what stands in the
node holds of every tree and its layout. -/
theorem layout_induction {P : Node → Node → Prop} (h : ∀ n l, LaidBy P n l → P n l)
    (hl : n.layout = .ok l) : P n l := by
  induction n using induct_items generalizing l with
  | h n ih =>
    refine h n l ((layout_eq_ok.mp hl).imp (fun m hm l hl => (ih m hm).1 hl) ?_)
    exact fun m hm k hk l hl => (ih m hm).2 k hk hl

end Node

end FusionKit
