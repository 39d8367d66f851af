import FusionKit.Proofs.Preservation

/-!
# Long strings keep their contents

Where the settings leave the contents of long strings alone, formatting keeps them, unless blanks
stand at the end of a line of theirs, or they end in a line break: the closing quotes are put under the
opening ones. The contents are those of the program that is heard of the printed tree, and nothing that
is read together at a pipe is a long string.
-/
set_option autoImplicit false

namespace FusionKit

namespace Node

mutual

/-- The contents of the long strings of a node. -/
def longStrings : Node → List Text
  | ⟨label, items⟩ => if label.kind = .multilineString then [label.value] else longStringsOf items

/-- The contents of the long strings of some nodes. Comments and newline runs have none. -/
def longStringsOf : List Node → List Text
  | [] => []
  | n :: ns => (if n.isContent then longStrings n else []) ++ longStringsOf ns

end

/-! ## What changes no long strings -/

variable {n : Node} {ns ms : List Node}

theorem longStringsOf_content (hn : n.isContent = true) (ns : List Node) :
    longStringsOf (n :: ns) = longStrings n ++ longStringsOf ns := by
  rw [longStringsOf, if_pos hn]

theorem longStringsOf_skip (hn : n.isContent = false) (ns : List Node) :
    longStringsOf (n :: ns) = longStringsOf ns := by
  rw [longStringsOf, hn]
  rfl

theorem longStrings_leaf (hi : n.items = []) (hk : n.kind ≠ .multilineString) : n.longStrings = [] := by
  obtain ⟨label, items⟩ := n
  obtain rfl : items = [] := hi
  rw [longStrings, if_neg hk]
  rfl

theorem longStringsOf_leaf (hi : n.items = []) (hk : n.kind ≠ .multilineString) (ns : List Node) :
    longStringsOf (n :: ns) = longStringsOf ns := by
  rw [longStringsOf, longStrings_leaf hi hk]
  split <;> rfl

theorem isContent_erased (n : Node) : n.erased.isContent = n.isContent := by
  obtain ⟨label, items⟩ := n
  rfl

mutual

theorem longStrings_erased : ∀ n : Node, n.erased.longStrings = n.longStrings
  | ⟨label, items⟩ => by
    rw [erased, longStrings, longStrings, longStringsOf_erasedAll items]
    by_cases hk : label.kind = .multilineString
    · rw [if_pos hk, if_pos (show label.erased.kind = .multilineString from hk), Label.erased,
        if_neg (by simp [hk])]
    · rw [if_neg hk, if_neg (show ¬ label.erased.kind = .multilineString from hk)]

theorem longStringsOf_erasedAll : ∀ ns : List Node, longStringsOf (erasedAll ns) = longStringsOf ns
  | [] => rfl
  | n :: ns => by
    cases hn : n.isContent with
    | true =>
      rw [erasedAll_content hn, longStringsOf_content hn, longStringsOf_content ((isContent_erased n).trans hn),
        longStrings_erased n, longStringsOf_erasedAll ns]
    | false => rw [erasedAll_skip hn, longStringsOf_skip hn, longStringsOf_erasedAll ns]

end

/-- Keys and values that are paired are all still there. -/
theorem longStringsOf_paired : ∀ ns : List Node, ns.length % 2 = 0 → longStringsOf (paired ns) = longStringsOf ns
  | [], _ => rfl
  | [n], h => by simp at h
  | k :: v :: ns, h => by
    have ih := longStringsOf_paired ns (by simp only [List.length_cons] at h; omega)
    rw [paired, longStringsOf_content rfl, longStrings, if_neg (by simp), ih]
    simp only [longStringsOf, List.append_nil, List.append_assoc]

theorem longStringsOf_map {f : Node → Node} (hcontent : ∀ n, (f n).isContent = n.isContent)
    (h : ∀ n ∈ ns, n.isContent = true → (f n).longStrings = n.longStrings) :
    longStringsOf (ns.map f) = longStringsOf ns := by
  induction ns with
  | nil => rfl
  | cons n ns ih =>
    have ih := ih fun m hm => h m (by simp [hm])
    cases hn : n.isContent with
    | true =>
      rw [List.map_cons, longStringsOf_content hn, longStringsOf_content ((hcontent n).trans hn),
        h n (by simp) hn, ih]
    | false => rw [List.map_cons, longStringsOf_skip hn, longStringsOf_skip ((hcontent n).trans hn), ih]

theorem longStringsOf_filter (ns : List Node) : longStringsOf (ns.filter isContent) = longStringsOf ns := by
  induction ns with
  | nil => rfl
  | cons n ns ih =>
    cases hn : n.isContent with
    | true => rw [List.filter_cons_of_pos hn, longStringsOf_content hn, longStringsOf_content hn, ih]
    | false => rw [List.filter_cons_of_neg (by simp [hn]), longStringsOf_skip hn, ih]

theorem longStringsOf_coreOf (h : ∀ n ∈ ns, n.isContent = true → n.core.longStrings = n.longStrings) :
    longStringsOf (coreOf ns) = longStringsOf ns := by
  rw [coreOf_eq_map, longStringsOf_map, longStringsOf_filter]
  · rintro ⟨label, items⟩
    rfl
  · exact fun n hn => h n (List.mem_filter.mp hn).1

/-- Nothing that is read together with a pipe is a long string. -/
theorem longStringsOf_tighten (h : ∀ n ∈ ns, n.isOperator = true → n.items = []) :
    longStringsOf (tighten ns) = longStringsOf ns := by
  fun_induction tighten ns with
  | case1 n m ns hjoin ih =>
    simp only [Bool.and_eq_true] at hjoin
    have hn := hjoin.1.2
    have hm := isOperator_of_isPipe hjoin.1.1
    rw [longStringsOf_leaf (n := n.extended m.value) (h n (by simp) hn) (kind_of_isOperator (n := n) hn),
      longStringsOf_leaf (h n (by simp) hn) (kind_of_isOperator hn),
      longStringsOf_leaf (h m (by simp) hm) (kind_of_isOperator hm), ih fun k hk => h k (by simp [hk])]
  | case2 n m ns hjoin ih => rw [longStringsOf, longStringsOf, ih fun k hk => h k (by simp [hk])]
  | case3 ns hns => rfl

theorem longStringsOf_fuse (h : ∀ n ∈ ns, n.isOperator = true → n.items = [])
    (hneg : ∀ n ∈ ns, n.isNegative = true → n.items = []) :
    longStringsOf (fuse ns) = longStringsOf ns := by
  match ns with
  | [] => rfl
  | [p] => rfl
  | p :: n :: ns =>
    have hrest : longStringsOf (tighten (n :: ns)) = longStringsOf (n :: ns) :=
      longStringsOf_tighten fun k hk => h k (List.mem_cons_of_mem _ hk)
    have hns : longStringsOf (tighten ns) = longStringsOf ns :=
      longStringsOf_tighten fun k hk => h k (by simp [hk])
    by_cases hp : p.isPipe = true
    · have hpop := isOperator_of_isPipe hp
      have hpleaf := h p (by simp) hpop
      have hpkind := kind_of_isOperator hpop
      have hjoined : ∀ (t : Text) (ms : List Node), longStringsOf (p.extended t :: ms) = longStringsOf ms :=
        fun t ms => longStringsOf_leaf (n := p.extended t) hpleaf hpkind ms
      rw [fuse, if_neg (by simp [hp]), longStringsOf_leaf hpleaf hpkind]
      split_ifs with hbare hpipe hop hsign
      · rw [longStringsOf_leaf hpleaf hpkind, hrest]
      · have hn := isOperator_of_isPipe hpipe
        rw [hjoined, hns, longStringsOf_leaf (h n (by simp) hn) (kind_of_isOperator hn)]
      · rw [longStringsOf_tighten, hjoined, longStringsOf_leaf (h n (by simp) hop) (kind_of_isOperator hop)]
        intro k hk hkop
        rcases List.mem_cons.mp hk with rfl | hk
        · exact hpleaf
        · exact h k (by simp [hk]) hkop
      · have hkind : n.kind ≠ .multilineString := by
          intro hk
          simp [isNegative, hk] at hsign
        have hleaf : n.unsigned.items = [] := hneg n (by simp) hsign
        rw [hjoined, longStringsOf_tighten, longStringsOf_leaf (n := n.unsigned) hleaf hkind,
          longStringsOf_leaf (n := n) hleaf hkind]
        intro k hk hkop
        rcases List.mem_cons.mp hk with rfl | hk
        · exact hleaf
        · exact h k (by simp [hk]) hkop
      · rw [longStringsOf_leaf hpleaf hpkind, hrest]
    · rw [fuse, if_pos (by simpa using hp)]

end Node

/-! ## Layout trees -/

namespace LaidRow

variable {V : Bool → Node → Prop} {s t : Slot} {items : List Node}

/-- An item of a row is a value of it or has no items. -/
theorem value_or_leaf (h : LaidRow V s items t) : ∀ n ∈ items, (∃ b, V b n) ∨ ∃ l, n = ⟨l, []⟩ := by
  intro n hn
  cases h.rowItem n hn with
  | newlines | line | block | key => exact .inr ⟨_, rfl⟩
  | value hm => exact .inl ⟨_, hm⟩
  | string hm => exact .inr hm.exists_leaf

/-- In a struct keys and values take turns. -/
theorem length_coreOf (h : LaidRow V s items t) (hV : ∀ b n, V b n → n.isContent = true) (ht : t = .key)
    (hs : s = .key ∨ s = .value) : (Node.coreOf items).length % 2 = if s = .value then 1 else 0 := by
  induction h with
  | nil s =>
    subst ht
    rfl
  | newlines _ _ ih => exact ih ht hs
  | line _ _ _ _ ih => exact ih ht hs
  | block _ _ _ ih => exact ih ht hs
  | key hv _ ih =>
    have ih := ih ht (.inr rfl)
    rw [if_pos rfl] at ih
    rw [Node.coreOf_content rfl, List.length_cons, if_neg (by simp)]
    omega
  | @value s s' t n ns hs' hn h ih =>
    rcases hs with rfl | rfl
    · simp [Slot.afterValue?] at hs'
    · obtain rfl : Slot.key = s' := Option.some.inj hs'
      have ih := ih ht (.inl rfl)
      rw [if_neg (by simp)] at ih
      rw [Node.coreOf_content (hV _ _ hn), List.length_cons, if_pos rfl]
      omega
  | string => rcases hs with hs | hs <;> contradiction

end LaidRow

namespace LaidIn

variable {S : Breadth} {b : Bool} {n : Node}

theorem core_longStrings_leaf (l : Label) : (Node.core ⟨l, []⟩).longStrings = Node.longStrings ⟨l, []⟩ := by
  rw [Node.core, Node.longStrings, Node.longStrings]
  by_cases hk : l.kind = .multilineString
  · rw [if_pos (show l.erased.kind = .multilineString from hk), if_pos hk, Label.erased,
      if_neg (by simp [hk])]
  · rw [if_neg (show ¬ l.erased.kind = .multilineString from hk), if_neg hk]
    split <;> rfl

/-- The items of a row have the long strings of their content. -/
theorem longStringsOf_core {s t : Slot} {items : List Node}
    (h : LaidRow (fun _ n => n.core.longStrings = n.longStrings) s items t) :
    Node.longStringsOf (Node.coreOf items) = Node.longStringsOf items := by
  refine Node.longStringsOf_coreOf fun n hn _ => ?_
  rcases h.value_or_leaf n hn with ⟨-, hn⟩ | ⟨l, rfl⟩
  · exact hn
  · exact core_longStrings_leaf l

/-- The content of a layout tree has its long strings. -/
theorem core_longStrings (h : LaidIn S b n) : n.core.longStrings = n.longStrings := by
  refine h.induct (P := fun _ n => n.core.longStrings = n.longStrings) ?_ ?_ ?_ ?_ ?_
  · exact fun _ l _ => core_longStrings_leaf l
  · intro b span as items _ h
    exact longStringsOf_core (h.mono fun _ _ h => h.2)
  · intro b span as items _ h _
    exact longStringsOf_core (h.mono fun _ _ h => h.2)
  · intro b span as items _ h
    have hlength := h.length_coreOf (fun _ _ h => h.1.isContent) rfl (.inl rfl)
    have hcore := longStringsOf_core (h.mono fun _ _ h => h.2)
    rw [Node.core, if_pos rfl, Node.longStrings, if_neg (by simp [Label.erased]), Node.longStrings,
      if_neg (by simp), Node.longStringsOf_paired _ hlength, hcore]
  · intro b span as items _ h _
    exact longStringsOf_core (h.mono fun _ _ h => h.2)

/-- Items that are heard have the long strings of the items. -/
theorem longStringsOf_hear {s t : Slot} {items : List Node}
    (h : LaidRow (fun _ n => n.hear.longStrings = n.longStrings) s items t) :
    Node.longStringsOf (Node.hearAll items) = Node.longStringsOf items := by
  rw [Node.hearAll_eq_map]
  refine Node.longStringsOf_map Node.isContent_hear fun n hn _ => ?_
  rcases h.value_or_leaf n hn with ⟨-, hn⟩ | ⟨l, rfl⟩
  · exact hn
  · rw [Node.hear_leaf]

/-- What is heard of a layout tree has its long strings. -/
theorem hear_longStrings (h : LaidIn S b n) : n.hear.longStrings = n.longStrings := by
  refine h.induct (P := fun _ n => n.hear.longStrings = n.longStrings) ?_ ?_ ?_ ?_ ?_
  · exact fun _ l _ => by rw [Node.hear_leaf]
  · intro b span as items _ h
    rw [Node.hear]
    exact longStringsOf_hear (h.mono fun _ _ h => h.2)
  · intro b span as items _ h _
    have hrow : LaidRow (LaidIn .all) .sexpr (Node.hearAll items) .sexpr := h.hearAll fun _ _ h => h.1.hear
    have hitems := longStringsOf_hear (h.mono fun _ _ h => h.2)
    rw [Node.hear, if_pos rfl, Node.longStrings, if_neg (by simp), Node.longStrings, if_neg (by simp),
      Node.longStringsOf_fuse, hitems]
    · intro n hn hop
      rcases hrow.value_or_leaf n hn with ⟨b, hlaid⟩ | ⟨l, rfl⟩
      · obtain ⟨v, span, as, rfl, -⟩ := hlaid.of_isOperator hop
        rfl
      · rfl
    · intro n hn hneg
      rcases hrow.value_or_leaf n hn with ⟨b, hlaid⟩ | ⟨l, rfl⟩
      · obtain ⟨type, kind, v, span, as, rfl, -⟩ := hlaid.of_isNegative hneg
        rfl
      · rfl
  · intro b span as items _ h
    rw [Node.hear]
    exact longStringsOf_hear (h.mono fun _ _ h => h.2)
  · intro b span as items _ h _
    rw [Node.hear]
    exact longStringsOf_hear (h.mono fun _ _ h => h.2)

end LaidIn

/-! ## Formatting -/

/-- Formatting keeps the contents of long strings where it is set to, if they have no blanks at the
ends of their lines and, outside of clobs, end in no line break. -/
theorem format_keeps_long_strings {file source : Text} {nodes : List Node}
    (h : parse file source = .ok nodes) (hapart : Node.Apart nodes)
    (hsteady : Node.areSteady false nodes = true) (hpipes : Node.barePipesAll nodes = true)
    {s : Settings} (hs : s.formatLongStrings = false) (file' : Text) :
    ∃ out nodes', format s file source = .ok out ∧ parse file' out = .ok nodes' ∧
      Node.longStringsOf nodes' = Node.longStringsOf nodes := by
  obtain ⟨S, items, out, nodes', hout, hparse, hformatted⟩ := format_steady h hapart hpipes (fun _ => ⟨hs, hsteady⟩) file'
  refine ⟨out, nodes', hout, hparse, ?_⟩
  have hheard : LaidRow (LaidIn .all) .top (Node.hearAll items) .top := hformatted.row.hearAll fun _ _ h => h.hear
  calc Node.longStringsOf nodes'
    _ = Node.longStringsOf (Node.coreOf (Node.hearAll items)) := by
      rw [← Node.longStringsOf_erasedAll, hformatted.heard]
    _ = Node.longStringsOf (Node.hearAll items) := LaidIn.longStringsOf_core (hheard.mono fun _ _ h => h.core_longStrings)
    _ = Node.longStringsOf items := LaidIn.longStringsOf_hear (hformatted.row.mono fun _ _ h => h.hear_longStrings)
    _ = Node.longStringsOf (Node.coreOf items) :=
      (LaidIn.longStringsOf_core (hformatted.row.mono fun _ _ h => h.core_longStrings)).symm
    _ = Node.longStringsOf nodes := by rw [hformatted.core, Node.longStringsOf_erasedAll]

theorem format_keeps_long_strings_clob : ∃ nodes out nodes',
    parse [] (utf8 "(| x | '''a\n  b''' \x7b\x7b '''c ''' \x7d\x7d)") = .ok nodes ∧
    format { Settings.default with formatLongStrings := false } []
      (utf8 "(| x | '''a\n  b''' \x7b\x7b '''c ''' \x7d\x7d)") = .ok out ∧
    parse [] out = .ok nodes' ∧ Node.longStringsOf nodes' = Node.longStringsOf nodes ∧
    Node.longStringsOf nodes = [utf8 "a\n  b", utf8 "c "] := by
  obtain ⟨nodes, hnodes, hparse⟩ := exists_ok_of_any
    (show ((parse [] (utf8 "(| x | '''a\n  b''' \x7b\x7b '''c ''' \x7d\x7d)")).toOption.any fun nodes =>
      decide (Node.Apart nodes) && Node.areSteady false nodes && Node.barePipesAll nodes &&
        decide (Node.longStringsOf nodes = [utf8 "a\n  b", utf8 "c "])) = true by decide +kernel)
  simp only [Bool.and_eq_true, decide_eq_true_eq] at hparse
  obtain ⟨⟨⟨hapart, hsteady⟩, hpipes⟩, hlong⟩ := hparse
  obtain ⟨out, nodes', hout, hparse, hkept⟩ := format_keeps_long_strings hnodes hapart hsteady hpipes
    (s := { Settings.default with formatLongStrings := false }) rfl []
  exact ⟨nodes, out, nodes', hnodes, hout, hparse, hkept, hlong⟩

/-- The closing quotes are put under the opening ones, also where the settings leave the contents alone. -/
theorem format_indents_long_strings :
    (parse [] (utf8 "('''a\n''')")).map (fun nodes => (decide (Node.Apart nodes), Node.longStringsOf nodes)) =
      .ok (true, [utf8 "a\n"]) ∧
    format { Settings.default with formatLongStrings := false } [] (utf8 "('''a\n''')") =
      .ok (utf8 "('''a\n ''')\n") ∧
    (parse [] (utf8 "('''a\n ''')\n")).map Node.longStringsOf = .ok [utf8 "a\n "] := by
  decide +kernel

-- Nor is a blank in front of the closing quotes left alone: without the one here the backslash escapes a quote.
example : format { Settings.default with formatLongStrings := false } [] (utf8 "'''a\\ '''") =
    .ok (utf8 "'''a\\'''\n") ∧ (parse [] (utf8 "'''a\\'''\n")).isOk = false := by
  decide +kernel

end FusionKit
