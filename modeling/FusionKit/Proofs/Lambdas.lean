import FusionKit.Proofs.Preservation
import FusionKit.Proofs.TidyTrees

/-!
# Lambdas

A lambda is an s-expression that is headed by a pipe and has a second one behind its arguments. Its
arguments are printed tightly between the pipes; so it is read back with the same items exactly if
there are arguments, no operator character starts the first one and the last one is no operator.
-/
set_option autoImplicit false

namespace FusionKit

namespace Node

/-- Whether a node is a symbol or a number without annotations. -/
def isWord (n : Node) : Bool :=
  n.isBare && n.items.isEmpty && (n.kind == .symbol || n.kind == .integer || n.kind == .real)

/-- Whether some items are those of a lambda: words, of which the first one and one more are pipes. -/
def isLambda (items : List Node) : Bool :=
  items.all isWord && items.head?.any isPipe && items.tail.countP isPipe == 1

/-- The arguments of a lambda stand in front of its second pipe. -/
def argumentsOf (items : List Node) : List Node := items.tail.takeWhile fun n => !n.isPipe

/-- Whether the arguments of a lambda are read apart from the pipes around them. -/
def standApart (arguments : List Node) : Bool :=
  (arguments.head?.any fun n => !n.isOperator && !n.isNegative) &&
    arguments.getLast?.any fun n => !n.isOperator

/-! ## Arguments and the pipes around them -/

variable {n p q : Node} {ns as bs : List Node}

theorem tighten_of_no_pipe (h : ∀ n ∈ ns, n.isPipe = false) : tighten ns = ns := by
  induction ns with
  | nil => rfl
  | cons n ns ih =>
    rw [tighten_cons_of_next, ih fun m hm => h m (by simp [hm])]
    exact fun m hm => h m (List.mem_cons_of_mem _ (List.mem_of_mem_head? hm))

/-- Behind arguments that end with no operator a pipe stays apart. -/
theorem tighten_arguments (hq : q.isPipe = true) (has : ∀ n ∈ as, n.isPipe = false)
    (hbs : ∀ n ∈ bs, n.isPipe = false) (hlast : ∀ n, as.getLast? = some n → n.isOperator = false) :
    tighten (as ++ q :: bs) = as ++ q :: bs := by
  induction as with
  | nil => rw [List.nil_append, tighten_cons_of_isPipe hq, tighten_of_no_pipe hbs]
  | cons a as ih =>
    cases as with
    | nil =>
      rw [List.cons_append, tighten_cons_of_not_isOperator (hlast a rfl), List.nil_append,
        tighten_cons_of_isPipe hq, tighten_of_no_pipe hbs]
    | cons b as =>
      rw [List.cons_append, tighten_cons_of_next, ih (fun n hn => has n (by simp [hn]))]
      · exact fun n hn => hlast n (by rw [List.getLast?_cons_cons, hn])
      · intro m hm
        obtain rfl : b = m := by simpa using hm
        exact has b (by simp)

/-- An operator at the end of the arguments is read together with the pipe. -/
theorem length_tighten_arguments (hq : q.isPipe = true) (has : ∀ n ∈ as, n.isPipe = false)
    (hlast : as.getLast? = some n) (hn : n.isOperator = true) :
    (tighten (as ++ q :: bs)).length < (as ++ q :: bs).length := by
  induction as with
  | nil => simp at hlast
  | cons a as ih =>
    cases as with
    | nil =>
      obtain rfl : a = n := by simpa using hlast
      have := length_tighten_le bs
      rw [List.cons_append, List.nil_append, tighten_join hq hn (has a (by simp))]
      simp only [List.length_cons]
      omega
    | cons b as =>
      have ih := ih (fun n hn => has n (by simp [hn])) (by rwa [List.getLast?_cons_cons] at hlast)
      rw [List.cons_append, tighten_cons_of_next]
      · simp only [List.length_cons] at ih ⊢
        omega
      · intro m hm
        obtain rfl : b = m := by simpa using hm
        exact has b (by simp)

/-! ## What is read of a lambda -/

/-- The items of a lambda, taken apart at its pipes. -/
structure LambdaParts (p : Node) (arguments : List Node) (q : Node) (body : List Node) : Prop where
  head : p.isPipe = true
  closing : q.isPipe = true
  words : ∀ n ∈ p :: (arguments ++ q :: body), n.isWord = true
  arguments : ∀ n ∈ arguments, n.isPipe = false
  body : ∀ n ∈ body, n.isPipe = false

theorem isWord_iff : n.isWord = true ↔
    n.isBare = true ∧ n.items = [] ∧ (n.kind = .symbol ∨ n.kind = .integer ∨ n.kind = .real) := by
  simp [isWord, and_assoc, or_assoc]

/-- A lambda is taken apart around its arguments. -/
theorem exists_lambdaParts (h : isLambda ns = true) :
    ∃ p q bs, ns = p :: (argumentsOf ns ++ q :: bs) ∧ LambdaParts p (argumentsOf ns) q bs := by
  simp only [isLambda, Bool.and_eq_true, List.all_eq_true, beq_iff_eq] at h
  obtain ⟨⟨hwords, hhead⟩, hcount⟩ := h
  cases ns with
  | nil => contradiction
  | cons p ms =>
    have hargs : ∀ n ∈ ms.takeWhile fun n => !n.isPipe, n.isPipe = false := fun n hn => by
      simpa using List.all_eq_true.mp List.all_takeWhile n hn
    have hms := List.takeWhile_append_dropWhile (p := fun n => !n.isPipe) (l := ms)
    rw [List.tail_cons, ← hms, List.countP_append, List.countP_eq_zero.mpr fun n hn => by simp [hargs n hn],
      Nat.zero_add] at hcount
    have hnot := List.head?_dropWhile_not (fun n => !n.isPipe) ms
    cases hrest : ms.dropWhile fun n => !n.isPipe with
    | nil => simp [hrest] at hcount
    | cons q bs =>
      rw [hrest] at hms hcount hnot
      have hq : q.isPipe = true := by simpa using hnot
      rw [List.countP_cons_of_pos hq] at hcount
      have hbody := List.countP_eq_zero.mp (Nat.succ.inj hcount)
      refine ⟨p, q, bs, by rw [argumentsOf, List.tail_cons, hms], by simpa using hhead, hq, ?_, hargs,
        fun n hn => by simpa using hbody n hn⟩
      rwa [argumentsOf, List.tail_cons, hms]

theorem isContent_of_isWord (h : n.isWord = true) : n.isContent = true := by
  obtain ⟨-, -, hk⟩ := isWord_iff.mp h
  unfold isContent isComment isNewlines
  rcases hk with hk | hk | hk <;> rw [hk] <;> rfl

theorem value_erased (h : n.kind ≠ .blob) : n.erased.value = n.value := by
  obtain ⟨label, items⟩ := n
  exact if_neg h

/-- Fewer items than there are words are not read as the words. -/
theorem erasedAll_ne_of_length_lt (h : ∀ n ∈ ns, n.isWord = true) {ms : List Node}
    (hlt : ms.length < ns.length) : erasedAll ms ≠ erasedAll ns := by
  intro heq
  have hlength := congrArg List.length heq
  rw [← countP_isContent_eq_erased, ← countP_isContent_eq_erased,
    List.countP_eq_length.mpr fun n hn => isContent_of_isWord (h n hn)] at hlength
  have := List.countP_le_length (p := isContent) (l := ms)
  omega

/-- A bare argument is read together with the pipe in front of it if it is an operator, and gives it
its minus sign if it has one. -/
theorem fuse_argument (hp : p.isPipe = true) {a : Node} (ha : a.isPipe = false) (hbare : a.isBare = true)
    (ns : List Node) : fuse (p :: a :: ns) =
      if a.isOperator then tighten (p.extended a.value :: ns)
      else if a.isNegative then p.extended (utf8 "-") :: tighten (a.unsigned :: ns)
      else p :: tighten (a :: ns) := by
  simp [fuse, hp, hbare, ha]

namespace LambdaParts

theorem argument {a : Node} (h : LambdaParts p (a :: as) q bs) : a.isPipe = false ∧ a.isBare = true :=
  ⟨h.arguments a (by simp), (isWord_iff.mp (h.words a (by simp))).1⟩

theorem barePipes (h : LambdaParts p as q bs) : BarePipes (p :: (as ++ q :: bs)) := by
  intro k ks hks _ m hm _
  have hmem : m ∈ (p :: (as ++ q :: bs)).filter isContent := hks ▸ List.mem_cons_of_mem _ hm
  have hbare := (isWord_iff.mp (h.words m (List.mem_filter.mp hmem).1)).1
  rwa [isBare, List.isEmpty_iff] at hbare

/-- Arguments that stand apart leave the lambda as it is. -/
theorem fuse_eq (h : LambdaParts p as q bs) (hapart : standApart as = true) :
    fuse (p :: (as ++ q :: bs)) = p :: (as ++ q :: bs) := by
  obtain ⟨hfirst, hlast⟩ := Bool.and_eq_true_iff.mp hapart
  have hrest := tighten_arguments h.closing h.arguments h.body fun n hn => by
    rwa [hn, Option.any_some, Bool.not_eq_true'] at hlast
  cases as with
  | nil => simp at hfirst
  | cons a as =>
    simp only [List.head?_cons, Option.any_some, Bool.and_eq_true, Bool.not_eq_true'] at hfirst
    rw [List.cons_append] at hrest ⊢
    rw [fuse_argument h.head h.argument.1 h.argument.2, hfirst.1, hfirst.2, hrest]
    rfl

/-- Arguments that do not are read together with a pipe. -/
theorem fuse_ne (h : LambdaParts p as q bs) (hapart : standApart as = false) :
    erasedAll (fuse (p :: (as ++ q :: bs))) ≠ erasedAll (p :: (as ++ q :: bs)) := by
  cases as with
  | nil =>
    -- the two pipes are one symbol
    apply erasedAll_ne_of_length_lt h.words
    have hbare := (isWord_iff.mp (h.words q (by simp))).1
    have := length_tighten_le bs
    rw [List.nil_append, fuse, if_neg (by simp [h.head]), if_neg (by simp [hbare]), if_pos h.closing]
    simp only [List.length_cons]
    omega
  | cons a as =>
    have hfuse := fuse_argument h.head h.argument.1 h.argument.2 (as ++ q :: bs)
    have hwords := h.words
    rw [List.cons_append] at hwords ⊢
    by_cases hop : a.isOperator = true
    · apply erasedAll_ne_of_length_lt hwords
      have := length_tighten_le (p.extended a.value :: (as ++ q :: bs))
      rw [hfuse, if_pos hop]
      simp only [List.length_cons] at this ⊢
      omega
    rw [if_neg hop] at hfuse
    by_cases hneg : a.isNegative = true
    · -- there are as many items, but the first one has the minus sign
      have hpop := isOperator_of_isPipe h.head
      have hkind : p.kind ≠ .blob := by
        intro hk
        simp [isOperator, hk] at hpop
      have hcontent := isContent_of_isOperator hpop
      rw [hfuse, if_pos hneg, erasedAll_content hcontent,
        erasedAll_content (n := p.extended (utf8 "-")) hcontent]
      intro heq
      have hvalue := congrArg Node.value (List.cons.inj heq).1
      rw [value_erased hkind, value_erased (n := p.extended (utf8 "-")) hkind] at hvalue
      change p.value ++ utf8 "-" = p.value at hvalue
      rw [value_of_isPipe h.head] at hvalue
      contradiction
    · rw [if_neg hneg] at hfuse
      obtain ⟨n, hn, hnop⟩ : ∃ n, (a :: as).getLast? = some n ∧ n.isOperator = true := by
        rw [Bool.not_eq_true] at hop hneg
        simpa [standApart, hop, hneg, List.getLast?_eq_some_getLast] using hapart
      apply erasedAll_ne_of_length_lt hwords
      have : (tighten (a :: as ++ q :: bs)).length < (a :: as ++ q :: bs).length :=
        length_tighten_arguments h.closing h.arguments hn hnop
      rw [hfuse, List.length_cons, List.length_cons]
      exact Nat.succ_lt_succ this

theorem erasedAll_fuse_iff (h : LambdaParts p as q bs) :
    erasedAll (fuse (p :: (as ++ q :: bs))) = erasedAll (p :: (as ++ q :: bs)) ↔ standApart as = true := by
  constructor
  · intro heq
    by_contra hapart
    exact h.fuse_ne (Bool.eq_false_iff.mpr hapart) heq
  · intro hapart
    rw [h.fuse_eq hapart]

/-! ## Lambdas as layout trees -/

end LambdaParts

theorem isCompound_of_isWord (h : n.isWord = true) : n.isCompound = false := by
  obtain ⟨-, -, hk⟩ := isWord_iff.mp h
  unfold isCompound
  rcases hk with hk | hk | hk <;> rw [hk] <;> rfl

theorem isNewlines_of_isWord (h : n.isWord = true) : n.isNewlines = false := by
  have := isContent_of_isWord h
  unfold isContent at this
  cases hn : n.isNewlines <;> simp_all

theorem endsTidy_of_isNewlines (h : ∀ n ∈ ns, n.isNewlines = false) (owned : Bool) :
    endsTidy owned ns = true := by
  fun_induction endsTidy owned ns with
  | case1 => rfl
  | case2 owned n => simp [h n (by simp)]
  | case3 owned n m ns ih => exact ih fun k hk => h k (List.mem_cons_of_mem _ hk)

/-- An s-expression of words on one line is tidy. -/
theorem tidy_words {label : Label} (h : ∀ n ∈ ns, n.isWord = true) : tidy ⟨label, ns⟩ = ⟨label, ns⟩ := by
  apply tidy_of_isTidy
  refine isTidy_iff.mpr fun _ => ⟨?_, fun n hn => isTidy_iff.mpr fun hc => ?_⟩
  · have hbreaks : ∀ n ∈ ns, n.isNewlines = false := fun n hn => isNewlines_of_isWord (h n hn)
    rw [hasTidyEdges, endsTidy_of_isNewlines hbreaks, Bool.and_true, Option.all_eq_true]
    intro n hn
    rw [hbreaks n (List.mem_of_mem_head? hn)]
    rfl
  · rw [isCompound_of_isWord (h n hn)] at hc
    contradiction

theorem layoutAll_words (h : ∀ n ∈ ns, n.isWord = true) : layoutAll ns = .ok ns := by
  refine layoutAll_eq_ok.mpr (List.forall₂_same.mpr fun n hn => layout_eq_ok.mpr ?_)
  obtain ⟨-, hitems, hk⟩ := isWord_iff.mp (h n hn)
  obtain ⟨label, items⟩ := n
  obtain rfl : items = [] := hitems
  refine .leaf ?_
  rcases hk with hk | hk | hk <;> rw [show label.kind = _ from hk] <;> decide

theorem hearAll_words (h : ∀ n ∈ ns, n.isWord = true) : hearAll ns = ns := by
  rw [hearAll_eq_map, List.map_congr_left (g := id), List.map_id]
  intro n hn
  obtain ⟨label, items⟩ := n
  obtain rfl : items = [] := (isWord_iff.mp (h _ hn)).2.1
  exact hear_leaf label

/-- Words suit every breadth. -/
theorem allSuit_words (S : Breadth) (inClob : Bool) (h : ∀ n ∈ ns, n.isWord = true) :
    AllSuit S inClob ns := by
  induction ns with
  | nil => trivial
  | cons n ns ih =>
    obtain ⟨-, hitems, hk⟩ := isWord_iff.mp (h n (by simp))
    obtain ⟨label, items⟩ := n
    obtain rfl : items = [] := hitems
    refine ⟨⟨fun _ => ?_, fun hs => ?_, trivial⟩, ih fun m hm => h m (by simp [hm])⟩
    · unfold Label.isSteady
      rcases hk with hk | hk | hk <;> rw [show label.kind = _ from hk]
    · rcases hk with hk | hk | hk <;> rw [show label.kind = _ from hk] at hs <;> contradiction

/-- Without items the content of a layout tree is that of the node. -/
theorem coreOf_leaves (h : ∀ n ∈ ns, n.items = []) : coreOf ns = erasedAll ns := by
  induction ns with
  | nil => rfl
  | cons n ns ih =>
    have hn : n.core = n.erased := by
      obtain ⟨label, items⟩ := n
      obtain rfl : items = [] := h ⟨label, items⟩ (by simp)
      rw [core, erased]
      split <;> rfl
    rw [coreOf, erasedAll, hn, ih fun m hm => h m (by simp [hm])]

end Node

/-- Words are laid out in every breadth. -/
theorem LaidIn.of_isWord {S S' : Breadth} {b : Bool} {n : Node} (h : LaidIn S b n) (hn : n.isWord = true) :
    LaidIn S' b n := by
  obtain ⟨-, -, hk⟩ := Node.isWord_iff.mp hn
  cases h with
  | scalar h =>
    cases h with
    | word hkind hw ha => exact .scalar (.word hkind hw ha)
    | string | long | blob => rcases hk with hk | hk | hk <;> contradiction
  | list | sexpr | struct | clob => rcases hk with hk | hk | hk <;> contradiction

/-! ## Formatting -/

section

variable {file source : Text} {label : Label} {items : List Node} {p q : Node} {as bs : List Node}

/-- An s-expression of words is laid out as it is. -/
theorem laid_of_words (h : parse file source = .ok [⟨label, items⟩]) (hk : label.kind = .sexpr)
    (hwords : ∀ n ∈ items, n.isWord = true) (hbare : Node.BarePipes items) :
    Node.layoutAll [⟨label, items⟩] = .ok [⟨label, items⟩] ∧
      LaidRow (LaidIn (.piped False)) .top [⟨label, items⟩] .top := by
  obtain ⟨tree, htree⟩ := parse_laysOut_in (.piped True) (P := True) h fun _ _ _ _ => trivial
  have hlaid : Node.layoutAll [⟨label, items⟩] = .ok [⟨label, items⟩] := by
    rw [Node.layoutAll_singleton, Node.layout, hk, Node.layoutAll_words hwords]
    rfl
  obtain rfl := Except.ok.inj (hlaid.symm.trans htree.laid)
  have hsteady : label.isSteady false = true := by
    unfold Label.isSteady
    rw [hk]
  have hrow := htree.row trivial
    ⟨⟨fun _ => hsteady, fun _ => hbare, Node.allSuit_words _ _ hwords⟩, trivial⟩
  refine ⟨hlaid, hrow.mono_mem fun n hn b hlaid => ?_⟩
  obtain rfl := List.mem_singleton.mp hn
  cases hlaid with
  | scalar hscalar =>
    cases hscalar with
    | @word type kind w span as hkind =>
      obtain rfl : kind = .sexpr := hk
      simp [wordKinds] at hkind
    | string | long | blob => contradiction
  | sexpr ha hitems hheads => exact .sexpr ha (hitems.mono_mem fun n hn b h => h.of_isWord (hwords n hn)) hheads
  | list | struct | clob => contradiction

theorem isContent_of_sexpr (hk : label.kind = .sexpr) (items : List Node) :
    Node.isContent ⟨label, items⟩ = true := by
  simp [Node.isContent, Node.isComment, Node.isNewlines, Node.kind, hk, Kind.isComment]

theorem erasedAll_sexpr (hk : label.kind = .sexpr) (items : List Node) :
    Node.erasedAll [⟨label, items⟩] = [⟨label.erased, Node.erasedAll items⟩] := by
  rw [Node.erasedAll_content (isContent_of_sexpr hk items), Node.erased, Node.erasedAll]

/-- What is heard of an s-expression of words. -/
theorem coreOf_heard_words (hk : label.kind = .sexpr) (hwords : ∀ n ∈ items, n.isWord = true)
    (s : Settings) : Node.coreOf (Node.hearAll (Node.arranged s [⟨label, items⟩])) =
      Node.erasedAll [⟨label, Node.fuse items⟩] := by
  have harranged : Node.arranged s [⟨label, items⟩] = [⟨label, items⟩] := by
    unfold Node.arranged
    rw [List.map_singleton, Node.tidy_words hwords, ite_self]
  have hleaves : ∀ n ∈ items, n.items = [] := fun n hn => (Node.isWord_iff.mp (hwords n hn)).2.1
  have hheard : Node.hearAll [⟨label, items⟩] = [⟨label, Node.fuse items⟩] := by
    rw [Node.hearAll, Node.hear, if_pos hk, Node.hearAll_words hwords]
    rfl
  rw [harranged, hheard, erasedAll_sexpr hk, Node.coreOf_content (isContent_of_sexpr hk _), Node.core,
    if_neg (by simp [hk]), Node.coreOf_leaves (Node.fuse_leaves hleaves)]
  rfl

/-- A formatted lambda is a program again, of what is read of its items when they are printed
tightly: they are the items of the lambda exactly if its arguments stand apart from the pipes. -/
theorem format_lambda (h : parse file source = .ok [⟨label, items⟩]) (hk : label.kind = .sexpr)
    (hlambda : Node.isLambda items = true) (s : Settings) (file' : Text) :
    ∃ out nodes', format s file source = .ok out ∧ parse file' out = .ok nodes' ∧
      Node.erasedAll nodes' = Node.erasedAll [⟨label, Node.fuse items⟩] ∧
      (Node.erasedAll nodes' = Node.erasedAll [⟨label, items⟩] ↔
        Node.standApart (Node.argumentsOf items) = true) := by
  obtain ⟨p, q, bs, hitems, hparts⟩ := Node.exists_lambdaParts hlambda
  have hread := hparts.erasedAll_fuse_iff
  have hwords := hparts.words
  have hbare := hparts.barePipes
  rw [← hitems] at hread hwords hbare
  obtain ⟨hlaid, hrow⟩ := laid_of_words h hk hwords hbare
  obtain ⟨out, nodes', hout, hparse, hnodes, -⟩ :=
    format_heard (Breadth.piped_fits (s := s) False.elim) h hlaid hrow (by simp [Node.Apart]) file'
  rw [coreOf_heard_words hk hwords] at hnodes
  refine ⟨out, nodes', hout, hparse, hnodes, ?_⟩
  rw [hnodes, erasedAll_sexpr hk, erasedAll_sexpr hk, ← hread]
  simp

end

theorem format_lambda_two : ∃ nodes out nodes', parse [] (utf8 "(| a -1 | + 'b')") = .ok nodes ∧
    format .default [] (utf8 "(| a -1 | + 'b')") = .ok out ∧ parse [] out = .ok nodes' ∧
    Node.erasedAll nodes' = Node.erasedAll nodes := by
  obtain ⟨nodes, hnodes, hparse⟩ := exists_ok_of_any
    (show ((parse [] (utf8 "(| a -1 | + 'b')")).toOption.any fun nodes =>
      nodes.length == 1 && nodes.all fun n =>
        n.kind == .sexpr && Node.isLambda n.items && Node.standApart (Node.argumentsOf n.items)) = true by
      decide +kernel)
  simp only [Bool.and_eq_true, beq_iff_eq, List.all_eq_true] at hparse
  obtain ⟨⟨label, items⟩, rfl⟩ := List.length_eq_one_iff.mp hparse.1
  obtain ⟨⟨hk, hlambda⟩, hapart⟩ := hparse.2 _ (List.mem_singleton.mpr rfl)
  obtain ⟨out, nodes', hout, hread, -, hkept⟩ := format_lambda hnodes hk hlambda .default []
  exact ⟨_, out, nodes', hnodes, hout, hread, hkept.mpr hapart⟩

/-- The pipes around no arguments are read as one symbol. -/
theorem format_joins_pipes :
    (parse [] (utf8 "(| | b)")).map (fun nodes => (Node.erasedAll nodes).map (·.items.map Node.value)) =
      .ok [[utf8 "|", utf8 "|", utf8 "b"]] ∧
    format .default [] (utf8 "(| | b)") = .ok (utf8 "(|| b)\n") ∧
    (parse [] (utf8 "(|| b)\n")).map (fun nodes => (Node.erasedAll nodes).map (·.items.map Node.value)) =
      .ok [[utf8 "||", utf8 "b"]] := by
  decide +kernel

end FusionKit
