import FusionKit.Proofs.Trees
import FusionKit.Proofs.Leading
import FusionKit.Proofs.Words

/-!
# The content of trees

What formatting has to keep of a tree: everything but comments, newline runs and places, with the
blanks left out that an annotation has in front of its colons and a blob between its characters;
and apart from that the texts of the line comments in their order. The content of a layout tree is
the content of the tree it was made from, its keys and values being paired again.
-/
set_option autoImplicit false

namespace FusionKit

namespace Text

/-- The name of an annotation, without the blanks and the colons after it. -/
def annotationName (a : Text) : Text := dropEndWhile isSpace (trimEnd (utf8 "::") a)

end Text

/-- A label without a place and without blanks that do not matter. -/
def Label.erased (l : Label) : Label :=
  { l with
    span := ⟨0, 0⟩
    annotations := l.annotations.map Text.annotationName
    value := if l.kind = .blob then l.value.filter (!Text.isSpace ·) else l.value }

namespace Node

mutual

/-- A node without comments, newline runs and places. -/
def erased : Node → Node
  | ⟨label, items⟩ => ⟨label.erased, erasedAll items⟩

/-- Some nodes without comments, newline runs and places. -/
def erasedAll : List Node → List Node
  | [] => []
  | n :: ns => if n.isContent then erased n :: erasedAll ns else erasedAll ns

end

mutual

/-- The texts of the line comments of a node. -/
def lineComments : Node → List Text
  | ⟨label, items⟩ => if label.kind = .commentLine then [label.value] else lineCommentsOf items

/-- The texts of the line comments of some nodes. -/
def lineCommentsOf : List Node → List Text
  | [] => []
  | n :: ns => lineComments n ++ lineCommentsOf ns

end

/-- Keys and values paired to members. -/
def paired : List Node → List Node
  | k :: v :: ns => ⟨{ kind := .structMember, span := ⟨0, 0⟩ }, [k, v]⟩ :: paired ns
  | _ => []

mutual

/-- The content of a layout tree, as that of the node it was made from. -/
def core : Node → Node
  | ⟨label, items⟩ =>
    ⟨label.erased, if label.kind = .struct then paired (coreOf items) else coreOf items⟩

/-- The contents of some layout trees. -/
def coreOf : List Node → List Node
  | [] => []
  | n :: ns => if n.isContent then core n :: coreOf ns else coreOf ns

end

mutual

/-- Whether no s-expression of a tree is headed by a pipe. -/
def pipeFree : Node → Bool
  | ⟨label, items⟩ =>
    (label.kind != .sexpr || (items.find? isContent).all (!·.isPipe)) && pipeFreeAll items

/-- Whether no s-expression of some trees is headed by a pipe. -/
def pipeFreeAll : List Node → Bool
  | [] => true
  | n :: ns => pipeFree n && pipeFreeAll ns

end

end Node

/-- Whether formatting leaves a text of a label as it is: no blanks of a long string or of a key
come before a line break, nor, outside of clobs, do blanks or a line break end a long string. -/
def Label.isSteady (inClob : Bool) (l : Label) : Bool :=
  match l.kind with
  | .multilineString =>
    (utf8 "'''" ++ l.value ++ utf8 "'''").settled == utf8 "'''" ++ l.value ++ utf8 "'''" &&
      (inClob || l.value.getLast?.all fun b => !List.contains [byte ' ', byte '\t', byte '\n'] b)
  | .structKey => l.value.settled == l.value
  | _ => true

namespace Node

mutual

/-- Whether a node can be laid out in a breadth, as the item of a clob or elsewhere. -/
def Suits (S : Breadth) (inClob : Bool) : Node → Prop
  | ⟨label, items⟩ =>
    (S.long → label.isSteady inClob = true) ∧ (label.kind = .sexpr → S.heads items) ∧
      AllSuit S (label.kind == .clob) items

/-- Whether some nodes can be laid out in a breadth. -/
def AllSuit (S : Breadth) (inClob : Bool) : List Node → Prop
  | [] => True
  | n :: ns => Suits S inClob n ∧ AllSuit S inClob ns

end

variable {n : Node} {ns ms : List Node}

theorem allSuit_append (S : Breadth) (inClob : Bool) (ns ms : List Node) :
    AllSuit S inClob (ns ++ ms) ↔ AllSuit S inClob ns ∧ AllSuit S inClob ms := by
  induction ns with
  | nil => simp [AllSuit]
  | cons n ns ih => rw [List.cons_append, AllSuit, AllSuit, ih, and_assoc]

mutual

/-- Where no s-expression is headed by a pipe, a tree suits the narrowest breadth. -/
theorem suits_of_pipeFree (inClob : Bool) : ∀ n : Node, pipeFree n = true → Suits .plain inClob n
  | ⟨label, items⟩, h => by
    rw [pipeFree, Bool.and_eq_true] at h
    refine ⟨False.elim, fun hk n hn => ?_, allSuit_of_pipeFreeAll _ items h.2⟩
    have hhead := h.1
    rw [hk, hn] at hhead
    simpa using hhead

theorem allSuit_of_pipeFreeAll (inClob : Bool) :
    ∀ ns : List Node, pipeFreeAll ns = true → AllSuit .plain inClob ns
  | [], _ => trivial
  | n :: ns, h => by
    rw [pipeFreeAll, Bool.and_eq_true] at h
    exact ⟨suits_of_pipeFree inClob n h.1, allSuit_of_pipeFreeAll inClob ns h.2⟩

end

theorem erasedAll_content (hn : n.isContent = true) :
    erasedAll (n :: ns) = erased n :: erasedAll ns := by
  rw [erasedAll, if_pos hn]

theorem erasedAll_skip (hn : n.isContent = false) : erasedAll (n :: ns) = erasedAll ns := by
  rw [erasedAll, hn]
  rfl

theorem coreOf_content (hn : n.isContent = true) : coreOf (n :: ns) = core n :: coreOf ns := by
  rw [coreOf, if_pos hn]

theorem coreOf_skip (hn : n.isContent = false) : coreOf (n :: ns) = coreOf ns := by
  rw [coreOf, hn]
  rfl

theorem erasedAll_append (ns ms : List Node) :
    erasedAll (ns ++ ms) = erasedAll ns ++ erasedAll ms := by
  induction ns with
  | nil => rfl
  | cons n ns ih =>
    rw [List.cons_append]
    cases hn : n.isContent with
    | true => rw [erasedAll_content hn, erasedAll_content hn, ih, List.cons_append]
    | false => rw [erasedAll_skip hn, erasedAll_skip hn, ih]

theorem coreOf_append (ns ms : List Node) : coreOf (ns ++ ms) = coreOf ns ++ coreOf ms := by
  induction ns with
  | nil => rfl
  | cons n ns ih =>
    rw [List.cons_append]
    cases hn : n.isContent with
    | true => rw [coreOf_content hn, coreOf_content hn, ih, List.cons_append]
    | false => rw [coreOf_skip hn, coreOf_skip hn, ih]

theorem lineCommentsOf_append (ns ms : List Node) :
    lineCommentsOf (ns ++ ms) = lineCommentsOf ns ++ lineCommentsOf ms := by
  induction ns with
  | nil => rfl
  | cons n ns ih => rw [List.cons_append, lineCommentsOf, lineCommentsOf, ih, List.append_assoc]

/-! ## What the labels tell -/

theorem isContent_of_label {m n : Node} (h : m.label = n.label) : m.isContent = n.isContent := by
  unfold isContent isComment isNewlines kind
  rw [h]

theorem map_of_labels {α : Type} {p : Node → α} (hp : ∀ m n : Node, m.label = n.label → p m = p n)
    (h : ms.map Node.label = ns.map Node.label) : ms.map p = ns.map p := by
  have hlabel : ∀ ks : List Node, ks.map p = (ks.map Node.label).map fun l => p ⟨l, []⟩ := by
    intro ks
    rw [List.map_map]
    exact List.map_congr_left fun n _ => hp n ⟨n.label, []⟩ rfl
  rw [hlabel, hlabel, h]

theorem filter_of_labels (h : ms.map Node.label = ns.map Node.label) :
    (ms.filter isContent).map Node.label = (ns.filter isContent).map Node.label := by
  have hlabel : ∀ ks : List Node, (ks.filter isContent).map Node.label =
      (ks.map Node.label).filter fun l => isContent ⟨l, []⟩ := by
    intro ks
    rw [List.filter_map]
    rfl
  rw [hlabel, hlabel, h]

/-! ## Trivia has no content -/

theorem erasedAll_trivia (h : ∀ n ∈ ns, n.IsTrivia) : erasedAll ns = [] := by
  induction ns with
  | nil => rfl
  | cons n ns ih =>
    rw [erasedAll_skip (h n (by simp)).isContent, ih fun m hm => h m (by simp [hm])]

theorem coreOf_trivia (h : ∀ n ∈ ns, n.isContent = false) : coreOf ns = [] := by
  induction ns with
  | nil => rfl
  | cons n ns ih => rw [coreOf_skip (h n (by simp)), ih fun m hm => h m (by simp [hm])]

/-! ## Places do not matter -/

theorem label_unplaced (n : Node) : n.unplaced.label = { n.label with span := ⟨0, 0⟩ } := by
  obtain ⟨label, items⟩ := n
  rfl

theorem isContent_unplaced (n : Node) : n.unplaced.isContent = n.isContent := by
  obtain ⟨label, items⟩ := n
  rfl

mutual

theorem core_unplaced : ∀ n : Node, n.unplaced.core = n.core
  | ⟨label, items⟩ => by
    rw [unplaced, core, core, coreOf_unplaced items]
    rfl

theorem coreOf_unplaced : ∀ ns : List Node, coreOf (unplacedAll ns) = coreOf ns
  | [] => rfl
  | n :: ns => by
    have hn := core_unplaced n
    have hns := coreOf_unplaced ns
    rw [unplacedAll, coreOf, coreOf, isContent_unplaced, hn, hns]

end

mutual

theorem lineComments_unplaced : ∀ n : Node, n.unplaced.lineComments = n.lineComments
  | ⟨label, items⟩ => by
    rw [unplaced, lineComments, lineComments, lineCommentsOf_unplaced items]

theorem lineCommentsOf_unplaced : ∀ ns : List Node,
    lineCommentsOf (unplacedAll ns) = lineCommentsOf ns
  | [] => rfl
  | n :: ns => by
    rw [unplacedAll, lineCommentsOf, lineCommentsOf, lineComments_unplaced n,
      lineCommentsOf_unplaced ns]

end

end Node

/-! ## Rereading keeps the content -/

namespace Text

theorem filter_settled (w : List Char) :
    (ofChars (FusionKit.settled w)).filter (!isSpace ·) = (ofChars w).filter (!isSpace ·) := by
  induction w with
  | nil => rfl
  | cons c w ih =>
    rw [FusionKit.settled]
    split
    · rename_i h
      have hc : Lexeme.isSpace c = true := by
        simp only [isInline, Bool.and_eq_true] at h
        exact h.1.1
      rw [ih, ofChars_cons_ascii (isSpace_lt hc), List.filter_cons_of_neg]
      simp [isSpace_byte hc]
    · rw [ofChars_cons, ofChars_cons, List.filter_append, List.filter_append, ih]

theorem annotationName_settled {a : Text} (h : ∃ w, a = ofChars w ∧ Lexeme.Spelling false .annotate w) :
    a.settled.annotationName = a.annotationName := by
  obtain ⟨w, rfl, hw⟩ := h
  obtain ⟨name, blanks, rfl, hname, hblanks⟩ := Lexeme.spelling_annotate hw
  obtain ⟨blanks', hsub, hsettled⟩ := Lexeme.settled_annotation hname blanks
  have hbare : ∀ bs : List Char, (∀ c ∈ bs, Lexeme.isSpace c = true) →
      annotationName (ofChars (name ++ bs ++ "::".toList)) = dropEndWhile isSpace (ofChars name) := by
    intro bs hbs
    rw [annotationName, ofChars_append, show ofChars "::".toList = utf8 "::" from rfl, trimEnd_append,
      dropEndWhile_spaces hbs]
  rw [settled_ofChars, hsettled, hbare _ fun c hc => hblanks c (hsub.subset hc), hbare _ hblanks]

end Text

theorem Label.erased_reread {l : Label} (ha : AnnotationTexts l.annotations)
    (hv : l.kind = .blob → ∃ w, l.value = Text.ofChars w) : l.reread.erased = l.erased := by
  have hannotations : (l.annotations.map Text.settled).map Text.annotationName =
      l.annotations.map Text.annotationName := by
    rw [List.map_map]
    exact List.map_congr_left fun a ha' => Text.annotationName_settled (ha a ha')
  unfold erased reread
  dsimp only
  rw [hannotations]
  split
  · rename_i hk
    obtain ⟨w, hw⟩ := hv hk
    rw [hw, Text.settled_ofChars, Text.filter_settled]
  · rfl

/-- The texts of the line comments among some signs. -/
def Sign.lineTexts (ss : List Sign) : List Text :=
  ss.flatMap fun s =>
    match s with
    | .line v => [v]
    | _ => []

namespace Node

theorem lineCommentsOf_flush (k : Nat) : lineCommentsOf (flush k) = [] := by
  unfold flush
  split <;> rfl

theorem lineCommentsOf_triviaFrom (k : Nat) (ss : List Sign) :
    lineCommentsOf (triviaFrom k ss) = Sign.lineTexts ss := by
  induction k, ss using triviaFrom.induct with
  | case1 k => exact lineCommentsOf_flush k
  | case2 k ss ih => rw [triviaFrom, ih]; rfl
  | case3 k v ss ih =>
    rw [triviaFrom, lineCommentsOf_append, lineCommentsOf_flush, lineCommentsOf, lineCommentsOf, ih]
    rfl
  | case4 k v ss hne ih =>
    rw [triviaFrom, lineCommentsOf_append, lineCommentsOf_flush, lineCommentsOf, ih]
    · rfl
    · exact hne
  | case5 k ls ss ih =>
    rw [triviaFrom, lineCommentsOf_append, lineCommentsOf_flush, lineCommentsOf, ih]
    rfl
  | case6 k type w ss ih => rw [triviaFrom, ih]; rfl

theorem triviaFrom_not_isContent (k : Nat) (ss : List Sign) :
    ∀ n ∈ triviaFrom k ss, n.isContent = false := by
  have hflush : ∀ k, ∀ n ∈ flush k, n.isContent = false := by
    intro k n hn
    unfold flush at hn
    split at hn
    · simp at hn
    · obtain rfl := List.mem_singleton.mp hn
      rfl
  intro n
  induction k, ss using triviaFrom.induct with
  | case1 k => exact hflush k n
  | case2 k ss ih => exact ih
  | case3 k v ss ih =>
    rw [triviaFrom, List.mem_append, List.mem_cons, List.mem_cons]
    rintro (h | rfl | rfl | h)
    · exact hflush k n h
    · rfl
    · rfl
    · exact ih h
  | case4 k v ss hne ih =>
    rw [triviaFrom, List.mem_append, List.mem_cons]
    · rintro (h | rfl | h)
      · exact hflush k n h
      · rfl
      · exact ih h
    · exact hne
  | case5 k ls ss ih =>
    rw [triviaFrom, List.mem_append, List.mem_cons]
    rintro (h | rfl | h)
    · exact hflush k n h
    · rfl
    · exact ih h
  | case6 k type w ss ih => exact ih

/-- What rereading has to keep of a tree. -/
structure Kept (n : Node) : Prop where
  core : n.reread.core = n.core
  comments : n.reread.lineComments = n.lineComments

theorem isContent_reread (n : Node) : n.reread.isContent = n.isContent := by
  obtain ⟨label, items⟩ := n
  rfl

theorem rereadFrom_kept {items : List Node} (h : ∀ n ∈ items, n.isContent = true → n.Kept)
    (hskip : ∀ n ∈ items, n.isContent = false → n.lineComments = Sign.lineTexts n.signs)
    (pending : List Sign) :
    coreOf (rereadFrom pending items) = coreOf items ∧
      lineCommentsOf (rereadFrom pending items) = Sign.lineTexts pending ++ lineCommentsOf items := by
  induction items generalizing pending with
  | nil =>
    rw [rereadFrom, trivia, lineCommentsOf_triviaFrom, coreOf_trivia (triviaFrom_not_isContent 0 pending)]
    exact ⟨rfl, (List.append_nil _).symm⟩
  | cons n ns ih =>
    have ih := ih (fun m hm => h m (by simp [hm])) (fun m hm => hskip m (by simp [hm]))
    cases hn : n.isContent with
    | true =>
      have hkept := h n (by simp) hn
      obtain ⟨hcore, hcomments⟩ := ih []
      rw [rereadFrom_content hn, coreOf_append, lineCommentsOf_append, trivia,
        coreOf_trivia (triviaFrom_not_isContent 0 pending), lineCommentsOf_triviaFrom,
        coreOf_content (by rw [isContent_reread, hn]), coreOf_content hn, lineCommentsOf, lineCommentsOf,
        hkept.core, hkept.comments, hcore, hcomments]
      exact ⟨rfl, rfl⟩
    | false =>
      obtain ⟨hcore, hcomments⟩ := ih (pending ++ n.signs)
      rw [rereadFrom_skip hn, coreOf_skip hn, lineCommentsOf, hcore, hcomments,
        hskip n (by simp) hn]
      refine ⟨rfl, ?_⟩
      simp [Sign.lineTexts]

end Node

/-- The items of a row keep their contents if its values do. -/
theorem LaidRow.kept {V : Bool → Node → Prop} {s t : Slot} {items : List Node}
    (h : LaidRow V s items t) (hV : ∀ b n, V b n → n.isContent = true ∧ n.Kept) (pending : List Sign) :
    Node.coreOf (Node.rereadFrom pending items) = Node.coreOf items ∧
      Node.lineCommentsOf (Node.rereadFrom pending items) =
        Sign.lineTexts pending ++ Node.lineCommentsOf items := by
  have hrun : ∀ k span, (Node.newlineRun k span).lineComments =
      Sign.lineTexts (Node.newlineRun k span).signs := by
    intro k span
    have hnil : Sign.lineTexts (List.replicate k .brk) = [] := by
      rw [Sign.lineTexts, List.flatMap_eq_nil_iff]
      intro s hs
      rw [List.eq_of_mem_replicate hs]
    rw [Node.signs_newlineRun, hnil]
    rfl
  refine Node.rereadFrom_kept (fun n hn hc => ?_) (fun n hn hc => ?_) pending
  · cases h.rowItem n hn with
    | newlines | line | block => contradiction
    | key => exact ⟨rfl, rfl⟩
    | value hm => exact (hV _ _ hm).2
    | string hm => cases hm <;> exact ⟨rfl, rfl⟩
  · cases h.rowItem n hn with
    | newlines => exact hrun _ _
    | line | block => rfl
    | key => contradiction
    | value hm =>
      rw [(hV _ _ hm).1] at hc
      contradiction
    | string hm =>
      rw [hm.isContent] at hc
      contradiction

/-- Rereading keeps the content of a value. -/
theorem LaidIn.kept {S : Breadth} {b : Bool} {n : Node} (h : LaidIn S b n) : n.Kept := by
  have hform : ∀ {kind : Kind} {span : Span} {as : List Text} {items : List Node}, AnnotationTexts as →
      kind ∈ [Kind.list, .sexpr, .struct, .clob] →
      Node.coreOf (Node.rereadFrom [] items) = Node.coreOf items ∧
        Node.lineCommentsOf (Node.rereadFrom [] items) = Node.lineCommentsOf items →
      Node.Kept ⟨{ kind, span, annotations := as }, items⟩ := by
    rintro kind span as items ha hk ⟨hcore, hcomments⟩
    have hblob : kind ≠ .blob ∧ kind ≠ .commentLine := by
      simp only [List.mem_cons, List.not_mem_nil, or_false] at hk
      rcases hk with rfl | rfl | rfl | rfl <;> decide
    constructor
    · rw [Node.reread, Node.core, Node.core, Label.erased_reread ha (fun hk => absurd hk hblob.1), hcore]
      rfl
    · rw [Node.reread, Node.lineComments, Node.lineComments, hcomments]
      simp [Label.reread, hblob.2]
  refine h.induct (P := fun _ n => n.Kept) ?_ ?_ ?_ ?_ ?_
  · intro b l h
    have ha : AnnotationTexts l.annotations ∧ (l.kind = .blob → ∃ w, l.value = Text.ofChars w) ∧
        l.kind ≠ .commentLine := by
      cases h with
      | word hk _ ha =>
        simp only [wordKinds, List.mem_cons, Prod.mk.injEq, List.not_mem_nil, or_false] at hk
        rcases hk with ⟨-, rfl⟩ | ⟨-, rfl⟩ | ⟨-, rfl⟩ | ⟨-, rfl⟩ | ⟨-, rfl⟩ | ⟨-, rfl⟩ | ⟨-, rfl⟩ |
          ⟨-, rfl⟩ <;> exact ⟨ha, by simp, by simp⟩
      | string _ ha => exact ⟨ha, by simp, by simp⟩
      | long _ _ _ ha => exact ⟨ha, by simp, by simp⟩
      | blob _ ha => exact ⟨ha, fun _ => ⟨_, rfl⟩, by simp⟩
    constructor
    · rw [Node.reread, Node.core, Node.core, Label.erased_reread ha.1 ha.2.1]
      rfl
    · rw [Node.reread, Node.lineComments, Node.lineComments]
      simp [Label.reread, ha.2.2]
      rfl
  · intro b span as items ha h
    exact hform ha (by simp) (h.kept (fun _ _ h => ⟨h.1.isContent, h.2⟩) [])
  · intro b span as items ha h _
    exact hform ha (by simp) (h.kept (fun _ _ h => ⟨h.1.isContent, h.2⟩) [])
  · intro b span as items ha h
    exact hform ha (by simp) (h.kept (fun _ _ h => ⟨h.1.isContent, h.2⟩) [])
  · intro b span as items ha h _
    exact hform ha (by simp) (h.kept (fun _ _ h => ⟨h.1.isContent, h.2⟩) [])

end FusionKit
