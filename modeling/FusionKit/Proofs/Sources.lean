import FusionKit.Layout
import FusionKit.Node.Parse
import FusionKit.Proofs.Content
import FusionKit.Proofs.Scanning
import FusionKit.Proofs.Steps
import FusionKit.Proofs.Tiling

/-!
# Sources have well-formed layout trees

Whatever is read of a source is laid out, and the layout has the content and the line comments of
what was read. Where no long strings are read and no s-expression is headed by a pipe, it is
well-formed in the sense of `Laid`.

Each step of the reading extends the innermost frame by items of which this is known already; the
invariant of a reading says it of the items of every open form.
-/
set_option autoImplicit false

namespace FusionKit

open Lexeme (Spelling QuoteBody LongBody CommentBody isSpace fixedSpellings)

/-! ## Nodes and their layout -/

/-- There are no clobs before or after a value. -/
theorem Slot.ne_clob_of_afterValue? {s t : Slot} (h : s.afterValue? = some t) :
    (s == .clob) = false ∧ (t == .clob) = false := by
  cases s <;> simp [afterValue?] at h <;> subst h <;> exact ⟨rfl, rfl⟩

namespace Node

/-- Nodes `ns` and their layout `ls`, a row from one slot to another where `P` holds and all nodes
suit a breadth. -/
structure LaysOut (S : Breadth) (P : Prop) (lay : List Node → Except LayoutFault (List Node)) (s t : Slot)
    (ns ls : List Node) : Prop where
  laid : lay ns = .ok ls
  row : P → AllSuit S (s == .clob) ns → LaidRow (LaidIn S) s ls t
  clob : (s == .clob) = (t == .clob)
  labels : ls.map Node.label = ns.map Node.label
  core : coreOf ls = erasedAll ns
  comments : lineCommentsOf ls = lineCommentsOf ns

/-- A value and its layout. -/
structure LaysValue (S : Breadth) (P : Prop) (b : Bool) (n l : Node) : Prop where
  laid : n.layout = .ok l
  value : P → n.Suits S false → LaidIn S b l
  isValue : n.isValue = true
  label : l.label = n.label
  core : l.core = n.erased
  comments : l.lineComments = n.lineComments

/-- Members of a struct, with comments and newline runs between them, and their layout. -/
structure LaysStruct (S : Breadth) (P : Prop) (ns ls : List Node) : Prop where
  laid : layoutStruct ns = .ok ls
  row : P → AllSuit S false ns → LaidRow (LaidIn S) .key ls .key
  core : ∀ rest, paired (coreOf ls ++ rest) = erasedAll ns ++ paired rest
  comments : lineCommentsOf ls = lineCommentsOf ns

variable {S : Breadth} {P : Prop} {lay : List Node → Except LayoutFault (List Node)} {s t u : Slot}
  {n l : Node} {ns ms ls ks : List Node}

theorem LaysOut.append
    (hlay : ∀ {ns ms ls ks : List Node}, lay ns = .ok ls → lay ms = .ok ks → lay (ns ++ ms) = .ok (ls ++ ks))
    (h : LaysOut S P lay s t ns ls) (h' : LaysOut S P lay t u ms ks) : LaysOut S P lay s u (ns ++ ms) (ls ++ ks) where
  laid := hlay h.laid h'.laid
  row hP hsuit := by
    rw [allSuit_append] at hsuit
    exact (h.row hP hsuit.1).append (h'.row hP (h.clob ▸ hsuit.2))
  clob := h.clob.trans h'.clob
  labels := by rw [List.map_append, List.map_append, h.labels, h'.labels]
  core := by rw [coreOf_append, erasedAll_append, h.core, h'.core]
  comments := by rw [lineCommentsOf_append, lineCommentsOf_append, h.comments, h'.comments]

theorem LaysStruct.append (h : LaysStruct S P ns ls) (h' : LaysStruct S P ms ks) :
    LaysStruct S P (ns ++ ms) (ls ++ ks) where
  laid := layoutStruct_append h.laid h'.laid
  row hP hsuit := by
    rw [allSuit_append] at hsuit
    exact (h.row hP hsuit.1).append (h'.row hP hsuit.2)
  core rest := by rw [coreOf_append, List.append_assoc, h.core, h'.core, erasedAll_append, List.append_assoc]
  comments := by rw [lineCommentsOf_append, lineCommentsOf_append, h.comments, h'.comments]

theorem laysOut_trivia (hlay : lay ns = .ok ns) (hns : ∀ n ∈ ns, n.IsTrivia)
    (hrow : P → LaidRow (LaidIn S) s ns s) : LaysOut S P lay s s ns ns where
  laid := hlay
  row hP _ := hrow hP
  clob := rfl
  labels := rfl
  core := by rw [erasedAll_trivia hns, coreOf_trivia fun n hn => (hns n hn).isContent]
  comments := rfl

theorem laysStruct_trivia (hns : ∀ n ∈ ns, n.IsTrivia) (hrow : P → LaidRow (LaidIn S) .key ns .key) :
    LaysStruct S P ns ns where
  laid := layoutStruct_trivia hns
  row hP _ := hrow hP
  core rest := by rw [erasedAll_trivia hns, coreOf_trivia fun n hn => (hns n hn).isContent]; rfl
  comments := rfl

theorem LaysValue.isContent {b : Bool} (h : LaysValue S P b n l) : n.isContent = true := by
  have := h.isValue
  simp only [Node.isValue, Bool.and_eq_true] at this
  exact this.1

/-- A value after the items of a form. -/
theorem LaysValue.laysOut (h : LaysValue S P (s == .sexpr) n l) (hs : s.afterValue? = some t)
    (hlay : lay [n] = n.layout.map fun l => [l]) : LaysOut S P lay s t [n] [l] where
  laid := by rw [hlay, h.laid]; rfl
  row hP hsuit := by
    have hsuit := hsuit.1
    rw [(Slot.ne_clob_of_afterValue? hs).1] at hsuit
    exact .value hs (h.value hP hsuit) (.nil t)
  clob := by rw [(Slot.ne_clob_of_afterValue? hs).1, (Slot.ne_clob_of_afterValue? hs).2]
  labels := by rw [List.map_singleton, List.map_singleton, h.label]
  core := by
    rw [coreOf_content (by rw [isContent_of_label h.label, h.isContent]), erasedAll_content h.isContent,
      h.core]
    rfl
  comments := by rw [lineCommentsOf, lineCommentsOf, h.comments]; rfl

theorem layoutAll_singleton (n : Node) : layoutAll [n] = n.layout.map fun l => [l] := by
  rw [layoutAll]
  cases n.layout <;> rfl

theorem layoutMember_singleton (h : n.kind ≠ .structKey) :
    layoutMember [n] = n.layout.map fun l => [l] := by
  rw [layoutMember_cons, if_neg h]
  cases n.layout <;> rfl

/-- A key, a value and what stands between them are a member. -/
theorem laysStruct_member {key value k v : Node} {reversed : List Node} (hcore : coreOf ls = [k, v])
    (h : LaysOut S P layoutMember .key .key (reversed.reverse ++ [value]) ls) :
    LaysStruct S P [ofMember key value reversed] ls := by
  rw [← List.reverse_cons] at h
  have hitems : (ofMember key value reversed).items = (value :: reversed).reverse := rfl
  have hkind : (ofMember key value reversed).kind = .structMember := rfl
  constructor
  · rw [layoutStruct_cons, if_pos hkind, hitems, h.laid, layoutStruct]
    exact congrArg Except.ok (List.append_nil ls)
  · intro hP hsuit
    have hsuit : AllSuit S false (value :: reversed).reverse := hsuit.1.2.2
    exact h.row hP hsuit
  · intro rest
    rw [hcore, erasedAll_content rfl, ofMember, erased, ← h.core, hcore]
    rfl
  · rw [h.comments, lineCommentsOf, ofMember, lineComments, if_neg (by simp), lineCommentsOf,
      List.append_nil]

/-! ## Values of one token -/

theorem laysValue_scalar {b : Bool} {label : Label}
    (hk : label.kind ∈ [Kind.null, .boolean, .integer, .real, .timestamp, .symbol, .quotedString,
      .multilineString, .blob]) (hlaid : P → (S.long → label.isSteady false = true) → LaidScalar S b label) :
    LaysValue S P b ⟨label, []⟩ ⟨label, []⟩ := by
  simp only [List.mem_cons, List.not_mem_nil, or_false] at hk
  refine ⟨?_, fun hP hsuit => .scalar (hlaid hP hsuit.1), ?_, rfl, ?_, rfl⟩
  · refine layout_eq_ok.mpr (.leaf ?_)
    rcases hk with h | h | h | h | h | h | h | h | h <;> simp [h]
  · unfold isValue isContent isComment isNewlines isStructKey kind
    rcases hk with h | h | h | h | h | h | h | h | h <;> rw [h] <;> rfl
  · have hstruct : label.kind ≠ .struct := by
      rcases hk with h | h | h | h | h | h | h | h | h <;> simp [h]
    rw [core, erased, if_neg hstruct]
    rfl

/-! ## Forms -/

section

variable {b : Bool} {label : Label} {span : Span} {as : List Text}

theorem laysValue_form (hk : label.kind ∈ [Kind.list, .sexpr, .struct, .clob])
    (hlaid : layout ⟨label, ns⟩ = .ok ⟨label, ls⟩)
    (hvalue : P → Suits S false ⟨label, ns⟩ → LaidIn S b ⟨label, ls⟩)
    (hcore : (if label.kind = .struct then paired (coreOf ls) else coreOf ls) = erasedAll ns)
    (hcomments : lineCommentsOf ls = lineCommentsOf ns) : LaysValue S P b ⟨label, ns⟩ ⟨label, ls⟩ := by
  refine ⟨hlaid, hvalue, ?_, rfl, ?_, ?_⟩
  · simp only [List.mem_cons, List.not_mem_nil, or_false] at hk
    unfold isValue isContent isComment isNewlines isStructKey kind
    rcases hk with h | h | h | h <;> rw [h] <;> rfl
  · rw [core, erased, hcore]
  · rw [lineComments, lineComments, hcomments]

theorem laysValue_list (ha : AnnotationTexts as) (h : LaysOut S P layoutAll .list .list ns ls) :
    LaysValue S P b ⟨{ kind := .list, span, annotations := as }, ns⟩
      ⟨{ kind := .list, span, annotations := as }, ls⟩ := by
  refine laysValue_form (by simp) ?_ (fun hP hsuit => ?_) h.core h.comments
  · exact layout_eq_ok.mpr (.form (by simp) (layoutAll_eq_ok.mp h.laid))
  · exact .list ha (h.row hP hsuit.2.2)

theorem laysValue_sexpr (ha : AnnotationTexts as) (h : LaysOut S P layoutAll .sexpr .sexpr ns ls) :
    LaysValue S P b ⟨{ kind := .sexpr, span, annotations := as }, ns⟩
      ⟨{ kind := .sexpr, span, annotations := as }, ls⟩ := by
  refine laysValue_form (by simp) ?_ (fun hP hsuit => ?_) h.core h.comments
  · exact layout_eq_ok.mpr (.form (by simp) (layoutAll_eq_ok.mp h.laid))
  · exact .sexpr ha (h.row hP hsuit.2.2) (S.heads_of_labels (filter_of_labels h.labels) (hsuit.2.1 rfl))

theorem laysValue_struct (ha : AnnotationTexts as) (h : LaysStruct S P ns ls) :
    LaysValue S P b ⟨{ kind := .struct, span, annotations := as }, ns⟩
      ⟨{ kind := .struct, span, annotations := as }, ls⟩ := by
  refine laysValue_form (by simp) ?_ (fun hP hsuit => ?_) ?_ h.comments
  · exact layout_eq_ok.mpr (.struct rfl (layoutStruct_eq_ok.mp h.laid))
  · exact .struct ha (h.row hP hsuit.2.2)
  · rw [if_pos rfl]
    have hcore := h.core []
    rwa [List.append_nil, show paired [] = [] from rfl, List.append_nil] at hcore

theorem laysValue_clob (ha : AnnotationTexts as) (h : LaysOut S P layoutAll .clob .clob ns ls)
    (hfits : ∀ n ∈ ns, n.fitsClob = true) (hs : ns.any isContent = true) :
    LaysValue S P b ⟨{ kind := .clob, span, annotations := as }, ns⟩
      ⟨{ kind := .clob, span, annotations := as }, ls⟩ := by
  refine laysValue_form (by simp) ?_ (fun hP hsuit => ?_) h.core h.comments
  · have hfit : ls.map fitsClob = ns.map fitsClob := by
      refine map_of_labels (fun m n hmn => ?_) h.labels
      unfold fitsClob kind
      rw [hmn]
    refine layout_eq_ok.mpr (.clob rfl (layoutAll_eq_ok.mp h.laid) fun l hl => ?_)
    obtain ⟨n, hn, hnl⟩ := List.mem_map.mp (hfit ▸ List.mem_map_of_mem hl)
    exact hnl.symm.trans (hfits n hn)
  · have hcontent : ls.map isContent = ns.map isContent := map_of_labels (fun _ _ => isContent_of_label) h.labels
    refine .clob ha (h.row hP hsuit.2.2) ?_
    obtain ⟨n, hn, hc⟩ := List.any_eq_true.mp hs
    have hmem : true ∈ ls.map isContent := by
      rw [hcontent]
      exact List.mem_map.mpr ⟨n, hn, hc⟩
    obtain ⟨l, hl, hlc⟩ := List.mem_map.mp hmem
    exact List.any_eq_true.mpr ⟨l, hl, hlc⟩

end

end Node

namespace Token

open Node (LaysValue LaysOut layoutAll)

variable {S : Breadth} {P : Prop} {c : LexContext} {t : Token} {n : Node} {as : List Text}

theorem string_unwrap {w : List Char} (h : Spelling false .string w) :
    ∃ b, QuoteBody '"' b ∧ Node.unwrap "\"" "\"" (Text.ofChars w) = Text.ofChars b := by
  cases h with
  | numeral ht => simp at ht
  | fixed h => simp [fixedSpellings] at h
  | @string b hb =>
    refine ⟨b, hb, ?_⟩
    rw [show '"' :: (b ++ ['"']) = "\"".toList ++ (b ++ "\"".toList) from rfl, Text.ofChars_append,
      Text.ofChars_append]
    unfold Node.unwrap
    rw [show utf8 "\"" = Text.ofChars "\"".toList from rfl, Text.trimStart_append, Text.trimEnd_append]

theorem blob_unwrap {inSExpr : Bool} {w : List Char} (h : Spelling inSExpr .blob w) :
    ∃ b, BlobText b ∧ (Node.unwrap "\x7b\x7b" "\x7d\x7d" (Text.ofChars w)).strip = Text.ofChars b := by
  cases h with
  | numeral ht => simp at ht
  | fixed h => simp [fixedSpellings] at h
  | @blob b hb =>
    refine ⟨stripped b, ⟨?_, ?_, ?_⟩, ?_⟩
    · intro d hd
      obtain ⟨x, y, hsplit, -, -⟩ := exists_stripped b
      refine hb d ?_
      rw [hsplit]
      simp [hd]
    · exact fun d hd => isSpace_of_not_isBlank ((trimmed_stripped b).1 d hd)
    · exact fun d hd => isSpace_of_not_isBlank ((trimmed_stripped b).2 d hd)
    · rw [List.append_assoc, Text.ofChars_append, Text.ofChars_append]
      unfold Node.unwrap
      rw [show utf8 "\x7b\x7b" = Text.ofChars "\x7b\x7b".toList from rfl,
        show utf8 "\x7d\x7d" = Text.ofChars "\x7d\x7d".toList from rfl, Text.trimStart_append,
        Text.trimEnd_append, Text.strip_ofChars]

theorem longString_unwrap {inSExpr : Bool} {w : List Char} (h : Spelling inSExpr .longString w) :
    ∃ b, LongBody b ∧ Node.unwrap "'''" "'''" (Text.ofChars w) = Text.ofChars b := by
  cases h with
  | numeral ht => simp at ht
  | fixed h => simp [fixedSpellings] at h
  | @longString b hb =>
    refine ⟨b, hb, ?_⟩
    rw [List.append_assoc, Text.ofChars_append, Text.ofChars_append]
    unfold Node.unwrap
    rw [show utf8 "'''" = Text.ofChars "'''".toList from rfl, Text.trimStart_append, Text.trimEnd_append]

/-- Steady contents lose no blanks, and outside of clobs neither blanks nor a line break at the end. -/
theorem longText_of_isSteady {b : List Char} {span : Span} {as : List Text} {inClob : Bool}
    (hb : LongBody b) (h : Label.isSteady inClob
      { kind := .multilineString, span, annotations := as, value := Text.ofChars b } = true) :
    LongText b ∧ (inClob = false → ∀ c, b.getLast? = some c → c ∉ [' ', '\t', '\n']) := by
  have hquotes : utf8 "'''" ++ Text.ofChars b ++ utf8 "'''" =
      Text.ofChars ("'''".toList ++ b ++ "'''".toList) := by
    rw [Text.ofChars_append, Text.ofChars_append]
    rfl
  simp only [Label.isSteady, Bool.and_eq_true, beq_iff_eq, hquotes, Text.settled_ofChars] at h
  refine ⟨⟨hb, Text.ofChars_injective h.1⟩, fun hclob c hc hmem => ?_⟩
  obtain ⟨u, rfl⟩ : ∃ u, b = u ++ [c] := List.getLast?_eq_some_iff.mp hc
  have hascii : c.toNat < 128 := by
    simp only [List.mem_cons, List.not_mem_nil, or_false] at hmem
    rcases hmem with rfl | rfl | rfl <;> decide
  have hlast : (Text.ofChars (u ++ [c])).getLast? = some (byte c) := by
    rw [Text.ofChars_append, show Text.ofChars [c] = [byte c] from Text.ofChars_cons_ascii hascii []]
    simp
  have hend := h.2
  rw [hclob, hlast, Bool.false_or, Option.all_some, Bool.not_eq_true', List.contains_eq_mem,
    decide_eq_false_iff_not] at hend
  exact hend (List.mem_map_of_mem (f := byte) hmem)

/-- The value of a token by itself, outside of clobs. -/
theorem Spelled.laysValue (ht : t.Spelled c) (hc : c.inClob = false) (hP : P → t.type = .longString → S.long)
    (ha : AnnotationTexts as) (h : Node.scalar? t = some n) :
    ∃ l, LaysValue S P c.inSExpr (n.annotated as) l := by
  obtain ⟨w, hw, hspelling⟩ := ht.outside hc
  have hword : ∀ {kind : Kind}, (t.type, kind) ∈ wordKinds →
      ∃ l, LaysValue S P c.inSExpr ((Node.leaf kind t t.text).annotated as) l := by
    intro kind hk
    rw [Node.leaf, Node.annotated_eq, hw]
    refine ⟨_, Node.laysValue_scalar ?_ fun _ _ => .word hk hspelling ha⟩
    simp only [wordKinds, List.mem_cons, Prod.mk.injEq, List.not_mem_nil, or_false] at hk
    rcases hk with ⟨-, rfl⟩ | ⟨-, rfl⟩ | ⟨-, rfl⟩ | ⟨-, rfl⟩ | ⟨-, rfl⟩ | ⟨-, rfl⟩ | ⟨-, rfl⟩ |
      ⟨-, rfl⟩ <;> simp
  unfold Node.scalar? at h
  split at h
  case h_12 => contradiction
  case h_9 htype =>
    cases h
    rw [htype] at hspelling
    obtain ⟨b, hb, hunwrap⟩ := string_unwrap (hspelling.elsewhere (by simp))
    rw [Node.leaf, Node.annotated_eq, hw, hunwrap]
    exact ⟨_, Node.laysValue_scalar (by simp) fun _ _ => .string hb ha⟩
  case h_10 htype =>
    cases h
    rw [htype] at hspelling
    obtain ⟨b, hb, hunwrap⟩ := longString_unwrap hspelling
    rw [Node.leaf, Node.annotated_eq, hw, hunwrap]
    refine ⟨_, Node.laysValue_scalar (by simp) fun h hsteady => ?_⟩
    have hlong := hP h htype
    obtain ⟨htext, hend⟩ := longText_of_isSteady hb (hsteady hlong)
    exact .long hlong htext (hend rfl) ha
  case h_11 htype =>
    cases h
    rw [htype] at hspelling
    obtain ⟨b, hb, hunwrap⟩ := blob_unwrap hspelling
    rw [Node.leaf, Node.annotated_eq, hw, hunwrap]
    exact ⟨_, Node.laysValue_scalar (by simp) fun _ _ => .blob hb ha⟩
  all_goals
    rename_i htype
    cases h
    exact hword (by rw [htype]; simp [wordKinds])

/-- The string of a clob. -/
theorem Spelled.laysOut (ht : t.Spelled c) (hc : c.inClob = true) (hP : P → t.type = .longString → S.long)
    (h : Node.scalar? t = some n) :
    LaysOut S P layoutAll .clob .clob [n] [n] ∧ n.fitsClob = true ∧ n.isContent = true := by
  obtain ⟨htype, w, hw, hspelling⟩ := ht.inside hc
  have hlays : ∀ {kind : Kind} {v : Text}, kind ∈ [Kind.quotedString, .multilineString] →
      (P → (S.long → Label.isSteady true { kind, span := t.span, value := v } = true) →
        ClobString (Node.leaf kind t v)) →
      LaysOut S P layoutAll .clob .clob [Node.leaf kind t v] [Node.leaf kind t v] ∧
        (Node.leaf kind t v).fitsClob = true ∧ (Node.leaf kind t v).isContent = true := by
    intro kind v hk hrow
    simp only [List.mem_cons, List.not_mem_nil, or_false] at hk
    have hvalue : LaysValue S False false (Node.leaf kind t v) (Node.leaf kind t v) := by
      refine Node.laysValue_scalar ?_ False.elim
      rcases hk with rfl | rfl <;> simp
    have hcontent : (Node.leaf kind t v).isContent = true := by
      rcases hk with rfl | rfl <;> rfl
    refine ⟨⟨?_, fun hP hsuit => .string (hrow hP hsuit.1.1) (.nil _), rfl, rfl, ?_, rfl⟩, ?_, hcontent⟩
    · rw [Node.layoutAll_singleton, hvalue.laid]
      rfl
    · rw [Node.coreOf_content hcontent, Node.erasedAll_content hcontent, hvalue.core]
      rfl
    · rcases hk with rfl | rfl <;> rfl
  simp only [List.mem_cons, List.not_mem_nil, or_false] at htype
  unfold Node.scalar? at h
  rcases htype with htype | htype | htype | htype <;> rw [htype] at h
  · contradiction
  · cases h
    rw [htype] at hspelling
    obtain ⟨b, hb, hunwrap⟩ := longString_unwrap hspelling
    rw [hw, hunwrap]
    exact hlays (by simp) fun h hsteady => .long (longText_of_isSteady hb (hsteady (hP h htype))).1
  · cases h
    rw [htype] at hspelling
    obtain ⟨b, hb, hunwrap⟩ := string_unwrap hspelling
    rw [hw, hunwrap]
    exact hlays (by simp) fun _ _ => .short hb
  · contradiction

theorem newlines?_cases (t : Token) :
    Node.newlines? t = [] ∨ ∃ k, 0 < k ∧ Node.newlines? t = [Node.newlineRun k t.span] := by
  unfold Node.newlines?
  split
  · exact .inl rfl
  · rename_i k _
    exact .inr ⟨k + 1, by omega, rfl⟩

theorem newlines?_row {V : Bool → Node → Prop} (s : Slot) (t : Token) :
    LaidRow V s (Node.newlines? t) s := by
  rcases newlines?_cases t with h | ⟨k, hk, h⟩ <;> rw [h]
  · exact .nil s
  · exact .newlines hk (.nil s)

/-- The nodes of comments and white space outside of clobs. -/
theorem Spelled.row {V : Bool → Node → Prop} (ht : t.Spelled c) (hc : c.inClob = false) {ns : List Node}
    (h : Node.trivia? t = some ns) {s : Slot} (hs : s ≠ .clob) : LaidRow V s ns s := by
  obtain ⟨w, hw, hspelling⟩ := ht.outside hc
  unfold Node.trivia? at h
  split at h
  · cases h
    exact newlines?_row s t
  · rename_i htype
    cases h
    rw [htype] at hspelling
    rw [hw]
    exact .line hs (lineText_of_spelling hspelling) (n := 1) (by decide) (.nil s)
  · rename_i htype
    cases h
    rw [htype] at hspelling
    rw [hw]
    exact .block hs (blockLines_of_spelling hspelling) (.nil s)
  · contradiction

end Token

/-! ## Open forms -/

namespace Frame

open Node (LaysOut LaysStruct LaysValue layoutAll layoutMember)

/-- An open form whose items are laid out. -/
inductive Sound (S : Breadth) (P : Prop) : Frame → Prop where
  | sexpr {o : Token} {as : List Text} {items ls : List Node} (ha : AnnotationTexts as)
      (h : LaysOut S P layoutAll .sexpr .sexpr items.reverse ls) : Sound S P (.sexpr o as items)
  | list {o : Token} {as : List Text} {items ls : List Node} {ready : Bool} (ha : AnnotationTexts as)
      (h : LaysOut S P layoutAll .list .list items.reverse ls) : Sound S P (.list o as items ready)
  | between {o : Token} {as : List Text} {items ls : List Node} {ready : Bool}
      (ha : AnnotationTexts as) (h : LaysStruct S P items.reverse ls) :
      Sound S P (.struct o as items (.between ready))
  | member {o : Token} {as : List Text} {items ls reversed ks : List Node} {phase : MemberPhase}
      {key k : Node} (ha : AnnotationTexts as) (h : LaysStruct S P items.reverse ls)
      (hphase : phase = .afterKey key reversed ∨ phase = .afterColon key reversed)
      (hkey : LaysOut S P layoutMember .key .value reversed.reverse ks) (hcore : Node.coreOf ks = [k]) :
      Sound S P (.struct o as items phase)
  | clob {o : Token} {as : List Text} {items ls : List Node} (ha : AnnotationTexts as)
      (h : LaysOut S P layoutAll .clob .clob items.reverse ls)
      (hfits : ∀ n ∈ items, n.fitsClob = true) : Sound S P (.clob o as items)

/-- Whether a value may be the next item of a form. -/
def Awaits : Frame → Prop
  | .sexpr .. | .list .. | .struct _ _ _ (.afterColon ..) => True
  | _ => False

/-- The token type that opens a form. -/
def opens : Frame → TokenType
  | .sexpr .. => .parenOpen
  | .list .. => .bracketOpen
  | .struct .. => .braceOpen
  | .clob .. => .clobOpen

variable {S : Breadth} {P : Prop} {f : Frame} {n l : Node} {ns : List Node}

theorem opens_push (n : Node) (f : Frame) : (f.push n).opens = f.opens := by
  unfold push
  split <;> rfl

theorem opens_keep (ns : List Node) (f : Frame) : (f.keep ns).opens = f.opens := by
  unfold keep
  split <;> rfl

theorem Awaits.keep (h : f.Awaits) (ns : List Node) : (f.keep ns).Awaits := by
  cases f with
  | sexpr | list => trivial
  | struct o as items phase =>
    cases phase with
    | afterColon => trivial
    | _ => exact absurd h id
  | clob => exact absurd h id

theorem Awaits.opens_ne (h : f.Awaits) : f.opens ≠ .clobOpen := by
  cases f with
  | sexpr | list | struct => simp [opens]
  | clob => exact absurd h id

theorem Sound.keep (h : f.Sound S P) (hc : f.opens ≠ .clobOpen) (hns : ∀ n ∈ ns, n.IsTrivia)
    (hrow : ∀ s, s ≠ .clob → LaidRow (LaidIn S) s ns s) : (f.keep ns).Sound S P := by
  cases h with
  | @sexpr o as items ls ha h =>
    have hlays : LaysOut S P layoutAll .sexpr .sexpr (ns.reverse ++ items).reverse (ls ++ ns) := by
      rw [List.reverse_append, List.reverse_reverse]
      exact h.append Node.layoutAll_append
        (Node.laysOut_trivia (Node.layoutAll_trivia hns) hns fun _ => hrow _ (by simp))
    exact .sexpr ha hlays
  | @list o as items ls ready ha h =>
    have hlays : LaysOut S P layoutAll .list .list (ns.reverse ++ items).reverse (ls ++ ns) := by
      rw [List.reverse_append, List.reverse_reverse]
      exact h.append Node.layoutAll_append
        (Node.laysOut_trivia (Node.layoutAll_trivia hns) hns fun _ => hrow _ (by simp))
    exact .list ha hlays
  | @between o as items ls ready ha h =>
    have hlays : LaysStruct S P (ns.reverse ++ items).reverse (ls ++ ns) := by
      rw [List.reverse_append, List.reverse_reverse]
      exact h.append (Node.laysStruct_trivia hns fun _ => hrow _ (by simp))
    exact .between ha hlays
  | @member o as items ls reversed ks phase key k ha h hphase hkey hcore =>
    have hkeys : LaysOut S P layoutMember .key .value (ns.reverse ++ reversed).reverse (ks ++ ns) := by
      rw [List.reverse_append, List.reverse_reverse]
      exact hkey.append Node.layoutMember_append
        (Node.laysOut_trivia (Node.layoutMember_trivia hns) hns fun _ => hrow _ (by simp))
    have hone : Node.coreOf (ks ++ ns) = [k] := by
      rw [Node.coreOf_append, hcore, Node.coreOf_trivia fun n hn => (hns n hn).isContent]
      rfl
    rcases hphase with rfl | rfl
    · exact .member ha h (.inl rfl) hkeys hone
    · exact .member ha h (.inr rfl) hkeys hone
  | clob => exact absurd rfl hc

theorem Sound.push (h : f.Sound S P) (haw : f.Awaits) (hn : LaysValue S P (f.opens == .parenOpen) n l) :
    (f.push n).Sound S P := by
  cases h with
  | @sexpr o as items ls ha h =>
    have hn : LaysValue S P (Slot.sexpr == .sexpr) n l := hn
    have hlays : LaysOut S P layoutAll .sexpr .sexpr (n :: items).reverse (ls ++ [l]) := by
      rw [List.reverse_cons]
      exact h.append Node.layoutAll_append (hn.laysOut rfl (Node.layoutAll_singleton n))
    exact .sexpr ha hlays
  | @list o as items ls ready ha h =>
    have hn : LaysValue S P (Slot.list == .sexpr) n l := hn
    have hlays : LaysOut S P layoutAll .list .list (n :: items).reverse (ls ++ [l]) := by
      rw [List.reverse_cons]
      exact h.append Node.layoutAll_append (hn.laysOut rfl (Node.layoutAll_singleton n))
    exact .list ha hlays
  | between => exact absurd haw id
  | @member o as items ls reversed ks phase key k ha h hphase hkey hcore =>
    obtain rfl : phase = .afterColon key reversed := by
      rcases hphase with rfl | rfl
      · exact absurd haw id
      · rfl
    have hn : LaysValue S P (Slot.value == .sexpr) n l := hn
    have hkind : n.kind ≠ .structKey := by
      intro hk
      have := hn.isValue
      simp [Node.isValue, Node.isStructKey, hk] at this
    have hmember := hkey.append Node.layoutMember_append (hn.laysOut rfl (Node.layoutMember_singleton hkind))
    have hcores : Node.coreOf (ks ++ [l]) = [k, l.core] := by
      rw [Node.coreOf_append, hcore, Node.coreOf_content, Node.coreOf]
      · rfl
      · rw [Node.isContent_of_label hn.label]
        exact hn.isContent
    have hlays : LaysStruct S P (Node.ofMember key n reversed :: items).reverse (ls ++ (ks ++ [l])) := by
      rw [List.reverse_cons]
      exact h.append (Node.laysStruct_member hcores hmember)
    exact .between ha hlays
  | clob => exact absurd haw id

end Frame

/-! ## Readings -/

/-- The context in which a scanner is when forms are open, the innermost first. -/
def contextOf (fs : List Frame) : LexContext :=
  ⟨(fs.map Frame.opens).filter (· != .clobOpen), fs.head?.map Frame.opens == some .clobOpen⟩

namespace Reading

open Node (LaysOut LaysStruct LaysValue layoutAll layoutMember)

/-- Whether a value may come next. -/
def AwaitsValue (r : Reading) : Prop := ∀ f, r.frames.head? = some f → f.Awaits

/-- A reading in which everything read is laid out, in the context of a scanner. -/
structure Sound (S : Breadth) (P : Prop) (c : LexContext) (owes : Bool) (r : Reading) : Prop where
  done : ∃ ls, LaysOut S P layoutAll .top .top r.done.reverse ls
  frames : ∀ f ∈ r.frames, f.Sound S P
  inner : ∀ f ∈ r.frames.tail, f.Awaits
  context : c = contextOf r.frames
  pending : ∀ p, r.pending = some p → AnnotationTexts p.annotations ∧ r.AwaitsValue
  owed : ∀ o as items fs, r.frames = .clob o as items :: fs →
    owes = true ∨ items.any Node.isContent = true

variable {S : Breadth} {P : Prop} {c : LexContext} {owes : Bool} {r r' : Reading} {t : Token} {n l : Node}
  {ns : List Node} {f : Frame} {fs : List Frame} {as : List Text}

theorem AwaitsValue.inClob (h : r.AwaitsValue) : (contextOf r.frames).inClob = false := by
  unfold contextOf
  cases hr : r.frames with
  | nil => rfl
  | cons f fs =>
    have := (h f (by rw [hr]; rfl)).opens_ne
    simp [this]

/-- The slot of the next value. -/
theorem inSExpr_contextOf (h : f.Awaits) : (contextOf (f :: fs)).inSExpr = (f.opens == .parenOpen) := by
  have := h.opens_ne
  unfold contextOf LexContext.inSExpr
  simp [this]

/-- A value extends the innermost form. -/
theorem Sound.deliver (h : r.Sound S P c owes) (hr : r.AwaitsValue) (hn : LaysValue S P c.inSExpr n l)
    (owes' : Bool) : (r.deliver n).Sound S P c owes' := by
  unfold Reading.deliver
  cases hf : r.frames with
  | nil =>
    obtain ⟨ls, hdone⟩ := h.done
    have hn : LaysValue S P (Slot.top == .sexpr) n l := by
      have := h.context
      rw [hf] at this
      rwa [this] at hn
    refine ⟨⟨ls ++ [l], ?_⟩, by simp, by simp, by rw [h.context, hf], by simp, by simp⟩
    rw [List.reverse_cons]
    exact hdone.append Node.layoutAll_append (hn.laysOut rfl (Node.layoutAll_singleton n))
  | cons f fs =>
    have haw : f.Awaits := hr f (by rw [hf]; rfl)
    have hinner : ∀ g ∈ fs, g.Awaits := fun g hg => h.inner g (by rw [hf]; exact hg)
    rw [h.context, hf, inSExpr_contextOf haw] at hn
    refine ⟨h.done, ?_, hinner, ?_, by simp, ?_⟩
    · intro g hg
      rcases List.mem_cons.mp hg with rfl | hg
      · exact (h.frames f (by simp [hf])).push haw hn
      · exact h.frames g (by simp [hf, hg])
    · rw [h.context, hf]
      simp [contextOf, Frame.opens_push]
    · intro o as items gs hg
      have hopens := congrArg Frame.opens (List.cons.inj hg).1
      rw [Frame.opens_push] at hopens
      exact absurd hopens haw.opens_ne

/-- Comments and newline runs extend the innermost form. -/
theorem Sound.keep (h : r.Sound S P c owes) (hc : c.inClob = false) (hns : ∀ n ∈ ns, n.IsTrivia)
    (hrow : ∀ s, s ≠ .clob → LaidRow (LaidIn S) s ns s) (owes' : Bool) : (r.keep ns).Sound S P c owes' := by
  unfold Reading.keep
  cases hf : r.frames with
  | nil =>
    obtain ⟨ls, hdone⟩ := h.done
    refine ⟨⟨ls ++ ns, ?_⟩, by simp, by simp, by rw [h.context, hf], ?_, by simp⟩
    · rw [List.reverse_append, List.reverse_reverse]
      exact hdone.append Node.layoutAll_append
        (Node.laysOut_trivia (Node.layoutAll_trivia hns) hns fun _ => hrow _ (by simp))
    · intro p hp
      exact ⟨(h.pending p hp).1, by simp [AwaitsValue]⟩
  | cons f fs =>
    have hopens : f.opens ≠ .clobOpen := by
      intro hopens
      rw [h.context, hf] at hc
      simp [contextOf, hopens] at hc
    refine ⟨h.done, ?_, fun g hg => h.inner g (by rw [hf]; exact hg), ?_, ?_, ?_⟩
    · intro g hg
      rcases List.mem_cons.mp hg with rfl | hg
      · exact (h.frames f (by simp [hf])).keep hopens hns hrow
      · exact h.frames g (by simp [hf, hg])
    · rw [h.context, hf]
      simp [contextOf, Frame.opens_keep]
    · intro p hp
      obtain ⟨ha, haw⟩ := h.pending p hp
      refine ⟨ha, fun g hg => ?_⟩
      cases hg
      exact (haw f (by rw [hf]; rfl)).keep ns
    · intro o as items gs hg
      have hopen := congrArg Frame.opens (List.cons.inj hg).1
      rw [Frame.opens_keep] at hopen
      exact absurd hopen hopens

/-- A form is opened where a value may come. -/
theorem Sound.enter (h : r.Sound S P c owes) (hr : r.AwaitsValue) (hf : f.Sound S P)
    {type : TokenType} (hc : contextOf (f :: r.frames) = (contextOf r.frames).after type) (owes' : Bool)
    (howed : ∀ o as items, f = .clob o as items → owes' = true ∨ items.any Node.isContent = true) :
    (r.enter f).Sound S P (c.after type) owes' := by
  refine ⟨h.done, ?_, ?_, ?_, by simp [Reading.enter], ?_⟩
  · intro g hg
    rcases List.mem_cons.mp hg with rfl | hg
    · exact hf
    · exact h.frames g hg
  · intro g hg
    have hg : g ∈ r.frames := hg
    cases hfs : r.frames with
    | nil => simp [hfs] at hg
    | cons g' gs =>
      rw [hfs] at hg
      rcases List.mem_cons.mp hg with rfl | hg
      · exact hr g (by rw [hfs]; rfl)
      · exact h.inner g (by rw [hfs]; exact hg)
  · rw [h.context]
    exact hc.symm
  · intro o as items gs hg
    exact howed o as items (List.cons.inj hg).1

/-- A form is closed and becomes a value. -/
theorem Sound.close (h : r.Sound S P c owes) (hr : r.frames = f :: fs) (hp : r.pending = none)
    {type : TokenType} (hc : c.after type = contextOf fs) (hn : ∀ b, ∃ l, LaysValue S P b n l)
    (owes' : Bool) : (r.close fs n).Sound S P (c.after type) owes' := by
  have haw : ({ r with frames := fs } : Reading).AwaitsValue := by
    intro g hg
    exact h.inner g (by rw [hr]; exact List.mem_of_mem_head? hg)
  have hsound : ({ r with frames := fs } : Reading).Sound S P (c.after type) owes' := by
    refine ⟨h.done, fun g hg => h.frames g (by simp [hr, hg]), ?_, hc, ?_, ?_⟩
    · exact fun g hg => h.inner g (by rw [hr]; exact List.mem_of_mem_tail hg)
    · intro p hp'
      rw [show r.pending = some p from hp'] at hp
      contradiction
    · intro o as items gs hg
      have hg : fs = .clob o as items :: gs := hg
      have := haw (.clob o as items) (by rw [hg]; rfl)
      exact absurd this id
  obtain ⟨l, hl⟩ := hn (c.after type).inSExpr
  exact hsound.deliver haw hl owes'

/-- The innermost form may change its state. -/
theorem Sound.reframe {g : Frame} (h : r.Sound S P c owes) (hr : r.frames = f :: fs)
    (hp : r.pending = none) (hg : g.Sound S P) (ho : g.opens = f.opens) (hne : f.opens ≠ .clobOpen)
    (owes' : Bool) : ({ r with frames := g :: fs } : Reading).Sound S P c owes' := by
  refine ⟨h.done, ?_, fun k hk => h.inner k (by rw [hr]; exact hk), ?_, ?_, ?_⟩
  · intro k hk
    rcases List.mem_cons.mp hk with rfl | hk
    · exact hg
    · exact h.frames k (by simp [hr, hk])
  · rw [h.context, hr]
    simp [contextOf, ho]
  · intro p hp'
    rw [show r.pending = some p from hp'] at hp
    contradiction
  · intro o as items gs hgs
    obtain ⟨rfl, -⟩ := List.cons.inj hgs
    exact absurd ho.symm hne

theorem after_scalar (h : Node.scalar? t = some n) (c : LexContext) : c.after t.type = c := by
  unfold Node.scalar? at h
  split at h
  case h_12 => contradiction
  all_goals
    rename_i htype
    rw [htype]
    rfl

theorem Sound.inClob_eq (h : r.Sound S P c owes) (hr : r.AwaitsValue) : c.inClob = false := by
  rw [h.context]
  exact hr.inClob

theorem awaits_of_hasPlace (h : f.hasPlace = true) : f.Awaits := by
  cases f with
  | sexpr | list => trivial
  | struct o as items phase =>
    cases phase with
    | afterColon => trivial
    | between | afterKey => contradiction
  | clob => contradiction

theorem Sound.awaitsValue (h : r.Sound S P c owes) (hr : r.HasPlace) : r.AwaitsValue := by
  rcases hr with hr | hr
  · obtain ⟨p, hp⟩ := Option.isSome_iff_exists.mp hr
    exact (h.pending p hp).2
  · exact fun f hf => awaits_of_hasPlace (hr f hf)

theorem Sound.annotations (h : r.Sound S P c owes) : AnnotationTexts r.annotations := by
  unfold Reading.annotations
  cases hp : r.pending with
  | none => simp [AnnotationTexts]
  | some p => exact (h.pending p hp).1

/-- A value of one token. -/
theorem Sound.scalar (h : r.Sound S P c owes) (hr : r.HasPlace) (ht : t.Spelled c)
    (hP : P → t.type = .longString → S.long) (hn : Node.scalar? t = some n) (owes' : Bool) :
    (r.deliver (n.annotated r.annotations)).Sound S P (c.after t.type) owes' := by
  have haw := h.awaitsValue hr
  obtain ⟨l, hl⟩ := ht.laysValue (h.inClob_eq haw) hP h.annotations hn
  rw [after_scalar hn]
  exact h.deliver haw hl _

/-- The first token of a form. -/
theorem Sound.opening (h : r.Sound S P c owes) (hr : r.HasPlace) (hf : Frame.opened? t r.annotations = some f) :
    (r.enter f).Sound S P (c.after t.type) (LexContext.owesAfter owes t.type) := by
  have haw := h.awaitsValue hr
  have ha := h.annotations
  have hcontext : ∀ {f : Frame}, f.opens ≠ .clobOpen →
      (contextOf r.frames).after f.opens = ⟨f.opens :: (contextOf r.frames).opened, (contextOf r.frames).inClob⟩ →
      contextOf (f :: r.frames) = (contextOf r.frames).after f.opens := by
    intro f hne hafter
    rw [hafter, haw.inClob]
    simp [contextOf, hne]
  unfold Frame.opened? at hf
  split at hf
  · rename_i htype
    cases hf
    rw [htype]
    exact h.enter haw (.sexpr ha ⟨rfl, fun _ _ => .nil _, rfl, rfl, rfl, rfl⟩) (hcontext (by simp [Frame.opens]) rfl) _
      (by simp)
  · rename_i htype
    cases hf
    rw [htype]
    exact h.enter haw (.list ha ⟨rfl, fun _ _ => .nil _, rfl, rfl, rfl, rfl⟩) (hcontext (by simp [Frame.opens]) rfl) _
      (by simp)
  · rename_i htype
    cases hf
    rw [htype]
    exact h.enter haw (.between ha ⟨rfl, fun _ _ => .nil _, fun _ => rfl, rfl⟩)
      (hcontext (by simp [Frame.opens]) rfl) _ (by simp)
  · rename_i htype
    cases hf
    rw [htype]
    refine h.enter haw (.clob ha ⟨rfl, fun _ _ => .nil _, rfl, rfl, rfl, rfl⟩ (by simp)) ?_ _
      fun _ _ _ _ => .inl rfl
    simp [contextOf, LexContext.after, Frame.opens]
  · contradiction

theorem annotationTexts_append {bs : List Text} (ha : AnnotationTexts as) (hb : AnnotationTexts bs) :
    AnnotationTexts (as ++ bs) := fun a h => (List.mem_append.mp h).elim (ha a) (hb a)

theorem annotationTexts_of_spelled (hc : c.inClob = false) (ht : t.Spelled c) (htype : t.type = .annotate) :
    AnnotationTexts [t.text] := by
  intro a h
  obtain ⟨w, hw, hspelling⟩ := ht.outside hc
  rw [htype] at hspelling
  exact ⟨w, by rw [List.mem_singleton.mp h, hw], hspelling.elsewhere (by simp)⟩

/-- Annotations wait for their value. -/
theorem Sound.annotate (h : r.Sound S P c owes) (hr : r.AwaitsValue) (ha : AnnotationTexts as)
    (mayBlank owes' : Bool) : ({ r with pending := some ⟨as, mayBlank⟩ } : Reading).Sound S P c owes' := by
  refine ⟨h.done, h.frames, h.inner, h.context, ?_, ?_⟩
  · intro p hp
    cases hp
    exact ⟨ha, hr⟩
  · intro o bs items fs hf
    have hf : r.frames = .clob o bs items :: fs := hf
    exact absurd (hr (.clob o bs items) (by rw [hf]; rfl)) id

theorem contextOf_inner (h : ∀ g ∈ fs, Frame.Awaits g) : contextOf fs = ⟨(contextOf fs).opened, false⟩ := by
  cases fs with
  | nil => rfl
  | cons g gs => simp [contextOf, (h g (by simp)).opens_ne]

theorem contextOf_clob (o : Token) (as : List Text) (items : List Node) (fs : List Frame) :
    contextOf (.clob o as items :: fs) = ⟨(contextOf fs).opened, true⟩ := by
  simp [contextOf, Frame.opens]

theorem contextOf_cons (h : f.opens ≠ .clobOpen) (fs : List Frame) :
    contextOf (f :: fs) = ⟨f.opens :: (contextOf fs).opened, false⟩ := by
  simp [contextOf, h]

/-- A clob with further items in it. -/
theorem Sound.extendClob {o : Token} {items ns : List Node} {owes' : Bool} (h : r.Sound S P c owes)
    (hr : r.frames = .clob o as items :: fs) (hns : LaysOut S P layoutAll .clob .clob ns.reverse ns.reverse)
    (hnsfit : ∀ n ∈ ns, n.fitsClob = true) (howed : owes' = true ∨ (ns ++ items).any Node.isContent = true) :
    ({ r with frames := .clob o as (ns ++ items) :: fs, pending := none } : Reading).Sound S P c owes' := by
  have hframe : (Frame.clob o as items).Sound S P := h.frames _ (by rw [hr]; exact List.mem_cons_self ..)
  refine ⟨h.done, ?_, fun g hg => h.inner g (by rw [hr]; exact hg), ?_, by simp, ?_⟩
  · intro g hg
    rcases List.mem_cons.mp hg with rfl | hg
    · cases hframe with
      | @clob _ _ _ ls ha hlays hfits =>
        have hboth : LaysOut S P layoutAll .clob .clob (ns ++ items).reverse (ls ++ ns.reverse) := by
          rw [List.reverse_append]
          exact hlays.append Node.layoutAll_append hns
        exact .clob ha hboth fun n hn => (List.mem_append.mp hn).elim (hnsfit n) (hfits n)
    · exact h.frames g (by simp [hr, hg])
  · rw [h.context, hr]
    simp [contextOf, Frame.opens]
  · intro o' as' items' gs hg
    cases (List.cons.inj hg).1
    exact howed

/-- White space of a clob. -/
theorem Sound.keepInClob {o : Token} {items : List Node} (h : r.Sound S P c owes)
    (hr : r.frames = .clob o as items :: fs) (hp : r.pending = none) (t : Token) :
    (r.keep (Node.newlines? t)).Sound S P c owes := by
  have hkeep : r.keep (Node.newlines? t) =
      { r with frames := .clob o as ((Node.newlines? t).reverse ++ items) :: fs, pending := none } := by
    unfold Reading.keep
    rw [hr, hp]
    rfl
  have hns : ∀ n ∈ Node.newlines? t, n.IsTrivia ∧ n.fitsClob = true := by
    intro n hn
    rcases Token.newlines?_cases t with h | ⟨k, -, h⟩
    · simp [h] at hn
    · obtain rfl : n = Node.newlineRun k t.span := by simpa [h] using hn
      exact ⟨⟨by simp [Node.newlineRun], rfl⟩, rfl⟩
  rw [hkeep]
  refine h.extendClob hr ?_ (fun n hn => (hns n (by simpa using hn)).2) ?_
  · rw [List.reverse_reverse]
    exact Node.laysOut_trivia (Node.layoutAll_trivia fun n hn => (hns n hn).1)
      (fun n hn => (hns n hn).1) fun _ => Token.newlines?_row .clob t
  · rcases h.owed o as items fs hr with howes | hcontent
    · exact .inl howes
    · rw [List.any_append, hcontent, Bool.or_true]
      exact .inr rfl

theorem Sound.inClob_of_not_clob (h : r.Sound S P c owes) (hr : ∀ o as items fs, r.frames ≠ .clob o as items :: fs) :
    c.inClob = false := by
  rw [h.context]
  cases hf : r.frames with
  | nil => rfl
  | cons f fs =>
    refine congrArg LexContext.inClob (contextOf_cons ?_ fs)
    cases f with
    | sexpr | list | struct => simp [Frame.opens]
    | clob o as items => exact absurd hf (hr o as items fs)

/-- A comment or white space. -/
theorem Sound.trivia (h : r.Sound S P c owes) (hp : r.pending = none) (ht : t.Spelled c)
    (hwhite : ∀ o as items fs, r.frames = .clob o as items :: fs → t.type = .whitespace)
    (hns : Node.trivia? t = some ns) :
    (r.keep ns).Sound S P (c.after t.type) (LexContext.owesAfter owes t.type) := by
  by_cases hr : ∃ o as items fs, r.frames = .clob o as items :: fs
  · obtain ⟨o, as, items, fs, hr⟩ := hr
    have htype := hwhite o as items fs hr
    rw [Node.trivia?, htype] at hns
    cases hns
    rw [htype]
    exact h.keepInClob hr hp t
  · have hclob := h.inClob_of_not_clob fun o as items fs hf => hr ⟨o, as, items, fs, hf⟩
    have hafter : c.after t.type = c := by
      unfold Node.trivia? at hns
      split at hns
      case h_4 => contradiction
      all_goals
        rename_i htype
        rw [htype]
        rfl
    rw [hafter]
    exact h.keep hclob (Token.isTrivia_of_trivia? hns) (fun s hs => ht.row hclob hns hs) _

/-- A string of a clob. -/
theorem Sound.clobString {o : Token} {items : List Node} (h : r.Sound S P c owes)
    (hr : r.frames = .clob o as items :: fs) (ht : t.Spelled c) (hP : P → t.type = .longString → S.long)
    (hn : Node.scalar? t = some n) (owes' : Bool) : (r.deliver n).Sound S P (c.after t.type) owes' := by
  have hin : c.inClob = true := by
    rw [h.context, hr]
    rfl
  obtain ⟨hnlays, hnfits, hcontent⟩ := ht.laysOut hin hP hn
  have hdeliver : r.deliver n = { r with frames := .clob o as ([n] ++ items) :: fs, pending := none } := by
    unfold Reading.deliver
    rw [hr]
    rfl
  rw [after_scalar hn, hdeliver]
  exact h.extendClob hr hnlays (by simpa using hnfits) (.inr (by simp [hcontent]))

/-- The last token of a form: a clob is closed only when it has content. -/
theorem Sound.closing (h : r.Sound S P c owes) (hr : r.frames = f :: fs) (hp : r.pending = none)
    (hclose : owes = true → t.type ≠ .clobClose) (ht : f.closing? = some t.type) (owes' : Bool) :
    (r.close fs (.ofForm f.kind f.annotations f.opening t f.items)).Sound S P (c.after t.type) owes' := by
  have hinner : ∀ g ∈ fs, g.Awaits := fun g hg => h.inner g (by rw [hr]; exact hg)
  have hafter : c.after t.type = contextOf fs := by
    rw [h.context, hr]
    cases f with
    | sexpr | list =>
      rw [← Option.some.inj ht, contextOf_cons (by simp [Frame.opens]), contextOf_inner hinner]
      rfl
    | struct o as items phase =>
      cases phase with
      | between =>
        rw [← Option.some.inj ht, contextOf_cons (by simp [Frame.opens]), contextOf_inner hinner]
        rfl
      | afterKey | afterColon => contradiction
    | clob o as items =>
      rw [← Option.some.inj ht, contextOf_clob, contextOf_inner hinner]
      rfl
  refine h.close hr hp hafter (fun b => ?_) owes'
  rw [← List.reverse_reverse f.items, Node.ofForm_reverse]
  cases h.frames f (by rw [hr]; exact List.mem_cons_self ..) with
  | sexpr ha hlays => exact ⟨_, Node.laysValue_sexpr ha hlays⟩
  | list ha hlays => exact ⟨_, Node.laysValue_list ha hlays⟩
  | between ha hlays => exact ⟨_, Node.laysValue_struct ha hlays⟩
  | member ha hlays hphase => rcases hphase with rfl | rfl <;> contradiction
  | @clob o as items ls ha hlays hfits =>
    have hcontent : items.any Node.isContent = true :=
      (h.owed o as items fs hr).resolve_left fun howes => hclose howes (Option.some.inj ht).symm
    exact ⟨_, Node.laysValue_clob ha hlays (fun n hn => hfits n (List.mem_reverse.mp hn))
      (List.any_reverse.trans hcontent)⟩

/-- A comma, after which a further item may come. -/
theorem Sound.comma {g : Frame} (h : r.Sound S P c owes) (hr : r.frames = f :: fs) (hp : r.pending = none)
    (hg : f.afterComma? = some g) (owes' : Bool) : ({ r with frames := g :: fs } : Reading).Sound S P c owes' := by
  have hframe := h.frames f (by rw [hr]; exact List.mem_cons_self ..)
  unfold Frame.afterComma? at hg
  split at hg
  · cases hg
    cases hframe with
    | list ha hlays => exact h.reframe (g := .list _ _ _ true) hr hp (.list ha hlays) rfl (by simp [Frame.opens]) _
  · cases hg
    cases hframe with
    | between ha hlays =>
      exact h.reframe (g := .struct _ _ _ (.between true)) hr hp (.between ha hlays) rfl (by simp [Frame.opens]) _
    | member ha hlays hphase => simp at hphase
  · contradiction

/-- A struct after the key that is a token. -/
def afterKey (o : Token) (as : List Text) (items : List Node) (t : Token) : Frame :=
  .struct o as items (.afterKey (.leaf .structKey t t.text) [.leaf .structKey t t.text])

theorem afterKey_sound {o : Token} {items ls : List Node} (ht : t.Spelled c) (hc : c.inClob = false)
    (hP : P → t.type = .longString → S.long)
    (htype : t.type ∈ [TokenType.symbol, .quotedSymbol, .string, .longString]) (ha : AnnotationTexts as)
    (h : LaysStruct S P items.reverse ls) : (afterKey o as items t).Sound S P := by
  have hrow : P → (S.long → t.text.settled = t.text) →
      LaidRow (LaidIn S) .key [.leaf .structKey t t.text] .value := by
    intro hP' hsteady
    obtain ⟨w, hw, hspelling⟩ := ht.outside hc
    have hspelling : Spelling false t.type w := hspelling.elsewhere fun h => by
      simp [h] at htype
    refine .key ⟨t.type, w, hw, htype, hspelling, ?_⟩ (.nil _)
    by_cases hlong : t.type = .longString
    · have hsettled := hsteady (hP hP' hlong)
      rw [hw, Text.settled_ofChars] at hsettled
      exact Text.ofChars_injective hsettled
    · refine (hspelling.settles ?_).eq
      simp only [List.mem_cons, List.not_mem_nil, or_false] at htype
      rcases htype with h | h | h | h <;> simp [h, Lexeme.plainTypes] at hlong ⊢
  have hkey : LaysOut S P layoutMember .key .value [.leaf .structKey t t.text].reverse
      [.leaf .structKey t t.text] :=
    ⟨rfl, fun hP' hsuit => hrow hP' fun hlong => by simpa [Label.isSteady] using hsuit.1.1 hlong, rfl, rfl,
      rfl, rfl⟩
  exact .member ha h (.inl rfl) hkey rfl

/-- A key. -/
theorem Sound.key {o : Token} {items : List Node} {ready : Bool} (h : r.Sound S P c owes)
    (hr : r.frames = .struct o as items (.between ready) :: fs) (hp : r.pending = none) (ht : t.Spelled c)
    (hP : P → t.type = .longString → S.long) (htype : t.type ∈ TokenType.keys) (owes' : Bool) :
    ({ r with frames := afterKey o as items t :: fs } : Reading).Sound S P (c.after t.type) owes' := by
  have hclob : c.inClob = false := h.inClob_of_not_clob (by simp [hr])
  have hafter : c.after t.type = c := by
    simp only [TokenType.keys, List.mem_cons, List.not_mem_nil, or_false] at htype
    rcases htype with htype | htype | htype | htype <;> rw [htype] <;> rfl
  rw [hafter]
  cases h.frames _ (by rw [hr]; exact List.mem_cons_self ..) with
  | between ha hlays =>
    exact h.reframe hr hp (afterKey_sound ht hclob hP htype ha hlays) rfl (by simp [Frame.opens]) _
  | member _ _ hphase => simp at hphase

/-- The colon after a key. -/
theorem Sound.colon {o : Token} {items reversed : List Node} {key : Node} (h : r.Sound S P c owes)
    (hr : r.frames = .struct o as items (.afterKey key reversed) :: fs) (hp : r.pending = none) (owes' : Bool) :
    ({ r with frames := .struct o as items (.afterColon key reversed) :: fs } : Reading).Sound S P c owes' := by
  cases h.frames _ (by rw [hr]; exact List.mem_cons_self ..) with
  | member ha hlays hphase hkey hcore =>
    obtain ⟨rfl, rfl⟩ : key = _ ∧ reversed = _ := by simpa using hphase
    exact h.reframe hr hp (.member ha hlays (.inr rfl) hkey hcore) rfl (by simp [Frame.opens]) _

/-- Each step keeps what is read laid out, and follows the scanner. -/
theorem Sound.step (h : r.Sound S P c owes) (ht : t.Spelled c) (hP : P → t.type = .longString → S.long)
    (hclose : owes = true → t.type ≠ .clobClose) (hstep : r.Step t r') :
    r'.Sound S P (c.after t.type) (LexContext.owesAfter owes t.type) := by
  cases hstep with
  | annotate hr htype =>
    have haw := h.awaitsValue hr
    have ha := annotationTexts_append h.annotations (annotationTexts_of_spelled (h.inClob_eq haw) ht htype)
    rw [htype]
    exact h.annotate haw ha _ _
  | blank hp htype =>
    obtain ⟨ha, haw⟩ := h.pending _ hp
    rw [htype]
    exact h.annotate haw ha _ _
  | scalar hr hn => exact h.scalar hr ht hP hn _
  | opening hr hf => exact h.opening hr hf
  | trivia hp hc hn => exact h.trivia hp ht hc hn
  | clobString _ hr _ hn => exact h.clobString hr ht hP hn _
  | closing hp hr htype => exact h.closing hr hp hclose htype _
  | comma hp hr hg htype =>
    rw [htype]
    exact h.comma hr hp hg _
  | key hp hr htype => exact h.key hr hp ht hP htype _
  | colon hp hr htype =>
    rw [htype]
    exact h.colon hr hp _

/-- What is read to the end is laid out. -/
theorem Sound.program {last : Token} {ts : List Token} {nodes : List Node} (h : r.Sound S P c owes)
    (hts : Token.Scan c owes ts) (hP : P → ∀ t ∈ ts, t.type = .longString → S.long) (hlast : last.type = .eof)
    (hprogram : Reading.program last r ts = .ok nodes) :
    ∃ ls, LaysOut S P layoutAll .top .top nodes ls := by
  have hfinish : ∀ {r : Reading} {c : LexContext} {owes : Bool} {t : Token}, r.Sound S P c owes →
      t.type = .eof → r.finish t = .ok nodes → ∃ ls, LaysOut S P layoutAll .top .top nodes ls := by
    intro r c owes t h ht hfinish
    obtain ⟨-, rfl⟩ := (finish_iff ht).mp hfinish
    exact h.done
  induction hts generalizing r with
  | done => exact hfinish h hlast hprogram
  | fault c owes ht =>
    rw [Reading.program, if_neg (by simp [ht])] at hprogram
    obtain ⟨r', hstep, -⟩ := except_bind_ok.mp hprogram
    exact absurd (by simp [ht]) (Step.of_step hstep).readable
  | @token c owes t ts ht hclob _ ih =>
    rw [Reading.program] at hprogram
    split at hprogram
    · rename_i hend
      exact hfinish h hend hprogram
    · obtain ⟨r', hstep, hrest⟩ := except_bind_ok.mp hprogram
      have hstepped := h.step ht (fun hp => hP hp t (by simp)) hclob (Step.of_step hstep)
      exact ih hstepped (fun hp u hu => hP hp u (by simp [hu])) hrest

end Reading

/-- The layout of every program has its content and its line comments; where it suits a breadth, and
no long string is read unless the breadth has them, it is well-formed. -/
theorem parse_laysOut_in (S : Breadth) {P : Prop} {file source : Text} {nodes : List Node}
    (h : parse file source = .ok nodes)
    (hP : P → ∀ t ∈ (TokenStream.ofSource file source).tokens, t.type = .longString → S.long) :
    ∃ ls, Node.LaysOut S P Node.layoutAll .top .top nodes ls := by
  have hscan := TokenStream.ofSource_scan file source
  have hlast : (TokenStream.ofSource file source).last.type = .eof := by
    obtain ⟨words, hscanned⟩ := TokenStream.ofSource_scanned file source
    exact hscanned.last_type
  refine Reading.Sound.program (r := {}) ⟨⟨[], rfl, fun _ _ => .nil _, rfl, rfl, rfl, rfl⟩, by simp, by simp,
    rfl, by simp, by simp⟩ hscan hP hlast h

/-- A program and its layout, which is well-formed where `P` holds and no s-expression is headed by
a pipe. -/
structure Node.LaysPlain (P : Prop) (ns ls : List Node) : Prop where
  laid : layoutAll ns = .ok ls
  row : P → pipeFreeAll ns = true → FusionKit.Row .top ls .top
  labels : ls.map Node.label = ns.map Node.label
  core : coreOf ls = erasedAll ns
  comments : lineCommentsOf ls = lineCommentsOf ns

/-- The layout of every program has its content and its line comments; where no long string is read
and no s-expression is headed by a pipe, it is well-formed. -/
theorem parse_laysOut {file source : Text} {nodes : List Node} (h : parse file source = .ok nodes) :
    ∃ ls, Node.LaysPlain (∀ t ∈ (TokenStream.ofSource file source).tokens, t.type ≠ .longString) nodes ls := by
  obtain ⟨ls, hls⟩ := parse_laysOut_in .plain
    (P := ∀ t ∈ (TokenStream.ofSource file source).tokens, t.type ≠ .longString) h id
  exact ⟨ls, hls.laid, fun hP hfree => hls.row hP (Node.allSuit_of_pipeFreeAll _ _ hfree), hls.labels,
    hls.core, hls.comments⟩

end FusionKit
