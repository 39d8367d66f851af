import FusionKit.Proofs.Leading

/-!
# Trees are read from their signs

Whatever tokens show the signs of a well-formed layout tree, they are parsed, and the layout of
what is parsed is that tree again, with newline runs joined where they meet. Trivia is gathered
between two words, so the induction carries the signs of trivia that no node is made of yet.
-/
set_option autoImplicit false

namespace FusionKit

open Lexeme (Spelling QuoteBody CommentBody isSpace isBase64 keyTypes)
open Token (signsOf Spaced)

/-- Neither the first nor the last token is white space. -/
structure Token.Tight (ts : List Token) : Prop where
  first : ∀ t, ts.head? = some t → t.type ≠ .whitespace
  last : ∀ t, ts.getLast? = some t → t.type ≠ .whitespace

theorem Token.whitespace_of_signs_nil {ts : List Token} (h : signsOf ts = []) :
    ∀ t ∈ ts, t.type = .whitespace := by
  intro t ht
  have hnil : t.signs = [] := List.flatMap_eq_nil_iff.mp h t ht
  by_contra hne
  unfold Token.signs at hnil
  split at hnil <;> simp_all

namespace Reading

/-- Annotations, or none, lead to the first token of the value. -/
theorem annotations_lead {r : Reading} (hr : r.TakesValue) {us : List Token} {t : Token}
    {as : List Text} (hsigns : signsOf us = as.map (.word .annotate)) (hspaced : Spaced (us ++ [t]))
    (hfirst : ∀ u, us.head? = some u → u.type ≠ .whitespace) (ht : t.type ∈ bodyTypes) :
    ∃ r', r.Leads us r' ∧ r'.step t = r'.value as t ∧ r'.done = r.done ∧ r'.frames = r.frames := by
  cases us with
  | nil =>
    obtain rfl : as = [] := by simpa using hsigns.symm
    refine ⟨r, .refl r, ?_, rfl, rfl⟩
    rw [hr.starts t (List.mem_cons_of_mem _ ht), expression, if_neg]
    intro h
    rw [h] at ht
    exact absurd ht (by decide)
  | cons u us =>
    have hchain := List.isChain_cons.mp hspaced
    obtain ⟨bs, rfl, htype, hsigns⟩ := exists_annotation (hfirst u rfl) hsigns
    have hstep : r.step u = .ok { r with pending := some ⟨[u.text], true⟩ } := by
      rw [hr.starts u (by rw [htype]; simp), expression, if_pos htype]
    obtain ⟨r', hleads, hr', hdone, hframes⟩ := pending_leads
      (r := { r with pending := some ⟨[u.text], true⟩ }) rfl hsigns hchain.2 ht (.inl rfl)
    exact ⟨r', Leads.trans (u := us) (.step (by rw [htype]; decide) hstep) hleads, hr', hdone, hframes⟩

end Reading

/-! ## Signs of values -/

namespace LaidIn

variable {S : Breadth} {b : Bool} {n : Node}

/-- The signs of a value start with a word and end with one. -/
theorem signs_ends (h : LaidIn S b n) :
    (∃ type w ss, n.signs = .word type w :: ss) ∧ ∃ type w ss, n.signs = ss ++ [.word type w] := by
  have hstart : ∀ (as : List Text) (type : TokenType) (w : Text) (ss : List Sign),
      ∃ type' w' ss', as.map (fun a => Sign.word .annotate a.settled) ++ .word type w :: ss =
        .word type' w' :: ss' := by
    intro as type w ss
    cases as with
    | nil => exact ⟨_, _, _, rfl⟩
    | cons a as => exact ⟨_, _, _, rfl⟩
  have hend : ∀ (ss : List Sign) (s : Sign) (us : List Sign) (type : TokenType) (w : Text),
      ∃ type' w' ss', ss ++ s :: (us ++ [.word type w]) = ss' ++ [.word type' w'] := by
    intro ss s us type w
    exact ⟨type, w, ss ++ s :: us, by simp⟩
  cases h with
  | scalar h =>
    cases h with
    | word hk =>
      simp only [wordKinds, List.mem_cons, Prod.mk.injEq, List.not_mem_nil, or_false] at hk
      rcases hk with ⟨-, rfl⟩ | ⟨-, rfl⟩ | ⟨-, rfl⟩ | ⟨-, rfl⟩ | ⟨-, rfl⟩ | ⟨-, rfl⟩ | ⟨-, rfl⟩ |
        ⟨-, rfl⟩ <;> exact ⟨hstart .., _, _, _, rfl⟩
    | string | long | blob => exact ⟨hstart .., _, _, _, rfl⟩
  | list => exact ⟨hstart .., hend ..⟩
  | sexpr => exact ⟨hstart .., hend ..⟩
  | struct => exact ⟨hstart .., hend ..⟩
  | clob => exact ⟨hstart .., hend ..⟩

/-- Tokens are split around a value. -/
theorem exists_split (h : LaidIn S b n) {ts : List Token} {ss us : List Sign}
    (hsigns : signsOf ts = ss ++ (n.signs ++ us)) :
    ∃ before middle after, ts = before ++ (middle ++ after) ∧ signsOf before = ss ∧
      signsOf middle = n.signs ∧ signsOf after = us ∧ Token.Tight middle := by
  obtain ⟨⟨type, w, ps, hstart⟩, type', w', qs, hend⟩ := h.signs_ends
  obtain ⟨before, u, rest, rfl, hbefore, hu, hrest⟩ := Token.exists_word_split
    (show signsOf ts = ss ++ .word type w :: (ps ++ us) by rw [hsigns, hstart]; rfl)
  have hfrom : signsOf (u :: rest) = qs ++ .word type' w' :: us := by
    rw [Token.signsOf_cons, hu, hrest, ← List.append_assoc, List.singleton_append, ← hstart, hend]
    simp
  obtain ⟨body, t, after, hsplit, hbody, ht, hafter⟩ := Token.exists_word_split hfrom
  refine ⟨before, body ++ [t], after, by rw [hsplit]; simp, hbefore, ?_, hafter, ?_, ?_⟩
  · rw [Token.signsOf_append, hbody, hend, Token.signsOf_cons, ht]
    rfl
  · intro v hv
    cases body with
    | nil =>
      obtain rfl : t = v := by simpa using hv
      exact Token.not_whitespace ht
    | cons x body =>
      obtain ⟨rfl, -⟩ := List.cons.inj hsplit
      obtain rfl : u = v := by simpa using hv
      exact Token.not_whitespace hu
  · intro v hv
    obtain rfl : t = v := by simpa using hv
    exact Token.not_whitespace ht

end LaidIn

/-! ## Values in their rows -/

/-- The layout of a node is a given tree, but for the places of its nodes. -/
def Node.LaidAs (m n : Node) : Prop := ∃ l, m.layout = .ok l ∧ l.unplaced = n

/-- Whatever tokens show the signs of a layout tree are parsed to a value that is laid out as this
tree is read. -/
def ReadBack (n : Node) : Prop :=
  ∀ ts, signsOf ts = n.signs → Spaced ts → Token.Tight ts →
    ∃ m : Node, m.LaidAs n.reread ∧ ∀ r : Reading, r.TakesValue → r.Leads ts (r.deliver m)

/-- The states of the parser within a form whose items are separated by commas or by nothing: with
a flag that tells whether an item may come next, and the items so far, last first. -/
structure Keeps (commas : Bool) (H : Bool → List Node → Reading) : Prop where
  trivia : ∀ ready acc (t : Token), t.IsTrivia →
    (H ready acc).step t = .ok (H ready (t.triviaNodes.reverse ++ acc))
  comma : commas = true → ∀ acc (t : Token), t.type = .comma →
    (H false acc).step t = .ok (H true acc)

/-- The states of the parser within a form whose items are values. -/
structure Holds (commas : Bool) (H : Bool → List Node → Reading) : Prop extends Keeps commas H where
  takes : ∀ acc, (H true acc).TakesValue
  deliver : ∀ acc m, (H true acc).deliver m = H (!commas) (m :: acc)

theorem Token.triviaNodes_of_signs_nil {ts : List Token} (h : signsOf ts = []) (hs : Spaced ts) :
    (∀ t ∈ ts, t.IsTrivia) ∧ ts.flatMap Token.triviaNodes = [] := by
  have htrivia : ∀ t ∈ ts, t.IsTrivia := Token.all_isTrivia (by simp [h])
  refine ⟨htrivia, ?_⟩
  have hnodes := Token.unplaced_triviaNodes htrivia hs
  rw [h] at hnodes
  cases hl : ts.flatMap Token.triviaNodes with
  | nil => rfl
  | cons n ns =>
    rw [hl] at hnodes
    cases hnodes

theorem Token.flatMap_isTrivia (ts : List Token) :
    ∀ n ∈ ts.flatMap Token.triviaNodes, n.IsTrivia := by
  intro n hn
  obtain ⟨t, -, hn⟩ := List.mem_flatMap.mp hn
  exact t.triviaNodes_isTrivia n hn

theorem Sign.all_append {ss us : List Sign} (hs : ∀ s ∈ ss, s.isTrivia = true)
    (hu : ∀ s ∈ us, s.isTrivia = true) : ∀ s ∈ ss ++ us, s.isTrivia = true := fun s h =>
  (List.mem_append.mp h).elim (hs s) (hu s)

theorem Token.IsTrivia.not_eof {t : Token} (h : t.IsTrivia) : t.type ≠ .eof := by
  intro ht
  rw [Token.IsTrivia, ht] at h
  simp at h

section

variable {commas : Bool} {H : Bool → List Node → Reading}

theorem Keeps.trivia_leads (hH : Keeps commas H) {us : List Token} (hus : ∀ t ∈ us, t.IsTrivia)
    (ready : Bool) (acc : List Node) :
    (H ready acc).Leads us (H ready ((us.flatMap Token.triviaNodes).reverse ++ acc)) := by
  induction us generalizing acc with
  | nil => exact .refl _
  | cons t us ih =>
    have ht := hus t (by simp)
    have hstep := Reading.Leads.step ht.not_eof (hH.trivia ready acc t ht)
    have hrest := ih (fun u hu => hus u (by simp [hu])) (t.triviaNodes.reverse ++ acc)
    have := hstep.trans hrest
    rwa [List.singleton_append, ← List.append_assoc, ← List.reverse_append,
      ← List.flatMap_cons] at this

/-- Between a value and what follows it there is a comma if another value follows. -/
theorem Keeps.exists_comma {n : Node} {ns : List Node} (hn : n.isValue = true) {after : List Token}
    {ss : List Sign} (hafter : signsOf after = Node.commaSigns commas n ns ++ ss)
    (hspaced : Spaced after) :
    ∃ between others, after = between ++ others ∧ signsOf others = ss ∧
      ∀ {H}, Keeps commas H → ∀ acc, ∃ ready, (H (!commas) acc).Leads between (H ready acc) ∧
        (ns.any Node.isValue = true → ready = true) := by
  by_cases hc : (commas && n.isValue && ns.any Node.isValue) = true
  · rw [Node.commaSigns, if_pos hc] at hafter
    simp only [Bool.and_eq_true] at hc
    obtain ⟨gap, t, others, rfl, hgap, ht, hothers⟩ := 
      Token.exists_word_split (show signsOf after = [] ++ .word .comma (utf8 ",") :: ss from hafter)
    obtain ⟨hgtrivia, hgnodes⟩ := Token.triviaNodes_of_signs_nil hgap hspaced.append.1
    refine ⟨gap ++ [t], others, by simp, hothers, fun hH acc => ⟨true, ?_, fun _ => rfl⟩⟩
    rw [hc.1.1]
    have htype := (Token.of_signs_word ht).1
    have hgap := hH.trivia_leads hgtrivia false acc
    rw [hgnodes] at hgap
    exact Reading.Leads.trans hgap (.step (by rw [htype]; decide) (hH.comma hc.1.1 acc t htype))
  · rw [Node.commaSigns, if_neg hc] at hafter
    refine ⟨[], after, rfl, hafter, fun _ acc => ⟨!commas, .refl _, fun hany => ?_⟩⟩
    rw [hn, hany] at hc
    simpa using hc

/-- A row of values, comments and newline runs is read item by item. -/
theorem Holds.row_reads {S : Breadth} {s t : Slot} {items : List Node}
    (h : LaidRow (fun b n => LaidIn S b n ∧ ReadBack n) s items t) (hs : s ∈ [Slot.top, .list, .sexpr]) :
    ∀ pending ts, (∀ p ∈ pending, p.isTrivia = true) →
      signsOf ts = pending ++ Node.signsOf commas items → Spaced ts →
      ∃ nodes ls, Node.layoutAll nodes = .ok ls ∧
        Node.unplacedAll ls = Node.rereadFrom pending items ∧
        ∀ {H}, Holds commas H → ∀ ready acc, (items.any Node.isValue = true → ready = true) →
          ∃ ready', (H ready acc).Leads ts (H ready' (nodes.reverse ++ acc)) := by
  induction h with
  | nil s =>
    intro pending ts hp hsigns hspaced
    rw [Node.signsOf, List.append_nil] at hsigns
    have htrivia := Token.all_isTrivia (by rw [hsigns]; exact hp)
    refine ⟨_, _, Node.layoutAll_trivia (Token.flatMap_isTrivia ts), ?_, fun hH ready acc _ =>
      ⟨ready, hH.trivia_leads htrivia ready acc⟩⟩
    rw [Token.unplaced_triviaNodes htrivia hspaced, hsigns]
    rfl
  | @newlines s t k span ns hn _ ih =>
    intro pending ts hp hsigns hspaced
    rw [Node.signsOf_skip rfl, ← List.append_assoc] at hsigns
    rw [Node.any_isValue_skip rfl, Node.rereadFrom_skip rfl]
    exact ih hs _ ts (Sign.all_append hp (Node.isTrivia_signs_newlineRun _ _)) hsigns hspaced
  | @line s t v k span span' ns hs' hv hn _ ih =>
    intro pending ts hp hsigns hspaced
    rw [Node.signsOf_skip rfl, Node.signsOf_skip rfl, ← List.append_assoc, ← List.append_assoc] at hsigns
    rw [Node.any_isValue_skip rfl, Node.any_isValue_skip rfl, Node.rereadFrom_skip rfl,
      Node.rereadFrom_skip rfl]
    exact ih hs _ ts (Sign.all_append (Sign.all_append hp (by simp [Node.signs_lineComment, Sign.isTrivia]))
      (Node.isTrivia_signs_newlineRun _ _)) hsigns hspaced
  | @block s t ls span ns hs' hl _ ih =>
    intro pending ts hp hsigns hspaced
    rw [Node.signsOf_skip rfl, ← List.append_assoc] at hsigns
    rw [Node.any_isValue_skip rfl, Node.rereadFrom_skip rfl]
    exact ih hs _ ts (Sign.all_append hp (by simp [Node.signs_blockComment, Sign.isTrivia])) hsigns hspaced
  | key hv _ ih => simp at hs
  | @value s s' t n ns hs' hn _ ih =>
    intro pending ts hp hsigns hspaced
    obtain ⟨hlaid, hread⟩ := hn
    have hslot : s' ∈ [Slot.top, .list, .sexpr] := by
      cases s <;> simp [Slot.afterValue?] at hs' hs ⊢ <;> simp [← hs']
    rw [Node.signsOf, List.append_assoc] at hsigns
    obtain ⟨before, middle, after, rfl, hbefore, hmiddle, hafter, htight⟩ := hlaid.exists_split hsigns
    have hbtrivia : ∀ t ∈ before, t.IsTrivia := Token.all_isTrivia (by rw [hbefore]; exact hp)
    obtain ⟨m, ⟨l, hlayout, hl⟩, hdelivers⟩ :=
      hread middle hmiddle hspaced.append.2.append.1 htight
    obtain ⟨between, others, rfl, hothers, hcomma⟩ :=
      Keeps.exists_comma hlaid.isValue hafter hspaced.append.2.append.2
    obtain ⟨nodes, ls, hnodes, hls, hleads⟩ := ih hslot [] others (by simp)
      hothers hspaced.append.2.append.2.append.2
    refine ⟨before.flatMap Token.triviaNodes ++ m :: nodes,
      before.flatMap Token.triviaNodes ++ l :: ls, ?_, ?_, fun {H} hH ready acc hready => ?_⟩
    · refine Node.layoutAll_append (Node.layoutAll_trivia (Token.flatMap_isTrivia before)) ?_
      rw [Node.layoutAll, hlayout, hnodes]
      rfl
    · rw [Node.unplacedAll_append, Node.unplacedAll, hl, hls,
        Token.unplaced_triviaNodes hbtrivia hspaced.append.1, hbefore,
        Node.rereadFrom_content hlaid.isContent]
    · obtain rfl : ready = true := hready (by simp [hlaid.isValue])
      have hfront : (H true acc).Leads (before ++ middle)
          (H (!commas) (m :: ((before.flatMap Token.triviaNodes).reverse ++ acc))) := by
        refine (hH.trivia_leads hbtrivia true acc).trans ?_
        have := hdelivers _ (hH.takes ((before.flatMap Token.triviaNodes).reverse ++ acc))
        rwa [hH.deliver] at this
      obtain ⟨ready', hbetween, hready'⟩ :=
        hcomma hH.toKeeps (m :: ((before.flatMap Token.triviaNodes).reverse ++ acc))
      obtain ⟨ready'', hrest⟩ := hleads hH ready' _ hready'
      have := hfront.trans (hbetween.trans hrest)
      exact ⟨ready'', by simpa [List.append_assoc] using this⟩
  | string hw _ ih => simp at hs

end

/-! ## Forms -/

namespace Reading

variable {done : List Node} {o : Token} {a : List Text} {fs : List Frame}

theorem takesValue_of_place {r : Reading} (hp : r.pending = none) (hr : r.HasPlace) : r.TakesValue :=
  ⟨hp, fun _ ht => hr.expression_eq hp ht⟩

theorem step_trivia {r : Reading} {t : Token} (hp : r.pending = none)
    (hc : ∀ o a items fs, r.frames ≠ .clob o a items :: fs) (ht : t.IsTrivia) :
    r.step t = .ok (r.keep t.triviaNodes) :=
  step_eq_trivia hp (fun o a items fs hr => absurd hr (hc o a items fs)) (Token.trivia?_of_isTrivia ht)

theorem holds_top : Holds false fun _ acc => ⟨acc, [], none⟩ where
  trivia ready acc t ht := step_trivia rfl (by simp) ht
  takes acc := takesValue_of_place rfl (.inr (by simp))
  deliver acc m := rfl
  comma h := by contradiction

theorem holds_sexpr : Holds false fun _ acc => ⟨done, .sexpr o a acc :: fs, none⟩ where
  trivia ready acc t ht := step_trivia rfl (by simp) ht
  takes acc := takesValue_of_place rfl (.inr (by simp [Frame.hasPlace]))
  deliver acc m := rfl
  comma h := by contradiction

theorem holds_list : Holds true fun ready acc => ⟨done, .list o a acc ready :: fs, none⟩ where
  trivia ready acc t ht := step_trivia rfl (by simp) ht
  takes acc := takesValue_of_place rfl (.inr (by simp [Frame.hasPlace]))
  deliver acc m := rfl
  comma _ acc t ht := step_eq_comma rfl rfl rfl ht

end Reading

/-- The tokens of an annotated form: annotations, an opening token, a body and a closing token. -/
structure FormTokens (ts : List Token) (as : List Text) (opening closing : TokenType)
    (inner : List Sign) where
  front : List Token
  first : Token
  body : List Token
  last : Token
  split : ts = front ++ first :: (body ++ [last])
  front_signs : signsOf front = as.map (.word .annotate)
  front_spaced : Spaced (front ++ [first])
  front_head : ∀ u, front.head? = some u → u.type ≠ .whitespace
  first_type : first.type = opening
  body_signs : signsOf body = inner
  body_spaced : Spaced body
  last_type : last.type = closing

theorem exists_formTokens {ts : List Token} {as : List Text} {ot ct : TokenType} {ow cw : Text}
    {inner : List Sign}
    (h : signsOf ts = as.map (.word .annotate) ++ .word ot ow :: (inner ++ [.word ct cw]))
    (hspaced : Spaced ts) (htight : Token.Tight ts) : Nonempty (FormTokens ts as ot ct inner) := by
  obtain ⟨front, t, rest, rfl, hfront, ht, hrest⟩ := Token.exists_word_split h
  obtain ⟨body, c, after, rfl, hbody, hc, hafter⟩ := Token.exists_word_split hrest
  obtain rfl : after = [] := by
    by_contra hne
    have hlast : (front ++ t :: (body ++ c :: after)).getLast? = some (after.getLast hne) := by
      rw [show front ++ t :: (body ++ c :: after) = (front ++ t :: (body ++ [c])) ++ after by simp,
        List.getLast?_append_of_ne_nil _ hne, List.getLast?_eq_some_getLast hne]
    exact htight.last _ hlast (Token.whitespace_of_signs_nil hafter _ (List.getLast_mem hne))
  have hbspaced : Spaced body := by
    have hfrom : Spaced (t :: (body ++ [c])) := hspaced.append.2
    exact Spaced.append (List.isChain_cons.mp hfrom).2 |>.1
  refine ⟨{ front, first := t, body, last := c, split := rfl, front_signs := hfront, front_spaced := ?_,
            front_head := ?_, first_type := (Token.of_signs_word ht).1, body_signs := hbody,
            body_spaced := hbspaced,
            last_type := (Token.of_signs_word hc).1 }⟩
  · rw [show front ++ t :: (body ++ [c]) = (front ++ [t]) ++ (body ++ [c]) by simp] at hspaced
    exact hspaced.append.1
  · intro u hu
    refine htight.first u ?_
    cases front with
    | nil => simp at hu
    | cons x front => simpa using hu

/-- A form is read when its opening token opens a frame, its body leads on within that frame and
its closing token closes it. -/
theorem FormTokens.leads {ts : List Token} {as : List Text} {ot ct : TokenType} {inner : List Sign}
    (h : FormTokens ts as ot ct inner) (before : Frame) {m : Node} (hot : ot ∈ Reading.bodyTypes)
    (hct : ct ≠ .eof) (hopen : ∀ r : Reading, r.value as h.first = .ok (r.enter before))
    (hbody : ∀ done fs, ∃ after,
      Reading.Leads ⟨done, before :: fs, none⟩ h.body ⟨done, after :: fs, none⟩ ∧
      Reading.step ⟨done, after :: fs, none⟩ h.last = .ok (Reading.deliver ⟨done, fs, none⟩ m))
    {r : Reading} (hr : r.TakesValue) : r.Leads ts (r.deliver m) := by
  obtain ⟨r', hfront, hstep, hdone, hframes⟩ := Reading.annotations_lead hr h.front_signs
    h.front_spaced h.front_head (by rw [h.first_type]; exact hot)
  rw [hopen] at hstep
  have hfirst := Reading.Leads.step (by rw [h.first_type]; rintro rfl; exact absurd hot (by decide)) hstep
  obtain ⟨after, hbody, hclose⟩ := hbody r'.done r'.frames
  have hlast := Reading.Leads.step (by rw [h.last_type]; exact hct) hclose
  have hleads := hfront.trans (hfirst.trans (hbody.trans hlast))
  rw [h.split, ← Reading.deliver_congr (show (Reading.mk r'.done r'.frames none).done = r.done from hdone) hframes]
  simpa using hleads

theorem Node.laidAs_form {kind : Kind} {span span' : Span} {as : List Text} {nodes ls items : List Node}
    (hlayout : layout ⟨{ kind, span := span', annotations := as.map Text.settled }, nodes⟩ =
      .ok ⟨{ kind, span := span', annotations := as.map Text.settled }, ls⟩)
    (hls : unplacedAll ls = rereadFrom [] items) :
    LaidAs ⟨{ kind, span := span', annotations := as.map Text.settled }, nodes⟩
      (reread ⟨{ kind, span, annotations := as }, items⟩) := by
  refine ⟨_, hlayout, ?_⟩
  rw [unplaced, hls, reread, Label.reread]
  simp only [Text.settled, Text.chars, Text.glyphs]
  split <;> rfl

theorem Node.laidAs_scalar {kind : Kind} {value : Text} {span span' : Span} {as : List Text}
    (h : kind ∈ [Kind.null, .boolean, .integer, .real, .timestamp, .symbol, .quotedString,
      .multilineString, .blob]) :
    LaidAs ⟨{ kind, span := span', annotations := as.map Text.settled,
              value := if kind = .blob then value.settled else value }, []⟩
      (reread ⟨{ kind, span, annotations := as, value }, []⟩) := by
  refine ⟨⟨{ kind, span := span', annotations := as.map Text.settled,
             value := if kind = .blob then value.settled else value }, []⟩, ?_, rfl⟩
  refine layout_eq_ok.mpr (.leaf ?_)
  revert h
  cases kind <;> simp

/-- Annotations are read as they are shown, without blanks at line ends. -/
theorem Label.annotationSigns_eq (l : Label) :
    l.annotationSigns = (l.annotations.map Text.settled).map (.word .annotate) := by
  rw [annotationSigns, List.map_map]
  rfl

/-! ## Rows of struct members -/

namespace Reading

theorem keeps_between (done : List Node) (o : Token) (a : List Text) (fs : List Frame) :
    Keeps true fun ready acc => ⟨done, .struct o a acc (.between ready) :: fs, none⟩ where
  trivia ready acc t ht := step_trivia rfl (by simp) ht
  comma _ acc t ht := step_eq_comma rfl rfl rfl ht

theorem keeps_afterKey (done : List Node) (o : Token) (a : List Text) (fs : List Frame)
    (items : List Node) (key : Node) :
    Keeps false fun _ acc => ⟨done, .struct o a items (.afterKey key acc) :: fs, none⟩ where
  trivia ready acc t ht := step_trivia rfl (by simp) ht
  comma h := by contradiction

theorem keeps_afterColon (done : List Node) (o : Token) (a : List Text) (fs : List Frame)
    (items : List Node) (key : Node) :
    Keeps false fun _ acc => ⟨done, .struct o a items (.afterColon key acc) :: fs, none⟩ where
  trivia ready acc t ht := step_trivia rfl (by simp) ht
  comma h := by contradiction

theorem takesValue_afterColon (done : List Node) (o : Token) (a : List Text) (items : List Node)
    (key : Node) (rev : List Node) (fs : List Frame) :
    TakesValue ⟨done, .struct o a items (.afterColon key rev) :: fs, none⟩ :=
  takesValue_of_place rfl (.inr (by simp [Frame.hasPlace]))

end Reading

theorem KeyText.wordType_mem {v : Text} (h : KeyText v) :
    wordType .structKey v ∈ keyTypes := by
  obtain ⟨type, w, rfl, ht, hw, -⟩ := h
  rwa [wordType_of_spelling .structKey hw (by simp) (List.mem_cons_of_mem _ ht)]

/-- How tokens are read between the members of a struct. -/
def ReadsMembers (items : List Node) (pending : List Sign) (ts : List Token) : Prop :=
  ∃ nodes ls, Node.layoutStruct nodes = .ok ls ∧
    Node.unplacedAll ls = Node.rereadFrom pending items ∧
    ∀ done o a acc fs ready, (items.any Node.isValue = true → ready = true) →
      ∃ ready', Reading.Leads ⟨done, .struct o a acc (.between ready) :: fs, none⟩ ts
        ⟨done, .struct o a (nodes.reverse ++ acc) (.between ready') :: fs, none⟩

/-- How tokens are read after a key and its colon; `rev` is what is read from the key on. -/
def ReadsValue (items : List Node) (pending : List Sign) (ts : List Token) : Prop :=
  ∀ key rev ks, Node.layoutMember rev.reverse = .ok ks → ∃ nodes ls,
    Node.layoutStruct nodes = .ok (ks ++ ls) ∧
    Node.unplacedAll ls = Node.rereadFrom pending items ∧
    ∀ done o a acc fs,
      ∃ ready, Reading.Leads ⟨done, .struct o a acc (.afterColon key rev) :: fs, none⟩ ts
        ⟨done, .struct o a (nodes.reverse ++ acc) (.between ready) :: fs, none⟩

theorem readsMembers_key {S : Breadth} {v : Text} {span : Span} {ns : List Node} (hv : KeyText v)
    (hrow : LaidRow (fun b n => LaidIn S b n ∧ ReadBack n) .value ns .key)
    (ih : ∀ ts, signsOf ts = [] ++ Node.signsOf true ns → Spaced ts → ReadsValue ns [] ts)
    {pending : List Sign} {ts : List Token} (hp : ∀ p ∈ pending, p.isTrivia = true)
    (hsigns : signsOf ts = pending ++ Node.signsOf true (.structKey v span :: ns))
    (hspaced : Spaced ts) : ReadsMembers (.structKey v span :: ns) pending ts := by
  have hkey : Node.signsOf true (.structKey v span :: ns) =
      .word (wordType .structKey v) v :: .word .colon (utf8 ":") :: Node.signsOf true ns := rfl
  rw [hkey] at hsigns
  obtain ⟨before, t, rest, rfl, hbefore, ht, hrest⟩ := Token.exists_word_split hsigns
  obtain ⟨gap, c, others, rfl, hgap, hc, hothers⟩ := 
    Token.exists_word_split
      (show signsOf rest = [] ++ .word .colon (utf8 ":") :: Node.signsOf true ns from hrest)
  have hafter : Spaced (gap ++ c :: others) := (List.isChain_cons.mp hspaced.append.2).2
  have hbtrivia : ∀ t ∈ before, t.IsTrivia := Token.all_isTrivia (by rw [hbefore]; exact hp)
  obtain ⟨hgtrivia, hgnodes⟩ := Token.triviaNodes_of_signs_nil hgap hafter.append.1
  obtain ⟨htype, htext⟩ := Token.of_signs_word ht
  have hctype := (Token.of_signs_word hc).1
  obtain ⟨nodes, ls, hnodes, hls, hleads⟩ := ih others hothers
    (List.isChain_cons.mp hafter.append.2).2 (.leaf .structKey t t.text) [.leaf .structKey t t.text]
    [⟨{ kind := .structKey, span := t.span, value := v }, []⟩] (by
      rw [List.reverse_singleton, Node.layoutMember_cons, htext]
      rfl)
  refine ⟨before.flatMap Token.triviaNodes ++ nodes, before.flatMap Token.triviaNodes ++
    ⟨{ kind := .structKey, span := t.span, value := v }, []⟩ :: ls, ?_, ?_, ?_⟩
  · exact Node.layoutStruct_append (Node.layoutStruct_trivia (Token.flatMap_isTrivia before)) hnodes
  · rw [Node.unplacedAll_append, Node.unplacedAll, hls,
      Token.unplaced_triviaNodes hbtrivia hspaced.append.1, hbefore, Node.rereadFrom_content rfl]
    rfl
  · intro done o a acc fs ready hready
    obtain rfl : ready = true := hready (by
      rw [List.any_cons, hrow.any_isValue (fun _ _ h => h.1.isValue) rfl, Bool.or_true])
    have hfirst := (Reading.keeps_between done o a fs)
      |>.trivia_leads hbtrivia true acc
    have hkeys := hv.wordType_mem
    rw [← htype] at hkeys
    have hstep := Reading.step_eq_key (r := ⟨done, .struct o a ((before.flatMap Token.triviaNodes).reverse ++ acc)
      (.between true) :: fs, none⟩) rfl rfl hkeys
    have hword := Reading.Leads.step (fun h => absurd (h ▸ hkeys) (by decide)) hstep
    have hmiddle := Reading.keeps_afterKey done o a fs
      ((before.flatMap Token.triviaNodes).reverse ++ acc) (.leaf .structKey t t.text)
      |>.trivia_leads hgtrivia true [.leaf .structKey t t.text]
    rw [hgnodes] at hmiddle
    have hcolon := Reading.Leads.step (by rw [hctype]; decide) (Reading.Step.step_eq (.colon (r := ⟨done,
      .struct o a ((before.flatMap Token.triviaNodes).reverse ++ acc) (.afterKey (.leaf .structKey t t.text)
        [.leaf .structKey t t.text]) :: fs, none⟩) rfl rfl hctype))
    obtain ⟨ready', hlast⟩ :=
      hleads done o a ((before.flatMap Token.triviaNodes).reverse ++ acc) fs
    have := hfirst.trans (hword.trans (hmiddle.trans (hcolon.trans hlast)))
    exact ⟨ready', by simpa [List.append_assoc] using this⟩

theorem readsValue_value {S : Breadth} {n : Node} {ns : List Node} (hlaid : LaidIn S false n) (hread : ReadBack n)
    (ih : ∀ ts, signsOf ts = [] ++ Node.signsOf true ns → Spaced ts → ReadsMembers ns [] ts)
    {pending : List Sign} {ts : List Token} (hp : ∀ p ∈ pending, p.isTrivia = true)
    (hsigns : signsOf ts = pending ++ Node.signsOf true (n :: ns))
    (hspaced : Spaced ts) : ReadsValue (n :: ns) pending ts := by
  intro key rev ks hks
  rw [Node.signsOf, List.append_assoc] at hsigns
  obtain ⟨before, middle, after, rfl, hbefore, hmiddle, hafter, htight⟩ := hlaid.exists_split hsigns
  have hbtrivia : ∀ t ∈ before, t.IsTrivia := Token.all_isTrivia (by rw [hbefore]; exact hp)
  obtain ⟨m, ⟨l, hlayout, hl⟩, hdelivers⟩ := hread middle hmiddle hspaced.append.2.append.1 htight
  obtain ⟨between, others, rfl, hothers, hcomma⟩ :=
    Keeps.exists_comma hlaid.isValue hafter hspaced.append.2.append.2
  obtain ⟨nodes, ls, hnodes, hls, hleads⟩ := ih others hothers hspaced.append.2.append.2.append.2
  have hm : Node.layoutMember (rev.reverse ++ before.flatMap Token.triviaNodes ++ [m]) =
      .ok (ks ++ before.flatMap Token.triviaNodes ++ [l]) := by
    refine Node.layoutMember_append (Node.layoutMember_append hks
      (Node.layoutMember_trivia (Token.flatMap_isTrivia before))) ?_
    have hkey : m.kind ≠ .structKey := by
      intro h
      obtain ⟨⟨kind⟩, below⟩ := m
      obtain rfl : kind = .structKey := h
      simp [Node.layout] at hlayout
    exact Node.layoutMember_eq_ok.mpr (.cons (.other hkey hlayout) .nil)
  refine ⟨.ofMember key m ((before.flatMap Token.triviaNodes).reverse ++ rev) :: nodes,
    before.flatMap Token.triviaNodes ++ l :: ls, ?_, ?_, ?_⟩
  · have hkind : (Node.ofMember key m ((before.flatMap Token.triviaNodes).reverse ++ rev)).kind =
        .structMember := rfl
    rw [Node.layoutStruct_cons, if_pos hkind]
    have hitems : (Node.ofMember key m ((before.flatMap Token.triviaNodes).reverse ++ rev)).items =
        rev.reverse ++ before.flatMap Token.triviaNodes ++ [m] := by
      simp [Node.ofMember]
    rw [hitems, hm, hnodes]
    simp [bind, Except.bind]
  · rw [Node.unplacedAll_append, Node.unplacedAll, hl, hls,
      Token.unplaced_triviaNodes hbtrivia hspaced.append.1, hbefore,
      Node.rereadFrom_content hlaid.isContent]
  · intro done o a acc fs
    have hfirst := Reading.keeps_afterColon done o a fs acc key |>.trivia_leads hbtrivia true rev
    have hvalue := hdelivers _ (Reading.takesValue_afterColon done o a acc key
      ((before.flatMap Token.triviaNodes).reverse ++ rev) fs)
    obtain ⟨ready, hbetween, hready⟩ := hcomma (Reading.keeps_between done o a fs)
      (.ofMember key m ((before.flatMap Token.triviaNodes).reverse ++ rev) :: acc)
    obtain ⟨ready', hlast⟩ := hleads done o a
      (.ofMember key m ((before.flatMap Token.triviaNodes).reverse ++ rev) :: acc) fs ready hready
    have := hfirst.trans (hvalue.trans (hbetween.trans hlast))
    exact ⟨ready', by simpa [List.append_assoc] using this⟩

theorem ReadsMembers.skip {n : Node} {ns : List Node} (hn : n.isContent = false)
    {pending : List Sign} {ts : List Token} (h : ReadsMembers ns (pending ++ n.signs) ts) :
    ReadsMembers (n :: ns) pending ts := by
  unfold ReadsMembers
  rwa [Node.rereadFrom_skip hn, Node.any_isValue_skip hn]

theorem ReadsValue.skip {n : Node} {ns : List Node} (hn : n.isContent = false)
    {pending : List Sign} {ts : List Token} (h : ReadsValue ns (pending ++ n.signs) ts) :
    ReadsValue (n :: ns) pending ts := by
  unfold ReadsValue
  rwa [Node.rereadFrom_skip hn]

/-- A row of keys and values is read member by member. -/
theorem struct_row_reads {S : Breadth} {s : Slot} {items : List Node}
    (h : LaidRow (fun b n => LaidIn S b n ∧ ReadBack n) s items .key) :
    ∀ pending ts, (∀ p ∈ pending, p.isTrivia = true) →
      signsOf ts = pending ++ Node.signsOf true items → Spaced ts →
      (s = .key → ReadsMembers items pending ts) ∧ (s = .value → ReadsValue items pending ts) := by
  generalize ht : Slot.key = t at h
  induction h with
  | nil s =>
    subst ht
    intro pending ts hp hsigns hspaced
    rw [Node.signsOf, List.append_nil] at hsigns
    have htrivia := Token.all_isTrivia (by rw [hsigns]; exact hp)
    refine ⟨fun _ => ⟨_, _, Node.layoutStruct_trivia (Token.flatMap_isTrivia ts), ?_, ?_⟩,
      fun h => by contradiction⟩
    · rw [Token.unplaced_triviaNodes htrivia hspaced, hsigns]
      rfl
    · intro done o a acc fs ready _
      exact ⟨ready, (Reading.keeps_between done o a fs).trivia_leads htrivia ready acc⟩
  | @newlines s t k span ns hn _ ih =>
    intro pending ts hp hsigns hspaced
    rw [Node.signsOf_skip rfl, ← List.append_assoc] at hsigns
    have hreads := ih ht _ ts (Sign.all_append hp (Node.isTrivia_signs_newlineRun _ _)) hsigns hspaced
    exact ⟨fun hs => (hreads.1 hs).skip rfl, fun hs => (hreads.2 hs).skip rfl⟩
  | @line s t v k span span' ns hs' hv hn _ ih =>
    intro pending ts hp hsigns hspaced
    rw [Node.signsOf_skip rfl, Node.signsOf_skip rfl, ← List.append_assoc, ← List.append_assoc] at hsigns
    have hreads := ih ht _ ts (Sign.all_append (Sign.all_append hp
      (by simp [Node.signs_lineComment, Sign.isTrivia])) (Node.isTrivia_signs_newlineRun _ _)) hsigns hspaced
    exact ⟨fun hs => ((hreads.1 hs).skip rfl).skip rfl, fun hs => ((hreads.2 hs).skip rfl).skip rfl⟩
  | @block s t ls span ns hs' hl _ ih =>
    intro pending ts hp hsigns hspaced
    rw [Node.signsOf_skip rfl, ← List.append_assoc] at hsigns
    have hreads := ih ht _ ts (Sign.all_append hp
      (by simp [Node.signs_blockComment, Sign.isTrivia])) hsigns hspaced
    exact ⟨fun hs => (hreads.1 hs).skip rfl, fun hs => (hreads.2 hs).skip rfl⟩
  | @key t v span ns hv hrow ih =>
    subst ht
    intro pending ts hp hsigns hspaced
    exact ⟨fun _ => readsMembers_key hv hrow
      (fun ts hts hs => (ih rfl [] ts (by simp) hts hs).2 rfl) hp hsigns hspaced,
      fun h => by contradiction⟩
  | @value s s' t n ns hs' hn _ ih =>
    subst ht
    intro pending ts hp hsigns hspaced
    refine ⟨?_, ?_⟩
    · rintro rfl
      simp [Slot.afterValue?] at hs'
    · rintro rfl
      obtain rfl : Slot.key = s' := by simpa [Slot.afterValue?] using hs'
      exact readsValue_value hn.1 hn.2
        (fun ts hts hs => (ih rfl [] ts (by simp) hts hs).1 rfl) hp hsigns hspaced
  | string hw _ ih =>
    intro pending ts hp hsigns hspaced
    exact ⟨fun h => by simp [← h] at ht, fun h => by contradiction⟩

/-! ## Rows of clob strings -/

namespace Reading

theorem clob_leads (done : List Node) (o : Token) (a : List Text) (fs : List Frame) {us : List Token}
    (hus : ∀ t ∈ us, t.type = .whitespace) (acc : List Node) :
    Leads ⟨done, .clob o a acc :: fs, none⟩ us
      ⟨done, .clob o a ((us.flatMap Token.triviaNodes).reverse ++ acc) :: fs, none⟩ := by
  induction us generalizing acc with
  | nil => exact .refl _
  | cons t us ih =>
    have ht := hus t (by simp)
    have hstep : step ⟨done, .clob o a acc :: fs, none⟩ t =
        .ok ⟨done, .clob o a (t.triviaNodes.reverse ++ acc) :: fs, none⟩ :=
      step_eq_trivia rfl (fun _ _ _ _ _ => ht) (Token.trivia?_of_isTrivia (by simp [Token.IsTrivia, ht]))
    have hrest := ih (fun u hu => hus u (by simp [hu])) (t.triviaNodes.reverse ++ acc)
    have := (Leads.step (by rw [ht]; decide) hstep).trans hrest
    rwa [List.singleton_append, ← List.append_assoc, ← List.reverse_append,
      ← List.flatMap_cons] at this

end Reading

/-- Tokens that show nothing but line breaks are white space. -/
theorem Token.whitespace_of_breaks {ts : List Token} (h : ∀ s ∈ signsOf ts, s = .brk) :
    ∀ t ∈ ts, t.type = .whitespace := by
  intro t ht
  have hsigns : ∀ s ∈ t.signs, s = .brk := fun s hs => h s (List.mem_flatMap_of_mem ht hs)
  by_contra hne
  unfold Token.signs at hsigns
  split at hsigns <;> simp_all

theorem Node.fitsClob_trivia {ts : List Token} (h : ∀ t ∈ ts, t.type = .whitespace) :
    ∀ n ∈ ts.flatMap Token.triviaNodes, n.fitsClob = true := by
  intro n hn
  obtain ⟨t, ht, hn⟩ := List.mem_flatMap.mp hn
  have htype := h t ht
  simp only [Token.triviaNodes, Node.trivia?, htype, Option.getD_some, Node.newlines?] at hn
  split at hn
  · simp at hn
  · obtain rfl := List.mem_singleton.mp hn
    rfl

/-- A string of a clob is read from its token. -/
theorem ClobString.reads {n : Node} (h : ClobString n) :
    ∃ type text, n.signs = [.word type text] ∧ (type = .string ∨ type = .longString) ∧
      ∀ t : Token, t.type = type → t.text = text →
        ∃ m : Node, Node.scalar? t = some m ∧ m.layout = .ok m ∧ m.unplaced = n.reread ∧ m.fitsClob = true := by
  cases h with
  | @short w span hw =>
    refine ⟨.string, utf8 "\"" ++ Text.ofChars w ++ utf8 "\"", rfl, .inl rfl, fun t htype htext => ?_⟩
    refine ⟨⟨{ kind := .quotedString, span := t.span, value := Text.ofChars w }, []⟩, ?_, rfl, rfl, rfl⟩
    simp only [Node.scalar?, htype, htext, Node.unwrap, List.append_assoc, Text.trimStart_append,
      Text.trimEnd_append]
    rfl
  | @long w span hw =>
    refine ⟨.longString, utf8 "'''" ++ Text.ofChars w ++ utf8 "'''", rfl, .inr rfl, fun t htype htext => ?_⟩
    refine ⟨⟨{ kind := .multilineString, span := t.span, value := Text.ofChars w }, []⟩, ?_, rfl, rfl, rfl⟩
    simp only [Node.scalar?, htype, htext, Node.unwrap, List.append_assoc, Text.trimStart_append,
      Text.trimEnd_append]
    rfl

/-- A row of strings and newline runs is read item by item. -/
theorem clob_row_reads {S : Breadth} {s t : Slot} {items : List Node}
    (h : LaidRow (fun b n => LaidIn S b n ∧ ReadBack n) s items t) (hs : s = .clob) :
    ∀ pending ts, (∀ p ∈ pending, p = .brk) → signsOf ts = pending ++ Node.signsOf false items →
      Spaced ts →
      ∃ nodes ls, Node.layoutAll nodes = .ok ls ∧
        Node.unplacedAll ls = Node.rereadFrom pending items ∧ (∀ l ∈ ls, l.fitsClob = true) ∧
        ∀ done o a acc fs, Reading.Leads ⟨done, .clob o a acc :: fs, none⟩ ts
          ⟨done, .clob o a (nodes.reverse ++ acc) :: fs, none⟩ := by
  induction h with
  | nil s =>
    intro pending ts hp hsigns hspaced
    rw [Node.signsOf, List.append_nil] at hsigns
    have hwhite := Token.whitespace_of_breaks (by rw [hsigns]; exact hp)
    have htrivia : ∀ t ∈ ts, t.IsTrivia := fun t ht => by simp [Token.IsTrivia, hwhite t ht]
    refine ⟨_, _, Node.layoutAll_trivia (Token.flatMap_isTrivia ts), ?_, Node.fitsClob_trivia hwhite,
      fun done o a acc fs => Reading.clob_leads done o a fs hwhite acc⟩
    rw [Token.unplaced_triviaNodes htrivia hspaced, hsigns]
    rfl
  | @newlines s t k span ns hn _ ih =>
    intro pending ts hp hsigns hspaced
    rw [Node.signsOf_skip rfl, ← List.append_assoc] at hsigns
    rw [Node.rereadFrom_skip rfl]
    refine ih hs _ ts (fun p h => ?_) hsigns hspaced
    rcases List.mem_append.mp h with h | h
    · exact hp p h
    · exact List.eq_of_mem_replicate h
  | line hs' hv hn _ ih => exact absurd hs hs'
  | block hs' hl _ ih => exact absurd hs hs'
  | key hv _ ih => contradiction
  | value hs' hn _ ih =>
    subst hs
    simp [Slot.afterValue?] at hs'
  | @string t n ns hn _ ih =>
    intro pending ts hp hsigns hspaced
    obtain ⟨type, text, hstring, hquoted, hread⟩ := hn.reads
    rw [Node.signsOf, hstring, Node.commaSigns, Bool.false_and, Bool.false_and, if_neg (by decide),
      List.append_nil, List.singleton_append] at hsigns
    obtain ⟨before, t, others, rfl, hbefore, ht, hothers⟩ := Token.exists_word_split hsigns
    have hwhite : ∀ t ∈ before, t.type = .whitespace :=
      Token.whitespace_of_breaks (by rw [hbefore]; exact hp)
    have htrivia : ∀ t ∈ before, t.IsTrivia := fun t ht => by simp [Token.IsTrivia, hwhite t ht]
    obtain ⟨httype, httext⟩ := Token.of_signs_word ht
    obtain ⟨m, hscalar, hlayout, hm, hfits⟩ := hread t httype httext
    rw [← httype] at hquoted
    have heof : t.type ≠ .eof := by rcases hquoted with h | h <;> simp [h]
    obtain ⟨nodes, ls, hnodes, hls, hfit, hleads⟩ := ih rfl [] others (by simp) hothers
      (List.isChain_cons.mp hspaced.append.2).2
    refine ⟨before.flatMap Token.triviaNodes ++ m :: nodes, before.flatMap Token.triviaNodes ++ m :: ls,
      ?_, ?_, ?_, fun done o a acc fs => ?_⟩
    · refine Node.layoutAll_append (Node.layoutAll_trivia (Token.flatMap_isTrivia before)) ?_
      rw [Node.layoutAll, hlayout, hnodes]
      rfl
    · rw [Node.unplacedAll_append, Node.unplacedAll, hls,
        Token.unplaced_triviaNodes htrivia hspaced.append.1, hbefore,
        Node.rereadFrom_content hn.isContent, hm]
    · intro l hl
      rcases List.mem_append.mp hl with hl | hl
      · exact Node.fitsClob_trivia hwhite l hl
      · rcases List.mem_cons.mp hl with rfl | hl
        · exact hfits
        · exact hfit l hl
    · have := (Reading.clob_leads done o a fs hwhite acc).trans
        ((Reading.Leads.step heof (Reading.step_eq_clobString rfl rfl hquoted hscalar)).trans (hleads done o a _ fs))
      simpa [List.append_assoc] using this

namespace ReadBack

variable {S : Breadth} {span : Span} {as : List Text} {items : List Node}

/-- A form is read if its body is read into the frame that its opening token makes, which the closing token
closes. -/
theorem of_body {kind : Kind} {ot ct : TokenType} {ow cw : Text} {inner : List Sign}
    (frame : Token → List Text → Frame)
    (hsigns : Node.signs ⟨{ kind, span, annotations := as }, items⟩ =
      Label.annotationSigns { kind, span, annotations := as } ++ .word ot ow :: (inner ++ [.word ct cw]))
    (hot : ot ∈ Reading.bodyTypes) (hct : ct ≠ .eof)
    (hopen : ∀ (t : Token) (as : List Text), t.type = ot → Frame.opened? t as = some (frame t as))
    (hbody : ∀ ts, signsOf ts = inner → Spaced ts → ∃ nodes ls,
      (∀ l : Label, l.kind = kind → Node.layout ⟨l, nodes⟩ = .ok ⟨l, ls⟩) ∧
      Node.unplacedAll ls = Node.rereadFrom [] items ∧
      ∀ done o a fs, ∃ after, Reading.Leads ⟨done, frame o a :: fs, none⟩ ts ⟨done, after :: fs, none⟩ ∧
        after.closing? = some ct ∧ ∀ c : Token, Node.ofForm after.kind after.annotations after.opening c after.items =
          ⟨{ kind, span := o.span.join c.span, annotations := a }, nodes⟩) :
    ReadBack ⟨{ kind, span, annotations := as }, items⟩ := by
  intro ts hts hspaced htight
  rw [hsigns, Label.annotationSigns_eq] at hts
  obtain ⟨hform⟩ := exists_formTokens hts hspaced htight
  obtain ⟨nodes, ls, hlayout, hls, hleads⟩ := hbody hform.body hform.body_signs hform.body_spaced
  refine ⟨⟨{ kind, span := hform.first.span.join hform.last.span, annotations := as.map Text.settled }, nodes⟩,
    Node.laidAs_form (hlayout _ rfl) hls, fun r hr => ?_⟩
  refine hform.leads (frame hform.first (as.map Text.settled)) hot hct
    (fun r => Reading.value_opened (hopen hform.first _ hform.first_type)) (fun done fs => ?_) hr
  obtain ⟨after, hlead, hclosing, hnode⟩ := hleads done hform.first (as.map Text.settled) fs
  refine ⟨after, hlead, ?_⟩
  rw [← hnode hform.last]
  exact Reading.step_eq_closing rfl rfl (by rw [hclosing, hform.last_type])

theorem list (h : LaidRow (fun b n => LaidIn S b n ∧ ReadBack n) .list items .list) :
    ReadBack ⟨{ kind := .list, span, annotations := as }, items⟩ := by
  refine of_body (fun o a => .list o a [] true) rfl (by decide) (by decide)
    (fun t as ht => by rw [Frame.opened?, ht]) fun ts hsigns hspaced => ?_
  obtain ⟨nodes, ls, hnodes, hls, hleads⟩ := Holds.row_reads h (by simp) [] ts (by simp) hsigns hspaced
  refine ⟨nodes, ls, fun l hl => ?_, hls, fun done o a fs => ?_⟩
  · exact Node.layout_eq_ok.mpr (.form (by simp [hl]) (Node.layoutAll_eq_ok.mp hnodes))
  · obtain ⟨ready, hlead⟩ := hleads Reading.holds_list true [] (fun _ => rfl)
    rw [List.append_nil] at hlead
    exact ⟨_, hlead, rfl, fun c => Node.ofForm_reverse ..⟩

theorem sexpr (h : LaidRow (fun b n => LaidIn S b n ∧ ReadBack n) .sexpr items .sexpr) :
    ReadBack ⟨{ kind := .sexpr, span, annotations := as }, items⟩ := by
  refine of_body (fun o a => .sexpr o a []) rfl (by decide) (by decide)
    (fun t as ht => by rw [Frame.opened?, ht]) fun ts hsigns hspaced => ?_
  obtain ⟨nodes, ls, hnodes, hls, hleads⟩ := Holds.row_reads h (by simp) [] ts (by simp) hsigns hspaced
  refine ⟨nodes, ls, fun l hl => ?_, hls, fun done o a fs => ?_⟩
  · exact Node.layout_eq_ok.mpr (.form (by simp [hl]) (Node.layoutAll_eq_ok.mp hnodes))
  · obtain ⟨-, hlead⟩ := hleads Reading.holds_sexpr true [] (fun _ => rfl)
    rw [List.append_nil] at hlead
    exact ⟨_, hlead, rfl, fun c => Node.ofForm_reverse ..⟩

theorem struct (h : LaidRow (fun b n => LaidIn S b n ∧ ReadBack n) .key items .key) :
    ReadBack ⟨{ kind := .struct, span, annotations := as }, items⟩ := by
  refine of_body (fun o a => .struct o a [] (.between true)) rfl (by decide) (by decide)
    (fun t as ht => by rw [Frame.opened?, ht]) fun ts hsigns hspaced => ?_
  obtain ⟨nodes, ls, hnodes, hls, hleads⟩ := (struct_row_reads h [] ts (by simp) hsigns hspaced).1 rfl
  refine ⟨nodes, ls, fun l hl => ?_, hls, fun done o a fs => ?_⟩
  · exact Node.layout_eq_ok.mpr (.struct hl (Node.layoutStruct_eq_ok.mp hnodes))
  · obtain ⟨ready, hlead⟩ := hleads done o a [] fs true (fun _ => rfl)
    rw [List.append_nil] at hlead
    exact ⟨_, hlead, rfl, fun c => Node.ofForm_reverse ..⟩

theorem clob (h : LaidRow (fun b n => LaidIn S b n ∧ ReadBack n) .clob items .clob) :
    ReadBack ⟨{ kind := .clob, span, annotations := as }, items⟩ := by
  refine of_body (fun o a => .clob o a []) rfl (by decide) (by decide)
    (fun t as ht => by rw [Frame.opened?, ht]) fun ts hsigns hspaced => ?_
  obtain ⟨nodes, ls, hnodes, hls, hfit, hleads⟩ := clob_row_reads h rfl [] ts (by simp) hsigns hspaced
  refine ⟨nodes, ls, fun l hl => ?_, hls, fun done o a fs => ?_⟩
  · exact Node.layout_eq_ok.mpr (.clob hl (Node.layoutAll_eq_ok.mp hnodes) hfit)
  · have hlead := hleads done o a [] fs
    rw [List.append_nil] at hlead
    exact ⟨_, hlead, rfl, fun c => Node.ofForm_reverse ..⟩

/-- A scalar is read from its last token. -/
theorem of_scalar {kind : Kind} {value : Text} (type : TokenType) (w : Text)
    (hatomic : kind ∈ [Kind.null, .boolean, .integer, .real, .timestamp, .symbol, .quotedString,
      .multilineString, .blob])
    (hsign : Label.scalarSign { kind, span, annotations := as, value } = .word type w)
    (htype : type ∈ Reading.bodyTypes)
    (hscalar : ∀ t : Token, t.type = type → t.text = w →
      Node.scalar? t = some (.leaf kind t (if kind = .blob then value.settled else value))) :
    ReadBack ⟨{ kind, span, annotations := as, value }, []⟩ := by
  intro ts hsigns hspaced htight
  have hsigns' : signsOf ts = (as.map Text.settled).map (.word .annotate) ++ [.word type w] := by
    rw [hsigns]
    simp only [List.mem_cons, List.not_mem_nil, or_false] at hatomic
    rcases hatomic with rfl | rfl | rfl | rfl | rfl | rfl | rfl | rfl | rfl <;>
      simp only [Node.signs, hsign, Label.annotationSigns_eq]
  obtain ⟨front, t, after, rfl, hfront, ht, hafter⟩ := Token.exists_word_split hsigns'
  obtain rfl : after = [] := by
    by_contra hne
    have hlast : (front ++ t :: after).getLast? = some (after.getLast hne) := by
      rw [show front ++ t :: after = (front ++ [t]) ++ after by simp,
        List.getLast?_append_of_ne_nil _ hne, List.getLast?_eq_some_getLast hne]
    exact htight.last _ hlast (Token.whitespace_of_signs_nil hafter _ (List.getLast_mem hne))
  obtain ⟨httype, httext⟩ := Token.of_signs_word ht
  refine ⟨⟨{ kind, span := t.span, annotations := as.map Text.settled,
             value := if kind = .blob then value.settled else value }, []⟩,
    Node.laidAs_scalar hatomic, fun r hr => ?_⟩
  · obtain ⟨r', hleads, hstep, hdone, hframes⟩ := Reading.annotations_lead hr hfront hspaced
      (fun u hu => htight.first u (by cases front with
        | nil => simp at hu
        | cons x front => simpa using hu)) (by rw [httype]; exact htype)
    have hvalue : r'.value (as.map Text.settled) t = .ok (r'.deliver
        ⟨{ kind, span := t.span, annotations := as.map Text.settled,
           value := if kind = .blob then value.settled else value }, []⟩) := by
      unfold Reading.value
      rw [hscalar t httype httext]
      cases as with
      | nil => rfl
      | cons a as => rfl
    rw [hvalue] at hstep
    have hlast := Reading.Leads.step (by
      rw [httype]
      rintro rfl
      exact absurd htype (by decide)) hstep
    have := hleads.trans hlast
    rwa [Reading.deliver_congr hdone hframes] at this

theorem scalar {inSExpr : Bool} {label : Label} (h : LaidScalar S inSExpr label) :
    ReadBack ⟨label, []⟩ := by
  cases h with
  | @word type kind w span as hk hw ha =>
    refine of_scalar type (Text.ofChars w) ?_ ?_ ?_ ?_
    · simp only [wordKinds, List.mem_cons, Prod.mk.injEq, List.not_mem_nil, or_false] at hk
      rcases hk with ⟨-, rfl⟩ | ⟨-, rfl⟩ | ⟨-, rfl⟩ | ⟨-, rfl⟩ | ⟨-, rfl⟩ | ⟨-, rfl⟩ | ⟨-, rfl⟩ |
        ⟨-, rfl⟩ <;> simp
    · have htype := wordType_of_wordKinds hw hk
      simp only [wordKinds, List.mem_cons, Prod.mk.injEq, List.not_mem_nil, or_false] at hk
      rcases hk with ⟨-, rfl⟩ | ⟨-, rfl⟩ | ⟨-, rfl⟩ | ⟨-, rfl⟩ | ⟨-, rfl⟩ | ⟨-, rfl⟩ | ⟨-, rfl⟩ |
        ⟨-, rfl⟩ <;> simp only [Label.scalarSign, htype]
    · simp only [wordKinds, List.mem_cons, Prod.mk.injEq, List.not_mem_nil, or_false] at hk
      rcases hk with ⟨rfl, -⟩ | ⟨rfl, -⟩ | ⟨rfl, -⟩ | ⟨rfl, -⟩ | ⟨rfl, -⟩ | ⟨rfl, -⟩ | ⟨rfl, -⟩ |
        ⟨rfl, -⟩ <;> decide
    · intro t ht htext
      simp only [wordKinds, List.mem_cons, Prod.mk.injEq, List.not_mem_nil, or_false] at hk
      rcases hk with ⟨rfl, rfl⟩ | ⟨rfl, rfl⟩ | ⟨rfl, rfl⟩ | ⟨rfl, rfl⟩ | ⟨rfl, rfl⟩ | ⟨rfl, rfl⟩ |
        ⟨rfl, rfl⟩ | ⟨rfl, rfl⟩ <;> simp [Node.scalar?, ht, htext]
  | @string w span as hw ha =>
    refine of_scalar _ _ (by simp) rfl (by decide) fun t ht htext => ?_
    simp only [Node.scalar?, ht, htext, Node.unwrap, List.append_assoc, Text.trimStart_append,
      Text.trimEnd_append]
    rfl
  | @long w span as hS hw hend ha =>
    refine of_scalar _ _ (by simp) rfl (by decide) fun t ht htext => ?_
    simp only [Node.scalar?, ht, htext, Node.unwrap, List.append_assoc, Text.trimStart_append,
      Text.trimEnd_append]
    rfl
  | @blob w span as hw ha =>
    refine of_scalar _ _ (by simp) rfl (by decide) fun t ht htext => ?_
    rw [Text.chars_ofChars, hw.settled_braced] at htext
    simp only [Node.scalar?, ht, htext, Node.unwrap, hw.settled.unwrapped, Text.settled_ofChars, if_true]

end ReadBack

/-- Values are read back from their signs. -/
theorem LaidIn.readBack {S : Breadth} {b : Bool} {n : Node} (h : LaidIn S b n) : ReadBack n :=
  h.induct (P := fun _ n => ReadBack n) (fun _ _ => .scalar) (fun _ _ _ _ _ => .list)
    (fun _ _ _ _ _ h _ => .sexpr h) (fun _ _ _ _ _ => .struct) (fun _ _ _ _ _ h _ => .clob h)

/-- A whole program is read back from its signs. -/
theorem LaidRow.readBack {S : Breadth} {items : List Node} (h : LaidRow (LaidIn S) .top items .top)
    {ts : List Token}
    (hsigns : signsOf ts = Node.signsOf false items) (hspaced : Spaced ts) :
    ∃ nodes ls, (∀ last rest, Reading.program last {} (ts ++ rest) =
        Reading.program last ⟨nodes.reverse, [], none⟩ rest) ∧
      Node.layoutAll nodes = .ok ls ∧ Node.unplacedAll ls = Node.rereadFrom [] items := by
  obtain ⟨nodes, ls, hnodes, hls, hleads⟩ :=
    Holds.row_reads (LaidRow.mono h fun _ _ h => ⟨h, h.readBack⟩) (by simp) [] ts (by simp) hsigns hspaced
  obtain ⟨-, hleads⟩ := hleads Reading.holds_top true [] (fun _ => rfl)
  rw [List.append_nil] at hleads
  exact ⟨nodes, ls, hleads, hnodes, hls⟩

end FusionKit
