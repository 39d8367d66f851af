import FusionKit.Proofs.Printing

/-!
# S-expressions headed by a pipe

The arguments of an s-expression that is headed by a pipe are printed tightly between its pipes.
What is heard of the items is what `Node.fuse` makes of them, as long as no pipe but the one at the
head has annotations. With this, every tree of a breadth that fits the settings is printed as it is
heard.
-/
set_option autoImplicit false

namespace FusionKit

open Lexeme (Spelling IsOperatorWord isOperator)
open Page (Adds)

/-- Settings that print the trees of a breadth as they are heard. -/
structure Breadth.Fits (S : Breadth) (s : Settings) : Prop where
  long : S.long → s.formatLongStrings = false
  bare : ∀ items, S.heads items → Node.BarePipes items

namespace Breadth

theorem plain_fits (s : Settings) : plain.Fits s where
  long := False.elim
  bare items h p ps hps hp := by
    have hfree := h p (by rw [← List.head?_filter, hps]; rfl)
    rw [hp] at hfree
    contradiction

theorem piped_fits {s : Settings} {long : Prop} (h : long → s.formatLongStrings = false) :
    (piped long).Fits s :=
  ⟨h, fun _ h => h⟩

end Breadth

namespace Node

/-- Whether a space stands between an argument and the items behind it. -/
def isGapBefore (ns : List Node) : Bool := ns.head?.any fun m => !m.isPipe

theorem spacingAfter_of_isPipe {n : Node} (hn : n.isPipe = true) (ns : List Node) :
    spacingAfter true (n :: ns) = true :: spacingAfter true ns := by
  simp [spacingAfter, hn]

theorem spacingAfter_of_not_isPipe {n : Node} (hn : n.isPipe = false) (ns : List Node) :
    spacingAfter true (n :: ns) = (isGapBefore ns && !n.isNewlines) :: spacingAfter true ns := by
  cases ns <;> simp [spacingAfter, hn, isGapBefore]

theorem value_of_isPipe {p : Node} (hp : p.isPipe = true) : p.value = utf8 "|" := by
  unfold isPipe symbol? at hp
  split at hp
  · simpa using hp
  · simp at hp

end Node

/-- How the items behind a pipe are written: a further pipe has no annotations and a space behind
it. -/
structure TightlyWritten (items : List Node) (cs : List Char) : Prop where
  written : Written true false (Node.tighten (Node.hearAll items)) cs
  pipe : ∀ m ms, items = m :: ms → m.isPipe = true →
    ∃ us, cs = '|' :: ' ' :: us ∧ Written true false (Node.tighten (Node.hearAll ms)) us

namespace TightlyWritten

variable {ns : List Node} {cs : List Char}

/-- A value in front of tightly written items is heard apart from them, unless it is an operator in
front of a pipe. -/
theorem cons {x : Node} {w : List Char} (hx : LaidIn .all true x) (hp : x.isPipe = false)
    (hw : ShowsAs true x w)
    (hjoin : x.isOperator = true → ShowsAs true (x.extended (utf8 "|")) (w ++ ['|']))
    (h : TightlyWritten ns cs) :
    Written true false (Node.tighten (x :: Node.hearAll ns))
      (w ++ ((if Node.isGapBefore ns then [' '] else []) ++ cs)) := by
  cases ns with
  | nil => exact .value hx hw (.inr (.inr (.inl (by simp [Node.hearAll])))) h.written
  | cons m ms =>
    by_cases hm : m.isPipe = true
    · obtain ⟨us, rfl, hus⟩ := h.pipe m ms rfl hm
      have hgap : Node.isGapBefore (m :: ms) = false := by simp [Node.isGapBefore, hm]
      rw [hgap]
      by_cases hop : x.isOperator = true
      · have hm' : m.hear.isPipe = true := by rwa [Node.isPipe_hear]
        rw [Node.hearAll, Node.tighten_join hm' hop hp, Node.value_of_isPipe hm']
        have hlaid : LaidIn .all true (x.extended (utf8 "|")) :=
          hx.extended hop (w := ['|']) fun v hv => (hx.isOperatorWord hop hv).append_pipe
        have : Written true false _ _ := .value hlaid (hjoin hop) (.inr (.inl rfl)) (.space hus)
        simpa using this
      · rw [Bool.not_eq_true] at hop
        rw [Node.tighten_cons_of_not_isOperator hop]
        exact .value hx hw (.inr (.inr (.inr ⟨rfl, fun rest => .pipe hop _⟩))) h.written
    · rw [Bool.not_eq_true] at hm
      have hgap : Node.isGapBefore (m :: ms) = true := by simp [Node.isGapBefore, hm]
      rw [hgap, if_pos rfl, Node.tighten_cons_of_next]
      · exact .value hx hw (.inr (.inl rfl)) (.space h.written)
      · intro k hk
        obtain rfl : m.hear = k := by simpa [Node.hearAll] using hk
        rw [Node.isPipe_hear, hm]

end TightlyWritten

/-- Items that are written one after the other are written tightly if no pipe comes first. -/
theorem Fills.tightly {p q : Page} {n : Node} {ns : List Node} (hn : n.isPipe = false)
    (h : Fills true false p q (Node.tighten (Node.hearAll (n :: ns)))) :
    ∃ cs, Adds p q cs ∧ TightlyWritten (n :: ns) cs := by
  obtain ⟨cs, hadds, hcs⟩ := h
  refine ⟨cs, hadds, hcs, fun m ms heq hm => ?_⟩
  obtain ⟨rfl, rfl⟩ := List.cons.inj heq
  rw [hn] at hm
  contradiction

/-- A value of an s-expression that is printed as it is heard. -/
structure Item (S : Breadth) (s : Settings) (b : Bool) (n : Node) : Prop where
  laid : LaidIn S b n
  heard : Heard s b n

namespace Item

variable {S : Breadth} {s : Settings} {n : Node}

/-- The annotations of an operator, in front of its own characters or of others. -/
theorem operator_prints (v : List Char) (span : Span) {as : List Text} (ha : AnnotationTexts as) : ∃ w,
      (∀ (s : Settings) (indent : Int) (p : Page), Adds p
        (Node.print s indent p ⟨{ kind := .symbol, span, annotations := as, value := Text.ofChars v }, []⟩)
        (w ++ v)) ∧
      ∀ u, IsOperatorWord u →
        ShowsAs true ⟨{ kind := .symbol, span, annotations := as, value := Text.ofChars u }, []⟩ (w ++ u) := by
  obtain ⟨w, hw, hann, hstart⟩ := annotations_shows ha
  have hk : (TokenType.operator, Kind.symbol) ∈ wordKinds := by simp [wordKinds]
  exact ⟨w, fun s indent p => PrintsAs.word_adds hw hk indent p,
    fun u hu => PrintsAs.word_shows hk (.operator hu rfl) hann⟩

/-- What is printed for an item, also right in front of a pipe. -/
structure Prints (x : Node) (w : List Char) : Prop where
  shows : ShowsAs true x w
  starts : StartsAs x w
  beforePipe : x.isOperator = true → ShowsAs true (x.extended (utf8 "|")) (w ++ ['|'])
  bare : x.isBare = true → x.isOperator = true ∨ x.isNegative = true → x.value = Text.ofChars w

theorem prints (h : Item S s true n) (indent : Int) (p : Page) :
    ∃ w, Adds p (n.print s indent p) w ∧ Prints n.hear w := by
  obtain ⟨w, hadds, hshows, hstarts⟩ := h.heard.prints indent p
  refine ⟨w, hadds, hshows, hstarts, fun hop => ?_, fun hbare hsign => ?_⟩
  · rw [Node.isOperator_hear] at hop
    obtain ⟨v, span, as, rfl, hv, -, ha⟩ := h.laid.of_isOperator hop
    obtain ⟨a, hprint, hjoined⟩ := operator_prints v span ha
    obtain rfl := Page.Adds.unique hadds (hprint s indent p)
    have := hjoined _ hv.append_pipe
    rw [Text.ofChars_append, ← List.append_assoc] at this
    rwa [Node.hear_leaf]
  · unfold Node.isBare at hbare
    unfold Node.value
    rw [Node.isOperator_hear, Node.isNegative_hear] at hsign
    rw [Node.label_hear] at hbare ⊢
    have hword : ∀ {type : TokenType} {kind : Kind} {span : Span} {v : List Char},
        n = ⟨{ kind, span, value := Text.ofChars v }, []⟩ → (type, kind) ∈ wordKinds →
          n.value = Text.ofChars w := by
      rintro type kind span v rfl hk
      have hnone : ([] : List Text).flatten = Text.ofChars [] := rfl
      have hprint : Adds p (Node.print s indent p ⟨{ kind, span, value := Text.ofChars v }, []⟩) ([] ++ v) :=
        PrintsAs.word_adds hnone hk indent p
      rw [Page.Adds.unique hadds hprint]
      rfl
    rcases hsign with hop | hneg
    · obtain ⟨v, span, as, rfl, -⟩ := h.laid.of_isOperator hop
      obtain rfl : as = [] := List.isEmpty_iff.mp hbare
      exact hword rfl (show (TokenType.operator, Kind.symbol) ∈ wordKinds by simp [wordKinds])
    · obtain ⟨type, kind, v, span, as, rfl, hk, -⟩ := h.laid.of_isNegative hneg
      obtain rfl : as = [] := List.isEmpty_iff.mp hbare
      exact hword rfl hk

end Item

variable {S : Breadth} {s : Settings}

theorem Node.printSExpr_cons (indent : Int) (p : Page) (n : Node) (ns : List Node) (g : Bool)
    (gs : List Bool) : Node.printSExpr s indent p (n :: ns) (g :: gs) =
      Node.printSExpr s indent ((n.print s indent p).spaceIf g) ns gs := by
  rw [Node.printSExpr]
  rfl

/-- The items behind a pipe are written tightly. -/
theorem tightly_written {sl t : Slot} {items : List Node} (h : LaidRow (Item S s) sl items t)
    (hs : sl = .sexpr) (hbare : ∀ m ∈ items, m.isPipe = true → m.label.annotations = [])
    (indent : Int) (p : Page) :
    ∃ cs, Adds p (Node.printSExpr s indent p items (Node.spacingAfter true items)) cs ∧
      TightlyWritten items cs := by
  induction h generalizing p with
  | nil => exact ⟨[], .refl p, .nil, by simp⟩
  | newlines hk _ ih =>
    obtain ⟨cs, hadds, hcs⟩ := ih hs (fun m hm => hbare m (by simp [hm])) _
    refine Fills.tightly rfl ?_
    rw [Node.spacingAfter_of_not_isPipe rfl, Node.printSExpr_cons, Node.hearAll, Node.hear_newlineRun,
      Node.tighten_cons_of_not_isOperator rfl]
    exact (Fills.spaceIf ⟨cs, hadds, hcs.written⟩).newlines hk
  | line hs' hv hk _ ih =>
    obtain ⟨cs, hadds, hcs⟩ := ih hs (fun m hm => hbare m (by simp [hm])) _
    refine Fills.tightly rfl ?_
    rw [Node.spacingAfter_of_not_isPipe rfl, Node.spacingAfter_of_not_isPipe rfl, Node.printSExpr_cons,
      Node.printSExpr_cons, Node.hearAll, Node.hearAll, Node.hear_lineComment, Node.hear_newlineRun,
      Node.tighten_cons_of_not_isOperator rfl, Node.tighten_cons_of_not_isOperator rfl]
    exact .line hv hk (Page.adds_spaceIf _ _) (Page.spaceIf_spaces _)
      (Fills.spaceIf ⟨cs, hadds, hcs.written⟩)
  | block hs' hl _ ih =>
    obtain ⟨cs, hadds, hcs⟩ := ih hs (fun m hm => hbare m (by simp [hm])) _
    refine Fills.tightly rfl ?_
    rw [Node.spacingAfter_of_not_isPipe rfl, Node.printSExpr_cons, Node.hearAll, Node.hear_blockComment,
      Node.tighten_cons_of_not_isOperator rfl]
    exact (Fills.spaceIf ⟨cs, hadds, hcs.written⟩).block hl
  | key | string => contradiction
  | @value sl sl' t n ns hs' hn h ih =>
    subst hs
    obtain rfl : Slot.sexpr = sl' := Option.some.inj hs'
    obtain ⟨w, hw, hprints⟩ := hn.prints indent p
    by_cases hpipe : n.isPipe = true
    · rw [Node.spacingAfter_of_isPipe hpipe, Node.printSExpr_cons]
      obtain ⟨cs, hadds, hcs⟩ := ih rfl (fun m hm => hbare m (by simp [hm])) ((n.print s indent p).put " ")
      obtain ⟨span, as, rfl, -, ha⟩ := hn.laid.of_isPipe hpipe
      obtain rfl := hbare _ (by simp) hpipe
      have hprint : Adds p (Node.print s indent p
          ⟨{ kind := .symbol, span, value := Text.ofChars ['|'] }, []⟩) ['|'] := Page.adds_write p ['|']
      obtain rfl := Page.Adds.unique hw hprint
      have := hw.trans ((Page.adds_put _ " ").trans hadds)
      refine ⟨_, this, ?_, fun m ms heq _ => ?_⟩
      · rw [Node.hearAll, Node.tighten_cons_of_isPipe (by rwa [Node.isPipe_hear])]
        exact .value hn.heard.laid hprints.shows (.inr (.inl rfl)) (.space hcs.written)
      · obtain ⟨-, rfl⟩ := List.cons.inj heq
        exact ⟨cs, rfl, hcs.written⟩
    · rw [Bool.not_eq_true] at hpipe
      rw [Node.spacingAfter_of_not_isPipe hpipe, hn.heard.isNewlines, Bool.not_false, Bool.and_true,
        Node.printSExpr_cons]
      obtain ⟨cs, hadds, hcs⟩ := ih rfl (fun m hm => hbare m (by simp [hm]))
        ((n.print s indent p).spaceIf (Node.isGapBefore ns))
      have := hw.trans ((Page.adds_spaceIf _ (Node.isGapBefore ns)).trans hadds)
      refine Fills.tightly hpipe ⟨_, this, ?_⟩
      rw [Node.hearAll]
      exact hcs.cons hn.heard.laid (by rwa [Node.isPipe_hear]) hprints.shows hprints.beforePipe

/-- What is no content touches the pipe in front of it, if there is no space. -/
theorem Written.touches {p m : Node} {ms : List Node} {cs : List Char}
    (h : Written true false (m :: ms) cs) (hm : m.isContent = false) (hp : p.isPipe = true) :
    cs.head? = some ' ' ∨ ∀ rest, Touches p (cs ++ rest) := by
  have hvalue : p.value = Text.ofChars ['|'] := Node.value_of_isPipe hp
  cases h with
  | space => exact .inl rfl
  | @newlines _ _ k _ hk =>
    obtain ⟨k, rfl⟩ := Nat.exists_eq_succ_of_ne_zero (by omega : k ≠ 0)
    exact .inr fun rest => .behind (Node.isOperator_of_isPipe hp) hvalue (by decide) (by decide) _
  | line => exact .inr fun rest => .comment hp (.inl rfl) _
  | block => exact .inr fun rest => .comment hp (.inr rfl) _
  | key => contradiction
  | value hn =>
    rw [hn.isContent] at hm
    contradiction

/-- A pipe in front of what is no operator character and no blank is heard apart. -/
theorem Touches.of_start {p : Node} {d : Char} (hp : p.isPipe = true) (hd : isOperator d = false)
    (hinline : isInline d = false) (cs : List Char) : Touches p (d :: cs) :=
  .behind (Node.isOperator_of_isPipe hp) (v := []) (Node.value_of_isPipe hp) hd hinline cs

namespace Node

variable {p : Node} {v : List Char}

theorem value_extended (hp : p.isPipe = true) (v : List Char) :
    (p.extended (Text.ofChars v)).value = Text.ofChars ('|' :: v) := by
  unfold extended value
  rw [show p.label.value = p.value from rfl, value_of_isPipe hp]
  exact (Text.ofChars_append ['|'] v).symm

/-- A pipe that goes on with a text is no longer one. -/
theorem isPipe_extended (hp : p.isPipe = true) (hv : v ≠ []) :
    (p.extended (Text.ofChars v)).isPipe = false := by
  by_contra h
  rw [Bool.not_eq_false] at h
  have hchars : '|' :: v = ['|'] :=
    Text.ofChars_injective ((value_extended hp v).symm.trans (value_of_isPipe h))
  exact hv (List.cons.inj hchars).2

theorem isOperator_extended (hp : p.isPipe = true) (hv : IsOperatorWord ('|' :: v)) :
    (p.extended (Text.ofChars v)).isOperator = true := by
  have hk : p.kind = .symbol := by
    have := isOperator_of_isPipe hp
    simp only [isOperator, Bool.and_eq_true, beq_iff_eq] at this
    exact this.1
  have hspelling : Spelling true .operator ('|' :: v) := .operator hv rfl
  have htype := wordType_of_wordKinds hspelling
    (show (TokenType.operator, Kind.symbol) ∈ wordKinds by simp [wordKinds])
  unfold isOperator
  rw [value_extended hp, show (p.extended (Text.ofChars v)).kind = .symbol from hk]
  simpa [wordType] using htype

end Node

/-- A pipe that is printed as `w` and may go on with other operator characters. -/
structure OpenPipe (p : Node) (w : List Char) : Prop where
  laid : LaidIn .all true p
  isPipe : p.isPipe = true
  joins : ∀ u, IsOperatorWord ('|' :: u) → ShowsAs true (p.extended (Text.ofChars u)) (w ++ u)

namespace OpenPipe

variable {p : Node} {w : List Char}

theorem laid_extended (hp : OpenPipe p w) {u : List Char} (hu : IsOperatorWord ('|' :: u)) :
    LaidIn .all true (p.extended (Text.ofChars u)) := by
  refine hp.laid.extended (Node.isOperator_of_isPipe hp.isPipe) fun y hy => ?_
  obtain rfl := Text.ofChars_injective ((Node.value_of_isPipe hp.isPipe).symm.trans hy)
  exact hu

/-- The pipe of an s-expression is printed with its annotations. -/
theorem exists_of_isPipe {S : Breadth} (hp : LaidIn S true p) (hpipe : p.isPipe = true) (s : Settings) (indent : Int)
    (q : Page) : p.hear = p ∧ ∃ w, Adds q (p.print s indent q) w ∧ OpenPipe p w := by
  have hwide := hp.widen
  obtain ⟨span, as, rfl, -, ha⟩ := hp.of_isPipe hpipe
  obtain ⟨a, hprint, hjoined⟩ := Item.operator_prints ['|'] span ha
  refine ⟨Node.hear_leaf .., a ++ ['|'], hprint s indent q, hwide, hpipe, fun u hu => ?_⟩
  have := hjoined _ hu
  rw [show '|' :: u = ['|'] ++ u from rfl, Text.ofChars_append] at this
  rwa [List.append_assoc]

/-- The pipe is heard apart from what does not touch it. -/
theorem apart (hp : OpenPipe p w) {ms : List Node} {cs : List Char} (hms : Written true false ms cs)
    (htouch : cs.head? = some ' ' ∨ ms = [] ∨ ∀ rest, Touches p (cs ++ rest)) :
    Written true false (p :: ms) (w ++ cs) := by
  have hshows := hp.joins [] Lexeme.isOperatorWord_pipe
  rw [show Text.ofChars [] = [] from rfl, Node.extended_nil, List.append_nil] at hshows
  refine .value hp.laid hshows (.inr ?_) hms
  rcases htouch with hspace | rfl | htouch
  · exact .inl hspace
  · exact .inr (.inl (by simp))
  · exact .inr (.inr ⟨rfl, htouch⟩)

variable {x : Node} {ns : List Node} {cs v : List Char}

/-- Two pipes are one symbol, and a space follows. -/
theorem fuse_pipe (hp : OpenPipe p w) (h : TightlyWritten ns cs) :
    Written true false (p.extended (Text.ofChars ['|']) :: Node.tighten (Node.hearAll ns)) (w ++ ('|' :: ' ' :: cs)) := by
  have hpipes := Lexeme.isOperatorWord_pipe.cons_pipe
  have : Written true false _ _ :=
    .value (hp.laid_extended hpipes) (hp.joins _ hpipes) (.inr (.inl rfl)) (.space h.written)
  simpa using this

/-- The pipe and an operator are a longer operator, which may also be in front of a pipe. -/
theorem fuse_operator (hp : OpenPipe p w) (hv : IsOperatorWord v) (h : TightlyWritten ns cs) :
    Written true false (Node.tighten (p.extended (Text.ofChars v) :: Node.hearAll ns))
      (w ++ (v ++ ((if Node.isGapBefore ns then [' '] else []) ++ cs))) := by
  have hne : v ≠ [] := by
    obtain ⟨c, cs, rfl, -⟩ := hv
    simp
  have := h.cons (hp.laid_extended hv.cons_pipe) (Node.isPipe_extended hp.isPipe hne) (hp.joins v hv.cons_pipe)
    fun _ => by
      have := hp.joins (v ++ ['|']) hv.cons_pipe.append_pipe
      rw [Text.ofChars_append, ← List.append_assoc] at this
      rwa [Node.extended_extended]
  rwa [List.append_assoc] at this

/-- The minus sign of a number is read as an operator with the pipe, and the number without it by itself. -/
theorem fuse_negative (hp : OpenPipe p w) (hx : LaidIn .all true x) (hbare : x.isBare = true)
    (hneg : x.isNegative = true) (hxv : x.value = Text.ofChars v) (h : TightlyWritten ns cs) :
    Written true false (p.extended (utf8 "-") :: Node.tighten (x.unsigned :: Node.hearAll ns))
      (w ++ (v ++ ((if Node.isGapBefore ns then [' '] else []) ++ cs))) := by
  rw [show utf8 "-" = Text.ofChars ['-'] from rfl]
  have hunsigned := hx.unsigned hneg
  obtain ⟨type, kind, u, span, as, rfl, hk, hsym, hu, ⟨d, ds, rfl, hd⟩, -⟩ := hx.of_isNegative hneg
  obtain rfl : as = [] := List.isEmpty_iff.mp hbare
  obtain rfl : v = '-' :: d :: ds := Text.ofChars_injective hxv.symm
  rw [LaidIn.unsigned_word] at hunsigned ⊢
  have hunop : Node.isOperator ⟨{ kind, span, value := Text.ofChars (d :: ds) }, []⟩ = false := by
    unfold Node.isOperator
    rw [show Node.kind ⟨{ kind, span, value := Text.ofChars (d :: ds) }, []⟩ = kind from rfl,
      beq_eq_false_iff_ne.mpr hsym, Bool.false_and]
  have hunpipe : Node.isPipe ⟨{ kind, span, value := Text.ofChars (d :: ds) }, []⟩ = false :=
    Bool.eq_false_iff.mpr fun h => by
      rw [Node.isOperator_of_isPipe h] at hunop
      contradiction
  have hshows : ShowsAs true ⟨{ kind, span, value := Text.ofChars (d :: ds) }, []⟩ ([] ++ d :: ds) :=
    PrintsAs.word_shows hk hu fun _ _ _ _ h => h
  have hitems := h.cons hunsigned hunpipe hshows fun h => absurd h (by simp [hunop])
  have hminus := Lexeme.isOperatorWord_minus.cons_pipe
  have hdop : isOperator d = false := by
    by_contra h
    rw [Bool.not_eq_false] at h
    rw [Lexeme.isDecimal_of_isOperator h] at hd
    contradiction
  have hinline : isInline d = false := by
    rw [isInline, Lexeme.isSpace_of_isWordStart (by simp [Lexeme.isWordStart, hd])]
    rfl
  have : Written true false _ _ := .value (hp.laid_extended hminus) (hp.joins _ hminus)
    (.inr (.inr (.inr ⟨rfl, fun rest => .behind (Node.isOperator_extended hp.isPipe hminus)
      (Node.value_extended hp.isPipe ['-']) hdop hinline _⟩))) hitems
  simpa using this

/-- The pipe is heard apart from a value that starts with no operator character. -/
theorem fuse_apart (hp : OpenPipe p w) (hx : LaidIn .all true x) (hxp : x.isPipe = false) (hv : Item.Prints x v)
    (hsign : ¬ (x.isBare = true ∧ (x.isOperator = true ∨ x.isNegative = true))) (h : TightlyWritten ns cs) :
    Written true false (p :: Node.tighten (x :: Node.hearAll ns))
      (w ++ (v ++ ((if Node.isGapBefore ns then [' '] else []) ++ cs))) := by
  obtain ⟨d, ds, rfl, hinline, hd⟩ := hv.starts
  have hd : isOperator d = false := Bool.eq_false_iff.mpr fun h => hsign (hd h)
  exact hp.apart (h.cons hx hxp hv.shows hv.beforePipe) (.inr (.inr fun rest => .of_start hp.isPipe hd hinline _))

/-- The pipe at the head in front of tightly written items. -/
theorem fuse (hp : OpenPipe p w) (hx : LaidIn .all true x) (hv : Item.Prints x v)
    (hbare : x.isPipe = true → x.isBare = true) (h : TightlyWritten ns cs) :
    Written true false (Node.fuse (p :: x :: Node.hearAll ns))
      (w ++ (v ++ ((if x.isPipe || Node.isGapBefore ns then [' '] else []) ++ cs))) := by
  rw [Node.fuse, if_neg (by simp [hp.isPipe])]
  by_cases hsign : x.isBare = true ∧ (x.isOperator = true ∨ x.isNegative = true)
  · have hxv := hv.bare hsign.1 hsign.2
    rw [if_neg (by simp [hsign.1])]
    by_cases hxp : x.isPipe = true
    · obtain rfl : v = ['|'] := Text.ofChars_injective (hxv.symm.trans (Node.value_of_isPipe hxp))
      rw [if_pos hxp, hxp, Bool.true_or, if_pos rfl, hxv]
      exact hp.fuse_pipe h
    rw [if_neg hxp, Bool.eq_false_iff.mpr hxp, Bool.false_or]
    by_cases hop : x.isOperator = true
    · rw [if_pos hop, hxv]
      exact hp.fuse_operator (hx.isOperatorWord hop hxv) h
    · have hneg := hsign.2.resolve_left hop
      rw [if_neg hop, if_pos hneg]
      exact hp.fuse_negative hx hsign.1 hneg hxv h
  · have hxp : x.isPipe = false := Bool.eq_false_iff.mpr fun h =>
      hsign ⟨hbare h, .inl (Node.isOperator_of_isPipe h)⟩
    have hitems := hp.fuse_apart hx hxp hv hsign h
    rw [hxp, Bool.false_or]
    by_cases hb : x.isBare = true
    · obtain ⟨hop, hneg⟩ := not_or.mp (not_and.mp hsign hb)
      rwa [if_neg (by simp [hb]), if_neg (by simp), if_neg hop, if_neg hneg]
    · rwa [if_pos (by simpa using hb)]

end OpenPipe

/-- Behind a pipe, an item that is content has a space after it unless a pipe, or nothing, comes next. -/
theorem Node.spacingAfter_of_not_isNewlines {n : Node} (hn : n.isNewlines = false) (ns : List Node) :
    Node.spacingAfter true (n :: ns) = (n.isPipe || Node.isGapBefore ns) :: Node.spacingAfter true ns := by
  by_cases hp : n.isPipe = true
  · rw [Node.spacingAfter_of_isPipe hp, hp, Bool.true_or]
  · rw [Bool.not_eq_true] at hp
    rw [Node.spacingAfter_of_not_isPipe hp, hn, hp, Bool.false_or, Bool.not_false, Bool.and_true]

theorem Node.isOperator_of_not_isContent {n : Node} (hn : n.isContent = false) : n.isOperator = false :=
  Bool.eq_false_iff.mpr fun h => by
    rw [Node.isContent_of_isOperator h] at hn
    contradiction

/-- What is no content is not fused with a pipe at the head. -/
theorem Node.fuse_cons_of_not_isContent {p n : Node} (hp : p.isPipe = true) (hn : n.isContent = false)
    (ns : List Node) : Node.fuse (p :: n :: ns) = p :: n :: Node.tighten ns := by
  have hop := Node.isOperator_of_not_isContent hn
  have hneg : n.isNegative = false := Bool.eq_false_iff.mpr fun h => by
    rw [Node.isContent_of_isNegative h] at hn
    contradiction
  have hnp : n.isPipe = false := Bool.eq_false_iff.mpr fun h => by
    rw [Node.isOperator_of_isPipe h] at hop
    contradiction
  rw [← Node.tighten_cons_of_not_isOperator hop]
  simp [Node.fuse, hp, hop, hneg, hnp]

/-- The items of an s-expression that is headed by a pipe are written as they are heard. -/
theorem pipe_written {p : Node} {items : List Node} (hp : LaidIn S true p) (hpipe : p.isPipe = true)
    (h : LaidRow (Item S s) .sexpr items .sexpr)
    (hbare : ∀ m ∈ items, m.isPipe = true → m.label.annotations = []) (indent : Int) (q : Page) :
    Fills true false q (Node.printSExpr s indent q (p :: items) (Node.spacing (p :: items)))
      (Node.fuse (Node.hearAll (p :: items))) := by
  obtain ⟨hhear, w, hhead, hopen⟩ := OpenPipe.exists_of_isPipe hp hpipe s indent q
  rw [Node.spacing, if_pos hpipe, Node.printSExpr_cons, Node.hearAll, hhear]
  cases items with
  | nil => exact ⟨_, hhead, by simpa [Node.hearAll, Node.fuse] using hopen.apart .nil (.inr (.inl rfl))⟩
  | cons n ns =>
    rw [Node.hearAll]
    by_cases hn : n.isContent = true
    · obtain ⟨hitem, hns⟩ := h.uncons hn
      obtain ⟨v, hv, hprints⟩ := hitem.prints indent ((Node.print s indent q p).spaceIf false)
      rw [Node.spacingAfter_of_not_isNewlines hitem.heard.isNewlines, Node.printSExpr_cons]
      obtain ⟨cs, hadds, hcs⟩ := tightly_written hns rfl (fun m hm => hbare m (by simp [hm])) indent
        ((n.print s indent ((Node.print s indent q p).spaceIf false)).spaceIf
          (n.isPipe || Node.isGapBefore ns))
      have hall := hhead.trans (hv.trans ((Page.adds_spaceIf _ _).trans hadds))
      refine ⟨_, hall, ?_⟩
      have := hopen.fuse hitem.heard.laid hprints (fun hnp => by
        rw [Node.isPipe_hear] at hnp
        rw [Node.isBare, Node.label_hear, hbare n (by simp) hnp]
        rfl) hcs
      rwa [Node.isPipe_hear] at this
    · have hcontent : n.hear.isContent = false := by rwa [Node.isContent_hear, ← Bool.not_eq_true]
      obtain ⟨cs, hadds, hcs⟩ := tightly_written h rfl hbare indent ((Node.print s indent q p).spaceIf false)
      have hwritten := hcs.written
      have hfuse := Node.fuse_cons_of_not_isContent hpipe hcontent (Node.hearAll ns)
      rw [Node.hearAll, Node.tighten_cons_of_not_isOperator (Node.isOperator_of_not_isContent hcontent)] at hwritten
      rw [hfuse]
      refine ⟨_, hhead.trans hadds, hopen.apart hwritten ?_⟩
      rcases hwritten.touches hcontent hpipe with hspace | htouch
      · exact .inl hspace
      · exact .inr (.inr htouch)

/-- With bare pipes no pipe behind the one at the head has annotations. -/
theorem Node.BarePipes.tail {p : Node} {ps : List Node} (h : Node.BarePipes (p :: ps))
    (hp : p.isPipe = true) : ∀ m ∈ ps, m.isPipe = true → m.label.annotations = [] := by
  intro m hm hpipe
  have hcontent : ∀ {k : Node}, k.isPipe = true → k.isContent = true := fun hk =>
    Node.isContent_of_isOperator (Node.isOperator_of_isPipe hk)
  refine h p (ps.filter Node.isContent) (List.filter_cons_of_pos (hcontent hp)) hp m ?_ hpipe
  exact List.mem_filter.mpr ⟨hm, hcontent hpipe⟩

/-- The items of an s-expression are written as they are heard. -/
theorem sexpr_items_written (hS : S.Fits s) {items : List Node}
    (h : LaidRow (Item S s) .sexpr items .sexpr) (hheads : S.heads items) (indent : Int) (q : Page) :
    Fills true false q (Node.printSExpr s indent q items (Node.spacing items))
      (Node.fuse (Node.hearAll items)) := by
  by_cases hpipe : ∃ p ps, items = p :: ps ∧ p.isPipe = true
  · obtain ⟨p, ps, rfl, hp⟩ := hpipe
    obtain ⟨hitem, hps⟩ := h.uncons (Node.isContent_of_isOperator (Node.isOperator_of_isPipe hp))
    exact pipe_written hitem.laid hp hps ((hS.bare _ hheads).tail hp) indent q
  · have hhead : ∀ p, items.head? = some p → p.isPipe = false := by
      intro p hp
      cases items with
      | nil => simp at hp
      | cons n ns =>
        obtain rfl := Option.some.inj hp
        exact Bool.eq_false_iff.mpr fun h => hpipe ⟨_, ns, rfl, h⟩
    rw [PrintsAs.spacing_eq hhead, Node.fuse_of_not_isPipe]
    · exact sexpr_written (h.mono fun _ _ h => h.heard) rfl indent q
    · intro m hm
      rw [Node.hearAll_eq_map, List.head?_map, Option.map_eq_some_iff] at hm
      obtain ⟨k, hk, rfl⟩ := hm
      rw [Node.isPipe_hear, hhead k hk]

/-- A tree of a breadth that fits the settings is printed as it is heard. -/
theorem LaidIn.heard (hS : S.Fits s) {b : Bool} {n : Node} (h : LaidIn S b n) : Heard s b n := by
  refine ⟨h.hear, ?_⟩
  have hitems : ∀ {sl t : Slot} {items : List Node},
      LaidRow (fun b n => LaidIn S b n ∧ PrintsAs s b n n.hear) sl items t → LaidRow (Item S s) sl items t :=
    fun h => h.mono fun _ _ h => ⟨h.1, h.1.hear, h.2⟩
  refine h.induct (P := fun b n => PrintsAs s b n n.hear) ?_ ?_ ?_ ?_ ?_
  · intro b l h
    rw [Node.hear_leaf]
    exact .scalar hS.long h
  · intro b span as items ha h
    rw [Node.hear]
    exact .list ha ((hitems h).mono fun _ _ h => h.heard)
  · intro b span as items ha h hheads
    rw [Node.hear]
    exact .sexpr_of_items ha (sexpr_items_written hS (hitems h) hheads)
  · intro b span as items ha h
    rw [Node.hear]
    exact .struct ha ((hitems h).mono fun _ _ h => h.heard)
  · intro b span as items ha h hs
    rw [Node.hear, hearAll_clob h rfl]
    exact .clob ha h hs

end FusionKit
