import FusionKit.Layout.Tidy
import FusionKit.Proofs.Content

/-!
# Tidying keeps the content

Tidying takes newline runs away at the edges of forms and puts some in front of forms, never
between a line comment and the line break that ends it. So a well-formed layout tree stays
well-formed and keeps all that is no newline run.
-/
set_option autoImplicit false

namespace FusionKit

namespace Node

theorem coreOf_eq_map (ns : List Node) : coreOf ns = (ns.filter isContent).map core := by
  induction ns with
  | nil => rfl
  | cons n ns ih =>
    cases hn : n.isContent with
    | true => rw [coreOf_content hn, List.filter_cons_of_pos hn, List.map_cons, ih]
    | false => rw [coreOf_skip hn, List.filter_cons_of_neg (by simp [hn]), ih]

theorem lineComments_newlines {n : Node} (h : n.isNewlines = true) (hi : n.items = []) :
    n.lineComments = [] := by
  obtain ⟨label, items⟩ := n
  obtain rfl : items = [] := hi
  have hk : label.kind = .newlines := by simpa [isNewlines] using h
  rw [lineComments, hk, if_neg (by decide)]
  rfl

theorem isContent_newlines {n : Node} (h : n.isNewlines = true) : n.isContent = false := by
  simp [isContent, h]

end Node

/-! ## Rows that lose or gain newline runs -/

namespace LaidRow

variable {V : Bool → Node → Prop} {s t : Slot} {n : Node} {items ns : List Node}

/-- A newline run at the start may go. -/
theorem drop_first (h : LaidRow V s (n :: ns) t) (hV : ∀ b n, V b n → n.isContent = true)
    (hn : n.isNewlines = true) : LaidRow V s ns t ∧ n.items = [] := by
  cases h with
  | newlines _ h => exact ⟨h, rfl⟩
  | line | block | key => contradiction
  | string hm =>
    rw [hm.isNewlines] at hn
    contradiction
  | value _ hm _ =>
    have := hV _ _ hm
    rw [Node.isContent_newlines hn] at this
    contradiction

/-- The items end in a newline run that is not the line break of a line comment. -/
structure EndsSpare (items : List Node) : Prop where
  last : ∀ n, items.getLast? = some n → n.isNewlines = true
  before : ∀ n, items.dropLast.getLast? = some n → n.isCommentLine = false

/-- What follows an item ends as the row does. -/
theorem EndsSpare.tail {m : Node} {ns : List Node} (hne : ns ≠ []) (h : EndsSpare (m :: ns)) :
    EndsSpare ns ∧ (m :: ns).dropLast = m :: ns.dropLast ∧ (m :: ns).getLast? = ns.getLast? := by
  obtain ⟨n, ns, rfl⟩ := List.exists_cons_of_ne_nil hne
  refine ⟨⟨fun k hk => h.last k (by rwa [List.getLast?_cons_cons]), fun k hk => h.before k ?_⟩, rfl,
    List.getLast?_cons_cons⟩
  cases ns with
  | nil => simp at hk
  | cons l ns => rwa [List.dropLast_cons_cons, List.dropLast_cons_cons, List.getLast?_cons_cons]

/-- A newline run at the end may go, unless a line comment stands in front of it. -/
theorem drop_last (h : LaidRow V s items t) (hV : ∀ b n, V b n → n.isContent = true) (hends : EndsSpare items) :
    LaidRow V s items.dropLast t ∧ ∀ n, items.getLast? = some n → n.items = [] := by
  induction h with
  | nil s => exact ⟨.nil s, by simp⟩
  | @newlines s t k span ns hk h ih =>
    by_cases hne : ns = []
    · subst hne
      exact ⟨by cases h; exact .nil _, by rintro n hn; cases hn; rfl⟩
    · obtain ⟨hrest, hdrop, hlast⟩ := hends.tail hne
      rw [hdrop, hlast]
      exact ⟨.newlines hk (ih hrest).1, (ih hrest).2⟩
  | @line s t v k span span' ns hs hv hk h ih =>
    by_cases hne : ns = []
    · subst hne
      have := hends.before _ rfl
      contradiction
    · obtain ⟨hbreak, hdrop, hlast⟩ := hends.tail (by simp)
      obtain ⟨hrest, hdrop', hlast'⟩ := hbreak.tail hne
      rw [hdrop, hlast, hdrop', hlast']
      exact ⟨.line hs hv hk (ih hrest).1, (ih hrest).2⟩
  | @block s t ls span ns hs hl h ih =>
    by_cases hne : ns = []
    · subst hne
      have := hends.last _ rfl
      contradiction
    · obtain ⟨hrest, hdrop, hlast⟩ := hends.tail hne
      rw [hdrop, hlast]
      exact ⟨.block hs hl (ih hrest).1, (ih hrest).2⟩
  | @key t v span ns hv h ih =>
    by_cases hne : ns = []
    · subst hne
      have := hends.last _ rfl
      contradiction
    · obtain ⟨hrest, hdrop, hlast⟩ := hends.tail hne
      rw [hdrop, hlast]
      exact ⟨.key hv (ih hrest).1, (ih hrest).2⟩
  | @value s s' t m ns hs hm h ih =>
    by_cases hne : ns = []
    · subst hne
      have := Node.isContent_newlines (hends.last m rfl)
      rw [hV _ _ hm] at this
      contradiction
    · obtain ⟨hrest, hdrop, hlast⟩ := hends.tail hne
      rw [hdrop, hlast]
      exact ⟨.value hs hm (ih hrest).1, (ih hrest).2⟩
  | @string t m ns hm h ih =>
    by_cases hne : ns = []
    · subst hne
      have := hends.last m rfl
      rw [hm.isNewlines] at this
      contradiction
    · obtain ⟨hrest, hdrop, hlast⟩ := hends.tail hne
      rw [hdrop, hlast]
      exact ⟨.string hm (ih hrest).1, (ih hrest).2⟩

/-- A row of newline runs leads nowhere. -/
theorem eq_of_all_newlines (h : LaidRow V s items t) (hV : ∀ b n, V b n → n.isContent = true)
    (hall : ∀ n ∈ items, n.isNewlines = true) : s = t ∧ ∀ n ∈ items, n.items = [] := by
  induction h with
  | nil => exact ⟨rfl, by simp⟩
  | newlines _ _ ih =>
    obtain ⟨hst, hitems⟩ := ih fun m hm => hall m (by simp [hm])
    refine ⟨hst, fun n hn => ?_⟩
    rcases List.mem_cons.mp hn with rfl | hn
    · rfl
    · exact hitems n hn
  | line | block | key =>
    have := hall _ (List.mem_cons_self ..)
    contradiction
  | string hm =>
    have := hall _ (List.mem_cons_self ..)
    rw [hm.isNewlines] at this
    contradiction
  | value _ hm =>
    have := Node.isContent_newlines (hall _ (List.mem_cons_self ..))
    rw [hV _ _ hm] at this
    contradiction

end LaidRow

/-! ## Rows while they are tidied -/

namespace Node

variable {V : Bool → Node → Prop} {s t : Slot} {row : Row}

/-- A row and what its items become: the labels are the same, and it is well-formed. -/
structure Tidied (V : Bool → Node → Prop) (s t : Slot) (row : Row) : Prop where
  labels : ∀ p ∈ row, p.2.label = p.1.label
  laid : LaidRow V s (row.map Prod.snd) t

/-- Nothing but newline runs comes or goes. -/
structure Respaced (ns ms : List Node) : Prop where
  contents : ms.filter isContent = ns.filter isContent
  comments : lineCommentsOf ms = lineCommentsOf ns

theorem Respaced.refl (ns : List Node) : Respaced ns ns := ⟨rfl, rfl⟩

theorem Respaced.trans {ns ms ls : List Node} (h : Respaced ns ms) (h' : Respaced ms ls) :
    Respaced ns ls := ⟨h'.contents.trans h.contents, h'.comments.trans h.comments⟩

theorem isNewlines_of_label {m n : Node} (h : m.label = n.label) : m.isNewlines = n.isNewlines := by
  unfold isNewlines kind
  rw [h]

theorem isCommentLine_of_label {m n : Node} (h : m.label = n.label) :
    m.isCommentLine = n.isCommentLine := by
  unfold isCommentLine kind
  rw [h]

/-- A row without a newline run at its start. -/
def trimFirst : Row → Row
  | (n, t) :: rest => if n.isNewlines then rest else (n, t) :: rest
  | [] => []

/-- A row without a newline run at its end, unless a line comment comes before it. -/
def trimLast (row : Row) : Row :=
  match row.reverse with
  | (last, _) :: (before, t) :: rest =>
    if last.isNewlines && !before.isCommentLine then ((before, t) :: rest).reverse else row
  | _ => row

theorem trimEdges_eq (row : Row) : trimEdges row = trimLast (trimFirst row) := by
  cases row with
  | nil => rfl
  | cons p row => rfl

theorem trimFirst_tidied (h : Tidied V s t row) (hV : ∀ b n, V b n → n.isContent = true) :
    Tidied V s t (trimFirst row) ∧ Respaced (row.map Prod.snd) ((trimFirst row).map Prod.snd) := by
  obtain ⟨labels, laid⟩ := h
  cases row with
  | nil => exact ⟨⟨labels, laid⟩, .refl _⟩
  | cons p rest =>
    obtain ⟨n, m⟩ := p
    by_cases hn : n.isNewlines = true
    · have hm : m.isNewlines = true := by rw [isNewlines_of_label (labels (n, m) (by simp)), hn]
      obtain ⟨hrow, hitems⟩ := laid.drop_first hV hm
      rw [trimFirst, if_pos hn]
      refine ⟨⟨fun p hp => labels p (by simp [hp]), hrow⟩, ?_, ?_⟩
      · rw [List.map_cons, List.filter_cons_of_neg (by simp [isContent_newlines hm])]
      · rw [List.map_cons, lineCommentsOf, lineComments_newlines hm hitems]
        rfl
    · rw [trimFirst, if_neg hn]
      exact ⟨⟨labels, laid⟩, .refl _⟩

theorem trimLast_tidied (h : Tidied V s t row) (hV : ∀ b n, V b n → n.isContent = true) :
    Tidied V s t (trimLast row) ∧ Respaced (row.map Prod.snd) ((trimLast row).map Prod.snd) := by
  obtain ⟨labels, laid⟩ := h
  unfold trimLast
  split
  · rename_i last m before m' rest hrev
    split
    · rename_i hcond
      simp only [Bool.and_eq_true, Bool.not_eq_true'] at hcond
      have hrow : row = ((before, m') :: rest).reverse ++ [(last, m)] := by
        rw [← List.reverse_reverse row, hrev]
        simp
      have hlabels := labels
      rw [hrow] at hlabels
      have hm : m.isNewlines = true := by
        rw [isNewlines_of_label (hlabels (last, m) (by simp)), hcond.1]
      have hbefore : m'.isCommentLine = false := by
        rw [isCommentLine_of_label (hlabels (before, m') (by simp)), hcond.2]
      have hmap : row.map Prod.snd = ((before, m') :: rest).reverse.map Prod.snd ++ [m] := by
        rw [hrow, List.map_append]
        rfl
      rw [hmap] at laid ⊢
      obtain ⟨hdropped, hitems⟩ := laid.drop_last hV ⟨by simpa using hm, by simpa using hbefore⟩
      rw [List.dropLast_concat] at hdropped
      have hnil := lineComments_newlines hm (hitems m (by simp))
      refine ⟨⟨fun p hp => labels p (by rw [hrow]; exact List.mem_append_left _ hp), hdropped⟩, ?_, ?_⟩
      · rw [List.filter_append, List.filter_cons_of_neg (by simp [isContent_newlines hm])]
        simp
      · rw [lineCommentsOf_append, lineCommentsOf, hnil]
        simp [lineCommentsOf]
    · exact ⟨⟨labels, laid⟩, .refl _⟩
  · exact ⟨⟨labels, laid⟩, .refl _⟩

theorem trimEdges_tidied (h : Tidied V s t row) (hV : ∀ b n, V b n → n.isContent = true) :
    Tidied V s t (trimEdges row) ∧ Respaced (row.map Prod.snd) ((trimEdges row).map Prod.snd) := by
  rw [trimEdges_eq]
  obtain ⟨hfirst, hfirst'⟩ := trimFirst_tidied h hV
  obtain ⟨hlast, hlast'⟩ := trimLast_tidied hfirst hV
  exact ⟨hlast, hfirst'.trans hlast'⟩

theorem clearEmpty_tidied (h : Tidied V s t row) (hV : ∀ b n, V b n → n.isContent = true) :
    Tidied V s t (clearEmpty row) ∧ Respaced (row.map Prod.snd) ((clearEmpty row).map Prod.snd) := by
  unfold clearEmpty
  split
  · rename_i hall
    rw [List.all_eq_true] at hall
    have hnew : ∀ m ∈ row.map Prod.snd, m.isNewlines = true := by
      intro m hm
      obtain ⟨p, hp, rfl⟩ := List.mem_map.mp hm
      rw [isNewlines_of_label (h.labels p hp), hall p hp]
    obtain ⟨rfl, hitems⟩ := h.laid.eq_of_all_newlines hV hnew
    refine ⟨⟨by simp, .nil _⟩, ?_, ?_⟩
    · rw [List.map_nil, List.filter_nil, eq_comm, List.filter_eq_nil_iff]
      intro m hm
      simp [isContent_newlines (hnew m hm)]
    · have hnone : ∀ ms : List Node, (∀ m ∈ ms, m.lineComments = []) → lineCommentsOf ms = [] := by
        intro ms hms
        induction ms with
        | nil => rfl
        | cons m ms ih => rw [lineCommentsOf, hms m (by simp), ih fun k hk => hms k (by simp [hk])]; rfl
      rw [hnone _ fun m hm => lineComments_newlines (hnew m hm) (hitems m hm)]
      rfl
  · exact ⟨h, .refl _⟩

theorem Respaced.cons {ns ms : List Node} (n : Node) (h : Respaced ns ms) :
    Respaced (n :: ns) (n :: ms) := by
  constructor
  · rw [List.filter_cons, List.filter_cons, h.contents]
  · rw [lineCommentsOf, lineCommentsOf, h.comments]

theorem breakRow_respaced (afterBreak : Bool) (row : Row) :
    Respaced (row.map Prod.snd) (breakRow afterBreak row) := by
  induction row generalizing afterBreak with
  | nil => exact .refl _
  | cons p row ih =>
    have hrest := (ih p.1.isNewlines).cons p.2
    rw [breakRow, List.map_cons]
    split
    · exact hrest.trans ⟨rfl, rfl⟩
    · exact hrest

theorem breakRow_quiet {n : Node} (hn : n.isCompound = false) (m : Node) (afterBreak : Bool) (row : Row) :
    breakRow afterBreak ((n, m) :: row) = m :: breakRow n.isNewlines row := by
  rw [breakRow, hn]
  rfl

/-- A newline run may stand in front of anything. -/
theorem breakRow_cons_laid {n m : Node}
    (h : LaidRow V s (m :: breakRow n.isNewlines row) t) (afterBreak : Bool) :
    LaidRow V s (breakRow afterBreak ((n, m) :: row)) t := by
  rw [breakRow]
  split
  · exact .newlines (n := 1) (by decide) h
  · exact h

theorem breakRow_laid {items : List Node} (h : LaidRow V s items t) (hrow : row.map Prod.snd = items)
    (hlabels : ∀ p ∈ row, p.2.label = p.1.label) (afterBreak : Bool) :
    LaidRow V s (breakRow afterBreak row) t := by
  have huncons : ∀ {row : Node.Row} {m : Node} {ns : List Node}, row.map Prod.snd = m :: ns →
      (∀ p ∈ row, p.2.label = p.1.label) → ∃ n rest, row = (n, m) :: rest ∧ rest.map Prod.snd = ns ∧
        m.label = n.label ∧ ∀ p ∈ rest, p.2.label = p.1.label := by
    intro row m ns hrow hlabels
    obtain ⟨⟨n, m'⟩, rest, rfl, rfl, hrest⟩ := List.map_eq_cons_iff.mp hrow
    exact ⟨n, rest, rfl, hrest, hlabels (n, m') (by simp), fun p hp => hlabels p (by simp [hp])⟩
  induction h generalizing row afterBreak with
  | nil s =>
    obtain rfl := List.map_eq_nil_iff.mp hrow
    exact .nil s
  | newlines hk _ ih =>
    obtain ⟨n, rest, rfl, hrest, -, hothers⟩ := huncons hrow hlabels
    exact breakRow_cons_laid (.newlines hk (ih hrest hothers _)) _
  | line hs hv hk _ ih =>
    obtain ⟨n, rest, rfl, hrest, hn, hothers⟩ := huncons hrow hlabels
    obtain ⟨n', rest', rfl, hrest', hn', hothers'⟩ := huncons hrest hothers
    have hcompound : n'.isCompound = false := by
      rw [isCompound, kind, ← hn']
      rfl
    refine breakRow_cons_laid ?_ _
    rw [breakRow_quiet hcompound]
    exact .line hs hv hk (ih hrest' hothers' _)
  | block hs hl _ ih =>
    obtain ⟨n, rest, rfl, hrest, -, hothers⟩ := huncons hrow hlabels
    exact breakRow_cons_laid (.block hs hl (ih hrest hothers _)) _
  | key hv _ ih =>
    obtain ⟨n, rest, rfl, hrest, -, hothers⟩ := huncons hrow hlabels
    exact breakRow_cons_laid (.key hv (ih hrest hothers _)) _
  | value hs hm _ ih =>
    obtain ⟨n, rest, rfl, hrest, -, hothers⟩ := huncons hrow hlabels
    exact breakRow_cons_laid (.value hs hm (ih hrest hothers _)) _
  | string hw _ ih =>
    obtain ⟨n, rest, rfl, hrest, -, hothers⟩ := huncons hrow hlabels
    exact breakRow_cons_laid (.string hw (ih hrest hothers _)) _

theorem tidyItem_label (n : Node) : n.tidyItem.label = n.label := by
  obtain ⟨label, items⟩ := n
  rw [tidyItem]
  split <;> rfl

theorem tidyItem_of_not_isCompound {n : Node} (hn : n.isCompound = false) : n.tidyItem = n := by
  obtain ⟨label, items⟩ := n
  have hk : label.kind.isCompound = false := hn
  rw [tidyItem, hk]
  rfl

theorem tidyItems_eq_map (ns : List Node) : tidyItems ns = ns.map tidyItem := by
  induction ns with
  | nil => rfl
  | cons n ns ih => rw [tidyItems, ih, List.map_cons]

/-- A value and what it becomes: all that is no newline run is the same. -/
structure Alike (S : Breadth) (b : Bool) (n m : Node) : Prop where
  label : m.label = n.label
  laid : LaidIn S b m
  core : m.core = n.core
  comments : m.lineComments = n.lineComments

variable {S : Breadth}

theorem Alike.refl {b : Bool} {n : Node} (h : LaidIn S b n) : Alike S b n n := ⟨rfl, h, rfl, rfl⟩

/-- Newline runs may come and go in a form. -/
theorem Alike.of_items {b : Bool} {label : Label} {items ms : List Node} (h : LaidIn S b ⟨label, items⟩)
    (hk : label.kind.isCompound = true)
    (hlaid : ∀ s t, LaidRow (LaidIn S) s items t → LaidRow (LaidIn S) s ms t)
    (hlabels : (ms.filter isContent).map Node.label = (items.filter isContent).map Node.label)
    (hcore : coreOf ms = coreOf items) (hcomments : lineCommentsOf ms = lineCommentsOf items) :
    Alike S b ⟨label, items⟩ ⟨label, ms⟩ := by
  refine ⟨rfl, ?_, ?_, ?_⟩
  · cases h with
    | scalar h =>
      cases h with
      | word hk' =>
        simp only [wordKinds, List.mem_cons, Prod.mk.injEq, List.not_mem_nil, or_false] at hk'
        rcases hk' with ⟨-, rfl⟩ | ⟨-, rfl⟩ | ⟨-, rfl⟩ | ⟨-, rfl⟩ | ⟨-, rfl⟩ | ⟨-, rfl⟩ | ⟨-, rfl⟩ |
          ⟨-, rfl⟩ <;> contradiction
      | string | long | blob => contradiction
    | list ha h => exact .list ha (hlaid _ _ h)
    | sexpr ha h hp => exact .sexpr ha (hlaid _ _ h) (S.heads_of_labels hlabels hp)
    | struct ha h => exact .struct ha (hlaid _ _ h)
    | clob => contradiction
  · show Node.core _ = Node.core _
    rw [Node.core, Node.core, hcore]
  · rw [lineComments, lineComments, hcomments]

theorem exists_row {b : Bool} {label : Label} {items : List Node} (h : LaidIn S b ⟨label, items⟩)
    (hk : label.kind.isCompound = true) : ∃ s t, LaidRow (LaidIn S) s items t := by
  cases h with
  | scalar => exact ⟨.top, .top, .nil _⟩
  | list _ h => exact ⟨_, _, h⟩
  | sexpr _ h => exact ⟨_, _, h⟩
  | struct _ h => exact ⟨_, _, h⟩
  | clob => contradiction

theorem coreOf_map {f : Node → Node} {ns : List Node} (hlabel : ∀ n ∈ ns, (f n).label = n.label)
    (hcore : ∀ n ∈ ns, (f n).core = n.core) : coreOf (ns.map f) = coreOf ns := by
  induction ns with
  | nil => rfl
  | cons n ns ih =>
    have hcontent : (f n).isContent = n.isContent := by
      unfold isContent isComment isNewlines kind
      rw [hlabel n (by simp)]
    rw [List.map_cons, coreOf, coreOf, hcontent, hcore n (by simp),
      ih (fun m hm => hlabel m (by simp [hm])) fun m hm => hcore m (by simp [hm])]

theorem lineCommentsOf_map {f : Node → Node} {ns : List Node}
    (h : ∀ n ∈ ns, (f n).lineComments = n.lineComments) :
    lineCommentsOf (ns.map f) = lineCommentsOf ns := by
  induction ns with
  | nil => rfl
  | cons n ns ih =>
    rw [List.map_cons, lineCommentsOf, lineCommentsOf, h n (by simp), ih fun m hm => h m (by simp [hm])]

theorem labels_filter_map {f : Node → Node} {ns : List Node} (h : ∀ n, (f n).label = n.label) :
    ((ns.map f).filter isContent).map Node.label = (ns.filter isContent).map Node.label := by
  have hcontent : isContent ∘ f = isContent := by
    funext n
    unfold Function.comp isContent isComment isNewlines kind
    rw [h]
  rw [List.filter_map, hcontent, List.map_map]
  exact List.map_congr_left fun n _ => h n

end Node

namespace LaidRow

variable {V : Bool → Node → Prop} {s t : Slot} {items : List Node}

/-- All forms of a row but its clobs are values of it. -/
theorem exists_of_isCompound (h : LaidRow V s items t) {n : Node} (hn : n ∈ items)
    (hc : n.isCompound = true) : ∃ b, V b n := by
  cases h.rowItem n hn with
  | newlines | line | block | key => contradiction
  | value hm => exact ⟨_, hm⟩
  | string hm =>
    rw [hm.isCompound] at hc
    contradiction

theorem map {W : Bool → Node → Prop} {f : Node → Node} (h : LaidRow V s items t)
    (hf : ∀ n : Node, n.isCompound = false → f n = n) (hvw : ∀ n ∈ items, ∀ b, V b n → W b (f n)) :
    LaidRow W s (items.map f) t := by
  induction h with
  | nil s => exact .nil s
  | newlines hk _ ih =>
    rw [List.map_cons, hf _ rfl]
    exact .newlines hk (ih fun n hn => hvw n (by simp [hn]))
  | line hs hv hk _ ih =>
    rw [List.map_cons, List.map_cons, hf _ rfl, hf _ rfl]
    exact .line hs hv hk (ih fun n hn => hvw n (by simp [hn]))
  | block hs hl _ ih =>
    rw [List.map_cons, hf _ rfl]
    exact .block hs hl (ih fun n hn => hvw n (by simp [hn]))
  | key hv _ ih =>
    rw [List.map_cons, hf _ rfl]
    exact .key hv (ih fun n hn => hvw n (by simp [hn]))
  | value hs hm _ ih =>
    rw [List.map_cons]
    exact .value hs (hvw _ (by simp) _ hm) (ih fun n hn => hvw n (by simp [hn]))
  | string hm _ ih =>
    rw [List.map_cons, hf _ hm.isCompound]
    exact .string hm (ih fun n hn => hvw n (by simp [hn]))

end LaidRow

/-! ## Tidy forms -/

namespace Node

/-- The items of a form after its edges are trimmed. -/
def respaced (trim : Node.Row → Node.Row) (items : List Node) : List Node :=
  breakRow true (trim (clearEmpty (items.zip (tidyItems items))))

theorem respaced_alike {S : Breadth} {b : Bool} {label : Label} {items : List Node} {trim : Node.Row → Node.Row}
    (ht : trim = trimEdges ∨ trim = fun row => trimEdges (trimEdges row)) (h : LaidIn S b ⟨label, items⟩)
    (hk : label.kind.isCompound = true) (hitems : ∀ n ∈ items, ∀ b, LaidIn S b n → Alike S b n n.tidyItem) :
    Alike S b ⟨label, items⟩ ⟨label, respaced trim items⟩ := by
  have hzip : items.zip (tidyItems items) = items.map fun n => (n, n.tidyItem) := by
    rw [tidyItems_eq_map, List.map_prod_left_eq_zip]
  have hsnd : (items.map fun n => (n, n.tidyItem)).map Prod.snd = items.map tidyItem := by
    rw [List.map_map]
    rfl
  have htidied : ∀ {s t : Slot}, LaidRow (LaidIn S) s items t →
      LaidRow (LaidIn S) s (respaced trim items) t ∧ Respaced (items.map tidyItem) (respaced trim items) := by
    intro s t hrow
    have hstart : Tidied (LaidIn S) s t (items.map fun n => (n, n.tidyItem)) := by
      constructor
      · intro p hp
        obtain ⟨n, -, rfl⟩ := List.mem_map.mp hp
        exact tidyItem_label n
      · rw [hsnd]
        exact hrow.map (fun n hn => tidyItem_of_not_isCompound hn) fun n hn b hl => (hitems n hn b hl).laid
    have hV : ∀ b n, LaidIn S b n → n.isContent = true := fun _ _ h => h.isContent
    obtain ⟨hcleared, hspaced⟩ := clearEmpty_tidied hstart hV
    rw [hsnd] at hspaced
    have htrimmed : ∃ row, trim (clearEmpty (items.map fun n => (n, n.tidyItem))) = row ∧
        Tidied (LaidIn S) s t row ∧ Respaced (items.map tidyItem) (row.map Prod.snd) := by
      obtain ⟨hone, hone'⟩ := trimEdges_tidied hcleared hV
      obtain ⟨htwo, htwo'⟩ := trimEdges_tidied hone hV
      rcases ht with rfl | rfl
      · exact ⟨_, rfl, hone, hspaced.trans hone'⟩
      · exact ⟨_, rfl, htwo, (hspaced.trans hone').trans htwo'⟩
    obtain ⟨row, hrow, htidied, hrespaced⟩ := htrimmed
    rw [respaced, hzip, hrow]
    exact ⟨breakRow_laid htidied.laid rfl htidied.labels _, hrespaced.trans (breakRow_respaced _ _)⟩
  obtain ⟨s, t, hrow⟩ := exists_row h hk
  obtain ⟨-, hcontents, hcomments⟩ := htidied hrow
  have hsame : ∀ n ∈ items, n.tidyItem.core = n.core ∧ n.tidyItem.lineComments = n.lineComments := by
    intro n hn
    by_cases hc : n.isCompound = true
    · obtain ⟨b, hl⟩ := hrow.exists_of_isCompound hn hc
      have := hitems n hn b hl
      exact ⟨this.core, this.comments⟩
    · rw [tidyItem_of_not_isCompound (by simpa using hc)]
      exact ⟨rfl, rfl⟩
  refine .of_items h hk (fun s t hrow => (htidied hrow).1) ?_ ?_ ?_
  · rw [hcontents, labels_filter_map tidyItem_label]
  · rw [coreOf_eq_map, hcontents, ← coreOf_eq_map]
    exact coreOf_map (fun n _ => tidyItem_label n) fun n hn => (hsame n hn).1
  · rw [hcomments, lineCommentsOf_map fun n hn => (hsame n hn).2]

end Node

/-- Tidying an item keeps it well-formed, and its content. -/
theorem LaidIn.tidyItem_alike {S : Breadth} {b : Bool} {n : Node} (h : LaidIn S b n) :
    Node.Alike S b n n.tidyItem := by
  induction hk : sizeOf n using Nat.strongRecOn generalizing b n with
  | ind k ih =>
    subst hk
    by_cases hc : n.isCompound = true
    · obtain ⟨label, items⟩ := n
      have hk : label.kind.isCompound = true := hc
      rw [Node.tidyItem, if_pos hk]
      refine Node.respaced_alike (.inr rfl) h hk fun m hm b hl => ih _ ?_ hl rfl
      have := List.sizeOf_lt_of_mem hm
      simp only [Node.mk.sizeOf_spec]
      omega
    · rw [Node.tidyItem_of_not_isCompound (by simpa using hc)]
      exact .refl h

/-- Tidying a value keeps it well-formed, and its content. -/
theorem LaidIn.tidy_alike {S : Breadth} {b : Bool} {n : Node} (h : LaidIn S b n) :
    Node.Alike S b n n.tidy := by
  obtain ⟨label, items⟩ := n
  rw [Node.tidy]
  split
  · rename_i hc
    exact Node.respaced_alike (.inl rfl) h hc fun m _ b hl => hl.tidyItem_alike
  · exact .refl h

theorem Node.tidy_of_not_isCompound {n : Node} (hn : n.isCompound = false) : n.tidy = n := by
  rw [Node.tidy, hn]
  rfl

theorem Node.tidy_label (n : Node) : n.tidy.label = n.label := by
  rw [Node.tidy]
  split <;> rfl

/-- Tidying the values of a program keeps it well-formed, and its content. -/
theorem LaidRow.tidied {S : Breadth} {s t : Slot} {items : List Node} (h : LaidRow (LaidIn S) s items t) :
    LaidRow (LaidIn S) s (items.map Node.tidy) t ∧ Node.coreOf (items.map Node.tidy) = Node.coreOf items ∧
      Node.lineCommentsOf (items.map Node.tidy) = Node.lineCommentsOf items := by
  have hsame : ∀ n ∈ items, n.tidy.core = n.core ∧ n.tidy.lineComments = n.lineComments := by
    intro n hn
    by_cases hc : n.isCompound = true
    · obtain ⟨b, hl⟩ := h.exists_of_isCompound hn hc
      exact ⟨hl.tidy_alike.core, hl.tidy_alike.comments⟩
    · rw [Node.tidy_of_not_isCompound (by simpa using hc)]
      exact ⟨rfl, rfl⟩
  refine ⟨?_, ?_, ?_⟩
  · exact LaidRow.map h (fun n hn => Node.tidy_of_not_isCompound hn) fun n _ b hl => hl.tidy_alike.laid
  · exact Node.coreOf_map (fun n _ => n.tidy_label) fun n hn => (hsame n hn).1
  · exact Node.lineCommentsOf_map fun n hn => (hsame n hn).2

end FusionKit
