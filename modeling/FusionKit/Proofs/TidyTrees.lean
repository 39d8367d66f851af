import FusionKit.Proofs.GuardedTidy
import FusionKit.Proofs.Likeness

/-!
# Tidy trees

A tree is tidy when no newline run stands at an edge of its forms, but the line break of a line
comment at the end. Tidying changes no such tree, and what is read back of one is tidy again.
Tidying drops one newline run from each edge: it comes to a tidy tree where newline runs do not meet,
as they do around a comma.
-/
set_option autoImplicit false

namespace FusionKit

namespace Node

/-! ## Tidy trees -/

/-- Whether some items end with no newline run but the line break of a line comment; `owned` tells
whether a line comment comes before them. -/
def endsTidy (owned : Bool) : List Node → Bool
  | [] => true
  | [n] => !n.isNewlines || owned && n.label.count == 1
  | n :: m :: ns => endsTidy n.isCommentLine (m :: ns)

/-- Whether some items do not start with a newline run, and end with none but the line break of a
line comment. -/
def hasTidyEdges (items : List Node) : Bool := (items.head?.all fun n => !n.isNewlines) && endsTidy false items

mutual

/-- Whether no form of a tree has a newline run at its edges. -/
def isTidy : Node → Bool
  | ⟨label, items⟩ => !label.kind.isCompound || hasTidyEdges items && areTidy items

/-- Whether no form of some trees has a newline run at its edges. -/
def areTidy : List Node → Bool
  | [] => true
  | n :: ns => isTidy n && areTidy ns

end

section

variable {n : Node} {ns items : List Node} {owned : Bool}

theorem endsTidy_cons (h : ns ≠ []) : endsTidy owned (n :: ns) = endsTidy n.isCommentLine ns := by
  cases ns with
  | nil => contradiction
  | cons m ns => rfl

/-- The last two items tell whether all of them end tidily. -/
theorem endsTidy_append (before last : Node) :
    endsTidy owned (ns ++ [before, last]) = endsTidy before.isCommentLine [last] := by
  induction ns generalizing owned with
  | nil => rfl
  | cons n ns ih => rw [List.cons_append, endsTidy_cons (by simp), ih]

theorem areTidy_eq_true : areTidy ns = true ↔ ∀ n ∈ ns, n.isTidy = true := by
  induction ns with
  | nil => simp [areTidy]
  | cons n ns ih => simp [areTidy, ih]

theorem isTidy_iff : n.isTidy = true ↔
    (n.isCompound = true → hasTidyEdges n.items = true ∧ ∀ m ∈ n.items, m.isTidy = true) := by
  obtain ⟨label, items⟩ := n
  rw [isTidy, Bool.or_eq_true, Bool.and_eq_true, areTidy_eq_true, Bool.not_eq_true', ← Bool.not_eq_true,
    ← imp_iff_not_or]
  rfl

/-! ## Tidying changes no tidy tree -/

theorem trimLast_of_endsTidy (h : endsTidy owned items = true) (f : Node → Node) :
    trimLast (items.map fun n => (n, f n)) = items.map fun n => (n, f n) := by
  unfold trimLast
  rw [← List.map_reverse]
  rcases hreverse : items.reverse with _ | ⟨last, _ | ⟨before, rest⟩⟩
  · rfl
  · rfl
  · have hitems : items = rest.reverse ++ [before, last] := by
      rw [← List.reverse_reverse items, hreverse]
      simp
    rw [hitems, endsTidy_append, endsTidy] at h
    have hkept : (last.isNewlines && !before.isCommentLine) = false := by
      cases hl : last.isNewlines <;> simp_all
    simp only [List.map_cons, hkept, Bool.false_eq_true, if_false]

theorem trimEdges_of_hasTidyEdges (h : hasTidyEdges items = true) (f : Node → Node) :
    trimEdges (items.map fun n => (n, f n)) = items.map fun n => (n, f n) := by
  rw [hasTidyEdges, Bool.and_eq_true] at h
  have hfirst : trimFirst (items.map fun n => (n, f n)) = items.map fun n => (n, f n) := by
    cases items with
    | nil => rfl
    | cons n ns =>
      have hn : n.isNewlines = false := by simpa using h.1
      rw [List.map_cons, trimFirst, hn, if_neg Bool.false_ne_true]
  rw [trimEdges_eq, hfirst, trimLast_of_endsTidy h.2]

theorem clearEmpty_of_hasTidyEdges (h : hasTidyEdges items = true) (f : Node → Node) :
    clearEmpty (items.map fun n => (n, f n)) = items.map fun n => (n, f n) := by
  cases items with
  | nil => rfl
  | cons n ns =>
    have hn : n.isNewlines = false := by simp_all [hasTidyEdges]
    rw [clearEmpty, List.map_cons, List.all_cons, hn, Bool.false_and, if_neg Bool.false_ne_true]

/-- No form whose contents start on its own line is put on a new one. -/
theorem breakRow_of_isTidy (h : ∀ n ∈ ns, n.isTidy = true) (afterBreak : Bool) :
    breakRow afterBreak (ns.map fun n => (n, n)) = ns := by
  induction ns generalizing afterBreak with
  | nil => rfl
  | cons n ns ih =>
    have hedges := isTidy_iff.mp (h n (by simp))
    have hstays : (n.isCompound && startsOnNewLine n.items && !afterBreak) = false := by
      cases hn : n.isCompound with
      | false => rfl
      | true =>
        have hfirst := (hedges hn).1
        unfold startsOnNewLine
        cases hitems : n.items with
        | nil => rfl
        | cons m ms => simp_all [hasTidyEdges]
    rw [List.map_cons, breakRow, hstays, if_neg Bool.false_ne_true, ih fun m hm => h m (by simp [hm])]

theorem respaced_of_isTidy (trim : Row → Row) (hn : n.isCompound = true) (h : n.isTidy = true)
    (htrim : ∀ f : Node → Node, trim (n.items.map fun n => (n, f n)) = n.items.map fun n => (n, f n))
    (hitems : ∀ m ∈ n.items, m.tidyItem = m) : respaced trim n.items = n.items := by
  obtain ⟨hedges, hbelow⟩ := isTidy_iff.mp h hn
  have hrow : n.items.zip (tidyItems n.items) = n.items.map fun m => (m, m) := by
    rw [tidyItems_eq_map, ← List.map_prod_left_eq_zip]
    exact List.map_congr_left fun m hm => by rw [hitems m hm]
  rw [respaced, hrow, clearEmpty_of_hasTidyEdges hedges fun m => m, htrim fun m => m,
    breakRow_of_isTidy hbelow]

theorem tidyItem_of_isTidy (n : Node) : n.isTidy = true → n.tidyItem = n := by
  induction n using Node.induct with
  | h n ih =>
    intro h
    cases hn : n.isCompound with
    | false => exact tidyItem_of_not_isCompound hn
    | true =>
      obtain ⟨hedges, hbelow⟩ := isTidy_iff.mp h hn
      have hitems := respaced_of_isTidy (fun row => trimEdges (trimEdges row)) hn h
        (fun f => by rw [trimEdges_of_hasTidyEdges hedges, trimEdges_of_hasTidyEdges hedges])
        fun m hm => ih m hm (hbelow m hm)
      obtain ⟨label, items⟩ := n
      rw [respaced] at hitems
      rw [tidyItem, if_pos (show label.kind.isCompound = true from hn), hitems]

theorem tidy_of_isTidy (h : n.isTidy = true) : n.tidy = n := by
  cases hn : n.isCompound with
  | false => exact tidy_of_not_isCompound hn
  | true =>
    obtain ⟨hedges, hbelow⟩ := isTidy_iff.mp h hn
    have hitems := respaced_of_isTidy trimEdges hn h (trimEdges_of_hasTidyEdges hedges)
      fun m hm => m.tidyItem_of_isTidy (hbelow m hm)
    obtain ⟨label, items⟩ := n
    rw [respaced] at hitems
    rw [tidy, if_pos hn, hitems]

end

/-! ## Where tidying comes to a tidy tree -/

/-- Whether no two newline runs meet but the line break of a line comment and the run after it;
`owned` tells whether a line comment comes before the items. -/
def runsApart (owned : Bool) : List Node → Bool
  | [] => true
  | n :: ns =>
    (!n.isNewlines || if owned then n.label.count == 1 else ns.head?.all fun m => !m.isNewlines) &&
      runsApart n.isCommentLine ns

section

variable {n : Node} {ns ms items : List Node} {owned : Bool}

open Guarded (trimmed trimmedFirst trimmedLast)

theorem runsApart_append (h : runsApart owned (ns ++ ms) = true) : ∃ owned, runsApart owned ms = true := by
  induction ns generalizing owned with
  | nil => exact ⟨owned, h⟩
  | cons n ns ih =>
    rw [List.cons_append, runsApart, Bool.and_eq_true] at h
    exact ih h.2

theorem runsApart_trimmedFirst (h : runsApart false items = true) :
    runsApart false (trimmedFirst items) = true ∧
      ((trimmedFirst items).head?.all fun n => !n.isNewlines) = true := by
  cases items with
  | nil => exact ⟨rfl, rfl⟩
  | cons n ns =>
    have hapart := h
    rw [runsApart, Bool.and_eq_true] at hapart
    unfold trimmedFirst
    dsimp only
    split
    · rename_i hn
      have hline : n.isCommentLine = false := by
        have hk : n.kind = .newlines := by simpa [isNewlines] using hn
        simp [isCommentLine, hk]
      simpa [hn, hline, and_comm] using hapart
    · rename_i hn
      exact ⟨h, by simpa using hn⟩

theorem endsTidy_trimmedLast (h : runsApart false items = true)
    (hfirst : (items.head?.all fun n => !n.isNewlines) = true) :
    (trimmedLast items).head? = items.head? ∧ endsTidy false (trimmedLast items) = true := by
  unfold trimmedLast
  rcases hreverse : items.reverse with _ | ⟨last, _ | ⟨before, rest⟩⟩
  · obtain rfl := List.reverse_eq_nil_iff.mp hreverse
    exact ⟨rfl, rfl⟩
  · obtain rfl : items = [last] := by rw [← List.reverse_reverse items, hreverse, List.reverse_singleton]
    exact ⟨rfl, by simpa [endsTidy] using hfirst⟩
  · have hitems : items = rest.reverse ++ [before, last] := by
      rw [← List.reverse_reverse items, hreverse]
      simp
    dsimp only
    split
    · rename_i hlast
      simp only [Bool.and_eq_true, Bool.not_eq_true'] at hlast
      cases rest with
      | nil =>
        subst hitems
        exact ⟨rfl, by simpa [endsTidy] using hfirst⟩
      | cons first rest =>
        have hsplit : items = rest.reverse ++ [first, before, last] := by rw [hitems]; simp
        refine ⟨by simp [hsplit], ?_⟩
        obtain ⟨owned, hthree⟩ := runsApart_append (hsplit ▸ h)
        rw [show (before :: first :: rest).reverse = rest.reverse ++ [first, before] by simp, endsTidy_append]
        simp only [runsApart, List.head?_cons, Option.all_some, hlast.1] at hthree
        cases hb : before.isNewlines <;> cases hc : first.isCommentLine <;> simp_all [endsTidy]
    · rename_i hlast
      refine ⟨rfl, ?_⟩
      obtain ⟨owned, htwo⟩ := runsApart_append (hitems ▸ h)
      rw [hitems, endsTidy_append]
      cases hb : last.isNewlines <;> cases hc : before.isCommentLine <;> simp_all [endsTidy, runsApart]

theorem hasTidyEdges_trimmed (h : runsApart false items = true) : hasTidyEdges (trimmed items) = true := by
  obtain ⟨hapart, hfirst⟩ := runsApart_trimmedFirst h
  obtain ⟨hhead, hends⟩ := endsTidy_trimmedLast hapart hfirst
  rw [hasTidyEdges, trimmed, hhead, hfirst, hends]
  rfl

theorem isNewlines_of_isCompound (h : n.isCompound = true) : n.isNewlines = false := by
  cases hn : n.isNewlines with
  | false => rfl
  | true =>
    have hk : n.kind = .newlines := by simpa [isNewlines] using hn
    rw [isCompound, hk] at h
    contradiction

/-- A newline in front of a form stands at no edge. -/
theorem endsTidy_breakRow (f : Node → Node) (hf : ∀ n, (f n).label = n.label) (afterBreak : Bool) :
    endsTidy owned (breakRow afterBreak (ns.map fun n => (n, f n))) = endsTidy owned ns := by
  induction ns generalizing owned afterBreak with
  | nil => rfl
  | cons n ns ih =>
    have hothers : ∀ b, endsTidy b (f n :: breakRow n.isNewlines (ns.map fun n => (n, f n))) =
        endsTidy b (n :: ns) := by
      intro b
      cases ns with
      | nil => simp only [List.map_nil, breakRow, endsTidy, isNewlines_of_label (hf n), hf n]
      | cons m ms =>
        have hne : breakRow n.isNewlines ((m :: ms).map fun n => (n, f n)) ≠ [] := by
          rw [List.map_cons, breakRow]
          split <;> simp
        rw [endsTidy_cons hne, ih, endsTidy, isCommentLine_of_label (hf n)]
    rw [List.map_cons, breakRow]
    split
    · rename_i hbreak
      simp only [Bool.and_eq_true] at hbreak
      have hn := isNewlines_of_isCompound hbreak.1.1
      rw [endsTidy_cons (by simp), hothers]
      cases ns with
      | nil => simp [endsTidy, hn]
      | cons m ms => rfl
    · exact hothers owned

theorem hasTidyEdges_breakRow (f : Node → Node) (hf : ∀ n, (f n).label = n.label) :
    hasTidyEdges (breakRow true (ns.map fun n => (n, f n))) = hasTidyEdges ns := by
  have hhead : (breakRow true (ns.map fun n => (n, f n))).head?.all (fun n => !n.isNewlines) =
      ns.head?.all fun n => !n.isNewlines := by
    cases ns with
    | nil => rfl
    | cons n ns =>
      rw [List.map_cons, breakRow]
      simp [isNewlines_of_label (hf n)]
  rw [hasTidyEdges, hasTidyEdges, hhead, endsTidy_breakRow f hf]

/-- Tidying a form takes no items but those it has, and puts in line breaks. -/
theorem mem_breakRow {row : Row} {m : Node} {afterBreak : Bool} (h : m ∈ breakRow afterBreak row) :
    (∃ n, m = breakBefore n) ∨ m ∈ row.map Prod.snd := by
  induction row generalizing afterBreak with
  | nil => exact .inr h
  | cons p row ih =>
    rw [List.map_cons, List.mem_cons]
    rw [breakRow] at h
    have hrest : m ∈ p.2 :: breakRow p.1.isNewlines row →
        (∃ n, m = breakBefore n) ∨ m = p.2 ∨ m ∈ row.map Prod.snd := by
      intro h
      rcases List.mem_cons.mp h with rfl | h
      · exact .inr (.inl rfl)
      · exact (ih h).imp_right .inr
    split at h
    · rcases List.mem_cons.mp h with rfl | h
      · exact .inl ⟨p.1, rfl⟩
      · exact hrest h
    · exact hrest h

/-- What a form is tidied to is tidy, if what is left of it has tidy edges and its items are tidied to
tidy trees. -/
theorem isTidy_of_trimmed (label : Label) (trim : Row → Row)
    (hns : trim (clearEmpty (items.map fun n => (n, n.tidyItem))) = ns.map fun n => (n, n.tidyItem))
    (hedges : hasTidyEdges ns = true) (hitems : ∀ m ∈ ns, m.tidyItem.isTidy = true) :
    isTidy ⟨label, respaced trim items⟩ = true := by
  have hrow : items.zip (tidyItems items) = items.map fun n => (n, n.tidyItem) := by
    rw [tidyItems_eq_map, List.map_prod_left_eq_zip]
  rw [respaced, hrow, hns, isTidy_iff]
  refine fun _ => ⟨?_, fun m hm => ?_⟩
  · rwa [show (⟨label, breakRow true (ns.map fun n => (n, n.tidyItem))⟩ : Node).items =
      breakRow true (ns.map fun n => (n, n.tidyItem)) from rfl, hasTidyEdges_breakRow _ tidyItem_label]
  · rcases mem_breakRow hm with ⟨n, rfl⟩ | hm
    · rfl
    · simp only [List.map_map, List.mem_map] at hm
      obtain ⟨n, hn, rfl⟩ := hm
      exact hitems n hn

/-- What a form of which the newline runs stand apart is tidied to is tidy, if its items are. -/
theorem isTidy_respaced (label : Label) (trim : Row → Row)
    (htrim : trim = trimEdges ∨ trim = fun row => trimEdges (trimEdges row))
    (h : runsApart false items = true) (hitems : ∀ m ∈ items, m.tidyItem.isTidy = true) :
    isTidy ⟨label, respaced trim items⟩ = true := by
  have htrimmed : ∃ ns,
      trim (clearEmpty (items.map fun n => (n, n.tidyItem))) = ns.map (fun n => (n, n.tidyItem)) ∧
      hasTidyEdges ns = true ∧ ∀ n ∈ ns, n ∈ items := by
    unfold clearEmpty
    split
    · exact ⟨[], by rcases htrim with rfl | rfl <;> rfl, rfl, by simp⟩
    · have hedges := hasTidyEdges_trimmed h
      refine ⟨trimmed items, ?_, hedges, fun n hn => (Guarded.trimmed_sublist items).subset hn⟩
      rcases htrim with rfl | rfl
      · exact Guarded.trimEdges_map _ items
      · dsimp only
        rw [Guarded.trimEdges_map, trimEdges_of_hasTidyEdges hedges]
  obtain ⟨ns, hns, hedges, hmem⟩ := htrimmed
  exact isTidy_of_trimmed label trim hns hedges fun m hm => hitems m (hmem m hm)

end

/-- Where newline runs stand apart in all forms, nothing is left to tidy. -/
theorem isTidy_tidyItem (n : Node) : (∀ m, n.Below m → m.isCompound = true → runsApart false m.items = true) →
    n.tidyItem.isTidy = true := by
  induction n using Node.induct with
  | h n ih =>
    intro h
    cases hn : n.isCompound with
    | false =>
      rw [tidyItem_of_not_isCompound hn, isTidy_iff, hn]
      exact fun h => absurd h (by decide)
    | true =>
      have hrespaced := isTidy_respaced n.label _ (.inr rfl) (h n (.refl n) hn) fun m hm =>
        ih m hm fun k hk => h k (.item hm hk)
      obtain ⟨label, items⟩ := n
      rw [tidyItem, if_pos (show label.kind.isCompound = true from hn)]
      exact hrespaced

theorem isTidy_tidy {n : Node} (h : ∀ m, n.Below m → m.isCompound = true → runsApart false m.items = true) :
    n.tidy.isTidy = true := by
  cases hn : n.isCompound with
  | false =>
    rw [tidy_of_not_isCompound hn, isTidy_iff, hn]
    exact fun h => absurd h (by decide)
  | true =>
    rw [tidy, if_pos hn]
    exact isTidy_respaced n.label _ (.inl rfl) (h n (.refl n) hn) fun m hm =>
      m.isTidy_tidyItem fun k hk => h k (.item hm hk)

/-! ## What is read back of a tidy tree is tidy -/

section

variable {n : Node} {ns : List Node} {owned : Bool}

theorem endsTidy_flush (k : Nat) (hn : n.isNewlines = false) :
    endsTidy owned (flush k ++ n :: ns) = endsTidy false (n :: ns) := by
  have hfree : ∀ b, endsTidy b (n :: ns) = endsTidy false (n :: ns) := by
    intro b
    cases ns with
    | nil => simp [endsTidy, hn]
    | cons m ns => rfl
  unfold flush
  split
  · exact hfree owned
  · rfl

theorem isNewlines_of_isContent (h : n.isContent = true) : n.isNewlines = false := by
  cases hn : n.isNewlines with
  | false => rfl
  | true => simp [isContent, hn] at h

theorem isCommentLine_of_isContent (h : n.isContent = true) : n.isCommentLine = false := by
  cases hn : n.isCommentLine with
  | false => rfl
  | true =>
    have hk : n.kind = .commentLine := by simpa [isCommentLine] using hn
    simp [isContent, isComment, hk, Kind.isComment] at h

theorem areTidy_append (ns ms : List Node) : areTidy (ns ++ ms) = (areTidy ns && areTidy ms) := by
  induction ns with
  | nil => rfl
  | cons n ns ih => rw [List.cons_append, areTidy, ih, areTidy, Bool.and_assoc]

theorem areTidy_flush (k : Nat) : areTidy (flush k) = true := by
  unfold flush
  split <;> rfl

end

end Node

section

open Node

variable {V : Bool → Node → Prop} {s t : Slot} {items : List Node}

/-- The end behind an item that is no newline run decides, also when the item is replaced by such a one. -/
theorem Node.endsTidy_replaced {n r : Node} {ns others : List Node} {owned : Bool} {k : Nat} (hn : n.isNewlines = false)
    (hr : r.isNewlines = false) (hnc : n.isCommentLine = false) (hrc : r.isCommentLine = false)
    (hrest : endsTidy false (flush 0 ++ ns) = true → endsTidy false others = true)
    (h : endsTidy owned (flush k ++ n :: ns) = true) : endsTidy owned (flush k ++ r :: others) = true := by
  rw [endsTidy_flush k hn] at h
  rw [endsTidy_flush k hr]
  by_cases hothers : others = []
  · rw [hothers, endsTidy, hr]
    rfl
  · rw [endsTidy_cons hothers, hrc]
    apply hrest
    by_cases hns : ns = []
    · rw [hns]
      rfl
    · rwa [endsTidy_cons hns, hnc] at h

/-- What is read back of a row ends as tidily. -/
theorem LaidRow.endsTidy_reread (h : LaidRow V s items t) (hV : ∀ b n, V b n → n.isContent = true)
    (owned : Bool) (k : Nat) (hends : endsTidy owned (flush k ++ items) = true) :
    endsTidy owned (rereadAfter k items) = true := by
  induction h generalizing owned k with
  | nil s =>
    rw [List.append_nil] at hends
    rwa [rereadAfter_nil]
  | @newlines s t j span ns hj _ ih =>
    rw [rereadAfter_newlines]
    apply ih
    have hflush : flush (k + j) ++ ns = newlineRun (k + j) :: ns := by rw [flush, if_neg (by omega)]; rfl
    rw [hflush]
    by_cases hk : k = 0
    · subst hk
      rw [Nat.zero_add]
      cases ns <;> exact hends
    · rw [flush, if_neg hk] at hends
      cases ns with
      | nil => contradiction
      | cons n ns => exact hends
  | @line s t v j span span' ns hs hv hj _ ih =>
    obtain ⟨j, rfl⟩ := Nat.exists_eq_succ_of_ne_zero (by omega : j ≠ 0)
    rw [rereadAfter_line, endsTidy_flush k rfl]
    rw [endsTidy_flush k rfl] at hends
    show endsTidy true (newlineRun 1 :: rereadAfter j ns) = true
    replace hends : endsTidy true (newlineRun (j + 1) span' :: ns) = true := hends
    by_cases hothers : rereadAfter j ns = []
    · rw [hothers]
      rfl
    · rw [endsTidy_cons hothers]
      apply ih
      cases ns with
      | nil =>
        obtain rfl : j = 0 := by
          by_contra hj
          simp [endsTidy, newlineRun, isNewlines] at hends
          omega
        rfl
      | cons n ns =>
        unfold flush
        split <;> exact hends
  | block hs hl _ ih =>
    rw [rereadAfter_block]
    exact endsTidy_replaced rfl rfl rfl rfl (ih false 0) hends
  | key hv _ ih =>
    rw [rereadAfter_content _ _ rfl]
    exact endsTidy_replaced rfl rfl rfl rfl (ih false 0) hends
  | @value s s' t n ns hs hn _ ih =>
    have hc := hV _ _ hn
    have hr : n.reread.isContent = true := by rw [isContent_reread, hc]
    rw [rereadAfter_content _ _ hc]
    exact endsTidy_replaced (isNewlines_of_isContent hc) (isNewlines_of_isContent hr) (isCommentLine_of_isContent hc)
      (isCommentLine_of_isContent hr) (ih false 0) hends
  | @string t n ns hn _ ih =>
    have hr : n.reread.isContent = true := by rw [isContent_reread, hn.isContent]
    rw [rereadAfter_content _ _ hn.isContent]
    exact endsTidy_replaced hn.isNewlines (isNewlines_of_isContent hr) (isCommentLine_of_isContent hn.isContent)
      (isCommentLine_of_isContent hr) (ih false 0) hends

/-- What is read back of a row has tidy edges if the row has. -/
theorem LaidRow.hasTidyEdges_reread (h : LaidRow V s items t) (hV : ∀ b n, V b n → n.isContent = true)
    (hedges : hasTidyEdges items = true) : hasTidyEdges (rereadFrom [] items) = true := by
  rw [hasTidyEdges, Bool.and_eq_true] at hedges ⊢
  refine ⟨?_, h.endsTidy_reread hV false 0 hedges.2⟩
  cases h with
  | nil => rfl
  | newlines => simp [newlineRun, isNewlines] at hedges
  | line hs hv hj =>
    obtain ⟨j, rfl⟩ := Nat.exists_eq_succ_of_ne_zero (Nat.ne_of_gt hj)
    show Option.all _ (rereadAfter 0 _).head? = true
    rw [rereadAfter_line]
    rfl
  | block =>
    show Option.all _ (rereadAfter 0 _).head? = true
    rw [rereadAfter_block]
    rfl
  | key => rfl
  | value hs hn =>
    have hc := hV _ _ hn
    have hr : (Node.reread _).isNewlines = false := isNewlines_of_isContent (by rw [isContent_reread, hc])
    rw [rereadFrom_content hc]
    simp [trivia, triviaFrom, flush, hr]
  | string hn =>
    have hr : (Node.reread _).isNewlines = false :=
      isNewlines_of_isContent (by rw [isContent_reread, hn.isContent])
    rw [rereadFrom_content hn.isContent]
    simp [trivia, triviaFrom, flush, hr]

/-- What is read back of a row of tidy trees are tidy trees. -/
theorem LaidRow.areTidy_reread (h : LaidRow V s items t) (hV : ∀ b n, V b n → n.isContent = true)
    (hitems : ∀ b n, V b n → n.isTidy = true → n.reread.isTidy = true) (k : Nat)
    (htidy : areTidy items = true) : areTidy (rereadAfter k items) = true := by
  have hcons : ∀ {n : Node} {ns : List Node} {k : Nat}, n.isTidy = true → areTidy ns = true →
      areTidy (flush k ++ n :: ns) = true := by
    intro n ns k hn hns
    rw [areTidy_append, areTidy_flush, areTidy, hn, hns]
    rfl
  induction h generalizing k with
  | nil s =>
    rw [rereadAfter_nil]
    exact areTidy_flush k
  | newlines hj _ ih =>
    rw [rereadAfter_newlines]
    exact ih _ htidy
  | @line s t v j span span' ns hs hv hj _ ih =>
    obtain ⟨j, rfl⟩ := Nat.exists_eq_succ_of_ne_zero (by omega : j ≠ 0)
    rw [rereadAfter_line]
    exact hcons rfl (ih j htidy)
  | block hs hl _ ih =>
    rw [rereadAfter_block]
    exact hcons rfl (ih 0 htidy)
  | key hv _ ih =>
    rw [rereadAfter_content _ _ rfl]
    exact hcons rfl (ih 0 htidy)
  | value hs hn _ ih =>
    rw [areTidy, Bool.and_eq_true] at htidy
    rw [rereadAfter_content _ _ (hV _ _ hn)]
    exact hcons (hitems _ _ hn htidy.1) (ih 0 htidy.2)
  | string hn _ ih =>
    rw [areTidy, Bool.and_eq_true] at htidy
    rw [rereadAfter_content _ _ hn.isContent]
    exact hcons (by cases hn <;> rfl) (ih 0 htidy.2)

theorem LaidRow.isTidy_reread {l : Label}
    (h : LaidRow (fun b n => Laid b n ∧ (n.isTidy = true → n.reread.isTidy = true)) s items t)
    (htidy : isTidy ⟨l, items⟩ = true) : (reread ⟨l, items⟩).isTidy = true := by
  have hV : ∀ b n, Laid b n ∧ (n.isTidy = true → n.reread.isTidy = true) → n.isContent = true :=
    fun _ _ h => h.1.isContent
  rw [isTidy, Bool.or_eq_true, Bool.and_eq_true] at htidy
  rw [reread, isTidy, Bool.or_eq_true, Bool.and_eq_true]
  exact htidy.imp_right (And.imp (h.hasTidyEdges_reread hV) (h.areTidy_reread hV (fun _ _ h => h.2) 0))

end

/-- What is read back of a tidy value is tidy. -/
theorem Laid.isTidy_reread {b : Bool} {n : Node} (h : Laid b n) : n.isTidy = true → n.reread.isTidy = true := by
  refine h.induct (P := fun _ n => n.isTidy = true → n.reread.isTidy = true) ?_ ?_ ?_ ?_ ?_
  · intro b l hl htidy
    exact LaidRow.isTidy_reread (.nil .top) htidy
  · exact fun b span as items _ hrow => hrow.isTidy_reread
  · exact fun b span as items _ hrow _ => hrow.isTidy_reread
  · exact fun b span as items _ hrow => hrow.isTidy_reread
  · exact fun b span as items _ hrow _ => hrow.isTidy_reread

namespace Node

theorem endsTidy_unplacedAll (owned : Bool) (ns : List Node) :
    endsTidy owned (unplacedAll ns) = endsTidy owned ns := by
  have hlabel : ∀ n : Node, n.unplaced.isNewlines = n.isNewlines ∧ n.unplaced.isCommentLine = n.isCommentLine ∧
      n.unplaced.label.count = n.label.count := by
    intro n
    simp only [isNewlines, isCommentLine, kind, label_unplaced, and_self]
  induction ns generalizing owned with
  | nil => rfl
  | cons n ns ih =>
    obtain ⟨hn, hc, hcount⟩ := hlabel n
    cases ns with
    | nil => simp only [unplacedAll, endsTidy, hn, hcount]
    | cons m ns => rw [unplacedAll, endsTidy_cons (by simp [unplacedAll]), ih, endsTidy, hc]

theorem isTidy_unplaced (n : Node) : n.unplaced.isTidy = n.isTidy := by
  induction n using Node.induct with
  | h n ih =>
    obtain ⟨label, items⟩ := n
    have hitems : areTidy (unplacedAll items) = areTidy items := by
      rw [unplacedAll_eq_map, Bool.eq_iff_iff, areTidy_eq_true, areTidy_eq_true]
      simp only [List.mem_map, forall_exists_index, and_imp, forall_apply_eq_imp_iff₂]
      exact forall₂_congr fun m hm => by rw [ih m hm]
    have hhead : (unplacedAll items).head?.all (fun n => !n.isNewlines) = items.head?.all fun n => !n.isNewlines := by
      cases items with
      | nil => rfl
      | cons m ms => simp only [unplacedAll, List.head?_cons, Option.all_some, isNewlines, kind, label_unplaced]
    rw [unplaced, isTidy, isTidy, hitems, hasTidyEdges, hasTidyEdges, endsTidy_unplacedAll, hhead]

theorem areTidy_unplacedAll (ns : List Node) : areTidy (unplacedAll ns) = areTidy ns := by
  induction ns with
  | nil => rfl
  | cons n ns ih => rw [unplacedAll, areTidy, areTidy, ih, isTidy_unplaced]

end Node

end FusionKit
