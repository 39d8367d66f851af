import Mathlib.Data.List.Perm.Subperm
import FusionKit.Proofs.Nesting
import FusionKit.Proofs.Recorded
import FusionKit.Proofs.Visits

/-!
# Symbols and their places

Each symbol of a tree is read from a token, and no token is read twice. So in a parsed file every
symbol covers its own text in the source, and no two of them have one place. The symbols among the
forms of a file are symbols of its tree, and none of them is there more often.
-/
set_option autoImplicit false

namespace FusionKit

namespace Node

mutual

/-- The places and texts of the symbols of a tree, each before those below it. -/
def symbols : Node → List (Span × Text)
  | ⟨label, items⟩ => (if label.kind = .symbol then [(label.span, label.value)] else []) ++ symbolsOf items

/-- The places and texts of the symbols of some trees. -/
def symbolsOf : List Node → List (Span × Text)
  | [] => []
  | n :: ns => n.symbols ++ symbolsOf ns

end

variable {n : Node} {ns ms : List Node} {t : Token} {s : Span × Text}

theorem symbols_eq (n : Node) :
    n.symbols = (if n.kind = .symbol then [(n.span, n.value)] else []) ++ symbolsOf n.items := by
  cases n
  rw [symbols]

theorem symbolsOf_eq_flatMap (ns : List Node) : symbolsOf ns = ns.flatMap symbols := by
  induction ns with
  | nil => rfl
  | cons n ns ih => rw [symbolsOf, ih, List.flatMap_cons]

theorem symbolsOf_append (ns ms : List Node) : symbolsOf (ns ++ ms) = symbolsOf ns ++ symbolsOf ms := by
  simp only [symbolsOf_eq_flatMap, List.flatMap_append]

theorem symbolsOf_perm (h : ns.Perm ms) : (symbolsOf ns).Perm (symbolsOf ms) := by
  rw [symbolsOf_eq_flatMap, symbolsOf_eq_flatMap]
  exact h.flatMap_right _

theorem symbolsOf_eq_nil (h : ∀ n ∈ ns, n.symbols = []) : symbolsOf ns = [] := by
  rw [symbolsOf_eq_flatMap]
  exact List.flatMap_eq_nil_iff.mpr h

mutual

theorem below_of_mem_symbols : ∀ (n : Node), ∀ s ∈ n.symbols,
    ∃ m, n.Below m ∧ m.kind = .symbol ∧ m.span = s.1 ∧ m.value = s.2
  | ⟨label, items⟩ => fun s hs => by
    rw [symbols] at hs
    rcases List.mem_append.mp hs with hs | hs
    · split at hs
      · rename_i hkind
        obtain rfl := List.mem_singleton.mp hs
        exact ⟨_, .refl _, hkind, rfl, rfl⟩
      · contradiction
    · obtain ⟨item, hitem, m, hm, hsymbol⟩ := below_of_mem_symbolsOf items s hs
      exact ⟨m, .item hitem hm, hsymbol⟩

theorem below_of_mem_symbolsOf : ∀ (ns : List Node), ∀ s ∈ symbolsOf ns,
    ∃ n ∈ ns, ∃ m, n.Below m ∧ m.kind = .symbol ∧ m.span = s.1 ∧ m.value = s.2
  | [] => fun _ hs => absurd hs List.not_mem_nil
  | n :: ns => fun s hs => by
    rcases List.mem_append.mp hs with hs | hs
    · exact ⟨n, List.mem_cons_self, below_of_mem_symbols n s hs⟩
    · obtain ⟨other, hother, hbelow⟩ := below_of_mem_symbolsOf ns s hs
      exact ⟨other, List.mem_cons_of_mem _ hother, hbelow⟩

end

/-! ## Nodes of tokens -/

theorem symbols_annotated (annotations : List Text) (n : Node) : (n.annotated annotations).symbols = n.symbols := by
  unfold annotated
  split
  · rfl
  · rw [symbols_eq, symbols_eq]

theorem IsTrivia.symbols (h : n.IsTrivia) : n.symbols = [] := by
  have hkind : n.kind ≠ .symbol := by
    intro hsymbol
    have hk := h.kind
    rw [hsymbol] at hk
    exact absurd hk (by decide)
  rw [symbols_eq, if_neg hkind, h.items]
  rfl

/-- A token is read as one symbol at most, which stands in its place and has its text. -/
theorem symbols_scalar (h : scalar? t = some n) : n.symbols.Subperm [(t.span, t.text)] := by
  unfold scalar? at h
  split at h
  case h_6 | h_7 | h_8 =>
    cases h
    exact .refl _
  case h_12 => contradiction
  all_goals
    cases h
    exact List.nil_subperm

end Node

/-! ## Open forms -/

namespace Frame

variable {f g : Frame} {n : Node} {ns : List Node} {t : Token}

/-- The symbols of an open form. -/
def symbols (f : Frame) : List (Span × Text) := Node.symbolsOf f.held

theorem symbols_keep (hns : ∀ m ∈ ns, m.IsTrivia) (f : Frame) : (f.keep ns).symbols.Perm f.symbols := by
  have hnil : Node.symbolsOf ns.reverse = [] :=
    Node.symbolsOf_eq_nil fun m hm => (hns m (List.mem_reverse.mp hm)).symbols
  cases f with
  | sexpr | list | clob => simp [symbols, held, member?, items, keep, Node.symbolsOf_append, hnil]
  | struct o a items phase =>
    cases phase <;> simp [symbols, held, member?, Frame.items, keep, Node.symbolsOf_append, hnil]

theorem symbols_push (n : Node) (f : Frame) : (f.push n).symbols.Perm (n.symbols ++ f.symbols) := by
  cases f with
  | sexpr | list | clob => exact .refl _
  | struct o a items phase =>
    cases phase with
    | between => exact .refl _
    | afterKey key reversed =>
      show (Node.symbolsOf (reversed ++ n :: items)).Perm (Node.symbolsOf (n :: (reversed ++ items)))
      exact Node.symbolsOf_perm List.perm_middle
    | afterColon key reversed =>
      have hmember : (Node.ofMember key n reversed).symbols.Perm (n.symbols ++ Node.symbolsOf reversed) := by
        show (Node.symbolsOf (n :: reversed).reverse).Perm (Node.symbolsOf (n :: reversed))
        exact Node.symbolsOf_perm (List.reverse_perm _)
      show ((Node.ofMember key n reversed).symbols ++ Node.symbolsOf items).Perm
        (n.symbols ++ Node.symbolsOf (reversed ++ items))
      rw [Node.symbolsOf_append, ← List.append_assoc]
      exact hmember.append_right _

theorem symbols_comma (hg : f.afterComma? = some g) : g.symbols = f.symbols := by
  unfold afterComma? at hg
  split at hg
  · cases hg
    rfl
  · cases hg
    rfl
  · contradiction

/-- A form that is closed has its symbols. -/
theorem symbols_form (f : Frame) (closing : Token) :
    (Node.ofForm f.kind f.annotations f.opening closing f.items).symbols.Subperm f.symbols := by
  have hkind : f.kind ≠ .symbol := by cases f <;> simp [kind]
  rw [Node.ofForm, Node.symbols_annotated, Node.symbols, if_neg hkind, List.nil_append, symbols, held,
    Node.symbolsOf_append]
  exact (Node.symbolsOf_perm (List.reverse_perm _)).subperm.trans (List.sublist_append_right _ _).subperm

theorem symbols_opened {as : List Text} (h : opened? t as = some f) : f.symbols = [] := by
  unfold opened? at h
  split at h
  case h_5 => contradiction
  all_goals
    cases h
    rfl

end Frame

/-! ## The reading -/

namespace Reading

variable {r r' : Reading} {t : Token} {n : Node} {ns : List Node} {fs : List Frame}

/-- The symbols that are read. -/
def symbols (r : Reading) : List (Span × Text) := Node.symbolsOf r.done ++ r.frames.flatMap Frame.symbols

theorem symbols_deliver (n : Node) (r : Reading) : (r.deliver n).symbols.Perm (n.symbols ++ r.symbols) := by
  unfold deliver
  cases hfs : r.frames with
  | nil =>
    simp only [symbols, hfs, Node.symbolsOf, List.flatMap_nil, List.append_nil]
    exact .refl _
  | cons f fs =>
    simp only [symbols, hfs, List.flatMap_cons]
    rw [← List.append_assoc, ← List.append_assoc, ← List.append_assoc]
    refine List.Perm.append_right _ ?_
    refine ((f.symbols_push n).append_left _).trans ?_
    rw [← List.append_assoc]
    exact List.perm_append_comm.append_right _

theorem symbols_keep (hns : ∀ m ∈ ns, m.IsTrivia) (r : Reading) : (r.keep ns).symbols.Perm r.symbols := by
  unfold keep
  cases hfs : r.frames with
  | nil =>
    have hnil : Node.symbolsOf ns.reverse = [] :=
      Node.symbolsOf_eq_nil fun m hm => (hns m (List.mem_reverse.mp hm)).symbols
    simp only [symbols, hfs, Node.symbolsOf_append, hnil, List.nil_append]
    exact .refl _
  | cons f fs =>
    simp only [symbols, hfs, List.flatMap_cons]
    exact ((f.symbols_keep hns).append_right _).append_left _

/-- The innermost form may change as long as its symbols stay. -/
theorem symbols_reframe {f g : Frame} (hr : r.frames = f :: fs) (hg : g.symbols = f.symbols) :
    ({ r with frames := g :: fs } : Reading).symbols = r.symbols := by
  simp only [symbols, hr, List.flatMap_cons, hg]

/-- A token adds one symbol at most, itself. -/
theorem Step.symbols (h : r.Step t r') : r'.symbols.Subperm ((t.span, t.text) :: r.symbols) := by
  have hsame {r'' : Reading} (h : r''.symbols = r.symbols) : r''.symbols.Subperm ((t.span, t.text) :: r.symbols) :=
    h ▸ (List.sublist_cons_self _ _).subperm
  have hdeliver {n : Node} (hn : n.symbols.Subperm [(t.span, t.text)]) :
      (r.deliver n).symbols.Subperm ((t.span, t.text) :: r.symbols) :=
    (symbols_deliver n r).subperm.trans (hn.append (.refl _))
  cases h with
  | annotate | blank => exact hsame rfl
  | scalar hplace hn => exact hdeliver (by rw [Node.symbols_annotated]; exact Node.symbols_scalar hn)
  | @opening f hplace hf =>
    refine hsame ?_
    simp only [enter, Reading.symbols, List.flatMap_cons, Frame.symbols_opened hf, List.nil_append]
  | trivia hp hc hn =>
    have hns := Token.isTrivia_of_trivia? hn
    exact (symbols_keep hns r).subperm.trans (List.sublist_cons_self _ _).subperm
  | clobString hp hfs htype hn => exact hdeliver (Node.symbols_scalar hn)
  | @closing f fs hp hfs hclosing =>
    have hrest : r.symbols.Perm (f.symbols ++ ({ r with frames := fs } : Reading).symbols) := by
      simp only [Reading.symbols, hfs, List.flatMap_cons]
      rw [← List.append_assoc, ← List.append_assoc]
      exact List.perm_append_comm.append_right _
    have hform : (r.close fs (.ofForm f.kind f.annotations f.opening t f.items)).symbols.Subperm r.symbols :=
      (symbols_deliver _ _).subperm.trans (((f.symbols_form t).append (.refl _)).trans hrest.symm.subperm)
    exact hform.trans (List.sublist_cons_self _ _).subperm
  | comma hp hfs hg htype => exact hsame (symbols_reframe hfs (Frame.symbols_comma hg))
  | key hp hfs htype => exact hsame (symbols_reframe hfs rfl)
  | colon hp hfs htype => exact hsame (symbols_reframe hfs rfl)

theorem Steps.symbols {ts : List Token} (h : r.Steps ts r') :
    r'.symbols.Subperm (ts.map (fun t => (t.span, t.text)) ++ r.symbols) := by
  induction h with
  | nil => exact .refl _
  | cons h _ ih => exact ih.trans (((List.subperm_append_left _).mpr h.symbols).trans List.perm_middle.subperm)

end Reading

/-- Tokens that lie one after the other start one after the other. -/
theorem Tiles.starts {source : Text} {i j : Int} {ts : List Token} (h : Tiles source i ts j) :
    (∀ t ∈ ts, i ≤ t.span.start) ∧ ts.Pairwise fun t u => t.span.start < u.span.start := by
  induction h with
  | nil => exact ⟨by simp, .nil⟩
  | @cons t ts j hne hcovers hrest ih =>
    have hone : Tiles source t.span.start [t] t.span.stop := .cons hne hcovers (.nil _)
    have hlt : t.span.start + 1 ≤ t.span.stop := by simpa using hone.length_le
    refine ⟨List.forall_mem_cons.mpr ⟨Int.le_refl _, fun u hu => ?_⟩, .cons (fun u hu => ?_) ih.2⟩
    · have := ih.1 u hu
      omega
    · have := ih.1 u hu
      omega

/-- In a parsed file each symbol stands in the source as its place says, and each has a place of its
own. -/
theorem SourceFile.Parsed.symbols {f : SourceFile} (h : f.Parsed) :
    ((Node.symbolsOf f.nodes).map Prod.fst).Nodup ∧
      ∀ s ∈ Node.symbolsOf f.nodes, s.1.text? f.source = some s.2 := by
  obtain ⟨ts, r, -, htiles, hts, hsteps, hidle, hnodes⟩ := steps_of_parse h
  have hframes : r.frames = [] := by
    have hboth : r.frames = [] ∧ r.pending = none := by simpa [Reading.isIdle] using hidle
    exact hboth.1
  have htokens : (Node.symbolsOf f.nodes).Subperm (ts.map fun t => (t.span, t.text)) := by
    have hread := hsteps.symbols
    simp only [Reading.symbols, hframes, List.flatMap_nil, List.append_nil, Node.symbolsOf] at hread
    rw [hnodes]
    exact (Node.symbolsOf_perm (List.reverse_perm _)).subperm.trans hread
  have hplaces : (ts.map fun t => t.span).Nodup := by
    refine List.Pairwise.map _ (fun t u hlt heq => ?_) htiles.starts.2
    rw [heq] at hlt
    exact absurd hlt (Int.lt_irrefl _)
  constructor
  · obtain ⟨read, hperm, hsublist⟩ := htokens
    refine (hperm.map Prod.fst).nodup (List.Nodup.sublist (hsublist.map Prod.fst) ?_)
    rw [List.map_map]
    exact hplaces
  · intro s hs
    obtain ⟨t, ht, rfl⟩ := List.mem_map.mp (htokens.subset hs)
    exact (hts t ht).covers

/-! ## Symbols among forms -/

namespace Form

mutual

/-- The symbols among the forms of a node are symbols of it. -/
theorem uses_ofNode : ∀ n : Node, ((subformsOf (ofNode n)).filterMap use?).Sublist n.symbols
  | ⟨label, items⟩ => by
    have hitems := uses_ofNodes items
    have hbelow : ((subformsOf (ofNodes items) ++ []).filterMap use?).Sublist
        ((if label.kind = Kind.symbol then [(label.span, label.value)] else []) ++ Node.symbolsOf items) := by
      rw [List.append_nil]
      exact hitems.trans (List.sublist_append_right _ _)
    rw [Node.symbols]
    unfold ofNode
    split
    · exact hitems.trans (List.sublist_append_right _ _)
    · exact List.nil_sublist _
    · exact List.nil_sublist _
    · exact List.nil_sublist _
    · rename_i hkind
      rw [if_pos hkind]
      exact List.sublist_append_left [_] _
    · exact List.nil_sublist _
    · exact hbelow
    · exact hbelow
    · exact hbelow
    · exact List.nil_sublist _

theorem uses_ofNodes : ∀ ns : List Node, ((subformsOf (ofNodes ns)).filterMap use?).Sublist (Node.symbolsOf ns)
  | [] => .slnil
  | n :: ns => by
    rw [ofNodes, subformsOf_append, List.filterMap_append, Node.symbolsOf]
    exact (uses_ofNode n).append (uses_ofNodes ns)

end

end Form

/-- The symbols that a walk over a file comes to are symbols of its tree. -/
theorem SourceFile.uses_sublist (f : SourceFile) : (f.visits.filterMap Form.use?).Sublist (Node.symbolsOf f.nodes) :=
  (f.visits_sublist.filterMap _).trans (Form.uses_ofNodes f.nodes)

end FusionKit
