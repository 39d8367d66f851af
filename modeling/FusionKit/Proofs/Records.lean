import FusionKit.Proofs.Naming

/-!
# What modules record of their files

A module holds what the directives of its file left behind: every name that a directive provides is
among the names of the module, and every span that it gives for a name was told by a directive, or was
passed on from a module that is imported as a whole.

The root is put while modules wait for it, and may be replaced when its own file was read. Nothing is
passed on from it before, since it provides nothing; so what a module passes on stays where it is.
-/
set_option autoImplicit false

namespace FusionKit

open LoadM

/-! ## Names of tables -/

namespace Table

variable {β : Type} {t : Table β} {name key : Text} {value : β}

/-- Whether a table has a name. -/
def Has (t : Table β) (name : Text) : Prop := ∃ value, (name, value) ∈ t

theorem has_put : (t.put name value).Has key ↔ key = name ∨ t.Has key := by
  constructor
  · rintro ⟨v, hv⟩
    rcases mem_put hv with heq | ⟨hv, -⟩
    · exact .inl (Prod.mk.inj heq).1
    · exact .inr ⟨v, hv⟩
  · rintro (rfl | ⟨v, hv⟩)
    · exact ⟨value, List.mem_cons_self⟩
    · by_cases heq : key = name
      · exact ⟨value, heq ▸ List.mem_cons_self⟩
      · exact ⟨v, List.mem_cons_of_mem _ (List.mem_filter.mpr ⟨hv, bne_iff_ne.mpr heq⟩)⟩

theorem mem_names : name ∈ t.names ↔ t.Has name := by
  simp only [names, sorted, List.mem_map, List.mem_mergeSort, Has]
  constructor
  · rintro ⟨⟨_, v⟩, hv, rfl⟩
    exact ⟨v, hv⟩
  · rintro ⟨v, hv⟩
    exact ⟨(name, v), hv, rfl⟩

theorem get?_ne_none (h : t.Has name) : t.get? name ≠ none := by
  obtain ⟨value, hv⟩ := h
  unfold get?
  intro hnone
  rw [List.lookup_eq_none_iff] at hnone
  exact absurd (hnone _ hv) (by simp)

/-- One table put into another has the names of both, and no entries but theirs. -/
theorem has_foldl_put {u : Table β} :
    (u.foldl (fun t (name, value) => t.put name value) t).Has key ↔ t.Has key ∨ u.Has key := by
  induction u generalizing t with
  | nil => simp [Has]
  | cons entry u ih =>
    obtain ⟨name, value⟩ := entry
    have hcons : Has ((name, value) :: u) key ↔ key = name ∨ Has u key := by
      simp only [Has, List.mem_cons, Prod.mk.injEq, exists_or]
      refine or_congr_left ⟨fun ⟨_, h, _⟩ => h, fun h => ⟨value, h, rfl⟩⟩
    rw [List.foldl_cons, ih, has_put, hcons, or_assoc, or_left_comm]

theorem mem_foldl_put {u : Table β} {entry : Text × β}
    (h : entry ∈ u.foldl (fun t (name, value) => t.put name value) t) : entry ∈ t ∨ entry ∈ u := by
  induction u generalizing t with
  | nil => exact .inl h
  | cons first u ih =>
    rcases ih h with h | h
    · rcases mem_put h with rfl | ⟨h, -⟩
      · exact .inr List.mem_cons_self
      · exact .inl h
    · exact .inr (List.mem_cons_of_mem _ h)

end Table

namespace Summary

variable {sum : Summary} {name : Text}

theorem has_exports (h : sum.provides.Has name ∨ sum.allDefined = true ∧ sum.defined.Has name) :
    sum.exports.Has name := by
  unfold exports
  split
  · exact Table.has_foldl_put.mpr (h.imp_right And.right)
  · rename_i hall
    exact h.resolve_right fun h => hall h.1

theorem mem_exports {entry : Text × Span} (h : entry ∈ sum.exports) :
    entry ∈ sum.provides ∨ entry ∈ sum.defined := by
  unfold exports at h
  split at h
  · exact Table.mem_foldl_put h
  · exact .inl h

end Summary

/-! ## What directives leave behind -/

/-- The spans that an import gives to names. -/
def Imports.spans : Imports → List Span
  | all => []
  | names origins => origins.map (·.span)
  | mapped origins => origins.map (·.2.span)

/-- The names that an import introduces itself. -/
def Imports.given : Imports → List Text
  | all => []
  | names origins => origins.map (·.name)
  | mapped origins => origins.map (·.2.name)

/-- The spans that a directive gives to names. -/
def Directive.spans : Directive → List Span
  | define origin => [origin.span]
  | provide origin => [origin.span]
  | require _ (.ok imports) => imports.spans
  | _ => []

/-- What a directive leaves in the summary of its file. -/
def Directive.LeftIn (sum : Summary) : Directive → Prop
  | define origin => sum.defined.Has origin.name
  | provide origin => sum.provides.Has origin.name
  | provideDefined => sum.allDefined = true
  | provideAs _ _ outer => sum.provides.Has outer
  | misuse _ => False
  | _ => True

/-- Directives pass a span on for a name: they rename what a module provides that is imported as a
whole, and neither define it before nor import it before by its name. -/
inductive PassesOn (idx : Index) : List Directive → List Requirement → Text → Span → Prop where
  | intro {before after : List Directive} {place span : Span} {inner name : Text}
    {earlier later : List Requirement} {q : Requirement} {m : Module}
    (hfree : ∀ origin, .define origin ∈ before → origin.name ≠ inner)
    (hearlier : ∀ p ∈ earlier, inner ∉ p.imports.given) (hall : q.imports = .all)
    (hm : idx.modules[q.target]? = some m) (hspan : m.provides.get? inner = some span) :
    PassesOn idx (before ++ .provideAs place inner name :: after) (earlier ++ q :: later) name span

/-- What provides something in an index is at its place in another one too. -/
def Index.Retains (idx idx' : Index) : Prop :=
  ∀ (id : Nat) (m : Module), idx.modules[id]? = some m → m.provides ≠ [] → idx'.modules[id]? = some m

/-- What some directives made of a summary. -/
structure Summary.Records (sum : Summary) (idx : Index) (ds : List Directive) : Prop where
  left : ∀ d ∈ ds, d.LeftIn sum
  defined : ∀ entry ∈ sum.defined, entry.2 ∈ ds.flatMap Directive.spans
  imported : ∀ q ∈ sum.requires, ∀ span ∈ q.imports.spans, span ∈ ds.flatMap Directive.spans
  provided : ∀ entry ∈ sum.provides,
    entry.2 ∈ ds.flatMap Directive.spans ∨ PassesOn idx ds sum.requires entry.1 entry.2

section

variable {idx idx' : Index} {ds : List Directive} {d : Directive} {sum sum' : Summary} {name inner outer : Text}
  {span place : Span} {requires requires' : List Requirement}

theorem Index.Grows.retains {r : Repository} {t : FileTree} (h : idx.Grows r t idx') : idx.Retains idx' :=
  fun id m hm _ => h.modules id m hm

theorem Index.Retains.refl (idx : Index) : idx.Retains idx := fun _ _ hm _ => hm

/-- What is passed on stays where it is, and more directives and imports do not matter. -/
theorem PassesOn.mono (h : PassesOn idx ds requires name span) (hidx : idx.Retains idx') (more : List Directive)
    (hrequires : requires <+: requires') : PassesOn idx' (ds ++ more) requires' name span := by
  obtain ⟨hfree, hearlier, hall, hm, hspan⟩ := h
  obtain ⟨rest, rfl⟩ := hrequires
  rw [List.append_assoc, List.cons_append, List.append_assoc, List.cons_append]
  refine .intro hfree hearlier hall (hidx _ _ hm ?_) hspan
  intro hnone
  rw [hnone] at hspan
  cases hspan

/-- What is passed on comes from a module that is imported as a whole. -/
theorem PassesOn.exists_provider (h : PassesOn idx ds requires name span) :
    ∃ q ∈ requires, q.imports = .all ∧
      ∃ m, idx.modules[q.target]? = some m ∧ ∃ inner, m.provides.get? inner = some span := by
  obtain ⟨-, -, hall, hm, hspan⟩ := h
  exact ⟨_, List.mem_append_right _ List.mem_cons_self, hall, _, hm, _, hspan⟩

/-- An import gives no name of its own that it does not find. -/
theorem Index.not_given_of_originOf? {q : Requirement} (h : idx.originOf? q name = none) :
    name ∉ q.imports.given := by
  unfold originOf? at h
  intro hname
  split at h
  · rename_i hall
    rw [hall] at hname
    cases hname
  · rename_i origins horigins
    rw [horigins] at hname
    obtain ⟨origin, horigin, rfl⟩ := List.mem_map.mp hname
    rw [Option.map_eq_none_iff, List.find?_eq_none] at h
    exact absurd (beq_self_eq_true origin.name) (h origin horigin)
  · rename_i origins horigins
    rw [horigins] at hname
    obtain ⟨entry, hentry, rfl⟩ := List.mem_map.mp hname
    rw [Option.map_eq_none_iff, List.find?_eq_none] at h
    exact absurd (beq_self_eq_true entry.2.name) (h entry (List.mem_mergeSort.mpr hentry))

/-- Where a name comes from by an import: the import gave its span, or the module that it imports as a
whole provides it. -/
theorem Index.origin_of_originOf? {q : Requirement} (h : idx.originOf? q name = some span) :
    span ∈ q.imports.spans ∨
      q.imports = .all ∧ ∃ m, idx.modules[q.target]? = some m ∧ m.provides.get? name = some span := by
  unfold originOf? at h
  split at h
  · rename_i hall
    exact .inr ⟨hall, Option.bind_eq_some_iff.mp h⟩
  · rename_i origins horigins
    obtain ⟨origin, hfound, rfl⟩ := Option.map_eq_some_iff.mp h
    rw [horigins]
    exact .inl (List.mem_map_of_mem (List.mem_of_find?_eq_some hfound))
  · rename_i origins horigins
    obtain ⟨entry, hfound, rfl⟩ := Option.map_eq_some_iff.mp h
    rw [horigins]
    exact .inl (List.mem_map.mpr ⟨entry, List.mem_mergeSort.mp (List.mem_of_find?_eq_some hfound), rfl⟩)

namespace Summary.Records

theorem empty (idx : Index) : Summary.Records {} idx [] := by
  constructor <;> simp

theorem mono (h : sum.Records idx ds) (hidx : idx.Retains idx') : sum.Records idx' ds := by
  refine ⟨h.left, h.defined, h.imported, fun entry hentry => ?_⟩
  refine (h.provided entry hentry).imp_right fun hpass => ?_
  have hsame := hpass.mono hidx [] (List.prefix_refl _)
  rwa [List.append_nil] at hsame

/-- Where a name comes from that is renamed: a directive told its span, or it is passed on. -/
theorem origin (h : sum.Records idx ds) (horigin : sum.origin? idx inner = some span) (place : Span) (outer : Text) :
    span ∈ ds.flatMap Directive.spans ∨
      PassesOn idx (ds ++ [.provideAs place inner outer]) sum.requires outer span := by
  unfold origin? at horigin
  cases hdefined : sum.defined.get? inner with
  | some own =>
    rw [hdefined] at horigin
    cases horigin
    exact .inl (h.defined _ (Table.mem_of_get? hdefined))
  | none =>
    rw [hdefined] at horigin
    have hrequired : sum.requires.findSome? (fun q => idx.originOf? q inner) = some span := horigin
    obtain ⟨earlier, q, later, hsplit, hfound, hbefore⟩ := List.findSome?_eq_some_iff.mp hrequired
    rcases Index.origin_of_originOf? hfound with hspan | ⟨hall, m, hm, hspan⟩
    · exact .inl (h.imported q (by simp [hsplit]) span hspan)
    · rw [hsplit]
      refine .inr (.intro (fun origin hd hname => ?_) (fun p hp => ?_) hall hm hspan)
      · have hhas : sum.defined.Has origin.name := h.left _ hd
        exact Table.get?_ne_none hhas (hname ▸ hdefined)
      · exact Index.not_given_of_originOf? (hbefore p hp)

/-- One more directive is recorded if it is left behind, with all that was left before, and each new
span is told by it or passed on. -/
theorem snoc (h : sum.Records idx ds) (hd : d.LeftIn sum')
    (hleft : ∀ d : Directive, d.LeftIn sum → d.LeftIn sum') (hrequires : sum.requires <+: sum'.requires)
    (hdefined : ∀ entry ∈ sum'.defined, entry ∈ sum.defined ∨ entry.2 ∈ d.spans)
    (himported : ∀ q ∈ sum'.requires, q ∈ sum.requires ∨ ∀ span ∈ q.imports.spans, span ∈ d.spans)
    (hprovided : ∀ entry ∈ sum'.provides, entry ∈ sum.provides ∨ entry.2 ∈ (ds ++ [d]).flatMap Directive.spans ∨
      PassesOn idx (ds ++ [d]) sum'.requires entry.1 entry.2) : sum'.Records idx (ds ++ [d]) := by
  have hspans : ∀ {span}, span ∈ ds.flatMap Directive.spans ∨ span ∈ d.spans →
      span ∈ (ds ++ [d]).flatMap Directive.spans := by
    intro span hspan
    rw [List.flatMap_append, List.flatMap_singleton]
    exact List.mem_append.mpr hspan
  constructor
  · intro d' hd'
    rcases List.mem_append.mp hd' with hd' | hd'
    · exact hleft d' (h.left d' hd')
    · rwa [List.mem_singleton.mp hd']
  · intro entry hentry
    exact hspans ((hdefined entry hentry).imp_left (h.defined entry))
  · intro q hq span hspan
    rcases himported q hq with hq | hq
    · exact hspans (.inl (h.imported q hq span hspan))
    · exact hspans (.inr (hq span hspan))
  · intro entry hentry
    rcases hprovided entry hentry with hentry | hentry
    · exact (h.provided entry hentry).imp (fun hspan => hspans (.inl hspan)) fun hpass =>
        hpass.mono (.refl idx) [d] hrequires
    · exact hentry

end Summary.Records

/-- What is left in a summary is there also when it has more. -/
theorem Directive.LeftIn.mono (h : d.LeftIn sum) (hdefined : ∀ name, sum.defined.Has name → sum'.defined.Has name)
    (hprovides : ∀ name, sum.provides.Has name → sum'.provides.Has name)
    (hall : sum.allDefined = true → sum'.allDefined = true) : d.LeftIn sum' := by
  cases d with
  | define origin => exact hdefined _ h
  | provide origin => exact hprovides _ h
  | provideDefined => exact hall h
  | provideAs span inner outer => exact hprovides _ h
  | language | require => trivial
  | misuse => exact h

end

namespace Repository

section

variable {r : Repository} {t : FileTree} {s : LoadState} {need : Text → LoadM Nat} {file : SourceFile}
  {loading : List Text} {ds : List Directive} {sum : Summary}

/-- A directive that is followed is recorded with those before it. -/
theorem follow_records (hneed : r.Serves t need loading) (hs : s.index.Sound) (hl : s.loading = loading)
    (h : sum.Records s.index ds) (d : Directive) :
    r.Loads t (d.follow need sum) s fun sum' idx => sum'.Records idx (ds ++ [d]) := by
  have hput : ∀ {t : Table Span} {added : Text} {span : Span}, ∀ name, t.Has name → (t.put added span).Has name :=
    fun name hname => Table.has_put.mpr (.inr hname)
  cases d with
  | define origin =>
    refine loads_pure hs (h.snoc (Table.has_put.mpr (.inl rfl)) (fun d hd => hd.mono hput (fun _ h => h) id)
      (List.prefix_refl _) (fun entry hentry => ?_) (fun q hq => .inl hq) fun entry hentry => .inl hentry)
    rcases Table.mem_put hentry with rfl | ⟨hentry, -⟩
    · exact .inr (List.mem_singleton_self _)
    · exact .inl hentry
  | provide origin =>
    refine loads_pure hs (h.snoc (Table.has_put.mpr (.inl rfl)) (fun d hd => hd.mono (fun _ h => h) hput id)
      (List.prefix_refl _) (fun entry hentry => .inl hentry) (fun q hq => .inl hq) fun entry hentry => ?_)
    rcases Table.mem_put hentry with rfl | ⟨hentry, -⟩
    · refine .inr (.inl ?_)
      rw [List.flatMap_append]
      exact List.mem_append_right _ (by simp [Directive.spans])
    · exact .inl hentry
  | provideDefined =>
    exact loads_pure hs (h.snoc rfl (fun d hd => hd.mono (fun _ h => h) (fun _ h => h) fun _ => rfl)
      (List.prefix_refl _) (fun entry hentry => .inl hentry) (fun q hq => .inl hq) fun entry hentry => .inl hentry)
  | misuse m => exact loads_throw hs _
  | provideAs place inner outer =>
    refine (loads_ask hs).bind fun idx s' _ hg hidx => ?_
    obtain ⟨hsame, rfl⟩ := hidx
    have hnow := h.mono hg.retains
    split
    · rename_i span horigin
      refine loads_pure hg.sound (hnow.snoc (Table.has_put.mpr (.inl rfl)) (fun d hd => hd.mono (fun _ h => h) hput id)
        (List.prefix_refl _) (fun entry hentry => .inl hentry) (fun q hq => .inl hq) fun entry hentry => ?_)
      rcases Table.mem_put hentry with rfl | ⟨hentry, -⟩
      · refine .inr ((hnow.origin (hsame ▸ horigin) place outer).imp_left fun hspan => ?_)
        rw [List.flatMap_append]
        exact List.mem_append_left _ hspan
      · exact .inl hentry
    · exact loads_throw hg.sound _
  | language name =>
    refine (hneed name s hl hs).bind fun id s' _ hg _ => ?_
    exact loads_pure hg.sound ((h.mono hg.retains).snoc trivial (fun d hd => hd.mono (fun _ h => h) (fun _ h => h) fun h => h)
      (List.prefix_refl _) (fun entry hentry => .inl hentry) (fun q hq => .inl hq) fun entry hentry => .inl hentry)
  | require name imports =>
    refine (hneed name s hl hs).bind fun id s' _ hg _ => ?_
    cases imports with
    | error m => exact loads_throw hg.sound _
    | ok imports =>
      refine loads_pure hg.sound ((h.mono hg.retains).snoc trivial (fun d hd => hd.mono (fun _ h => h) (fun _ h => h) fun h => h)
        (List.prefix_append _ _) (fun entry hentry => .inl hentry) (fun q hq => ?_) fun entry hentry => .inl hentry)
      rcases List.mem_append.mp hq with hq | hq
      · exact .inl hq
      · rw [List.mem_singleton.mp hq]
        exact .inr fun span hspan => hspan

theorem foldlM_follow_records (hneed : r.Serves t need loading) (more : List Directive) {ds : List Directive}
    {s : LoadState} (hs : s.index.Sound) (hl : s.loading = loading) {sum : Summary} (h : sum.Records s.index ds) :
    r.Loads t (more.foldlM (Directive.follow need) sum) s fun sum' idx => sum'.Records idx (ds ++ more) := by
  induction more generalizing s sum ds with
  | nil =>
    rw [List.append_nil]
    exact loads_pure hs h
  | cons d more ih =>
    rw [List.foldlM_cons, List.append_cons]
    exact (follow_records hneed hs hl h d).bind fun sum' s' hl' hg hd => ih hg.sound (hl'.trans hl) hd

/-- What a file tells is recorded in its summary. -/
theorem summarize_records (hneed : r.Serves t need loading) (hs : s.index.Sound) (hl : s.loading = loading) :
    r.Loads t (file.summarize need) s fun sum idx => sum.Records idx file.directives :=
  (foldlM_follow_records hneed file.directives hs hl (.empty _)).adapt file.resolve

end

end Repository

end FusionKit
