import FusionKit.Proofs.Images
import FusionKit.Proofs.Leading
import FusionKit.Proofs.Packages
import FusionKit.Proofs.Recorded

/-!
# Where provided names come from

Each span that the directives of a file give to a name is that of a form, and so of a node of the
file. Hence the span for which a module provides a name is one of its own file, unless the module
renames what another one provides that it imports as a whole: it passes the span of that module on,
though spans do not tell which file they are of.
-/
set_option autoImplicit false

namespace FusionKit

/-! ## The spans of forms -/

namespace Form

mutual

/-- The spans of a form and of all forms in it. -/
def spans : Form → List Span
  | .symbol span _ => [span]
  | .string span _ => [span]
  | .sexpr span items => span :: spansOf items
  | .list span items => span :: spansOf items
  | .struct span items => span :: spansOf items
  | .other span => [span]

/-- The spans of some forms and of all forms in them. -/
def spansOf : List Form → List Span
  | [] => []
  | f :: fs => f.spans ++ spansOf fs

end

variable {f : Form} {fs gs : List Form} {ns : List Node}

theorem span_mem_spans (f : Form) : f.span ∈ f.spans := by
  cases f <;> exact List.mem_cons_self

theorem spans_subset_spansOf (h : f ∈ fs) : f.spans ⊆ spansOf fs := by
  induction fs with
  | nil => exact absurd h List.not_mem_nil
  | cons g fs ih =>
    rcases List.mem_cons.mp h with rfl | h
    · exact List.subset_append_left _ _
    · exact List.Subset.trans (ih h) (List.subset_append_right _ _)

theorem spansOf_append : spansOf (fs ++ gs) = spansOf fs ++ spansOf gs := by
  induction fs with
  | nil => rfl
  | cons f fs ih =>
    rw [List.cons_append, spansOf, ih, spansOf, List.append_assoc]

mutual

/-- The forms that a node contributes have their spans from it and from the nodes below it. -/
theorem spansOf_ofNode : ∀ n : Node, spansOf (ofNode n) ⊆ n.spans
  | ⟨label, items⟩ => by
    have hitems := spansOf_ofNodes items
    have hleaf : [label.span] ⊆ label.span :: Node.spansOf items := by simp
    have hgroup : label.span :: spansOf (ofNodes items) ⊆ label.span :: Node.spansOf items :=
      List.cons_subset_cons _ hitems
    unfold ofNode Node.spans
    split
    case h_1 => exact List.subset_cons_of_subset _ hitems
    case h_2 | h_3 | h_4 => exact List.nil_subset _
    case h_5 | h_6 | h_10 => exact hleaf
    case h_7 | h_8 | h_9 =>
      rw [spansOf, spansOf, List.append_nil]
      exact hgroup

theorem spansOf_ofNodes : ∀ ns : List Node, spansOf (ofNodes ns) ⊆ Node.spansOf ns
  | [] => List.Subset.refl _
  | n :: ns => by
    rw [ofNodes, spansOf_append]
    exact List.append_subset.mpr ⟨List.subset_append_of_subset_left _ (spansOf_ofNode n),
      List.subset_append_of_subset_right _ (spansOf_ofNodes ns)⟩

end

end Form

/-! ## The spans of directives -/

/-- The fault of a directive: that of its form, or that of a name that it renames in case there is nothing
that has it. -/
def Directive.misuse? : Directive → Option Misuse
  | misuse m => some m
  | require _ (.error m) => some m
  | provideAs span inner _ => some ⟨span, .renameOutUnknown inner⟩
  | _ => none

/-- The spans that a directive tells: those that it gives to names, and that of its fault. -/
def Directive.places (d : Directive) : List Span := d.spans ++ (d.misuse?.map (·.span)).toList

theorem Directive.spans_subset_places (d : Directive) : d.spans ⊆ d.places := List.subset_append_left _ _

theorem Directive.span_mem_places {d : Directive} {m : Misuse} (h : d.misuse? = some m) : m.span ∈ d.places :=
  List.mem_append_right _ (by rw [h]; exact List.mem_singleton_self m.span)

namespace Directive

variable {items rest : List Form} {origin : Origin} {imports : Imports} {m : Misuse}

theorem span_definedName? (h : definedName? rest = some origin) : origin.span ∈ Form.spansOf rest := by
  unfold definedName? at h
  split at h
  · cases h
    exact List.mem_cons_self
  · cases h
    exact List.mem_cons_of_mem _ List.mem_cons_self
  · cases h

theorem spans_onlyNames (h : (onlyNames items).map .names = .ok imports) : imports.spans ⊆ Form.spansOf items := by
  obtain ⟨origins, horigins, rfl⟩ := ok_of_map h
  intro span hspan
  obtain ⟨origin, horigin, rfl⟩ := List.mem_map.mp hspan
  obtain ⟨item, hitem, hmade⟩ := exists_of_mapM horigins origin horigin
  split at hmade
  · rw [← Except.ok.inj hmade]
    exact Form.spans_subset_spansOf hitem (Form.span_mem_spans item)
  · cases hmade

theorem fault_onlyNames (h : onlyNames items = .error m) : m.span ∈ Form.spansOf items := by
  obtain ⟨item, hitem, hfault⟩ := exists_error_of_mapM h
  split at hfault
  · cases hfault
  · rw [← Except.error.inj hfault]
    exact Form.spans_subset_spansOf hitem (Form.span_mem_spans item)

theorem span_renamed {f : Form} {inner : Text} (h : renamed f = .ok (inner, origin)) : origin.span = f.span := by
  unfold renamed at h
  split at h
  · obtain ⟨names, -, h⟩ := except_bind_ok.mp h
    split at h
    · obtain ⟨-, rfl⟩ := Prod.mk.inj (Except.ok.inj h)
      rfl
    · cases h
  · cases h

/-- What is wrong with a renaming is wrong with it as a whole, or with one of its items. -/
theorem fault_renamed {f : Form} (h : renamed f = .error m) : m.span ∈ f.spans := by
  unfold renamed at h
  split at h
  · rename_i span items
    rcases error_of_bind h with hitems | ⟨names, -, h⟩
    · obtain ⟨item, hitem, hfault⟩ := exists_error_of_mapM hitems
      split at hfault
      · cases hfault
      · rw [← Except.error.inj hfault]
        exact List.mem_cons_of_mem _ (Form.spans_subset_spansOf hitem (Form.span_mem_spans item))
    · split at h
      · cases h
      · rw [← Except.error.inj h]
        exact List.mem_cons_self
  · rw [← Except.error.inj h]
    exact Form.span_mem_spans _

theorem spans_renamedAll (h : (renamedAll items).map .mapped = .ok imports) :
    imports.spans ⊆ Form.spansOf items := by
  obtain ⟨table, htable, rfl⟩ := ok_of_map h
  obtain ⟨pairs, hpairs, htable⟩ := except_bind_ok.mp htable
  obtain rfl := Except.ok.inj htable
  intro span hspan
  obtain ⟨entry, hentry, rfl⟩ := List.mem_map.mp hspan
  have hmem := (Table.mem_foldl_put (t := []) hentry).resolve_left List.not_mem_nil
  obtain ⟨item, hitem, hmade⟩ := exists_of_mapM hpairs entry hmem
  rw [span_renamed hmade]
  exact Form.spans_subset_spansOf hitem (Form.span_mem_spans item)

theorem fault_renamedAll (h : renamedAll items = .error m) : m.span ∈ Form.spansOf items := by
  rcases error_of_bind h with hpairs | ⟨pairs, -, h⟩
  · obtain ⟨item, hitem, hfault⟩ := exists_error_of_mapM hpairs
    exact Form.spans_subset_spansOf hitem (fault_renamed hfault)
  · cases h

/-- An import has its spans from the forms after the name of its module. -/
theorem places_importing {head nameForm : Form} {name : Text} {made : Except Misuse Imports}
    (hmade : ∀ imports, made = .ok imports → imports.spans ⊆ Form.spansOf rest)
    (hfault : ∀ m, made = .error m → m.span ∈ Form.spansOf rest) :
    ∀ d ∈ [require name made], d.places ⊆ Form.spansOf (head :: nameForm :: rest) := by
  have hrest : Form.spansOf rest ⊆ Form.spansOf (head :: nameForm :: rest) :=
    List.subset_append_of_subset_right _ (List.subset_append_right _ _)
  intro d hd
  rw [List.mem_singleton.mp hd]
  cases made with
  | error m => exact List.cons_subset.mpr ⟨hrest (hfault m rfl), List.nil_subset _⟩
  | ok imports =>
    have hplaces : (require name (.ok imports)).places = imports.spans := List.append_nil _
    rw [hplaces]
    exact List.Subset.trans (hmade imports rfl) hrest

/-- A directive that consists of a fault is in place where the fault is. -/
theorem places_faulty {span : Span} {fault : DirectiveFault} {spans : List Span} (h : span ∈ spans) :
    ∀ d ∈ [faulty span fault], d.places ⊆ spans :=
  fun _ hd => List.mem_singleton.mp hd ▸ List.cons_subset.mpr ⟨h, List.nil_subset _⟩

theorem places_requireForm (span : Span) :
    ∀ d ∈ requireForm span items, d.places ⊆ span :: Form.spansOf items := by
  unfold requireForm
  split
  · dsimp only
    split
    · split
      · exact fun d hd => List.subset_cons_of_subset _
          (places_importing (fun _ => spans_onlyNames) (fun _ h => fault_onlyNames (error_of_map h)) d hd)
      · exact places_faulty List.mem_cons_self
    · split
      · split
        · exact fun d hd => List.subset_cons_of_subset _
            (places_importing (fun _ => spans_renamedAll) (fun _ h => fault_renamedAll (error_of_map h)) d hd)
        · exact places_faulty List.mem_cons_self
      · split <;> exact places_faulty (List.mem_cons_of_mem _ List.mem_cons_self)
  · exact fun d hd => absurd hd List.not_mem_nil

theorem places_requireArgument (f : Form) : ∀ d ∈ requireArgument f, d.places ⊆ f.spans := by
  cases f with
  | string span name => exact fun d hd => List.mem_singleton.mp hd ▸ List.nil_subset _
  | sexpr span items => exact places_requireForm span
  | symbol | list | struct | other => exact places_faulty (Form.span_mem_spans _)

theorem places_renameOut (span : Span) (fs : List Form) : (renameOut span fs).places = [span] := by
  unfold renameOut
  split
  · split
    · split <;> rfl
    · rfl
  · rfl

theorem places_provideArgument (f : Form) : ∀ d ∈ provideArgument f, d.places ⊆ f.spans := by
  intro d hd
  cases f with
  | symbol span written => exact List.mem_singleton.mp hd ▸ List.Subset.refl _
  | string | list | struct | other => exact absurd hd List.not_mem_nil
  | sexpr span items =>
    cases items with
    | nil => exact places_faulty List.mem_cons_self d hd
    | cons head rest =>
      rw [provideArgument] at hd
      split at hd
      · exact List.mem_singleton.mp hd ▸ List.nil_subset _
      · split at hd
        · rw [List.mem_singleton.mp hd, places_renameOut]
          refine List.cons_subset.mpr ⟨List.mem_cons_of_mem _ ?_, List.nil_subset _⟩
          exact List.mem_append_left _ (Form.span_mem_spans head)
        · exact places_faulty List.mem_cons_self d hd

/-- What the arguments of a form say has its spans from them. -/
theorem places_flatMap {say : Form → List Directive} (hsay : ∀ f, ∀ d ∈ say f, d.places ⊆ f.spans) (fs : List Form) :
    ∀ d ∈ fs.flatMap say, d.places ⊆ Form.spansOf fs := by
  intro d hd
  obtain ⟨f, hf, hd⟩ := List.mem_flatMap.mp hd
  exact List.Subset.trans (hsay f d hd) (Form.spans_subset_spansOf hf)

end Directive

namespace Form

open Directive

mutual

/-- The directives of a form have their spans from the form. -/
theorem places_directives (quoted : Bool) : ∀ (f : Form), ∀ d ∈ f.directives quoted, d.places ⊆ f.spans
  | .symbol _ _ => fun _ hd => absurd hd List.not_mem_nil
  | .string _ _ => fun _ hd => absurd hd List.not_mem_nil
  | .other _ => fun _ hd => absurd hd List.not_mem_nil
  | .list _ items => fun d hd => List.subset_cons_of_subset _ (places_directivesOf quoted items d hd)
  | .struct _ items => fun d hd => List.subset_cons_of_subset _ (places_directivesOf quoted items d hd)
  | .sexpr span items => places_sexprDirectives quoted span items

theorem places_directivesOf (quoted : Bool) : ∀ (fs : List Form), ∀ d ∈ directivesOf quoted fs, d.places ⊆ spansOf fs
  | [] => fun _ hd => absurd hd List.not_mem_nil
  | f :: fs => fun d hd => by
    rcases List.mem_append.mp hd with hd | hd
    · exact List.subset_append_of_subset_left _ (places_directives quoted f d hd)
    · exact List.subset_append_of_subset_right _ (places_directivesOf quoted fs d hd)

theorem places_sexprDirectives (quoted : Bool) (span : Span) :
    ∀ (fs : List Form), ∀ d ∈ sexprDirectives quoted span fs, d.places ⊆ span :: spansOf fs
  | [] => fun _ hd => absurd hd List.not_mem_nil
  | .symbol headSpan head :: rest => fun d hd => by
    have hrest : spansOf rest ⊆ span :: spansOf (.symbol headSpan head :: rest) :=
      List.subset_cons_of_subset _ (List.subset_append_right _ _)
    have hnames : ∀ say : Origin → Directive, (∀ origin, (say origin).places = [origin.span]) →
        d ∈ (definedName? rest).toList.map say → d.places ⊆ spansOf rest := by
      intro say hsay hd
      obtain ⟨origin, horigin, rfl⟩ := List.mem_map.mp hd
      rw [hsay]
      exact List.cons_subset.mpr ⟨span_definedName? (Option.mem_toList.mp horigin), List.nil_subset _⟩
    unfold sexprDirectives at hd
    split at hd
    · exact List.Subset.trans (places_directivesOf _ rest d hd) hrest
    · split at hd
      · exact List.Subset.trans (hnames _ (fun _ => rfl) hd) hrest
      · exact List.Subset.trans (hnames _ (fun _ => rfl) hd) hrest
      · refine List.Subset.trans (places_moduleDirectives span rest d hd) ?_
        exact List.cons_subset.mpr ⟨List.mem_cons_self, hrest⟩
      · exact List.Subset.trans (places_flatMap places_provideArgument rest d hd) hrest
      · exact List.Subset.trans (places_flatMap places_requireArgument rest d hd) hrest
      · exact absurd hd List.not_mem_nil
      · exact List.Subset.trans (places_directivesOf _ rest d hd) hrest
      · exact List.Subset.trans (places_directivesOf _ rest d hd) hrest
  | .string _ _ :: _ => fun _ hd => absurd hd List.not_mem_nil
  | .sexpr _ _ :: _ => fun _ hd => absurd hd List.not_mem_nil
  | .list _ _ :: _ => fun _ hd => absurd hd List.not_mem_nil
  | .struct _ _ :: _ => fun _ hd => absurd hd List.not_mem_nil
  | .other _ :: _ => fun _ hd => absurd hd List.not_mem_nil

theorem places_moduleDirectives (span : Span) :
    ∀ (fs : List Form), ∀ d ∈ moduleDirectives span fs, d.places ⊆ span :: spansOf fs
  | [] => places_faulty List.mem_cons_self
  | [_] => places_faulty List.mem_cons_self
  | _ :: first :: body => fun d hd => by
    unfold moduleDirectives at hd
    dsimp only at hd
    split at hd
    · exact places_faulty List.mem_cons_self d hd
    · rcases List.mem_cons.mp hd with rfl | hd
      · exact List.nil_subset _
      · have hbody := places_directivesOf false body d hd
        refine List.subset_cons_of_subset _ (List.subset_append_of_subset_right _ ?_)
        exact List.subset_append_of_subset_right _ hbody

end

end Form

/-! ## The spans of nodes -/

namespace Node

mutual

theorem below_of_mem_spans : ∀ (n : Node), ∀ span ∈ n.spans, ∃ m, n.Below m ∧ m.span = span
  | ⟨label, items⟩ => fun span hspan => by
    rcases List.mem_cons.mp hspan with rfl | hspan
    · exact ⟨_, .refl _, rfl⟩
    · obtain ⟨item, hitem, m, hm, hspan⟩ := below_of_mem_spansOf items span hspan
      exact ⟨m, .item hitem hm, hspan⟩

theorem below_of_mem_spansOf : ∀ (ns : List Node), ∀ span ∈ spansOf ns, ∃ n ∈ ns, ∃ m, n.Below m ∧ m.span = span
  | [] => fun _ hspan => absurd hspan List.not_mem_nil
  | n :: ns => fun span hspan => by
    rcases List.mem_append.mp hspan with hspan | hspan
    · exact ⟨n, List.mem_cons_self, below_of_mem_spans n span hspan⟩
    · obtain ⟨other, hother, hbelow⟩ := below_of_mem_spansOf ns span hspan
      exact ⟨other, List.mem_cons_of_mem _ hother, hbelow⟩

end

end Node

namespace SourceFile

variable {f : SourceFile} {span : Span}

/-- Whether a span is that of a node of a file, and lies in its source. -/
def HasSpan (f : SourceFile) (span : Span) : Prop := span.LiesIn f.source ∧ span ∈ Node.spansOf f.nodes

theorem Parsed.image (h : f.Parsed) : ∀ n ∈ f.nodes, n.Image f.source := by
  obtain ⟨ts, r, -, htiles, hts, hsteps, hidle, hnodes⟩ := steps_of_parse h
  have hspans : r.Spans f.source f.source.length := hsteps.spans .start (.nil (Int.le_refl 0)) htiles hts
  have hidle : r.frames = [] ∧ r.pending = none := by simpa [Reading.isIdle] using hidle
  unfold Reading.Spans at hspans
  rw [hidle.1] at hspans
  have hrow : Node.Stretch f.source 0 r.done.reverse f.source.length := hspans
  rw [hnodes]
  exact hrow.image

theorem Parsed.hasSpan (h : f.Parsed) (hspan : span ∈ Node.spansOf f.nodes) : f.HasSpan span := by
  obtain ⟨n, hn, m, hm, rfl⟩ := Node.below_of_mem_spansOf f.nodes span hspan
  exact ⟨(h.image n hn m hm).liesIn, hspan⟩

/-- The spans that a directive of a file tells are those of nodes of the file. -/
theorem mem_spansOf_of_places {d : Directive} (hd : d ∈ f.directives) (h : span ∈ d.places) :
    span ∈ Node.spansOf f.nodes :=
  Form.spansOf_ofNodes f.nodes (Form.places_directivesOf false f.forms d hd h)

theorem mem_spansOf_of_directives (h : span ∈ f.directives.flatMap Directive.spans) : span ∈ Node.spansOf f.nodes := by
  obtain ⟨d, hd, hspan⟩ := List.mem_flatMap.mp h
  exact mem_spansOf_of_places hd (d.spans_subset_places hspan)

end SourceFile

/-- What a recorded module provides has a span of its own file, or one that it passes on. -/
theorem ModuleBody.Recorded.provided {idx : Index} {m : ModuleBody} (h : m.Recorded idx) {entry : Text × Span}
    (hentry : entry ∈ m.provides) :
    m.file.HasSpan entry.2 ∨ PassesOn idx m.file.directives m.requires entry.1 entry.2 := by
  obtain ⟨hparsed, sum, hrequires, hprovides, hsum⟩ := h
  have hown {span : Span} (hspan : span ∈ m.file.directives.flatMap Directive.spans) : m.file.HasSpan span :=
    hparsed.hasSpan (SourceFile.mem_spansOf_of_directives hspan)
  rw [hprovides] at hentry
  rw [hrequires]
  rcases Summary.mem_exports hentry with hentry | hentry
  · exact (hsum.provided entry hentry).imp_left hown
  · exact .inl (hown (hsum.defined entry hentry))

/-- When a package was loaded, the span for which a module provides a name is that of a node of its own
file and lies in the source of that file, unless the module passes it on: it renames what a module
provides that it imports as a whole, and neither defines it before nor imports it earlier by its
name. -/
theorem Settings.span_provided_of_loadPackage {settings : Settings} {t : FileTree} {packagePath : Text}
    {r : Repository} {s : LoadState} (h : (settings.loadPackage t packagePath).run {} = (.ok r, s)) :
    ∀ m ∈ s.index.modules, ∀ name span, m.provides.get? name = some span →
      m.file.HasSpan span ∨ PassesOn s.index m.file.directives m.requires name span :=
  fun m hm _ _ hspan =>
    ((recorded_of_loadPackage h).modules m hm).provided (Table.mem_of_get? hspan)

/-! ## A span that is passed on -/

/-- A package of two modules, of which one provides what the other one does under another name. -/
def passingModules : FileTree :=
  .ofModules (utf8 "(module a '/fusion/private/kernel' (require \"/b\") (provide (rename_out (y z))))")
    (utf8 "(module b '/fusion/private/kernel' // a module\n (defpub q 1) (defpub r 2)\n (defpub s 3)\n (defpub y 1))")

/-- Both modules are loaded. The one has the name for the span of the other, where its own source has
ended. -/
theorem loads_passingModules :
    ∃ s, ((Settings.withModules (utf8 "fusion/src")).loadPackage passingModules (utf8 "/")).run {} = (.ok .ofTwoModules, s) ∧
    (∃ a ∈ s.index.modules, a.provides.get? (utf8 "z") = some ⟨97, 98⟩ ∧ a.file.source.length < 98) ∧
    ∃ b ∈ s.index.modules, b.provides.get? (utf8 "y") = some ⟨97, 98⟩ ∧ b.requires = [] := by
  have hrun : let out := ((Settings.withModules (utf8 "fusion/src")).loadPackage passingModules (utf8 "/")).run {}
      out.1.toOption = some .ofTwoModules ∧
      (∃ a ∈ out.2.index.modules, a.provides.get? (utf8 "z") = some ⟨97, 98⟩ ∧ a.file.source.length < 98) ∧
      ∃ b ∈ out.2.index.modules, b.provides.get? (utf8 "y") = some ⟨97, 98⟩ ∧ b.requires = [] := by
    rw [passingModules, Settings.loadPackage_ofModules]
    decide +kernel
  obtain ⟨s, hloaded⟩ := Settings.exists_loaded hrun.1
  rw [hloaded] at hrun
  exact ⟨s, hloaded, hrun.2⟩

theorem Settings.span_provided_of_loadPackage_own :
    ∃ s, ((withModules (utf8 "fusion/src")).loadPackage passingModules (utf8 "/")).run {} = (.ok .ofTwoModules, s) ∧
    ∃ b ∈ s.index.modules, b.provides.get? (utf8 "y") = some ⟨97, 98⟩ ∧ b.file.HasSpan ⟨97, 98⟩ := by
  obtain ⟨s, hloaded, -, b, hb, hspan, hrequires⟩ := loads_passingModules
  refine ⟨s, hloaded, b, hb, hspan, (span_provided_of_loadPackage hloaded b hb _ _ hspan).resolve_right fun hpass => ?_⟩
  obtain ⟨q, hq, -⟩ := hpass.exists_provider
  rw [hrequires] at hq
  exact List.not_mem_nil hq

/-- A span that is passed on is not one of the file. -/
theorem Settings.span_provided_elsewhere :
    ∃ s, ((withModules (utf8 "fusion/src")).loadPackage passingModules (utf8 "/")).run {} = (.ok .ofTwoModules, s) ∧
    ∃ a ∈ s.index.modules, ∃ span, a.provides.get? (utf8 "z") = some span ∧
      ¬ span.LiesIn a.file.source ∧ span ∉ Node.spansOf a.file.nodes := by
  obtain ⟨s, hloaded, ⟨a, ha, hspan, hlength⟩, -⟩ := loads_passingModules
  have hout : ¬ Span.LiesIn ⟨97, 98⟩ a.file.source := by
    rintro ⟨-, -, hstop⟩
    dsimp only at hstop
    omega
  have hparsed := ((recorded_of_loadPackage hloaded).modules a ha).parsed
  exact ⟨s, hloaded, a, ha, _, hspan, hout, fun hmem => hout (hparsed.hasSpan hmem).1⟩

end FusionKit
