import FusionKit.Proofs.Packages
import FusionKit.Proofs.Recorded
import FusionKit.Proofs.Reordering

/-!
# Names that reach their users

What a file exports is recorded among the names that its module provides: without quotes if it is
provided by its own name, and as it is written if it is defined or renamed. A script that requires the
module binds these names, and looks each symbol up without quotes. Hence a name that is exported is
bound in the script unless it is written in quotes and not provided by its own name.
-/
set_option autoImplicit false

namespace FusionKit

/-! ## Exports and imports -/

namespace Form

/-- The body of a module form. -/
def moduleBody : Form → List Form
  | .sexpr _ (.symbol _ head :: _ :: _ :: body) => if Keyword.ofText? head = some .moduleForm then body else []
  | _ => []

/-- The arguments of a form with a keyword at its head. -/
def argumentsOf (k : Keyword) : Form → List Form
  | .sexpr _ (.symbol _ head :: args) => if Keyword.ofText? head = some k then args else []
  | _ => []

/-- The name, as written, that a definition with a keyword introduces. -/
def definedAs? (k : Keyword) (f : Form) : Option Text := (Directive.definedName? (f.argumentsOf k)).map (·.name)

/-- Whether an argument of a provide stands for all that is defined. -/
def isAllDefined : Form → Bool
  | .sexpr _ (head :: _) => head.symbol? == some (utf8 "all_defined_out")
  | _ => false

/-- The name, as written, under which an argument of a provide provides something else. -/
def renamedOut? : Form → Option Text
  | .sexpr _ (head :: .sexpr _ (.symbol _ _ :: .symbol _ outer :: _) :: _) =>
    if head.symbol? == some (utf8 "rename_out") then some outer else none
  | _ => none

end Form

namespace SourceFile

/-- The forms of a file, and those in the bodies of its modules. -/
def topForms (f : SourceFile) : List Form := f.forms ++ f.forms.flatMap Form.moduleBody

/-- What a file provides by the way it is written. -/
def provided (f : SourceFile) : List Form := f.topForms.flatMap (Form.argumentsOf .provide)

/-- A file exports a name that is written as some text. -/
inductive Exports (f : SourceFile) (written : Text) : Prop where
  | definition {g : Form} (hg : g ∈ f.topForms) (hname : g.definedAs? .definePublic = some written)
  | allDefined {g arg : Form} (hg : g ∈ f.topForms) (hname : g.definedAs? .define = some written)
    (harg : arg ∈ f.provided) (hall : arg.isAllDefined = true)
  | symbol {arg : Form} (harg : arg ∈ f.provided) (hname : arg.symbol? = some written)
  | renamed {arg : Form} (harg : arg ∈ f.provided) (hname : arg.renamedOut? = some written)

/-- A name can be looked up as it is exported: it is written without quotes, or provided by its own
name. -/
def Plain (f : SourceFile) (written : Text) : Prop :=
  written.unquoted = written ∨ ∃ arg ∈ f.provided, arg.symbol? = some written

/-- Whether a file requires a module by its name, as a whole. -/
def RequiresAll (f : SourceFile) (name : Text) : Prop :=
  ∃ arg ∈ f.forms.flatMap (Form.argumentsOf .require), arg.string? = some name

end SourceFile

/-! ## Names that are recorded -/

section

variable {idx : Index} {m : ModuleBody} {f : SourceFile} {g arg : Form} {d : Directive} {k : Keyword} {name written : Text}
  {args : List Form}

theorem Form.mem_directivesOf {quoted : Bool} {fs : List Form} (hg : g ∈ fs) (hd : d ∈ g.directives quoted) :
    d ∈ directivesOf quoted fs := by
  induction fs with
  | nil => exact absurd hg List.not_mem_nil
  | cons f fs ih =>
    rcases List.mem_cons.mp hg with rfl | hg
    · exact List.mem_append_left _ hd
    · exact List.mem_append_right _ (ih hg)

/-- What a form with a keyword at its head has for arguments. -/
theorem Form.argumentsOf_cases (k : Keyword) (g : Form) :
    g.argumentsOf k = [] ∨
      ∃ span headSpan head, g = .sexpr span (.symbol headSpan head :: g.argumentsOf k) ∧ Keyword.ofText? head = some k := by
  unfold argumentsOf
  split
  · split
    · rename_i span headSpan head args hhead
      exact .inr ⟨span, headSpan, head, rfl, hhead⟩
    · exact .inl rfl
  · exact .inl rfl

/-- The directives of the body of a module are those of its file, unless something is missing. -/
theorem Form.directives_moduleBody (g : Form) :
    (∀ d ∈ directivesOf false g.moduleBody, d ∈ g.directives false) ∨ ∃ fault, .misuse fault ∈ g.directives false := by
  unfold moduleBody
  split
  · rename_i span headSpan head name language body
    split
    · rename_i hhead
      simp only [directives, sexprDirectives, Bool.false_eq_true, if_false, hhead, moduleDirectives]
      split
      · exact .inr ⟨_, List.mem_singleton_self _⟩
      · exact .inl fun d hd => List.mem_cons_of_mem _ hd
    · exact .inl fun d hd => absurd hd List.not_mem_nil
  · exact .inl fun d hd => absurd hd List.not_mem_nil

theorem SourceFile.directives_topForms (hg : g ∈ f.topForms) (hd : d ∈ g.directives false) :
    d ∈ f.directives ∨ ∃ fault, .misuse fault ∈ f.directives := by
  rcases List.mem_append.mp hg with hg | hg
  · exact .inl (Form.mem_directivesOf hg hd)
  · obtain ⟨outer, houter, hg⟩ := List.mem_flatMap.mp hg
    refine outer.directives_moduleBody.imp (fun hbody => ?_) fun hfault => ?_
    · exact Form.mem_directivesOf houter (hbody d (Form.mem_directivesOf hg hd))
    · obtain ⟨fault, hfault⟩ := hfault
      exact ⟨fault, Form.mem_directivesOf houter hfault⟩

/-- A module that is recorded holds what the forms of its file say. -/
theorem ModuleBody.Recorded.left (h : m.Recorded idx) :
    ∃ sum : Summary, m.provides = sum.exports ∧ ∀ g ∈ m.file.topForms, ∀ d ∈ g.directives false, d.LeftIn sum := by
  obtain ⟨-, sum, -, hprovides, hsum⟩ := h
  refine ⟨sum, hprovides, fun g hg d hd => ?_⟩
  rcases SourceFile.directives_topForms hg hd with hd | ⟨fault, hfault⟩
  · exact hsum.left d hd
  · exact (hsum.left _ hfault).elim

/-- A definition says its name: to define it, or to provide it. -/
theorem Form.mem_directives_of_definedAs? {say : Origin → Directive}
    (hk : k = .define ∧ say = .define ∨ k = .definePublic ∧ say = .provide) (h : g.definedAs? k = some written) :
    ∃ origin, say origin ∈ g.directives false ∧ origin.name = written := by
  obtain ⟨origin, horigin, hname⟩ := Option.map_eq_some_iff.mp h
  refine ⟨origin, ?_, hname⟩
  rcases g.argumentsOf_cases k with hnone | ⟨span, headSpan, head, hg, hhead⟩
  · rw [hnone] at horigin
    cases horigin
  · rw [hg]
    rcases hk with ⟨rfl, rfl⟩ | ⟨rfl, rfl⟩
    all_goals
      simp only [directives, sexprDirectives, Bool.false_eq_true, if_false, hhead, horigin]
      exact List.mem_singleton_self _

/-- What the arguments of a provide say, the form says. -/
theorem Form.provideArgument_subset (harg : arg ∈ g.argumentsOf .provide) (hd : d ∈ Directive.provideArgument arg) :
    d ∈ g.directives false := by
  rcases g.argumentsOf_cases .provide with hnone | ⟨span, headSpan, head, hg, hhead⟩
  · rw [hnone] at harg
    exact absurd harg List.not_mem_nil
  · rw [hg]
    simp only [directives, sexprDirectives, Bool.false_eq_true, if_false, hhead]
    exact List.mem_flatMap.mpr ⟨arg, harg, hd⟩

theorem SourceFile.exists_of_mem_provided (harg : arg ∈ f.provided) (hd : d ∈ Directive.provideArgument arg) :
    ∃ g ∈ f.topForms, d ∈ g.directives false := by
  obtain ⟨g, hg, harg⟩ := List.mem_flatMap.mp harg
  exact ⟨g, hg, Form.provideArgument_subset harg hd⟩

theorem Form.provideArgument_symbol (h : arg.symbol? = some written) :
    ∃ span, .provide ⟨written.unquoted, span⟩ ∈ Directive.provideArgument arg := by
  cases arg with
  | symbol span text =>
    obtain rfl := Option.some.inj h
    exact ⟨span, List.mem_singleton_self _⟩
  | string | sexpr | list | struct | other => cases h

theorem Form.provideArgument_allDefined (h : arg.isAllDefined = true) :
    .provideDefined ∈ Directive.provideArgument arg := by
  unfold isAllDefined at h
  split at h
  · rw [Directive.provideArgument, if_pos h]
    exact List.mem_singleton_self _
  · cases h

theorem Form.provideArgument_renamed (h : arg.renamedOut? = some written) :
    ∃ span inner, .provideAs span inner written ∈ Directive.provideArgument arg := by
  unfold renamedOut? at h
  split at h
  · rename_i span head pairSpan innerSpan inner outerSpan outer more rest
    split at h
    · rename_i hhead
      obtain rfl := Option.some.inj h
      refine ⟨head.span, inner, ?_⟩
      have hother : ¬ (head.symbol? == some (utf8 "all_defined_out")) = true := by
        rw [beq_iff_eq.mp hhead]
        decide
      rw [Directive.provideArgument, if_neg hother, if_pos hhead]
      exact List.mem_singleton_self _
    · cases h
  · cases h

/-- A name that a file exports is among those that its module provides, as it is looked up. -/
theorem SourceFile.Exports.mem_provides (hexports : m.file.Exports written) (h : m.Recorded idx)
    (hplain : m.file.Plain written) : written.unquoted ∈ m.provides.names := by
  obtain ⟨sum, hprovides, hleft⟩ := h.left
  have hprovide {arg : Form} {d : Directive} (harg : arg ∈ m.file.provided) (hd : d ∈ Directive.provideArgument arg) :
      d.LeftIn sum := by
    obtain ⟨g, hg, hd⟩ := SourceFile.exists_of_mem_provided harg hd
    exact hleft g hg d hd
  have hsymbol {arg : Form} (harg : arg ∈ m.file.provided) (hname : arg.symbol? = some written) :
      sum.provides.Has written.unquoted := by
    obtain ⟨span, hd⟩ := Form.provideArgument_symbol hname
    exact hprovide harg hd
  rw [hprovides, Table.mem_names]
  apply Summary.has_exports
  rcases hplain with hplain | ⟨arg, harg, hname⟩
  · cases hexports with
    | symbol harg hname => exact .inl (hsymbol harg hname)
    | definition hg hname =>
      obtain ⟨origin, hd, rfl⟩ := Form.mem_directives_of_definedAs? (.inr ⟨rfl, rfl⟩) hname
      have hhas : sum.provides.Has origin.name := hleft _ hg _ hd
      exact .inl (hplain.symm ▸ hhas)
    | allDefined hg hname harg hall =>
      obtain ⟨origin, hd, rfl⟩ := Form.mem_directives_of_definedAs? (.inl ⟨rfl, rfl⟩) hname
      have hhas : sum.defined.Has origin.name := hleft _ hg _ hd
      exact .inr ⟨hprovide harg (Form.provideArgument_allDefined hall), hplain.symm ▸ hhas⟩
    | renamed harg hname =>
      obtain ⟨span, inner, hd⟩ := Form.provideArgument_renamed hname
      have hhas : sum.provides.Has written := hprovide harg hd
      exact .inl (hplain.symm ▸ hhas)
  · exact .inl (hsymbol harg hname)

end

/-! ## Names that are bound -/

theorem Keyword.ofText?_unquoted {head : Text} {k : Keyword} (h : ofText? head = some k) :
    ofText? head.unquoted = some k := by
  have hall : ∀ s ∈ spellings, (utf8 s.1).unquoted = utf8 s.1 := by decide
  obtain ⟨spelling, hfound, -⟩ := Option.map_eq_some_iff.mp h
  have hhead := List.find?_some hfound
  rw [beq_iff_eq] at hhead
  rw [← hhead, hall spelling (List.mem_of_find?_eq_some hfound), hhead, h]

namespace Index

variable {idx : Index} {m : Module} {f : SourceFile} {files : List SourceFile} {g arg : Form} {fs args : List Form}
  {e e' : Effect} {name written : Text} {w : Walk}

theorem Does.names_subset (h : idx.Does [g] e) (hg : g ∈ fs) (h' : idx.Does fs e') : ∀ name ∈ e.names, name ∈ e'.names := by
  induction fs generalizing e' with
  | nil => exact absurd hg List.not_mem_nil
  | cons f fs ih =>
    obtain ⟨first, hfirst⟩ := idx.exists_does [f]
    obtain ⟨rest, hrest⟩ := idx.exists_does fs
    obtain rfl := h'.unique (hfirst.cons hrest)
    intro name hname
    rw [Effect.mem_names_seq]
    rcases List.mem_cons.mp hg with rfl | hg
    · exact .inl (h.unique hfirst ▸ hname)
    · exact .inr (ih hg hrest name hname)

/-- What is bound stays bound while arguments are imported. -/
theorem contains_importArgument (h : w.scope.contains name = true) (arg : Form) :
    (Walk.importArgument idx w arg).scope.contains name = true := by
  have hoffers : ∀ name ∈ arg.string?, idx.Offers idx name := fun _ _ => rfl
  obtain ⟨e, he⟩ := Walk.acts_importArgument arg hoffers
  have hwalk : Walk.importArgument idx w arg = w.after e := (he w).1
  rw [hwalk]
  exact (e.contains_extend_iff w.scope name).mpr (.inl h)

theorem contains_importArguments (h : w.scope.contains name = true) (args : List Form) :
    (args.foldl (Walk.importArgument idx) w).scope.contains name = true := by
  induction args generalizing w with
  | nil => exact h
  | cons arg args ih => exact ih (contains_importArgument h arg)

/-- A module that is imported as a whole binds all names that it provides. -/
theorem contains_of_import (hm : idx.module? name = some m) (hname : written ∈ m.provides.names)
    (harg : arg ∈ args) (hstring : arg.string? = some name) (w : Walk) :
    (args.foldl (Walk.importArgument idx) w).scope.contains written = true := by
  induction args generalizing w with
  | nil => exact absurd harg List.not_mem_nil
  | cons first args ih =>
    rcases List.mem_cons.mp harg with rfl | harg
    · refine contains_importArguments ?_ args
      cases arg with
      | string span text =>
        obtain rfl := Option.some.inj hstring
        rw [Walk.importArgument, hm]
        dsimp only
        rw [Scope.bindAll_eq_extend, Scope.contains_extend]
        exact .inr (.inl (List.mem_reverse.mpr hname))
      | symbol | sexpr | list | struct | other => cases hstring
    · exact ih harg _

/-- A file binds what a module provides that it requires. -/
theorem binds_of_requiresAll (h : f.RequiresAll name) (hm : idx.module? name = some m)
    (hname : written ∈ m.provides.names) : idx.Binds f written := by
  obtain ⟨arg, harg, hstring⟩ := h
  obtain ⟨g, hg, harg⟩ := List.mem_flatMap.mp harg
  obtain ⟨e, he⟩ := idx.exists_does [g]
  obtain ⟨e', he'⟩ := idx.exists_does f.forms
  refine ⟨e', he', he.names_subset hg he' written ?_⟩
  rcases g.argumentsOf_cases .require with hnone | ⟨span, headSpan, head, hform, hhead⟩
  · rw [hnone] at harg
    exact absurd harg List.not_mem_nil
  · have hwalk : ∀ w, Walk.checkAll idx false w [g] = (g.argumentsOf .require).foldl (Walk.importArgument idx) w := by
      intro w
      have hkeyword : (Form.symbol headSpan head).name?.map Keyword.ofText? = some (some .require) :=
        congrArg some (Keyword.ofText?_unquoted hhead)
      rw [hform]
      simp only [Walk.checkAll, Walk.check, Walk.checkSexpr, hkeyword, Bool.false_eq_true, if_false]
      rw [← hform]
    -- from a scope without names, what is bound is bound by the form
    have hbound := contains_of_import hm hname harg hstring ⟨⟨[], []⟩, []⟩
    rw [← hwalk, he] at hbound
    exact ((e.contains_extend_iff _ written).mp hbound).resolve_left Bool.false_ne_true

/-- No use of a name is reported in files that bind it. -/
theorem not_unbound_of_binds (hf : f ∈ files) (hbinds : idx.Binds f written.unquoted) (names : List Text) :
    ∀ p ∈ idx.checkFiles names files, p.complaint ≠ .unbound written := by
  intro p hp hunbound
  have hsettled := idx.settled_walkFiles (.ofNames names) files
  rw [checkFiles, Problem.sorted, List.mem_mergeSort, problemsIn_of_settled hsettled fun _ => rfl] at hp
  obtain ⟨other, hother, hp⟩ := List.mem_flatMap.mp hp
  obtain ⟨found, hfound, rfl⟩ := List.mem_map.mp hp
  obtain ⟨e, he⟩ := idx.exists_does other.forms
  rw [he] at hfound
  have hfree := e.not_bound _ found hfound written hunbound
  rw [hsettled f hf _ hbinds] at hfree
  cases hfree

end Index

/-! ## From a module to a script -/

/-- When a package was loaded, no script that requires a module by its name is told that a name is
unbound which the module exports in the same spelling, if the name is written without quotes or is
provided by its own name. -/
theorem Settings.exports_bound_of_loadPackage {settings : Settings} {t : FileTree} {packagePath : Text}
    {r : Repository} {s : LoadState} (h : (settings.loadPackage t packagePath).run {} = (.ok r, s)) {m : Module}
    (hm : m ∈ s.index.modules) {written : Text} (hexports : m.file.Exports written) (hplain : m.file.Plain written)
    {b : Script} (hb : ∃ f ∈ b.files, f.RequiresAll m.name) :
    ∀ p ∈ s.index.checkScript b, p.complaint ≠ .unbound written := by
  have hrecorded := recorded_of_loadPackage h
  obtain ⟨f, hf, hrequires⟩ := hb
  obtain ⟨id, hid⟩ := List.getElem?_of_mem hm
  have hfound : s.index.module? m.name = some m := by
    rw [Index.module?, Index.moduleId?, (hrecorded.sound.modules.entry id m hid).2, Option.bind_some, hid]
  have hname := hexports.mem_provides (hrecorded.modules m hm) hplain
  exact Index.not_unbound_of_binds hf (Index.binds_of_requiresAll hrequires hfound hname) _

/-! ## A name in quotes -/

/-- A package of two modules. One defines a name in quotes, the other one provides such a name. -/
def quotingModules : FileTree :=
  .ofModules (utf8 "(module a '/fusion/private/kernel' (defpub 'x y' 1))")
    (utf8 "(module b '/fusion/private/kernel' (provide 'y z'))")

/-- A script that uses both names. -/
def quotingScript : Script where
  name := utf8 "t.fusion"
  topLevelModules := []
  globalBindings := []
  files := (SourceFile.ofSource (utf8 "t.fusion") (utf8 "(require \"/a\" \"/b\") ('x y' 'y z')")).toOption.toList
  id := 0

theorem requiresAll_quotingScript :
    ∀ name ∈ [utf8 "/a", utf8 "/b"], ∃ f ∈ quotingScript.files, f.RequiresAll name := by
  unfold SourceFile.RequiresAll
  decide +kernel

/-- Both modules are loaded, and a check of the script tells of the name that is defined. -/
theorem loads_quotingModules :
    ∃ s, ((Settings.withModules (utf8 "fusion/src")).loadPackage quotingModules (utf8 "/")).run {} = (.ok .ofTwoModules, s) ∧
    (∃ a ∈ s.index.modules, a.name = utf8 "/a" ∧ a.file.Exports (utf8 "'x y'")) ∧
    (∃ b ∈ s.index.modules, b.name = utf8 "/b" ∧ ∃ arg ∈ b.file.provided, arg.symbol? = some (utf8 "'y z'")) ∧
    ∃ p ∈ s.index.checkScript quotingScript, p.complaint = .unbound (utf8 "'x y'") := by
  have hrun : let out := ((Settings.withModules (utf8 "fusion/src")).loadPackage quotingModules (utf8 "/")).run {}
      out.1.toOption = some .ofTwoModules ∧
      (∃ a ∈ out.2.index.modules, a.name = utf8 "/a" ∧
        ∃ g ∈ a.file.topForms, g.definedAs? .definePublic = some (utf8 "'x y'")) ∧
      (∃ b ∈ out.2.index.modules, b.name = utf8 "/b" ∧ ∃ arg ∈ b.file.provided, arg.symbol? = some (utf8 "'y z'")) ∧
      ∃ p ∈ out.2.index.checkScript quotingScript, p.complaint = .unbound (utf8 "'x y'") := by
    rw [quotingModules, Settings.loadPackage_ofModules]
    decide +kernel
  obtain ⟨s, hloaded⟩ := Settings.exists_loaded hrun.1
  rw [hloaded] at hrun
  obtain ⟨-, ⟨a, ha, hname, g, hg, hdefined⟩, hprovided, hunbound⟩ := hrun
  exact ⟨s, hloaded, ⟨a, ha, hname, .definition hg hdefined⟩, hprovided, hunbound⟩

theorem Settings.exports_bound_of_loadPackage_provided :
    ∃ s, ((withModules (utf8 "fusion/src")).loadPackage quotingModules (utf8 "/")).run {} = (.ok .ofTwoModules, s) ∧
    ∀ p ∈ s.index.checkScript quotingScript, p.complaint ≠ .unbound (utf8 "'y z'") := by
  obtain ⟨s, hloaded, -, ⟨b, hb, hname, arg, harg, hsymbol⟩, -⟩ := loads_quotingModules
  have hrequires := requiresAll_quotingScript (utf8 "/b") (by simp)
  rw [← hname] at hrequires
  exact ⟨s, hloaded, exports_bound_of_loadPackage hloaded hb (.symbol harg hsymbol) (.inr ⟨arg, harg, hsymbol⟩) hrequires⟩

/-- A name that is defined in quotes is exported as it is written, and not found where it is used. -/
theorem Settings.exports_unbound_quoted :
    ∃ s, ((withModules (utf8 "fusion/src")).loadPackage quotingModules (utf8 "/")).run {} = (.ok .ofTwoModules, s) ∧
    ∃ a ∈ s.index.modules, a.file.Exports (utf8 "'x y'") ∧ (∃ f ∈ quotingScript.files, f.RequiresAll a.name) ∧
    ∃ p ∈ s.index.checkScript quotingScript, p.complaint = .unbound (utf8 "'x y'") := by
  obtain ⟨s, hloaded, ⟨a, ha, hname, hexports⟩, -, hunbound⟩ := loads_quotingModules
  have hrequires := requiresAll_quotingScript (utf8 "/a") (by simp)
  rw [← hname] at hrequires
  exact ⟨s, hloaded, a, ha, hexports, hrequires, hunbound⟩

end FusionKit
