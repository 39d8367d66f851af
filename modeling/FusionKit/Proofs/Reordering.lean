import Mathlib.Data.List.Forall2
import FusionKit.Proofs.Effects
import FusionKit.Proofs.Forms

/-!
# Checking in another order

The first of the two walks over a resource binds all names that hold in it, whatever the order of its
forms. From then on a walk binds nothing new, so each form is judged in one scope, and the order in
which this is done does not matter; neither does another walk.
-/
set_option autoImplicit false

namespace FusionKit

namespace Effect

variable {e e' e₁ e₁' : Effect} {s s' : Scope}

/-- All names that are bound. -/
def names (e : Effect) : List Text := e.bound ++ e.top

theorem ext_of_after (h : ∀ w : Walk, w.after e = w.after e') : e = e' := by
  have hempty := congrArg Walk.scope (h ⟨⟨[[]], []⟩, []⟩)
  simp only [Walk.after, Scope.extend, List.append_nil, Scope.mk.injEq, List.cons.injEq, and_true] at hempty
  refine Effect.ext hempty.1 hempty.2 (funext fun s => ?_)
  have hfound := congrArg Walk.findings (h ⟨s, []⟩)
  simpa only [Walk.after, List.nil_append] using hfound

/-- All names of an effect are bound already. -/
def Settled (e : Effect) (s : Scope) : Prop := ∀ name ∈ e.names, s.contains name = true

theorem contains_extend_iff (e : Effect) (s : Scope) (name : Text) :
    (s.extend e.bound e.top).contains name = true ↔ s.contains name = true ∨ name ∈ e.names := by
  rw [Scope.contains_extend, names, List.mem_append]

/-- What is bound already changes nothing. -/
theorem Settled.contains_extend (h : e.Settled s) (name : Text) :
    (s.extend e.bound e.top).contains name = s.contains name := by
  rw [Bool.eq_iff_iff, contains_extend_iff]
  exact or_iff_left_of_imp (h name)

theorem mem_names_seq {name : Text} : name ∈ (e.seq e').names ↔ name ∈ e.names ∨ name ∈ e'.names := by
  simp only [names, Effect.seq, List.mem_append]
  grind

theorem settled_seq : (e.seq e').Settled s ↔ e.Settled s ∧ e'.Settled s := by
  simp only [Settled, mem_names_seq, or_imp, forall_and]

theorem Settled.report_seq (h : e.Settled s) : (e.seq e').report s = e.report s ++ e'.report s :=
  congrArg (e.report s ++ ·) (e'.report_eq _ _ h.contains_extend)

/-- Two effects bind the same names and, once these are bound, find the same, in some order. -/
structure Same (e e' : Effect) : Prop where
  names : ∀ name, name ∈ e.names ↔ name ∈ e'.names
  report : ∀ s, e.Settled s → (e.report s).Perm (e'.report s)

theorem Same.settled (h : e.Same e') : e.Settled s ↔ e'.Settled s :=
  forall_congr' fun name => imp_congr_left (h.names name)

theorem Same.refl (e : Effect) : e.Same e := ⟨fun _ => .rfl, fun _ _ => .refl _⟩

theorem Same.trans (h : e.Same e') (h' : e'.Same e₁) : e.Same e₁ where
  names name := (h.names name).trans (h'.names name)
  report s hs := (h.report s hs).trans (h'.report s (h.settled.mp hs))

theorem Same.seq (h : e.Same e') (h₁ : e₁.Same e₁') : (e.seq e₁).Same (e'.seq e₁') where
  names name := by rw [mem_names_seq, mem_names_seq, h.names, h₁.names]
  report s hs := by
    obtain ⟨he, he₁⟩ := settled_seq.mp hs
    rw [he.report_seq, (h.settled.mp he).report_seq]
    exact (h.report s he).append (h₁.report s he₁)

theorem same_seq_comm (e e' : Effect) : (e.seq e').Same (e'.seq e) where
  names name := by rw [mem_names_seq, mem_names_seq, or_comm]
  report s hs := by
    obtain ⟨he, he'⟩ := settled_seq.mp hs
    rw [he.report_seq, he'.report_seq]
    exact List.perm_append_comm

end Effect

/-! ## Forms -/

/-- Walking over forms has an effect. -/
def Index.Does (idx : Index) (fs : List Form) (e : Effect) : Prop :=
  ∀ w : Walk, Walk.checkAll idx false w fs = w.after e

/-- In two orders, forms have the same effect. -/
def Index.Alike (idx : Index) (fs fs' : List Form) : Prop :=
  ∃ e e', idx.Does fs e ∧ idx.Does fs' e' ∧ e.Same e'

section

variable {idx idx' : Index} {f f' : Form} {fs fs' fs'' : List Form} {e e' : Effect} {w : Walk} {name : Text}

theorem Index.exists_does (idx : Index) (fs : List Form) : ∃ e, idx.Does fs e := by
  have hoffers : ∀ name ∈ Form.wantedOf false fs, idx.Offers idx name := fun _ _ => rfl
  obtain ⟨e, he⟩ := Walk.acts_checkAll false fs hoffers
  exact ⟨e, fun w => (he w).1⟩

theorem Index.Does.unique (h : idx.Does fs e) (h' : idx.Does fs e') : e = e' :=
  Effect.ext_of_after fun w => (h w).symm.trans (h' w)

theorem Index.Does.cons (h : idx.Does [f] e) (h' : idx.Does fs e') : idx.Does (f :: fs) (e.seq e') := fun w => by
  rw [← Walk.after_seq, ← h, ← h']
  rfl

namespace Index.Alike

theorem refl (idx : Index) (fs : List Form) : idx.Alike fs fs := by
  obtain ⟨e, he⟩ := idx.exists_does fs
  exact ⟨e, e, he, he, .refl e⟩

theorem trans (h : idx.Alike fs fs') (h' : idx.Alike fs' fs'') : idx.Alike fs fs'' := by
  obtain ⟨e, e₁, he, he₁, hsame⟩ := h
  obtain ⟨e₁', e', he₁', he', hsame'⟩ := h'
  obtain rfl := he₁.unique he₁'
  exact ⟨e, e', he, he', hsame.trans hsame'⟩

theorem cons (h : idx.Alike [f] [f']) (h' : idx.Alike fs fs') : idx.Alike (f :: fs) (f' :: fs') := by
  obtain ⟨e, e', he, he', hsame⟩ := h
  obtain ⟨e₁, e₁', he₁, he₁', hsame₁⟩ := h'
  exact ⟨_, _, he.cons he₁, he'.cons he₁', hsame.seq hsame₁⟩

theorem swap (idx : Index) (f f' : Form) (fs : List Form) : idx.Alike (f' :: f :: fs) (f :: f' :: fs) := by
  obtain ⟨e, he⟩ := idx.exists_does [f]
  obtain ⟨e', he'⟩ := idx.exists_does [f']
  obtain ⟨rest, hrest⟩ := idx.exists_does fs
  have hassoc (e e' : Effect) : e.seq (e'.seq rest) = (e.seq e').seq rest :=
    Effect.ext_of_after fun w => by simp only [← Walk.after_seq]
  refine ⟨_, _, he'.cons (he.cons hrest), he.cons (he'.cons hrest), ?_⟩
  rw [hassoc, hassoc]
  exact (Effect.same_seq_comm e' e).seq (.refl rest)

/-- The order of forms does not matter. -/
theorem of_perm (h : fs.Perm fs') : idx.Alike fs fs' := by
  induction h with
  | nil => exact refl idx []
  | cons f _ ih => exact (refl idx [f]).cons ih
  | swap f f' fs => exact swap idx f f' fs
  | trans _ _ ih ih' => exact ih.trans ih'

end Index.Alike

/-- A form with the forms of its body in another order, if it is a module form. -/
inductive Form.Rearranged : Form → Form → Prop where
  | same (f : Form) : Rearranged f f
  | body {span : Span} {head name language : Form} {body body' : List Form}
    (hmodule : head.name?.map Keyword.ofText? = some (some .moduleForm)) (h : body.Perm body') :
    Rearranged (.sexpr span (head :: name :: language :: body)) (.sexpr span (head :: name :: language :: body'))

theorem Form.Rearranged.alike (h : f.Rearranged f') : idx.Alike [f] [f'] := by
  cases h with
  | same => exact .refl idx _
  | @body span head name language body body' hmodule h =>
    have hbody : ∀ body : List Form, ∀ w : Walk,
        Walk.checkAll idx false w [.sexpr span (head :: name :: language :: body)] = Walk.checkAll idx false w body := by
      intro body w
      simp only [Walk.checkAll, Walk.check, Walk.checkSexpr, hmodule, Bool.false_eq_true, if_false, Walk.checkModule]
    obtain ⟨e, e', he, he', hsame⟩ : idx.Alike body body' := .of_perm h
    exact ⟨e, e', fun w => (hbody body w).trans (he w), fun w => (hbody body' w).trans (he' w), hsame⟩

/-- Forms in another order, some of them with their bodies in another order. -/
def Form.RearrangedAll (fs fs' : List Form) : Prop := ∃ gs, fs.Perm gs ∧ List.Forall₂ Form.Rearranged gs fs'

theorem Form.RearrangedAll.of_perm (h : fs.Perm fs') : Form.RearrangedAll fs fs' :=
  ⟨fs', h, List.forall₂_same.mpr fun f _ => .same f⟩

theorem Form.RearrangedAll.alike (h : Form.RearrangedAll fs fs') : idx.Alike fs fs' := by
  obtain ⟨gs, hperm, hall⟩ := h
  refine (Index.Alike.of_perm hperm).trans ?_
  clear hperm
  induction hall with
  | nil => exact .refl idx []
  | cons hf _ ih => exact hf.alike.cons ih

end

/-! ## Files -/

/-- What a problem tells, apart from the nodes of its file: its place and what is wrong there. -/
def Problem.told (p : Problem) : Text × Text × Text × Span × Complaint :=
  (p.file.name, p.file.path, p.file.source, p.span, p.complaint)

/-- A file with its forms in another order. Each form keeps its place in the source. -/
structure SourceFile.Rearranged (f f' : SourceFile) : Prop where
  name : f'.name = f.name
  path : f'.path = f.path
  source : f'.source = f.source
  forms : Form.RearrangedAll f.forms f'.forms

/-- Files in another order, each with its forms in another order. -/
def SourceFile.RearrangedAll (files files' : List SourceFile) : Prop :=
  ∃ gs, files.Perm gs ∧ List.Forall₂ SourceFile.Rearranged gs files'

/-- The nodes of a file may be put in any order. -/
theorem SourceFile.Rearranged.of_perm {f : SourceFile} {nodes : List Node} (h : f.nodes.Perm nodes) :
    f.Rearranged { f with nodes } where
  name := rfl
  path := rfl
  source := rfl
  forms := by
    refine Form.RearrangedAll.of_perm ?_
    show (Form.ofNodes f.nodes).Perm (Form.ofNodes nodes)
    rw [Form.ofNodes_eq_flatMap, Form.ofNodes_eq_flatMap]
    exact h.flatMap_right _

namespace Index

variable {idx : Index} {s s' : Scope} {f f' : SourceFile} {files files' : List SourceFile} {name : Text}

/-- Whether a walk over a file binds a name. -/
def Binds (idx : Index) (f : SourceFile) (name : Text) : Prop := ∃ e, idx.Does f.forms e ∧ name ∈ e.names

/-- All names that some files bind are bound already. -/
def Settled (idx : Index) (files : List SourceFile) (s : Scope) : Prop :=
  ∀ f ∈ files, ∀ name, idx.Binds f name → s.contains name = true

/-- The problems found in a file. -/
def problemsOf (idx : Index) (s : Scope) (f : SourceFile) : List Problem :=
  (Walk.checkAll idx false { scope := s } f.forms).findings.map fun found => ⟨f, found.span, found.complaint⟩

theorem contains_walk (idx : Index) (s : Scope) (f : SourceFile) (name : Text) :
    (Walk.checkAll idx false { scope := s } f.forms).scope.contains name = true ↔
      s.contains name = true ∨ idx.Binds f name := by
  obtain ⟨e, he⟩ := idx.exists_does f.forms
  have hbinds : idx.Binds f name ↔ name ∈ e.names :=
    ⟨fun ⟨_, he', hname⟩ => he.unique he' ▸ hname, fun hname => ⟨e, he, hname⟩⟩
  rw [he, hbinds]
  exact e.contains_extend_iff s name

theorem contains_walkFiles (idx : Index) (s : Scope) (files : List SourceFile) (name : Text) :
    (idx.walkFiles s files).contains name = true ↔ s.contains name = true ∨ ∃ f ∈ files, idx.Binds f name := by
  induction files generalizing s with
  | nil => simp [walkFiles]
  | cons f files ih =>
    rw [walkFiles, List.foldl_cons, ← walkFiles, ih, contains_walk, List.exists_mem_cons_iff, or_assoc]

/-- A walk over some files settles them. -/
theorem settled_walkFiles (idx : Index) (s : Scope) (files : List SourceFile) :
    idx.Settled files (idx.walkFiles s files) :=
  fun f hf name hname => (idx.contains_walkFiles s files name).mpr (.inr ⟨f, hf, hname⟩)

theorem problemsOf_congr (h : ∀ name, s.contains name = s'.contains name) (f : SourceFile) :
    idx.problemsOf s f = idx.problemsOf s' f := by
  obtain ⟨e, he⟩ := idx.exists_does f.forms
  rw [problemsOf, problemsOf, he, he]
  simp only [Walk.after, List.nil_append, e.report_eq s s' h]

/-- In settled files each is judged in the same scope. -/
theorem problemsIn_of_settled (h : idx.Settled files s) (hsame : ∀ name, s'.contains name = s.contains name) :
    idx.problemsIn s' files = files.flatMap (idx.problemsOf s) := by
  induction files generalizing s' with
  | nil => rfl
  | cons f files ih =>
    have hnext : ∀ name, (Walk.checkAll idx false { scope := s' } f.forms).scope.contains name = s.contains name := by
      intro name
      rw [Bool.eq_iff_iff, contains_walk, hsame]
      exact or_iff_left_of_imp (h f List.mem_cons_self name)
    rw [problemsIn, List.flatMap_cons, ih (fun f hf => h f (List.mem_cons_of_mem _ hf)) hnext,
      ← problemsOf_congr hsame f]
    rfl

/-- A third walk finds what the second one did. -/
theorem problemsIn_walkFiles (idx : Index) (s : Scope) (files : List SourceFile) :
    idx.problemsIn (idx.walkFiles (idx.walkFiles s files) files) files = idx.problemsIn (idx.walkFiles s files) files := by
  have hsettled := idx.settled_walkFiles s files
  rw [problemsIn_of_settled hsettled fun _ => rfl, problemsIn_of_settled hsettled fun name => ?_]
  rw [Bool.eq_iff_iff, contains_walkFiles]
  exact or_iff_left_of_imp fun ⟨f, hf, hname⟩ => hsettled f hf name hname

theorem binds_of_rearranged (h : f.Rearranged f') : idx.Binds f name ↔ idx.Binds f' name := by
  obtain ⟨e, e', he, he', hsame⟩ : idx.Alike f.forms f'.forms := h.forms.alike
  constructor
  · rintro ⟨e₁, he₁, hname⟩
    exact ⟨e', he', (hsame.names name).mp (he.unique he₁ ▸ hname)⟩
  · rintro ⟨e₁, he₁, hname⟩
    exact ⟨e, he, (hsame.names name).mpr (he'.unique he₁ ▸ hname)⟩

theorem told_of_rearranged (h : f.Rearranged f') (hsettled : ∀ name, idx.Binds f name → s.contains name = true) :
    ((idx.problemsOf s f).map Problem.told).Perm ((idx.problemsOf s f').map Problem.told) := by
  obtain ⟨e, e', he, he', hsame⟩ : idx.Alike f.forms f'.forms := h.forms.alike
  have hperm := hsame.report s fun name hname => hsettled name ⟨e, he, hname⟩
  rw [problemsOf, problemsOf, he, he']
  simp only [Walk.after, List.nil_append, List.map_map]
  have htold : Problem.told ∘ (fun found : Finding => Problem.mk f' found.span found.complaint) =
      Problem.told ∘ fun found => Problem.mk f found.span found.complaint := by
    funext found
    simp only [Function.comp, Problem.told, h.name, h.path, h.source]
  rw [htold]
  exact hperm.map _

theorem binds_of_rearrangedAll (h : SourceFile.RearrangedAll files files') :
    (∃ f ∈ files, idx.Binds f name) ↔ ∃ f ∈ files', idx.Binds f name := by
  obtain ⟨gs, hperm, hall⟩ := h
  simp only [hperm.mem_iff]
  clear hperm
  induction hall with
  | nil => rfl
  | cons hf _ ih => rw [List.exists_mem_cons_iff, List.exists_mem_cons_iff, binds_of_rearranged hf, ih]

theorem told_of_rearrangedAll (h : SourceFile.RearrangedAll files files') (hsettled : idx.Settled files s) :
    ((files.flatMap (idx.problemsOf s)).map Problem.told).Perm
      ((files'.flatMap (idx.problemsOf s)).map Problem.told) := by
  obtain ⟨gs, hperm, hall⟩ := h
  replace hsettled : idx.Settled gs s := fun f hf => hsettled f (hperm.mem_iff.mpr hf)
  refine ((hperm.flatMap_right _).map _).trans ?_
  clear hperm
  induction hall with
  | nil => exact .refl _
  | cons hf _ ih =>
    rw [List.flatMap_cons, List.flatMap_cons, List.map_append, List.map_append]
    refine (told_of_rearranged hf (hsettled _ List.mem_cons_self)).append ?_
    exact ih fun f hf => hsettled f (List.mem_cons_of_mem _ hf)

/-- Files that share a scope have the same problems in every order. -/
theorem told_checkFiles (h : SourceFile.RearrangedAll files files') (names : List Text) :
    ((idx.checkFiles names files).map Problem.told).Perm ((idx.checkFiles names files').map Problem.told) := by
  have hsettled := idx.settled_walkFiles (.ofNames names) files
  have hsettled' := idx.settled_walkFiles (.ofNames names) files'
  have hsame : ∀ name, (idx.walkFiles (.ofNames names) files').contains name =
      (idx.walkFiles (.ofNames names) files).contains name := by
    intro name
    rw [Bool.eq_iff_iff, contains_walkFiles, contains_walkFiles, binds_of_rearrangedAll h]
  have hshared : idx.Settled files' (idx.walkFiles (.ofNames names) files) :=
    fun f hf name hname => (hsame name).symm.trans (hsettled' f hf name hname)
  have hsorted (ps : List Problem) : (Problem.sorted ps).Perm ps := List.mergeSort_perm ps _
  refine ((hsorted _).map _).trans (List.Perm.trans ?_ ((hsorted _).map _).symm)
  rw [problemsIn_of_settled hsettled fun _ => rfl, problemsIn_of_settled hshared hsame]
  exact told_of_rearrangedAll h hsettled

/-- Modules speak the same when one of them gets another file. -/
theorem Sound.speaks_putModule (hs : idx.Sound) {m : Module} (hm : m ∈ idx.modules) (file : SourceFile) (name : Text) :
    idx.Speaks (idx.putModule { m.toModuleBody with file }).2 name := by
  obtain ⟨id, hid⟩ := List.getElem?_of_mem hm
  obtain ⟨-, hplace⟩ := hs.modules.entry id m hid
  have hput : (idx.putModule { m.toModuleBody with file }).2 =
      { idx with modules := idx.modules.set id { m with file, id } } := by
    rw [Index.putModule, place, hplace]
  rw [Speaks, hput]
  unfold Index.module? moduleId?
  cases hname : idx.moduleIds.get? name with
  | none => rfl
  | some i =>
    rw [Option.bind_some, Option.bind_some]
    by_cases heq : id = i
    · rw [← heq, List.getElem?_set_self (List.getElem?_eq_some_iff.mp hid).1, hid]
      rfl
    · rw [List.getElem?_set_ne heq]

/-- What a check tells of a module or a script does not depend on the order in which things are
defined in its files, also when the index holds them in the other order, and a third walk would tell
the same again. -/
theorem told_rearranged {idx idx' : Index} (hidx : ∀ name, idx.Speaks idx' name) :
    (∀ m m' : Module, m'.name = m.name → m.file.Rearranged m'.file →
      ((idx.checkModule m).map Problem.told).Perm ((idx'.checkModule m').map Problem.told)) ∧
    (∀ b b' : Script, b'.topLevelModules = b.topLevelModules → b'.globalBindings = b.globalBindings →
      SourceFile.RearrangedAll b.files b'.files →
      ((idx.checkScript b).map Problem.told).Perm ((idx'.checkScript b').map Problem.told)) ∧
    ∀ (s : Scope) (files : List SourceFile),
      idx.problemsIn (idx.walkFiles (idx.walkFiles s files) files) files =
        idx.problemsIn (idx.walkFiles s files) files := by
  have hoffers : ∀ name, idx.Offers idx' name := fun name => (hidx name).offers
  have hnames : idx'.namesOf = idx.namesOf := funext fun name =>
    namesOf_congr (S := fun _ => True) (fun name _ => hidx name) (fun _ _ _ _ _ _ => trivial) trivial
  refine ⟨fun m m' hname hfile => ?_, fun b b' hmodules hbindings hfiles => ?_, idx.problemsIn_walkFiles⟩
  · have hall : SourceFile.RearrangedAll [m.file] [m'.file] := ⟨_, .refl _, .cons hfile .nil⟩
    rw [checkModule, checkModule, checkFiles_congr fun _ _ _ _ => hoffers _, hname, hnames]
    exact told_checkFiles hall _
  · rw [checkScript, checkScript, checkFiles_congr fun _ _ _ _ => hoffers _, hmodules, hbindings, hnames]
    exact told_checkFiles hfiles _

end Index

/-- A file that uses a name before it defines it, and another one that nothing defines. -/
def usedBefore : SourceFile where
  name := utf8 "a.fusion"
  nodes :=
    let symbol (start : Int) (written : String) : Node :=
      ⟨{ kind := .symbol, span := ⟨start, start + 1⟩, value := utf8 written }, []⟩
    [symbol 0 "x", ⟨{ kind := .sexpr, span := ⟨2, 14⟩ }, [symbol 3 "define", symbol 10 "x", symbol 12 "y"]⟩]

/-- The same file with its forms in the other order. -/
def definedBefore : SourceFile := { usedBefore with nodes := usedBefore.nodes.reverse }

theorem Index.told_rearranged_usedBefore :
    let idx : Index := (putModule {} { name := utf8 "/a", language := rootModule.name, file := usedBefore }).2
    let idx' := (idx.putModule { name := utf8 "/a", language := rootModule.name, file := definedBefore }).2
    ∃ m m' : Module, idx.modules = [m] ∧ idx'.modules = [m'] ∧ m.file.Rearranged m'.file ∧
      (idx.checkModule m).map (·.complaint) = [.unbound (utf8 "y")] ∧
      ((idx.checkModule m).map Problem.told).Perm ((idx'.checkModule m').map Problem.told) := by
  intro idx idx'
  let m : Module := { name := utf8 "/a", language := rootModule.name, file := usedBefore, id := 0 }
  let m' : Module := { m with file := definedBefore }
  have hs : idx.Sound := sound_empty.putModule (by simp)
  have hspeaks : ∀ name, idx.Speaks idx' name := hs.speaks_putModule (m := m) List.mem_cons_self definedBefore
  have hrearranged : m.file.Rearranged m'.file := .of_perm (List.reverse_perm _).symm
  refine ⟨m, m', rfl, rfl, hrearranged, by decide +kernel, ?_⟩
  exact (told_rearranged hspeaks).1 m m' rfl hrearranged

end FusionKit
