import FusionKit.Proofs.Reordering
import FusionKit.Proofs.Visits

/-!
# Locality

What a walk over a form does is what the forms do that it comes to. It binds for the whole resource
exactly the names that these introduce for it. In the innermost frame it binds no names but those that
they introduce where they stand: parameters and local names stay in frames of their own, which are left
again. And it finds no uses but those of the symbols among them, each once at most.

`Effect.Fits` says this of an effect, and `Walk.Visits` of a walk.
-/
set_option autoImplicit false

namespace FusionKit

/-! ## Uses -/

/-- The symbol that a complaint finds unbound. -/
def Complaint.unbound? : Complaint → Option Text
  | unbound written => some written
  | _ => none

namespace Finding

/-- The place and the text of the symbol that a finding finds unbound. -/
def use? (found : Finding) : Option (Span × Text) := found.complaint.unbound?.map (found.span, ·)

/-- Whether a finding remains when some names are bound: not if it is the use of one of them. -/
def stands (bound : Text → Bool) (found : Finding) : Bool :=
  found.complaint.unbound?.all fun written => !bound written.unquoted

theorem stands_or (bound bound' : Text → Bool) (found : Finding) :
    found.stands (fun name => bound name || bound' name) = (found.stands bound && found.stands bound') := by
  unfold stands
  cases found.complaint.unbound? with
  | none => rfl
  | some written =>
    simp only [Option.all_some]
    exact Bool.not_or ..

end Finding

/-! ## Effects -/

/-- An effect binds some names for the whole resource, and in the innermost frame no names but some
others; which ones does not matter `inside` a frame that is left before anyone looks. It finds the uses
of some symbols, apart from those that are bound by then, and what does not depend on names at all. -/
structure Effect.Fits (inside : Bool) (here everywhere : List Text) (uses : List (Span × Text)) (e : Effect) :
    Prop where
  here : inside = false → e.bound ⊆ here
  everywhere : ∀ name, name ∈ e.top ↔ name ∈ everywhere
  found : ∃ found : List Finding, (found.filterMap Finding.use?).Sublist uses ∧
    ∀ s : Scope, e.report s = found.filter (·.stands s.contains)

namespace Effect.Fits

variable {inside : Bool} {here here' everywhere everywhere' : List Text} {uses uses' : List (Span × Text)} {e e' : Effect}

theorem none : (Effect.none).Fits inside [] [] [] where
  here _ := List.Subset.refl _
  everywhere _ := .rfl
  found := ⟨[], .refl _, fun _ => rfl⟩

theorem mono (h : e.Fits inside here everywhere uses) (hhere : here ⊆ here') : e.Fits inside here' everywhere uses :=
  { h with here := fun hinside => List.Subset.trans (h.here hinside) hhere }

/-- What an effect has bound, the next one does not find unbound. -/
theorem seq (h : e.Fits inside here everywhere uses) (h' : e'.Fits inside here' everywhere' uses') :
    (e.seq e').Fits inside (here ++ here') (everywhere ++ everywhere') (uses ++ uses') where
  here hinside := by
    refine List.append_subset.mpr ⟨?_, ?_⟩
    · exact List.subset_append_of_subset_right here (h'.here hinside)
    · exact List.subset_append_of_subset_left here' (h.here hinside)
  everywhere name := by
    show name ∈ e'.top ++ e.top ↔ _
    rw [List.mem_append, List.mem_append, h.everywhere, h'.everywhere, or_comm]
  found := by
    obtain ⟨found, huses, hreport⟩ := h.found
    obtain ⟨found', huses', hreport'⟩ := h'.found
    let bound (name : Text) : Bool := decide (name ∈ e.bound ∨ name ∈ e.top)
    refine ⟨found ++ found'.filter (·.stands bound), ?_, fun s => ?_⟩
    · rw [List.filterMap_append]
      exact huses.append ((List.filter_sublist.filterMap _).trans huses')
    · have hcontains : (s.extend e.bound e.top).contains = fun name => s.contains name || bound name := by
        funext name
        rw [Bool.eq_iff_iff, Scope.contains_extend, Bool.or_eq_true, decide_eq_true_eq]
      show e.report s ++ e'.report _ = _
      rw [hreport, hreport', hcontains, List.filter_append, List.filter_filter]
      simp only [Finding.stands_or]

/-- Outside a frame it does not matter what was bound in it. -/
theorem framed (h : e.Fits true here everywhere uses) (names : List Text) :
    (e.framed names).Fits inside [] everywhere uses where
  here _ := List.Subset.refl _
  everywhere := h.everywhere
  found := by
    obtain ⟨found, huses, hreport⟩ := h.found
    let bound (name : Text) : Bool := decide (name ∈ names)
    refine ⟨found.filter (·.stands bound), (List.filter_sublist.filterMap _).trans huses, fun s => ?_⟩
    have hcontains : (s.enter names).contains = fun name => s.contains name || bound name := by
      funext name
      rw [Bool.eq_iff_iff, Scope.contains_enter, Bool.or_eq_true, decide_eq_true_eq, or_comm]
    show e.report (s.enter names) = _
    rw [hreport, hcontains, List.filter_filter]
    simp only [Finding.stands_or]

theorem binding (bound top : List Text) : (Effect.binding bound top).Fits inside bound top [] where
  here _ := List.Subset.refl _
  everywhere _ := .rfl
  found := ⟨[], .refl _, fun _ => rfl⟩

theorem finding (span : Span) (complaint : Complaint) (h : ∀ written, complaint ≠ .unbound written) :
    (Effect.finding span complaint h).Fits inside [] [] [] where
  here _ := List.Subset.refl _
  everywhere _ := .rfl
  found := by
    have hnone : complaint.unbound? = Option.none := by
      cases complaint with
      | unbound written => exact absurd rfl (h written)
      | _ => rfl
    refine ⟨[⟨span, complaint⟩], ?_, fun s => ?_⟩
    · simp [Finding.use?, hnone]
    · simp [Effect.finding, Finding.stands, hnone]

theorem use (span : Span) (written : Text) : (Effect.use span written).Fits inside [] [] [(span, written)] where
  here _ := List.Subset.refl _
  everywhere _ := .rfl
  found := by
    refine ⟨[⟨span, .unbound written⟩], .refl _, fun s => ?_⟩
    cases hbound : s.contains written.unquoted <;> simp [Effect.use, Finding.stands, Complaint.unbound?, hbound]

end Effect.Fits

/-! ## Walks -/

namespace Walk

variable {inside : Bool} {here here' everywhere everywhere' : List Text} {uses uses' : List (Span × Text)}
  {act next : Walk → Walk}

/-- A walk has an effect that fits. -/
def Fits (inside : Bool) (here everywhere : List Text) (uses : List (Span × Text)) (act : Walk → Walk) : Prop :=
  ∃ e : Effect, e.Fits inside here everywhere uses ∧ ∀ w, act w = w.after e

namespace Fits

theorem nothing : Fits inside [] [] [] fun w => w := ⟨.none, .none, fun w => w.after_none.symm⟩

theorem comp (h : Fits inside here everywhere uses act) (hnext : Fits inside here' everywhere' uses' next) :
    Fits inside (here ++ here') (everywhere ++ everywhere') (uses ++ uses') fun w => next (act w) := by
  obtain ⟨e, hfits, he⟩ := h
  obtain ⟨e', hfits', he'⟩ := hnext
  refine ⟨e.seq e', hfits.seq hfits', fun w => ?_⟩
  show next (act w) = _
  rw [he, he', after_seq]

theorem framed (h : Fits true here everywhere uses act) (names : List Text) :
    Fits inside [] everywhere uses fun w => (act (w.enter names)).leave := by
  obtain ⟨e, hfits, he⟩ := h
  refine ⟨e.framed names, hfits.framed names, fun w => ?_⟩
  show (act (w.enter names)).leave = _
  rw [he, leave_after_enter]

theorem report (span : Span) {complaint : Complaint} (h : complaint.unbound? = none) :
    Fits inside [] [] [] (·.report span complaint) := by
  have hother : ∀ written, complaint ≠ .unbound written := by
    rintro written rfl
    cases h
  exact ⟨_, .finding span complaint hother, fun w => by simp [Walk.report, after, Effect.finding]⟩

theorem bind (name : Text) : Fits inside [name] [] [] (·.bind name) :=
  ⟨_, .binding [name] [], fun w => by simp [Walk.bind, after, Effect.binding, Scope.bind_eq_extend]⟩

theorem bindTop (name : Text) : Fits inside [] [name] [] (·.bindTop name) :=
  ⟨_, .binding [] [name], fun w => by simp [Walk.bindTop, after, Effect.binding, Scope.bindTop_eq_extend]⟩

theorem bindAll (names : List Text) : Fits inside names [] [] fun w => { w with scope := w.scope.bindAll names } := by
  have hfits : (Effect.binding names.reverse []).Fits inside names.reverse [] [] := .binding _ _
  refine ⟨_, hfits.mono (List.reverse_subset.mpr (List.Subset.refl names)), fun w => ?_⟩
  simp [after, Effect.binding, Scope.bindAll_eq_extend]

theorem foldl {step : Walk → Form → Walk} {here everywhere : Form → List Text} {items : List Form}
    (h : ∀ item ∈ items, Fits inside (here item) (everywhere item) [] (step · item)) :
    Fits inside (items.flatMap here) (items.flatMap everywhere) [] fun w => items.foldl step w := by
  induction items with
  | nil => exact nothing
  | cons item items ih =>
    exact (h item List.mem_cons_self).comp (ih fun item hitem => h item (List.mem_cons_of_mem _ hitem))

end Fits

/-! ## Imports -/

theorem fits_importOnly (item : Form) : Fits inside [] item.name?.toList [] (·.importOnly item) := by
  unfold importOnly
  cases item.name? with
  | none => exact .report _ rfl
  | some name => exact .bindTop name

theorem fits_importRenamed (pair : Form) : Fits inside pair.otherName?.toList [] [] (·.importRenamed pair) := by
  cases pair with
  | sexpr span items =>
    unfold importRenamed
    dsimp only
    split
    · exact .bind _
    · rename_i hother
      rw [Form.otherName?_eq_none hother]
      exact .report _ rfl
  | symbol | string | list | struct | other => exact .report _ rfl

theorem fits_importOnlyAll (items : List Form) :
    Fits inside [] (items.filterMap Form.name?) [] fun w => items.foldl importOnly w := by
  have hitems : Fits inside (items.flatMap fun _ => []) (items.flatMap fun item => item.name?.toList) []
      fun w => items.foldl importOnly w := .foldl fun item _ => fits_importOnly item
  rwa [List.flatMap_eq_nil_iff.mpr fun _ _ => rfl, ← List.filterMap_eq_flatMap_toList] at hitems

theorem fits_importRenamedAll (pairs : List Form) :
    Fits inside (pairs.filterMap Form.otherName?) [] [] fun w => pairs.foldl importRenamed w := by
  have hpairs : Fits inside (pairs.flatMap fun pair => pair.otherName?.toList) (pairs.flatMap fun _ => []) []
      fun w => pairs.foldl importRenamed w := .foldl fun pair _ => fits_importRenamed pair
  rwa [List.flatMap_eq_nil_iff (f := fun _ => []).mpr fun _ _ => rfl, ← List.filterMap_eq_flatMap_toList] at hpairs

/-- The head of an import that names a module tells how it names what it imports. -/
theorem fits_importForm_of_module (span span' : Span) (name : Text) (head : Form) (items : List Form) :
    Fits inside (Form.sexpr span (head :: .string span' name :: items)).renamed
      (Form.sexpr span (head :: .string span' name :: items)).listed []
      (·.importForm span (head :: .string span' name :: items)) := by
  have hlisted : (Form.sexpr span (head :: .string span' name :: items)).listed =
      if head.symbol? = some (utf8 "only_in") then items.filterMap Form.name? else [] := rfl
  have hrenamed : (Form.sexpr span (head :: .string span' name :: items)).renamed =
      if head.symbol? = some (utf8 "rename_in") then items.filterMap Form.otherName? else [] := rfl
  rw [hlisted, hrenamed]
  unfold importForm
  simp only [beq_iff_eq]
  by_cases honly : head.symbol? = some (utf8 "only_in")
  · have hrename : ¬head.symbol? = some (utf8 "rename_in") := by rw [honly]; decide
    simp only [if_pos honly, if_neg hrename]
    exact fits_importOnlyAll items
  · by_cases hrename : head.symbol? = some (utf8 "rename_in")
    · simp only [if_neg honly, if_pos hrename]
      exact fits_importRenamedAll items
    · simp only [if_neg honly, if_neg hrename]
      split <;> exact .report _ rfl

theorem fits_importForm (span : Span) (items : List Form) :
    Fits inside (Form.sexpr span items).renamed (Form.sexpr span items).listed [] (·.importForm span items) := by
  cases items with
  | nil => exact .report _ rfl
  | cons head rest =>
    by_cases hmodule : ∃ (span : Span) (name : Text) (items : List Form), rest = .string span name :: items
    · obtain ⟨span', name, items, rfl⟩ := hmodule
      exact fits_importForm_of_module span span' name head items
    · have hother : ∀ (span : Span) (name : Text) (items : List Form), rest = .string span name :: items → False :=
        fun span name items h => hmodule ⟨span, name, items, h⟩
      rw [(Form.importNames_eq_nil hother).1, (Form.importNames_eq_nil hother).2]
      -- without a module, every branch only reports
      unfold importForm
      dsimp only
      split
      · split
        · exact (hother _ _ _ rfl).elim
        · exact .report _ rfl
      · split
        · split
          · exact (hother _ _ _ rfl).elim
          · exact .report _ rfl
        · split <;> exact .report _ rfl

theorem fits_importArgument (idx : Index) (f : Form) :
    Fits inside (f.provided idx ++ f.renamed) f.listed [] (importArgument idx · f) := by
  cases f with
  | string span name =>
    simp only [importArgument, Form.provided]
    cases idx.module? name with
    | none => exact .report _ rfl
    | some m =>
      simp only [Option.elim_some, Form.renamed, List.append_nil]
      exact .bindAll _
  | sexpr span items => exact fits_importForm span items
  | symbol | list | struct | other => exact .report _ rfl

/-! ## Forms -/

variable {idx : Index} {f : Form} {fs vs vs' : List Form} {quoted : Bool}

/-- A walk does what some forms do that it comes to. -/
def Visits (idx : Index) (inside : Bool) (vs : List Form) (act : Walk → Walk) : Prop :=
  Fits inside (vs.flatMap (Form.locals idx)) (vs.flatMap Form.globals) (vs.filterMap Form.use?) act

namespace Visits

theorem nothing : Visits idx inside [] fun w => w := Fits.nothing

theorem comp (h : Visits idx inside vs act) (hnext : Visits idx inside vs' next) :
    Visits idx inside (vs ++ vs') fun w => next (act w) := by
  unfold Visits
  rw [List.flatMap_append, List.flatMap_append, List.filterMap_append]
  exact Fits.comp h hnext

theorem framed (h : Visits idx true vs act) (names : List Text) :
    Visits idx inside vs fun w => (act (w.enter names)).leave := by
  obtain ⟨e, hfits, he⟩ := Fits.framed h names
  exact ⟨e, hfits.mono (List.nil_subset _), he⟩

/-- What a form does itself that is no symbol. -/
theorem single (huse : f.use? = none) (h : Fits inside (f.locals idx) f.globals [] act) : Visits idx inside [f] act := by
  unfold Visits
  rw [List.flatMap_singleton, List.flatMap_singleton, List.filterMap_cons_none huse]
  exact h

/-- In a frame of its own, a walk may bind names. -/
theorem bind (name : Text) : Visits idx true [] (·.bind name) := by
  obtain ⟨e, hfits, he⟩ : Fits true [name] [] [] (·.bind name) := .bind name
  exact ⟨e, { hfits with here := nofun }, he⟩

end Visits

/-- A walk over a form does what the forms do that it comes to, in a frame of its own or not. -/
def VisitsPart (idx : Index) (part : Bool × Form) : Prop :=
  ∀ inside, Visits idx inside (part.2.visits part.1) (check idx part.1 · part.2)

theorem visits_checkAll (h : ∀ part ∈ fs.map (quoted, ·), VisitsPart idx part) :
    Visits idx inside (Form.visitsOf (fs.map (quoted, ·))) (checkAll idx quoted · fs) := by
  induction fs with
  | nil => exact .nothing
  | cons f fs ih =>
    obtain ⟨hf, hfs⟩ := List.forall_mem_cons.mp h
    exact (hf inside).comp (ih hfs)

theorem visits_checkBar (h : ∀ part ∈ (Form.afterBar fs).map (false, ·), VisitsPart idx part) :
    Visits idx true (Form.visitsOf ((Form.afterBar fs).map (false, ·))) (checkBar idx · fs) := by
  induction fs with
  | nil => exact .nothing
  | cons f fs ih =>
    unfold Form.afterBar at h ⊢
    unfold checkBar
    cases hname : f.name? with
    | none =>
      rw [hname] at h
      exact ih h
    | some name =>
      rw [hname] at h
      dsimp only
      by_cases hbar : name = utf8 "|"
      · rw [if_pos (congrArg some hbar)] at h ⊢
        simp only [if_pos (beq_iff_eq.mpr hbar)]
        exact visits_checkAll h
      · rw [if_neg fun heq => hbar (Option.some.inj heq)] at h ⊢
        simp only [if_neg fun heq => hbar (beq_iff_eq.mp heq)]
        exact (Visits.bind name).comp (ih h)

/-- The names of bindings are bound in a frame of their own, if they are bound in turn. -/
theorem visits_checkPairs {inTurn : Bool} {pairs : List Form} (hinside : inTurn = true → inside = true)
    (h : ∀ part ∈ (pairs.flatMap Form.bindingValues).map (false, ·), VisitsPart idx part) :
    Visits idx inside (Form.visitsOf ((pairs.flatMap Form.bindingValues).map (false, ·)))
      (checkPairs idx inTurn · pairs) := by
  induction pairs with
  | nil => exact .nothing
  | cons pair pairs ih =>
    rw [List.flatMap_cons, List.map_append, List.forall_mem_append] at h
    rw [List.flatMap_cons, List.map_append, Form.visitsOf_append]
    have hpairs := ih h.2
    cases pair with
    | sexpr span items =>
      cases items with
      | nil => exact hpairs
      | cons first values =>
        have hname : Visits idx inside [] fun w => if inTurn then first.name?.elim w w.bind else w := by
          cases inTurn with
          | false => exact .nothing
          | true =>
            obtain rfl := hinside rfl
            cases first.name? with
            | none => exact .nothing
            | some name => exact .bind name
        unfold checkPairs
        exact (visits_checkAll h.1).comp (hname.comp hpairs)
    | symbol | string | list | struct | other => exact hpairs

theorem visits_openLet {values body : Walk → Walk} {keyword : Keyword} (pairs : List Form)
    (hvalues : ∀ inside, (keyword != .plainLet → inside = true) → Visits idx inside vs values)
    (hbody : ∀ inside, Visits idx inside vs' body) :
    Visits idx inside (vs ++ vs') fun w => (body (w.openLet keyword pairs values)).leave := by
  have hframed (names : List Text) : Visits idx inside (vs ++ vs') fun w =>
      (body (values (w.enter names))).leave := ((hvalues true fun _ => rfl).comp (hbody true)).framed names
  unfold openLet
  dsimp only
  split
  · exact (hvalues inside nofun).comp ((hbody true).framed _)
  · exact hframed _
  · exact hframed _

theorem visits_checkLet (keyword : Keyword) (h : ∀ part ∈ (Form.letParts fs).map (false, ·), VisitsPart idx part) :
    Visits idx inside (Form.visitsOf ((Form.letParts fs).map (false, ·))) (checkLet idx keyword · fs) := by
  have hbindings (pairs body : List Form)
      (h : ∀ part ∈ (pairs.flatMap Form.bindingValues ++ body).map (false, ·), VisitsPart idx part) :
      Visits idx inside (Form.visitsOf ((pairs.flatMap Form.bindingValues ++ body).map (false, ·))) fun w =>
        (checkAll idx false (w.openLet keyword pairs (checkPairs idx (keyword != .plainLet) · pairs)) body).leave := by
    rw [List.map_append, List.forall_mem_append] at h
    rw [List.map_append, Form.visitsOf_append]
    exact visits_openLet pairs (fun _ hinside => visits_checkPairs hinside h.1) fun _ => visits_checkAll h.2
  cases fs with
  | nil => exact .nothing
  | cons f body =>
    cases f with
    | list span pairs | sexpr span pairs => exact hbindings pairs body h
    | symbol | string | struct | other => exact (visits_checkAll h).framed []

theorem visits_checkLambda (h : ∀ part ∈ fs.tail.map (false, ·), VisitsPart idx part) :
    Visits idx inside (Form.visitsOf (fs.tail.map (false, ·))) (checkLambda idx · fs) := by
  cases fs with
  | nil => exact .nothing
  | cons params body => exact (visits_checkAll h).framed _

theorem visits_checkModule (h : ∀ part ∈ (fs.drop 2).map (false, ·), VisitsPart idx part) :
    Visits idx inside (Form.visitsOf ((fs.drop 2).map (false, ·))) (checkModule idx · fs) := by
  match fs with
  | [] | [_] => exact .nothing
  | _ :: _ :: body => exact visits_checkAll h

/-- A form that neither introduces a name nor is a symbol does nothing itself. -/
theorem visits_pass (hdefine : f.keyword? ≠ some .define) (hpublic : f.keyword? ≠ some .definePublic)
    (hrequire : f.keyword? ≠ some .require) (huse : f.use? = none) : Visits idx inside [f] fun w => w := by
  have himports : f.imports = [] := if_neg hrequire
  have hdefined : f.defined? = none := by
    unfold Form.defined?
    split
    · contradiction
    · contradiction
    · rfl
  refine .single huse ?_
  rw [Form.locals, Form.globals, himports, hdefined]
  exact .nothing

theorem check_of_call (hkeyword : f.keyword? = none) (huse : f.use? = none) (w : Walk) :
    check idx quoted w f = checkAll idx quoted w f.items := by
  cases f with
  | sexpr span items =>
    cases items with
    | nil => rfl
    | cons head rest =>
      have hnone : ∀ keyword, head.name?.map Keyword.ofText? ≠ some (some keyword) := by
        intro keyword heq
        obtain ⟨name, hname, hkeyword'⟩ := Option.map_eq_some_iff.mp heq
        rw [Form.keyword?, hname, Option.bind_some, hkeyword'] at hkeyword
        cases hkeyword
      unfold check checkSexpr
      split
      · rename_i hsome
        exact absurd hsome (hnone _)
      · rfl
  | list | struct | string | other => rfl
  | symbol => cases huse

/-- Walks over a form with a keyword at its head. -/
def checkKeyword (idx : Index) (w : Walk) (f : Form) : Keyword → Walk
  | .define | .definePublic => checkDefine idx w f.arguments
  | .lambda => checkLambda idx w f.arguments
  | .bar => (checkBar idx (w.enter []) f.arguments).leave
  | .plainLet => checkLet idx .plainLet w f.arguments
  | .sequentialLet => checkLet idx .sequentialLet w f.arguments
  | .recursiveLet => checkLet idx .recursiveLet w f.arguments
  | .moduleForm => checkModule idx w f.arguments
  | .provide | .quote => w
  | .quasiquote => checkAll idx true w f.arguments
  | .require => f.arguments.foldl (importArgument idx) w
  | .unquote => checkAll idx false w f.items

theorem check_of_keyword {keyword : Keyword} (hkeyword : f.keyword? = some keyword) (w : Walk) :
    check idx quoted w f =
      if quoted then checkAll idx (keyword != .unquote) w f.arguments else checkKeyword idx w f keyword := by
  cases f with
  | sexpr span items =>
    cases items with
    | nil => cases hkeyword
    | cons head rest =>
      obtain ⟨name, hname, hkeyword'⟩ := Option.bind_eq_some_iff.mp hkeyword
      have hsome : head.name?.map Keyword.ofText? = some (some keyword) := by rw [hname, Option.map_some, hkeyword']
      unfold check checkSexpr
      rw [hsome]
      cases keyword <;> rfl
  | symbol | string | list | struct | other => cases hkeyword

theorem definition_fst (target : Form) : (definition target).1 = target.targetName? := by
  cases target with
  | sexpr span items => cases items <;> rfl
  | symbol | string | list | struct | other => rfl

/-- A symbol is a use of its name, unless it is quoted. -/
theorem visits_symbol {use : Span × Text} (huse : f.use? = some use) :
    Visits idx inside ((if quoted then [] else [f]) ++ Form.visitsOf (f.items.map (quoted, ·))) (check idx quoted · f) := by
  cases f with
  | symbol span written =>
    unfold check
    cases quoted with
    | true => exact .nothing
    | false =>
      refine ⟨.use span written, .use span written, fun w => ?_⟩
      cases hbound : w.scope.contains written.unquoted <;> simp [after, Effect.use, Walk.report, hbound]
  | string | sexpr | list | struct | other => cases huse

/-- A definition binds its name, and its parameters around its body. -/
theorem visits_define (hkeyword : f.keyword? = some .define ∨ f.keyword? = some .definePublic)
    (h : ∀ part ∈ f.arguments.tail.map (false, ·), VisitsPart idx part) :
    Visits idx inside ([f] ++ Form.visitsOf (f.arguments.tail.map (false, ·))) (checkDefine idx · f.arguments) := by
  have hdefined : f.defined? = f.arguments.head?.bind Form.targetName? := by
    unfold Form.defined?
    rcases hkeyword with hkeyword | hkeyword <;> rw [hkeyword]
  have himports : f.imports = [] := if_neg (by rcases hkeyword with hkeyword | hkeyword <;> simp [hkeyword])
  have hself : Visits idx inside [f] fun w => f.defined?.elim w w.bindTop := by
    have huse : f.use? = none := by rcases hkeyword with hkeyword | hkeyword <;> exact Form.use?_of_keyword hkeyword
    refine .single huse ?_
    rw [Form.locals, Form.globals, himports]
    cases f.defined? with
    | none => exact .nothing
    | some name => exact .bindTop name
  cases harguments : f.arguments with
  | nil =>
    rw [harguments] at hdefined
    simp only [hdefined] at hself
    exact hself
  | cons target body =>
    rw [harguments] at hdefined h
    have hbody : Visits idx inside (Form.visitsOf (body.map (false, ·))) fun w =>
        (checkAll idx false (w.enter (definition target).2) body).leave := (visits_checkAll h).framed _
    have hboth := hself.comp hbody
    simp only [hdefined, List.head?_cons, Option.bind_some, ← definition_fst] at hboth
    exact hboth

/-- A require gives the names that its arguments import. -/
theorem visits_require (hkeyword : f.keyword? = some .require) :
    Visits idx inside [f] fun w => f.arguments.foldl (importArgument idx) w := by
  have himports : f.imports = f.arguments := if_pos hkeyword
  have hdefined : f.defined? = none := by rw [Form.defined?, hkeyword]
  refine .single (Form.use?_of_keyword hkeyword) ?_
  rw [Form.locals, Form.globals, himports, hdefined]
  exact .foldl fun argument _ => fits_importArgument idx argument

/-- A form is walked over as its keyword tells. -/
theorem visits_checkKeyword {keyword : Keyword} (hkeyword : f.keyword? = some keyword)
    (h : ∀ part ∈ f.keywordParts keyword, VisitsPart idx part) :
    Visits idx inside ([f] ++ Form.visitsOf (f.keywordParts keyword)) (checkKeyword idx · f keyword) := by
  have hpass (hother : keyword ≠ .define ∧ keyword ≠ .definePublic ∧ keyword ≠ .require) :
      Visits idx inside [f] fun w => w := by
    have hne : ∀ k, k ≠ keyword → f.keyword? ≠ some k := fun k hk heq =>
      hk (Option.some.inj (heq.symm.trans hkeyword))
    exact visits_pass (hne _ hother.1.symm) (hne _ hother.2.1.symm) (hne _ hother.2.2.symm) (Form.use?_of_keyword hkeyword)
  cases keyword with
  | define => exact visits_define (.inl hkeyword) h
  | definePublic => exact visits_define (.inr hkeyword) h
  | lambda => exact (hpass (by decide)).comp (visits_checkLambda h)
  | bar => exact (hpass (by decide)).comp ((visits_checkBar h).framed [])
  | plainLet | sequentialLet | recursiveLet => exact (hpass (by decide)).comp (visits_checkLet _ h)
  | moduleForm => exact (hpass (by decide)).comp (visits_checkModule h)
  | provide | quote => exact hpass (by decide)
  | require => exact visits_require hkeyword
  | quasiquote | unquote => exact (hpass (by decide)).comp (visits_checkAll h)

/-- A walk over a form does what the forms do that it comes to. -/
theorem visits_check (idx : Index) (quoted : Bool) (f : Form) : VisitsPart idx (quoted, f) := by
  induction quoted, f using Form.visits.induct with
  | case1 quoted f ih =>
    intro inside
    show Visits idx inside (f.visits quoted) (check idx quoted · f)
    replace ih : ∀ part ∈ f.parts quoted, VisitsPart idx part := fun part hpart => ih ⟨part, hpart⟩
    rw [Form.visits_eq]
    cases hkeyword : f.keyword? with
    | none =>
      unfold Form.parts at ih ⊢
      rw [hkeyword] at ih ⊢
      cases huse : f.use? with
      | some use => exact visits_symbol huse
      | none =>
        have hself : Visits idx inside (if quoted then [] else [f]) fun w => w := by
          cases quoted with
          | true => exact .nothing
          | false => exact visits_pass (by simp [hkeyword]) (by simp [hkeyword]) (by simp [hkeyword]) huse
        simp only [check_of_call hkeyword huse]
        exact hself.comp (visits_checkAll ih)
    | some keyword =>
      simp only [check_of_keyword hkeyword]
      unfold Form.parts at ih ⊢
      rw [hkeyword] at ih ⊢
      cases quoted with
      | true => exact visits_checkAll ih
      | false => exact visits_checkKeyword hkeyword ih

end Walk

/-- A walk over a file has one effect, that of the forms that it comes to. -/
theorem Index.exists_fits (idx : Index) (f : SourceFile) : ∃ e : Effect, idx.Does f.forms e ∧
    e.Fits false (f.visits.flatMap (Form.locals idx)) (f.visits.flatMap Form.globals) (f.visits.filterMap Form.use?) := by
  have hparts : ∀ part ∈ f.forms.map (false, ·), Walk.VisitsPart idx part := fun part _ => Walk.visits_check idx _ _
  obtain ⟨e, hfits, he⟩ : Walk.Visits idx false f.visits (Walk.checkAll idx false · f.forms) :=
    Walk.visits_checkAll hparts
  exact ⟨e, he, hfits⟩

/-- What is found in a file does not depend on what is bound, except that the uses of bound names are
missing. The uses are those of symbols that the walk comes to. -/
theorem Index.exists_found (idx : Index) (f : SourceFile) : ∃ found : List Finding,
    (found.filterMap Finding.use?).Sublist (f.visits.filterMap Form.use?) ∧
    ∀ s : Scope, idx.problemsOf s f = (found.filter (·.stands s.contains)).map fun found =>
      ⟨f, found.span, found.complaint⟩ := by
  obtain ⟨e, he, hfits⟩ := idx.exists_fits f
  obtain ⟨found, huses, hreport⟩ := hfits.found
  refine ⟨found, huses, fun s => ?_⟩
  rw [problemsOf, he, ← hreport]
  rfl

/-! ## What is visible after a walk -/

namespace Scope

/-- The scope that is left when some frames are. -/
def outer (s : Scope) (depth : Nat) : Scope := { s with frames := s.frames.drop depth }

/-- Extending a scope binds names in its innermost frame, and others in all scopes around it. -/
theorem contains_outer_extend (s : Scope) (bound top : List Text) (depth : Nat) (name : Text) :
    ((s.extend bound top).outer depth).contains name = true ↔
      (s.outer depth).contains name = true ∨ (depth = 0 ∧ name ∈ bound) ∨ name ∈ top := by
  cases depth with
  | zero =>
    have houter (s : Scope) : s.outer 0 = s := rfl
    rw [houter, houter, contains_extend]
    simp only [true_and]
  | succ depth =>
    have hframes : (s.extend bound top).frames.drop (depth + 1) = s.frames.drop (depth + 1) := by
      obtain ⟨frames, topLevel⟩ := s
      cases frames with
      | cons => rfl
      | nil => cases bound <;> simp [extend]
    have htop : (s.extend bound top).topLevel = top ++ s.topLevel := by
      obtain ⟨frames, topLevel⟩ := s
      cases frames <;> rfl
    simp only [contains_iff, outer, hframes, htop, List.mem_append]
    grind

end Scope

/-- After a walk over a form, what was visible before is, in its scope and in those around it. What else
is visible there was introduced for the whole resource by a form that the walk comes to, or, in the
innermost frame alone, where that form stands. -/
theorem Walk.contains_check (idx : Index) (quoted : Bool) (w : Walk) (f : Form) (depth : Nat) (name : Text) :
    ((w.scope.outer depth).contains name = true → ((check idx quoted w f).scope.outer depth).contains name = true) ∧
    (((check idx quoted w f).scope.outer depth).contains name = true →
      (w.scope.outer depth).contains name = true ∨
      ∃ g ∈ f.subforms, g ∈ f.visits quoted ∧ (name ∈ g.globals ∨ depth = 0 ∧ name ∈ g.locals idx)) := by
  obtain ⟨e, hfits, he⟩ := visits_check idx quoted f false
  have hscope : (check idx quoted w f).scope = w.scope.extend e.bound e.top := congrArg Walk.scope (he w)
  have hbelow : ∀ g ∈ f.visits quoted, g ∈ f.subforms := fun g hg => (Form.visits_sublist quoted f).subset hg
  rw [hscope, Scope.contains_outer_extend]
  refine ⟨.inl, fun h => ?_⟩
  rcases h with hbefore | ⟨hdepth, hbound⟩ | htop
  · exact .inl hbefore
  · obtain ⟨g, hg, hname⟩ := List.mem_flatMap.mp (hfits.here rfl hbound)
    exact .inr ⟨g, hbelow g hg, hg, .inr ⟨hdepth, hname⟩⟩
  · obtain ⟨g, hg, hname⟩ := List.mem_flatMap.mp ((hfits.everywhere name).mp htop)
    exact .inr ⟨g, hbelow g hg, hg, .inl hname⟩

-- `(define (f x) x)` leaves its name behind, and not its parameter
example :
    let symbol (written : String) : Form := .symbol ⟨0, 0⟩ (utf8 written)
    let f : Form := .sexpr ⟨0, 0⟩ [symbol "define", .sexpr ⟨0, 0⟩ [symbol "f", symbol "x"], symbol "x"]
    let s := (Walk.check {} false { scope := .ofNames [] } f).scope
    s.contains (utf8 "f") = true ∧ s.contains (utf8 "x") = false := by decide +kernel

end FusionKit
