import Mathlib.Data.List.Basic
import FusionKit.Proofs.Requires

/-!
# The effect of a walk

A walk over forms does the same wherever it starts: it binds names in the innermost frame and for the
whole resource, and which ones does not depend on those that are bound before. What it finds does, but
on nothing else. This is its `Effect`, and every walk is put together from a few of them.

Of the index a walk sees the names that the modules provide which it asks for, so in two indices that
agree on them it has one effect. `Acts` says this of two walks.
-/
set_option autoImplicit false

namespace FusionKit

/-! ## Extended scopes -/

namespace Scope

/-- Binds names in the innermost frame and others for the whole resource. -/
def extend (s : Scope) (bound top : List Text) : Scope :=
  match s.frames with
  | frame :: frames => ⟨(bound ++ frame) :: frames, top ++ s.topLevel⟩
  | [] => ⟨if bound.isEmpty then [] else [bound], top ++ s.topLevel⟩

variable (s : Scope) (bound top bound' top' names : List Text) (name : Text)

theorem contains_iff : s.contains name = true ↔ (∃ frame ∈ s.frames, name ∈ frame) ∨ name ∈ s.topLevel := by
  simp [contains]

theorem contains_extend :
    (s.extend bound top).contains name = true ↔ s.contains name = true ∨ name ∈ bound ∨ name ∈ top := by
  obtain ⟨frames, topLevel⟩ := s
  simp only [contains_iff]
  cases frames with
  | cons frame frames =>
    simp only [extend, List.mem_cons, exists_eq_or_imp, List.mem_append]
    grind
  | nil =>
    cases bound with
    | nil => simp [extend, or_comm]
    | cons =>
      simp only [extend, List.isEmpty_cons, List.mem_append]
      grind

theorem contains_enter : (s.enter names).contains name = true ↔ name ∈ names ∨ s.contains name = true := by
  simp [contains_iff, enter, or_assoc]

@[simp] theorem extend_nil : s.extend [] [] = s := by
  obtain ⟨frames, topLevel⟩ := s
  cases frames <;> rfl

theorem extend_extend : (s.extend bound top).extend bound' top' = s.extend (bound' ++ bound) (top' ++ top) := by
  obtain ⟨frames, topLevel⟩ := s
  cases frames with
  | cons => simp [extend]
  | nil => cases bound <;> simp [extend]

theorem bind_eq_extend : s.bind name = s.extend [name] [] := by
  obtain ⟨frames, topLevel⟩ := s
  cases frames <;> rfl

theorem bindTop_eq_extend : s.bindTop name = s.extend [] [name] := by
  obtain ⟨frames, topLevel⟩ := s
  cases frames <;> rfl

theorem bindAll_eq_extend : s.bindAll names = s.extend names.reverse [] := by
  induction names generalizing s with
  | nil => exact s.extend_nil.symm
  | cons name names ih =>
    rw [bindAll, List.foldl_cons, ← bindAll, ih, bind_eq_extend, extend_extend, List.reverse_cons, List.append_nil]

/-- What was bound in a frame goes with it. -/
theorem leave_extend_enter : ((s.enter names).extend bound top).leave = s.extend [] top := by
  obtain ⟨frames, topLevel⟩ := s
  cases frames <;> rfl

end Scope

/-! ## Effects -/

/-- What a walk does: names it binds in the innermost frame, others for the whole resource, and what
it finds, which depends only on the names that are bound. What it finds to be unbound was not bound
before. -/
@[ext] structure Effect where
  bound : List Text
  top : List Text
  report : Scope → List Finding
  report_eq : ∀ s s', (∀ name, s.contains name = s'.contains name) → report s = report s'
  not_bound : ∀ s, ∀ found ∈ report s, ∀ written, found.complaint = .unbound written →
    s.contains written.unquoted = false

namespace Effect

/-- Doing nothing. -/
protected def none : Effect := ⟨[], [], fun _ => [], fun _ _ _ => rfl, by simp⟩

/-- Binding names. -/
def binding (bound top : List Text) : Effect := ⟨bound, top, fun _ => [], fun _ _ _ => rfl, by simp⟩

/-- A finding, whatever is bound. -/
def finding (span : Span) (complaint : Complaint) (h : ∀ written, complaint ≠ .unbound written) : Effect where
  bound := []
  top := []
  report _ := [⟨span, complaint⟩]
  report_eq _ _ _ := rfl
  not_bound s found hfound written hunbound := by
    rw [List.mem_singleton.mp hfound] at hunbound
    exact absurd hunbound (h written)

/-- The use of a name, which is found if it is not bound. -/
def use (span : Span) (written : Text) : Effect where
  bound := []
  top := []
  report s := if s.contains written.unquoted then [] else [⟨span, .unbound written⟩]
  report_eq s s' h := by rw [h]
  not_bound s found hfound other hunbound := by
    split at hfound
    · contradiction
    · rename_i hfree
      rw [List.mem_singleton.mp hfound] at hunbound
      rw [← Complaint.unbound.inj hunbound]
      exact Bool.eq_false_iff.mpr hfree

theorem contains_extend_congr {s s' : Scope} (h : ∀ name, s.contains name = s'.contains name) (bound top : List Text)
    (name : Text) : (s.extend bound top).contains name = (s'.extend bound top).contains name := by
  rw [Bool.eq_iff_iff, Scope.contains_extend, Scope.contains_extend, h]

/-- One after the other. -/
protected def seq (e e' : Effect) : Effect where
  bound := e'.bound ++ e.bound
  top := e'.top ++ e.top
  report s := e.report s ++ e'.report (s.extend e.bound e.top)
  report_eq s s' h := by rw [e.report_eq s s' h, e'.report_eq _ _ (contains_extend_congr h e.bound e.top)]
  not_bound s found hfound written hunbound := by
    rcases List.mem_append.mp hfound with hfound | hfound
    · exact e.not_bound s found hfound written hunbound
    · have hextended := e'.not_bound _ found hfound written hunbound
      rw [Bool.eq_false_iff] at hextended ⊢
      exact fun hbound => hextended ((Scope.contains_extend ..).mpr (.inl hbound))

/-- In a frame with some names. -/
def framed (names : List Text) (e : Effect) : Effect where
  bound := []
  top := e.top
  report s := e.report (s.enter names)
  report_eq s s' h := e.report_eq _ _ fun name => by
    rw [Bool.eq_iff_iff, Scope.contains_enter, Scope.contains_enter, h]
  not_bound s found hfound written hunbound := by
    have hentered := e.not_bound _ found hfound written hunbound
    rw [Bool.eq_false_iff] at hentered ⊢
    exact fun hbound => hentered ((Scope.contains_enter ..).mpr (.inr hbound))

end Effect

/-- A walk after an effect. -/
def Walk.after (w : Walk) (e : Effect) : Walk :=
  ⟨w.scope.extend e.bound e.top, w.findings ++ e.report w.scope⟩

/-- Two walks have one effect. -/
def Acts (act act' : Walk → Walk) : Prop := ∃ e : Effect, ∀ w, act w = w.after e ∧ act' w = w.after e

section

variable {act act' next next' : Walk → Walk}

theorem Walk.after_none (w : Walk) : w.after .none = w := by
  obtain ⟨s, findings⟩ := w
  simp [after, Effect.none]

theorem Walk.after_seq (w : Walk) (e e' : Effect) : (w.after e).after e' = w.after (e.seq e') := by
  simp [after, Effect.seq, Scope.extend_extend]

theorem Walk.leave_after_enter (w : Walk) (names : List Text) (e : Effect) :
    ((w.enter names).after e).leave = w.after (e.framed names) := by
  simp [after, Effect.framed, enter, leave, Scope.leave_extend_enter]

namespace Acts

theorem of_effect {e : Effect} (h : ∀ w, act w = w.after e) : Acts act act := ⟨e, fun w => ⟨h w, h w⟩⟩

theorem refl : Acts (fun w => w) fun w => w := of_effect fun w => w.after_none.symm

theorem comp (h : Acts act act') (hnext : Acts next next') : Acts (fun w => next (act w)) fun w => next' (act' w) := by
  obtain ⟨e, he⟩ := h
  obtain ⟨e', he'⟩ := hnext
  refine ⟨e.seq e', fun w => ⟨?_, ?_⟩⟩
  · show next (act w) = _
    rw [(he w).1, (he' _).1, Walk.after_seq]
  · show next' (act' w) = _
    rw [(he w).2, (he' _).2, Walk.after_seq]

theorem framed (h : Acts act act') (names : List Text) :
    Acts (fun w => (act (w.enter names)).leave) fun w => (act' (w.enter names)).leave := by
  obtain ⟨e, he⟩ := h
  refine ⟨e.framed names, fun w => ⟨?_, ?_⟩⟩
  · show (act (w.enter names)).leave = _
    rw [(he _).1, Walk.leave_after_enter]
  · show (act' (w.enter names)).leave = _
    rw [(he _).2, Walk.leave_after_enter]

theorem report (span : Span) {complaint : Complaint} (h : ∀ written, complaint ≠ .unbound written) :
    Acts (·.report span complaint) (·.report span complaint) :=
  of_effect (e := .finding span complaint h) fun w => by simp [Walk.report, Walk.after, Effect.finding]

theorem bind (name : Text) : Acts (·.bind name) (·.bind name) :=
  of_effect (e := .binding [name] []) fun w => by
    simp [Walk.bind, Walk.after, Effect.binding, Scope.bind_eq_extend]

theorem bindTop (name : Text) : Acts (·.bindTop name) (·.bindTop name) :=
  of_effect (e := .binding [] [name]) fun w => by
    simp [Walk.bindTop, Walk.after, Effect.binding, Scope.bindTop_eq_extend]

theorem bindAll (names : List Text) :
    Acts (fun w => { w with scope := w.scope.bindAll names }) fun w => { w with scope := w.scope.bindAll names } :=
  of_effect (e := .binding names.reverse []) fun w => by
    simp [Walk.after, Effect.binding, Scope.bindAll_eq_extend]

/-- Binding a name, if there is one. -/
theorem elim {bind : Walk → Text → Walk} (h : ∀ name, Acts (bind · name) (bind · name)) (name : Option Text) :
    Acts (fun w => name.elim w (bind w)) fun w => name.elim w (bind w) := by
  cases name with
  | none => exact refl
  | some name => exact h name

theorem foldl {step step' : Walk → Form → Walk} {items : List Form}
    (h : ∀ item ∈ items, Acts (step · item) (step' · item)) :
    Acts (fun w => items.foldl step w) fun w => items.foldl step' w := by
  induction items with
  | nil => exact refl
  | cons item items ih => exact (h item List.mem_cons_self).comp (ih fun item hitem => h item (List.mem_cons_of_mem _ hitem))

end Acts

end

/-! ## The walk -/

/-- Whether the modules with a name provide the same names in two indices, or there is none in both. -/
def Index.Offers (idx idx' : Index) (name : Text) : Prop :=
  (idx.module? name).map (·.provides.names) = (idx'.module? name).map (·.provides.names)

namespace Walk

variable {idx idx' : Index}

theorem acts_importOnly (item : Form) : Acts (·.importOnly item) (·.importOnly item) := by
  unfold importOnly
  cases item.name? with
  | none => exact .report _ nofun
  | some name => exact .bindTop name

theorem acts_importRenamed (item : Form) : Acts (·.importRenamed item) (·.importRenamed item) := by
  unfold importRenamed
  split
  · split
    · exact .bind _
    · exact .report _ nofun
  · exact .report _ nofun

theorem acts_importForm (span : Span) (items : List Form) : Acts (·.importForm span items) (·.importForm span items) := by
  cases items with
  | nil => exact .report _ nofun
  | cons head rest =>
    unfold importForm
    dsimp only
    split
    · split
      · exact .foldl fun item _ => acts_importOnly item
      · exact .report _ nofun
    · split
      · split
        · exact .foldl fun item _ => acts_importRenamed item
        · exact .report _ nofun
      · split <;> exact .report _ nofun

theorem acts_importArgument (f : Form) (h : ∀ name ∈ f.string?, idx.Offers idx' name) :
    Acts (importArgument idx · f) (importArgument idx' · f) := by
  cases f with
  | string span name =>
    have hname : idx.Offers idx' name := h name rfl
    unfold Index.Offers at hname
    simp only [importArgument]
    cases hm : idx.module? name with
    | none =>
      rw [hm] at hname
      rw [Option.map_eq_none_iff.mp hname.symm]
      exact .report _ nofun
    | some m =>
      rw [hm] at hname
      obtain ⟨m', hm', hnames⟩ := Option.map_eq_some_iff.mp hname.symm
      simp only [hm', hnames]
      exact .bindAll _
  | sexpr span items => exact acts_importForm span items
  | symbol | list | struct | other => exact .report _ nofun

theorem acts_openLet {values values' : Walk → Walk} (keyword : Keyword) (pairs : List Form)
    (hvalues : Acts values values') {body body' : Walk → Walk} (hbody : Acts body body') :
    Acts (fun w => (body (w.openLet keyword pairs values)).leave)
      fun w => (body' (w.openLet keyword pairs values')).leave := by
  unfold openLet
  dsimp only
  split
  · exact hvalues.comp (hbody.framed _)
  · exact (hvalues.comp hbody).framed _
  · exact (hvalues.comp hbody).framed _

mutual

/-- A walk over a form has one effect, in indices whose modules that it asks for provide the same. -/
theorem acts_check (quoted : Bool) : ∀ f : Form, (∀ name ∈ f.wanted quoted, idx.Offers idx' name) →
    Acts (check idx quoted · f) (check idx' quoted · f)
  | .symbol span written, _ => by
    unfold check
    cases quoted with
    | true => exact .refl
    | false =>
      refine .of_effect (e := .use span written) fun w => ?_
      cases hbound : w.scope.contains written.unquoted <;> simp [Walk.after, Effect.use, Walk.report, hbound]
  | .string _ _, _ => .refl
  | .other _, _ => .refl
  | .list _ items, h => acts_checkAll quoted items h
  | .struct _ items, h => acts_checkAll quoted items h
  | .sexpr _ items, h => acts_checkSexpr quoted items h

theorem acts_checkAll (quoted : Bool) : ∀ fs : List Form, (∀ name ∈ Form.wantedOf quoted fs, idx.Offers idx' name) →
    Acts (checkAll idx quoted · fs) (checkAll idx' quoted · fs)
  | [], _ => .refl
  | f :: fs, h =>
    (acts_check quoted f fun name hname => h name (List.mem_append_left _ hname)).comp
      (acts_checkAll quoted fs fun name hname => h name (List.mem_append_right _ hname))

theorem acts_checkSexpr (quoted : Bool) : ∀ fs : List Form,
    (∀ name ∈ Form.sexprWanted quoted fs, idx.Offers idx' name) →
    Acts (checkSexpr idx quoted · fs) (checkSexpr idx' quoted · fs)
  | [], _ => .refl
  | head :: rest, h => by
    have hboth (quoted : Bool)
        (h : ∀ name ∈ head.wanted quoted ++ Form.wantedOf quoted rest, idx.Offers idx' name) :=
      (acts_check quoted head fun name hname => h name (List.mem_append_left _ hname)).comp
        (acts_checkAll quoted rest fun name hname => h name (List.mem_append_right _ hname))
    unfold Form.sexprWanted at h
    unfold checkSexpr
    generalize head.name?.map Keyword.ofText? = keyword? at h ⊢
    rcases keyword? with _ | _ | keyword
    · exact hboth quoted h
    · exact hboth quoted h
    cases quoted with
    | true => exact acts_checkAll _ rest h
    | false =>
      cases keyword with
      | define | definePublic => exact acts_checkDefine rest h
      | lambda => exact acts_checkLambda rest h
      | bar => exact (acts_checkBar rest h).framed []
      | plainLet => exact acts_checkLet .plainLet rest h
      | sequentialLet => exact acts_checkLet .sequentialLet rest h
      | recursiveLet => exact acts_checkLet .recursiveLet rest h
      | moduleForm => exact acts_checkModule rest h
      | provide | quote => exact .refl
      | quasiquote => exact acts_checkAll true rest h
      | require =>
        refine .foldl fun item hitem => acts_importArgument item fun name hname => h name ?_
        exact List.mem_filterMap.mpr ⟨item, hitem, hname⟩
      | unquote => exact hboth false h

theorem acts_checkDefine : ∀ fs : List Form, (∀ name ∈ Form.bodyWanted fs, idx.Offers idx' name) →
    Acts (checkDefine idx · fs) (checkDefine idx' · fs)
  | [], _ => .refl
  | target :: body, h =>
    (Acts.elim .bindTop (definition target).1).comp ((acts_checkAll false body h).framed (definition target).2)

theorem acts_checkLambda : ∀ fs : List Form, (∀ name ∈ Form.bodyWanted fs, idx.Offers idx' name) →
    Acts (checkLambda idx · fs) (checkLambda idx' · fs)
  | [], _ => .refl
  | params :: body, h => (acts_checkAll false body h).framed (parameters params)

theorem acts_checkBar : ∀ fs : List Form, (∀ name ∈ Form.barWanted fs, idx.Offers idx' name) →
    Acts (checkBar idx · fs) (checkBar idx' · fs)
  | [], _ => .refl
  | f :: fs, h => by
    unfold Form.barWanted at h
    unfold checkBar
    cases hname : f.name? with
    | none =>
      rw [hname] at h
      exact acts_checkBar fs h
    | some name =>
      rw [hname] at h
      dsimp only
      by_cases hbar : name = utf8 "|"
      · rw [if_pos (congrArg some hbar)] at h
        simp only [if_pos (beq_iff_eq.mpr hbar)]
        exact acts_checkAll false fs h
      · rw [if_neg fun heq => hbar (Option.some.inj heq)] at h
        simp only [if_neg fun heq => hbar (beq_iff_eq.mp heq)]
        exact (Acts.bind name).comp (acts_checkBar fs h)

theorem acts_checkModule : ∀ fs : List Form, (∀ name ∈ Form.moduleWanted fs, idx.Offers idx' name) →
    Acts (checkModule idx · fs) (checkModule idx' · fs)
  | [], _ | [_], _ => .refl
  | _ :: _ :: body, h => acts_checkAll false body h

theorem acts_checkLet (keyword : Keyword) : ∀ fs : List Form,
    (∀ name ∈ Form.letWanted fs, idx.Offers idx' name) →
    Acts (checkLet idx keyword · fs) (checkLet idx' keyword · fs)
  | [], _ => .refl
  | .list _ pairs :: body, h | .sexpr _ pairs :: body, h =>
    acts_openLet keyword pairs (acts_checkPairs _ pairs fun name hname => h name (List.mem_append_left _ hname))
      (acts_checkAll false body fun name hname => h name (List.mem_append_right _ hname))
  | .symbol span written :: body, h =>
    ((acts_check false (.symbol span written) fun name hname => h name (List.mem_append_left _ hname)).comp
      (acts_checkAll false body fun name hname => h name (List.mem_append_right _ hname))).framed []
  | .string span text :: body, h =>
    ((acts_check false (.string span text) fun name hname => h name (List.mem_append_left _ hname)).comp
      (acts_checkAll false body fun name hname => h name (List.mem_append_right _ hname))).framed []
  | .struct span items :: body, h =>
    ((acts_check false (.struct span items) fun name hname => h name (List.mem_append_left _ hname)).comp
      (acts_checkAll false body fun name hname => h name (List.mem_append_right _ hname))).framed []
  | .other span :: body, h =>
    ((acts_check false (.other span) fun name hname => h name (List.mem_append_left _ hname)).comp
      (acts_checkAll false body fun name hname => h name (List.mem_append_right _ hname))).framed []

theorem acts_checkPairs (inTurn : Bool) : ∀ fs : List Form,
    (∀ name ∈ Form.pairsWanted fs, idx.Offers idx' name) →
    Acts (checkPairs idx inTurn · fs) (checkPairs idx' inTurn · fs)
  | [], _ => .refl
  | .sexpr _ (first :: values) :: pairs, h => by
    have hvalues := acts_checkAll false values fun name hname => h name (List.mem_append_left _ hname)
    have hpairs := acts_checkPairs inTurn pairs fun name hname => h name (List.mem_append_right _ hname)
    have hname : Acts (fun w => if inTurn then first.name?.elim w w.bind else w)
        fun w => if inTurn then first.name?.elim w w.bind else w := by
      cases inTurn with
      | false => exact .refl
      | true => exact .elim .bind first.name?
    unfold checkPairs
    exact hvalues.comp (hname.comp hpairs)
  | .sexpr _ [] :: pairs, h | .symbol .. :: pairs, h | .string .. :: pairs, h | .list .. :: pairs, h
  | .struct .. :: pairs, h | .other .. :: pairs, h => acts_checkPairs inTurn pairs h

end

end Walk

/-! ## Checks in two indices -/

namespace Index

variable {idx idx' : Index} {name : Text} {files : List SourceFile}

/-- Whether the modules with a name are in one language and provide the same names in two indices, or
there is none in both. -/
def Speaks (idx idx' : Index) (name : Text) : Prop :=
  (idx.module? name).map (fun m => (m.language, m.provides.names)) =
    (idx'.module? name).map fun m => (m.language, m.provides.names)

theorem Speaks.offers (h : idx.Speaks idx' name) : idx.Offers idx' name := by
  have hnames := congrArg (Option.map Prod.snd) h
  rwa [Option.map_map, Option.map_map] at hnames

theorem languagesFrom_eq (idx : Index) (seen : List Text) (name : Text) :
    idx.languagesFrom seen name =
      if name ∈ seen then []
      else (idx.module? name).elim [] fun m =>
        if name = rootModule.name || m.language.isEmpty then [m]
        else m :: idx.languagesFrom (name :: seen) m.language := by
  rw [languagesFrom]
  split
  · rfl
  · split
    · rename_i hm
      rw [hm]
      rfl
    · rename_i m hm
      simp only [hm, Option.elim_some]

/-- The languages of a module provide the same names in two indices, if all modules do that are
reached. -/
theorem languagesFrom_congr {S : Text → Prop} (hspeaks : ∀ name, S name → idx.Speaks idx' name)
    (hlanguage : ∀ name m, S name → idx.module? name = some m → name ≠ rootModule.name → m.language ≠ [] → S m.language)
    (seen : List Text) (hname : S name) :
    (idx'.languagesFrom seen name).map (·.provides.names) = (idx.languagesFrom seen name).map (·.provides.names) := by
  have hspeak := hspeaks name hname
  unfold Speaks at hspeak
  fun_induction idx.languagesFrom seen name with
  | case1 seen name hseen => rw [languagesFrom_eq, if_pos hseen, List.map_nil]
  | case2 seen name hseen hnone =>
    rw [hnone] at hspeak
    rw [languagesFrom_eq, if_neg hseen, Option.map_eq_none_iff.mp hspeak.symm, Option.elim_none, List.map_nil]
  | case3 seen name hseen m hm hlast =>
    rw [hm] at hspeak
    obtain ⟨m', hm', hsame⟩ := Option.map_eq_some_iff.mp hspeak.symm
    obtain ⟨hlang, hprovides⟩ := Prod.mk.inj hsame
    rw [languagesFrom_eq, if_neg hseen, hm', Option.elim_some, hlang, if_pos hlast, List.map_singleton,
      List.map_singleton, hprovides]
  | case4 seen name hseen m hm hlast _ ih =>
    rw [hm] at hspeak
    obtain ⟨m', hm', hsame⟩ := Option.map_eq_some_iff.mp hspeak.symm
    obtain ⟨hlang, hprovides⟩ := Prod.mk.inj hsame
    simp only [Bool.or_eq_true, decide_eq_true_eq, List.isEmpty_iff, not_or] at hlast
    have hnext := hlanguage name m hname hm hlast.1 hlast.2
    rw [languagesFrom_eq, if_neg hseen, hm', Option.elim_some, hlang, if_neg (by simpa using hlast), List.map_cons,
      List.map_cons, hprovides, ih hnext (hspeaks _ hnext)]

theorem namesOf_congr {S : Text → Prop} (hspeaks : ∀ name, S name → idx.Speaks idx' name)
    (hlanguage : ∀ name m, S name → idx.module? name = some m → name ≠ rootModule.name → m.language ≠ [] → S m.language)
    (hname : S name) : idx'.namesOf name = idx.namesOf name := by
  simp only [namesOf, List.flatMap_def, languagesFrom_congr hspeaks hlanguage [] hname]

/-- Files have the same problems in two indices, if the modules that they ask for provide the same. -/
theorem checkFiles_congr (h : ∀ f ∈ files, ∀ name ∈ f.wanted, idx.Offers idx' name) (names : List Text) :
    idx'.checkFiles names files = idx.checkFiles names files := by
  have hwalk : ∀ f ∈ files, ∀ w, Walk.checkAll idx' false w f.forms = Walk.checkAll idx false w f.forms := by
    intro f hf w
    obtain ⟨e, he⟩ := Walk.acts_checkAll false f.forms (h f hf)
    exact (he w).2.trans (he w).1.symm
  have hwalks (s : Scope) : idx'.walkFiles s files = idx.walkFiles s files :=
    List.foldl_ext _ _ s fun s f hf => by rw [hwalk f hf]
  have hproblems (s : Scope) : idx'.problemsIn s files = idx.problemsIn s files := by
    clear hwalks h
    induction files generalizing s with
    | nil => rfl
    | cons f files ih =>
      rw [problemsIn, problemsIn, hwalk f List.mem_cons_self, ih fun f hf => hwalk f (List.mem_cons_of_mem _ hf)]
  rw [checkFiles, checkFiles, hwalks, hproblems]

end Index

end FusionKit
