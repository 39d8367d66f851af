import FusionKit.Proofs.Growth
import FusionKit.Proofs.Packages

/-!
# The order of a package

A module is put after all that its file needs, so the modules of a loaded package stand in an order
in which each one imports earlier ones only, and no module imports itself over others.
-/
set_option autoImplicit false

namespace FusionKit

open Relation (TransGen)

/-- The module at one place imports that at another. -/
def Index.Imports (idx : Index) (i j : Nat) : Prop :=
  ∃ m, idx.modules[i]? = some m ∧ ∃ q ∈ m.requires, q.target = j

namespace Repository

variable {r : Repository} {t : FileTree} {idx idx' : Index} {m : Module}

/-- Where a module of an index comes from: it is the root, or was read off its file, which needs only
modules before it. -/
inductive Entry (r : Repository) (t : FileTree) (idx : Index) (m : Module) : Prop where
  | root (hbody : m.toModuleBody = rootModule)
  | file {path : Text} {file : SourceFile} {sum : Summary} (hroot : m.name ≠ rootModule.name)
    (h : r.Readable t idx m.id m.name path file sum) (hbody : m.toModuleBody = file.moduleOf m.name sum)

theorem Entry.mono (h : r.Entry t idx m) (hid : m.id ≤ idx.modules.length) (hg : idx.Extends idx') :
    r.Entry t idx' m := by
  cases h with
  | root hbody => exact .root hbody
  | file hroot h hbody => exact .file hroot (h.mono hid hg) hbody

theorem Entry.target_lt (h : r.Entry t idx m) : ∀ q ∈ m.requires, q.target < m.id := by
  cases h with
  | root hbody =>
    rw [hbody]
    exact fun q hq => absurd hq List.not_mem_nil
  | file _ h hbody =>
    rw [hbody]
    exact h.target_lt

/-- A module with a new name is put at the end. -/
theorem entry_of_new {body : ModuleBody} (hnew : idx.moduleId? body.name = none)
    (hm : m ∈ (idx.putModule body).2.modules) : m = { body with id := idx.modules.length } ∨ m ∈ idx.modules := by
  have hplace : (Index.place idx.moduleIds idx.modules body.name ({ body with id := · } : Nat → Module)).1 =
      idx.modules.length := by
    unfold Index.place
    split
    · rename_i hid
      exact absurd (hnew.symm.trans hid) (by simp)
    · rfl
  rcases Index.mem_place hm with h | h
  · exact .inl (hplace ▸ h)
  · exact .inr h

theorem Addition.entries {marks : List Text} (h : r.Addition t marks idx idx') (hs : idx.Sound)
    (hentries : ∀ m ∈ idx.modules, r.Entry t idx m) : ∀ m ∈ idx'.modules, r.Entry t idx' m := by
  have hg := (h.grows hs).extends
  have hold : ∀ m ∈ idx.modules, r.Entry t idx' m := by
    intro m hm
    obtain ⟨id, hid⟩ := List.getElem?_of_mem hm
    refine (hentries m hm).mono ?_ hg
    rw [(hs.modules.entry id m hid).1]
    exact Nat.le_of_lt (List.getElem?_eq_some_iff.mp hid).1
  intro m hm
  cases h with
  | root =>
    rcases idx.root_cases with ⟨-, heq⟩ | ⟨hnew, heq⟩
    · rw [heq] at hm
      exact hold m hm
    · rw [heq] at hm
      rcases entry_of_new hnew hm with rfl | hm
      · exact .root rfl
      · exact hold m hm
  | module _ hroot hnew h =>
    rcases entry_of_new hnew hm with rfl | hm
    · exact .file hroot (h.mono (Nat.le_refl _) hg) rfl
    · exact hold m hm

/-- Every module of an index that was built is the root or was read off its file. -/
theorem Built.entries (h : r.Built t idx) : ∀ m ∈ idx.modules, r.Entry t idx m := by
  induction h with
  | new => exact fun m hm => absurd hm List.not_mem_nil
  | added h hadd ih => exact hadd.entries h.sound ih
  | @script idx b h _ ih =>
    intro m hm
    obtain ⟨id, hid⟩ := List.getElem?_of_mem hm
    refine (ih m hm).mono ?_ (idx.extends_putScript b)
    rw [(h.sound.modules.entry id m hid).1]
    exact Nat.le_of_lt (List.getElem?_eq_some_iff.mp hid).1

/-- Every script of an index that was built was read off its file, which needs only modules that are
there. -/
theorem Built.scripts (h : r.Built t idx) : ∀ b ∈ idx.scripts, r.ReadableScript t idx b.toScriptBody := by
  induction h with
  | new => exact fun b hb => absurd hb List.not_mem_nil
  | added h hadd ih =>
    have hg := hadd.grows h.sound
    exact fun b hb => (ih b (hg.scripts ▸ hb)).mono hg.extends
  | script h hb ih =>
    intro b hmem
    rcases Index.mem_place hmem with rfl | hmem
    · exact hb.mono (Index.extends_putScript _ _)
    · exact (ih b hmem).mono (Index.extends_putScript _ _)

end Repository

/-- A module that is imported over others stands before the one that imports it. -/
theorem Index.lt_of_imports {idx : Index} (hs : idx.Sound) (h : ∀ m ∈ idx.modules, ∀ q ∈ m.requires, q.target < m.id)
    {i j : Nat} (hij : TransGen idx.Imports i j) : j < i := by
  have hstep : ∀ {i j : Nat}, idx.Imports i j → j < i := by
    rintro i j ⟨m, hm, q, hq, rfl⟩
    rw [← (hs.modules.entry i m hm).1]
    exact h m (List.mem_of_getElem? hm) q hq
  induction hij with
  | single h => exact hstep h
  | tail _ h ih => exact (hstep h).trans ih

/-- The modules of a loaded package stand in an order in which each imports earlier ones only, so no
module imports itself over others. -/
theorem Settings.imports_earlier_of_loadPackage {settings : Settings} {t : FileTree} {packagePath : Text}
    {r : Repository} {s : LoadState} (h : (settings.loadPackage t packagePath).run {} = (.ok r, s))
    (hroot : r.LeavesRoot t) :
    (∀ m ∈ s.index.modules, ∀ q ∈ m.requires, q.target < m.id) ∧
    (∀ i j, TransGen s.index.Imports i j → j < i) ∧ ∀ i, ¬ TransGen s.index.Imports i i := by
  have hbuilt := (builtState_of_loadPackage h hroot).2
  have htarget : ∀ m ∈ s.index.modules, ∀ q ∈ m.requires, q.target < m.id :=
    fun m hm => (hbuilt.entries m hm).target_lt
  have hlt := fun i j hij => Index.lt_of_imports hbuilt.sound htarget (i := i) (j := j) hij
  exact ⟨htarget, hlt, fun i hi => Nat.lt_irrefl i (hlt i i hi)⟩

theorem Settings.imports_earlier_of_loadPackage_twoModules :
    ∃ s, (Settings.default.loadPackage twoModules (utf8 "/")).run {} = (.ok .ofTwoModules, s) ∧
      Repository.ofTwoModules.LeavesRoot twoModules ∧ s.index.Imports 2 1 ∧ ¬ s.index.Imports 1 2 := by
  have hnames : ∀ path ∈ twoModules.filePaths,
      Repository.ofTwoModules.moduleName path ≠ .ok rootModule.name := by decide +kernel
  have hleaves : Repository.ofTwoModules.LeavesRoot twoModules := fun path hpath _ => hnames path hpath
  have hrun : let out := (Settings.default.loadPackage twoModules (utf8 "/")).run {}
      out.1.toOption = some .ofTwoModules ∧
      (out.2.index.modules[2]?.any fun m => m.requires.any (·.target == 1)) = true := by
    rw [loadPackage_twoModules]
    decide +kernel
  generalize hout : (Settings.default.loadPackage twoModules (utf8 "/")).run {} = out at hrun ⊢
  obtain ⟨hresult, hrequires⟩ := hrun
  obtain ⟨e | r, s⟩ := out
  · cases hresult
  · obtain rfl := Option.some.inj hresult
    obtain ⟨-, hbefore, -⟩ := imports_earlier_of_loadPackage hout hleaves
    obtain ⟨m, hm, hrequires⟩ := (Option.any_eq_true _ _).mp hrequires
    obtain ⟨q, hq, htarget⟩ := List.any_eq_true.mp hrequires
    have himports : s.index.Imports 2 1 := ⟨m, hm, q, hq, beq_iff_eq.mp htarget⟩
    exact ⟨s, rfl, hleaves, himports, fun hback => absurd (hbefore 1 2 (.single hback)) (by decide)⟩

end FusionKit
