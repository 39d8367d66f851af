import FusionKit.Proofs.Failing
import FusionKit.Proofs.Faults
import FusionKit.Proofs.Provenance

/-!
# Where loading fails

What is wrong in a file is known by a span, and spans do not tell which file they are of. Each file resolves
its own, and leaves the failures of the modules that it needs as they are; so the location of a failure is in
the file that it is about, however many others wait for that file.
-/
set_option autoImplicit false

namespace FusionKit

/-! ## Faults of a source -/

/-- What is malformed in a file is a node of it. -/
theorem SourceFile.Misuses.mem_spansOf {file : SourceFile} {m : Misuse} (h : file.Misuses m) :
    m.span ∈ Node.spansOf file.nodes := by
  cases h with
  | form h => exact mem_spansOf_of_places h (Directive.span_mem_places rfl)
  | imports h => exact mem_spansOf_of_places h (Directive.span_mem_places rfl)
  | @unknown before after span inner outer hsplit =>
    have hmem : .provideAs span inner outer ∈ file.directives := hsplit ▸ List.mem_append_cons_self
    exact mem_spansOf_of_places hmem (Directive.span_mem_places rfl)

/-- A source is wrong at a location in a way that a text tells: the parser refuses it there, or a node stands
there that is malformed in the file with this source. -/
inductive SourceFault (name source : Text) : Location → Text → Prop where
  | refused {e : SyntaxError} (h : parse name source = .error e) : SourceFault name source e.location e.fault.message
  | directive {file : SourceFile} {m : Misuse} (hname : file.name = name) (hsource : file.source = source)
    (hparsed : file.Parsed) (hm : file.Misuses m) (hspan : m.span ∈ Node.spansOf file.nodes) :
    SourceFault name source (file.locate m.span.start) m.fault.message

/-- The location of a fault is in its file, and the one that the source gives to its offset. -/
theorem SourceFault.located {name source text : Text} {location : Location} (h : SourceFault name source location text) :
    location.file = name ∧ 0 ≤ location.pos ∧ location.pos ≤ source.length ∧
      location = Location.locate name source location.pos := by
  cases h with
  | @refused e h =>
    obtain ⟨hlocate, hpos⟩ := (parse_refused name source).1 e h
    exact ⟨by rw [hlocate]; rfl, hpos.1, hpos.2, hlocate⟩
  | @directive file m hname hsource hparsed hm hspan =>
    obtain ⟨⟨hstart, hstop, hend⟩, -⟩ := hparsed.hasSpan hspan
    subst hname hsource
    have hpos : (file.locate m.span.start).pos = m.span.start := min_eq_left (hstop.trans hend)
    rw [hpos]
    exact ⟨rfl, hstart, hstop.trans hend, rfl⟩

/-! ## What failures tell -/

/-- A failure is never one that is known by a span alone. If it has a location, then one in a file that was
read, where this file has a fault; and the location is the one that the source of the file gives to its
offset. -/
structure Failure.PointsInto (f : Failure) (t : FileTree) (reads : Text → Text → Prop) : Prop where
  resolved : ∀ span message, f.cause ≠ .spanned span message
  located : ∀ location text, f.place? = some (location, text) →
    ∃ path source, reads path location.file ∧ t.read path = .ok source ∧
      SourceFault location.file source location text ∧ 0 ≤ location.pos ∧ location.pos ≤ source.length ∧
      location = Location.locate location.file source location.pos

namespace Failure.PointsInto

variable {r : Repository} {t : FileTree} {reads reads' : Text → Text → Prop} {f : Failure}

theorem mono (h : f.PointsInto t reads) (hreads : ∀ path name, reads path name → reads' path name) :
    f.PointsInto t reads' := by
  refine ⟨h.resolved, fun location text hplace => ?_⟩
  obtain ⟨path, source, hread, hfault⟩ := h.located location text hplace
  exact ⟨path, source, hreads _ _ hread, hfault⟩

/-- A failure that has no location points into no file. -/
theorem of_other (text : Text) : (Failure.other text).PointsInto t reads := ⟨nofun, nofun⟩

theorem of_fault {path name source text : Text} {location : Location} (hcause : f.cause = .located location text)
    (hread : reads path name) (hsource : t.read path = .ok source) (hfault : SourceFault name source location text) :
    f.PointsInto t reads := by
  refine ⟨fun span message h => ?_, fun location' text' hplace => ?_⟩
  · rw [hcause] at h
    cases h
  · unfold Failure.place? at hplace
    rw [hcause] at hplace
    obtain ⟨rfl, rfl⟩ := Prod.mk.inj (Option.some.inj hplace)
    obtain ⟨hfile, hpos, hlength, hlocate⟩ := hfault.located
    subst hfile
    exact ⟨path, source, hread, hsource, hfault, hpos, hlength, hlocate⟩

end Failure.PointsInto

/-- A file that was read has the name and the source with which it was. -/
theorem SourceFile.source_of_read {t : FileTree} {path name : Text} {file : SourceFile}
    (h : SourceFile.read t path name = .ok file) : t.read path = .ok file.source ∧ file.name = name := by
  obtain ⟨source, nodes, hread, -, rfl⟩ := SourceFile.read_eq_ok.mp h
  exact ⟨hread, rfl⟩

section

variable {r : Repository} {t : FileTree} {reads : Text → Text → Prop} {path packagePath : Text} {f : Failure}
  {modulePaths : List Text}

/-- A failure to name a module has no location. -/
theorem Repository.pointsInto_of_moduleName (h : r.moduleName path = .error f) : f.PointsInto t reads := by
  unfold moduleName at h
  dsimp only at h
  split at h
  · obtain rfl := Except.error.inj h
    exact .of_other _
  · split at h
    · obtain rfl := Except.error.inj h
      exact .of_other _
    · cases h

/-- What makes loading fail points into a file that was read, or into none. -/
theorem Repository.Fails.pointsInto (h : r.Fails t reads f) : f.PointsInto t reads := by
  cases h with
  | unreadable => exact ⟨nofun, nofun⟩
  | unparsed hread hsource he => exact .of_fault rfl hread hsource (.refused he)
  | @misused path name file m hread hfile hm =>
    obtain ⟨hsource, hname⟩ := SourceFile.source_of_read hfile
    exact .of_fault rfl hread hsource (.directive hname rfl (parsed_of_read hfile) hm hm.mem_spansOf)
  | missing => exact ⟨nofun, nofun⟩
  | nameless he => exact pointsInto_of_moduleName he
  | circular name => exact .of_other _

theorem Repository.pointsInto_of_ofPackage (h : Repository.ofPackage t packagePath modulePaths = .error f) :
    f.PointsInto t reads := by
  unfold ofPackage at h
  dsimp only at h
  split at h
  · obtain rfl := Except.error.inj h
    exact ⟨nofun, nofun⟩
  · obtain rfl := Except.error.inj h
    exact .of_other _
  · cases h

theorem FileTree.pointsInto_of_sources {dir : Text} (h : t.sources dir = .error f) : f.PointsInto t reads := by
  unfold sources filesEnding at h
  cases hfiles : t.filesBelow dir sourceEnding with
  | error e =>
    rw [hfiles] at h
    obtain rfl := Except.error.inj h
    exact ⟨nofun, nofun⟩
  | ok paths =>
    rw [hfiles] at h
    cases h

end

/-- The files that are read for a package, with their names in messages. -/
def Settings.Reads (settings : Settings) (t : FileTree) (packagePath path name : Text) : Prop :=
  ∃ r c, settings.Calls t packagePath r c ∧ r.Reads t (c.Starts r t) path name

theorem Settings.Fails.pointsInto {settings : Settings} {t : FileTree} {packagePath : Text} {f : Failure}
    (h : settings.Fails t packagePath f) : f.PointsInto t (settings.Reads t packagePath) := by
  cases h with
  | package h => exact Repository.pointsInto_of_ofPackage h
  | folder h => exact FileTree.pointsInto_of_sources h
  | @call r c f hc h => exact h.pointsInto.mono fun _ _ hread => ⟨r, c, hc, hread⟩

/-- Whatever a loader has done before: when a call of it fails, or a package cannot be loaded, the failure has
been resolved, and if it has a location, then one in a file that was read, of a fault in this file. -/
theorem failures_point_into_files (t : FileTree) (s : LoadState) :
    (∀ (r : Repository) (c : LoadCall) (f : Failure), ((c.perform r t).run s).1 = .error f →
      f.PointsInto t (r.Reads t (c.Starts r t))) ∧
    ∀ (settings : Settings) (packagePath : Text) (f : Failure),
      ((settings.loadPackage t packagePath).run s).1 = .error f → f.PointsInto t (settings.Reads t packagePath) :=
  ⟨fun r c f hf => ((c.failsAs_perform r t).failure s f hf).pointsInto,
    fun settings packagePath f hf => ((settings.failsAs_loadPackage t packagePath).failure s f hf).pointsInto⟩

/-- A module whose file imports another one, which in turn imports something that is no module. -/
def blamedModules : FileTree :=
  .ofModules (utf8 "(module a '/fusion/private/kernel' (require \"/b\"))")
    (utf8 "(module b '/fusion/private/kernel'\n (require 12))")

/-- The failure that is to be expected: it is about the other file. -/
def blamedFailure : Failure := .located ⟨utf8 "fusion/src/b.fusion", 45, 2, 11⟩ DirectiveFault.requireArgument.message

/-- Neither the module nor its package can be loaded. The failure has its location in the other file. -/
theorem failures_point_into_files_nested :
    let r := Repository.ofTwoModules
    let c := LoadCall.module (utf8 "/a")
    let settings := Settings.withModules (utf8 "fusion/src")
    ((c.perform r blamedModules).run {}).1 = .error blamedFailure ∧
    blamedFailure.PointsInto blamedModules (r.Reads blamedModules (c.Starts r blamedModules)) ∧
    ((settings.loadPackage blamedModules (utf8 "/")).run {}).1 = .error blamedFailure ∧
    blamedFailure.PointsInto blamedModules (settings.Reads blamedModules (utf8 "/")) := by
  intro r c settings
  have hcall : ((c.perform r blamedModules).run {}).1 = .error blamedFailure := by decide +kernel
  have hpackage : ((settings.loadPackage blamedModules (utf8 "/")).run {}).1 = .error blamedFailure := by
    rw [blamedModules, Settings.loadPackage_ofModules]
    decide +kernel
  obtain ⟨hcalls, hpackages⟩ := failures_point_into_files blamedModules {}
  exact ⟨hcall, hcalls r c _ hcall, hpackage, hpackages settings _ _ hpackage⟩

end FusionKit
