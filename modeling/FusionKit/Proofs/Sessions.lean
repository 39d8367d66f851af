import FusionKit.Editor
import FusionKit.Proofs.Places
import FusionKit.Proofs.Safety

/-!
# Sessions follow what they are told

An editor tells a session which documents it opens, changes and closes. At any time the session
holds of a document what it was told last, with the syntax error of just these contents, and what
it announced last of the document is that error, or nothing when there is none.
-/
set_option autoImplicit false

namespace FusionKit

/-! ## What is told -/

/-- The syntax error of a text. -/
def syntaxFailure? (path content : Text) : Option Failure :=
  match parse path content with
  | .error e => some (.ofSyntax e)
  | .ok _ => none

namespace Request

/-- What a request tells of the document with a name: nothing, that it is closed, or what it is. -/
def tells (uri : Text) : Request → Option (Option OpenDocument)
  | .opened d => if d.uri = uri then some (some d) else none
  | .changed name version texts =>
    if name = uri then some (some ⟨name, version, texts.getLastD []⟩) else none
  | .closed name => if name = uri then some none else none
  | _ => none

/-- Whether a request brings a connection over which announcements can go out. -/
def connects : Request → Bool
  | .start .. | .opened _ | .changed .. => true
  | _ => false

/-- All that is told of a document, in order. -/
def told (uri : Text) (rs : List Request) : List (Option OpenDocument) := rs.filterMap (tells uri)

variable {uri : Text} {r : Request} {rs : List Request}

theorem told_cons : told uri (r :: rs) = (r.tells uri).toList ++ told uri rs := by
  unfold told
  rw [List.filterMap_cons]
  cases r.tells uri <;> rfl

theorem getLast?_told_cons :
    (told uri (r :: rs)).getLast? = (told uri rs).getLast?.or (r.tells uri) := by
  rw [told_cons, List.getLast?_append]
  cases r.tells uri <;> rfl

end Request

/-- What is announced of a document of which something was told. -/
def Announcement.ofTold (uri : Text) : Option OpenDocument → Announcement
  | none => { uri }
  | some d =>
    match parse (pathOfUri uri) d.content with
    | .ok _ => { uri }
    | .error e => ⟨uri, [⟨.ofFailure (.ofSyntax e), e.fault.message⟩]⟩

theorem Announcement.uri_ofTold (uri : Text) (told : Option OpenDocument) :
    (ofTold uri told).uri = uri := by
  cases told with
  | none => rfl
  | some d =>
    rw [ofTold]
    cases parse (pathOfUri uri) d.content <;> rfl

/-- What is announced of one document is no news of another one. -/
theorem Announcement.filter_ofTold (name uri : Text) (told : Option OpenDocument) :
    [ofTold name told].filter (·.uri = uri) = if name = uri then [ofTold uri told] else [] := by
  rw [List.filter_singleton, uri_ofTold]
  by_cases hname : name = uri
  · rw [hname, if_pos rfl]
    simp
  · rw [if_neg hname]
    simp [hname]

/-- All that goes out with a reply. -/
def Reply.sent (r : Reply) : List Announcement := r.announcements ++ r.belated

/-! ## Documents as they are read -/

namespace OpenDocument

variable (d : OpenDocument)

/-- A document has its syntax error and no other: what parses has a layout. -/
theorem failure?_eq : d.failure? = syntaxFailure? (pathOfUri d.uri) d.content := by
  unfold failure? syntaxFailure?
  cases hparse : parse (pathOfUri d.uri) d.content with
  | error e => rfl
  | ok nodes =>
    obtain ⟨tree, htree, -⟩ := Node.layoutAll_placed (shaped_of_parse hparse)
    dsimp only
    rw [htree]

theorem sent_announce :
    (Editor.announce d.read).sent = [Announcement.ofTold d.uri (some d)] := by
  have hread : d.read.failure? = syntaxFailure? (pathOfUri d.uri) d.content := d.failure?_eq
  unfold Editor.announce
  rw [hread, syntaxFailure?, Announcement.ofTold]
  cases parse (pathOfUri d.uri) d.content <;> rfl

end OpenDocument

namespace Editor

/-! ## One request -/

/-- Every document is open under its own name. -/
def Named (e : Editor) : Prop := ∀ uri d, e.documents.get? uri = some d → d.uri = uri

variable {e : Editor} {uri : Text}

/-- A request to format a document is answered, and nothing else. -/
theorem act_formatting (e : Editor) (name : Text) :
    ∃ answer, e.act (.formatting name) = ({ answer }, e) := by
  unfold act
  dsimp only
  cases e.documents.get? name with
  | none => exact ⟨.nothing, rfl⟩
  | some d => exact ⟨editsFor e.settings d, rfl⟩

theorem Named.changed (h : e.Named) (version : Int) (content : Text) :
    e.changed uri version content = OpenDocument.read ⟨uri, version, content⟩ := by
  unfold Editor.changed
  cases hold : e.documents.get? uri with
  | none => rfl
  | some d =>
    have huri : d.uri = uri := h uri d hold
    show OpenDocument.read ⟨d.uri, version, content⟩ = _
    rw [huri]

theorem get?_put (d : ReadDocument) (name : Text) :
    (e.put name d).documents.get? uri = if uri = name then some d else e.documents.get? uri :=
  Table.get?_put

/-- What a request tells of a document is what the session holds of it, and other documents stay
as they are. -/
theorem Named.get?_act (h : e.Named) (r : Request) :
    (e.act r).2.documents.get? uri =
      ((r.tells uri).map (Option.map OpenDocument.read)).getD (e.documents.get? uri) := by
  cases r with
  | opened d =>
    show (e.put d.uri d.read).documents.get? uri = _
    rw [get?_put, Request.tells]
    by_cases hd : d.uri = uri
    · rw [if_pos hd, if_pos hd.symm]
      rfl
    · rw [if_neg hd, if_neg (Ne.symm hd)]
      rfl
  | changed name version texts =>
    show (e.put name (e.changed name version (texts.getLastD []))).documents.get? uri = _
    rw [get?_put, h.changed, Request.tells]
    by_cases hd : name = uri
    · rw [if_pos hd, if_pos hd.symm]
      rfl
    · rw [if_neg hd, if_neg (Ne.symm hd)]
      rfl
  | closed name =>
    show Table.get? (e.documents.filter (·.1 != name)) uri = _
    rw [Request.tells]
    by_cases hd : name = uri
    · rw [if_pos hd, hd, Table.get?_filter_self]
      rfl
    · rw [if_neg hd, Table.get?_filter_ne (Ne.symm hd)]
      rfl
  | formatting name =>
    obtain ⟨answer, hact⟩ := e.act_formatting name
    rw [hact]
    rfl
  | start | shutdown | exit | setTrace => rfl

/-- A request that tells what a document is opens it, or changes it. -/
theorem cases_of_tells {r : Request} {d : OpenDocument} (h : r.tells uri = some (some d)) :
    r = .opened d ∧ d.uri = uri ∨
      ∃ version texts, r = .changed uri version texts ∧ d = ⟨uri, version, texts.getLastD []⟩ := by
  cases r with
  | opened doc =>
    rw [Request.tells] at h
    split_ifs at h with huri
    cases h
    exact .inl ⟨rfl, huri⟩
  | changed name version texts =>
    rw [Request.tells] at h
    split_ifs at h with huri
    cases h
    subst huri
    exact .inr ⟨version, texts, rfl, rfl⟩
  | closed name =>
    rw [Request.tells] at h
    split_ifs at h
    cases h
  | start | shutdown | exit | setTrace | formatting => cases h

/-- What is told of a document with a name is a document with this name. -/
theorem uri_of_tells {r : Request} {d : OpenDocument} (h : r.tells uri = some (some d)) :
    d.uri = uri := by
  rcases cases_of_tells h with ⟨-, huri⟩ | ⟨version, texts, -, rfl⟩
  · exact huri
  · rfl

theorem Named.act (h : e.Named) (r : Request) : (e.act r).2.Named := by
  intro uri d hd
  rw [h.get?_act] at hd
  cases htells : r.tells uri with
  | none =>
    rw [htells] at hd
    exact h uri d hd
  | some told =>
    rw [htells] at hd
    obtain ⟨doc, rfl, rfl⟩ := Option.map_eq_some_iff.mp hd
    exact uri_of_tells htells

/-- A request that connects brings the connection, and no request ends it. -/
theorem isConnected_act (e : Editor) (r : Request) :
    (e.act r).2.isConnected = (e.isConnected || r.connects) := by
  cases r with
  | formatting name =>
    obtain ⟨answer, hact⟩ := e.act_formatting name
    rw [hact]
    exact (Bool.or_false _).symm
  | start | opened | changed => exact (Bool.or_true _).symm
  | shutdown | exit | setTrace | closed => exact (Bool.or_false _).symm

/-- Once there is a connection, all that is told of a document is announced. -/
theorem Named.sent_act (h : e.Named) (r : Request) :
    (e.act r).1.sent.filter (·.uri = uri) =
      if e.isConnected || r.connects then (r.tells uri).toList.map (.ofTold uri) else [] := by
  cases r with
  | opened d =>
    show (announce d.read).sent.filter (·.uri = uri) = _
    rw [OpenDocument.sent_announce, Announcement.filter_ofTold, Request.connects, Bool.or_true,
      if_pos rfl, Request.tells]
    split_ifs <;> rfl
  | changed name version texts =>
    show (announce (e.changed name version (texts.getLastD []))).sent.filter (·.uri = uri) = _
    rw [h.changed, OpenDocument.sent_announce, Announcement.filter_ofTold, Request.connects,
      Bool.or_true, if_pos rfl, Request.tells]
    split_ifs <;> rfl
  | closed name =>
    show (if e.isConnected then [Announcement.ofTold name none] else []).filter (·.uri = uri) = _
    have hconnects : (Request.closed name).connects = false := rfl
    rw [hconnects, Bool.or_false]
    cases e.isConnected with
    | false => rfl
    | true =>
      rw [if_pos rfl, if_pos rfl, Announcement.filter_ofTold, Request.tells]
      split_ifs <;> rfl
  | formatting name =>
    obtain ⟨answer, hact⟩ := e.act_formatting name
    rw [hact]
    show [] = _
    split <;> rfl
  | start | shutdown | exit | setTrace =>
    show [] = _
    split <;> rfl

/-! ## Many requests -/

/-- The replies to requests and the session after them. -/
def run (e : Editor) : List Request → List Reply × Editor
  | [] => ([], e)
  | r :: rs => ((e.act r).1 :: ((e.act r).2.run rs).1, ((e.act r).2.run rs).2)

/-- What goes out with replies about a document, in order. -/
def sentAbout (uri : Text) (replies : List Reply) : List Announcement :=
  (replies.flatMap Reply.sent).filter (·.uri = uri)

theorem sentAbout_cons (r : Reply) (rs : List Reply) :
    sentAbout uri (r :: rs) = r.sent.filter (·.uri = uri) ++ sentAbout uri rs := by
  unfold sentAbout
  rw [List.flatMap_cons, List.filter_append]

/-- What was told last of a document is what the session holds of it. -/
theorem Named.get?_run (h : e.Named) (rs : List Request) :
    (e.run rs).2.documents.get? uri =
      ((Request.told uri rs).getLast?.map (Option.map OpenDocument.read)).getD
        (e.documents.get? uri) := by
  induction rs generalizing e with
  | nil => rfl
  | cons r rs ih =>
    show ((e.act r).2.run rs).2.documents.get? uri = _
    rw [ih (h.act r), h.get?_act, Request.getLast?_told_cons]
    cases (Request.told uri rs).getLast? <;> rfl

/-- Of a document there goes out what is told of it from the first connection on. -/
theorem Named.sentAbout_run (h : e.Named) (rs : List Request) :
    sentAbout uri (e.run rs).1 =
      (Request.told uri (if e.isConnected then rs else rs.dropWhile (!·.connects))).map
        (.ofTold uri) := by
  induction rs generalizing e with
  | nil => cases e.isConnected <;> rfl
  | cons r rs ih =>
    show sentAbout uri ((e.act r).1 :: ((e.act r).2.run rs).1) = _
    rw [sentAbout_cons, h.sent_act, ih (h.act r), isConnected_act]
    cases hc : e.isConnected || r.connects with
    | true =>
      have hall : (if e.isConnected then r :: rs else (r :: rs).dropWhile (!·.connects)) = r :: rs := by
        split_ifs with he
        · rfl
        · have hr : r.connects = true := by simpa [he] using hc
          rw [List.dropWhile_cons, hr]
          rfl
      rw [hall, if_pos rfl, if_pos rfl, Request.told_cons, List.map_append]
    | false =>
      obtain ⟨he, hr⟩ := Bool.or_eq_false_iff.mp hc
      rw [he, List.dropWhile_cons, hr]
      rfl

/-- What a session is told of a document with a name is a document with this name. -/
theorem uri_of_told {rs : List Request} {d : OpenDocument} (h : some d ∈ Request.told uri rs) :
    d.uri = uri := by
  obtain ⟨r, -, hr⟩ := List.mem_filterMap.mp h
  exact uri_of_tells hr

/-- The state of a session follows what it was told of the documents. A document is open exactly
when it was opened or changed after it was closed last; it is then what it was told to be last,
with the syntax error of its contents. What went out about it last, if anything was told of it
since the first request that brings a connection, is that error, or nothing when there is none or
the document is closed. -/
theorem run_follows (s : Settings) (rs : List Request) (uri : Text) :
    (run { settings := s } rs).2.documents.get? uri =
        (Request.told uri rs).getLast?.join.map
          (fun d => ⟨d, syntaxFailure? (pathOfUri uri) d.content⟩) ∧
      (sentAbout uri (run { settings := s } rs).1).getLast? =
        (Request.told uri (rs.dropWhile (!·.connects))).getLast?.map (.ofTold uri) := by
  have hnamed : Named { settings := s } := by
    intro uri d hd
    cases hd
  constructor
  · rw [hnamed.get?_run]
    cases hlast : (Request.told uri rs).getLast? with
    | none => rfl
    | some told =>
      cases told with
      | none => rfl
      | some d =>
        have huri : d.uri = uri := uri_of_told (List.mem_of_getLast? hlast)
        show some (OpenDocument.read d) = some _
        rw [OpenDocument.read, d.failure?_eq, huri]
  · rw [hnamed.sentAbout_run, List.getLast?_map]
    rfl

/-- A document that was closed before anything was announced, then changed twice. -/
example :
    (sentAbout (utf8 "a") (run {} [.closed (utf8 "a"), .changed (utf8 "a") 1 [utf8 "("],
      .changed (utf8 "a") 2 [utf8 "()"]]).1).map (·.diagnostics.length) = [1, 0] := by
  decide +kernel

end Editor

end FusionKit
