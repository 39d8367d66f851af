import FusionKit.Proofs.Nesting

/-!
# Where a program is refused

The parser refuses a program at the token that it cannot read. Only at the end does it go back, to
the opening of the innermost open form. A fault of the scanner is the last token of a source, and
what cannot be read before it is refused first, so the end is never reached behind a fault.
-/
set_option autoImplicit false

namespace FusionKit

/-- A fault that the parser finds in the token before it: not one that it is told by the scanner,
nor an opening that it has to go back to. -/
def SyntaxFault.isOwn : SyntaxFault → Bool
  | noToken _ | unmatched _ => false
  | _ => true

/-- An error at a token: the fault of the scanner where the token is one. -/
structure SyntaxError.At (e : SyntaxError) (t : Token) : Prop where
  location : e.location = t.location
  fault : e.fault = .noToken t.text ∨ e.fault.isOwn = true
  passed : t.type = .error → e.fault = .noToken t.text
  own : t.type ∉ [TokenType.error, .invalid] → e.fault.isOwn = true

theorem SyntaxError.At.matched {e : SyntaxError} {t : Token} (h : e.At t) (opening : Text) :
    e.fault ≠ .unmatched opening := by
  intro hfault
  rcases h.fault with h | h <;> rw [hfault] at h <;> contradiction

namespace Reading

variable {r r' : Reading} {t : Token} {e : SyntaxError} {fs : List Frame} {o : Token}
  {as : List Text} {items : List Node} {ready : Bool}

/-! ## One token -/

theorem at_fail {fault : SyntaxFault} (h : (fail t fault : Except SyntaxError Reading) = .error e)
    (ht : t.type ≠ .error) (hown : fault.isOwn = true) : e.At t := by
  cases h
  exact ⟨rfl, .inr hown, fun herror => absurd herror ht, fun _ => hown⟩

theorem at_noToken (h : (fail t (.noToken t.text) : Except SyntaxError Reading) = .error e)
    (ht : t.type ∈ [TokenType.error, .invalid]) : e.At t := by
  cases h
  exact ⟨rfl, .inl rfl, fun _ => rfl, fun hnot => absurd ht hnot⟩

theorem at_failAt {fault : SyntaxFault} (h : (failAt t fault : Except SyntaxError Reading) = .error e)
    (hown : fault.isOwn = true) : e.At t := by
  unfold failAt at h
  split at h
  · rename_i ht
    exact at_noToken h (by simp [ht])
  · rename_i ht
    exact at_fail h ht hown

theorem value_error (h : r.value as t = .error e) : e.At t := by
  unfold Reading.value at h
  split at h
  · contradiction
  · split at h
    case h_5 ht => exact at_noToken h (by simp [ht])
    case h_6 ht => exact at_noToken h (by simp [ht])
    case h_7 ht => exact at_fail h (by simp [ht]) rfl
    case h_8 ht _ _ => exact at_fail h ht rfl
    all_goals contradiction

theorem expression_error (h : r.expression t = .error e) : e.At t := by
  unfold Reading.expression at h
  split at h
  · contradiction
  · exact value_error h

theorem annotated_error {p : Pending} (h : r.annotated p t = .error e) : e.At t := by
  unfold Reading.annotated at h
  split at h
  · contradiction
  · split at h
    · contradiction
    · exact value_error h
  · exact value_error h

/-- The error of a form that is open at the end. -/
def unmatchedAt (o : Token) : SyntaxError := ⟨o.location, .unmatched o.text⟩

theorem inClob_error (h : r.inClob fs o as items t = .error e) :
    e.At t ∨ t.type = .eof ∧ e = unmatchedAt o := by
  unfold Reading.inClob at h
  split at h
  case h_3 => exact .inl (value_error h)
  case h_4 => exact .inl (value_error h)
  case h_5 ht => exact .inl (at_noToken h (by simp [ht]))
  case h_6 ht =>
    cases h
    exact .inr ⟨ht, rfl⟩
  case h_7 ht _ => exact .inl (at_fail h ht rfl)
  all_goals contradiction

theorem inSExpr_error (h : r.inSExpr fs o as items t = .error e) :
    e.At t ∨ t.type = .eof ∧ e = unmatchedAt o := by
  unfold Reading.inSExpr at h
  split at h
  · rename_i ht
    cases h
    exact .inr ⟨ht, rfl⟩
  · contradiction
  · exact .inl (expression_error h)

theorem inList_error (h : r.inList fs o as items ready t = .error e) :
    e.At t ∨ t.type = .eof ∧ e = unmatchedAt o := by
  unfold Reading.inList at h
  split at h
  · rename_i ht
    cases h
    exact .inr ⟨ht, rfl⟩
  · contradiction
  · rename_i ht
    split at h
    · exact .inl (at_fail h (by simp [ht]) rfl)
    · contradiction
  · split at h
    · exact .inl (expression_error h)
    · exact .inl (at_failAt h rfl)

theorem inStruct_error (h : r.inStruct fs o as items ready t = .error e) :
    e.At t ∨ t.type = .eof ∧ e = unmatchedAt o := by
  unfold Reading.inStruct at h
  dsimp only at h
  split at h
  · rename_i ht
    cases h
    exact .inr ⟨ht, rfl⟩
  · contradiction
  · rename_i ht
    split at h
    · exact .inl (at_fail h (by simp [ht]) rfl)
    · contradiction
  · split at h
    · exact .inl (at_failAt h rfl)
    · split at h
      case h_5 ht => exact .inl (at_fail h (by simp [ht]) rfl)
      case h_6 => exact .inl (at_failAt h rfl)
      all_goals contradiction

/-- A token that cannot be read is refused at its place. At the end, the place is the opening of a
form that is still open. -/
theorem step_error (h : r.step t = .error e) :
    e.At t ∨ t.type = .eof ∧ ∃ o ∈ r.openings, e = unmatchedAt o := by
  have hopen : ∀ {f : Frame} {fs : List Frame}, r.frames = f :: fs →
      e.At t ∨ t.type = .eof ∧ e = unmatchedAt f.opening →
      e.At t ∨ t.type = .eof ∧ ∃ o ∈ r.openings, e = unmatchedAt o := by
    rintro f fs hfs (hat | ⟨ht, he⟩)
    · exact .inl hat
    · exact .inr ⟨ht, f.opening, by simp [openings, hfs], he⟩
  unfold Reading.step at h
  split at h
  · exact .inl (annotated_error h)
  · rename_i hfs
    exact hopen hfs (inClob_error h)
  · split at h
    · contradiction
    · split at h
      · rename_i hfs
        exact hopen hfs (inSExpr_error h)
      · rename_i hfs
        exact hopen hfs (inList_error h)
      · rename_i hfs
        exact hopen hfs (inStruct_error h)
      · split at h
        · contradiction
        · exact .inl (at_failAt h rfl)
      · exact .inl (expression_error h)

/-! ## Whole programs -/

/-- A program is refused at one of its tokens, behind tokens that are read, or at its end. -/
theorem program_error {last : Token} {ts : List Token} (hts : ∀ t ∈ ts, t.type ≠ .eof)
    (h : program last r ts = .error e) :
    (∃ before t after q, ts = before ++ t :: after ∧ r.Steps before q ∧ q.step t = .error e) ∨
      ∃ q, r.Steps ts q ∧ q.step last = .error e := by
  induction ts generalizing r with
  | nil =>
    right
    refine ⟨r, .nil r, ?_⟩
    rw [program, finish] at h
    split at h
    · contradiction
    · cases hstep : r.step last with
      | error e' =>
        rw [hstep] at h
        cases h
        rfl
      | ok q =>
        rw [hstep] at h
        contradiction
  | cons t ts ih =>
    rw [program, if_neg (hts t (by simp))] at h
    cases hstep : r.step t with
    | error e' =>
      rw [hstep] at h
      cases h
      exact .inl ⟨[], t, ts, r, rfl, .nil r, hstep⟩
    | ok q =>
      rw [hstep] at h
      rcases ih (fun u hu => hts u (List.mem_cons_of_mem _ hu)) h with
        ⟨before, u, after, q', rfl, hsteps, hu⟩ | ⟨q', hsteps, hlast⟩
      · exact .inl ⟨t :: before, u, after, q', rfl, .cons (Step.of_step hstep) hsteps, hu⟩
      · exact .inr ⟨q', .cons (Step.of_step hstep) hsteps, hlast⟩

end Reading

/-- Everything but the last token of a scan can be read as some word. -/
theorem Token.Scan.isWord {c : LexContext} {owes : Bool} {before after : List Token} {t : Token}
    (h : Token.Scan c owes (before ++ t :: after)) :
    ∀ u ∈ before, u.type ∉ [TokenType.error, .invalid] := by
  have hspelled : ∀ {inSExpr : Bool} {type : TokenType} {w : List Char},
      Lexeme.Spelling inSExpr type w → type ∉ [TokenType.error, .invalid] := by
    intro inSExpr type w hw hbad
    rcases List.mem_pair.mp hbad with rfl | rfl
    · cases hw with
      | numeral ht => simp at ht
      | fixed h => simp [Lexeme.fixedSpellings] at h
    · cases hw with
      | numeral ht => simp at ht
      | fixed h => simp [Lexeme.fixedSpellings] at h
  induction before generalizing c owes with
  | nil => simp
  | cons u before ih =>
    generalize hall : u :: before ++ t :: after = all at h
    cases h with
    | done => contradiction
    | fault c owes ht =>
      have hlength := congrArg List.length hall
      simp at hlength
    | token hu hclob h =>
      obtain ⟨rfl, rfl⟩ := List.cons.inj hall
      refine List.forall_mem_cons.mpr ⟨?_, ih h⟩
      cases hc : c.inClob with
      | false =>
        obtain ⟨w, -, hw⟩ := hu.outside hc
        exact hspelled hw
      | true =>
        obtain ⟨-, w, -, hw⟩ := hu.inside hc
        exact hspelled hw

namespace TokenStream

variable {file source : Text}

theorem ofSource_placed (file source : Text) :
    (∀ t ∈ (ofSource file source).tokens, t.IsPlaced file source ∧ t.type ≠ .eof) ∧
      (ofSource file source).last.IsPlaced file source := by
  obtain ⟨words, h⟩ := ofSource_scanned file source
  refine ⟨fun t ht => ⟨h.placed t ht, ?_⟩, h.last_placed⟩
  rcases h.ends with ⟨hwords, -⟩ | ⟨fault, reach, hwords, hfault, -⟩
  · exact (h.isWord t (hwords ▸ ht)).1
  · have hmem : t ∈ words ++ [fault] := hwords ▸ ht
    rcases List.mem_append.mp hmem with hmem | hmem
    · exact (h.isWord t hmem).1
    · rw [List.mem_singleton.mp hmem, hfault]
      decide

/-- A program is refused at a token behind tokens that are read, at its end, or at the opening of a
form that is open at its end. -/
theorem parse_error {e : SyntaxError} (h : parse file source = .error e) :
    (∃ before t after, (ofSource file source).tokens = before ++ t :: after ∧
        (∀ u ∈ before, u.type ≠ .error) ∧ e.At t) ∨
      (∀ t ∈ (ofSource file source).tokens, t.type ≠ .error) ∧
        (e.location = (ofSource file source).last.location ∨
          ∃ o ∈ (ofSource file source).tokens, e.location = o.location) := by
  obtain ⟨hplaced, -⟩ := ofSource_placed file source
  have hread : ∀ {r : Reading} {ts : List Token}, Reading.Steps {} ts r → ∀ t ∈ ts, t.type ≠ .error := by
    intro r ts hsteps t ht herror
    have := hsteps.readable t ht
    simp [herror] at this
  rcases Reading.program_error (fun t ht => (hplaced t ht).2) h with
    ⟨before, t, after, r, hts, hsteps, hstep⟩ | ⟨r, hsteps, hstep⟩
  · left
    refine ⟨before, t, after, hts, hread hsteps, ?_⟩
    rcases Reading.step_error hstep with hat | ⟨heof, -⟩
    · exact hat
    · exact absurd heof (hplaced t (by simp [hts])).2
  · right
    refine ⟨hread hsteps, ?_⟩
    rcases Reading.step_error hstep with hat | ⟨-, o, ho, rfl⟩
    · exact .inl hat.location
    · right
      exact ⟨o, hsteps.openings.subset (List.mem_reverse.mpr ho), rfl⟩

end TokenStream

open TokenStream (ofSource_scan ofSource_placed parse_error)

/-- Every error of the parser has the location that the source gives to its offset. Where the scanner
has a fault, the error is that fault, or a fault of the parser at a token before it. -/
theorem parse_refused (file source : Text) :
    (∀ e, parse file source = .error e →
        e.location = Location.locate file source e.location.pos ∧ 0 ≤ e.location.pos ∧
          e.location.pos ≤ source.length) ∧
      ∀ before t after, (TokenStream.ofSource file source).tokens = before ++ t :: after →
        t.type = .error →
        ∃ e, parse file source = .error e ∧
          (e.location = t.location ∧ e.fault = .noToken t.text ∧ e.fault.message = t.text ∨
            ∃ u ∈ before, e.location = u.location ∧ ∀ message, e.fault ≠ .noToken message) ∧
          ∀ opening, e.fault ≠ .unmatched opening := by
  obtain ⟨hplaced, hlast⟩ := ofSource_placed file source
  constructor
  · intro e h
    have hat : ∃ t : Token, t.IsPlaced file source ∧ e.location = t.location := by
      rcases parse_error h with ⟨before, t, after, hts, -, hat⟩ | ⟨-, hend | ⟨o, ho, hend⟩⟩
      · exact ⟨t, (hplaced t (by simp [hts])).1, hat.location⟩
      · exact ⟨_, hlast, hend⟩
      · exact ⟨o, (hplaced o ho).1, hend⟩
    obtain ⟨t, ⟨hlocation, -, hpos⟩, he⟩ := hat
    rw [he]
    exact ⟨hlocation, hpos⟩
  · intro before t after hts ht
    cases h : parse file source with
    | ok nodes =>
      obtain ⟨ts, r, hall, -, -, hsteps, -⟩ := steps_of_parse h
      have := hsteps.readable t (by simp [hall, hts])
      simp [ht] at this
    | error e =>
      refine ⟨e, rfl, ?_⟩
      have hscan := ofSource_scan file source
      rcases parse_error h with ⟨before', u, after', hts', hread, hat⟩ | ⟨hread, -⟩
      · refine ⟨?_, hat.matched⟩
        rw [hts] at hts'
        -- the parser does not get past the fault
        rcases List.append_eq_append_iff.mp hts' with ⟨more, hbefore, hafter⟩ | ⟨more, hbefore, hafter⟩
        · cases more with
          | nil =>
            obtain ⟨rfl, -⟩ := List.cons.inj hafter
            have hfault := hat.passed ht
            exact .inl ⟨hat.location, hfault, by rw [hfault]; rfl⟩
          | cons v more =>
            obtain ⟨rfl, -⟩ := List.cons.inj hafter
            exact absurd ht (hread t (by simp [hbefore]))
        · cases more with
          | nil =>
            obtain ⟨rfl, -⟩ := List.cons.inj hafter
            have hfault := hat.passed ht
            exact .inl ⟨hat.location, hfault, by rw [hfault]; rfl⟩
          | cons v more =>
            obtain ⟨rfl, -⟩ := List.cons.inj hafter
            have hmem : u ∈ before := by simp [hbefore]
            rw [hts] at hscan
            refine .inr ⟨u, hmem, hat.location, fun message hfault => ?_⟩
            have hown := hat.own (hscan.isWord u hmem)
            rw [hfault] at hown
            contradiction
      · exact absurd ht (hread t (by simp [hts]))

/-- A string without its end, in two open forms. -/
theorem parse_refused_unterminated :
    ∃ before t e, (TokenStream.ofSource [] (utf8 "(a [\n\"b")).tokens = before ++ [t] ∧ t.type = .error ∧
      parse [] (utf8 "(a [\n\"b") = .error e ∧
      (e.location = Location.locate [] (utf8 "(a [\n\"b") e.location.pos ∧ 0 ≤ e.location.pos ∧
        e.location.pos ≤ (utf8 "(a [\n\"b").length) ∧
      (e.location = t.location ∧ e.fault = .noToken t.text ∧ e.fault.message = t.text ∨
        ∃ u ∈ before, e.location = u.location ∧ ∀ message, e.fault ≠ .noToken message) ∧
      ∀ opening, e.fault ≠ .unmatched opening := by
  have hfault : ∃ before t, (TokenStream.ofSource [] (utf8 "(a [\n\"b")).tokens = before ++ [t] ∧
      t.type = .error := by
    have hlast : ((TokenStream.ofSource [] (utf8 "(a [\n\"b")).tokens.getLast?.map Token.type) =
        some .error := by decide +kernel
    obtain ⟨t, ht, htype⟩ := Option.map_eq_some_iff.mp hlast
    obtain ⟨before, hbefore⟩ := List.getLast?_eq_some_iff.mp ht
    exact ⟨before, t, hbefore, htype⟩
  obtain ⟨before, t, hts, ht⟩ := hfault
  obtain ⟨hlocated, hfaults⟩ := parse_refused [] (utf8 "(a [\n\"b")
  obtain ⟨e, he, herror⟩ := hfaults before t [] hts ht
  exact ⟨before, t, e, hts, ht, he, hlocated e he, herror⟩

end FusionKit
