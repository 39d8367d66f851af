import FusionKit.Proofs.Trees
import FusionKit.Layout.Print

/-!
# Printed block comments

A block comment is printed with a star in front of each line after the first one, under the star
of its opening mark. Read again, it has the same lines, but for the first one and for an empty one
at the end: `relined` says which.
-/
set_option autoImplicit false

namespace FusionKit

open Lexeme (CommentBody isSpace)

/-! ## Pages and characters -/

namespace Page

/-- A page with some characters written at the end of another one. -/
def Adds (p q : Page) (cs : List Char) : Prop := q.text = p.text ++ Text.ofChars cs

theorem Adds.refl (p : Page) : Adds p p [] := (List.append_nil _).symm

theorem Adds.trans {p q r : Page} {cs ds : List Char} (h : Adds p q cs) (h' : Adds q r ds) :
    Adds p r (cs ++ ds) := by
  unfold Adds at h h' ⊢
  rw [h', h, List.append_assoc, Text.ofChars_append]

theorem adds_write (p : Page) (w : List Char) : Adds p (p.write (Text.ofChars w)) w :=
  p.text_write _

theorem adds_put (p : Page) (s : String) : Adds p (p.put s) s.toList := p.text_write _

theorem adds_spaces (p : Page) (n : Int) : Adds p (p.spaces n) (List.replicate n.toNat ' ') := by
  unfold Adds
  rw [Text.ofChars_replicate (by decide)]
  exact p.text_write _

theorem adds_newlines (p : Page) (count indent : Int) :
    Adds p (p.newlines count indent)
      (List.replicate count.toNat '\n' ++ List.replicate indent.toNat ' ') := by
  have hbreaks : Adds p (p.write (Text.repeated (byte '\n') count))
      (List.replicate count.toNat '\n') := by
    unfold Adds
    rw [Text.ofChars_replicate (by decide)]
    exact p.text_write _
  exact hbreaks.trans (adds_spaces _ _)

theorem adds_spaceIf (p : Page) (b : Bool) : Adds p (p.spaceIf b) (if b then [' '] else []) := by
  unfold spaceIf
  cases b with
  | false => exact .refl p
  | true => exact adds_put p " "

end Page

/-! ## Bodies of comments -/

theorem Lexeme.CommentBody.append {v w : List Char} (hv : CommentBody v) (hw : CommentBody w)
    (h : v.getLast? = some '*' → w.head? ≠ some '/') : CommentBody (v ++ w) := by
  induction hv with
  | nil => exact hw
  | @cons c v hc hv ih =>
    rw [List.cons_append]
    cases v with
    | nil => exact .cons (by rintro rfl; exact h rfl) hw
    | cons d v =>
      refine .cons hc (ih fun hlast => h ?_)
      rwa [List.getLast?_cons_cons]

theorem Lexeme.CommentBody.of_append {v w : List Char} (h : CommentBody (v ++ w)) :
    CommentBody v ∧ CommentBody w := by
  induction v with
  | nil => exact ⟨.nil, h⟩
  | cons c v ih =>
    cases h with
    | cons hc h =>
      obtain ⟨hv, hw⟩ := ih h
      refine ⟨.cons (fun he => ?_) hv, hw⟩
      have := hc he
      cases v with
      | nil => simp
      | cons d v => simpa using this

theorem commentBody_spaces (n : Nat) : CommentBody (List.replicate n ' ') := by
  induction n with
  | zero => exact .nil
  | succ n ih =>
    rw [List.replicate_succ]
    exact .cons (fun h => absurd h (by decide)) ih

/-! ## Lines of comments -/

theorem plainLine_congr {v w : List Char} (h : stripped v = stripped w) :
    plainLine (Text.ofChars v) = plainLine (Text.ofChars w) := by
  unfold plainLine
  rw [Text.strip_ofChars, Text.strip_ofChars, h]

/-- A line behind a star. -/
def starred (w : List Char) : List Char := '*' :: if w = [] then [] else ' ' :: w

/-- The star and the space in front of a line are taken away when it is read. -/
theorem plainLine_starred {w : List Char} (n : Nat) (hw : CommentLine w) :
    plainLine (Text.ofChars (List.replicate n ' ' ++ starred w)) = Text.ofChars w := by
  have hstar : isBlank '*' = false := by decide
  have htrimmed : Trimmed (starred w) := by
    refine ⟨fun c hc => ?_, fun c hc => ?_⟩
    · cases hc
      exact hstar
    · unfold starred at hc
      split at hc
      · cases hc
        exact hstar
      · rename_i hne
        rw [List.getLast?_cons_cons] at hc
        refine hw.last c ?_
        cases w with
        | nil => exact absurd rfl hne
        | cons d w => rwa [List.getLast?_cons_cons] at hc
  have hstrip : stripped (List.replicate n ' ' ++ starred w) = starred w := by
    have := stripped_around (List.replicate n ' ') []
      (fun c hc => by rw [List.eq_of_mem_replicate hc]; decide) (by simp) htrimmed
    rwa [List.append_nil] at this
  unfold plainLine
  rw [Text.strip_ofChars, hstrip, starred, Text.ofChars_cons_ascii (by decide)]
  simp only [BEq.rfl, if_true]
  split
  · subst w
    rfl
  · rw [Text.ofChars_cons_ascii (by decide)]
    exact Text.trimStart_append [byte ' '] _

namespace Text

theorem trimEnd_cr_of_firm {w : List Char} (hw : Firm w) :
    trimEnd [byte '\r'] (ofChars w) = ofChars w := by
  have hdrop := dropEndWhile_trimEnd_cr (ofChars w)
  rw [dropEndWhile_firm hw] at hdrop
  unfold trimEnd at hdrop ⊢
  split
  · rename_i h
    rw [if_pos h] at hdrop
    have hlen : ∀ (t : Text), (dropEndWhile isSpace t).length ≤ t.length := by
      intro t
      unfold dropEndWhile
      rw [List.length_reverse]
      exact (List.dropWhile_suffix _).length_le.trans (by simp)
    have hpos : 0 < (ofChars w).length := (List.isSuffixOf_iff_suffix.mp h).length_le
    have := hlen ((ofChars w).take ((ofChars w).length - [byte '\r'].length))
    rw [hdrop, List.length_take] at this
    simp only [List.length_singleton] at this
    omega
  · rfl

theorem trimEnd_cr_concat (t : Text) {b : UInt8} (hb : b ≠ byte '\r') :
    trimEnd [byte '\r'] (t ++ [b]) = t ++ [b] := by
  unfold trimEnd
  rw [if_neg]
  intro h
  obtain ⟨s, hs⟩ := List.isSuffixOf_iff_suffix.mp h
  exact hb (by simpa using (List.append_inj' hs rfl).2.symm)

theorem lines_ofChars_line {w : List Char} (hw : Firm w) (hn : '\n' ∉ w) (rest : List Char) :
    lines (ofChars (w ++ '\n' :: rest)) = ofChars w :: lines (ofChars rest) := by
  have hlf : byte '\n' ∉ ofChars w := by rwa [byte_mem_ofChars (by decide)]
  rw [ofChars_append, ofChars_cons_ascii (by decide), lines_append hlf, trimEnd_cr_of_firm hw]

theorem isAllBlank_ofChars (w : List Char) : isAllBlank (ofChars w) = w.all isBlank := by
  unfold isAllBlank
  rw [glyphs_ofChars]
  simp [Glyph.ofChars, List.all_map, Glyph.isCharWith, Function.comp_def]

end Text

theorem CommentLine.firm {w : List Char} (h : CommentLine w) : Firm w := fun c hc =>
  isSpace_of_not_isBlank (h.last c hc)

theorem CommentLine.isAllBlank {w : List Char} (h : CommentLine w) :
    Text.isAllBlank (Text.ofChars w) = decide (w = []) := by
  rw [Text.isAllBlank_ofChars]
  rcases List.eq_nil_or_concat w with rfl | ⟨v, c, rfl⟩
  · rfl
  · have := h.last c (by simp)
    simp [this]

/-! ## Printing and reading lines -/

/-- The lines of a comment after the first, as they are printed. -/
def starLines (indent : Nat) (ws : List (List Char)) : List Char :=
  ws.flatMap fun w => List.replicate indent ' ' ++ starred w ++ ['\n']

theorem starred_settles {w : List Char} (n : Nat) (hw : CommentLine w) :
    Firm (List.replicate n ' ' ++ starred w) ∧ '\n' ∉ List.replicate n ' ' ++ starred w := by
  refine ⟨firm_append ?_ (by simp [starred]), ?_⟩
  · intro c hc
    unfold starred at hc
    split at hc
    · cases hc
      rfl
    · rename_i hne
      rw [List.getLast?_cons_cons] at hc
      refine hw.firm c ?_
      cases w with
      | nil => exact absurd rfl hne
      | cons d w => rwa [List.getLast?_cons_cons] at hc
  · intro h
    rcases List.mem_append.mp h with h | h
    · have := List.eq_of_mem_replicate h
      contradiction
    · unfold starred at h
      split at h
      · simp at h
      · simp only [List.mem_cons] at h
        rcases h with h | h | h
        · contradiction
        · contradiction
        · exact hw.single h

theorem commentBody_starLines {indent : Nat} {ws : List (List Char)} (h : ∀ w ∈ ws, CommentLine w)
    {rest : List Char} (hrest : CommentBody rest) : CommentBody (starLines indent ws ++ rest) := by
  induction ws with
  | nil => exact hrest
  | cons w ws ih =>
    have hw := h w (by simp)
    have ih := ih fun v hv => h v (by simp [hv])
    have hstarred : CommentBody (starred w) := by
      unfold starred
      split
      · exact .cons (fun _ => by simp) .nil
      · exact .cons (fun _ => by simp) (.cons (fun h => absurd h (by decide)) hw.body)
    have hline : CommentBody (List.replicate indent ' ' ++ starred w) := by
      refine (commentBody_spaces indent).append hstarred fun h => ?_
      have := List.eq_of_mem_replicate (List.mem_of_mem_getLast? h)
      contradiction
    rw [starLines, List.flatMap_cons, List.append_assoc, List.append_assoc]
    refine hline.append ?_ (fun _ => by simp)
    exact .cons (fun h => absurd h (by decide)) ih

theorem settled_starLines {indent : Nat} {ws : List (List Char)} (h : ∀ w ∈ ws, CommentLine w)
    (rest : List Char) : settled (starLines indent ws ++ rest) = starLines indent ws ++ settled rest := by
  induction ws with
  | nil => rfl
  | cons w ws ih =>
    have ih := ih fun v hv => h v (by simp [hv])
    obtain ⟨hfirm, hn⟩ := starred_settles indent (h w (by simp))
    unfold starLines at ih ⊢
    rw [List.flatMap_cons, List.append_assoc, List.append_assoc, List.singleton_append,
      settled_line hfirm hn, ih]
    simp

theorem lines_starLines {indent : Nat} {ws : List (List Char)} (h : ∀ w ∈ ws, CommentLine w)
    (rest : List Char) :
    (Text.ofChars (starLines indent ws ++ rest)).lines.map plainLine =
      ws.map Text.ofChars ++ (Text.ofChars rest).lines.map plainLine := by
  induction ws with
  | nil => rfl
  | cons w ws ih =>
    have hw := h w (by simp)
    have ih := ih fun v hv => h v (by simp [hv])
    obtain ⟨hfirm, hn⟩ := starred_settles indent hw
    unfold starLines at ih ⊢
    rw [List.flatMap_cons, List.append_assoc, List.append_assoc, List.singleton_append,
      Text.lines_ofChars_line hfirm hn, List.map_cons, plainLine_starred indent hw, ih]
    rfl

/-- The last line of a comment is the indent of its closing mark. -/
theorem lines_spaces {n : Nat} (hn : 0 < n) :
    (Text.ofChars (List.replicate n ' ')).lines.map plainLine = [[]] := by
  have hlf : byte '\n' ∉ Text.ofChars (List.replicate n ' ') := by
    rw [Text.byte_mem_ofChars (by decide)]
    intro h
    have := List.eq_of_mem_replicate h
    contradiction
  have hne : Text.ofChars (List.replicate n ' ') ≠ [] := by
    rw [Text.ofChars_replicate (by decide)]
    simp only [ne_eq, List.replicate_eq_nil_iff]
    omega
  have htrim : Text.trimEnd [byte '\r'] (Text.ofChars (List.replicate n ' ')) =
      Text.ofChars (List.replicate n ' ') := by
    unfold Text.trimEnd
    rw [if_neg]
    intro h
    have hmem : byte '\r' ∈ Text.ofChars (List.replicate n ' ') :=
      (List.isSuffixOf_iff_suffix.mp h).subset (by simp)
    rw [Text.byte_mem_ofChars (by decide)] at hmem
    have := List.eq_of_mem_replicate hmem
    contradiction
  rw [Text.lines_of_not_mem hlf hne, htrim, List.map_singleton]
  have hstrip : stripped (List.replicate n ' ') = [] := by
    have := stripped_around (List.replicate n ' ') (w := []) []
      (fun c hc => by rw [List.eq_of_mem_replicate hc]; decide) (by simp) ⟨by simp, by simp⟩
    rwa [List.append_nil, List.append_nil] at this
  unfold plainLine
  rw [Text.strip_ofChars, hstrip]
  rfl

theorem keptLines_cons_cons (l m : Text) (ls : List Text) :
    keptLines (l :: m :: ls) = l :: keptLines (m :: ls) := by
  unfold keptLines
  rw [List.getLast?_cons_cons]
  split <;> rfl

namespace Page

theorem adds_commentRest (indent : Nat) {ws : List (List Char)} (h : ∀ w ∈ ws, CommentLine w)
    (p : Page) : ∃ vs, keptLines (ws.map Text.ofChars) = vs.map Text.ofChars ∧
      (∀ v ∈ vs, CommentLine v) ∧
      Adds p (commentRest indent p (ws.map Text.ofChars)) (starLines indent vs) := by
  have hline : ∀ {w : List Char} (p : Page), CommentLine w →
      Adds p (((((p.spaces indent).put "*").spaceIf !(Text.ofChars w).isAllBlank).write
        (Text.ofChars w)).put "\n") (List.replicate indent ' ' ++ starred w ++ ['\n']) := by
    intro w p hw
    have := ((((adds_spaces p indent).trans (adds_put _ "*")).trans
      (adds_spaceIf _ (!(Text.ofChars w).isAllBlank))).trans (adds_write _ w)).trans (adds_put _ "\n")
    convert this using 1
    rw [hw.isAllBlank, starred]
    by_cases hnil : w = []
    · subst hnil
      simp
    · simp [hnil]
  induction ws generalizing p with
  | nil => exact ⟨[], rfl, by simp, .refl p⟩
  | cons w ws ih =>
    have hw := h w (by simp)
    have ih := ih fun v hv => h v (by simp [hv])
    cases ws with
    | nil =>
      rw [List.map_cons, List.map_nil, commentRest]
      by_cases hnil : w = []
      · subst hnil
        exact ⟨[], rfl, by simp, .refl p⟩
      · have hblank : (Text.ofChars w).isAllBlank = false := by rw [hw.isAllBlank]; simpa using hnil
        refine ⟨[w], ?_, by simpa using hw, ?_⟩
        · simp [keptLines, hblank]
        · have := hline p hw
          simp only [hblank, Bool.false_and, Bool.false_eq_true, if_false, commentRest]
          simpa [starLines, hblank] using this
    | cons v ws =>
      obtain ⟨vs, hvs, hall, hadds⟩ := ih (((((p.spaces indent).put "*").spaceIf
        !(Text.ofChars w).isAllBlank).write (Text.ofChars w)).put "\n")
      refine ⟨w :: vs, ?_, by simpa using ⟨hw, hall⟩, ?_⟩
      · rw [List.map_cons, List.map_cons, keptLines_cons_cons, ← List.map_cons, hvs]
        rfl
      · have := (hline p hw).trans hadds
        rw [List.map_cons, commentRest]
        simpa [starLines] using this

end Page

/-- The characters of a printed block comment between its marks. -/
structure PrintedBody (b : List Char) (ls : List Text) : Prop where
  body : CommentBody b
  settled_eq : settled (['/', '*'] ++ b ++ ['*', '/']) = ['/', '*'] ++ b ++ ['*', '/']
  lines_eq : commentLines (Text.ofChars (['/', '*'] ++ b ++ ['*', '/'])) = ls

theorem commentLines_ofChars (b : List Char) :
    commentLines (Text.ofChars (['/', '*'] ++ b ++ ['*', '/'])) =
      (Text.ofChars b).lines.map plainLine := by
  unfold commentLines
  rw [Text.ofChars_append, Text.ofChars_append, List.append_assoc,
    show utf8 "/*" = Text.ofChars ['/', '*'] from rfl, Text.trimStart_append,
    show utf8 "*/" = Text.ofChars ['*', '/'] from rfl, Text.trimEnd_append]
  rfl

/-- A comment of one line. -/
theorem printedBody_line {w : List Char} (hw : CommentLine w) :
    PrintedBody (' ' :: stripped w ++ [' ']) (relined [Text.ofChars w]) := by
  obtain ⟨a, a', hsplit, -, -⟩ := exists_stripped w
  have hbody := hw.body
  rw [hsplit] at hbody
  have hn : '\n' ∉ stripped w := fun hmem => hw.single (by
    rw [hsplit]
    simp [hmem])
  constructor
  · refine .append (.cons (fun h => absurd h (by decide)) hbody.of_append.1.of_append.2)
      (commentBody_spaces 1) (fun _ => by simp)
  · refine settled_of_firm (firm_append (by intro c hc; cases hc; rfl) (by simp)) ?_
    simp [hn]
  · have hlf : byte '\n' ∉ Text.ofChars (' ' :: stripped w ++ [' ']) := by
      rw [Text.byte_mem_ofChars (by decide)]
      simp [hn]
    have htrim : Text.trimEnd [byte '\r'] (Text.ofChars (' ' :: stripped w ++ [' '])) =
        Text.ofChars (' ' :: stripped w ++ [' ']) := by
      rw [Text.ofChars_append]
      exact Text.trimEnd_cr_concat _ (by decide)
    have hstrip : stripped (' ' :: stripped w ++ [' ']) = stripped w :=
      stripped_around [' '] [' '] (List.all_iff_forall_prop.mp rfl)
        (List.all_iff_forall_prop.mp rfl) (trimmed_stripped w)
    rw [commentLines_ofChars, Text.lines_of_not_mem hlf (by simp [Text.ofChars_cons_ascii]), htrim,
      List.map_singleton, plainLine_congr hstrip]
    rfl

/-- The first line of a comment of several, as it is printed behind the opening mark. -/
def opened (w : List Char) : List Char := if w = [] then [] else ' ' :: w

theorem commentBody_opened {w : List Char} (hw : CommentLine w) : CommentBody (opened w) := by
  unfold opened
  split
  · exact .nil
  · exact .cons (fun h => absurd h (by decide)) hw.body

theorem opened_settles {w : List Char} (hw : CommentLine w) : Firm (opened w) ∧ '\n' ∉ opened w := by
  unfold opened
  split
  · exact ⟨firm_nil, by simp⟩
  · rename_i hne
    exact ⟨firm_append (v := [' ']) hw.firm hne, by simpa using hw.single⟩

theorem stripped_opened (w : List Char) : stripped (opened w) = stripped w := by
  unfold opened
  split
  · subst w
    rfl
  · have := stripped_blanks [' '] w [] (List.all_iff_forall_prop.mp rfl) (by simp)
    simpa using this

/-- A comment of several lines, whose closing mark is indented on a line of its own. -/
theorem printedBody_lines {indent : Nat} (hindent : 0 < indent) {w : List Char} {vs : List (List Char)}
    (hw : CommentLine w) (hvs : ∀ v ∈ vs, CommentLine v) :
    PrintedBody (opened w ++ '\n' :: (starLines indent vs ++ List.replicate indent ' '))
      (plainLine (Text.ofChars w) :: (vs.map Text.ofChars ++ [[]])) := by
  obtain ⟨hfirm, hn⟩ := opened_settles hw
  constructor
  · refine (commentBody_opened hw).append (.cons (fun h => absurd h (by decide)) ?_) (fun _ => by simp)
    exact commentBody_starLines hvs (commentBody_spaces _)
  · have hopen : Firm (['/', '*'] ++ opened w) ∧ '\n' ∉ ['/', '*'] ++ opened w := by
      refine ⟨?_, by simpa using hn⟩
      by_cases hnil : opened w = []
      · rw [hnil]
        intro c hc
        cases hc
        rfl
      · exact firm_append hfirm hnil
    have hclose : settled (List.replicate indent ' ' ++ ['*', '/']) = List.replicate indent ' ' ++ ['*', '/'] := by
      refine settled_of_firm (firm_append (by intro c hc; cases hc; rfl) (by simp)) ?_
      intro hmem
      rcases List.mem_append.mp hmem with hmem | hmem
      · have := List.eq_of_mem_replicate hmem
        contradiction
      · simp at hmem
    have hsplit : ['/', '*'] ++ (opened w ++ '\n' :: (starLines indent vs ++ List.replicate indent ' ')) ++ ['*', '/'] =
        (['/', '*'] ++ opened w) ++ '\n' :: (starLines indent vs ++ (List.replicate indent ' ' ++ ['*', '/'])) := by
      simp
    rw [hsplit, settled_line hopen.1 hopen.2, settled_starLines hvs, hclose]
  · rw [commentLines_ofChars, Text.lines_ofChars_line hfirm hn, List.map_cons, lines_starLines hvs,
      lines_spaces hindent, plainLine_congr (stripped_opened w)]

theorem exists_commentLines {ls : List Text} (h : ∀ l ∈ ls, BlockLine l) :
    ∃ ws : List (List Char), ls = ws.map Text.ofChars ∧ ∀ w ∈ ws, CommentLine w := by
  induction ls with
  | nil => exact ⟨[], rfl, by simp⟩
  | cons l ls ih =>
    obtain ⟨ws, rfl, hws⟩ := ih fun l hl => h l (by simp [hl])
    obtain ⟨w, rfl, hw⟩ := h l (by simp)
    exact ⟨w :: ws, rfl, by simpa using ⟨hw, hws⟩⟩

/-- A printed block comment has the lines that `relined` tells. -/
theorem Page.adds_blockComment {ls : List Text} (h : ∀ l ∈ ls, BlockLine l) (p : Page) :
    ∃ b, Adds p (p.blockComment ls) (['/', '*'] ++ b ++ ['*', '/']) ∧ PrintedBody b (relined ls) := by
  obtain ⟨ws, rfl, hws⟩ := exists_commentLines h
  match ws, hws with
  | [], _ =>
    exact ⟨[], (adds_put p "/*").trans (adds_put _ "*/"), .nil, rfl, by rw [commentLines_ofChars]; rfl⟩
  | [w], hws =>
    refine ⟨_, ?_, printedBody_line (hws w (by simp))⟩
    have := (((adds_put p "/*").trans (adds_put _ " ")).trans (adds_write _ (stripped w))).trans
      ((adds_put _ " ").trans (adds_put _ "*/"))
    rw [← Text.strip_ofChars] at this
    simpa [blockComment] using this
  | w :: v :: ws, hws =>
    have hw := hws w (by simp)
    obtain ⟨vs, hkept, hvs, hrest⟩ := adds_commentRest (p.column + 1)
      (fun u (hu : u ∈ v :: ws) => hws u (by simp [List.mem_cons.mp hu]))
      ((((p.put "/*").spaceIf !(Text.ofChars w).isAllBlank).write (Text.ofChars w)).put "\n")
    refine ⟨opened w ++ '\n' :: (starLines (p.column + 1) vs ++ List.replicate (p.column + 1) ' '), ?_, ?_⟩
    · have hopen := (((adds_put p "/*").trans (adds_spaceIf _ (!(Text.ofChars w).isAllBlank))).trans
        (adds_write _ w)).trans (adds_put _ "\n")
      have hclose := (hopen.trans hrest).trans ((adds_spaces _ (p.column + 1 : Nat)).trans
        (adds_put _ "*/"))
      have hchars : ("/*".toList ++ (if (!(Text.ofChars w).isAllBlank) = true then [' '] else []) ++ w ++
          "\n".toList ++ starLines (p.column + 1) vs ++
            (List.replicate ((p.column + 1 : Nat) : Int).toNat ' ' ++ "*/".toList)) =
          ['/', '*'] ++ (opened w ++ '\n' :: (starLines (p.column + 1) vs ++
            List.replicate (p.column + 1) ' ')) ++ ['*', '/'] := by
        rw [hw.isAllBlank, Int.toNat_natCast, opened]
        by_cases hnil : w = []
        · simp [hnil]
        · simp [hnil]
      rwa [hchars] at hclose
    · have hprinted : PrintedBody _ (plainLine (Text.ofChars w) :: (vs.map Text.ofChars ++ [[]])) :=
        printedBody_lines (Nat.succ_pos p.column) hw hvs
      rwa [← hkept] at hprinted

end FusionKit
