import Resin.Proofs.Scan.Expr

/-!
# Scripts of texts with regions are closed

A region is an expression with a source of its own, and stands in a substitution of a template
literal. Between two regions stands at most one stretch of plain text. This matters: a stretch may
end in a dollar, which is harmless before a region and before the end of the literal, but not before
another stretch that begins with a brace.
-/

namespace Resin

open Scan

/-- The script of a region is closed, whatever its source. -/
theorem closed_regionScript {source : String} {offset : Nat} {f : Fragment}
    (h : regionScript source offset = .ok f) : Closed f.code := by
  unfold regionScript at h
  split at h
  · cases h
  · cases hscript : expressionScript source with
    | error e =>
      rw [hscript] at h
      cases h
    | ok g =>
      rw [hscript] at h
      cases h
      obtain ⟨e, he, hf⟩ := exists_of_bind_eq_ok hscript
      exact e.scriptClosed (namesAll_of_parseExpression he) f hf

namespace Segment

/-- No text stands directly behind a text. -/
inductive Apart : List Segment → Prop
  | nil : Apart []
  | text {content} : Apart [.text content]
  | region {source offset rest} : Apart rest → Apart (.region source offset :: rest)
  | textRegion {content source offset rest} : Apart rest →
    Apart (.text content :: .region source offset :: rest)

theorem apart_splitUpTo {n offset : Nat} {cs : List Char} {segments : List Segment}
    (h : splitUpTo n offset cs = .ok segments) : Apart segments := by
  induction n generalizing offset cs segments with
  | zero =>
    cases h
    exact .nil
  | succ n ih =>
    simp only [splitUpTo] at h
    generalize cs.takeWhile (· ≠ '[') = literal at h
    split at h
    · cases h
      unfold plain
      split
      · exact .nil
      · exact .text
    · split at h
      · cases h
      · obtain ⟨rest, hrest, h⟩ := exists_of_bind_eq_ok h
        cases h
        unfold plain
        split
        · exact .region (ih hrest)
        · exact .textRegion (ih hrest)

/-- A region in a template literal ends where it began. -/
theorem run_region {source : String} {offset : Nat} {piece : Fragment} {mode : Mode}
    (h : script (.region source offset) = .ok piece) (hmode : BeforeText mode none)
    (stack : List Bracket) :
    run ⟨mode, stack⟩ piece.code.toList = some ⟨.template, stack⟩ := by
  obtain ⟨f, hf, h⟩ := exists_of_bind_eq_ok h
  cases h
  have hopen : run ⟨mode, stack⟩ "$\x7b".toList = some ⟨.code, .substitution :: stack⟩ := by
    obtain rfl | ⟨rfl, -⟩ := hmode <;> rfl
  have hclose : run ⟨.code, .substitution :: stack⟩ "\x7d".toList = some ⟨.template, stack⟩ := rfl
  change run _ ("$\x7b" ++ f.code ++ "\x7d").toList = _
  rw [String.toList_append, String.toList_append, run_append, run_append, hopen, Option.bind_some,
    (closed_regionScript hf).run, Option.bind_some, hclose]

theorem code_join_cons (f : Fragment) (fs : List Fragment) :
    (Fragment.join "" (f :: fs)).code = f.code ++ (Fragment.join "" fs).code := by
  cases fs with
  | nil => simp [Fragment.join, String.intercalate_singleton]
  | cons g fs => simp [Fragment.join, String.intercalate_cons_cons]

theorem eq_cons_of_mapM_cons {segment : Segment} {segments : List Segment} {pieces : List Fragment}
    (h : (segment :: segments).mapM script = .ok pieces) :
    ∃ piece rest, script segment = .ok piece ∧ segments.mapM script = .ok rest ∧
      pieces = piece :: rest := by
  rw [List.mapM_cons] at h
  obtain ⟨piece, hpiece, h⟩ := exists_of_bind_eq_ok h
  obtain ⟨rest, hrest, h⟩ := exists_of_bind_eq_ok h
  cases h
  exact ⟨piece, rest, hpiece, hrest, rfl⟩

theorem exists_of_mapM_cons {segment : Segment} {segments : List Segment} {pieces : List Fragment}
    (h : (segment :: segments).mapM script = .ok pieces) :
    ∃ piece rest, script segment = .ok piece ∧ segments.mapM script = .ok rest ∧
      (Fragment.join "" pieces).code = piece.code ++ (Fragment.join "" rest).code := by
  obtain ⟨piece, rest, hpiece, hrest, rfl⟩ := eq_cons_of_mapM_cons h
  exact ⟨piece, rest, hpiece, hrest, code_join_cons piece rest⟩

theorem run_text {content : String} {piece : Fragment} (h : script (.text content) = .ok piece)
    (stack : List Bracket) :
    ∃ mode, BeforeText mode none ∧
      run ⟨.template, stack⟩ piece.code.toList = some ⟨mode, stack⟩ := by
  cases h
  obtain ⟨mode, hmode, hleads⟩ := leads_template content.toList stack (.inl rfl)
  refine ⟨mode, hmode, ?_⟩
  change run _ (Literal.template content).toList = _
  rw [Literal.template, String.toList_ofList, hleads.run]

/-- The pieces of a template literal stay inside it. -/
theorem Apart.run {segments : List Segment} {pieces : List Fragment} (h : Apart segments)
    (hpieces : segments.mapM Segment.script = .ok pieces) (stack : List Bracket) :
    ∃ mode, BeforeText mode none ∧
      Scan.run ⟨.template, stack⟩ (Fragment.join "" pieces).code.toList = some ⟨mode, stack⟩ := by
  induction h generalizing pieces with
  | nil =>
    cases hpieces
    exact ⟨.template, .inl rfl, rfl⟩
  | text =>
    obtain ⟨piece, rest, hpiece, hrest, hcode⟩ := exists_of_mapM_cons hpieces
    cases hrest
    obtain ⟨mode, hmode, hrun⟩ := run_text hpiece stack
    refine ⟨mode, hmode, ?_⟩
    rw [hcode, String.toList_append, run_append, hrun]
    rfl
  | region _ ih =>
    obtain ⟨piece, rest, hpiece, hrest, hcode⟩ := exists_of_mapM_cons hpieces
    obtain ⟨mode, hmode, hrun⟩ := ih hrest
    refine ⟨mode, hmode, ?_⟩
    rw [hcode, String.toList_append, run_append, run_region hpiece (.inl rfl)]
    exact hrun
  | textRegion _ ih =>
    -- the text may end in a dollar, and the region closes its substitution all the same
    obtain ⟨piece, pieces, hpiece, hpieces, hcode⟩ := exists_of_mapM_cons hpieces
    obtain ⟨piece', rest, hpiece', hrest, hcode'⟩ := exists_of_mapM_cons hpieces
    obtain ⟨mode, hmode, hrun⟩ := run_text hpiece stack
    obtain ⟨mode', hmode', hrun'⟩ := ih hrest
    refine ⟨mode', hmode', ?_⟩
    rw [hcode, String.toList_append, run_append, hrun, Option.bind_some, hcode',
      String.toList_append, run_append, run_region hpiece' hmode]
    exact hrun'

end Segment

/-- The script of a text with regions is closed. -/
theorem closed_templateScript {text : String} {offset : Nat} {f : Fragment}
    (h : templateScript text offset = .ok f) : Closed f.code := by
  obtain ⟨segments, hsplit, h⟩ := exists_of_bind_eq_ok h
  obtain ⟨pieces, hpieces, h⟩ := exists_of_bind_eq_ok h
  cases h
  obtain ⟨mode, hmode, hrun⟩ := (Segment.apart_splitUpTo hsplit).run hpieces []
  have hopen : run start "`".toList = some ⟨.template, []⟩ := rfl
  have hclose : run ⟨mode, []⟩ "`".toList = some start := by
    obtain rfl | ⟨rfl, -⟩ := hmode <;> rfl
  change run start ("`" ++ (Fragment.join "" pieces).code ++ "`").toList = _
  rw [String.toList_append, String.toList_append, run_append, run_append, hopen, Option.bind_some,
    hrun, Option.bind_some, hclose]

end Resin
