import Resin.Compile
import Resin.Proofs.Parse.Moving
import Resin.Proofs.Script.Places
import Resin.Proofs.Token.Outcomes

/-!
# Layout does not matter

What a source compiles to depends on its tokens only, not on where they stand: blanks, comments and
line breaks may change as long as the outcomes of reading stay the same up to their spans
(`agree_of_sameTokens`). Such sources have one stream when all offsets are moved to zero
(`SameTokens.stream_eq`), and parses carry over to that stream (`Parse.Tracks.runOn`).
-/

namespace Resin

/-! ## Lexical errors -/

/-- The causes of lexical errors. -/
theorem Cause.lexical_cases {cause : Cause} (h : cause.stage = .lexical) :
    (∃ c, cause = .unknownCharacter c) ∨ cause = .unterminatedString ∨
      cause = .malformedRawBlock ∨ cause = .unterminatedRawBlock := by
  cases cause with
  | unknownCharacter c => exact .inl ⟨c, rfl⟩
  | unterminatedString => exact .inr (.inl rfl)
  | malformedRawBlock => exact .inr (.inr (.inl rfl))
  | unterminatedRawBlock => exact .inr (.inr (.inr rfl))
  | _ => cases h

theorem Cause.toList_message_unknownCharacter (c : Char) :
    (Cause.unknownCharacter c).message.toList = "unknown character `".toList ++ [c, '`'] := by
  change ("unknown character " ++ ("`" ++ String.singleton c ++ "`")).toList = _
  simp only [String.toList_append, String.toList_singleton]
  rfl

theorem Cause.message_unknownCharacter_ne {c : Char} {text : String}
    (h : text.toList.take 3 ≠ ['u', 'n', 'k']) : (Cause.unknownCharacter c).message ≠ text := by
  rintro rfl
  rw [toList_message_unknownCharacter] at h
  exact h rfl

/-- A lexical error is told by its message. -/
theorem Cause.eq_of_message {a b : Cause} (ha : a.stage = .lexical) (hb : b.stage = .lexical)
    (h : a.message = b.message) : a = b := by
  obtain ⟨c, rfl⟩ | ha := lexical_cases ha
  · obtain ⟨d, rfl⟩ | hb := lexical_cases hb
    · have hchars := congrArg String.toList h
      rw [toList_message_unknownCharacter, toList_message_unknownCharacter] at hchars
      have hc := List.append_cancel_left hchars
      rw [(List.cons.inj hc).1]
    · rcases hb with rfl | rfl | rfl <;> exact absurd h (message_unknownCharacter_ne (by decide))
  · obtain ⟨d, rfl⟩ | hb := lexical_cases hb
    · rcases ha with rfl | rfl | rfl <;>
        exact absurd h.symm (message_unknownCharacter_ne (by decide))
    · rcases ha with rfl | rfl | rfl <;> rcases hb with rfl | rfl | rfl <;>
        first | rfl | exact absurd h (by decide)

/-! ## Sources -/

/-- What an outcome of reading is, its place apart: a token, or an error by its message and note. -/
def Outcome.content : Outcome → Except (String × Option String) Token
  | .ok token => .ok token.value
  | .error e => .error (e.cause.message, e.note)

/-- The offset that every offset is moved to where places are left out. -/
abbrev nowhere : Nat → Nat := fun _ => 0

/-- Outcomes of the same content are the same when their places are left out. -/
theorem Outcome.move_eq_of_content {n m : Nat} {c d : Cursor} {x y : Outcome}
    (hx : x ∈ Cursor.outcomes n c) (hy : y ∈ Cursor.outcomes m d) (h : x.content = y.content) :
    x.move nowhere = y.move nowhere := by
  cases x with
  | ok token =>
    cases y with
    | ok token' =>
      have hvalue : token.value = token'.value := Except.ok.inj h
      simp only [Outcome.move, Located.move, hvalue]
      rfl
    | error e => cases h
  | error e =>
    cases y with
    | ok token => cases h
    | error e' =>
      have hmessage : e.cause.message = e'.cause.message := (Prod.mk.inj (Except.error.inj h)).1
      have hcause := Cause.eq_of_message (Cursor.lexical_of_mem hx).1 (Cursor.lexical_of_mem hy).1
        hmessage
      simp only [Outcome.move, Error.move, hcause, (Cursor.lexical_of_mem hx).2,
        (Cursor.lexical_of_mem hy).2]
      rfl

theorem map_move_eq_of_content {n m : Nat} {c d : Cursor} {xs ys : List Outcome}
    (hxs : ∀ x ∈ xs, x ∈ Cursor.outcomes n c) (hys : ∀ y ∈ ys, y ∈ Cursor.outcomes m d)
    (h : xs.map Outcome.content = ys.map Outcome.content) :
    xs.map (Outcome.move nowhere) = ys.map (Outcome.move nowhere) := by
  induction xs generalizing ys with
  | nil =>
    rw [List.map_nil, eq_comm, List.map_eq_nil_iff] at h
    rw [h]
  | cons x xs ih =>
    cases ys with
    | nil => cases h
    | cons y ys =>
      rw [List.map_cons, List.map_cons, List.cons.injEq] at h
      rw [List.forall_mem_cons] at hxs hys
      rw [List.map_cons, List.map_cons, ih hxs.2 hys.2 h.2,
        Outcome.move_eq_of_content hxs.1 hys.1 h.1]

/-- Two sources have the same outcomes of reading, their places apart. -/
def SameTokens (a b : String) : Prop :=
  (Stream.ofText a).items.map Outcome.content = (Stream.ofText b).items.map Outcome.content

theorem SameTokens.stream_eq {a b : String} (h : SameTokens a b) :
    (Stream.ofText a).move nowhere = (Stream.ofText b).move nowhere := by
  have hitems : (Stream.ofText a).items.map (Outcome.move nowhere) =
      (Stream.ofText b).items.map (Outcome.move nowhere) :=
    map_move_eq_of_content (fun _ hx => hx) (fun _ hy => hy) h
  unfold Stream.move
  rw [hitems]

/-- Sources with the same tokens have the same program up to spans, or fail in the same words. -/
theorem SameTokens.agree_parseProgram {a b : String} (h : SameTokens a b) :
    Agree (fun p q => p.map Stmt.erase = q.map Stmt.erase) (parseProgram a) (parseProgram b) := by
  have ha := Parse.tracks_program.runOn (g := nowhere) rfl (Stream.ofText a)
  have hb := Parse.tracks_program.runOn (g := nowhere) rfl (Stream.ofText b)
  -- the one stream without places carries both programs
  rw [h.stream_eq] at ha
  change Parse.Carries nowhere (List.map Stmt.erase) (parseProgram a) _ at ha
  change Parse.Carries nowhere (List.map Stmt.erase) (parseProgram b) _ at hb
  generalize parseProgram a = x, parseProgram b = y,
    Parse.program.runOn ((Stream.ofText b).move nowhere) = z at ha hb
  cases ha with
  | ok hp =>
    cases hb with
    | ok hq => exact .ok (hp.symm.trans hq)
  | error he =>
    cases hb with
    | error he' =>
      have hreport := congrArg Error.report (he.symm.trans he')
      exact .error hreport

/-- Two sources whose tokens and lexical errors are the same, whatever stands between them, are read
as the same program up to spans and have the same script; or both fail, with the same stage, message
and note. -/
theorem agree_of_sameTokens {a b : String} (h : SameTokens a b) :
    Agree (fun p q => p.map Stmt.erase = q.map Stmt.erase) (parseProgram a) (parseProgram b) ∧
      Agree Eq (compile a) (compile b) :=
  ⟨h.agree_parseProgram, h.agree_parseProgram.bind fun _ _ => agree_programScript_of_erase⟩

/-- A loop whose header breaks off at a bad raw block, written with and without a comment. The error
is reported with the hint on loops. -/
theorem agree_of_sameTokens_loop : SameTokens "repeat [i in @" "repeat $ twice\n  [ i in   @" ∧
    Agree (fun p q => p.map Stmt.erase = q.map Stmt.erase) (parseProgram "repeat [i in @")
      (parseProgram "repeat $ twice\n  [ i in   @") ∧
    Agree Eq (compile "repeat [i in @") (compile "repeat $ twice\n  [ i in   @") := by
  have hsame : SameTokens "repeat [i in @" "repeat $ twice\n  [ i in   @" := by
    unfold SameTokens
    decide +kernel
  exact ⟨hsame, agree_of_sameTokens hsame⟩

end Resin
