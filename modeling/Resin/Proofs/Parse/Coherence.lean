import Resin.Proofs.Grammar.Program
import Resin.Proofs.Parse.Ending
import Resin.Proofs.Token.Tiling

/-!
# Where a parse stands

The state of a parse has three parts that move together: the current token, what is read next, and
the end of the last token passed. They fit each other if all three are those of one token of the
source (`StandsAt`). A state that fits stays so when tokens are passed, and is `k` tokens further on
behind `k` of them (`StandsAt.of_passes`).

So every parse that succeeds stands at a later token than before, and what is attempted in vain
leaves the parse where it was. Since there are only so many tokens, everything comes to an end, and
a whole program ends at the end of the file (`parse_coherent`).
-/

namespace Resin

open Text Parse

/-! ## Reading on from a place -/

/-- What is read from a place on. -/
def Stream.ofCursor (c : Cursor) : Stream :=
  ⟨c.outcomes c.rest.length, c.offset + byteLength c.rest⟩

theorem Stream.ofCursor_ofText (source : String) :
    Stream.ofCursor (.ofText source) = Stream.ofText source := by
  simp [ofCursor, ofText, Cursor.ofText]

/-- What comes next is what the next call gives, and what is behind it is read from the place where
the call ends. -/
theorem Stream.next_ofCursor (c : Cursor) :
    (Stream.ofCursor c).next = (c.next.1, .ofCursor c.next.2) := by
  cases hnext : c.next? with
  | none =>
    rw [Cursor.next_of_next?_eq_none hnext]
    simp only [ofCursor, next, Cursor.outcomes_of_next?_eq_none hnext]
  | some next =>
    obtain ⟨outcome, after⟩ := next
    have hlt := Cursor.length_rest_lt_of_next? hnext
    have hcall : c.next = (outcome, after) := by
      rw [Cursor.next, hnext]
      rfl
    obtain ⟨m, hm⟩ : ∃ m, c.rest.length = m + 1 := ⟨c.rest.length - 1, by omega⟩
    have hrest : after.outcomes m = after.outcomes after.rest.length :=
      Cursor.outcomes_of_le (by omega) (Nat.le_refl _)
    have hitems : c.outcomes c.rest.length = outcome :: after.outcomes after.rest.length := by
      rw [hm, Cursor.outcomes, hnext, ← hrest]
    simp only [hcall, ofCursor, next, hitems, Cursor.stop_of_next? hnext]

theorem Stream.lexed_ofCursor (c : Cursor) : (Stream.ofCursor c).Lexed :=
  fun _ he => (Cursor.lexical_of_mem he).1

/-! ## States -/

/-- The tokens that the first calls give. Calls that meet a bad lexeme give none. -/
def tokensBefore (source : String) : Nat → List (Located Token)
  | 0 => []
  | call + 1 => tokensBefore source call ++ (reading source call).toOption.toList

/-- All parts of the state are those that a call leads to: it gives the current token, reading goes
on where it ends, and the last token passed is the last one given before, if there is one. -/
structure ParseState.IsBehind (source : String) (call : Nat) (s : ParseState) : Prop where
  current : reading source call = .ok s.current
  ahead : s.ahead = .ofCursor (place source (call + 1))
  lastStop : s.lastStop =
    ((tokensBefore source call).getLast?.map fun token => token.span.stop).getD 0

/-- The parse stands at a token of the source with `k` tokens before it, the end of the file being a
token that comes again and again. -/
def ParseState.StandsAt (source : String) (k : Nat) (s : ParseState) : Prop :=
  ∃ call, (tokensBefore source call).length = k ∧ s.IsBehind source call

namespace ParseState

variable {source : String} {k call : Nat} {s t : ParseState}

theorem tokensBefore_succ {token : Located Token} (h : reading source call = .ok token) :
    tokensBefore source (call + 1) = tokensBefore source call ++ [token] := by
  rw [tokensBefore, h]
  rfl

theorem IsBehind.next (h : s.IsBehind source call) :
    s.ahead.next = (reading source (call + 1), .ofCursor (place source (call + 2))) := by
  rw [h.ahead, Stream.next_ofCursor]
  rfl

/-- Passing a token leads behind the next call. -/
theorem IsBehind.advance {token : Located Token} (h : s.IsBehind source call)
    (ha : advance s = .done token t) : t.IsBehind source (call + 1) := by
  obtain ⟨-, hnext, hstop⟩ := advance_done_iff.1 ha
  rw [h.next, Prod.mk.injEq] at hnext
  refine ⟨hnext.1, hnext.2.symm, ?_⟩
  rw [hstop, tokensBefore_succ h.current]
  simp

theorem StandsAt.advance {token : Located Token} (h : s.StandsAt source k)
    (ha : advance s = .done token t) : t.StandsAt source (k + 1) := by
  obtain ⟨call, rfl, hs⟩ := h
  refine ⟨call + 1, ?_, hs.advance ha⟩
  rw [tokensBefore_succ hs.current, List.length_append, List.length_singleton]

/-- Behind a stretch of tokens the parse stands so many tokens further on. -/
theorem StandsAt.of_passes {ts : List (Located Token)} (h : s.StandsAt source k)
    (hts : s.Passes ts t) : t.StandsAt source (k + ts.length) := by
  induction hts generalizing k with
  | nil => exact h
  | @cons s u t token ts _ ha _ ih =>
    have hrest := ih (h.advance ha)
    rwa [List.length_cons, Nat.add_comm ts.length, ← Nat.add_assoc]

theorem StandsAt.lexed (h : s.StandsAt source k) : s.ahead.Lexed := by
  obtain ⟨call, -, hs⟩ := h
  rw [hs.ahead]
  exact Stream.lexed_ofCursor _

end ParseState

/-- A source that begins with a token starts a parse there, and another is refused for its first
error. -/
theorem start_ofText (source : String) :
    (∀ token, reading source 0 = .ok token →
      ∃ s, ParseState.ofText source = .ok s ∧ s.StandsAt source 0) ∧
    ∀ e, reading source 0 = .error e → ParseState.ofText source = .error e := by
  have hnext : (Stream.ofText source).next = (reading source 0, .ofCursor (place source 1)) := by
    rw [← Stream.ofCursor_ofText, Stream.next_ofCursor]
    rfl
  unfold ParseState.ofText ParseState.start
  rw [hnext]
  constructor
  · intro token htoken
    rw [htoken]
    exact ⟨_, rfl, 0, rfl, htoken, rfl, rfl⟩
  · intro e he
    rw [he]

/-! ## Parses -/

/-- From a state that stands at a token, a parse that succeeds stands at a later one, with fewer
tokens left, and one that fails does not do so for want of budget. -/
def Progresses {α : Type} (source : String) (p : Parse α) : Prop :=
  ∀ k s, s.StandsAt source k →
    (∀ a t, p s = .done a t → t.remaining < s.remaining ∧ ∃ k' > k, t.StandsAt source k') ∧
    ∀ e t, p s = .failed e t → e.cause ≠ .tooDeep

section Parses

variable {α : Type} {source : String} {p : Parse α} {k : Nat} {s t : ParseState} {e : Error}

theorem cause_ne_of_alike {d : Nat} (h : ∀ n, Alike d n p p) (hs : s.StandsAt source k)
    (hfailed : p s = .failed e t) : e.cause ≠ .tooDeep := by
  have hgain := (h (s.remaining + 1) s (Nat.lt_succ_self _)).2
  rw [hfailed] at hgain
  cases hgain with
  | failed he => exact he hs.lexed

theorem progresses_of_alike (h : ∀ n, Alike 1 n p p) : Progresses source p := by
  intro k s hs
  refine ⟨fun a t hdone => ?_, fun e t => cause_ne_of_alike h hs⟩
  have hgain := (h (s.remaining + 1) s (Nat.lt_succ_self _)).2
  rw [hdone] at hgain
  cases hgain with
  | @done _ ts _ hts hlen =>
    have hle := hts.length_add_remaining_le
    exact ⟨by omega, k + ts.length, by omega, hs.of_passes hts⟩

theorem attempt_standsAt {u : ParseState} (hs : s.StandsAt source k) (h : p s = .failed e u) :
    ∃ t, attempt p s = .done none t ∧ t.StandsAt source k :=
  ⟨s, attempt_of_not_done (by simp [h]), hs⟩

theorem lookahead_cases (s : ParseState) :
    (∃ token, lookahead s = .done token s) ∨ ∃ e, lookahead s = .failed e s := by
  unfold lookahead
  cases s.ahead.next.1 with
  | ok token => exact .inl ⟨_, rfl⟩
  | error e => exact .inr ⟨_, rfl⟩

/-- A program that is parsed ends at the end of the file, at no earlier token than it began. -/
theorem program_standsAt {stmts : List Stmt} (hs : s.StandsAt source k)
    (h : program s = .done stmts t) :
    t.current.value = .endOfFile ∧ ∃ k' ≥ k, t.StandsAt source k' := by
  obtain ⟨ts, hts, -, hend⟩ := Grammar.program_sound h
  exact ⟨hend, k + ts.length, Nat.le_add_right .., hs.of_passes hts⟩

/-- No program is rejected for want of budget: either the first token is bad, or the statements
fail from the start of the source. -/
theorem parseProgram_cause_ne (h : parseProgram source = .error e) : e.cause ≠ .tooDeep := by
  cases hfirst : reading source 0 with
  | error first =>
    have hnext : (Stream.ofCursor (.ofText source)).next =
        (.error first, .ofCursor (place source 1)) := by
      rw [Stream.next_ofCursor, ← hfirst]
      rfl
    rw [parseProgram, (start_ofText source).2 first hfirst] at h
    cases h
    exact (Stream.lexed_ofCursor _).cause_ne hnext
  | ok token =>
    obtain ⟨s, hstart, hs⟩ := (start_ofText source).1 token hfirst
    rw [parseProgram, hstart] at h
    replace h : program.run s = .error e := h
    unfold run at h
    cases hrun : program s with
    | done stmts t =>
      rw [hrun] at h
      cases h
    | failed e t =>
      rw [hrun] at h
      cases h
      exact cause_ne_of_alike (fun _ => alike_program) hs hrun

end Parses

/-- The parts of the state of a parse fit each other from the start of a source on. Each of the
parses for statements, expressions, mutations, blocks, arguments and declarations that succeeds
stands at a later token than before. What fails when it is attempted leaves the parse where it was,
and looking ahead changes nothing. Every loop and every recursion comes to an end, from every state,
and a program that is parsed ends at the end of the file. -/
theorem parse_coherent (source : String) :
    ((∀ token, reading source 0 = .ok token →
        ∃ s, ParseState.ofText source = .ok s ∧ s.StandsAt source 0) ∧
      ∀ e, reading source 0 = .error e → ParseState.ofText source = .error e) ∧
    (Progresses source statement ∧ Progresses source expression ∧ Progresses source mutation ∧
      Progresses source (block statement) ∧ Progresses source (arguments expression) ∧
      Progresses source declaration) ∧
    (∀ (α : Type) (p : Parse α) (k : Nat) (s u : ParseState) (e : Error), s.StandsAt source k →
      p s = .failed e u → ∃ t, attempt p s = .done none t ∧ t.StandsAt source k) ∧
    (∀ s, (∃ token, lookahead s = .done token s) ∨ ∃ e, lookahead s = .failed e s) ∧
    AllResolve ∧
    (∀ k s p t, s.StandsAt source k → program s = .done p t →
      t.current.value = .endOfFile ∧ ∃ k' ≥ k, t.StandsAt source k') ∧
    ∀ e, parseProgram source = .error e → e.cause ≠ .tooDeep := by
  refine ⟨start_ofText source, ⟨?_, ?_, ?_, ?_, ?_, ?_⟩, fun _ _ _ _ _ _ => attempt_standsAt,
    lookahead_cases, allResolve, fun _ _ _ _ => program_standsAt,
    fun _ => parseProgram_cause_ne⟩
  · exact progresses_of_alike fun _ => alike_statement
  · exact progresses_of_alike fun _ => alike_expression
  · exact progresses_of_alike fun _ => alike_mutation
  · exact progresses_of_alike fun n => (alike_block alike_statement).mono (Nat.le_refl 1)
      (Nat.le_succ n)
  · exact progresses_of_alike fun n => (alike_arguments alike_expression).mono (Nat.le_refl 1)
      (Nat.le_succ n)
  · exact progresses_of_alike fun _ => alike_declaration

/-- A call with an argument in brackets, which is not the parameter of a lambda. Taken for an
expression that is the whole source it fails behind the call, and the parse is back at the start. -/
theorem parse_coherent_rewind : ∃ source s stmt t u v,
    source = "call f[[a]];" ∧ ParseState.ofText source = .ok s ∧ s.StandsAt source 0 ∧
    attempt standalone s = .done none t ∧ t.StandsAt source 0 ∧
    statement s = .done stmt u ∧ u.remaining < s.remaining ∧ (∃ k > 0, u.StandsAt source k) ∧
    program s = .done [stmt] v ∧ v.current.value = .endOfFile := by
  let source := "call f[[a]];"
  let stmt := Stmt.expr (.call "f" [.name "a" ⟨7, 10⟩] ⟨0, 11⟩) ⟨0, 12⟩
  have hfirst : (reading source 0).toOption = some ⟨.keyword .call, ⟨0, 4⟩⟩ := by decide +kernel
  have hwhole : (ParseState.ofText source >>= fun s => standalone.run s).toOption = none := by
    decide +kernel
  have hone : (ParseState.ofText source >>= fun s => statement.run s).toOption = some stmt := by
    decide +kernel
  have hall : (ParseState.ofText source >>= fun s => program.run s).toOption = some [stmt] := by
    decide +kernel
  obtain ⟨⟨hstart, -⟩, ⟨hstatement, -⟩, hattempt, -, -, hprogram, -⟩ := parse_coherent source
  obtain ⟨s, hs, hstands⟩ := hstart _ (eq_ok_of_toOption hfirst)
  obtain ⟨s₁, u, hs₁, hu⟩ := done_of_run (eq_ok_of_toOption hone)
  obtain ⟨s₂, v, hs₂, hv⟩ := done_of_run (eq_ok_of_toOption hall)
  cases hs.symm.trans hs₁
  cases hs.symm.trans hs₂
  cases hfails : standalone s with
  | done e t =>
    rw [hs] at hwhole
    simp [run, hfails, bind, Except.bind, Except.toOption] at hwhole
  | failed e w =>
    obtain ⟨t, ht, htstands⟩ := hattempt _ _ 0 s w e hstands hfails
    obtain ⟨hless, hlater⟩ := (hstatement 0 s hstands).1 stmt u hu
    exact ⟨source, s, stmt, t, u, v, rfl, hs, hstands, ht, htstands, hu, hless, hlater, hv,
      (hprogram 0 s _ v hstands hv).1⟩

end Resin
