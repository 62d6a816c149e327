import Resin.Proofs.Token.Outcomes
import Resin.Proofs.Token.Stretches

/-!
# Reading a whole source

`lexing` reads a source one token after the other, over bad lexemes, up to and with the end of the
file. No source takes more readings than it has characters and one for the end (`lexing_eq`).

A line feed ends every token and every comment. So what is read off two texts with a line feed
between them is what is read off the first and then what is read off the second, further on by the
first text and the line feed (`lexing_join`).
-/

namespace Resin

open Text

/-- Whether an outcome is the end of the file. -/
def Outcome.isEnd : Outcome → Bool
  | .ok token => token.value == .endOfFile
  | .error _ => false

/-- The outcomes of reading from a place on, up to and with the end of the file or `n` of them. -/
def Cursor.untilEnd : Nat → Cursor → List Outcome
  | 0, _ => []
  | n + 1, c =>
    let (outcome, after) := c.next
    if Outcome.isEnd outcome then [outcome] else outcome :: untilEnd n after

/-- All outcomes of reading a source, up to and with the end of the file. -/
def lexing (source : String) : List Outcome :=
  Cursor.untilEnd (source.toList.length + 1) (.ofText source)

namespace Cursor

variable {c d : Cursor} {outcome : Outcome}

/-- A reading leaves the end of the source where it is. -/
theorem stop_of_next? (h : c.next? = some (outcome, d)) :
    d.offset + byteLength d.rest = c.offset + byteLength c.rest := by
  simp only [next?] at h
  split at h
  · cases h
  · simp only [Option.some.injEq, Prod.mk.injEq] at h
    rw [← h.2, offset_drop, skipTrivia, offset_drop]

theorem isEnd_of_next? (h : c.next? = some (outcome, d)) : Outcome.isEnd outcome = false := by
  cases outcome with
  | error e => rfl
  | ok token =>
    have hmem : .ok token ∈ outcomes 1 c := by
      rw [outcomes, h]
      exact List.mem_cons_self ..
    obtain ⟨first, rest, hfront⟩ := exists_front_of_mem hmem
    exact beq_eq_false_iff_ne.2 (Lexeme.ne_endOfFile_of_front hfront)

/-- Where no lexeme is left, the end of the file is read, and it stands at the end of the source. -/
theorem next_of_next?_eq_none (h : c.next? = none) :
    c.next = (.ok (endOfFile (c.offset + byteLength c.rest)), c) := by
  have hskip : c.skipTrivia.offset = c.offset + byteLength c.rest := by
    rw [skipTrivia, drop, triviaLength_of_next?_eq_none h, List.take_length]
  rw [next, h, hskip]
  rfl

theorem untilEnd_eq {n : Nat} (hn : c.rest.length ≤ n) :
    untilEnd (n + 1) c = outcomes n c ++ [.ok (endOfFile (c.offset + byteLength c.rest))] := by
  induction n generalizing c with
  | zero =>
    have hnone := next?_of_rest_eq_nil (List.eq_nil_of_length_eq_zero (Nat.le_zero.1 hn))
    rw [untilEnd, next_of_next?_eq_none hnone]
    rfl
  | succ n ih =>
    cases hnext : c.next? with
    | none =>
      rw [untilEnd, next_of_next?_eq_none hnext, outcomes_of_next?_eq_none hnext]
      rfl
    | some next =>
      obtain ⟨outcome, after⟩ := next
      have hlt := length_rest_lt_of_next? hnext
      have hcall : c.next = (outcome, after) := by
        rw [Cursor.next, hnext]
        rfl
      rw [untilEnd, hcall, outcomes, hnext]
      simp only [isEnd_of_next? hnext, Bool.false_eq_true, if_false]
      rw [ih (by omega), stop_of_next? hnext, List.cons_append]

end Cursor

/-- Reading a source gives its outcomes and then the end of the file. -/
theorem lexing_eq (source : String) : lexing source =
    (Stream.ofText source).items ++ [.ok (Cursor.endOfFile (Stream.ofText source).stop)] := by
  have hall := Cursor.untilEnd_eq (c := .ofText source) (Nat.le_refl _)
  rwa [Cursor.ofText, Nat.zero_add] at hall

/-- A text in which no error is met has tokens only in front of the end of the file. -/
theorem items_eq_of_lexing {source : String} (h : ∀ e, .error e ∉ lexing source) :
    ∃ ts : List (Located Token), (Stream.ofText source).items = ts.map Except.ok := by
  rw [lexing_eq] at h
  generalize (Stream.ofText source).items = items at h
  induction items with
  | nil => exact ⟨[], rfl⟩
  | cons outcome items ih =>
    obtain ⟨ts, rfl⟩ := ih fun e he => h e (List.mem_cons_of_mem _ he)
    cases outcome with
    | error e => exact absurd (List.mem_cons_self ..) (h e)
    | ok token => exact ⟨token :: ts, rfl⟩

/-- If no error is met in a text, it is read as tokens and the end of the file. With a line feed and
any text behind it, the same tokens are read, and then what is read off the other text, everything
there moved behind the line feed. -/
theorem lexing_join {a : String} (ha : ∀ e, .error e ∉ lexing a) (b : String) :
    ∃ ts : List (Located Token),
      lexing a = ts.map .ok ++ [.ok (Cursor.endOfFile (byteLength a.toList))] ∧
      lexing (a ++ "\n" ++ b) = ts.map .ok ++
        (lexing b).map (Outcome.move (· + (byteLength a.toList + 1))) := by
  obtain ⟨ts, hts⟩ := items_eq_of_lexing ha
  have hstop : (Stream.ofText (a ++ "\n" ++ b)).stop =
      (Stream.ofText b).stop + (byteLength a.toList + 1) := by
    have hfeed : byteLength "\n".toList = 1 := by decide
    simp only [Stream.ofText, String.toList_append, byteLength_append, hfeed]
    omega
  refine ⟨ts, by rw [lexing_eq, hts]; rfl, ?_⟩
  rw [lexing_eq, lexing_eq, Stream.items_join hts, hstop, List.map_append, List.append_assoc]
  rfl

/-- A comment with a quote in it in front of the line feed, and two errors behind it. -/
theorem lexing_join_comment : ∃ (a b : String) (ts : List (Located Token)),
    a = "1. $ it's" ∧ b = ":input @ 'x" ∧ (∀ e, .error e ∉ lexing a) ∧
    lexing a = ts.map .ok ++ [.ok (Cursor.endOfFile (byteLength a.toList))] ∧
    lexing (a ++ "\n" ++ b) = ts.map .ok ++
      (lexing b).map (Outcome.move (· + (byteLength a.toList + 1))) ∧
    lexing (a ++ "\n" ++ b) = [
      .ok ⟨.number .one, ⟨0, 2⟩⟩, .ok ⟨.input, ⟨10, 16⟩⟩,
      .error ⟨.malformedRawBlock, ⟨17, 18⟩, none⟩, .error ⟨.unterminatedString, ⟨19, 20⟩, none⟩,
      .ok ⟨.endOfFile, ⟨21, 21⟩⟩] := by
  have ha : (lexing "1. $ it's").all Except.isOk = true := by decide +kernel
  have hnone : ∀ e, .error e ∉ lexing "1. $ it's" := by
    intro e he
    cases List.all_eq_true.1 ha _ he
  obtain ⟨ts, hts, hjoin⟩ := lexing_join hnone ":input @ 'x"
  exact ⟨_, _, ts, rfl, rfl, hnone, hts, hjoin, rfl⟩

end Resin
