import Mathlib.Data.List.TakeWhile
import Resin.Proofs.Scan.Operand

/-!
# Loops of a script

The part of the host language that a counting loop is written in. A header is read in chunks, which
are operands and punctuators (`chunks`). An operand is taken as it stands, since operators next to
it do not reach into it; only a comparison in parentheses and an absolute value are opened
(`Term.ofText`). Between the operands stand signs, comparisons and one conditional. Everything else
is refused, and so is a `let` that binds no name.

What the other operands are worth is up to what stands around the loop. A loop evaluates its first
value, then its test before and its step after each run of the body (`Loop.Runs`). While the first
value is evaluated the counter has no value yet, and a counter `Math` hides the object that the
absolute value is taken from.
-/

namespace Resin.JavaScript

open Scan (isOperandPart solidRun Solid start)

/-! ## Operands and punctuators -/

/-- A part of a script: an operand, as it stands, or a punctuator. -/
inductive Chunk where
  | operand (text : String)
  | mark (punctuator : Punctuator)
deriving DecidableEq, Repr, Inhabited

/-- The rest of an operand in which the scanner has come to a state, and what follows. -/
def operandFrom? : Scan.State → List Char → Option (List Char × List Char)
  | s, [] => if s = start then some ([], []) else none
  | s, c :: cs =>
    if s = start ∧ isOperandPart c = false then some ([], c :: cs)
    else (Scan.step s c).bind fun s => (operandFrom? s cs).map fun read => (c :: read.1, read.2)

/-- The chunk at the front of a text, behind any spaces, and what follows. -/
def next? (cs : List Char) : Option (Chunk × List Char) :=
  match cs.dropWhile (· == ' ') with
  | [] => none
  | c :: cs =>
    if isOperandPart c then
      (operandFrom? start (c :: cs)).map fun read => (.operand (String.ofList read.1), read.2)
    else
      (Punctuator.longest? (c :: cs)).map fun p => (.mark p, (c :: cs).drop p.spelling.length)

/-- The chunks of a text, if there are fewer than `n`. -/
def chunksUpTo : Nat → List Char → Option (List Chunk)
  | 0, _ => none
  | n + 1, cs =>
    if cs.all (· == ' ') then some []
    else (next? cs).bind fun read => (chunksUpTo n read.2).map (read.1 :: ·)

/-- The chunks of a text. There are no more of them than characters. -/
def chunks (cs : List Char) : Option (List Chunk) :=
  chunksUpTo (cs.length + 1) cs

/-! ## Terms -/

/-- A comparison of two numbers. -/
inductive Order where
  | atMost | atLeast
deriving DecidableEq, Repr, Inhabited

/-- The comparison that a punctuator writes. -/
def Order.ofMark? : Punctuator → Option Order
  | .lessEqual => some .atMost
  | .greaterEqual => some .atLeast
  | _ => none

/-- An expression in the header of a loop. -/
inductive Term where
  | operand (text : String)
  | negative (operand : Term)
  | magnitude (operand : Term)
  | compare (order : Order) (left right : Term)
  | choice (test yes no : Term)
deriving DecidableEq, Repr, Inhabited

/-- The text between `front` and a parenthesis at the end. -/
def inside? (front cs : List Char) : Option (List Char) :=
  if front.isPrefixOf cs ∧ (cs.drop front.length).getLast? = some ')' then
    some (cs.drop front.length).dropLast
  else none

/-- What an operand is, by its parentheses. -/
inductive Form where
  | plain
  | magnitude (operand : String)
  | compare (order : Order) (left right : String)
deriving DecidableEq, Repr, Inhabited

/-- A comparison in parentheses, an absolute value, or anything else. -/
def Form.ofText (text : String) : Form :=
  match (inside? ['('] text.toList).bind chunks with
  | some [.operand left, .mark p, .operand right] =>
    match Order.ofMark? p with
    | some order => .compare order left right
    | none => .plain
  | _ =>
    match (inside? "Math.abs(".toList text.toList).bind chunks with
    | some [.operand operand] => .magnitude operand
    | _ => .plain

/-- The term that an operand writes. -/
def Term.ofText (text : String) : Term :=
  match Form.ofText text with
  | .plain => .operand text
  | .magnitude inner =>
    if inner.length < text.length then .magnitude (ofText inner) else .operand text
  | .compare order left right =>
    if left.length < text.length ∧ right.length < text.length then
      .compare order (ofText left) (ofText right)
    else .operand text
termination_by text.length

/-- An operand, with a minus or without. -/
def signed? : List Chunk → Option (Term × List Chunk)
  | .operand text :: ts => some (Term.ofText text, ts)
  | .mark .minus :: .operand text :: ts => some (.negative (Term.ofText text), ts)
  | _ => none

/-- One operand, or two that are compared. -/
def comparison? (ts : List Chunk) : Option (Term × List Chunk) :=
  (signed? ts).bind fun left =>
    match left.2 with
    | .mark p :: ts =>
      match Order.ofMark? p with
      | some order => (signed? ts).map fun right => (.compare order left.1 right.1, right.2)
      | none => some left
    | _ => some left

/-- A comparison, or a conditional of three. -/
def choice? (ts : List Chunk) : Option (Term × List Chunk) :=
  (comparison? ts).bind fun test =>
    match test.2 with
    | .mark .question :: ts =>
      (comparison? ts).bind fun yes =>
        match yes.2 with
        | .mark .colon :: ts =>
          (comparison? ts).map fun no => (.choice test.1 yes.1 no.1, no.2)
        | _ => none
    | _ => some test

/-! ## Headers -/

/-- The words that no variable can have as its name. -/
def unbindable : List String :=
  ["break", "case", "catch", "class", "const", "continue", "debugger", "default", "delete", "do",
    "else", "enum", "export", "extends", "false", "finally", "for", "function", "if", "import",
    "in", "instanceof", "let", "new", "null", "return", "super", "switch", "this", "throw", "true",
    "try", "typeof", "var", "void", "while", "with"]

/-- A loop that declares a counter, tests it before each run of its body and adds to it behind. -/
structure Loop where
  counter : String
  first : Term
  test : Term
  step : Term
deriving DecidableEq, Repr, Inhabited

/-- The loop with the header that some chunks write. -/
def header? : List Chunk → Option Loop
  | .operand word :: .operand counter :: .mark .assign :: ts =>
    if word = "let" ∧ counter ∉ unbindable then
      (choice? ts).bind fun first =>
        match first.2 with
        | .mark .semicolon :: ts =>
          (choice? ts).bind fun test =>
            match test.2 with
            | .mark .semicolon :: .operand target :: .mark .plusAssign :: ts =>
              (choice? ts).bind fun step =>
                if target = counter ∧ step.2 = [] then some ⟨counter, first.1, test.1, step.1⟩
                else none
            | _ => none
        | _ => none
    else none
  | _ => none

/-- The loop at the front of a script, and the text behind the brace that opens its body. -/
def loop? (script : String) : Option (Loop × List Char) :=
  (next? script.toList).bind fun word =>
    (next? word.2).bind fun header =>
      (next? header.2).bind fun brace =>
        match word.1, header.1, brace.1 with
        | .operand word, .operand text, .mark .openBrace =>
          if word = "for" then
            ((inside? ['('] text.toList).bind chunks).bind fun ts =>
              (header? ts).map fun loop => (loop, brace.2)
          else none
        | _, _, _ => none

/-! ## Running a loop -/

/-- What a term is worth. -/
inductive Value where
  | int (value : Int)
  | bool (value : Bool)
deriving DecidableEq, Repr, Inhabited

/-- Whether a comparison holds. -/
def Order.holds : Order → Int → Int → Bool
  | .atMost, i, j => i ≤ j
  | .atLeast, i, j => j ≤ i

variable {World : Type}

/-- What stands around a loop. It says what an operand is worth for a value of the counter, if it
has one, and how the world has changed then; and it may have a variable `Math` of its own. -/
structure Surroundings (World : Type) where
  value : String → Option Int → World → Option (Value × World)
  hidesMath : Bool

/-- The value of a term and the world behind it, if it has one. Operands go from left to right, and
of a conditional only the part that is chosen counts. -/
def Term.eval (around : Surroundings World) (counter : String) (x : Option Int) :
    Term → World → Option (Value × World)
  | .operand text, w =>
    if text = counter then x.map fun x => (.int x, w) else around.value text x w
  | .negative inner, w =>
    match inner.eval around counter x w with
    | some (.int i, w) => some (.int (-i), w)
    | _ => none
  | .magnitude inner, w =>
    if counter = "Math" ∨ around.hidesMath then none
    else match inner.eval around counter x w with
      | some (.int i, w) => some (.int i.natAbs, w)
      | _ => none
  | .compare order left right, w =>
    match left.eval around counter x w with
    | some (.int i, w) =>
      match right.eval around counter x w with
      | some (.int j, w) => some (.bool (order.holds i j), w)
      | _ => none
    | _ => none
  | .choice test yes no, w =>
    match test.eval around counter x w with
    | some (.bool true, w) => yes.eval around counter x w
    | some (.bool false, w) => no.eval around counter x w
    | _ => none

namespace Loop

/-- How a loop ends: with its test, or because a value is missing. -/
inductive Finish (World : Type) where
  | done (world : World)
  | failed

/-- The values of the counter for which the body is run, and how the loop ends, from the test of a
value on. The body does not assign the counter. -/
inductive Turns (loop : Loop) (around : Surroundings World) (body : Int → World → World) :
    Int → World → List Int → Finish World → Prop
  | stop {x w w'} : loop.test.eval around loop.counter (some x) w = some (.bool false, w') →
    Turns loop around body x w [] (.done w')
  | noTest {x w} : (∀ b w', loop.test.eval around loop.counter (some x) w ≠ some (.bool b, w')) →
    Turns loop around body x w [] .failed
  | turn {x w w' d w'' xs finish} :
    loop.test.eval around loop.counter (some x) w = some (.bool true, w') →
    loop.step.eval around loop.counter (some x) (body x w') = some (.int d, w'') →
    Turns loop around body (x + d) w'' xs finish → Turns loop around body x w (x :: xs) finish
  | noStep {x w w'} : loop.test.eval around loop.counter (some x) w = some (.bool true, w') →
    (∀ d w'', loop.step.eval around loop.counter (some x) (body x w') ≠ some (.int d, w'')) →
    Turns loop around body x w [x] .failed

/-- The values of the counter for which the body is run, and how the loop ends. -/
inductive Runs (loop : Loop) (around : Surroundings World) (body : Int → World → World) :
    World → List Int → Finish World → Prop
  | enter {w x w' xs finish} : loop.first.eval around loop.counter none w = some (.int x, w') →
    Turns loop around body x w' xs finish → Runs loop around body w xs finish
  | noFirst {w} : (∀ x w', loop.first.eval around loop.counter none w ≠ some (.int x, w')) →
    Runs loop around body w [] .failed

variable {loop : Loop} {around : Surroundings World} {body : Int → World → World} {x : Int}
  {w : World} {xs xs' : List Int} {finish finish' : Finish World}

/-- From a value of the counter on, a loop runs in one way only. -/
theorem Turns.unique (h : loop.Turns around body x w xs finish)
    (h' : loop.Turns around body x w xs' finish') : xs = xs' ∧ finish = finish' := by
  induction h generalizing xs' with
  | stop htest =>
    cases h' with
    | stop htest' =>
      cases htest.symm.trans htest'
      exact ⟨rfl, rfl⟩
    | noTest htest' => exact absurd htest (htest' _ _)
    | turn htest' | noStep htest' => cases htest.symm.trans htest'
  | noTest htest =>
    cases h' with
    | noTest => exact ⟨rfl, rfl⟩
    | stop htest' | turn htest' | noStep htest' => exact absurd htest' (htest _ _)
  | turn htest hstep _ ih =>
    cases h' with
    | stop htest' => cases htest.symm.trans htest'
    | noTest htest' => exact absurd htest (htest' _ _)
    | turn htest' hstep' hrest =>
      cases htest.symm.trans htest'
      cases hstep.symm.trans hstep'
      obtain ⟨rfl, rfl⟩ := ih hrest
      exact ⟨rfl, rfl⟩
    | noStep htest' hstep' =>
      cases htest.symm.trans htest'
      exact absurd hstep (hstep' _ _)
  | noStep htest hstep =>
    cases h' with
    | stop htest' => cases htest.symm.trans htest'
    | noTest htest' => exact absurd htest (htest' _ _)
    | turn htest' hstep' _ =>
      cases htest.symm.trans htest'
      exact absurd hstep' (hstep _ _)
    | noStep => exact ⟨rfl, rfl⟩

theorem Runs.unique (h : loop.Runs around body w xs finish)
    (h' : loop.Runs around body w xs' finish') : xs = xs' ∧ finish = finish' := by
  cases h with
  | enter hfirst hturns =>
    cases h' with
    | enter hfirst' hturns' =>
      cases hfirst.symm.trans hfirst'
      exact hturns.unique hturns'
    | noFirst hfirst' => exact absurd hfirst (hfirst' _ _)
  | noFirst hfirst =>
    cases h' with
    | enter hfirst' _ => exact absurd hfirst' (hfirst _ _)
    | noFirst => exact ⟨rfl, rfl⟩

theorem Runs.iff (h : loop.Runs around body w xs finish) (ys : List Int) (end_ : Finish World) :
    loop.Runs around body w ys end_ ↔ ys = xs ∧ end_ = finish := by
  constructor
  · exact fun h' => h'.unique h
  · rintro ⟨rfl, rfl⟩
    exact h

end Loop

/-! ## Values of terms -/

namespace Term

variable {around : Surroundings World} {counter : String} {x : Option Int} {w w' w'' : World}

theorem eval_counter (i : Int) (w : World) :
    (Term.operand counter).eval around counter (some i) w = some (.int i, w) := by
  simp [eval]

theorem eval_compare (order : Order) {left right : Term} {i j : Int}
    (hleft : left.eval around counter x w = some (.int i, w'))
    (hright : right.eval around counter x w' = some (.int j, w'')) :
    (compare order left right).eval around counter x w = some (.bool (order.holds i j), w'') := by
  simp only [eval, hleft, hright]

theorem eval_choice {test yes no : Term} {b : Bool}
    (htest : test.eval around counter x w = some (.bool b, w')) :
    (choice test yes no).eval around counter x w =
      if b then yes.eval around counter x w' else no.eval around counter x w' := by
  cases b <;> simp [eval, htest]

end Term

/-! ## Reading chunks -/

theorem operandFrom?_append {s t : Scan.State} {cs : List Char} (h : solidRun s cs = some t)
    (rest : List Char) : operandFrom? s (cs ++ rest) =
      (operandFrom? t rest).map fun read => (cs ++ read.1, read.2) := by
  induction cs generalizing s with
  | nil =>
    cases h
    simp
  | cons c cs ih =>
    obtain ⟨u, hu, hrest⟩ := Option.bind_eq_some_iff.1 h
    rw [Scan.solidStep] at hu
    split at hu
    · cases hu
    · next hpart =>
      rw [List.cons_append, operandFrom?, if_neg hpart, hu, Option.bind_some, ih hrest,
        Option.map_map]
      rfl

theorem operandFrom?_of_head {rest : List Char} (h : ∀ c ∈ rest.head?, isOperandPart c = false) :
    operandFrom? start rest = some ([], rest) := by
  cases rest with
  | nil => rfl
  | cons c rest => rw [operandFrom?, if_pos ⟨rfl, h c rfl⟩]

/-- The text is read as the chunks. -/
inductive Chunked : List Char → List Chunk → Prop
  | nil : Chunked [] []
  | space {cs ts} : Chunked cs ts → Chunked (' ' :: cs) ts
  | operand {text cs ts} : Solid text → (∀ c ∈ cs.head?, isOperandPart c = false) →
    Chunked cs ts → Chunked (text.toList ++ cs) (.operand text :: ts)
  | mark {p : Punctuator} {cs ts} : p.spelling.head?.any isOperandPart = false →
    p.Clear cs → Chunked cs ts → Chunked (p.spelling ++ cs) (.mark p :: ts)

theorem isOperandPart_head_space {cs : List Char} :
    ∀ c ∈ (' ' :: cs).head?, isOperandPart c = false := by
  rintro c ⟨⟩
  decide

theorem next?_space (cs : List Char) : next? (' ' :: cs) = next? cs := by
  rw [next?, next?, List.dropWhile_cons_of_pos rfl]

theorem next?_operand {text : String} {rest : List Char} (h : Solid text)
    (hrest : ∀ c ∈ rest.head?, isOperandPart c = false) :
    next? (text.toList ++ rest) = some (.operand text, rest) := by
  obtain ⟨c, cs, hcs, hpart⟩ := h.exists_cons
  have hspace : (c == ' ') = false := by
    rw [beq_eq_false_iff_ne]
    rintro rfl
    exact absurd hpart (by decide)
  have hread : operandFrom? start (text.toList ++ rest) = some (text.toList, rest) := by
    rw [operandFrom?_append h.run, operandFrom?_of_head hrest, Option.map_some, List.append_nil]
  rw [hcs, List.cons_append] at hread
  rw [hcs, List.cons_append, next?, List.dropWhile_cons_of_neg (by simp [hspace])]
  simp only [hpart, if_true, hread, Option.map_some]
  rw [← hcs, String.ofList_toList]

theorem next?_mark {p : Punctuator} {rest : List Char}
    (hp : p.spelling.head?.any isOperandPart = false) (hclear : p.Clear rest) :
    next? (p.spelling ++ rest) = some (.mark p, rest) := by
  have hlongest := hclear.longest?
  obtain ⟨c, cs, hcs, hspace⟩ : ∃ c cs, p.spelling = c :: cs ∧ (c == ' ') = false := by
    cases p <;> exact ⟨_, _, rfl, rfl⟩
  have hdrop : (p.spelling ++ rest).drop p.spelling.length = rest := List.drop_left
  rw [hcs, List.cons_append] at hlongest hdrop
  rw [hcs] at hp
  have hpart : isOperandPart c = false := hp
  rw [hcs, List.cons_append, next?, List.dropWhile_cons_of_neg (by simp [hspace])]
  simp only [hpart, Bool.false_eq_true, if_false, hlongest, Option.map_some, hcs, hdrop]

theorem chunksUpTo_of_next? {cs rest : List Char} {chunk : Chunk} {n : Nat}
    (h : next? cs = some (chunk, rest)) :
    chunksUpTo (n + 1) cs = (chunksUpTo n rest).map (chunk :: ·) := by
  have hspaces : ¬ cs.all (· == ' ') = true := by
    intro hall
    have hnil : cs.dropWhile (· == ' ') = [] :=
      List.dropWhile_eq_nil_iff.2 (List.all_eq_true.1 hall)
    rw [next?, hnil] at h
    cases h
  rw [chunksUpTo, if_neg hspaces, h]
  rfl

theorem Chunked.chunksUpTo_eq {cs : List Char} {ts : List Chunk} {n : Nat} (h : Chunked cs ts)
    (hn : cs.length ≤ n) : chunksUpTo (n + 1) cs = some ts := by
  induction h generalizing n with
  | nil => rfl
  | space _ ih =>
    rw [List.length_cons] at hn
    have hrest := ih (n := n) (by omega)
    rw [chunksUpTo, next?_space] at *
    exact hrest
  | @operand text cs ts htext hcs _ ih =>
    have hlength : 0 < text.toList.length :=
      List.length_pos_of_ne_nil (by simpa using htext.ne_empty)
    rw [List.length_append] at hn
    obtain ⟨n, rfl⟩ := Nat.exists_eq_add_of_le' (show 1 ≤ n by omega)
    rw [chunksUpTo_of_next? (next?_operand htext hcs), ih (by omega)]
    rfl
  | @mark p cs ts hp hclear _ ih =>
    have hlength : 0 < p.spelling.length := List.length_pos_of_ne_nil p.spelling_ne_nil
    rw [List.length_append] at hn
    obtain ⟨n, rfl⟩ := Nat.exists_eq_add_of_le' (show 1 ≤ n by omega)
    rw [chunksUpTo_of_next? (next?_mark hp hclear), ih (by omega)]
    rfl

theorem Chunked.chunks_eq {cs : List Char} {ts : List Chunk} (h : Chunked cs ts) :
    chunks cs = some ts :=
  h.chunksUpTo_eq (Nat.le_refl _)

theorem Punctuator.clear_space (p : Punctuator) (cs : List Char) : p.Clear (' ' :: cs) := by
  refine clear_of_not_mem ?_
  rintro c ⟨⟩
  decide

/-- An operand and an operator with a space on each side. -/
theorem Chunked.before {text : String} {cs : List Char} {ts : List Chunk} {p : Punctuator}
    (hp : p.spelling.head?.any isOperandPart = false) (htext : Solid text)
    (h : Chunked cs ts) :
    Chunked (text.toList ++ ' ' :: (p.spelling ++ ' ' :: cs)) (.operand text :: .mark p :: ts) :=
  .operand htext isOperandPart_head_space (.space (.mark hp (p.clear_space cs) (.space h)))

/-- An operand at the end of a clause. -/
theorem Chunked.ended {text : String} {cs : List Char} {ts : List Chunk} (htext : Solid text)
    (h : Chunked cs ts) : Chunked (text.toList ++ (Punctuator.semicolon.spelling ++ ' ' :: cs))
      (.operand text :: .mark .semicolon :: ts) := by
  refine .operand htext ?_ (.mark (by decide) (Punctuator.clear_space _ cs) (.space h))
  rintro c ⟨⟩
  decide

theorem Chunked.last {text : String} (h : Solid text) : Chunked text.toList [.operand text] := by
  have hlast := Chunked.operand h (by simp) .nil
  rwa [List.append_nil] at hlast

/-! ## Reading terms -/

theorem inside?_append (front inner : List Char) :
    inside? front (front ++ (inner ++ [')'])) = some inner := by
  simp [inside?]

theorem chunks_inside {text : String} {front cs : List Char} {ts : List Chunk} (h : Chunked cs ts)
    (htext : text.toList = front ++ (cs ++ [')'])) :
    (inside? front text.toList).bind chunks = some ts := by
  rw [htext, inside?_append, Option.bind_some, h.chunks_eq]

/-- A word is no comparison and no absolute value. -/
theorem Term.ofText_of_not_mem {text : String} (h : '(' ∉ text.toList) :
    ofText text = .operand text := by
  have hinside : ∀ front, '(' ∈ front → inside? front text.toList = none := by
    intro front hfront
    rw [inside?, if_neg]
    rintro ⟨hstarts, -⟩
    exact h ((List.isPrefixOf_iff_prefix.1 hstarts).subset hfront)
  have hform : Form.ofText text = .plain := by
    rw [Form.ofText, hinside _ (by decide), hinside _ (by decide)]
    rfl
  rw [ofText, hform]

theorem Term.ofText_compare {left right : String} (hleft : Solid left) (hright : Solid right) :
    ofText ("(" ++ left ++ " <= " ++ right ++ ")") =
      .compare .atMost (ofText left) (ofText right) := by
  have hchunks : (inside? ['('] ("(" ++ left ++ " <= " ++ right ++ ")").toList).bind chunks =
      some [.operand left, .mark .lessEqual, .operand right] :=
    chunks_inside (.before (by decide) hleft (.last hright)) (by simp [Punctuator.spelling])
  have hform : Form.ofText ("(" ++ left ++ " <= " ++ right ++ ")") =
      .compare .atMost left right := by
    rw [Form.ofText, hchunks]
    rfl
  have hshorter : left.length < ("(" ++ left ++ " <= " ++ right ++ ")").length ∧
      right.length < ("(" ++ left ++ " <= " ++ right ++ ")").length := by
    simp only [String.length_append]
    have hparen : "(".length = 1 := rfl
    omega
  rw [ofText, hform]
  exact if_pos hshorter

theorem Term.ofText_magnitude {inner : String} (h : Solid inner) :
    ofText ("Math.abs(" ++ inner ++ ")") = .magnitude (ofText inner) := by
  have hchunks : (inside? "Math.abs(".toList ("Math.abs(" ++ inner ++ ")").toList).bind chunks =
      some [.operand inner] :=
    chunks_inside (.last h) (by simp)
  have hparen : inside? ['('] ("Math.abs(" ++ inner ++ ")").toList = none := by
    rw [inside?, if_neg]
    simp
  have hform : Form.ofText ("Math.abs(" ++ inner ++ ")") = .magnitude inner := by
    rw [Form.ofText, hparen, Option.bind_none, hchunks]
  have hshorter : inner.length < ("Math.abs(" ++ inner ++ ")").length := by
    simp only [String.length_append]
    have hfront : "Math.abs(".length = 9 := rfl
    omega
  rw [ofText, hform]
  exact if_pos hshorter

end Resin.JavaScript
