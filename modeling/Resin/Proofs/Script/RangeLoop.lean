import Resin.Proofs.JavaScript.Progression
import Resin.Script.Stmt

/-!
# Scripts of loops over a range

The header of a loop over a range is one text for both directions: each of its clauses writes the
test on the bounds again. The bounds and the step are operands, whatever their expressions are, so
the header is read clause by clause (`loop?_rangeLoop`), and the loop that is read visits the range
from its first to its last bound (`rangeLoop_visits`). Two things can go wrong, both by the name of
the counter: some words cannot be declared at all, and a counter `Math` hides the absolute value.
-/

namespace Resin

open JavaScript Scan

variable {counter : String} {first last step : Fragment}

theorem solid_up {first last : String} (hfirst : Solid first) (hlast : Solid last) :
    Solid ("(" ++ first ++ " <= " ++ last ++ ")") :=
  solid_after "(" (by decide) rfl [.put _, .own " <= ", .put _, .own ")"] rfl
    ⟨hfirst.closed, hlast.closed, trivial⟩

theorem solid_magnitude {step : String} (hstep : Solid step) :
    Solid ("Math.abs(" ++ step ++ ")") :=
  solid_after "Math.abs(" (by decide) rfl [.put _, .own ")"] rfl
    ⟨hstep.closed, trivial⟩

/-- The header of a loop over a range, in its parentheses. -/
def rangeHeader (counter first last step : String) : String :=
  let up := "(" ++ first ++ " <= " ++ last ++ ")"
  "(let " ++ counter ++ " = " ++ up ++ " ? " ++ first ++ " : " ++ first ++ "; " ++
    up ++ " ? " ++ counter ++ " <= " ++ last ++ " : " ++ counter ++ " >= " ++ last ++ "; " ++
    counter ++ " += " ++ up ++ " ? Math.abs(" ++ step ++ ") : -Math.abs(" ++ step ++ "))"

theorem code_rangeLoop (body : List Fragment) :
    (rangeLoop counter first last step body).code = "for " ++
      rangeHeader counter first.code last.code step.code ++ " " ++ (braced body).code := by
  have hfor : "for (let " = "for " ++ "(let " := rfl
  have hend : ")) " = "))" ++ " " := rfl
  unfold rangeLoop rangeHeader
  simp only [Fragment.code_append, Fragment.text]
  rw [hfor, hend, ← String.toList_inj]
  simp only [String.toList_append, List.append_assoc]

/-- The chunks of the header of a loop over a range, clause by clause. -/
def rangeChunks (counter first last step : String) : List Chunk :=
  let up := .operand ("(" ++ first ++ " <= " ++ last ++ ")")
  let magnitude := .operand ("Math.abs(" ++ step ++ ")")
  [.operand "let", .operand counter, .mark .assign,
      up, .mark .question, .operand first, .mark .colon, .operand first, .mark .semicolon,
    up, .mark .question, .operand counter, .mark .lessEqual, .operand last,
      .mark .colon, .operand counter, .mark .greaterEqual, .operand last, .mark .semicolon,
    .operand counter, .mark .plusAssign,
      up, .mark .question, magnitude, .mark .colon, .mark .minus, magnitude]

theorem chunks_rangeHeader {counter first last step : String} (hcounter : Solid counter)
    (hfirst : Solid first) (hlast : Solid last) (hstep : Solid step) :
    (inside? ['('] (rangeHeader counter first last step).toList).bind chunks =
      some (rangeChunks counter first last step) := by
  have hup := solid_up hfirst hlast
  have hmagnitude := solid_magnitude hstep
  -- a minus is a minus in front of a word
  have hminus : Punctuator.minus.Clear ("Math.abs(" ++ step ++ ")").toList := by
    refine Punctuator.clear_of_not_mem ?_
    rw [String.toList_append, String.toList_append]
    rintro c ⟨⟩
    decide
  have hminus := Chunked.mark (by decide) hminus (.last hmagnitude)
  have hadd := Chunked.before (p := .plusAssign) (by decide) hcounter
    (.before (p := .question) (by decide) hup (.before (p := .colon) (by decide) hmagnitude hminus))
  have htest := Chunked.before (p := .question) (by decide) hup
    (.before (p := .lessEqual) (by decide) hcounter (.before (p := .colon) (by decide) hlast
      (.before (p := .greaterEqual) (by decide) hcounter (.ended hlast hadd))))
  have hdeclare := Chunked.before (p := .assign) (by decide) hcounter
    (.before (p := .question) (by decide) hup (.before (p := .colon) (by decide) hfirst
      (.ended hfirst htest)))
  have hlet := Chunked.operand (show Solid "let" by decide) isOperandPart_head_space
    (.space hdeclare)
  refine chunks_inside hlet ?_
  unfold rangeHeader
  simp only [String.toList_append, List.append_assoc, List.cons_append]
  rfl

theorem header?_rangeChunks {counter first last step : String} (hcounter : IsName counter)
    (hfirst : Solid first) (hlast : Solid last) (hstep : Solid step) :
    header? (rangeChunks counter first last step) =
      if counter ∈ unbindable then none else some (.range counter first last step) := by
  unfold rangeChunks
  by_cases hbindable : counter ∈ unbindable
  · rw [if_pos hbindable, header?, if_neg fun hlet => hlet.2 hbindable]
  · have hterm : Term.ofText counter = .operand counter :=
      Term.ofText_of_not_mem fun hmem => absurd (hcounter.2.1 _ hmem) (by decide)
    rw [if_neg hbindable, header?, if_pos ⟨rfl, hbindable⟩, Loop.range, ← hterm,
      ← Term.ofText_compare hfirst hlast, ← Term.ofText_magnitude hstep]
    exact if_pos ⟨rfl, rfl⟩

theorem solid_rangeHeader {counter first last step : String} (hcounter : Solid counter)
    (hfirst : Solid first) (hlast : Solid last) (hstep : Solid step) :
    Solid (rangeHeader counter first last step) := by
  have hup := (solid_up hfirst hlast).closed
  exact solid_after "(let " (by decide) rfl
    [.put _, .own " = ", .put _, .own " ? ", .put _, .own " : ", .put _, .own "; ",
      .put _, .own " ? ", .put _, .own " <= ", .put _, .own " : ", .put _, .own " >= ", .put _,
      .own "; ", .put _, .own " += ", .put _, .own " ? Math.abs(", .put _, .own ") : -Math.abs(",
      .put _, .own "))"] rfl
    ⟨hcounter.closed, hup, hfirst.closed, hfirst.closed, hup, hcounter.closed, hlast.closed,
      hcounter.closed, hlast.closed, hcounter.closed, hup, hstep.closed, hstep.closed, trivial⟩

/-- The script of a loop over a range is read as that loop, if its counter can be declared. -/
theorem loop?_rangeLoop (hcounter : IsName counter) (hfirst : Solid first.code)
    (hlast : Solid last.code) (hstep : Solid step.code) (body : List Fragment) :
    loop? (rangeLoop counter first last step body).code =
      if counter ∈ unbindable then none
      else
        some (.range counter first.code last.code step.code, (braced body).code.toList.tail) := by
  have hheader := solid_rangeHeader hcounter.solid hfirst hlast hstep
  have hcode : (rangeLoop counter first last step body).code.toList = "for".toList ++ ' ' ::
      ((rangeHeader counter first.code last.code step.code).toList ++ ' ' ::
        (braced body).code.toList) := by
    rw [code_rangeLoop]
    simp
  have hbrace : next? (braced body).code.toList =
      some (.mark .openBrace, (braced body).code.toList.tail) := by
    have htext : (braced body).code.toList = Punctuator.openBrace.spelling ++ '\n' ::
        ((Fragment.join "\n" body).code ++ "\n\x7d").toList := by
      rw [String.toList_append]
      simp [braced, Fragment.text, Punctuator.spelling]
    rw [htext]
    refine next?_mark (by decide) (Punctuator.clear_of_not_mem ?_)
    rintro c ⟨⟩
    decide
  rw [loop?, hcode, next?_operand (by decide) isOperandPart_head_space, Option.bind_some,
    next?_space, next?_operand hheader isOperandPart_head_space, Option.bind_some, next?_space,
    hbrace, Option.bind_some]
  show (if "for" = "for" then _ else _) = _
  rw [if_pos rfl, chunks_rangeHeader hcounter.solid hfirst hlast hstep, Option.bind_some,
    header?_rangeChunks hcounter hfirst hlast hstep]
  split <;> rfl

/-! ## Loops of programs -/

theorem counter_isName {source : String} {p : List Stmt} {first last step : Expr}
    {body : List Stmt} {span : Span} (hp : parseProgram source = .ok p)
    (hmem : .repeatRange counter first last step body span ∈ Stmt.nodesList p) :
    IsName counter := by
  obtain ⟨ts, hitems, hstatements⟩ := statements_of_parseProgram hp
  obtain ⟨us, hus, hderived⟩ := hstatements.of_mem_nodes _ hmem
  exact (hderived.names ((wordsAll_of_items hitems).of_stretch hus)).1 counter
    (List.mem_singleton_self counter)

/-- A loop over a range in a program, whose bounds and step keep the values `a`, `z` and `d` in it,
runs its body for `a` and every `|d|`-th number behind it, up if `a ≤ z` and else down, as far as
`z`, and ends. The exceptions are a counter that cannot be declared, with which the script is no
loop, and the counter `Math`, with which the loop fails behind its first turn, as it does if `Math`
is hidden around it. -/
theorem rangeLoop_visits {source : String} {p : List Stmt} (hp : parseProgram source = .ok p)
    {counter : String} {first last step : Expr} {body : List Stmt} {span : Span}
    (hmem : .repeatRange counter first last step body span ∈ Stmt.nodesList p)
    {typed : List String} {g : Fragment}
    (hg : (Stmt.repeatRange counter first last step body span).script typed = .ok g) :
    ∃ f l s : Fragment, first.script = .ok f ∧ last.script = .ok l ∧ step.script = .ok s ∧
      (counter ∈ unbindable → loop? g.code = none) ∧
      (counter ∉ unbindable → ∃ loop rest, loop? g.code = some (loop, rest) ∧
        ∀ (World : Type) (around : Surroundings World) (turn : Int → World → World)
          (holds : Option Int → World → Prop) (a z d : Int) (w : World),
          Loop.Steady around turn counter f.code l.code s.code holds a z d → d ≠ 0 →
          holds none w →
          (counter ≠ "Math" ∧ around.hidesMath = false → ∃ w', ∀ xs finish,
            loop.Runs around turn w xs finish ↔
              xs = Loop.progression a z d ∧ finish = .done w') ∧
          (counter = "Math" ∨ around.hidesMath = true → ∀ xs finish,
            loop.Runs around turn w xs finish ↔ xs = [a] ∧ finish = .failed)) ∧
      ∀ (a z d : Int) (k : Nat), d ≠ 0 → (Loop.progression a z d)[k]? =
        if a ≤ z then if a + k * d.natAbs ≤ z then some (a + k * d.natAbs) else none
        else if z ≤ a - k * d.natAbs then some (a - k * d.natAbs) else none := by
  have hcounter := counter_isName hp hmem
  have hbuilt : ∀ e ∈ [first, last, step], e.Built :=
    fun e he => .inr ⟨source, p, hp, _, hmem, Expr.mem_nodesList he⟩
  rw [Stmt.script] at hg
  obtain ⟨f, hf, hg⟩ := exists_of_bind_eq_ok hg
  obtain ⟨l, hl, hg⟩ := exists_of_bind_eq_ok hg
  obtain ⟨s, hs, hg⟩ := exists_of_bind_eq_ok hg
  obtain ⟨lines, -, hg⟩ := exists_of_bind_eq_ok hg
  obtain rfl := Except.ok.inj hg
  have hread := loop?_rangeLoop hcounter ((hbuilt first (by simp)).solid hf)
    ((hbuilt last (by simp)).solid hl) ((hbuilt step (by simp)).solid hs) lines
  refine ⟨f, l, s, hf, hl, hs, fun hword => ?_, fun hword => ?_, ?_⟩
  · rw [hread, if_pos hword]
  · refine ⟨_, _, hread.trans (if_neg hword), ?_⟩
    intro World around turn holds a z d w hsteady hd hw
    constructor
    · intro hmath
      obtain ⟨w', hruns⟩ := hsteady.exists_runs hd hmath hw
      exact ⟨w', hruns.iff⟩
    · intro hmath
      exact (hsteady.runs_of_hidden hmath hw).iff
  · intro a z d k hd
    exact Loop.getElem?_progression hd k

/-- A loop from ten to `n` by minus four. -/
def countdown : Stmt :=
  .repeatRange "i" (.number (.finite false 5629499534213120 (-49)) ⟨13, 15⟩) (.name "n" ⟨19, 20⟩)
    (.signed .minus (.number (.finite false 4503599627370496 (-50)) ⟨23, 24⟩) ⟨22, 24⟩)
    [.display (.name "i" ⟨33, 34⟩) ⟨28, 35⟩] ⟨0, 37⟩

/-- Surroundings in which `n` is zero. -/
def zeroBound : Surroundings Unit where
  value text _ w :=
    if text = "10" then some (.int 10, w)
    else if text = "n" then some (.int 0, w)
    else if text = "(-4)" then some (.int (-4), w)
    else none
  hidesMath := false

/-- The step has the other sign than the way to the last bound, and does not divide it. -/
theorem rangeLoop_visits_down :
    parseProgram "repeat [i in 10 to n, -4] \x7b show i; \x7d" = .ok [countdown] ∧
      ∃ g loop rest, countdown.script [] = .ok g ∧ loop? g.code = some (loop, rest) ∧
        ∀ xs finish, loop.Runs zeroBound (fun _ w => w) () xs finish ↔
          xs = [10, 6, 2] ∧ finish = .done () := by
  have hp : parseProgram "repeat [i in 10 to n, -4] \x7b show i; \x7d" = .ok [countdown] :=
    eq_ok_of_toOption (by decide +kernel)
  have hg : countdown.script [] = .ok _ := rfl
  obtain ⟨f, l, s, hf, hl, hs, -, hread, -⟩ := rangeLoop_visits hp (List.mem_cons_self ..) hg
  obtain ⟨loop, rest, hloop, hruns⟩ := hread (by decide)
  have hfirst : f.code = "10" := by
    obtain rfl := Except.ok.inj hf
    decide +kernel
  have hlast : l.code = "n" := by
    obtain rfl := Except.ok.inj hl
    rfl
  have hstep : s.code = "(-4)" := by
    obtain rfl := Except.ok.inj hs
    decide +kernel
  rw [hfirst, hlast, hstep] at hruns
  have hform : Form.ofText "(-4)" = .plain := by decide +kernel
  have hsteady : Loop.Steady zeroBound (fun _ w => w) "i" "10" "n" "(-4)"
      (fun _ _ => True) 10 0 (-4) := {
    first := fun x w _ => ⟨w, by rw [Term.ofText_of_not_mem (by decide)]; rfl, trivial⟩
    last := fun x w _ => ⟨w, by rw [Term.ofText_of_not_mem (by decide)]; rfl, trivial⟩
    step := fun x w _ _ => ⟨w, by rw [Term.ofText, hform]; rfl, trivial⟩
    enter := fun _ _ => trivial
    turn := fun _ _ _ _ => trivial
    next := fun _ _ _ _ => trivial }
  obtain ⟨w', hexact⟩ := (hruns Unit zeroBound _ _ 10 0 (-4) () hsteady (by decide) trivial).1
    ⟨by decide, rfl⟩
  exact ⟨hp, _, loop, rest, hg, hloop, hexact⟩

end Resin
