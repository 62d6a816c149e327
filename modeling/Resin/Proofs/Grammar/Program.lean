import Resin.Proofs.Grammar.StmtSound
import Resin.Proofs.Token.Outcomes
import Resin.Proofs.Tree.Nodes
import Resin.Tree.Equality

/-!
# Accepted programs are in the grammar

If a source is accepted, its tokens up to the end of the file write the program, and there is no
error among them. The surface grammar lets only a call or a method call stand alone as a statement.
The parser looks at the first word of such a statement and then takes any expression, so
`call f[] + 1;` is accepted too; `parseProgram_derivable` says that this is the only excess.

The statements inside a program are derived from stretches of its tokens
(`Grammar.Statements.of_mem_nodes`), so what a derivation says about its own statement holds of all
of them.
-/

namespace Resin

/-- A declaration without a value has a type and is not fixed. -/
def Declaration.Supplied (d : Declaration) : Prop :=
  d.value = none → d.type ≠ none ∧ d.binding ≠ .fixed

namespace Grammar

variable {alone alone' : Expr → Prop} {ts : List (Located Token)}

/-! ## The statements inside a derivable one -/

/-- A tree is derived from a stretch of the tokens. -/
def Within {α : Type} (R : List (Located Token) → α → Prop) (ts : List (Located Token)) (a : α) :
    Prop :=
  ∃ us, us <:+: ts ∧ R us a

namespace Within

variable {α : Type} {R : List (Located Token) → α → Prop} {a : α} {us vs : List (Located Token)}
  {token : Located Token}

theorem self (h : R ts a) : Within R ts a :=
  ⟨ts, List.infix_refl ts, h⟩

theorem mono (h : Within R us a) (hus : us <:+: ts) : Within R ts a := by
  obtain ⟨vs, hvs, ha⟩ := h
  exact ⟨vs, hvs.trans hus, ha⟩

theorem cons (h : Within R us a) : Within R (token :: us) a :=
  h.mono (List.suffix_cons token us).isInfix

theorem inLeft (h : Within R us a) : Within R (us ++ vs) a :=
  h.mono (List.prefix_append us vs).isInfix

theorem inRight (h : Within R us a) : Within R (vs ++ us) a :=
  h.mono (List.suffix_append vs us).isInfix

end Within

mutual

theorem Statement.of_mem_inner {ts : List (Located Token)} {stmt : Stmt} :
    Statement alone ts stmt → ∀ x ∈ stmt.inner, Within (Statement alone) ts x
  | .check _ hb ho hts => fun x hx => by
    rw [hts]
    rcases List.mem_append.1 hx with hx | hx
    · exact (hb.of_mem_nodes x hx).cons.inRight.inLeft
    · exact (ho.of_mem_nodes x hx).inRight
  | .repeatRange _ _ _ hb hts | .repeatUntil _ hb hts | .forLoop _ _ _ hb hts => fun x hx =>
    hts ▸ (hb.of_mem_nodes x hx).cons.inRight
  | .repeatEach hb hts => fun x hx =>
    hts ▸ (hb.of_mem_nodes x hx).cons.cons.cons.cons.cons.cons
  | .function _ _ hb hts => fun x hx => hts ▸ (hb.of_mem_nodes x hx).inRight
  | .declare _ _ | .store _ _ | .update _ _ | .give _ _ | .display _ _ | .error _ _ | .panic _ _
  | .skip _ | .halt _ | .raw _ | .rawEnded _ | .expr _ _ _ _ => fun x hx => by cases hx

theorem Block.of_mem_nodes {ts : List (Located Token)} {body : List Stmt} :
    Block alone ts body → ∀ x ∈ Stmt.nodesList body, Within (Statement alone) ts x
  | .mk hs hts => fun x hx => hts ▸ (hs.of_mem_nodes x hx).cons.inLeft

theorem Alternatives.of_mem_nodes {ts : List (Located Token)} {other : Otherwise} :
    Alternatives alone ts other → ∀ x ∈ Stmt.nodesOtherwise other, Within (Statement alone) ts x
  | .nothing => fun x hx => by cases hx
  | .check _ hb hn hts => fun x hx => by
    rw [hts]
    rcases List.mem_append.1 hx with hx | hx
    · exact (hb.of_mem_nodes x hx).cons.inRight.inLeft
    · exact (hn.of_mem_nodes x hx).inRight
  | .block hb hts => fun x hx => hts ▸ (hb.of_mem_nodes x hx).cons

/-- Every statement inside derivable ones is derivable, from a stretch of their tokens. -/
theorem Statements.of_mem_nodes {ts : List (Located Token)} {body : List Stmt} :
    Statements alone ts body → ∀ x ∈ Stmt.nodesList body, Within (Statement alone) ts x
  | .nil => fun x hx => by cases hx
  | .cons hs hss => fun x hx => by
    simp only [Stmt.nodesList, List.cons_append, List.mem_cons, List.mem_append] at hx
    rcases hx with rfl | hx | hx
    · exact (Within.self hs).inLeft
    · exact (hs.of_mem_inner x hx).inLeft
    · exact (hss.of_mem_nodes x hx).inRight

end

/-! ## Lone expressions -/

/-- A statement that is an expression is one that may stand alone. -/
def StandsBy (alone : Expr → Prop) : Stmt → Prop
  | .expr e _ => alone e
  | _ => True

theorem Statement.standsBy {stmt : Stmt} (h : Statement alone ts stmt) : StandsBy alone stmt := by
  cases h with
  | expr _ _ halone _ => exact halone
  | _ => trivial

mutual

/-- A derivation serves for every `alone'` that has the lone expressions of the statement. -/
theorem Statement.change {ts : List (Located Token)} {stmt : Stmt} : Statement alone ts stmt →
    StandsBy alone' stmt → (∀ x ∈ stmt.inner, StandsBy alone' x) → Statement alone' ts stmt
  | .check he hb ho hts, _, h =>
    .check he (hb.change (List.forall_mem_append.1 h).1) (ho.change (List.forall_mem_append.1 h).2)
      hts
  | .repeatRange hf hl hs hb hts, _, h => .repeatRange hf hl hs (hb.change h) hts
  | .repeatEach hb hts, _, h => .repeatEach (hb.change h) hts
  | .repeatUntil he hb hts, _, h => .repeatUntil he (hb.change h) hts
  | .forLoop hs he hi hb hts, _, h => .forLoop hs he hi (hb.change h) hts
  | .function hp hr hb hts, _, h => .function hp hr (hb.change h) hts
  | .declare h hts, _, _ => .declare h hts
  | .store h hts, _, _ => .store h hts
  | .update h hts, _, _ => .update h hts
  | .give h hts, _, _ => .give h hts
  | .display h hts, _, _ => .display h hts
  | .error h hts, _, _ => .error h hts
  | .panic h hts, _, _ => .panic h hts
  | .skip hts, _, _ => .skip hts
  | .halt hts, _, _ => .halt hts
  | .raw hts, _, _ => .raw hts
  | .rawEnded hts, _, _ => .rawEnded hts
  | .expr hk he _ hts, halone, _ => .expr hk he halone hts

theorem Block.change {ts : List (Located Token)} {body : List Stmt} :
    Block alone ts body → (∀ x ∈ Stmt.nodesList body, StandsBy alone' x) → Block alone' ts body
  | .mk hs hts, h => .mk (hs.change h) hts

theorem Alternatives.change {ts : List (Located Token)} {other : Otherwise} :
    Alternatives alone ts other → (∀ x ∈ Stmt.nodesOtherwise other, StandsBy alone' x) →
      Alternatives alone' ts other
  | .nothing, _ => .nothing
  | .check he hb hn hts, h =>
    .check he (hb.change (List.forall_mem_append.1 h).1) (hn.change (List.forall_mem_append.1 h).2)
      hts
  | .block hb hts, h => .block (hb.change h) hts

theorem Statements.change {ts : List (Located Token)} {body : List Stmt} :
    Statements alone ts body → (∀ x ∈ Stmt.nodesList body, StandsBy alone' x) →
      Statements alone' ts body
  | .nil, _ => .nil
  | .cons hs hss, h => by
    simp only [Stmt.nodesList, List.cons_append, List.forall_mem_cons, List.forall_mem_append] at h
    exact .cons (hs.change h.1 h.2.1) (hss.change h.2.2)

end

/-- Among the programs that can be read, those of the grammar for `alone` are the ones whose lone
expressions are all in `alone`. -/
theorem Statements.iff_standsBy {p : List Stmt} (h : Statements anyExpr ts p) :
    Statements alone ts p ↔ ∀ x ∈ Stmt.nodesList p, StandsBy alone x := by
  refine ⟨fun h x hx => ?_, h.change⟩
  obtain ⟨us, -, hus⟩ := h.of_mem_nodes x hx
  exact hus.standsBy

/-! ## Declarations -/

theorem Declares.supplied {d : Declaration} (h : Declares ts d) : d.Supplied := by
  obtain ⟨-, -, -, hneeds, -⟩ := h
  exact hneeds

theorem Statement.supplied {stmt : Stmt} {d : Declaration} (h : Statement alone ts stmt)
    (hd : stmt.declaration? = some d) : d.Supplied := by
  cases h with
  | declare h _ =>
    cases hd
    exact h.supplied
  | forLoop hs _ _ _ _ =>
    cases hs with
    | declare h =>
      cases hd
      exact h.supplied
    | update | name => cases hd
  | _ => cases hd

end Grammar

theorem eq_ok_of_toOption {ε α : Type} {x : Except ε α} {a : α} (h : x.toOption = some a) :
    x = .ok a := by
  cases x with
  | error e => cases h
  | ok b => cases h; rfl

/-- The error that a computation ends with, if it fails. -/
def failure? {ε α : Type} : Except ε α → Option ε
  | .ok _ => none
  | .error e => some e

theorem eq_error_of_failure? {ε α : Type} {x : Except ε α} {e : ε} (h : failure? x = some e) :
    x = .error e := by
  cases x <;> cases h
  rfl

/-- A parse of a source that succeeds starts at its first token. -/
theorem done_of_run {α : Type} {source : String} {parse : Parse α} {a : α}
    (h : (ParseState.ofText source >>= fun s => parse.run s) = .ok a) :
    ∃ s t, ParseState.ofText source = .ok s ∧ parse s = .done a t := by
  cases hstart : ParseState.ofText source with
  | error e =>
    rw [hstart] at h
    cases h
  | ok s =>
    rw [hstart] at h
    change Parse.run parse s = .ok a at h
    unfold Parse.run at h
    cases hrun : parse s with
    | done value t =>
      rw [hrun] at h
      cases h
      exact ⟨s, t, rfl, hrun⟩
    | failed e t =>
      rw [hrun] at h
      cases h

/-- The tokens of a source that is accepted write the program, and none is an error. -/
theorem statements_of_parseProgram {source : String} {p : List Stmt}
    (h : parseProgram source = .ok p) : ∃ ts, (Stream.ofText source).items = ts.map Except.ok ∧
      Grammar.Statements Grammar.anyExpr ts p := by
  obtain ⟨s, t, hstart, hp⟩ := done_of_run h
  obtain ⟨ts, hts, hp, hend⟩ := Grammar.program_sound hp
  exact ⟨ts, items_eq_of_passes hstart hts hend, hp⟩

/-- The tokens of a source that is one expression write this expression, and none is an error. -/
theorem expression_of_parseExpression {source : String} {e : Expr}
    (h : parseExpression source = .ok e) :
    ∃ o ts, (Stream.ofText source).items = ts.map Except.ok ∧ Grammar.Expression o 1 ts e := by
  obtain ⟨s, t, hstart, hrun⟩ := done_of_run h
  simp only [Parse.standalone, Parse.bind_eq_done_iff, Parse.isAt_apply, Reply.done.injEq] at hrun
  obtain ⟨e', u, he, atEnd, v, ⟨hatEnd, rfl⟩, hend⟩ := hrun
  split at hend
  · next htrue =>
    cases hend
    obtain ⟨o, ts, hts, hexpr, -⟩ := Grammar.expression_sound s e t he
    exact ⟨o, ts, items_eq_of_passes hstart hts (by simpa [htrue] using hatEnd), hexpr⟩
  · exact absurd hend Parse.failHere_ne_done

/-- What a source that is accepted is read as is derived from its tokens. All of them are used and
none is an error; the program is one of the surface grammar exactly if every expression that stands
alone in it is a call or a method call; and every declaration in it without a value has a type and
is not fixed. -/
theorem parseProgram_derivable {source : String} {p : List Stmt}
    (h : parseProgram source = .ok p) : ∃ ts, (Stream.ofText source).items = ts.map Except.ok ∧
      Grammar.Statements Grammar.anyExpr ts p ∧
      (Grammar.Statements Expr.IsDispatch ts p ↔
        ∀ e span, Stmt.expr e span ∈ Stmt.nodesList p → e.IsDispatch) ∧
      ∀ stmt ∈ Stmt.nodesList p, ∀ d, stmt.declaration? = some d → d.Supplied := by
  obtain ⟨ts, hitems, hp⟩ := statements_of_parseProgram h
  refine ⟨ts, hitems, hp, ?_, fun stmt hstmt d hd => ?_⟩
  · rw [hp.iff_standsBy]
    constructor
    · exact fun h e span he => h _ he
    · intro h x hx
      cases x with
      | expr e span => exact h e span hx
      | _ => trivial
  · obtain ⟨us, -, hus⟩ := hp.of_mem_nodes stmt hstmt
    exact hus.supplied hd

/-- A sum that begins with a call is accepted as a statement, and its tokens are outside the surface
grammar. -/
theorem parseProgram_derivable_sum : ∃ p, parseProgram "call f[] + 1;" = .ok p ∧
    ∃ ts, (Stream.ofText "call f[] + 1;").items = ts.map Except.ok ∧
      Grammar.Statements Grammar.anyExpr ts p ∧ ¬ Grammar.Statements Expr.IsDispatch ts p := by
  have hparse : (parseProgram "call f[] + 1;").toOption = some [.expr (.binary .add
      (.call "f" [] ⟨0, 8⟩) (.number .one ⟨11, 12⟩) ⟨0, 12⟩) ⟨0, 13⟩] := by decide +kernel
  have hok := eq_ok_of_toOption hparse
  obtain ⟨ts, hitems, hp, hdispatch, -⟩ := parseProgram_derivable hok
  exact ⟨_, hok, ts, hitems, hp, fun h => hdispatch.1 h _ _ (List.mem_cons_self ..)⟩

end Resin
