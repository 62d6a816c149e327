import Resin.Proofs.Grammar.Nodes
import Resin.Proofs.Print.RoundTrip
import Resin.Proofs.Token.Stretches

/-!
# The text of a node

The span of a node is the extent of the tokens that write it. The text between the two ends has just
these tokens (`Stream.items_slice`), and they write the node wherever they stand. So every statement
and every expression of a program is what its own text is read as.
-/

namespace Resin

open Parse Grammar

/-- The span of a statement is the extent of its tokens, and there are some. -/
theorem Grammar.Statement.span_eq {alone : Expr → Prop} {ts : List (Located Token)} {stmt : Stmt}
    (h : Statement alone ts stmt) : ts ≠ [] ∧ stmt.span = extent ts := by
  cases h with
  | declare hd hts | update hd hts | check _ _ _ hts | repeatRange _ _ _ _ hts | repeatEach _ hts
  | repeatUntil _ _ hts | forLoop _ _ _ _ hts | function _ _ _ hts | give _ hts | display _ hts
  | error _ hts | panic _ hts | skip hts | halt hts | raw hts | rawEnded hts | expr _ _ _ hts
  | store _ hts => exact ⟨by simp [hts], rfl⟩

/-- Outcomes that are tokens once they are moved were tokens before. -/
theorem exists_tokens_of_map_move {g : Nat → Nat} {items : List Outcome}
    {ts : List (Located Token)} (h : items.map (Outcome.move g) = ts.map Except.ok) :
    ∃ us : List (Located Token), items = us.map Except.ok ∧ us.map (Located.move g) = ts := by
  induction items generalizing ts with
  | nil =>
    obtain rfl : ts = [] := List.map_eq_nil_iff.1 h.symm
    exact ⟨[], rfl, rfl⟩
  | cons item items ih =>
    obtain ⟨token, ts, rfl, htoken, hrest⟩ := List.map_eq_cons_iff.1 h.symm
    obtain ⟨us, rfl, rfl⟩ := ih hrest.symm
    cases item with
    | ok x =>
      cases htoken
      exact ⟨x :: us, rfl, rfl⟩
    | error e => cases htoken

/-- If the tokens of a text, once they are moved, are read as `b`, then the text is read as what
moves to `b`. -/
theorem exists_of_items_move {α β : Type} {g : Nat → Nat} {f : α → β} {parse : Parse α}
    {parse' : Parse β} (htracks : Tracks g (By f) parse parse') {text : String}
    {ts : List (Located Token)} {b : β}
    (hitems : (Stream.ofText text).items.map (Outcome.move g) = ts.map Except.ok)
    (hread : ∀ s t, s.Passes ts t → t.current.value = .endOfFile → parse' s = .done b t) :
    ∃ a, (ParseState.ofText text >>= fun s => parse.run s) = .ok a ∧ f a = b := by
  obtain ⟨us, hus, rfl⟩ := exists_tokens_of_map_move hitems
  obtain ⟨s, t, hstart, hpasses, hend⟩ := passes_of_items_eq hus
  have hmoved := htracks s
  rw [hread _ _ (hpasses.move g) hend] at hmoved
  generalize hdone : parse s = reply at hmoved
  generalize hb : Reply.done b (t.move g) = reply' at hmoved
  cases hmoved with
  | @done a _ _ hab =>
    obtain ⟨rfl, -⟩ := Reply.done.inj hb
    refine ⟨a, ?_, hab.symm⟩
    rw [hstart]
    change parse.run s = .ok a
    rw [Parse.run, hdone]
  | failed => cases hb

/-- The tokens of an expression and nothing else are read as the expression. -/
theorem Grammar.Derives.read {ts : List (Located Token)} {e : Expr} {s t : ParseState}
    (h : Derives ts e) (hts : s.Passes ts t) (hend : t.current.value = .endOfFile) :
    standalone s = .done e t := by
  obtain ⟨o, h⟩ := h
  have hread := h.read hts (stops_of_closes (by rw [hend]; rfl))
  rw [standalone, bind_of_done hread, bind_of_done (isAt_apply _ _), hend]
  rfl

/-- The text at the span of a statement is read as this one statement, once it is moved to where the
text stands. -/
def Stmt.ReadAtSpan (source : String) (stmt : Stmt) : Prop :=
  ∃ text x, stmt.span.text? source = some text ∧ parseProgram text = .ok [x] ∧
    x.mapSpans (Span.shift stmt.span.start) = stmt

/-- The text at the span of an expression is read as this expression, once it is moved to where the
text stands. -/
def Expr.ReadAtSpan (source : String) (e : Expr) : Prop :=
  ∃ text x, e.span.text? source = some text ∧ parseExpression text = .ok x ∧
    x.mapSpans (Span.shift e.span.start) = e

variable {source : String} {ts : List (Located Token)}

theorem Stmt.readAtSpan_of_within {stmt : Stmt}
    (hitems : (Stream.ofText source).items = ts.map Except.ok)
    (h : Within (Statement anyExpr) ts stmt) : stmt.ReadAtSpan source := by
  obtain ⟨us, ⟨front, back, rfl⟩, hstmt⟩ := h
  obtain ⟨hne, hspan⟩ := hstmt.span_eq
  obtain ⟨text, htext, hslice⟩ := Stream.items_slice hitems hne
  rw [← hspan] at htext hslice
  have hstatements : Statements anyExpr us [stmt] := by
    have := Statements.cons hstmt .nil
    rwa [List.append_nil] at this
  obtain ⟨p, hp, hmoved⟩ := exists_of_items_move tracks_program hslice
    fun s t hpasses hend => hstatements.read hpasses hend
  obtain ⟨x, rest, rfl, hx, hrest⟩ := List.map_eq_cons_iff.1 hmoved
  obtain rfl := List.map_eq_nil_iff.1 hrest
  exact ⟨text, x, htext, hp, hx⟩

theorem Expr.readAtSpan_of_within {e : Expr}
    (hitems : (Stream.ofText source).items = ts.map Except.ok) (h : Within Derives ts e) :
    e.ReadAtSpan source := by
  obtain ⟨us, ⟨front, back, rfl⟩, he⟩ := h
  obtain ⟨hne, hspan⟩ : us ≠ [] ∧ e.span = extent us := by
    obtain ⟨o, he⟩ := he
    exact he.span_eq
  obtain ⟨text, htext, hslice⟩ := Stream.items_slice hitems hne
  rw [← hspan] at htext hslice
  obtain ⟨x, hx, hmoved⟩ := exists_of_items_move tracks_standalone hslice
    fun s t hpasses hend => he.read hpasses hend
  exact ⟨text, x, htext, hx, hmoved⟩

/-- Every span in a program names exactly the text of its node, be it a statement or an expression
at any depth. Only the step of a range that is not written has no text. -/
theorem readAtSpan_of_mem_nodes {p : List Stmt} (h : parseProgram source = .ok p) :
    ∀ stmt ∈ Stmt.nodesList p, stmt.ReadAtSpan source ∧
      ∀ e ∈ Expr.nodesList stmt.exprs, e.ReadAtSpan source ∨ IsOmittedStep stmt e := by
  obtain ⟨ts, hitems, hp⟩ := statements_of_parseProgram h
  intro stmt hstmt
  have hwithin := hp.of_mem_nodes stmt hstmt
  refine ⟨Stmt.readAtSpan_of_within hitems hwithin, fun e he => ?_⟩
  obtain ⟨us, hus, hderived⟩ := hwithin
  rcases hderived.of_mem_exprs e he with hderives | homitted
  · exact .inl (Expr.readAtSpan_of_within hitems (hderives.mono hus))
  · exact .inr homitted

/-- A range without a step behind a comment of more bytes than characters. Its first bound stands in
brackets, which belong to the span. -/
theorem readAtSpan_of_mem_nodes_range : ∃ p,
    parseProgram "$ é\nrepeat [i in (n + 1) to 9] \x7b show i; \x7d" = .ok p ∧
    ∀ stmt ∈ Stmt.nodesList p,
      stmt.ReadAtSpan "$ é\nrepeat [i in (n + 1) to 9] \x7b show i; \x7d" ∧
      ∀ e ∈ Expr.nodesList stmt.exprs,
        e.ReadAtSpan "$ é\nrepeat [i in (n + 1) to 9] \x7b show i; \x7d" ∨
          IsOmittedStep stmt e := by
  have hparse : (parseProgram
      "$ é\nrepeat [i in (n + 1) to 9] \x7b show i; \x7d").toOption = some
      [.repeatRange "i" (.binary .add (.name "n" ⟨19, 20⟩) (.number .one ⟨23, 24⟩) ⟨18, 25⟩)
        (.number (.ofParts ['9'] []) ⟨29, 30⟩) (.number .one ⟨30, 30⟩)
        [.display (.name "i" ⟨39, 40⟩) ⟨34, 41⟩] ⟨5, 43⟩] := by decide +kernel
  have hok := eq_ok_of_toOption hparse
  exact ⟨_, hok, readAtSpan_of_mem_nodes hok⟩

end Resin
