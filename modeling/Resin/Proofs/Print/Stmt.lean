import Resin.Proofs.Grammar.Program
import Resin.Proofs.Print.Expr

/-!
# Writing statements

`Stmt.tokens` gives the tokens that write a statement: every part of it is written, the step of a
range too. A statement is `Regular` if it says what the grammar asks of it: a declaration has a type
or a value, and a value if it is fixed; an expression that stands alone is a call or a method call;
and only names are indexed. The tokens of regular statements write them up to spans, wherever they
stand (`Stmt.listDerivable`).
-/

namespace Resin

/-! ## Spans apart -/

/-- The statement without its spans. -/
def Stmt.erase (stmt : Stmt) : Stmt :=
  stmt.mapSpans fun _ => default

/-- The rest of a check without its spans. -/
def Otherwise.erase (other : Otherwise) : Otherwise :=
  Stmt.mapSpansOtherwise (fun _ => default) other

/-- The declaration without its spans. -/
def Declaration.erase (d : Declaration) : Declaration :=
  d.mapSpans fun _ => default

/-- The mutation without its spans. -/
def Mutation.erase (m : Mutation) : Mutation :=
  m.mapSpans fun _ => default

/-- The start of a loop without its spans. -/
def LoopStart.erase (start : LoopStart) : LoopStart :=
  start.mapSpans fun _ => default

namespace Stmt

variable (body : List Stmt) (span : Span)

@[simp] theorem erase_check (c : Expr) (other : Otherwise) : (check c body other span).erase =
    .check c.erase (body.map erase) other.erase default := by
  simp only [erase, mapSpans, mapSpansList_eq_map]
  rfl

@[simp] theorem erase_repeatRange (x : String) (a b d : Expr) :
    (repeatRange x a b d body span).erase =
      .repeatRange x a.erase b.erase d.erase (body.map erase) default := by
  simp only [erase, mapSpans, mapSpansList_eq_map]
  rfl

@[simp] theorem erase_repeatEach (x c : String) :
    (repeatEach x c body span).erase = .repeatEach x c (body.map erase) default := by
  simp only [erase, mapSpans, mapSpansList_eq_map]
  rfl

@[simp] theorem erase_repeatUntil (c : Expr) :
    (repeatUntil c body span).erase = .repeatUntil c.erase (body.map erase) default := by
  simp only [erase, mapSpans, mapSpansList_eq_map]
  rfl

@[simp] theorem erase_forLoop (start : Located LoopStart) (c : Expr) (inc : Located Mutation) :
    (forLoop start c inc body span).erase = .forLoop ⟨start.value.erase, default⟩ c.erase
      ⟨inc.value.erase, default⟩ (body.map erase) default := by
  simp only [erase, mapSpans, mapSpansList_eq_map]
  rfl

@[simp] theorem erase_function (f : String) (ps : List String) (t : Option (Located TypeName)) :
    (function f ps t body span).erase =
      .function f ps (t.map fun t => ⟨t.value, default⟩) (body.map erase) default := by
  simp only [erase, mapSpans, mapSpansList_eq_map]
  rfl

end Stmt

@[simp] theorem Otherwise.erase_check (c : Expr) (body : List Stmt) (next : Otherwise) :
    (check c body next).erase = .check c.erase (body.map Stmt.erase) next.erase := by
  simp only [erase, Stmt.mapSpansOtherwise, Stmt.mapSpansList_eq_map]
  rfl

@[simp] theorem Otherwise.erase_block (body : List Stmt) :
    (block body).erase = .block (body.map Stmt.erase) := by
  simp only [erase, Stmt.mapSpansOtherwise, Stmt.mapSpansList_eq_map]
  rfl

/-! ## Tokens -/

/-- The keyword of a reach. -/
def Binding.tokens : Binding → List Token
  | .plain => []
  | .global => [.keyword .all]
  | .fixed => [.keyword .fix]

/-- The tokens of a type after `as`. -/
def typeTokens : Option (Located TypeName) → List Token
  | none => []
  | some type => [.keyword .as, .type type.value]

/-- The tokens of a value after an equals sign. -/
def valueTokens : Option Expr → List Token
  | none => []
  | some e => .symbol .assign :: e.tokens

/-- The tokens of a declaration without its semicolon. -/
def Declaration.tokens (d : Declaration) : List Token :=
  d.binding.tokens ++ .keyword .assign :: .name d.name :: typeTokens d.type ++ valueTokens d.value

/-- The tokens of indices, each in braces. -/
def indexTokens : List Expr → List Token
  | [] => []
  | i :: is => .symbol .openBrace :: i.tokens ++ .symbol .closeBrace :: indexTokens is

/-- The tokens of a mutation without its semicolon. -/
def Mutation.tokens (m : Mutation) : List Token :=
  .keyword .update :: .name m.target :: indexTokens m.indices ++ .symbol .assign :: m.value.tokens

/-- The tokens of the start of a loop. -/
def LoopStart.tokens : LoopStart → List Token
  | .declare d => d.tokens
  | .update m => m.tokens
  | .name n => [.name n]

/-- The tokens of a block, given those of its statements. -/
def inBraces (tokens : List Token) : List Token :=
  .symbol .openBrace :: tokens ++ [.symbol .closeBrace]

namespace Stmt

mutual

/-- The tokens of a statement. -/
def tokens : Stmt → List Token
  | .declare d _ => d.tokens ++ [.symbol .semicolon]
  | .store t _ => t.binding.tokens ++ [.keyword .store, .name t.name, .symbol .assign,
      .text t.content t.quote, .symbol .semicolon]
  | .update m _ => m.tokens ++ [.symbol .semicolon]
  | .check c body other _ => .keyword .check :: .symbol .openBracket :: c.tokens ++
      .symbol .closeBracket :: inBraces (listTokens body) ++ otherwiseTokens other
  | .repeatRange x a b d body _ =>
    .keyword .repeat_ :: .symbol .openBracket :: .name x :: .keyword .in_ :: a.tokens ++
      .keyword .to :: b.tokens ++ .symbol .comma :: d.tokens ++
      .symbol .closeBracket :: inBraces (listTokens body)
  | .repeatEach x c body _ => .keyword .repeat_ :: .symbol .openBracket :: .name x ::
      .keyword .in_ :: .name c :: .symbol .closeBracket :: inBraces (listTokens body)
  | .repeatUntil c body _ => .keyword .repeat_ :: .keyword .until_ :: .symbol .openBracket ::
      c.tokens ++ .symbol .closeBracket :: inBraces (listTokens body)
  | .forLoop start c inc body _ =>
    .keyword .for_ :: .symbol .openBracket :: start.value.tokens ++ .symbol .semicolon ::
      c.tokens ++ .symbol .semicolon :: inc.value.tokens ++
      .symbol .closeBracket :: inBraces (listTokens body)
  | .function f ps t body _ => .keyword .make :: .name f :: .symbol .openBracket ::
      nameTokens ps ++ .symbol .closeBracket :: typeTokens t ++ inBraces (listTokens body)
  | .give e _ => .keyword .give :: e.tokens ++ [.symbol .semicolon]
  | .display e _ => .keyword .show_ :: e.tokens ++ [.symbol .semicolon]
  | .error e _ => .keyword .error :: e.tokens ++ [.symbol .semicolon]
  | .panic e _ => .keyword .panic :: e.tokens ++ [.symbol .semicolon]
  | .skip _ => [.keyword .skip, .symbol .semicolon]
  | .halt _ => [.keyword .halt, .symbol .semicolon]
  | .raw code _ => [.raw code]
  | .expr e _ => e.tokens ++ [.symbol .semicolon]

/-- The tokens of statements one after the other. -/
def listTokens : List Stmt → List Token
  | [] => []
  | stmt :: stmts => tokens stmt ++ listTokens stmts

/-- The tokens of the rest of a check. -/
def otherwiseTokens : Otherwise → List Token
  | .nothing => []
  | .check c body next => .keyword .or :: .keyword .check :: .symbol .openBracket :: c.tokens ++
      .symbol .closeBracket :: inBraces (listTokens body) ++ otherwiseTokens next
  | .block body => .keyword .alt :: inBraces (listTokens body)

end

end Stmt

/-- What the grammar asks of a statement, the statements inside it apart. -/
structure Stmt.Regular (stmt : Stmt) : Prop where
  supplied : ∀ d, stmt.declaration? = some d → d.Supplied
  alone : Grammar.StandsBy Expr.IsDispatch stmt
  indexesName : ∀ x ∈ Expr.nodesList stmt.exprs, x.IndexesName

/-! ## Parts of statements -/

open Grammar

theorem derivable_of_mem {es : List Expr} (h : ∀ x ∈ Expr.nodesList es, x.IndexesName) :
    ∀ e ∈ es, Derivable e := by
  induction es with
  | nil => simp
  | cons e es ih =>
    have h' := List.forall_mem_append.1 h
    exact List.forall_mem_cons.2 ⟨e.derivable h'.1, ih h'.2⟩

theorem binding_derivable {binding : Binding} {ts : List (Located Token)}
    (h : Writes ts binding.tokens) : Qualifier ts binding := by
  cases binding with
  | plain =>
    obtain rfl := List.map_eq_nil_iff.1 h
    exact .plain
  | global =>
    obtain ⟨a, rfl⟩ := Writes.single h
    exact .global
  | fixed =>
    obtain ⟨a, rfl⟩ := Writes.single h
    exact .fixed

theorem type_derivable {type : Option (Located TypeName)} {ts : List (Located Token)}
    (h : Writes ts (typeTokens type)) : ∃ q : Option (Located TypeName),
      q.map (fun t => Located.mk t.value default) = type.map (fun t => ⟨t.value, default⟩) ∧
        Annotation ts q := by
  cases type with
  | none =>
    obtain rfl := List.map_eq_nil_iff.1 h
    exact ⟨none, rfl, .none⟩
  | some type =>
    obtain ⟨a, us, rfl, hus⟩ := Writes.uncons h
    obtain ⟨b, rfl⟩ := hus.single
    exact ⟨some ⟨type.value, b⟩, rfl, .some⟩

theorem value_derivable {value : Option Expr} {ts : List (Located Token)}
    (hvalue : ∀ e ∈ value.toList, Derivable e) (h : Writes ts (valueTokens value)) :
    ∃ q : Option Expr, q.map Expr.erase = value.map Expr.erase ∧ Initial ts q := by
  cases value with
  | none =>
    obtain rfl := List.map_eq_nil_iff.1 h
    exact ⟨none, rfl, .none⟩
  | some e =>
    obtain ⟨a, es, rfl, hes⟩ := Writes.uncons h
    obtain ⟨o, q, hq, he, -⟩ := hvalue e (by simp) hes
    exact ⟨some q, by simp [hq], .some he⟩

theorem Declaration.derivable {d : Declaration} {ts : List (Located Token)} (hd : d.Supplied)
    (hvalue : ∀ e ∈ d.exprs, Derivable e) (h : Writes ts d.tokens) :
    ∃ q, q.erase = d.erase ∧ Declares ts q := by
  obtain ⟨us, vs, rfl, hus, hvs⟩ := Writes.unappend h
  obtain ⟨qs, ws, rfl, hqs, hws⟩ := hus.unappend
  obtain ⟨a, xs, rfl, hxs⟩ := hws.uncons
  obtain ⟨b, as, rfl, has⟩ := hxs.uncons
  obtain ⟨type, htype, hreturns⟩ := type_derivable has
  obtain ⟨value, hvalue', hinitial⟩ := value_derivable hvalue hvs
  refine ⟨⟨d.binding, d.name, type, value⟩, ?_,
    .mk (binding_derivable hqs) hreturns hinitial ?_ rfl⟩
  · simp only [Declaration.erase, Declaration.mapSpans, Declaration.mk.injEq, true_and]
    exact ⟨htype, hvalue'⟩
  · rintro rfl
    obtain ⟨htyped, hfree⟩ := hd (Option.map_eq_none_iff.1 hvalue'.symm)
    refine ⟨fun hnone => htyped ?_, hfree⟩
    rw [hnone] at htype
    exact Option.map_eq_none_iff.1 htype.symm

theorem indices_derivable {indices : List Expr} {ts : List (Located Token)}
    (hindices : ∀ e ∈ indices, Derivable e) (h : Writes ts (indexTokens indices)) :
    ∃ qs, qs.map Expr.erase = indices.map Expr.erase ∧ Indices ts qs := by
  induction indices generalizing ts with
  | nil =>
    obtain rfl := List.map_eq_nil_iff.1 h
    exact ⟨[], rfl, .nil⟩
  | cons i is ih =>
    obtain ⟨us, vs, rfl, hus, hvs⟩ := Writes.unappend h
    obtain ⟨a, es, rfl, hes⟩ := hus.uncons
    obtain ⟨b, ws, rfl, hws⟩ := hvs.uncons
    obtain ⟨o, q, hq, he, -⟩ := hindices i (by simp) hes
    obtain ⟨qs, hqs, hrest⟩ := ih (fun e he => hindices e (List.mem_cons_of_mem _ he)) hws
    exact ⟨q :: qs, by simp [hq, hqs], .cons he hrest⟩

theorem Mutation.derivable {m : Mutation} {ts : List (Located Token)}
    (hm : ∀ e ∈ m.exprs, Derivable e) (h : Writes ts m.tokens) :
    ∃ q, q.erase = m.erase ∧ Mutates ts q := by
  obtain ⟨us, vs, rfl, hus, hvs⟩ := Writes.unappend h
  obtain ⟨a, ws, rfl, hws⟩ := hus.uncons
  obtain ⟨b, is, rfl, his⟩ := hws.uncons
  obtain ⟨c, es, rfl, hes⟩ := hvs.uncons
  have hm' := List.forall_mem_append.1 hm
  obtain ⟨indices, hindices, hread⟩ := indices_derivable hm'.1 his
  obtain ⟨o, q, hq, he, -⟩ := hm'.2 m.value (by simp) hes
  refine ⟨⟨m.target, indices, q⟩, ?_, .mk hread he rfl⟩
  simp only [Mutation.erase, Mutation.mapSpans, Mutation.mk.injEq, true_and]
  exact ⟨hindices, hq⟩

theorem LoopStart.derivable {start : LoopStart} {ts : List (Located Token)}
    (hd : ∀ d, start = .declare d → d.Supplied) (hs : ∀ e ∈ start.exprs, Derivable e)
    (h : Writes ts start.tokens) : ∃ q, q.erase = start.erase ∧ Starts ts q := by
  cases start with
  | declare d =>
    obtain ⟨q, hq, hread⟩ := Declaration.derivable (hd d rfl) hs h
    exact ⟨.declare q, congrArg LoopStart.declare hq, .declare hread⟩
  | update m =>
    obtain ⟨q, hq, hread⟩ := Mutation.derivable hs h
    exact ⟨.update q, congrArg LoopStart.update hq, .update hread⟩
  | name n =>
    obtain ⟨a, rfl⟩ := Writes.single h
    exact ⟨.name n, rfl, .name⟩

/-! ## Statements by their form -/

/-- From wherever the tokens of a statement stand, they write it up to spans. -/
def StmtDerivable (stmt : Stmt) : Prop :=
  ∀ ⦃ts : List (Located Token)⦄, Writes ts stmt.tokens →
    ∃ q, q.erase = stmt.erase ∧ Statement Expr.IsDispatch ts q

/-- From wherever the tokens of statements stand, they write them up to spans. -/
def StmtsDerivable (body : List Stmt) : Prop :=
  ∀ ⦃ts : List (Located Token)⦄, Writes ts (Stmt.listTokens body) →
    ∃ qs, qs.map Stmt.erase = body.map Stmt.erase ∧ Statements Expr.IsDispatch ts qs

/-- From wherever the tokens of the rest of a check stand, they write it up to spans. -/
def OtherwiseDerivable (other : Otherwise) : Prop :=
  ∀ ⦃ts : List (Located Token)⦄, Writes ts (Stmt.otherwiseTokens other) →
    ∃ q, q.erase = other.erase ∧ Alternatives Expr.IsDispatch ts q

theorem StmtsDerivable.block {body : List Stmt} (h : StmtsDerivable body)
    {ts : List (Located Token)} (hts : Writes ts (inBraces (Stmt.listTokens body))) :
    ∃ qs, qs.map Stmt.erase = body.map Stmt.erase ∧ Block Expr.IsDispatch ts qs := by
  obtain ⟨us, close, rfl, hus, hclose⟩ := Writes.unappend hts
  obtain ⟨a, ss, rfl, hss⟩ := hus.uncons
  obtain ⟨b, rfl⟩ := hclose.single
  obtain ⟨qs, hqs, hread⟩ := h hss
  exact ⟨qs, hqs, .mk hread rfl⟩

namespace StmtDerivable

variable {c e : Expr} {body : List Stmt} {span : Span}

theorem declare {d : Declaration} (hd : d.Supplied) (hvalue : ∀ e ∈ d.exprs, Derivable e) :
    StmtDerivable (.declare d span) := by
  intro ts hts
  obtain ⟨ds, semicolon, rfl, hds, hsemicolon⟩ := Writes.unappend hts
  obtain ⟨a, rfl⟩ := hsemicolon.single
  obtain ⟨q, hq, hread⟩ := Declaration.derivable hd hvalue hds
  exact ⟨.declare q _, congrArg (Stmt.declare · default) hq, .declare hread rfl⟩

theorem store {t : Store} : StmtDerivable (.store t span) := by
  intro ts hts
  obtain ⟨qs, us, rfl, hqs, hus⟩ := Writes.unappend hts
  obtain ⟨a, us, rfl, h₁⟩ := hus.uncons
  obtain ⟨b, us, rfl, h₂⟩ := h₁.uncons
  obtain ⟨c, us, rfl, h₃⟩ := h₂.uncons
  obtain ⟨d, us, rfl, h₄⟩ := h₃.uncons
  obtain ⟨e, rfl⟩ := h₄.single
  exact ⟨.store ⟨t.binding, t.name, t.content, t.quote, d⟩ _, rfl,
    .store (binding_derivable hqs) rfl⟩

theorem update {m : Mutation} (hm : ∀ e ∈ m.exprs, Derivable e) :
    StmtDerivable (.update m span) := by
  intro ts hts
  obtain ⟨ms, semicolon, rfl, hms, hsemicolon⟩ := Writes.unappend hts
  obtain ⟨a, rfl⟩ := hsemicolon.single
  obtain ⟨q, hq, hread⟩ := Mutation.derivable hm hms
  exact ⟨.update q _, congrArg (Stmt.update · default) hq, .update hread rfl⟩

theorem check {other : Otherwise} (hc : Derivable c) (hbody : StmtsDerivable body)
    (hother : OtherwiseDerivable other) : StmtDerivable (.check c body other span) := by
  intro ts hts
  obtain ⟨us, os, rfl, hus, hos⟩ := Writes.unappend hts
  obtain ⟨us, vs, rfl, hus, hvs⟩ := hus.unappend
  obtain ⟨a, us, rfl, h₁⟩ := hus.uncons
  obtain ⟨b, es, rfl, hes⟩ := h₁.uncons
  obtain ⟨d, bs, rfl, hbs⟩ := hvs.uncons
  obtain ⟨o, test, htest, he, -⟩ := hc hes
  obtain ⟨block, hblock, hb⟩ := hbody.block hbs
  obtain ⟨last, hlast, ho⟩ := hother hos
  exact ⟨.check test block last _, by simp [htest, hblock, hlast], .check he hb ho rfl⟩

theorem repeatRange {x : String} {first last step : Expr} (hfirst : Derivable first)
    (hlast : Derivable last) (hstep : Derivable step) (hbody : StmtsDerivable body) :
    StmtDerivable (.repeatRange x first last step body span) := by
  intro ts hts
  obtain ⟨us, vs, rfl, hus, hvs⟩ := Writes.unappend hts
  obtain ⟨us, cs, rfl, hus, hcs⟩ := hus.unappend
  obtain ⟨us, bs, rfl, hus, hbs⟩ := hus.unappend
  obtain ⟨a, us, rfl, h₁⟩ := hus.uncons
  obtain ⟨b, us, rfl, h₂⟩ := h₁.uncons
  obtain ⟨c, us, rfl, h₃⟩ := h₂.uncons
  obtain ⟨d, as, rfl, has⟩ := h₃.uncons
  obtain ⟨e, ls, rfl, hls⟩ := hbs.uncons
  obtain ⟨f, es, rfl, hes⟩ := hcs.uncons
  obtain ⟨g, ds, rfl, hds⟩ := hvs.uncons
  obtain ⟨o₁, q₁, hq₁, h₁, -⟩ := hfirst has
  obtain ⟨o₂, q₂, hq₂, h₂, -⟩ := hlast hls
  obtain ⟨o₃, q₃, hq₃, h₃, -⟩ := hstep hes
  obtain ⟨block, hblock, hb⟩ := hbody.block hds
  exact ⟨.repeatRange x q₁ q₂ q₃ block _, by simp [hq₁, hq₂, hq₃, hblock],
    .repeatRange h₁ h₂ (.written h₃) hb rfl⟩

theorem repeatEach {x xs : String} (hbody : StmtsDerivable body) :
    StmtDerivable (.repeatEach x xs body span) := by
  intro ts hts
  obtain ⟨a, us, rfl, h₁⟩ := Writes.uncons hts
  obtain ⟨b, us, rfl, h₂⟩ := h₁.uncons
  obtain ⟨c, us, rfl, h₃⟩ := h₂.uncons
  obtain ⟨d, us, rfl, h₄⟩ := h₃.uncons
  obtain ⟨e, us, rfl, h₅⟩ := h₄.uncons
  obtain ⟨f, bs, rfl, hbs⟩ := h₅.uncons
  obtain ⟨block, hblock, hb⟩ := hbody.block hbs
  exact ⟨.repeatEach x xs block _, by simp [hblock], .repeatEach hb rfl⟩

theorem repeatUntil (hc : Derivable c) (hbody : StmtsDerivable body) :
    StmtDerivable (.repeatUntil c body span) := by
  intro ts hts
  obtain ⟨us, vs, rfl, hus, hvs⟩ := Writes.unappend hts
  obtain ⟨a, us, rfl, h₁⟩ := hus.uncons
  obtain ⟨b, us, rfl, h₂⟩ := h₁.uncons
  obtain ⟨d, es, rfl, hes⟩ := h₂.uncons
  obtain ⟨f, bs, rfl, hbs⟩ := hvs.uncons
  obtain ⟨o, test, htest, he, -⟩ := hc hes
  obtain ⟨block, hblock, hb⟩ := hbody.block hbs
  exact ⟨.repeatUntil test block _, by simp [htest, hblock], .repeatUntil he hb rfl⟩

theorem forLoop {start : Located LoopStart} {inc : Located Mutation}
    (hd : ∀ d, start.value = .declare d → d.Supplied)
    (hstart : ∀ e ∈ start.value.exprs, Derivable e) (hc : Derivable c)
    (hinc : ∀ e ∈ inc.value.exprs, Derivable e) (hbody : StmtsDerivable body) :
    StmtDerivable (.forLoop start c inc body span) := by
  intro ts hts
  obtain ⟨us, vs, rfl, hus, hvs⟩ := Writes.unappend hts
  obtain ⟨us, is, rfl, hus, his⟩ := hus.unappend
  obtain ⟨us, es, rfl, hus, hes⟩ := hus.unappend
  obtain ⟨a, us, rfl, h₁⟩ := hus.uncons
  obtain ⟨b, ss, rfl, hss⟩ := h₁.uncons
  obtain ⟨d, es, rfl, hes'⟩ := hes.uncons
  obtain ⟨f, is, rfl, his'⟩ := his.uncons
  obtain ⟨g, bs, rfl, hbs⟩ := hvs.uncons
  obtain ⟨q₁, hq₁, h₁⟩ := LoopStart.derivable hd hstart hss
  obtain ⟨o, q₂, hq₂, h₂, -⟩ := hc hes'
  obtain ⟨q₃, hq₃, h₃⟩ := Mutation.derivable hinc his'
  obtain ⟨block, hblock, hb⟩ := hbody.block hbs
  exact ⟨.forLoop ⟨q₁, _⟩ q₂ ⟨q₃, _⟩ block _, by simp [hq₁, hq₂, hq₃, hblock],
    .forLoop h₁ h₂ h₃ hb rfl⟩

theorem function {f : String} {params : List String} {returns : Option (Located TypeName)}
    (hbody : StmtsDerivable body) : StmtDerivable (.function f params returns body span) := by
  intro ts hts
  obtain ⟨us, bs, rfl, hus, hbs⟩ := Writes.unappend hts
  obtain ⟨us, vs, rfl, hus, hvs⟩ := hus.unappend
  obtain ⟨a, us, rfl, h₁⟩ := hus.uncons
  obtain ⟨b, us, rfl, h₂⟩ := h₁.uncons
  obtain ⟨d, ps, rfl, hps⟩ := h₂.uncons
  obtain ⟨g, as, rfl, has⟩ := hvs.uncons
  obtain ⟨type, htype, hreturns⟩ := type_derivable has
  obtain ⟨block, hblock, hb⟩ := hbody.block hbs
  exact ⟨.function f params type block _, by simp [htype, hblock],
    .function (nameTokens_derivable hps) hreturns hb rfl⟩

/-- A keyword with an expression, whichever keyword it is. -/
theorem value {k : Keyword} {make : Expr → Span → Stmt} (he : Derivable e)
    (htokens : (make e span).tokens = .keyword k :: e.tokens ++ [.symbol .semicolon])
    (herase : ∀ q a, (make q a).erase = make q.erase default)
    (hmake : ∀ {o es q a b}, Expression o 1 es q → Statement Expr.IsDispatch
      (kw k a :: es ++ [sym .semicolon b]) (make q (extent (kw k a :: es ++ [sym .semicolon b])))) :
    StmtDerivable (make e span) := by
  intro ts hts
  rw [htokens] at hts
  obtain ⟨us, semicolon, rfl, hus, hsemicolon⟩ := hts.unappend
  obtain ⟨a, es, rfl, hes⟩ := hus.uncons
  obtain ⟨b, rfl⟩ := hsemicolon.single
  obtain ⟨o, q, hq, hread, -⟩ := he hes
  exact ⟨make q _, by rw [herase, herase, hq], hmake hread⟩

theorem skip : StmtDerivable (.skip span) := by
  intro ts hts
  obtain ⟨a, us, rfl, hus⟩ := Writes.uncons hts
  obtain ⟨b, rfl⟩ := hus.single
  exact ⟨.skip _, by rfl, .skip rfl⟩

theorem halt : StmtDerivable (.halt span) := by
  intro ts hts
  obtain ⟨a, us, rfl, hus⟩ := Writes.uncons hts
  obtain ⟨b, rfl⟩ := hus.single
  exact ⟨.halt _, by rfl, .halt rfl⟩

theorem raw {code : String} : StmtDerivable (.raw code span) := by
  intro ts hts
  obtain ⟨a, rfl⟩ := Writes.single hts
  exact ⟨.raw code _, by rfl, .raw rfl⟩

theorem isDispatch_erase (e : Expr) : e.erase.IsDispatch ↔ e.IsDispatch := by
  cases e <;> rfl

/-- The tokens of a call or a method call begin with its keyword. -/
theorem tokens_of_isDispatch (h : e.IsDispatch) :
    ∃ k rest, (k = .call ∨ k = .method) ∧ e.tokens = .keyword k :: rest := by
  cases e with
  | call | method => exact ⟨_, _, by simp, rfl⟩
  | _ => cases h

theorem expr (he : Derivable e) (hdispatch : e.IsDispatch) : StmtDerivable (.expr e span) := by
  intro ts hts
  obtain ⟨es, semicolon, rfl, hes, hsemicolon⟩ := Writes.unappend hts
  obtain ⟨b, rfl⟩ := hsemicolon.single
  obtain ⟨o, q, hq, hread, -⟩ := he hes
  obtain ⟨k, rest, hk, htokens⟩ := tokens_of_isDispatch hdispatch
  rw [htokens] at hes
  obtain ⟨a, es, rfl, -⟩ := Writes.uncons hes
  have halone : q.IsDispatch := by rwa [← isDispatch_erase, hq, isDispatch_erase]
  exact ⟨.expr q _, congrArg (Stmt.expr · default) hq, .expr hk hread halone rfl⟩

end StmtDerivable

theorem OtherwiseDerivable.nothing : OtherwiseDerivable .nothing := by
  intro ts hts
  obtain rfl := List.map_eq_nil_iff.1 hts
  exact ⟨.nothing, rfl, .nothing⟩

theorem OtherwiseDerivable.block {body : List Stmt} (h : StmtsDerivable body) :
    OtherwiseDerivable (.block body) := by
  intro ts hts
  obtain ⟨a, bs, rfl, hbs⟩ := Writes.uncons hts
  obtain ⟨block, hblock, hb⟩ := h.block hbs
  exact ⟨.block block, by simp [hblock], .block hb rfl⟩

theorem OtherwiseDerivable.check {c : Expr} {body : List Stmt} {next : Otherwise}
    (hc : Derivable c) (hbody : StmtsDerivable body) (hnext : OtherwiseDerivable next) :
    OtherwiseDerivable (.check c body next) := by
  intro ts hts
  obtain ⟨us, os, rfl, hus, hos⟩ := Writes.unappend hts
  obtain ⟨us, vs, rfl, hus, hvs⟩ := hus.unappend
  obtain ⟨a, us, rfl, h₁⟩ := hus.uncons
  obtain ⟨b, us, rfl, h₂⟩ := h₁.uncons
  obtain ⟨d, es, rfl, hes⟩ := h₂.uncons
  obtain ⟨f, bs, rfl, hbs⟩ := hvs.uncons
  obtain ⟨o, test, htest, he, -⟩ := hc hes
  obtain ⟨block, hblock, hb⟩ := hbody.block hbs
  obtain ⟨last, hlast, ho⟩ := hnext hos
  exact ⟨.check test block last, by simp [htest, hblock, hlast], .check he hb ho rfl⟩

/-! ## The induction -/

theorem Stmt.Regular.derivable {stmt : Stmt} (h : stmt.Regular) : ∀ e ∈ stmt.exprs, Derivable e :=
  derivable_of_mem h.indexesName

mutual

/-- A statement that is regular, with all statements inside it, is derived from its tokens. -/
theorem Stmt.derivable : ∀ stmt : Stmt, stmt.Regular → (∀ x ∈ stmt.inner, x.Regular) →
    StmtDerivable stmt
  | .declare d _, h, _ => .declare (h.supplied d rfl) h.derivable
  | .store _ _, _, _ => .store
  | .update _ _, h, _ => .update h.derivable
  | .check _ body other _, h, hin =>
    have hin' := List.forall_mem_append.1 hin
    have hexprs := List.forall_mem_cons.1 h.derivable
    .check hexprs.1 (Stmt.listDerivable body hin'.1)
      (Stmt.otherwiseDerivable other hexprs.2 hin'.2)
  | .repeatRange _ a b d body _, h, hin =>
    .repeatRange (h.derivable a (by simp [exprs])) (h.derivable b (by simp [exprs]))
      (h.derivable d (by simp [exprs])) (Stmt.listDerivable body hin)
  | .repeatEach _ _ body _, _, hin => .repeatEach (Stmt.listDerivable body hin)
  | .repeatUntil c body _, h, hin =>
    .repeatUntil (h.derivable c (by simp [exprs])) (Stmt.listDerivable body hin)
  | .forLoop start c inc body s, h, hin =>
    have hexprs := List.forall_mem_append.1 h.derivable
    .forLoop (fun d hd => h.supplied d (declaration?_forLoop.2 hd)) hexprs.1 (hexprs.2 c (by simp))
      (List.forall_mem_cons.1 hexprs.2).2 (Stmt.listDerivable body hin)
  | .function _ _ _ body _, _, hin => .function (Stmt.listDerivable body hin)
  | .give e _, h, _ =>
    .value (h.derivable e (by simp [exprs])) rfl (fun _ _ => rfl) fun h => .give h rfl
  | .display e _, h, _ =>
    .value (h.derivable e (by simp [exprs])) rfl (fun _ _ => rfl) fun h => .display h rfl
  | .error e _, h, _ =>
    .value (h.derivable e (by simp [exprs])) rfl (fun _ _ => rfl) fun h => .error h rfl
  | .panic e _, h, _ =>
    .value (h.derivable e (by simp [exprs])) rfl (fun _ _ => rfl) fun h => .panic h rfl
  | .skip _, _, _ => .skip
  | .halt _, _, _ => .halt
  | .raw _ _, _, _ => .raw
  | .expr e _, h, _ => .expr (h.derivable e (by simp [exprs])) h.alone

/-- Statements that are regular, with all statements inside them, are derived from their tokens. -/
theorem Stmt.listDerivable : ∀ body : List Stmt, (∀ x ∈ Stmt.nodesList body, x.Regular) →
    StmtsDerivable body
  | [], _ => fun ts hts => by
    obtain rfl := List.map_eq_nil_iff.1 hts
    exact ⟨[], rfl, .nil⟩
  | stmt :: body, h => fun ts hts => by
    have h' := List.forall_mem_append.1 h
    have hstmt := List.forall_mem_cons.1 h'.1
    obtain ⟨us, vs, rfl, hus, hvs⟩ := Writes.unappend hts
    obtain ⟨q, hq, hread⟩ := Stmt.derivable stmt hstmt.1 hstmt.2 hus
    obtain ⟨qs, hqs, hreads⟩ := Stmt.listDerivable body h'.2 hvs
    exact ⟨q :: qs, by simp [hq, hqs], .cons hread hreads⟩

theorem Stmt.otherwiseDerivable : ∀ other : Otherwise, (∀ e ∈ other.conditions, Derivable e) →
    (∀ x ∈ Stmt.nodesOtherwise other, x.Regular) → OtherwiseDerivable other
  | .nothing, _, _ => .nothing
  | .check _ body next, hc, h =>
    have hc' := List.forall_mem_cons.1 hc
    have h' := List.forall_mem_append.1 h
    .check hc'.1 (Stmt.listDerivable body h'.1) (Stmt.otherwiseDerivable next hc'.2 h'.2)
  | .block body, _, h => .block (Stmt.listDerivable body h)

end

end Resin
