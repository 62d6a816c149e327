import Resin.Proofs.Grammar.Program

/-!
# The expressions in a derivable tree

Every expression inside a derivable tree, at every depth, is itself derived from a stretch of the
tokens. The one exception is the step of a range that is not written: it is the number one, at an
empty span.
-/

namespace Resin.Grammar

/-- The tokens write the expression. -/
def Derives (ts : List (Located Token)) (e : Expr) : Prop :=
  ∃ o, Expression o 1 ts e

theorem one_le_rank (op : BinaryOp) : 1 ≤ rank op := by
  cases op <;> decide

/-! ## Expressions -/

theorem Expression.derives {o : Bool} {level : Nat} {ts : List (Located Token)} {e : Expr}
    (h : Expression o level ts e) (hlevel : 1 ≤ level) : Derives ts e :=
  ⟨o, h.mono hlevel⟩

theorem Operand.derives {o : Bool} {ts : List (Located Token)} {e : Expr} (h : Operand o ts e) :
    Derives ts e :=
  ⟨o, .operand h⟩

/-- What holds of an expression and of those inside it holds of its nodes. -/
theorem Derives.of_mem_nodes {ts : List (Located Token)} {e : Expr} (h : Derives ts e)
    (hinner : ∀ x ∈ e.inner, Within Derives ts x) : ∀ x ∈ e.nodes, Within Derives ts x :=
  Expr.forall_mem_nodes.2 ⟨.self h, hinner⟩

mutual

/-- Every expression inside a derivable one is derived from a stretch of its tokens. -/
theorem Expression.of_mem_inner {o : Bool} {level : Nat} {ts : List (Located Token)} {e : Expr} :
    Expression o level ts e → ∀ x ∈ e.inner, Within Derives ts x
  | .operand h => h.of_mem_inner
  | @Expression.binary _ _ op _ _ _ _ _ _ _ hl hr hts => fun x hx => by
    rw [Expr.inner_binary] at hx
    rw [hts]
    rcases List.mem_append.1 hx with hx | hx
    · exact ((hl.derives (one_le_rank op)).of_mem_nodes hl.of_mem_inner x hx).inLeft
    · exact ((hr.derives (Nat.le_add_left 1 _)).of_mem_nodes hr.of_mem_inner x hx).cons.inRight

theorem Operand.of_mem_inner {o : Bool} {ts : List (Located Token)} {e : Expr} :
    Operand o ts e → ∀ x ∈ e.inner, Within Derives ts x
  | .number | .text | .bool | .null _ | .undefined _ | .input | .name => fun x hx => by cases hx
  | .index hi hts => fun x hx => by
    rw [Expr.inner_index] at hx
    rw [hts]
    rcases List.mem_append.1 hx with hx | hx
    · obtain rfl := List.mem_singleton.1 hx
      exact (Within.self Operand.name.derives).mono (List.prefix_append [_] _).isInfix
    · exact ((hi.derives (Nat.le_refl 1)).of_mem_nodes hi.of_mem_inner x hx).cons.cons.inLeft
  | .call ha hts => fun x hx => hts ▸ (ha.of_mem_nodes x hx).cons.cons.cons.inLeft
  | .array ha hts => fun x hx => hts ▸ (ha.of_mem_nodes x hx).cons.inLeft
  | .lambda _ hb hts => fun x hx =>
    hts ▸ ((hb.derives (Nat.le_refl 1)).of_mem_nodes hb.of_mem_inner x hx).cons.cons.inRight
  | .nameLambda hb hts => fun x hx =>
    hts ▸ ((hb.derives (Nat.le_refl 1)).of_mem_nodes hb.of_mem_inner x hx).cons.cons
  | .method ha hts => fun x hx =>
    hts ▸ (ha.of_mem_nodes x hx).cons.cons.cons.cons.cons.cons.cons.inLeft
  | .parenthesized h hts | .bracketed h hts => fun x hx => by
    rw [Expr.inner_withSpan] at hx
    exact hts ▸ (h.of_mem_inner x hx).cons.inLeft
  | .signed _ h hts => fun x hx => hts ▸ (h.derives.of_mem_nodes h.of_mem_inner x hx).cons

theorem Arguments.of_mem_nodes {ts : List (Located Token)} {es : List Expr} :
    Arguments ts es → ∀ x ∈ Expr.nodesList es, Within Derives ts x
  | .nil => fun x hx => by cases hx
  | .one h => fun x hx => by
    rw [Expr.nodesList_cons, Expr.nodesList, List.append_nil] at hx
    exact (h.derives (Nat.le_refl 1)).of_mem_nodes h.of_mem_inner x hx
  | .more h _ hs => fun x hx => by
    rw [Expr.nodesList_cons] at hx
    rcases List.mem_append.1 hx with hx | hx
    · exact ((h.derives (Nat.le_refl 1)).of_mem_nodes h.of_mem_inner x hx).inLeft
    · exact (hs.of_mem_nodes x hx).cons.inRight

end

theorem exists_of_withSpan_eq_number {e : Expr} {v : Number} {s s' : Span}
    (h : e.withSpan s = .number v s') : ∃ s'', e = .number v s'' := by
  cases e <;> cases h
  exact ⟨_, rfl⟩

mutual

/-- A number is one of the tokens that write it. -/
theorem Expression.number_mem {o : Bool} {level : Nat} {ts : List (Located Token)} {e : Expr}
    {v : Number} {s : Span} : Expression o level ts e → e = .number v s → ∃ a, ⟨.number v, a⟩ ∈ ts
  | .operand h, heq => h.number_mem heq
  | .binary _ _ _ _, heq => by cases heq

theorem Operand.number_mem {o : Bool} {ts : List (Located Token)} {e : Expr} {v : Number}
    {s : Span} : Operand o ts e → e = .number v s → ∃ a, ⟨.number v, a⟩ ∈ ts
  | .number, heq => by
    cases heq
    exact ⟨_, List.mem_singleton_self _⟩
  | .text, heq | .bool, heq | .null _, heq | .undefined _, heq | .input, heq | .name, heq
  | .index _ _, heq | .call _ _, heq | .array _ _, heq | .lambda _ _ _, heq | .nameLambda _ _, heq
  | .method _ _, heq | .signed _ _ _, heq => by cases heq
  | .parenthesized h hts, heq | .bracketed h hts, heq => by
    obtain ⟨s', hinner⟩ := exists_of_withSpan_eq_number heq
    obtain ⟨a, ha⟩ := h.number_mem hinner
    exact ⟨a, hts ▸ by simp [ha]⟩

end

/-- Every number in a derivable expression is one of the tokens. -/
theorem Derives.number_mem {ts : List (Located Token)} {e : Expr} (h : Derives ts e) {v : Number}
    {s : Span} (hv : .number v s ∈ e.nodes) : ∃ a, ⟨.number v, a⟩ ∈ ts := by
  obtain ⟨o, hexpr⟩ := h
  obtain ⟨us, hus, o', hnumber⟩ := Derives.of_mem_nodes ⟨o, hexpr⟩ hexpr.of_mem_inner _ hv
  obtain ⟨a, ha⟩ := hnumber.number_mem rfl
  exact ⟨a, hus.subset ha⟩

/-! ## Statements -/

/-- Every expression in a list, at every depth, is derived from a stretch of the tokens. -/
def Inside (ts : List (Located Token)) (es : List Expr) : Prop :=
  ∀ x ∈ Expr.nodesList es, Within Derives ts x

namespace Inside

variable {ts us : List (Located Token)} {token : Located Token} {e : Expr} {es es' : List Expr}

theorem nil : Inside ts [] := by
  simp [Inside, Expr.nodesList]

theorem append (h : Inside ts es) (h' : Inside ts es') : Inside ts (es ++ es') := by
  rw [Inside, Expr.nodesList_append, List.forall_mem_append]
  exact ⟨h, h'⟩

theorem cons (h : Inside ts [e]) (h' : Inside ts es) : Inside ts (e :: es) :=
  show Inside ts ([e] ++ es) from h.append h'

theorem behind (h : Inside ts es) : Inside (token :: ts) es :=
  fun x hx => (h x hx).cons

theorem inLeft (h : Inside ts es) : Inside (ts ++ us) es :=
  fun x hx => (h x hx).inLeft

theorem inRight (h : Inside ts es) : Inside (us ++ ts) es :=
  fun x hx => (h x hx).inRight

end Inside

section Parts

variable {ts : List (Located Token)}

theorem Expression.inside {o : Bool} {e : Expr} (h : Expression o 1 ts e) : Inside ts [e] :=
  Arguments.of_mem_nodes (.one h)

theorem Initial.inside {value : Option Expr} (h : Initial ts value) : Inside ts value.toList := by
  cases h with
  | none => exact .nil
  | some he => exact he.inside.behind

theorem Declares.inside {d : Declaration} (h : Declares ts d) : Inside ts d.exprs := by
  obtain ⟨-, -, hvalue, -, rfl⟩ := h
  exact hvalue.inside.inRight

theorem Indices.inside {indices : List Expr} (h : Indices ts indices) : Inside ts indices := by
  induction h with
  | nil => exact .nil
  | cons hi _ ih => exact .cons hi.inside.behind.inLeft ih.behind.inRight

theorem Mutates.inside {m : Mutation} (h : Mutates ts m) : Inside ts m.exprs := by
  obtain ⟨hindices, hvalue, rfl⟩ := h
  exact .append hindices.inside.behind.behind.inLeft hvalue.inside.behind.inRight

theorem Starts.inside {start : LoopStart} (h : Starts ts start) : Inside ts start.exprs := by
  cases h with
  | declare hd => exact hd.inside
  | update hm => exact hm.inside
  | name => exact .nil

theorem Alternatives.inside {alone : Expr → Prop} : ∀ {ts : List (Located Token)}
    {other : Otherwise}, Alternatives alone ts other → Inside ts other.conditions
  | _, _, .nothing | _, _, .block _ _ => .nil
  | _, _, .check he _ hn hts => by
    rw [hts]
    exact .cons he.inside.behind.behind.behind.inLeft.inLeft hn.inside.inRight

end Parts

/-- An expression is the step of a range that is not written. -/
def IsOmittedStep (stmt : Stmt) (step : Expr) : Prop :=
  ∃ counter first last body span offset,
    stmt = .repeatRange counter first last step body span ∧ step = .number .one (.point offset)

/-- Every expression that a statement is made of, at every depth, is derived from a stretch of its
tokens, unless it is a step that is not written. -/
theorem Statement.of_mem_exprs {alone : Expr → Prop} {ts : List (Located Token)} {stmt : Stmt}
    (h : Statement alone ts stmt) :
    ∀ x ∈ Expr.nodesList stmt.exprs, Within Derives ts x ∨ IsOmittedStep stmt x := by
  have written {es : List Expr} (h : Inside ts es) (x : Expr) (hx : x ∈ Expr.nodesList es) :
      Within Derives ts x ∨ IsOmittedStep stmt x := .inl (h x hx)
  cases h with
  | declare hd hts => exact written (hts ▸ hd.inside.inLeft)
  | update hm hts => exact written (hts ▸ hm.inside.inLeft)
  | check he _ ho hts =>
    exact written (hts ▸ .cons he.inside.behind.behind.inLeft.inLeft ho.inside.inRight)
  | @repeatRange _ _ first _ _ last _ step _ _ _ _ _ _ _ _ _ _ hf hl hs _ hts =>
    have hbounds : Inside ts [first, last] :=
      hts ▸ .cons hf.inside.behind.behind.behind.behind.inLeft.inLeft.inLeft
        hl.inside.behind.inRight.inLeft.inLeft
    intro x hx
    change x ∈ Expr.nodesList ([first, last] ++ [step]) at hx
    rw [Expr.nodesList_append, List.mem_append] at hx
    rcases hx with hx | hx
    · exact written hbounds x hx
    · cases hs with
      | written he => exact written (hts ▸ he.inside.behind.inRight.inLeft) x hx
      | omitted =>
        obtain rfl := List.mem_singleton.1 hx
        exact .inr ⟨_, _, _, _, _, _, rfl, rfl⟩
  | repeatUntil he _ hts => exact written (hts ▸ he.inside.behind.behind.behind.inLeft)
  | forLoop hs he hi _ hts =>
    refine written (hts ▸ .append hs.inside.behind.behind.inLeft.inLeft.inLeft ?_)
    exact .cons he.inside.behind.inRight.inLeft.inLeft hi.inside.behind.inRight.inLeft
  | give he hts | display he hts | error he hts | panic he hts =>
    exact written (hts ▸ he.inside.behind.inLeft)
  | expr _ he _ hts => exact written (hts ▸ he.inside.inLeft)
  | store | repeatEach | function | skip | halt | raw | rawEnded => exact written .nil

end Resin.Grammar
