import Resin.Proofs.Grammar.ExprSound

/-!
# What the grammar derives as an expression is read

The other direction: tokens that write an expression are read as that expression, wherever the next
token cannot go on with it. Three things have to fit for that.

* The next token. `Stops` says that it is no arrow, no opening brace and no operator that binds
  tightly enough to belong to the expression.
* The budgets. The nesting that is left must be as deep as the stretch is long, and the budget of
  climbing must exceed the number of tokens left; both hold at every start of a parse.
* The left side. An operation is read by climbing from its first operand, so the statement proved by
  induction, `Completes`, is about the loop: reading the tokens of an expression amounts to climbing
  on from that expression.
-/

namespace Resin.Grammar

open Parse ParseState

variable {s t u : ParseState} {o : Bool} {level k n : Nat} {e : Expr} {ts es : List (Located Token)}

/-! ## Where an expression ends -/

/-- The current token does not go on with an expression of the level in front of it. -/
def Stops (o : Bool) (level : Nat) (s : ParseState) : Prop :=
  s.current.value ≠ .symbol .arrow ∧ s.current.value ≠ .symbol .openBrace ∧
    ∀ op, BinaryOp.ofToken? s.current.value = some op → op.level < level ∧ o = false

/-- Whether a token goes on with no expression at all. -/
def closes (token : Token) : Bool :=
  token != .symbol .arrow && token != .symbol .openBrace && (BinaryOp.ofToken? token).isNone

theorem stops_of_closes (h : closes s.current.value = true) : Stops o level s := by
  simp only [closes, Bool.and_eq_true, bne_iff_ne, Option.isNone_iff_eq_none] at h
  refine ⟨h.1.1, h.1.2, fun op hop => ?_⟩
  rw [h.2] at hop
  cases hop

theorem stops_of_passes {token : Located Token} (h : s.Passes (token :: ts) t)
    (hcloses : closes token.value = true) : Stops o level s :=
  stops_of_closes (by rw [h.current_eq]; exact hcloses)

theorem Stops.mono {level' : Nat} (h : Stops o level s) (hle : level ≤ level') :
    Stops o level' s :=
  ⟨h.1, h.2.1, fun op hop => ⟨Nat.lt_of_lt_of_le (h.2.2 op hop).1 hle, (h.2.2 op hop).2⟩⟩

theorem level_lt_six (op : BinaryOp) : op.level < 6 := by
  cases op <;> decide

/-- No operator binds more tightly than an operand. -/
theorem Stops.operand (h : Stops o level s) : Stops o 6 s :=
  ⟨h.1, h.2.1, fun op hop => ⟨level_lt_six op, (h.2.2 op hop).2⟩⟩

/-- Behind an open expression there is no operator, of whatever level. -/
theorem Stops.of_open {o' : Bool} {level' : Nat} (h : Stops true level s) : Stops o' level' s :=
  ⟨h.1, h.2.1, fun op hop => absurd (h.2.2 op hop).2 (by simp)⟩

/-- An operator ends its left operand. -/
theorem stops_of_operator {op : BinaryOp} {a : Span} (h : s.Passes (⟨op.token, a⟩ :: ts) t) :
    Stops false (op.level + 1) s := by
  unfold Stops
  rw [h.current_eq]
  refine ⟨by cases op <;> simp [BinaryOp.token], by cases op <;> simp [BinaryOp.token], ?_⟩
  intro op' hop'
  rw [BinaryOp.ofToken?_token, Option.some.injEq] at hop'
  subst hop'
  exact ⟨Nat.lt_succ_self _, rfl⟩

/-! ## How an expression begins -/

/-- Whether an expression can begin with a token. -/
def opens : Token → Bool
  | .number _ | .text _ _ | .bool _ | .null | .undefined | .type .null | .type .undefined | .input
  | .name _ | .symbol .openBracket | .symbol .openBrace | .symbol .openParen | .symbol .plus
  | .symbol .minus | .keyword .call | .keyword .method => true
  | _ => false

mutual

/-- An expression begins with a token that can begin one. -/
theorem Expression.head {o : Bool} {level : Nat} {ts : List (Located Token)} {e : Expr} :
    Expression o level ts e → ∃ token rest, ts = token :: rest ∧ opens token.value = true
  | .operand h => h.head
  | .binary _ hl _ hts => by
    obtain ⟨token, rest, hls, htoken⟩ := hl.head
    exact ⟨token, _, by rw [hts, hls, List.cons_append], htoken⟩

/-- An operand begins with a token that can begin an expression. -/
theorem Operand.head {o : Bool} {ts : List (Located Token)} {e : Expr} :
    Operand o ts e → ∃ token rest, ts = token :: rest ∧ opens token.value = true
  | .number | .text | .bool | .input | .name => ⟨_, _, rfl, rfl⟩
  | .null h => ⟨_, _, rfl, by rcases h with rfl | rfl <;> rfl⟩
  | .undefined h => ⟨_, _, rfl, by rcases h with rfl | rfl <;> rfl⟩
  | .index _ hts | .call _ hts | .array _ hts | .lambda _ _ hts | .nameLambda _ hts
  | .method _ hts | .parenthesized _ hts | .bracketed _ hts => ⟨_, _, hts, rfl⟩
  | .signed hsign _ hts => by
    refine ⟨_, _, hts, ?_⟩
    unfold Sign.ofToken? at hsign
    split at hsign
    · rfl
    · rfl
    · cases hsign

end

/-- Whether a token can follow a name inside an expression. -/
def followsName (token : Token) : Bool :=
  token == .symbol .arrow || token == .symbol .openBrace || (BinaryOp.ofToken? token).isSome

theorem Operand.second {w : String} {a : Span} {token : Located Token}
    {rest : List (Located Token)} (h : Operand o ts e) (hts : ts = word w a :: token :: rest) :
    followsName token.value = true := by
  cases h with
  | number | text | bool | null | undefined | input | name => simp at hts
  | call _ h | array _ h | lambda _ _ h | method _ h | parenthesized _ h | bracketed _ h =>
    simp [h] at hts
  | index _ h | nameLambda _ h =>
    simp only [h, List.cons_append, List.cons.injEq] at hts
    rw [← hts.2.1]
    rfl
  | signed hsign _ h =>
    simp only [h, List.cons.injEq, Located.mk.injEq] at hts
    rw [hts.1.1] at hsign
    cases hsign

/-- In an expression that begins with a name, the second token is an arrow, an opening brace or an
operator. -/
theorem Expression.second {o : Bool} {level : Nat} {ts : List (Located Token)} {e : Expr}
    {w : String} {a : Span} {token : Located Token} {rest : List (Located Token)} :
    Expression o level ts e → ts = word w a :: token :: rest → followsName token.value = true
  | .operand h, hts => h.second hts
  | .binary _ hl _ h, hts => by
    obtain ⟨first, ls', hls, -⟩ := hl.head
    cases ls' with
    | nil =>
      simp only [h, hls, List.cons_append, List.nil_append, List.cons.injEq] at hts
      simp [← hts.2.1, followsName]
    | cons second ls' =>
      simp only [h, hls, List.cons_append, List.cons.injEq] at hts
      rw [hts.1, hts.2.1] at hls
      exact hl.second hls

/-! ## Climbing -/

/-- Where `Stops` holds, there is nothing to climb. -/
theorem climbUpTo_stop {sub : Nat → Parse Expr} (h : Stops o level s) (hn : 0 < n) :
    climbUpTo sub level n e s = .done e s := by
  obtain ⟨n, rfl⟩ := Nat.exists_eq_succ_of_ne_zero (Nat.ne_of_gt hn)
  rw [climbUpTo, bind_of_done (peek_apply s)]
  cases hop : BinaryOp.ofToken? s.current.value with
  | none => rfl
  | some op =>
    simp only
    rw [if_neg (Nat.not_le.2 (h.2.2 op hop).1)]
    rfl

/-- One operator and its right operand, after which climbing goes on. -/
theorem climbUpTo_step {sub : Nat → Parse Expr} {op : BinaryOp} {a : Span} {left right : Expr}
    (hop : s.Passes [⟨op.token, a⟩] u) (hlevel : level ≤ op.level)
    (hright : sub (op.level + 1) u = .done right t) :
    climbUpTo sub level (n + 1) left s =
      climbUpTo sub level n (.binary op left right ⟨left.span.start, right.span.stop⟩) t := by
  rw [climbUpTo, bind_of_done (peek_apply s), hop.current_eq, BinaryOp.ofToken?_token]
  simp only
  rw [if_pos hlevel, bind_of_done (advance_of_passes hop), bind_of_done hright]

/-- Reading the tokens of an expression at its level or a lower one amounts to climbing on from the
expression, if nothing that follows binds more tightly. -/
def Completes (o : Bool) (k : Nat) (ts : List (Located Token)) (e : Expr) : Prop :=
  ∀ ⦃n level : Nat⦄ ⦃s t : ParseState⦄, level ≤ k → ts.length ≤ n + 1 → s.Passes ts t →
    Stops o (k + 1) t → ∃ f, t.remaining < f ∧
      expressionUpTo (n + 1) level s = climbUpTo (expressionUpTo n) level f e t

/-- The tokens of an operand are read as the operand. -/
def OperandCompletes (o : Bool) (ts : List (Located Token)) (e : Expr) : Prop :=
  ∀ ⦃n b : Nat⦄ ⦃s t : ParseState⦄, ts.length ≤ n + 1 → ts.length ≤ b → s.Passes ts t →
    Stops o 6 t → operandUpTo (expressionUpTo n 1) b s = .done e t

/-- The expression is read, if no operator of the level follows. -/
theorem Completes.reads (h : Completes o k ts e) (hne : ts ≠ []) (hlevel : level ≤ k)
    (hlen : ts.length ≤ n) (hts : s.Passes ts t) (hstop : Stops o level t) :
    expressionUpTo n level s = .done e t := by
  have hpos := List.length_pos_iff.2 hne
  obtain ⟨n, rfl⟩ := Nat.exists_eq_succ_of_ne_zero (n := n) (by omega)
  obtain ⟨f, hf, hread⟩ := h hlevel hlen hts (hstop.mono (by omega))
  rw [hread]
  exact climbUpTo_stop hstop (by omega)

theorem OperandCompletes.expression (h : OperandCompletes o ts e) : Completes o k ts e := by
  intro n level s t _ hlen hts hstop
  have hle := hts.length_add_remaining_le
  have hbudget := s.remaining_lt_budget
  have hread : withBudget (operandUpTo (expressionUpTo n 1)) s = .done e t :=
    h hlen (by omega) hts hstop.operand
  refine ⟨t.budget, t.remaining_lt_budget, ?_⟩
  rw [expressionUpTo, bind_of_done hread]
  rfl

/-- Climbing passes an operation: from its left side over the operator and its right side. -/
theorem Completes.binary {op : BinaryOp} {left right : Expr} {ls rs : List (Located Token)}
    {a : Span} (hk : k ≤ rank op) (hleft : Completes false (rank op) ls left)
    (hl : Expression false (rank op) ls left) (hright : Completes o (rank op + 1) rs right)
    (hr : Expression o (rank op + 1) rs right) (hts : ts = ls ++ ⟨op.token, a⟩ :: rs) :
    Completes o k ts (.binary op left right (extent ts)) := by
  intro n level s t hlevel hlen hpass hstop
  rw [← level_eq_rank] at hk hleft hl hright hr
  subst hts
  have hpos := List.length_pos_iff.2 hl.span_eq.1
  simp only [List.length_append, List.length_cons] at hlen
  obtain ⟨m, hls, hoprs⟩ := Passes.append_iff.1 hpass
  obtain ⟨m', hop, hrs⟩ := hoprs.uncons
  -- reading the left side leaves the climb at the operator, with budget to spare for it
  obtain ⟨f, hf, hread⟩ := hleft (n := n) (Nat.le_trans hlevel hk) (by omega) hls
    (stops_of_operator hop)
  have hread' : expressionUpTo n (op.level + 1) m' = .done right t :=
    hright.reads hr.span_eq.1 (Nat.le_refl _) (by omega) hrs (hstop.mono (by omega))
  have hrem := hoprs.length_add_remaining_le
  simp only [List.length_cons] at hrem
  obtain ⟨f, rfl⟩ := Nat.exists_eq_succ_of_ne_zero (n := f) (by omega)
  refine ⟨f, by omega, ?_⟩
  have hspan : (⟨left.span.start, right.span.stop⟩ : Span) =
      extent (ls ++ ⟨op.token, a⟩ :: rs) := by
    rw [hl.span_eq.2, hr.stop_eq hrs, hpass.extent_eq (by simp), hls.extent_eq hl.span_eq.1]
  rw [hread, climbUpTo_step hop (Nat.le_trans hlevel hk) hread', hspan]

/-! ## Operands by their form -/

/-- The parse reads the expression off its tokens. -/
def ReadBy (sub : Parse Expr) (o : Bool) (ts : List (Located Token)) (e : Expr) : Prop :=
  ∀ ⦃s t : ParseState⦄, s.Passes ts t → Stops o 1 t → sub s = .done e t

/-- The parse reads the arguments off their tokens. -/
def ReadAllBy (sub : Parse Expr) (as : List (Located Token)) (args : List Expr) : Prop :=
  ∀ ⦃s t : ParseState⦄ ⦃close : Symbol⦄, close = .closeBracket ∨ close = .closeBrace →
    s.Passes as t → t.current.value = .symbol close → commaList close sub s = .done args t

section Forms

variable {sub : Parse Expr} {a b c d : Span}

theorem nameForm_name {w : String} (h : s.Passes [word w a] t) (hstop : Stops o level t) :
    nameForm sub s = .done (.name w a) t := by
  have hname : name .identifier s = .done ⟨w, a⟩ t := name_done_iff.2 h
  rw [nameForm, bind_of_done hname, bind_of_done (peek_apply t)]
  obtain ⟨harrow, hbrace, -⟩ := hstop
  generalize t.current.value = value at harrow hbrace ⊢
  split
  · exact absurd rfl harrow
  · exact absurd rfl hbrace
  · rfl

theorem nameForm_index {w : String} {i : Expr} {is : List (Located Token)}
    (hsub : ReadBy sub o is i)
    (hts : ts = word w a :: sym .openBrace b :: is ++ [sym .closeBrace c]) (h : s.Passes ts t) :
    nameForm sub s = .done (.index (.name w a) i (extent ts)) t := by
  subst hts
  obtain ⟨u₃, h₃, hclose⟩ := Passes.append_iff.1 h
  obtain ⟨u₁, hw, h₂⟩ := h₃.uncons
  obtain ⟨u₂, hopen, his⟩ := h₂.uncons
  have hname : name .identifier s = .done ⟨w, a⟩ u₁ := name_done_iff.2 hw
  rw [nameForm, bind_of_done hname, bind_of_done (peek_apply u₁), hopen.current_eq]
  simp only [bind_eq_done_iff, symbol_done_iff]
  exact ⟨_, _, advance_of_passes hopen, i, u₃, hsub his (stops_of_passes hclose rfl), c, t, hclose,
    _, _, rfl, by rw [extent_of_passes h]; rfl⟩

theorem nameForm_lambda {w : String} {body : Expr} {bs : List (Located Token)}
    (hsub : ReadBy sub o bs body) (hbody : Expression o 1 bs body)
    (hts : ts = word w a :: sym .arrow b :: bs) (h : s.Passes ts t) (hstop : Stops o 1 t) :
    nameForm sub s = .done (.lambda [w] body (extent ts)) t := by
  subst hts
  obtain ⟨u₁, hw, h₂⟩ := h.uncons
  obtain ⟨u₂, harrow, hbs⟩ := h₂.uncons
  have hname : name .identifier s = .done ⟨w, a⟩ u₁ := name_done_iff.2 hw
  rw [nameForm, bind_of_done hname, bind_of_done (peek_apply u₁), harrow.current_eq]
  simp only [bind_eq_done_iff]
  refine ⟨_, _, advance_of_passes harrow, body, t, hsub hbs hstop, ?_⟩
  rw [hbody.stop_eq hbs, extent_of_passes h]
  rfl

/-- Names with commas are read up to a token that is none. -/
theorem Names.readsItems (role : NameRole) {ps : List (Located Token)} {params : List String}
    (h : Names ps params) (hne : params ≠ []) (hps : s.Passes ps t)
    (hend : t.current.value ≠ .symbol .comma) :
    ∃ found, found.map Located.value = params ∧ ReadsItems (name role) s found t := by
  induction h generalizing s with
  | nil => exact absurd rfl hne
  | @one w a =>
    have hle := hps.length_add_remaining_le
    exact ⟨[⟨w, a⟩], rfl, .one (name_done_iff.2 hps) (by omega) hend⟩
  | @more w ws ps a b hws _ ih =>
    obtain ⟨u, hw, hrest⟩ := hps.uncons
    obtain ⟨v, hcomma, hps⟩ := hrest.uncons
    obtain ⟨found, rfl, hfound⟩ := ih hws hps
    have hle := hw.length_add_remaining_le
    exact ⟨⟨w, a⟩ :: found, rfl, hfound.cons (name_done_iff.2 hw) (by omega) hcomma⟩

theorem Names.commaList (role : NameRole) {ps : List (Located Token)} {params : List String}
    {close : Symbol} (h : Names ps params) (hps : s.Passes ps t)
    (hend : t.current.value = .symbol close) (hcomma : close ≠ .comma) :
    ∃ found, found.map Located.value = params ∧
      Parse.commaList close (name role) s = .done found t := by
  cases h with
  | nil =>
    obtain rfl := Passes.nil_iff.1 hps
    exact ⟨[], rfl, commaList_of_close hend⟩
  | one | more =>
    obtain ⟨found, hmap, hfound⟩ := Names.readsItems role (by constructor <;> assumption)
      (by simp) hps (by simp [hend, hcomma])
    exact ⟨found, hmap, hfound.commaList (by simp [hps.current_eq])⟩

/-- Only a single name in brackets can be read both as an expression and as names. -/
theorem Expression.eq_of_names {ps us vs : List (Located Token)} {params : List String}
    (he : Expression o level es e) (hps : Names ps params)
    (h : es ++ sym .closeBracket a :: us = ps ++ sym .closeBracket b :: vs) :
    es = ps ∧ us = vs := by
  obtain ⟨first, rest, rfl, hfirst⟩ := he.head
  -- the token behind a first name, if it is part of the expression, is no symbol of a list
  have hsecond : ∀ {w a z c rest'}, first = word w a → rest = sym z c :: rest' →
      z ≠ .comma ∧ z ≠ .closeBracket := by
    rintro w a z c rest' rfl rfl
    have hfollows := he.second rfl
    constructor <;> rintro rfl <;> cases hfollows
  cases hps with
  | nil =>
    obtain ⟨rfl, -⟩ := List.cons.inj h
    cases hfirst
  | one =>
    obtain ⟨rfl, htail⟩ := List.cons.inj h
    cases rest with
    | nil => exact ⟨rfl, (List.cons.inj htail).2⟩
    | cons second rest =>
      obtain ⟨rfl, -⟩ := List.cons.inj htail
      exact absurd rfl (hsecond rfl rfl).2
  | more =>
    obtain ⟨rfl, htail⟩ := List.cons.inj h
    cases rest with
    | nil =>
      have hcomma := (List.cons.inj htail).1
      cases hcomma
    | cons second rest =>
      obtain ⟨rfl, -⟩ := List.cons.inj htail
      exact absurd rfl (hsecond rfl rfl).1

/-- An expression in brackets with no arrow behind them does not look like the head of a lambda. -/
theorem lambdaHeader_ne_done {params : List String} (he : Expression o level es e)
    (h : s.Passes (sym .openBracket a :: es ++ [sym .closeBracket b]) t)
    (hend : t.current.value ≠ .symbol .arrow) : lambdaHeader s ≠ .done params u := by
  intro hheader
  obtain ⟨ps, a', b', c', hnames, h'⟩ := lambdaHeader_sound hheader
  -- both stretches begin at `s`, so one of them goes on where the other ends
  rcases h.split h' with ⟨vs, heq, hvs⟩ | ⟨vs, heq, -⟩
  · have htail : es ++ sym .closeBracket b :: vs =
        ps ++ sym .closeBracket b' :: [sym .arrow c'] := by
      simpa using (List.cons.inj heq).2.symm
    obtain ⟨-, rfl⟩ := he.eq_of_names hnames htail
    exact hend (by rw [hvs.current_eq])
  · have htail : es ++ sym .closeBracket b :: [] =
        ps ++ sym .closeBracket b' :: sym .arrow c' :: vs := by
      simpa using (List.cons.inj heq).2
    cases (he.eq_of_names hnames htail).2

/-- The head of a lambda is read off its tokens. -/
theorem lambdaHeader_complete {params : List String} {ps : List (Located Token)}
    (hps : Names ps params)
    (h : s.Passes (sym .openBracket a :: ps ++ [sym .closeBracket b, sym .arrow c]) t) :
    lambdaHeader s = .done params t := by
  obtain ⟨u₂, h₂, h₃⟩ := Passes.append_iff.1 h
  obtain ⟨u₁, hopen, hnames⟩ := h₂.uncons
  obtain ⟨u₃, hclose, harrow⟩ := h₃.uncons
  obtain ⟨found, hmap, hfound⟩ := hps.commaList .lambdaParameter hnames
    (by rw [hclose.current_eq]) (by simp)
  simp only [lambdaHeader, bind_eq_done_iff, symbol_done_iff, pure_apply]
  exact ⟨_, _, hopen, found, _, hfound, _, _, hclose, _, _, harrow, by rw [hmap]⟩

theorem bracketForm_lambda {params : List String} {ps : List (Located Token)} {body : Expr}
    {bs : List (Located Token)} (hps : Names ps params) (hsub : ReadBy sub o bs body)
    (hbody : Expression o 1 bs body)
    (hts : ts = sym .openBracket a :: ps ++ sym .closeBracket b :: sym .arrow c :: bs)
    (h : s.Passes ts t) (hstop : Stops o 1 t) :
    bracketForm sub s = .done (.lambda params body (extent ts)) t := by
  subst hts
  have happend : s.Passes
      ((sym .openBracket a :: ps ++ [sym .closeBracket b, sym .arrow c]) ++ bs) t := by
    simpa using h
  obtain ⟨u, hhead, hbs⟩ := Passes.append_iff.1 happend
  rw [bracketForm, bind_of_done (here_apply s),
    bind_of_done (attempt_of_done (lambdaHeader_complete hps hhead))]
  simp only [bind_of_done (hsub hbs hstop)]
  rw [hbody.stop_eq hbs, h.current_eq, extent_of_passes h]
  rfl

theorem bracketForm_group (hsub : ReadBy sub o es e) (he : Expression o level es e)
    (hts : ts = sym .openBracket a :: es ++ [sym .closeBracket b]) (h : s.Passes ts t)
    (hend : t.current.value ≠ .symbol .arrow) :
    bracketForm sub s = .done (e.withSpan (extent ts)) t := by
  subst hts
  have hheader : attempt lambdaHeader s = .done none s :=
    attempt_of_not_done fun params u => lambdaHeader_ne_done he h hend
  obtain ⟨u₂, h₂, hclose⟩ := Passes.append_iff.1 h
  obtain ⟨u₁, hopen, hes⟩ := h₂.uncons
  -- the attempt at a lambda has failed and moved nothing
  rw [bracketForm, bind_of_done (here_apply s), bind_of_done hheader, h.current_eq]
  simp only [bind_eq_done_iff, symbol_done_iff]
  exact ⟨_, _, hopen, e, u₂, hsub hes (stops_of_passes hclose rfl), _, _, hclose, _, _, rfl,
    by rw [extent_of_passes h]; rfl⟩

theorem arguments_complete {args : List Expr} {as : List (Located Token)}
    (hargs : ReadAllBy sub as args)
    (h : s.Passes (sym .openBracket a :: as ++ [sym .closeBracket b]) t) :
    arguments sub s = .done args t := by
  obtain ⟨u₂, h₂, hclose⟩ := Passes.append_iff.1 h
  obtain ⟨u₁, hopen, has⟩ := h₂.uncons
  simp only [arguments, bind_eq_done_iff, symbol_done_iff]
  exact ⟨_, _, hopen, args, u₂, hargs (.inl rfl) has (by rw [hclose.current_eq]), _, _, hclose, rfl⟩

theorem arrayForm_complete {elements : List Expr} {as : List (Located Token)}
    (hargs : ReadAllBy sub as elements)
    (hts : ts = sym .openBrace a :: as ++ [sym .closeBrace b]) (h : s.Passes ts t) :
    arrayForm sub s = .done (.array elements (extent ts)) t := by
  subst hts
  obtain ⟨u₂, h₂, hclose⟩ := Passes.append_iff.1 h
  obtain ⟨u₁, hopen, has⟩ := h₂.uncons
  simp only [arrayForm, bind_eq_done_iff, symbol_done_iff]
  exact ⟨_, _, hopen, elements, u₂, hargs (.inr rfl) has (by rw [hclose.current_eq]), _, _, hclose,
    _, _, rfl, by rw [extent_of_passes h]; rfl⟩

theorem callForm_complete {f : String} {args : List Expr} {as : List (Located Token)}
    (hargs : ReadAllBy sub as args)
    (hts : ts = kw .call a :: word f b :: sym .openBracket c :: as ++ [sym .closeBracket d])
    (h : s.Passes ts t) : callForm sub s = .done (.call f args (extent ts)) t := by
  subst hts
  obtain ⟨u₁, hcall, h₁⟩ := h.uncons
  obtain ⟨u₂, hf, has⟩ := h₁.uncons
  simp only [callForm, bind_eq_done_iff, keyword_done_iff, name_done_iff]
  exact ⟨_, _, hcall, ⟨f, b⟩, _, hf, args, t, arguments_complete hargs has, _, _, rfl,
    by rw [extent_of_passes h]; rfl⟩

theorem targetType_complete {type : TypeName} (h : s.Passes [⟨.type type, a⟩] t) :
    targetType s = .done ⟨type, a⟩ t := by
  rw [targetType, bind_of_done (advance_of_passes h)]
  rfl

theorem methodForm_complete {type : TypeName} {x m : String} {args : List Expr} {e f g i : Span}
    {as : List (Located Token)} (hargs : ReadAllBy sub as args)
    (hts : ts = kw .method a :: sym .colon b :: ⟨.type type, c⟩ :: word x d :: sym .dot e ::
      word m f :: sym .openBracket g :: as ++ [sym .closeBracket i])
    (h : s.Passes ts t) :
    methodForm sub s = .done (.method ⟨type, c⟩ x ⟨m, f⟩ args (extent ts)) t := by
  subst hts
  obtain ⟨u₁, hmethod, h₁⟩ := h.uncons
  obtain ⟨u₂, hcolon, h₂⟩ := h₁.uncons
  obtain ⟨u₃, htype, h₃⟩ := h₂.uncons
  obtain ⟨u₄, hx, h₄⟩ := h₃.uncons
  obtain ⟨u₅, hdot, h₅⟩ := h₄.uncons
  obtain ⟨u₆, hm, has⟩ := h₅.uncons
  simp only [methodForm, bind_eq_done_iff, keyword_done_iff, hinting_done_iff, symbol_done_iff,
    name_done_iff]
  exact ⟨_, _, hmethod, _, _, hcolon, _, _, targetType_complete htype, ⟨x, d⟩, _, hx, _, _, hdot,
    ⟨m, f⟩, _, hm, args, t, arguments_complete hargs has, _, _, rfl,
    by rw [extent_of_passes h]; rfl⟩

theorem atom_group (hsub : ReadBy sub o es e)
    (hts : ts = sym .openParen a :: es ++ [sym .closeParen b]) (h : s.Passes ts t) :
    atom sub s = .done (e.withSpan (extent ts)) t := by
  subst hts
  obtain ⟨u₂, h₂, hclose⟩ := Passes.append_iff.1 h
  obtain ⟨u₁, hopen, hes⟩ := h₂.uncons
  rw [atom, bind_of_done (advance_of_passes hopen)]
  simp only [bind_eq_done_iff, symbol_done_iff]
  exact ⟨e, u₂, hsub hes (stops_of_passes hclose rfl), _, _, hclose, _, _, rfl,
    by rw [extent_of_passes h]; rfl⟩

/-- The form of an operand whose first token is given. -/
def formOf (sub : Parse Expr) : Token → Parse Expr
  | .name _ => nameForm sub
  | .symbol .openBracket => bracketForm sub
  | .symbol .openBrace => arrayForm sub
  | .keyword .call => callForm sub
  | .keyword .method => methodForm sub
  | _ => atom sub

/-- An operand that does not begin with a sign has the form given by its first token. -/
theorem operandUpTo_eq_formOf (hn : 0 < n) (hsign : Sign.ofToken? s.current.value = none) :
    operandUpTo sub n s = formOf sub s.current.value s := by
  obtain ⟨n, rfl⟩ := Nat.exists_eq_succ_of_ne_zero (Nat.ne_of_gt hn)
  rw [operandUpTo, bind_of_done (peek_apply s), hsign]
  rfl

theorem operandUpTo_eq {token : Located Token} (h : s.Passes (token :: ts) t) (hn : 0 < n)
    (hsign : Sign.ofToken? token.value = none) :
    operandUpTo sub n s = formOf sub token.value s := by
  rw [operandUpTo_eq_formOf hn (by rwa [h.current_eq]), h.current_eq]

end Forms

/-! ## The induction -/

theorem Arguments.readAllBy {sub : Parse Expr} {as : List (Located Token)} {args : List Expr}
    (h : Arguments as args)
    (hitems : args ≠ [] → ∀ ⦃s t : ParseState⦄, s.Passes as t → closes t.current.value = true →
      t.current.value ≠ .symbol .comma → ReadsItems sub s args t) : ReadAllBy sub as args := by
  intro s t close hclose has hend
  have hcloses : closes t.current.value = true := by
    rw [hend]
    rcases hclose with rfl | rfl <;> rfl
  have hcomma : t.current.value ≠ .symbol .comma := by
    rw [hend]
    rcases hclose with rfl | rfl <;> simp
  -- no expression begins with a closing symbol
  have hat : ∀ {o e ts us}, Expression o 1 ts e → s.Passes (ts ++ us) t →
      s.current.value ≠ .symbol close := by
    intro o e ts us he hpass heq
    obtain ⟨token, rest, rfl, htoken⟩ := he.head
    rw [← hpass.current_eq, heq] at htoken
    rcases hclose with rfl | rfl <;> cases htoken
  cases h with
  | nil =>
    obtain rfl := Passes.nil_iff.1 has
    exact commaList_of_close hend
  | one he =>
    exact (hitems (by simp) has hcloses hcomma).commaList
      (hat he (show s.Passes (_ ++ []) t by simpa using has))
  | more he _ _ => exact (hitems (by simp) has hcloses hcomma).commaList (hat he has)

theorem Completes.readBy (h : Completes o 1 es e) (hne : es ≠ []) (hlen : es.length ≤ n) :
    ReadBy (expressionUpTo n 1) o es e :=
  fun _ _ hes hstop => h.reads hne (Nat.le_refl _) hlen hes hstop

/-- The expression that a single token writes, names apart. -/
def literal? (a : Span) : Token → Option Expr
  | .number v => some (.number v a)
  | .text c q => some (.text c q a)
  | .bool v => some (.bool v a)
  | .null | .type .null => some (.null a)
  | .undefined | .type .undefined => some (.undefined a)
  | .input => some (.input a)
  | _ => none

theorem OperandCompletes.literal {token : Token} {a : Span} (h : literal? a token = some e) :
    OperandCompletes false [⟨token, a⟩] e := by
  intro n b s t _ hb hts _
  have hatom : Sign.ofToken? token = none ∧ formOf (expressionUpTo n 1) token =
      atom (expressionUpTo n 1) := by
    unfold literal? at h
    split at h <;> first | exact ⟨rfl, rfl⟩ | cases h
  rw [operandUpTo_eq hts hb hatom.1, hatom.2, atom, bind_of_done (advance_of_passes hts)]
  unfold literal? at h
  split at h <;> cases h <;> rfl

/-- The tokens of arguments are read as the arguments, wherever no other argument follows. -/
def ItemsComplete (as : List (Located Token)) (args : List Expr) : Prop :=
  args ≠ [] → ∀ ⦃n : Nat⦄ ⦃s t : ParseState⦄, as.length ≤ n → s.Passes as t →
    closes t.current.value = true → t.current.value ≠ .symbol .comma →
    ReadsItems (expressionUpTo n 1) s args t

theorem ItemsComplete.one (h : Completes o 1 ts e) (he : Expression o 1 ts e) :
    ItemsComplete ts [e] := by
  intro _ n s t hlen hts hcloses hcomma
  have hle := hts.length_add_remaining_le
  exact .one (h.readBy he.span_eq.1 hlen hts (stops_of_closes hcloses)) (by omega) hcomma

theorem ItemsComplete.more {a : Span} {as : List (Located Token)} {args : List Expr}
    (h : Completes o 1 ts e) (he : Expression o 1 ts e) (hne : args ≠ [])
    (hargs : ItemsComplete as args) : ItemsComplete (ts ++ sym .comma a :: as) (e :: args) := by
  intro _ n s t hlen hpass hcloses hcomma
  simp only [List.length_append, List.length_cons] at hlen
  obtain ⟨u, hts, hrest⟩ := Passes.append_iff.1 hpass
  obtain ⟨v, hc, has⟩ := hrest.uncons
  have hle := hts.length_add_remaining_le
  have hread : expressionUpTo n 1 s = .done e u :=
    h.readBy he.span_eq.1 (by omega) hts (stops_of_passes hc rfl)
  exact (hargs hne (by omega) has hcloses hcomma).cons hread (by omega) hc

namespace OperandCompletes

variable {a b c d : Span}

theorem name {w : String} : OperandCompletes false [word w a] (.name w a) := by
  intro n k s t _ hk h hstop
  rw [operandUpTo_eq h hk rfl]
  exact nameForm_name h hstop

theorem index {w : String} (h : Completes o 1 es e) (he : Expression o 1 es e)
    (hts : ts = word w a :: sym .openBrace b :: es ++ [sym .closeBrace c]) :
    OperandCompletes false ts (.index (.name w a) e (extent ts)) := by
  intro n k s t hlen hk hpass _
  subst hts
  simp only [List.cons_append, List.length_cons, List.length_append] at hlen hk
  rw [operandUpTo_eq hpass (by omega) rfl]
  exact nameForm_index (h.readBy he.span_eq.1 (by omega)) rfl hpass

theorem nameLambda {w : String} (h : Completes o 1 es e) (he : Expression o 1 es e)
    (hts : ts = word w a :: sym .arrow b :: es) :
    OperandCompletes true ts (.lambda [w] e (extent ts)) := by
  intro n k s t hlen hk hpass hstop
  subst hts
  simp only [List.length_cons] at hlen hk
  rw [operandUpTo_eq hpass (by omega) rfl]
  exact nameForm_lambda (h.readBy he.span_eq.1 (by omega)) he rfl hpass hstop.of_open

theorem lambda {params : List String} {ps : List (Located Token)} (hps : Names ps params)
    (h : Completes o 1 es e) (he : Expression o 1 es e)
    (hts : ts = sym .openBracket a :: ps ++ sym .closeBracket b :: sym .arrow c :: es) :
    OperandCompletes true ts (.lambda params e (extent ts)) := by
  intro n k s t hlen hk hpass hstop
  subst hts
  simp only [List.cons_append, List.length_cons, List.length_append] at hlen hk
  rw [operandUpTo_eq hpass (by omega) rfl]
  exact bracketForm_lambda hps (h.readBy he.span_eq.1 (by omega)) he rfl hpass hstop.of_open

theorem bracketed (h : Completes o 1 es e) (he : Expression o 1 es e)
    (hts : ts = sym .openBracket a :: es ++ [sym .closeBracket b]) :
    OperandCompletes false ts (e.withSpan (extent ts)) := by
  intro n k s t hlen hk hpass hstop
  subst hts
  simp only [List.cons_append, List.length_cons, List.length_append] at hlen hk
  rw [operandUpTo_eq hpass (by omega) rfl]
  exact bracketForm_group (h.readBy he.span_eq.1 (by omega)) he rfl hpass hstop.1

theorem parenthesized (h : Completes o 1 es e) (he : Expression o 1 es e)
    (hts : ts = sym .openParen a :: es ++ [sym .closeParen b]) :
    OperandCompletes false ts (e.withSpan (extent ts)) := by
  intro n k s t hlen hk hpass _
  subst hts
  simp only [List.cons_append, List.length_cons, List.length_append] at hlen hk
  rw [operandUpTo_eq hpass (by omega) rfl]
  exact atom_group (h.readBy he.span_eq.1 (by omega)) rfl hpass

theorem array {as : List (Located Token)} {args : List Expr} (h : Arguments as args)
    (hargs : ItemsComplete as args) (hts : ts = sym .openBrace a :: as ++ [sym .closeBrace b]) :
    OperandCompletes false ts (.array args (extent ts)) := by
  intro n k s t hlen hk hpass _
  subst hts
  simp only [List.cons_append, List.length_cons, List.length_append] at hlen hk
  rw [operandUpTo_eq hpass (by omega) rfl]
  exact arrayForm_complete (h.readAllBy fun hne _ _ => hargs hne (by omega)) rfl hpass

theorem call {f : String} {as : List (Located Token)} {args : List Expr} (h : Arguments as args)
    (hargs : ItemsComplete as args)
    (hts : ts = kw .call a :: word f b :: sym .openBracket c :: as ++ [sym .closeBracket d]) :
    OperandCompletes false ts (.call f args (extent ts)) := by
  intro n k s t hlen hk hpass _
  subst hts
  simp only [List.cons_append, List.length_cons, List.length_append] at hlen hk
  rw [operandUpTo_eq hpass (by omega) rfl]
  exact callForm_complete (h.readAllBy fun hne _ _ => hargs hne (by omega)) rfl hpass

theorem method {type : TypeName} {x m : String} {e f g i : Span} {as : List (Located Token)}
    {args : List Expr} (h : Arguments as args) (hargs : ItemsComplete as args)
    (hts : ts = kw .method a :: sym .colon b :: ⟨.type type, c⟩ :: word x d :: sym .dot e ::
      word m f :: sym .openBracket g :: as ++ [sym .closeBracket i]) :
    OperandCompletes false ts (.method ⟨type, c⟩ x ⟨m, f⟩ args (extent ts)) := by
  intro n k s t hlen hk hpass _
  subst hts
  simp only [List.cons_append, List.length_cons, List.length_append] at hlen hk
  rw [operandUpTo_eq hpass (by omega) rfl]
  exact methodForm_complete (h.readAllBy fun hne _ _ => hargs hne (by omega)) rfl hpass

theorem signed {token : Token} {sign : Sign} (hsign : Sign.ofToken? token = some sign)
    (h : OperandCompletes o es e) (he : Operand o es e) (hts : ts = ⟨token, a⟩ :: es) :
    OperandCompletes o ts (.signed sign e (extent ts)) := by
  intro n k s t hlen hk hpass hstop
  subst hts
  simp only [List.length_cons] at hlen hk
  obtain ⟨k, rfl⟩ := Nat.exists_eq_succ_of_ne_zero (n := k) (by omega)
  obtain ⟨u, htoken, hes⟩ := hpass.uncons
  rw [operandUpTo, bind_of_done (peek_apply s), hpass.current_eq, hsign]
  simp only
  rw [bind_of_done (advance_of_passes htoken), bind_of_done (h (by omega) (by omega) hes hstop),
    he.stop_eq hes, extent_of_passes hpass]
  rfl

end OperandCompletes

mutual

theorem Expression.completes {o : Bool} {k : Nat} {ts : List (Located Token)} {e : Expr} :
    Expression o k ts e → Completes o k ts e
  | .operand h => h.completes.expression
  | .binary hk hl hr hts => .binary hk hl.completes hl hr.completes hr hts

theorem Operand.completes {o : Bool} {ts : List (Located Token)} {e : Expr} :
    Operand o ts e → OperandCompletes o ts e
  | .number | .text | .bool | .input => .literal rfl
  | .null h => .literal (by rcases h with rfl | rfl <;> rfl)
  | .undefined h => .literal (by rcases h with rfl | rfl <;> rfl)
  | .name => .name
  | .index he hts => .index he.completes he hts
  | .call hargs hts => .call hargs hargs.itemsComplete hts
  | .array hargs hts => .array hargs hargs.itemsComplete hts
  | .lambda hps he hts => .lambda hps he.completes he hts
  | .nameLambda he hts => .nameLambda he.completes he hts
  | .method hargs hts => .method hargs hargs.itemsComplete hts
  | .parenthesized he hts => .parenthesized he.completes he hts
  | .bracketed he hts => .bracketed he.completes he hts
  | .signed hsign he hts => .signed hsign he.completes he hts

theorem Arguments.itemsComplete {as : List (Located Token)} {args : List Expr} :
    Arguments as args → ItemsComplete as args
  | .nil => fun hne => absurd rfl hne
  | .one he => .one he.completes he
  | .more he hne hargs => .more he.completes he hne hargs.itemsComplete

end

/-- The tokens of an expression are read as that expression, if nothing that follows goes on with
it. -/
theorem Expression.reads (h : Expression o level ts e) (hlen : ts.length ≤ n) (hts : s.Passes ts t)
    (hstop : Stops o level t) : expressionUpTo n level s = .done e t :=
  h.completes.reads h.span_eq.1 (Nat.le_refl _) hlen hts hstop

theorem Expression.read (h : Expression o 1 ts e) (hts : s.Passes ts t) (hstop : Stops o 1 t) :
    expression s = .done e t := by
  have hle := hts.length_add_remaining_le
  have hbudget := s.remaining_lt_budget
  exact h.reads (by omega) hts hstop

end Resin.Grammar
