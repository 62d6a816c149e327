import Resin.Parse.Expr
import Resin.Proofs.Grammar.Basic

/-!
# Expressions are read as the grammar says

Every parse of an expression that succeeds has passed tokens that write the expression. A parse for
operators of a level or higher also stops only where no such operator follows; and behind an open
expression no operator follows at all, since its last lambda has taken them.
-/

namespace Resin

/-- The operator found for a token is written by it. -/
theorem BinaryOp.eq_token_of_ofToken? {token : Token} {op : BinaryOp}
    (h : BinaryOp.ofToken? token = some op) : token = op.token := by
  unfold BinaryOp.ofToken? at h
  have heq := List.find?_some h
  exact (beq_iff_eq.1 heq).symm

theorem BinaryOp.one_le_level (op : BinaryOp) : 1 ≤ op.level := by
  cases op <;> decide

namespace Grammar

open Parse ParseState

variable {s t : ParseState} {e : Expr} {sub : Parse Expr}

/-- A stretch that was passed extends from its first token to where the parse stands. -/
theorem extent_of_passes {token : Located Token} {ts : List (Located Token)}
    (h : s.Passes (token :: ts) t) : ⟨token.span.start, t.lastStop⟩ = extent (token :: ts) := by
  rw [h.extent_eq (List.cons_ne_nil _ _), h.current_eq]

theorem Expression.stop_eq {o : Bool} {level : Nat} {ts : List (Located Token)}
    (h : Expression o level ts e) (hts : s.Passes ts t) : e.span.stop = t.lastStop := by
  rw [h.span_eq.2, hts.lastStop_eq h.span_eq.1]

theorem Operand.stop_eq {o : Bool} {ts : List (Located Token)}
    (h : Operand o ts e) (hts : s.Passes ts t) : e.span.stop = t.lastStop :=
  (show Expression o 1 ts e from .operand h).stop_eq hts

/-- Whatever the parse passes writes an expression of the level, and no operator of the level
follows. -/
def ReadsExpressions (level : Nat) (p : Parse Expr) : Prop :=
  ∀ s e t, p s = .done e t → ∃ o ts, s.Passes ts t ∧ Expression o level ts e ∧
    ∀ op, BinaryOp.ofToken? t.current.value = some op → op.level < level ∧ o = false

/-- Whatever the parse passes writes an operand, and no operator follows an open one. -/
def ReadsOperands (p : Parse Expr) : Prop :=
  ∀ s e t, p s = .done e t → ∃ o ts, s.Passes ts t ∧ Operand o ts e ∧
    (o = true → BinaryOp.ofToken? t.current.value = none)

/-- Behind an expression of the lowest level no operator follows. -/
theorem ReadsExpressions.lowest (hsub : ReadsExpressions 1 sub) (h : sub s = .done e t) :
    ∃ o ts, s.Passes ts t ∧ Expression o 1 ts e ∧ BinaryOp.ofToken? t.current.value = none := by
  obtain ⟨o, ts, hts, he, hnext⟩ := hsub s e t h
  refine ⟨o, ts, hts, he, ?_⟩
  cases hop : BinaryOp.ofToken? t.current.value with
  | none => rfl
  | some op => exact absurd (hnext op hop).1 (Nat.not_lt.2 op.one_le_level)

theorem level_eq_rank (op : BinaryOp) : op.level = rank op := by
  cases op <;> rfl

/-- An operation, with the levels that the parses go by. -/
theorem Expression.operation {o : Bool} {level : Nat} {op : BinaryOp} {left right : Expr}
    {ls rs ts : List (Located Token)} {a : Span} (hle : level ≤ op.level)
    (hl : Expression false op.level ls left) (hr : Expression o (op.level + 1) rs right)
    (hts : ts = ls ++ ⟨op.token, a⟩ :: rs) :
    Expression o level ts (.binary op left right (extent ts)) := by
  rw [level_eq_rank] at hle hl hr
  exact .binary hle hl hr hts

/-! ## Lists -/

theorem names_sound {close : Symbol} {role : NameRole} {found : List (Located String)}
    (h : commaList close (name role) s = .done found t) :
    ∃ ts, s.Passes ts t ∧ Names ts (found.map Located.value) :=
  commaList_sound (G := fun ts w => ts = [word w.value w.span])
    (L := fun ts ws => Names ts (ws.map Located.value))
    (fun u w v hw => ⟨_, name_done_iff.1 hw, rfl⟩) .nil
    (fun ts w hts => by subst hts; exact .one)
    (fun ts w c us ws hts hne hws => by
      subst hts
      exact .more (by simpa using hne) hws)
    h

theorem items_sound {close : Symbol} {es : List Expr} (hsub : ReadsExpressions 1 sub)
    (h : commaList close sub s = .done es t) : ∃ ts, s.Passes ts t ∧ Arguments ts es :=
  commaList_sound (G := fun ts e => ∃ o, Expression o 1 ts e) (L := Arguments)
    (fun u e v he => by
      obtain ⟨o, ts, hts, hex, -⟩ := hsub u e v he
      exact ⟨ts, hts, o, hex⟩)
    .nil (fun ts e he => he.elim fun o he => .one he)
    (fun ts e c us es he hne hes => he.elim fun o he => .more he hne hes) h

theorem arguments_sound {args : List Expr} (hsub : ReadsExpressions 1 sub)
    (h : arguments sub s = .done args t) : ∃ as a b,
      s.Passes (sym .openBracket a :: as ++ [sym .closeBracket b]) t ∧ Arguments as args := by
  simp only [arguments, bind_eq_done_iff, symbol_done_iff, pure_apply, Reply.done.injEq] at h
  obtain ⟨a, u, ha, args, v, hargs, b, w, hb, rfl, rfl⟩ := h
  obtain ⟨as, has, hargs⟩ := items_sound hsub hargs
  exact ⟨as, a, b, (ha.trans has).trans hb, hargs⟩

/-! ## Operands by their form -/

theorem nameForm_sound (hsub : ReadsExpressions 1 sub) : ReadsOperands (nameForm sub) := by
  intro s e t h
  simp only [nameForm, bind_eq_done_iff, name_done_iff, peek_apply, Reply.done.injEq] at h
  obtain ⟨⟨w, a⟩, u, hw, _, _, ⟨rfl, rfl⟩, h⟩ := h
  generalize hval : u.current.value = value at h
  split at h
  · simp only [bind_eq_done_iff, pure_apply, Reply.done.injEq] at h
    obtain ⟨token, v, harrow, body, _, hbody, rfl, rfl⟩ := h
    obtain ⟨o, bs, hbs, hbody, hend⟩ := hsub.lowest hbody
    have hts := hw.trans ((passes_of_advance harrow hval (by simp)).trans hbs)
    refine ⟨true, _, hts, ?_, fun _ => hend⟩
    rw [hbody.stop_eq hbs]
    exact extent_of_passes hts ▸ .nameLambda hbody rfl
  · simp only [bind_eq_done_iff, symbol_done_iff, lastStop_apply, pure_apply,
      Reply.done.injEq] at h
    obtain ⟨token, v, hopen, index, x, hindex, close, y, hclose, _, _, ⟨rfl, rfl⟩, rfl, rfl⟩ := h
    obtain ⟨o, is, his, hindex, -⟩ := hsub _ _ _ hindex
    have hts := hw.trans (((passes_of_advance hopen hval (by simp)).trans his).trans hclose)
    refine ⟨false, _, hts, ?_, by simp⟩
    exact extent_of_passes hts ▸ .index hindex rfl
  · simp only [pure_apply, Reply.done.injEq] at h
    obtain ⟨rfl, rfl⟩ := h
    exact ⟨false, _, hw, .name, by simp⟩

theorem lambdaHeader_sound {params : List String} (h : lambdaHeader s = .done params t) :
    ∃ ps a b c, Names ps params ∧
      s.Passes (sym .openBracket a :: ps ++ [sym .closeBracket b, sym .arrow c]) t := by
  simp only [lambdaHeader, bind_eq_done_iff, symbol_done_iff, pure_apply, Reply.done.injEq] at h
  obtain ⟨a, u, ha, found, v, hfound, b, w, hb, c, x, hc, rfl, rfl⟩ := h
  obtain ⟨ps, hps, hnames⟩ := names_sound hfound
  exact ⟨ps, a, b, c, hnames, (ha.trans hps).trans (hb.trans hc)⟩

theorem bracketForm_sound (hsub : ReadsExpressions 1 sub) : ReadsOperands (bracketForm sub) := by
  intro s e t h
  simp only [bracketForm, bind_eq_done_iff, here_apply, Reply.done.injEq] at h
  obtain ⟨_, _, ⟨rfl, rfl⟩, header, u, hheader, h⟩ := h
  cases header with
  | some params =>
    simp only [bind_eq_done_iff, pure_apply, Reply.done.injEq] at h
    obtain ⟨body, v, hbody, rfl, rfl⟩ := h
    obtain ⟨ps, a, b, c, hnames, hps⟩ := lambdaHeader_sound (attempt_eq_some hheader)
    obtain ⟨o, bs, hbs, hbody, hend⟩ := hsub.lowest hbody
    have hts : s.Passes
        (sym .openBracket a :: ps ++ sym .closeBracket b :: sym .arrow c :: bs) v := by
      simpa using hps.trans hbs
    refine ⟨true, _, hts, ?_, fun _ => hend⟩
    rw [hbody.stop_eq hbs, hts.current_eq]
    exact extent_of_passes hts ▸ .lambda hnames hbody rfl
  | none =>
    obtain rfl := attempt_eq_none hheader
    simp only [bind_eq_done_iff, symbol_done_iff, lastStop_apply, pure_apply,
      Reply.done.injEq] at h
    obtain ⟨a, v, ha, inner, w, hinner, b, x, hb, _, _, ⟨rfl, rfl⟩, rfl, rfl⟩ := h
    obtain ⟨o, es, hes, hinner, -⟩ := hsub _ _ _ hinner
    have hts := (ha.trans hes).trans hb
    refine ⟨false, _, hts, ?_, by simp⟩
    rw [hts.current_eq]
    exact extent_of_passes hts ▸ .bracketed hinner rfl

theorem arrayForm_sound (hsub : ReadsExpressions 1 sub) : ReadsOperands (arrayForm sub) := by
  intro s e t h
  simp only [arrayForm, bind_eq_done_iff, symbol_done_iff, lastStop_apply, pure_apply,
    Reply.done.injEq] at h
  obtain ⟨a, u, ha, es, v, hes, b, w, hb, _, _, ⟨rfl, rfl⟩, rfl, rfl⟩ := h
  obtain ⟨as, has, hes⟩ := items_sound hsub hes
  have hts := (ha.trans has).trans hb
  exact ⟨false, _, hts, extent_of_passes hts ▸ .array hes rfl, by simp⟩

theorem callForm_sound (hsub : ReadsExpressions 1 sub) : ReadsOperands (callForm sub) := by
  intro s e t h
  simp only [callForm, bind_eq_done_iff, keyword_done_iff, name_done_iff, lastStop_apply,
    pure_apply, Reply.done.injEq] at h
  obtain ⟨a, u, ha, f, v, hf, args, w, hargs, _, _, ⟨rfl, rfl⟩, rfl, rfl⟩ := h
  obtain ⟨as, b, c, has, hargs⟩ := arguments_sound hsub hargs
  have hts := ha.trans (hf.trans has)
  exact ⟨false, _, hts, extent_of_passes hts ▸ .call hargs rfl, by simp⟩

theorem targetType_sound {type : Located TypeName} (h : targetType s = .done type t) :
    s.Passes [⟨.type type.value, type.span⟩] t := by
  simp only [targetType, bind_eq_done_iff] at h
  obtain ⟨token, u, htoken, h⟩ := h
  have hcur := (advance_done_iff.1 htoken).1
  generalize hval : token.value = value at h
  split at h
  · simp only [pure_apply, Reply.done.injEq] at h
    obtain ⟨rfl, rfl⟩ := h
    exact passes_of_advance htoken (hcur ▸ hval) (by simp)
  · exact absurd h fail_ne_done

theorem methodForm_sound (hsub : ReadsExpressions 1 sub) : ReadsOperands (methodForm sub) := by
  intro s e t h
  simp only [methodForm, bind_eq_done_iff, keyword_done_iff, symbol_done_iff, hinting_done_iff,
    name_done_iff, lastStop_apply, pure_apply, Reply.done.injEq] at h
  obtain ⟨a, s₁, ha, b, s₂, hb, type, s₃, htype, x, s₄, hx, c, s₅, hc, m, s₆, hm, args, s₇, hargs,
    _, _, ⟨rfl, rfl⟩, rfl, rfl⟩ := h
  obtain ⟨as, d, e, has, hargs⟩ := arguments_sound hsub hargs
  have hts := ha.trans (hb.trans ((targetType_sound htype).trans
    (hx.trans (hc.trans (hm.trans has)))))
  exact ⟨false, _, hts, extent_of_passes hts ▸ .method hargs rfl, by simp⟩

theorem atom_sound (hsub : ReadsExpressions 1 sub) : ReadsOperands (atom sub) := by
  intro s e t h
  simp only [atom, bind_eq_done_iff] at h
  obtain ⟨token, u, htoken, h⟩ := h
  have hcur := (advance_done_iff.1 htoken).1
  -- a token that is an operand of its own
  have literal : ∀ {value : Token} {e : Expr}, token.value = value → value ≠ .endOfFile →
      Operand false [⟨value, token.span⟩] e → ∃ o ts, s.Passes ts u ∧ Operand o ts e ∧
        (o = true → BinaryOp.ofToken? u.current.value = none) :=
    fun hval hne he => ⟨false, _, passes_of_advance htoken (hcur ▸ hval) hne, he, by simp⟩
  generalize hval : token.value = value at h
  split at h <;> (try simp only [pure_apply, Reply.done.injEq] at h)
  · obtain ⟨rfl, rfl⟩ := h; exact literal hval (by simp) .number
  · obtain ⟨rfl, rfl⟩ := h; exact literal hval (by simp) .text
  · obtain ⟨rfl, rfl⟩ := h; exact literal hval (by simp) .bool
  · obtain ⟨rfl, rfl⟩ := h; exact literal hval (by simp) (.null (.inl rfl))
  · obtain ⟨rfl, rfl⟩ := h; exact literal hval (by simp) (.null (.inr rfl))
  · obtain ⟨rfl, rfl⟩ := h; exact literal hval (by simp) (.undefined (.inl rfl))
  · obtain ⟨rfl, rfl⟩ := h; exact literal hval (by simp) (.undefined (.inr rfl))
  · obtain ⟨rfl, rfl⟩ := h; exact literal hval (by simp) .input
  · simp only [bind_eq_done_iff, symbol_done_iff, lastStop_apply, pure_apply,
      Reply.done.injEq] at h
    obtain ⟨inner, v, hinner, b, w, hb, _, _, ⟨rfl, rfl⟩, rfl, rfl⟩ := h
    obtain ⟨o, es, hes, hinner, -⟩ := hsub _ _ _ hinner
    have hts := ((passes_of_advance htoken (hcur ▸ hval) (by simp)).trans hes).trans hb
    exact ⟨false, _, hts, extent_of_passes hts ▸ .parenthesized hinner rfl, by simp⟩
  · exact absurd h fail_ne_done

theorem primary_sound (hsub : ReadsExpressions 1 sub) : ReadsOperands (primary sub) := by
  intro s e t h
  simp only [primary, bind_eq_done_iff, peek_apply, Reply.done.injEq] at h
  obtain ⟨_, _, ⟨rfl, rfl⟩, h⟩ := h
  generalize s.current.value = value at h
  split at h
  · exact nameForm_sound hsub _ _ _ h
  · exact bracketForm_sound hsub _ _ _ h
  · exact arrayForm_sound hsub _ _ _ h
  · exact callForm_sound hsub _ _ _ h
  · exact methodForm_sound hsub _ _ _ h
  · exact atom_sound hsub _ _ _ h

/-! ## Operations -/

theorem operandUpTo_sound (hsub : ReadsExpressions 1 sub) (n : Nat) :
    ReadsOperands (operandUpTo sub n) := by
  induction n with
  | zero => exact fun s e t h => absurd h exhausted_ne_done
  | succ n ih =>
    intro s e t h
    simp only [operandUpTo, bind_eq_done_iff, peek_apply, Reply.done.injEq] at h
    obtain ⟨_, _, ⟨rfl, rfl⟩, h⟩ := h
    generalize hsign : Sign.ofToken? s.current.value = sign at h
    cases sign with
    | none => exact primary_sound hsub _ _ _ h
    | some sign =>
      simp only [bind_eq_done_iff, pure_apply, Reply.done.injEq] at h
      obtain ⟨token, u, htoken, operand, v, hoperand, rfl, rfl⟩ := h
      obtain ⟨o, es, hes, hoperand, hend⟩ := ih _ _ _ hoperand
      have hne : s.current.value ≠ .endOfFile := by
        intro heq
        rw [heq] at hsign
        cases hsign
      have hts := (passes_of_advance htoken rfl hne).trans hes
      refine ⟨o, _, hts, ?_, hend⟩
      rw [hoperand.stop_eq hes]
      exact extent_of_passes hts ▸ .signed hsign hoperand rfl

/-- Climbing keeps what has been read an expression: while the left side `ls` is of a level `k` that
no following operator exceeds, it can be the left operand of that operator. -/
theorem climbUpTo_sound {sub : Nat → Parse Expr}
    (hsub : ∀ level, ReadsExpressions level (sub level)) {level k n : Nat} {o : Bool} {left : Expr}
    {ls : List (Located Token)} {r : ParseState} (hk : level ≤ k) (hleft : Expression o k ls left)
    (hls : r.Passes ls s)
    (hnext : ∀ op, BinaryOp.ofToken? s.current.value = some op → op.level ≤ k ∧ o = false)
    (h : climbUpTo sub level n left s = .done e t) :
    ∃ o ts, r.Passes ts t ∧ Expression o level ts e ∧
      ∀ op, BinaryOp.ofToken? t.current.value = some op → op.level < level ∧ o = false := by
  -- the invariant of the loop: what lies between `r` and `s` is the left side
  induction n generalizing s k o left ls with
  | zero => exact absurd h exhausted_ne_done
  | succ n ih =>
    simp only [climbUpTo, bind_eq_done_iff, peek_apply, Reply.done.injEq] at h
    obtain ⟨_, _, ⟨rfl, rfl⟩, h⟩ := h
    generalize hop : BinaryOp.ofToken? s.current.value = found at h
    cases found with
    | none =>
      simp only [pure_apply, Reply.done.injEq] at h
      obtain ⟨rfl, rfl⟩ := h
      exact ⟨o, ls, hls, hleft.mono hk, by simp [hop]⟩
    | some op =>
      obtain ⟨hopk, rfl⟩ := hnext op hop
      simp only at h
      split at h
      · next hlevel =>
        simp only [bind_eq_done_iff] at h
        obtain ⟨token, u, htoken, right, v, hright, h⟩ := h
        obtain ⟨o, rs, hrs, hright, hend⟩ := hsub (op.level + 1) _ _ _ hright
        have hval := BinaryOp.eq_token_of_ofToken? hop
        have hne : op.token ≠ .endOfFile := by cases op <;> simp [BinaryOp.token]
        have hts : r.Passes (ls ++ ⟨op.token, token.span⟩ :: rs) v :=
          hls.trans ((passes_of_advance htoken hval hne).trans hrs)
        have hspan : (⟨left.span.start, right.span.stop⟩ : Span) =
            extent (ls ++ ⟨op.token, token.span⟩ :: rs) := by
          rw [hleft.span_eq.2, hright.stop_eq hrs, hts.extent_eq (by simp),
            hls.extent_eq hleft.span_eq.1]
        rw [hspan] at h
        -- the new left side is of the operator's own level
        refine ih hlevel (.operation (Nat.le_refl _) (hleft.mono hopk) hright rfl) hts ?_ h
        intro op' hop'
        obtain ⟨hlt, rfl⟩ := hend op' hop'
        exact ⟨Nat.le_of_lt_succ hlt, rfl⟩
      · next hlevel =>
        simp only [pure_apply, Reply.done.injEq] at h
        obtain ⟨rfl, rfl⟩ := h
        refine ⟨false, ls, hls, hleft.mono hk, ?_⟩
        rintro op' hop'
        rw [hop, Option.some.injEq] at hop'
        subst hop'
        exact ⟨Nat.lt_of_not_le hlevel, rfl⟩

/-- Whatever a parse of an expression passes writes the expression. -/
theorem expressionUpTo_sound (n level : Nat) : ReadsExpressions level (expressionUpTo n level) := by
  induction n generalizing level with
  | zero => exact fun s e t h => absurd h exhausted_ne_done
  | succ n ih =>
    intro s e t h
    simp only [expressionUpTo, bind_eq_done_iff, withBudget_apply] at h
    obtain ⟨left, u, hleft, h⟩ := h
    obtain ⟨o, ls, hls, hleft, hend⟩ := operandUpTo_sound (ih 1) _ _ _ _ hleft
    -- an operand stands at every level, so also at one above that of the operator behind it
    refine climbUpTo_sound ih (k := max level 5) (Nat.le_max_left _ _) (.operand hleft) hls ?_ h
    intro op hop
    refine ⟨Nat.le_trans (by cases op <;> decide) (Nat.le_max_right _ _), ?_⟩
    cases o with
    | false => rfl
    | true => rw [hend rfl] at hop; cases hop

theorem expression_sound : ReadsExpressions 1 expression :=
  fun s => expressionUpTo_sound s.budget 1 s

end Grammar

end Resin
