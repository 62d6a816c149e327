import Resin.Proofs.Grammar.ExprComplete
import Resin.Proofs.Parse.Fork

/-!
# Expressions before a fork

Every parse of an expression is followed from the source it succeeds on to the one that breaks off
with an error. All forms but one go in step up to the error. The form in brackets is read as the
head of a lambda first: where the error breaks the head off, it is dropped with the attempt, and
`Free.replies_of_cut` says what becomes of the tokens that are left of the head.
-/

namespace Resin

open Parse Grammar

namespace Fork.Site

variable {F : Fork} {x y z : F.Site} {m : Nat} {sub sub' : Parse Expr}

/-- A bracket at the place begins neither arguments nor parameters. -/
def Ready (x : F.Site) : Prop :=
  x.current.value = .symbol .openBracket → Unnamed x.before

/-- With less than `m` tokens left, `q` follows `p` from wherever an expression can begin. -/
def InStep (F : Fork) (m : Nat) (p q : Parse Expr) : Prop :=
  ∀ y : F.Site, y.left < m → y.Ready → y.Cuts y.Through Any p q

theorem Past.ready {token : Located Token} (h : x.Past [token] y)
    (htoken : ∀ w, token.value ≠ .name w) : y.Ready :=
  fun _ => h.unnamed htoken

/-! ## Forms that go in step -/

theorem cuts_arguments (hsub : InStep F m sub sub') (hx : x.left ≤ m)
    (hnamed : ¬Unnamed x.before) : x.Cuts Anywhere Never (arguments sub) (arguments sub') := by
  refine (cuts_symbol rfl).seq fun a y _ hy => ?_
  have hlt := hy.left_lt
  have hargs : y.Cuts Anywhere _ (commaList .closeBracket sub) (commaList .closeBracket sub') :=
    .commaList (hy.not_opened hnamed) (hy.unnamed (by simp)) fun z hz hunnamed =>
      hsub z (by omega) fun _ => hunnamed
  refine hargs.bind (fun _ _ _ _ => ?_) fun _ z _ hz _ => hz.symbol (by simp)
  exact (cuts_symbol rfl).seq fun _ _ _ _ => .pure trivial

theorem cuts_nameForm (hsub : InStep F m sub sub') (hx : x.left ≤ m) :
    x.Cuts Anywhere Any (nameForm sub) (nameForm sub') := by
  refine cuts_name.seq fun w y _ hy => Cuts.peek ?_
  have hlt := hy.left_lt
  split
  · next harrow =>
    -- in a head, a bracket stands in front of the arrow
    have hpass : y.Passable := by
      intro err herr
      obtain ⟨us, a, hus⟩ := herr.before_of_arrow harrow
      rw [hy.before_eq] at hus
      cases List.singleton_inj.1 (List.append_inj' hus rfl).2
    refine (cuts_advance (by rw [harrow]; rfl) hpass).seq fun token z _ hz => ?_
    obtain ⟨rfl, hz⟩ := hz
    have hlt' := hz.left_lt
    exact (hsub z (by omega) (hz.ready (by simp [harrow]))).bind
      (fun _ _ _ _ => .pure trivial) fun _ _ _ _ _ => .pure trivial
  · next hbrace =>
    refine (cuts_advance_of_isPlain (by rw [hbrace]; rfl)).seq fun token z _ hz => ?_
    obtain ⟨rfl, hz⟩ := hz
    have hlt' := hz.left_lt
    refine (hsub z (by omega) (hz.ready (by simp [hbrace]))).bind (fun _ _ _ _ => ?_)
      fun _ _ _ hw _ => hw.symbol (by simp)
    exact (cuts_symbol rfl).seq fun _ _ _ _ => .lastStop fun _ => .pure trivial
  · exact .pure trivial

theorem cuts_arrayForm (hsub : InStep F m sub sub') (hx : x.left ≤ m) :
    x.Cuts Anywhere Any (arrayForm sub) (arrayForm sub') := by
  refine (cuts_symbol rfl).seq fun a y _ hy => ?_
  have hlt := hy.left_lt
  have hopened : ¬Opened y.before := by
    rw [hy.before_eq]
    exact not_opened_concat (by simp)
  have helements : y.Cuts Anywhere _ (commaList .closeBrace sub) (commaList .closeBrace sub') :=
    .commaList hopened (hy.unnamed (by simp)) fun z hz hunnamed =>
      hsub z (by omega) fun _ => hunnamed
  refine helements.bind (fun _ _ _ _ => ?_) fun _ z _ hz _ => hz.symbol (by simp)
  exact (cuts_symbol rfl).seq fun _ _ _ _ => .lastStop fun _ => .pure trivial

theorem cuts_callForm (hsub : InStep F m sub sub') (hx : x.left ≤ m) :
    x.Cuts Anywhere Any (callForm sub) (callForm sub') := by
  refine (cuts_keyword rfl).seq fun _ y hy _ => cuts_name.seq fun w z hz hname => ?_
  exact (cuts_arguments hsub (by omega) hname.not_unnamed).seq fun _ _ _ _ =>
    .lastStop fun _ => .pure trivial

theorem cuts_targetType : x.Cuts Anywhere Never targetType targetType := by
  refine .take (fun u type t h => ?_) fun y _ => ?_
  · generalize x.current.value = value at h ⊢
    split at h
    · rfl
    · exact absurd h fail_ne_done
  · split
    · exact .pure trivial
    · exact .of_fails fun _ _ => fail_ne_done

theorem cuts_methodForm (hsub : InStep F m sub sub') (hx : x.left ≤ m) :
    x.Cuts Anywhere Any (methodForm sub) (methodForm sub') := by
  refine (cuts_keyword rfl).seq fun _ y₁ h₁ _ => (cuts_hinting rfl).seq fun _ y₂ h₂ _ =>
    cuts_targetType.seq fun _ y₃ h₃ _ => cuts_name.seq fun _ y₄ h₄ _ =>
    (cuts_hinting rfl).seq fun _ y₅ h₅ _ => cuts_name.seq fun _ y₆ h₆ hname => ?_
  exact (cuts_arguments hsub (by omega) hname.not_unnamed).seq fun _ _ _ _ =>
    .lastStop fun _ => .pure trivial

theorem cuts_atom (hsub : InStep F m sub sub') (hx : x.left ≤ m) :
    x.Cuts Anywhere Any (atom sub) (atom sub') := by
  refine .take (fun u e t h => ?_) fun y hy => ?_
  · -- a literal or an opening parenthesis
    generalize x.current.value = value at h ⊢
    split at h <;> first | rfl | exact absurd h fail_ne_done
  · have hlt := hy.left_lt
    split
    case h_9 =>
      next hval =>
      refine (hsub y (by omega) (hy.ready (by simp [hval]))).bind (fun _ _ _ _ => ?_)
        fun _ _ _ hz _ => hz.symbol (by simp)
      exact (cuts_symbol rfl).seq fun _ _ _ _ => .lastStop fun _ => .pure trivial
    case h_10 => exact .of_fails fun _ _ => fail_ne_done
    all_goals exact .pure trivial

/-! ## Brackets -/

/-- A lambda behind its head. -/
def lambdaForm (sub : Parse Expr) (start : Span) (params : List String) : Parse Expr := do
  let body ← sub
  pure (.lambda params body ⟨start.start, body.span.stop⟩)

/-- The end of an expression in brackets. -/
def closing (start : Span) (inner : Expr) : Parse Expr := do
  let _ ← symbol .closeBracket
  let stop ← lastStop
  pure (inner.withSpan ⟨start.start, stop⟩)

/-- An expression in brackets. -/
def groupForm (sub : Parse Expr) (start : Span) : Parse Expr := do
  let _ ← symbol .openBracket
  let inner ← sub
  closing start inner

theorem bracketForm_of_not_header {s : ParseState}
    (h : ∀ params t, lambdaHeader s ≠ .done params t) :
    bracketForm sub s = groupForm sub s.current.span s := by
  rw [bracketForm, bind_of_done (here_apply s), bind_of_done (attempt_of_not_done h)]
  rfl

theorem bracketForm_of_header {s t : ParseState} {params : List String}
    (h : lambdaHeader s = .done params t) :
    bracketForm sub s = lambdaForm sub s.current.span params t := by
  rw [bracketForm, bind_of_done (here_apply s), bind_of_done (attempt_of_done h)]
  rfl

theorem cuts_lambdaForm (hsub : InStep F m sub sub') (hx : x.left < m)
    (hready : x.Ready) {start : Span} {params : List String} :
    x.Cuts Anywhere Any (lambdaForm sub start params) (lambdaForm sub' start params) :=
  (hsub x hx hready).bind (fun _ _ _ _ => .pure trivial) fun _ _ _ _ _ => .pure trivial

theorem cuts_groupForm (hsub : InStep F m sub sub') (hx : x.left ≤ m) {start : Span} :
    x.Cuts Anywhere Any (groupForm sub start) (groupForm sub' start) := by
  refine (cuts_symbol rfl).seq fun a y _ hy => ?_
  have hlt := hy.left_lt
  refine (hsub y (by omega) (hy.ready (by simp))).bind (fun _ _ _ _ => ?_)
    fun _ _ _ hz _ => hz.symbol (by simp)
  exact (cuts_symbol rfl).seq fun _ _ _ _ => .lastStop fun _ => .pure trivial

theorem Past.symbol {c : Symbol} {a : Span} (h : x.Past [sym c a] y) (tail : Stream) :
    Parse.symbol c (x.state tail) = .done a (y.state tail) :=
  symbol_done_iff.2 (h.passes tail)

/-- An expression fails as its first operand does. -/
theorem expressionUpTo_of_failed {s t : ParseState} {level : Nat} {err : Error} (hm : 0 < m)
    (hsign : Sign.ofToken? s.current.value = none)
    (h : ∀ sub, formOf sub s.current.value s = .failed err t) :
    expressionUpTo m level s = .failed err t := by
  obtain ⟨m, rfl⟩ := Nat.exists_eq_succ_of_ne_zero (Nat.ne_of_gt hm)
  have hbudget : 0 < s.budget := Nat.zero_lt_succ _
  rw [expressionUpTo, bind_apply, withBudget_apply, operandUpTo_eq_formOf hbudget hsign, h]

/-- At a last token that is a name, the error is met behind the name. -/
theorem expressionUpTo_bad_of_name {w : String} (hm : 0 < m) (hval : x.current.value = .name w)
    (hlast : x.after = []) : ∃ s, expressionUpTo m 1 x.bad = .failed F.error s := by
  obtain ⟨s, hs⟩ := advance_bad_of_last hlast
  refine ⟨s, expressionUpTo_of_failed hm (by rw [state_current, hval]; rfl) ?_⟩
  intro sub
  have hname : name .identifier x.bad = .failed F.error s := by
    rw [name, bind_of_done (peek_apply _), state_current, hval]
    simp only
    rw [bind_apply, hs]
  rw [state_current, hval, formOf, nameForm, bind_apply, hname]

/-- A closing bracket is passed before it is found to begin no expression. -/
theorem expressionUpTo_bad_of_close (hm : 0 < m)
    (hval : x.current.value = .symbol .closeBracket) :
    (x.after = [] → ∃ s, expressionUpTo m 1 x.bad = .failed F.error s) ∧
      ∀ y, x.Past [x.current] y → ∃ s, expressionUpTo m 1 x.bad =
        .failed ⟨.expectedExpression (.symbol .closeBracket), x.current.span, none⟩ s := by
  have hform : ∀ sub, formOf sub x.bad.current.value = atom sub := by
    intro sub
    rw [state_current, hval]
    rfl
  have hsign : Sign.ofToken? x.bad.current.value = none := by
    rw [state_current, hval]
    rfl
  constructor
  · intro hlast
    obtain ⟨s, hs⟩ := advance_bad_of_last hlast
    refine ⟨s, expressionUpTo_of_failed hm hsign fun sub => ?_⟩
    rw [hform, atom, bind_apply, hs]
  · intro y hy
    refine ⟨y.bad, expressionUpTo_of_failed hm hsign fun sub => ?_⟩
    rw [hform, atom, bind_of_done (hy.advance _), hval]
    rfl

section Cut

variable {ws ps us : List (Located Token)} {params : List String} {a b c d f : Span} {w : String}
  {e : Expr} {t : ParseState} {start : Span}

/-- A head without parameters that breaks off behind its opening bracket, read as an expression. -/
theorem Free.replies_of_bare {k : Expr → Parse Expr} (hfree : y.Free)
    (hbefore : y.before = us ++ [sym .openBracket a]) (hus : Unnamed us) (hm : 0 < m)
    (hcut : [sym .closeBracket b, sym .arrow c] = y.current :: y.after ++ ws) :
    y.Replies Anywhere Any e t ((expressionUpTo m 1 >>= k) y.bad) := by
  obtain ⟨hcurrent, htail⟩ := List.cons.inj hcut
  have hval : y.current.value = .symbol .closeBracket := by rw [← hcurrent]
  have hpass : y.Passable := passable_of_isPlain (by rw [hval]; rfl)
  obtain ⟨hmet, hlost⟩ := expressionUpTo_bad_of_close hm hval
  rcases y.next_cases with ⟨z, hz⟩ | hlast
  · obtain ⟨s, hs⟩ := hlost z hz
    rw [bind_apply, hs]
    rw [hz.after_eq] at htail
    obtain ⟨harrow, hafter⟩ := List.cons.inj htail
    refine .lost (Breaks.misread (x := z) ?_)
    have hzbefore : z.before = us ++ [sym .openBracket a, sym .closeBracket b] := by
      rw [hz.before_eq, hbefore, ← hcurrent]
      simp
    unfold Breaks
    rw [hzbefore, ← harrow, (List.append_eq_nil_iff.1 hafter.symm).1, ← hcurrent]
    exact .bare hus
  · obtain ⟨s, hs⟩ := hmet hlast
    rw [bind_apply, hs]
    exact hfree.met hpass hlast (by rw [hval]; rfl)

/-- A head with one parameter that breaks off behind the name, the name read as an expression. -/
theorem Free.replies_of_close {inner : Expr} (hfree : z.Free)
    (hbefore : z.before = us ++ [sym .openBracket a, word w b]) (hus : Unnamed us)
    (hcut : [sym .closeBracket c, sym .arrow d] = z.current :: z.after ++ ws) :
    z.Replies Anywhere Any e t (closing start inner z.bad) := by
  obtain ⟨hcurrent, htail⟩ := List.cons.inj hcut
  have hval : z.current.value = .symbol .closeBracket := by rw [← hcurrent]
  rcases z.next_cases with ⟨u, hu⟩ | hlast
  · rw [hu.after_eq] at htail
    obtain ⟨harrow, hafter⟩ := List.cons.inj htail
    have hubefore : u.before =
        us ++ [sym .openBracket a, word w b, sym .closeBracket c] := by
      rw [hu.before_eq, hbefore, ← hcurrent]
      simp
    have hastray : u.Astray := by
      refine ⟨by rw [← harrow], fun expected => ?_⟩
      unfold Breaks
      rw [hubefore, ← harrow, (List.append_eq_nil_iff.1 hafter.symm).1]
      exact .arrow expected hus
    rw [← hcurrent] at hu
    rw [closing, bind_of_done (hu.symbol _)]
    exact .astray u hu.left_lt hastray trivial
  · obtain ⟨s, hs⟩ := expect_bad_of_last hval hlast
    rw [closing, bind_apply, Parse.symbol, hs]
    exact hfree.met (passable_of_isPlain (by rw [hval]; rfl)) hlast (by rw [hval]; rfl)

/-- A head with several parameters that breaks off behind the first one, that name read as an
expression. -/
theorem replies_of_comma {inner : Expr}
    (hbefore : z.before = us ++ [sym .openBracket a, word w b]) (hus : Unnamed us)
    (hnames : Names ps params) (hne : params ≠ [])
    (hcut : sym .comma f :: ps ++ [sym .closeBracket c, sym .arrow d] =
      z.current :: z.after ++ ws) :
    z.Replies Anywhere Any e t (closing start inner z.bad) := by
  obtain ⟨hcurrent, htail⟩ := List.cons.inj hcut
  have hval : z.bad.current.value ≠ .symbol .closeBracket := by
    rw [state_current, ← hcurrent]
    simp
  rw [closing, bind_apply, symbol, expect_of_ne hval]
  refine .lost (Breaks.misread (x := z) ?_)
  unfold Breaks
  rw [hbefore, state_current, ← hcurrent]
  exact .comma hus hnames hne htail.symm

/-- The first parameter of a head that breaks off, read as an expression. -/
theorem Free.replies_of_name (hfree : y.Free) (hm : 0 < m) (hcurrent : y.current = word w b)
    (hrest : ∀ z, y.Past [word w b] z → closes z.current.value = true ∧
      z.Replies Anywhere Any e t (closing start (.name w b) z.bad)) :
    y.Replies Anywhere Any e t ((expressionUpTo m 1 >>= closing start) y.bad) := by
  have hval : y.current.value = .name w := by rw [hcurrent]
  rcases y.next_cases with ⟨z, hz⟩ | hlast
  · rw [hcurrent] at hz
    obtain ⟨hcloses, hreply⟩ := hrest z hz
    have hread : expressionUpTo m 1 y.bad = .done (.name w b) z.bad :=
      Expression.reads (.operand .name) hm (hz.passes _) (stops_of_closes hcloses)
    rw [bind_of_done hread]
    exact hreply.lift (Nat.le_of_lt hz.left_lt)
  · obtain ⟨s, hs⟩ := expressionUpTo_bad_of_name hm hval hlast
    rw [bind_apply, hs]
    exact hfree.met (passable_of_isPlain (by rw [hval]; rfl)) hlast (by rw [hval]; rfl)

/-- The head of a lambda that breaks off, read as an expression in brackets. -/
theorem Free.replies_of_cut (hfree : x.Free) (hx : x.left ≤ m) (hunnamed : Unnamed x.before)
    (hnames : Names ps params)
    (hcut : sym .openBracket a :: ps ++ [sym .closeBracket b, sym .arrow c] =
      x.current :: x.after ++ ws) :
    x.Replies Anywhere Any e t (groupForm (expressionUpTo m 1) start x.bad) := by
  obtain ⟨hcurrent, htail⟩ := List.cons.inj hcut
  have hopen : x.current.value = .symbol .openBracket := by rw [← hcurrent]
  have hpass : x.Passable := passable_of_isPlain (by rw [hopen]; rfl)
  rcases x.next_cases with ⟨y, hy⟩ | hlast
  · have hyfree := hfree.next hpass hy
    have hlt := hy.left_lt
    have hm : 0 < m := by omega
    rw [hy.after_eq] at htail
    rw [← hcurrent] at hy
    have hbefore : y.before = x.before ++ [sym .openBracket a] := hy
    have hnext : ∀ {w d z}, y.Past [word w d] z →
        z.before = x.before ++ [sym .openBracket a, word w d] := by
      intro w d z hz
      rw [hz.before_eq, hbefore]
      simp
    rw [groupForm, bind_of_done (hy.symbol _)]
    suffices h : y.Replies Anywhere Any e t ((expressionUpTo m 1 >>= closing start) y.bad) from
      h.lift (Nat.le_of_lt hlt)
    -- by the number of parameters: none, one, or several
    cases hnames with
    | nil => exact hyfree.replies_of_bare hbefore hunnamed hm htail
    | one =>
      obtain ⟨hword, htail⟩ := List.cons.inj htail
      refine hyfree.replies_of_name hm hword.symm fun z hz => ?_
      rw [hz.after_eq] at htail
      refine ⟨?_, (hyfree.next ?_ hz).replies_of_close (hnext hz) hunnamed htail⟩
      · rw [← (List.cons.inj htail).1]
        rfl
      · exact passable_of_isPlain (by rw [← hword]; rfl)
    | more hne hnames =>
      obtain ⟨hword, htail⟩ := List.cons.inj htail
      refine hyfree.replies_of_name hm hword.symm fun z hz => ?_
      rw [hz.after_eq] at htail
      refine ⟨?_, replies_of_comma (hnext hz) hunnamed hnames hne htail⟩
      rw [← (List.cons.inj htail).1]
      rfl
  · obtain ⟨s, hs⟩ := expect_bad_of_last hopen hlast
    rw [groupForm, bind_apply, Parse.symbol, hs]
    exact hfree.met hpass hlast (by rw [hopen]; rfl)

/-- Two heads that begin with the same tokens are the same: neither goes on behind the arrow. -/
theorem header_bad_ne_done {t : ParseState} {found : List String} (hnames : Names ps params)
    (hcut : sym .openBracket a :: ps ++ [sym .closeBracket b, sym .arrow c] =
      x.current :: x.after ++ ws) : lambdaHeader x.bad ≠ .done found t := by
  intro h
  obtain ⟨qs, a', b', c', -, hpasses⟩ := lambdaHeader_sound h
  obtain ⟨y, hy, -⟩ := past_of_passes_bad hpasses
  have heq : sym .openBracket a :: ps ++ [sym .closeBracket b, sym .arrow c] =
      (sym .openBracket a' :: qs ++ [sym .closeBracket b']) ++
        sym .arrow c' :: (y.current :: y.after ++ ws) := by
    rw [hcut, past_iff.1 hy]
    simp
  cases hnames.arrow_last (List.cons.inj heq).2

end Cut

theorem cuts_bracketForm (hsub : InStep F m sub (expressionUpTo m 1)) (hx : x.left ≤ m)
    (hunnamed : Unnamed x.before) :
    x.Cuts Anywhere Any (bracketForm sub) (bracketForm (expressionUpTo m 1)) := by
  intro hfree e t h
  cases hheader : lambdaHeader x.good with
  | done params u =>
    obtain ⟨ps, a, b, c, hnames, hpasses⟩ := lambdaHeader_sound hheader
    rcases past_of_passes hpasses with ⟨y, hy, rfl⟩ | ⟨⟨ws, hcut⟩, -⟩
    · -- the head is whole in both sources
      rw [bracketForm_of_header hheader] at h
      rw [bracketForm_of_header (lambdaHeader_complete hnames (hy.passes F.broken))]
      have harrow : x.Past ((sym .openBracket a :: ps ++ [sym .closeBracket b]) ++
          [sym .arrow c]) y := by
        simpa using hy
      have hready : y.Ready := by
        intro _
        rw [harrow.before_eq, ← List.append_assoc]
        exact unnamed_concat (by simp)
      have hlt := hy.left_lt
      exact (cuts_lambdaForm hsub (by omega) hready (hfree.behind_arrow harrow) e t h).lift
        (Nat.le_of_lt hlt)
    · rw [bracketForm_of_not_header fun _ _ => header_bad_ne_done hnames hcut]
      exact hfree.replies_of_cut hx hunnamed hnames hcut
  | failed err u =>
    have hgood : ∀ params t, lambdaHeader x.good ≠ .done params t := by simp [hheader]
    have hbad : ∀ params t, lambdaHeader x.bad ≠ .done params t := by
      intro params t hdone
      obtain ⟨ps, a, b, c, hnames, hpasses⟩ := lambdaHeader_sound hdone
      obtain ⟨y, hy, -⟩ := past_of_passes_bad hpasses
      exact hgood _ _ (lambdaHeader_complete hnames (hy.passes F.more))
    rw [bracketForm_of_not_header hgood] at h
    rw [bracketForm_of_not_header hbad]
    exact cuts_groupForm hsub hx hfree e t h

/-! ## Operations -/

theorem cuts_primary (hsub : InStep F m sub (expressionUpTo m 1)) (hx : x.left ≤ m)
    (hready : x.Ready) :
    x.Cuts Anywhere Any (primary sub) (primary (expressionUpTo m 1)) := by
  refine Cuts.peek ?_
  split
  · exact cuts_nameForm hsub hx
  · next hval => exact cuts_bracketForm hsub hx (hready hval)
  · exact cuts_arrayForm hsub hx
  · exact cuts_callForm hsub hx
  · exact cuts_methodForm hsub hx
  · exact cuts_atom hsub hx

theorem cuts_operandUpTo (hsub : InStep F m sub (expressionUpTo m 1)) (hx : x.left ≤ m)
    (hready : x.Ready) (n : Nat) {k : Nat} (hk : x.left < k) :
    x.Cuts Anywhere Any (operandUpTo sub n) (operandUpTo (expressionUpTo m 1) k) := by
  induction k generalizing n x with
  | zero => exact absurd hk (Nat.not_lt_zero _)
  | succ k ih =>
    cases n with
    | zero => exact .of_fails fun _ _ => exhausted_ne_done
    | succ n =>
      refine Cuts.peek ?_
      split
      · exact cuts_primary hsub hx hready
      · next sign hsign =>
        have hval : x.current.value = .symbol .plus ∨ x.current.value = .symbol .minus := by
          unfold Sign.ofToken? at hsign
          split at hsign <;> simp_all
        have hplain : x.current.value.isPlain = true := by
          rcases hval with hval | hval <;> rw [hval] <;> rfl
        refine (cuts_advance_of_isPlain hplain).seq fun token y _ hy => ?_
        obtain ⟨rfl, hy⟩ := hy
        have hlt := hy.left_lt
        have hready' : y.Ready := hy.ready (by rcases hval with hval | hval <;> simp [hval])
        exact (ih (by omega) hready' n (by omega)).bind (fun _ _ _ _ => .pure trivial)
          fun _ _ _ _ _ => .pure trivial

/-- At the arrow of a head there is nothing to climb. -/
theorem Astray.climbUpTo {sub : Nat → Parse Expr} {level k : Nat} {left : Expr} (h : x.Astray)
    (hk : 0 < k) : x.Balks Any (climbUpTo sub level k left) := by
  obtain ⟨k, rfl⟩ := Nat.exists_eq_succ_of_ne_zero (Nat.ne_of_gt hk)
  refine .inr ⟨left, ?_, trivial⟩
  rw [Parse.climbUpTo, bind_of_done (peek_apply _), state_current, h.1]
  rfl

theorem cuts_climbUpTo {n m : Nat}
    (hsub : ∀ level, InStep F m (expressionUpTo n level) (expressionUpTo m level))
    (level : Nat) (left : Expr) (hx : x.left ≤ m) (b : Nat) {k : Nat} (hk : x.left < k) :
    x.Cuts Anywhere Any (climbUpTo (expressionUpTo n) level b left)
      (climbUpTo (expressionUpTo m) level k left) := by
  induction k generalizing b left x with
  | zero => exact absurd hk (Nat.not_lt_zero _)
  | succ k ih =>
    cases b with
    | zero => exact .of_fails fun _ _ => exhausted_ne_done
    | succ b =>
      refine Cuts.peek ?_
      split
      · exact .pure trivial
      · next op hop =>
        split
        · have hval := BinaryOp.eq_token_of_ofToken? hop
          have hplain : x.current.value.isPlain = true := by
            rw [hval]
            cases op <;> rfl
          refine (cuts_advance_of_isPlain hplain).seq fun token y _ hy => ?_
          obtain ⟨rfl, hy⟩ := hy
          have hlt := hy.left_lt
          have hready : y.Ready :=
            hy.ready (by rw [hval]; cases op <;> simp [BinaryOp.token])
          exact (hsub _ y (by omega) hready).bind
            (fun right z hle _ => ih _ (by omega) b (by omega))
            fun right z hlt' hz _ => hz.climbUpTo (by omega)
        · exact .pure trivial

/-- An expression is followed up to the error, whatever nesting the two runs allow, if the second
one allows as much as there are tokens. -/
theorem inStep_expressionUpTo (n m level : Nat) :
    InStep F m (expressionUpTo n level) (expressionUpTo m level) := by
  induction m generalizing n level with
  | zero => exact fun y hy => absurd hy (Nat.not_lt_zero _)
  | succ m ih =>
    intro y hy hready
    have hle := Nat.le_of_lt_succ hy
    have hcuts : y.Cuts Anywhere Any (expressionUpTo n level) (expressionUpTo (m + 1) level) := by
      cases n with
      | zero => exact .of_fails fun _ _ => exhausted_ne_done
      | succ n =>
        refine (Cuts.withBudget fun b k hk =>
          cuts_operandUpTo (ih n 1) hle hready b hk).bind (fun left z hz _ => ?_)
          fun left z _ hz _ => hz.climbUpTo (Nat.zero_lt_succ _)
        exact .withBudget fun b k hk => cuts_climbUpTo (ih n) level left (by omega) b hk
    refine hcuts.passing fun e t h => ?_
    obtain ⟨o, us, hus, he, -⟩ := expressionUpTo_sound n level _ _ _ h
    exact ⟨us, hus, he.settled⟩

theorem cuts_expression (hready : x.Ready) : x.Cuts x.Through Any expression expression :=
  .withBudget fun n m hm => inStep_expressionUpTo n m 1 x hm hready

end Fork.Site

end Resin
