import Resin.Parse.Stmt
import Resin.Proofs.Grammar.ExprSound

/-!
# Statements are read as the grammar says

Every parse of a statement that succeeds has passed tokens that write the statement, where any
expression that begins with `call` or `method` may stand alone.
-/

namespace Resin.Grammar

open Parse ParseState

variable {s t : ParseState} {sub : Parse Stmt}

/-- Any expression. -/
def anyExpr : Expr → Prop := fun _ => True

/-- Whatever the parse passes writes the statement. -/
def ReadsStatements (p : Parse Stmt) : Prop :=
  ∀ s stmt t, p s = .done stmt t → ∃ ts, s.Passes ts t ∧ Statement anyExpr ts stmt

/-- Whatever the parse passes writes the statement that its form gives at the extent of the
tokens. -/
def ReadsForms (p : Parse (Span → Stmt)) : Prop :=
  ∀ s form t, p s = .done form t →
    ∃ ts, s.Passes ts t ∧ ts ≠ [] ∧ Statement anyExpr ts (form (extent ts))

/-! ## Parts of statements -/

theorem binding_sound {b : Binding} (h : binding s = .done b t) :
    ∃ qs, s.Passes qs t ∧ Qualifier qs b := by
  simp only [binding, bind_eq_done_iff, peek_apply, Reply.done.injEq] at h
  obtain ⟨_, _, ⟨rfl, rfl⟩, h⟩ := h
  generalize hval : s.current.value = value at h
  split at h
  · simp only [bind_eq_done_iff, pure_apply, Reply.done.injEq] at h
    obtain ⟨token, u, htoken, rfl, rfl⟩ := h
    exact ⟨_, passes_of_advance htoken hval (by simp), .global⟩
  · simp only [bind_eq_done_iff, pure_apply, Reply.done.injEq] at h
    obtain ⟨token, u, htoken, rfl, rfl⟩ := h
    exact ⟨_, passes_of_advance htoken hval (by simp), .fixed⟩
  · simp only [pure_apply, Reply.done.injEq] at h
    obtain ⟨rfl, rfl⟩ := h
    exact ⟨[], .nil, .plain⟩

theorem annotation_sound {type : Option (Located TypeName)} (h : annotation s = .done type t) :
    ∃ ts, s.Passes ts t ∧ Annotation ts type := by
  simp only [ annotation, bind_eq_done_iff, isAt_apply, Reply.done.injEq] at h
  obtain ⟨_, _, ⟨rfl, rfl⟩, h⟩ := h
  split at h
  · next hat =>
    simp only [bind_eq_done_iff] at h
    obtain ⟨as, u, has, token, v, htoken, h⟩ := h
    have hcur := (advance_done_iff.1 htoken).1
    generalize hval : token.value = value at h
    split at h
    · simp only [pure_apply, Reply.done.injEq] at h
      obtain ⟨rfl, rfl⟩ := h
      exact ⟨_, (passes_of_advance has (beq_iff_eq.1 hat) (by simp)).trans
        (passes_of_advance htoken (hcur ▸ hval) (by simp)), .some⟩
    · exact absurd h fail_ne_done
  · simp only [pure_apply, Reply.done.injEq] at h
    obtain ⟨rfl, rfl⟩ := h
    exact ⟨[], .nil, .none⟩

theorem optionalValue_sound {value : Option Expr} (h : optionalValue s = .done value t) :
    ∃ ts, s.Passes ts t ∧ Initial ts value := by
  simp only [optionalValue, bind_eq_done_iff, isAt_apply, Reply.done.injEq] at h
  obtain ⟨_, _, ⟨rfl, rfl⟩, h⟩ := h
  split at h
  · next hat =>
    simp only [bind_eq_done_iff, pure_apply, Reply.done.injEq] at h
    obtain ⟨token, u, htoken, e, v, he, rfl, rfl⟩ := h
    obtain ⟨o, es, hes, he, -⟩ := expression_sound _ _ _ he
    exact ⟨_, (passes_of_advance htoken (beq_iff_eq.1 hat) (by simp)).trans hes, .some he⟩
  · simp only [pure_apply, Reply.done.injEq] at h
    obtain ⟨rfl, rfl⟩ := h
    exact ⟨[], .nil, .none⟩

theorem declaration_sound {d : Declaration} (h : declaration s = .done d t) :
    ∃ ts, s.Passes ts t ∧ Declares ts d := by
  simp only [declaration, bind_eq_done_iff, keyword_done_iff, name_done_iff, lastStop_apply,
    Reply.done.injEq] at h
  obtain ⟨b, s₁, hb, a, s₂, ha, w, s₃, hw, type, s₄, htype, value, s₅, hvalue, _, _, ⟨rfl, rfl⟩,
    h⟩ := h
  obtain ⟨qs, hqs, hb⟩ := binding_sound hb
  obtain ⟨as, has, htype⟩ := annotation_sound htype
  obtain ⟨vs, hvs, hvalue⟩ := optionalValue_sound hvalue
  split at h
  · exact absurd h fail_ne_done
  · next hno =>
    split at h
    · exact absurd h fail_ne_done
    · next hfix =>
      simp only [pure_apply, Reply.done.injEq] at h
      obtain ⟨rfl, rfl⟩ := h
      refine ⟨_, (hqs.trans (ha.trans (hw.trans has))).trans hvs, .mk hb htype hvalue ?_ rfl⟩
      -- the two refusals that were passed
      rintro rfl
      constructor
      · rintro rfl
        exact hno rfl
      · rintro rfl
        exact hfix rfl

theorem indexInBraces_sound {i : Expr} (h : indexInBraces s = .done i t)
    (hat : s.current.value = .symbol .openBrace) : ∃ o is a b,
      s.Passes (sym .openBrace a :: is ++ [sym .closeBrace b]) t ∧ Expression o 1 is i := by
  simp only [indexInBraces, bind_eq_done_iff, symbol_done_iff, pure_apply, Reply.done.injEq] at h
  obtain ⟨token, u, htoken, i, v, hi, b, w, hb, rfl, rfl⟩ := h
  obtain ⟨o, is, his, hi, -⟩ := expression_sound _ _ _ hi
  exact ⟨o, is, _, b, ((passes_of_advance htoken hat (by simp)).trans his).trans hb, hi⟩

theorem indices_sound {n : Nat} {indices : List Expr}
    (h : manyUpTo (isAt (.symbol .openBrace)) indexInBraces n s = .done indices t) :
    ∃ ts, s.Passes ts t ∧ Indices ts indices := by
  have hitem : ∀ u i v, isAt (.symbol .openBrace) u = .done true u → indexInBraces u = .done i v →
      ∃ ts, u.Passes ts v ∧ ∀ us indices, Indices us indices →
        Indices (ts ++ us) (i :: indices) := by
    intro u i v hat hi
    obtain ⟨o, is, a, b, his, hi⟩ := indexInBraces_sound hi (current_of_isAt hat)
    refine ⟨_, his, fun us indices hindices => ?_⟩
    simpa using Indices.cons (a := a) (b := b) hi hindices
  obtain ⟨ts, hts, hindices, -⟩ := manyUpTo_sound (fun _ _ _ => isAt_state) hitem .nil
    (fun _ _ us indices hi => hi us indices) h
  exact ⟨ts, hts, hindices⟩

theorem mutation_sound {m : Mutation} (h : mutation s = .done m t) :
    ∃ ts, s.Passes ts t ∧ Mutates ts m := by
  simp only [mutation, many, bind_eq_done_iff, keyword_done_iff, name_done_iff, withBudget_apply,
    symbol_done_iff, pure_apply, Reply.done.injEq] at h
  obtain ⟨a, s₁, ha, w, s₂, hw, indices, s₃, hindices, b, s₄, hb, value, s₅, hvalue, rfl, rfl⟩ := h
  obtain ⟨o, vs, hvs, hvalue, -⟩ := expression_sound _ _ _ hvalue
  obtain ⟨is, his, hindices⟩ := indices_sound hindices
  exact ⟨_, (ha.trans (hw.trans his)).trans (hb.trans hvs), .mk hindices hvalue rfl⟩

theorem condition_sound {test : Expr} (h : condition s = .done test t) : ∃ o es a b u,
    s.Passes (sym .openBracket a :: es) u ∧ u.Passes [sym .closeBracket b] t ∧
      Expression o 1 es test := by
  simp only [condition, bind_eq_done_iff, symbol_done_iff, pure_apply, Reply.done.injEq] at h
  obtain ⟨a, u, ha, e, v, he, b, w, hb, rfl, rfl⟩ := h
  obtain ⟨o, es, hes, he, -⟩ := expression_sound _ _ _ he
  exact ⟨o, es, a, b, v, ha.trans hes, hb, he⟩

theorem blockGoesOn_state {b : Bool} (h : blockGoesOn s = .done b t) : t = s := by
  simp only [blockGoesOn, bind_eq_done_iff, peek_apply, Reply.done.injEq] at h
  obtain ⟨_, _, ⟨rfl, rfl⟩, h⟩ := h
  generalize s.current.value = value at h
  split at h <;> simp_all

theorem block_sound {body : List Stmt} (hsub : ReadsStatements sub)
    (h : block sub s = .done body t) : ∃ ts, s.Passes ts t ∧ Block anyExpr ts body := by
  simp only [block, many, bind_eq_done_iff, symbol_done_iff, withBudget_apply, pure_apply,
    Reply.done.injEq] at h
  obtain ⟨a, u, ha, body, v, hbody, b, w, hb, rfl, rfl⟩ := h
  obtain ⟨ss, hss, hbody, -⟩ := manyUpTo_sound (G := Statement anyExpr) (L := Statements anyExpr)
    (fun _ _ _ => blockGoesOn_state) (fun u x v _ hx => hsub u x v hx) .nil
    (fun _ _ _ _ hx hxs => .cons hx hxs) hbody
  exact ⟨_, (ha.trans hss).trans hb, .mk hbody rfl⟩

/-! ## Forms of statements -/

theorem declareForm_sound : ReadsForms declareForm := by
  intro s form t h
  simp only [declareForm, bind_eq_done_iff, symbol_done_iff, pure_apply, Reply.done.injEq] at h
  obtain ⟨d, u, hd, a, v, ha, rfl, rfl⟩ := h
  obtain ⟨ds, hds, hd⟩ := declaration_sound hd
  exact ⟨_, hds.trans ha, by simp, .declare hd rfl⟩

theorem storeForm_sound : ReadsForms storeForm := by
  intro s form t h
  simp only [storeForm, storing, bind_eq_done_iff, keyword_done_iff, name_done_iff,
    symbol_done_iff, pure_apply, Reply.done.injEq] at h
  obtain ⟨x, _, ⟨b, s₁, hb, a, s₂, ha, w, s₃, hw, c, s₄, hc, token, s₅, htoken, h⟩, rfl, rfl⟩ := h
  obtain ⟨qs, hqs, hb⟩ := binding_sound hb
  have hcur := (advance_done_iff.1 htoken).1
  generalize hval : token.value = value at h
  split at h
  · simp only [bind_eq_done_iff, symbol_done_iff, pure_apply, Reply.done.injEq] at h
    obtain ⟨d, u, hd, rfl, rfl⟩ := h
    have htext := passes_of_advance htoken (hcur ▸ hval) (by simp)
    exact ⟨_, hqs.trans (ha.trans (hw.trans (hc.trans (htext.trans hd)))), by simp,
      .store hb rfl⟩
  · exact absurd h fail_ne_done

theorem qualifiedForm_sound : ReadsForms qualifiedForm := by
  intro s form t h
  simp only [qualifiedForm, bind_eq_done_iff] at h
  obtain ⟨second, u, hsecond, h⟩ := h
  obtain rfl := lookahead_state hsecond
  split at h
  · exact declareForm_sound _ _ _ h
  · exact storeForm_sound _ _ _ h
  · exact absurd h failHere_ne_done

theorem updateForm_sound : ReadsForms updateForm := by
  intro s form t h
  simp only [updateForm, bind_eq_done_iff, symbol_done_iff, pure_apply, Reply.done.injEq] at h
  obtain ⟨m, u, hm, a, v, ha, rfl, rfl⟩ := h
  obtain ⟨ms, hms, hm⟩ := mutation_sound hm
  exact ⟨_, hms.trans ha, by simp, .update hm rfl⟩

theorem guarded_sound {g : Expr × List Stmt} (hsub : ReadsStatements sub)
    (h : guarded sub s = .done g t) : ∃ o es bs a b c,
      s.Passes (kw .check a :: sym .openBracket b :: es ++ sym .closeBracket c :: bs) t ∧
        Expression o 1 es g.1 ∧ Block anyExpr bs g.2 := by
  simp only [guarded, bind_eq_done_iff, keyword_done_iff, pure_apply, Reply.done.injEq] at h
  obtain ⟨a, u, ha, test, v, htest, body, w, hbody, rfl, rfl⟩ := h
  obtain ⟨o, es, b, c, x, hes, hc, htest⟩ := condition_sound htest
  obtain ⟨bs, hbs, hbody⟩ := block_sound hsub hbody
  exact ⟨o, es, bs, a, b, c, (ha.trans hes).trans (hc.trans hbs), htest, hbody⟩

theorem checkGoesOn_state {b : Bool} (h : checkGoesOn s = .done b t) : t = s := by
  simp only [checkGoesOn, bind_eq_done_iff, isAt_apply, Reply.done.injEq] at h
  obtain ⟨_, _, ⟨rfl, rfl⟩, h⟩ := h
  split at h
  · simp only [bind_eq_done_iff, pure_apply, Reply.done.injEq] at h
    obtain ⟨second, u, hsecond, -, rfl⟩ := h
    exact lookahead_state hsecond
  · simp_all

/-- Another check follows only behind `or`. -/
theorem current_of_checkGoesOn (h : checkGoesOn s = .done true t) :
    s.current.value = .keyword .or := by
  simp only [checkGoesOn, bind_eq_done_iff, isAt_apply, Reply.done.injEq] at h
  obtain ⟨_, _, ⟨rfl, rfl⟩, h⟩ := h
  split at h
  · next hat => exact beq_iff_eq.1 hat
  · simp at h

theorem lastBlock_sound {last : Otherwise} (hsub : ReadsStatements sub)
    (h : lastBlock sub s = .done last t) : ∃ ts, s.Passes ts t ∧ Alternatives anyExpr ts last := by
  simp only [lastBlock, bind_eq_done_iff, isAt_apply, Reply.done.injEq] at h
  obtain ⟨_, _, ⟨rfl, rfl⟩, h⟩ := h
  split at h
  · next hat =>
    simp only [bind_eq_done_iff, pure_apply, Reply.done.injEq] at h
    obtain ⟨token, u, htoken, body, v, hbody, rfl, rfl⟩ := h
    obtain ⟨bs, hbs, hbody⟩ := block_sound hsub hbody
    exact ⟨_, (passes_of_advance htoken (beq_iff_eq.1 hat) (by simp)).trans hbs,
      .block hbody rfl⟩
  · simp only [pure_apply, Reply.done.injEq] at h
    obtain ⟨rfl, rfl⟩ := h
    exact ⟨[], .nil, .nothing⟩

theorem checkForm_sound (hsub : ReadsStatements sub) : ReadsForms (checkForm sub) := by
  intro s form t h
  simp only [checkForm, many, bind_eq_done_iff, withBudget_apply, pure_apply,
    Reply.done.injEq] at h
  obtain ⟨⟨test, body⟩, u, hfirst, others, v, hothers, last, w, hlast, rfl, rfl⟩ := h
  obtain ⟨o, es, bs, a, b, c, hes, htest, hbody⟩ := guarded_sound hsub hfirst
  obtain ⟨ls, hls, hlast⟩ := lastBlock_sound hsub hlast
  have hitem : ∀ u g v, checkGoesOn u = .done true u →
      (advance >>= fun _ => guarded sub) u = .done g v →
      ∃ ts, u.Passes ts v ∧ ∀ ns next, Alternatives anyExpr ns next →
        Alternatives anyExpr (ts ++ ns) (.check g.1 g.2 next) := by
    intro u g v hmore hg
    obtain ⟨token, w, htoken, hg⟩ := bind_eq_done_iff.1 hg
    obtain ⟨o, es, bs, a, b, c, hes, htest, hbody⟩ := guarded_sound hsub hg
    have hor := passes_of_advance htoken (current_of_checkGoesOn hmore) (by simp)
    exact ⟨_, hor.trans hes, fun ns next hnext => .check htest hbody hnext rfl⟩
  -- the checks in between are described by what they make of the alternatives behind them
  obtain ⟨os, hos, hothers, -⟩ := manyUpTo_sound
    (L := fun ts gs => ∀ ns next, Alternatives anyExpr ns next →
      Alternatives anyExpr (ts ++ ns) (gs.foldr (fun g next => .check g.1 g.2 next) next))
    (fun _ _ _ => checkGoesOn_state) hitem (fun _ _ h => h)
    (fun ts g us gs hg hgs ns next hnext => by
      rw [List.append_assoc]
      exact hg _ _ (hgs _ _ hnext))
    hothers
  exact ⟨_, hes.trans (hos.trans hls), by simp, .check htest hbody (hothers _ _ hlast) rfl⟩

theorem rangeStep_sound {step : Expr} {u : ParseState} {c : Span} (h : rangeStep s = .done step t)
    (hclose : t.Passes [sym .closeBracket c] u) : ∃ ts, s.Passes ts t ∧ Step c ts step := by
  simp only [rangeStep, bind_eq_done_iff, isAt_apply, Reply.done.injEq] at h
  obtain ⟨_, _, ⟨rfl, rfl⟩, h⟩ := h
  split at h
  · next hat =>
    simp only [bind_eq_done_iff] at h
    obtain ⟨token, u, htoken, h⟩ := h
    obtain ⟨o, es, hes, he, -⟩ := expression_sound _ _ _ h
    exact ⟨_, (passes_of_advance htoken (beq_iff_eq.1 hat) (by simp)).trans hes, .written he⟩
  · simp only [bind_eq_done_iff, here_apply, pure_apply, Reply.done.injEq] at h
    obtain ⟨_, _, ⟨rfl, rfl⟩, rfl, rfl⟩ := h
    refine ⟨[], .nil, ?_⟩
    rw [hclose.current_eq]
    exact .omitted

theorem overCollection_state {b : Bool} (h : overCollection s = .done b t) : t = s := by
  simp only [overCollection, bind_eq_done_iff, peek_apply, Reply.done.injEq] at h
  obtain ⟨_, _, ⟨rfl, rfl⟩, h⟩ := h
  generalize s.current.value = value at h
  split at h
  · simp only [bind_eq_done_iff, pure_apply, Reply.done.injEq] at h
    obtain ⟨second, u, hsecond, -, rfl⟩ := h
    exact lookahead_state hsecond
  · simp_all

theorem repeatForm_sound (hsub : ReadsStatements sub) : ReadsForms (repeatForm sub) := by
  intro s form t h
  simp only [repeatForm, bind_eq_done_iff, keyword_done_iff, symbol_done_iff, name_done_iff,
    hinting_done_iff] at h
  obtain ⟨a, s₁, ha, b, s₂, hb, x, s₃, hx, c, s₄, hc, each, u, heach, h⟩ := h
  obtain rfl := overCollection_state heach
  split at h
  · simp only [bind_eq_done_iff, name_done_iff, symbol_done_iff, pure_apply,
      Reply.done.injEq] at h
    obtain ⟨xs, s₅, hxs, d, s₆, hd, body, s₇, hbody, rfl, rfl⟩ := h
    obtain ⟨ds, hds, hbody⟩ := block_sound hsub hbody
    exact ⟨_, ha.trans (hb.trans (hx.trans (hc.trans (hxs.trans (hd.trans hds))))), by simp,
      .repeatEach hbody rfl⟩
  · simp only [bind_eq_done_iff, keyword_done_iff, symbol_done_iff, hinting_done_iff, pure_apply,
      Reply.done.injEq] at h
    obtain ⟨first, s₅, hfirst, d, s₆, hd, last, s₇, hlast, step, s₈, hstep, e, s₉, he, body, s₁₀,
      hbody, rfl, rfl⟩ := h
    obtain ⟨o, as, has, hfirst, -⟩ := expression_sound _ _ _ hfirst
    obtain ⟨o', bs, hbs, hlast, -⟩ := expression_sound _ _ _ hlast
    obtain ⟨cs, hcs, hstep⟩ := rangeStep_sound hstep he
    obtain ⟨ds, hds, hbody⟩ := block_sound hsub hbody
    have hheader := ha.trans (hb.trans (hx.trans (hc.trans has)))
    exact ⟨_, ((hheader.trans (hd.trans hbs)).trans hcs).trans (he.trans hds), by simp,
      .repeatRange hfirst hlast hstep hbody rfl⟩

theorem untilForm_sound (hsub : ReadsStatements sub) : ReadsForms (untilForm sub) := by
  intro s form t h
  simp only [untilForm, bind_eq_done_iff, keyword_done_iff, pure_apply, Reply.done.injEq] at h
  obtain ⟨a, s₁, ha, b, s₂, hb, test, s₃, htest, body, s₄, hbody, rfl, rfl⟩ := h
  obtain ⟨o, es, c, d, x, hes, hd, htest⟩ := condition_sound htest
  obtain ⟨bs, hbs, hbody⟩ := block_sound hsub hbody
  exact ⟨_, (ha.trans (hb.trans hes)).trans (hd.trans hbs), by simp,
    .repeatUntil htest hbody rfl⟩

theorem loopStart_sound {start : LoopStart} (h : loopStart s = .done start t) :
    ∃ ts, s.Passes ts t ∧ Starts ts start := by
  simp only [loopStart, bind_eq_done_iff, peek_apply, Reply.done.injEq] at h
  obtain ⟨_, _, ⟨rfl, rfl⟩, h⟩ := h
  have declared : ∀ {d : Declaration} {u : ParseState}, declaration s = .done d u →
      ∃ ts, s.Passes ts u ∧ Starts ts (.declare d) := by
    intro d u hd
    obtain ⟨ds, hds, hd⟩ := declaration_sound hd
    exact ⟨ds, hds, .declare hd⟩
  generalize s.current.value = value at h
  split at h <;>
    (try simp only [bind_eq_done_iff, name_done_iff, pure_apply, Reply.done.injEq] at h)
  · obtain ⟨d, u, hd, rfl, rfl⟩ := h; exact declared hd
  · obtain ⟨d, u, hd, rfl, rfl⟩ := h; exact declared hd
  · obtain ⟨d, u, hd, rfl, rfl⟩ := h; exact declared hd
  · obtain ⟨m, u, hm, rfl, rfl⟩ := h
    obtain ⟨ms, hms, hm⟩ := mutation_sound hm
    exact ⟨ms, hms, .update hm⟩
  · obtain ⟨w, u, hw, rfl, rfl⟩ := h
    exact ⟨_, hw, .name⟩
  · exact absurd h failHere_ne_done

theorem located_sound {α : Type} {p : Parse α} {x : Located α} (h : located p s = .done x t) :
    p s = .done x.value t ∧ ∀ ts, s.Passes ts t → ts ≠ [] → x = ⟨x.value, extent ts⟩ := by
  simp only [located, bind_eq_done_iff, here_apply, lastStop_apply, pure_apply,
    Reply.done.injEq] at h
  obtain ⟨_, _, ⟨rfl, rfl⟩, value, u, hvalue, _, _, ⟨rfl, rfl⟩, rfl, rfl⟩ := h
  refine ⟨hvalue, fun ts hts hne => ?_⟩
  rw [hts.extent_eq hne]

theorem forForm_sound (hsub : ReadsStatements sub) : ReadsForms (forForm sub) := by
  intro s form t h
  simp only [forForm, bind_eq_done_iff, keyword_done_iff, symbol_done_iff, pure_apply,
    Reply.done.injEq] at h
  obtain ⟨a, s₁, ha, b, s₂, hb, start, s₃, hstart, c, s₄, hc, test, s₅, htest, d, s₆, hd, inc, s₇,
    hinc, e, s₈, he, body, s₉, hbody, rfl, rfl⟩ := h
  obtain ⟨hstart, hspan⟩ := located_sound hstart
  obtain ⟨hinc, hspan'⟩ := located_sound hinc
  obtain ⟨ss, hss, hstart⟩ := loopStart_sound hstart
  obtain ⟨o, es, hes, htest, -⟩ := expression_sound _ _ _ htest
  obtain ⟨is, his, hinc⟩ := mutation_sound hinc
  obtain ⟨bs, hbs, hbody⟩ := block_sound hsub hbody
  have hheader := ((ha.trans (hb.trans hss)).trans (hc.trans hes)).trans (hd.trans his)
  refine ⟨_, hheader.trans (he.trans hbs), by simp, ?_⟩
  rw [hspan ss hss hstart.ne_nil, hspan' is his hinc.ne_nil]
  exact .forLoop hstart htest hinc hbody rfl

theorem functionForm_sound (hsub : ReadsStatements sub) : ReadsForms (functionForm sub) := by
  intro s form t h
  simp only [functionForm, bind_eq_done_iff, keyword_done_iff, name_done_iff, symbol_done_iff,
    pure_apply, Reply.done.injEq] at h
  obtain ⟨a, s₁, ha, f, s₂, hf, b, s₃, hb, found, s₄, hfound, c, s₅, hc, returns, s₆, hreturns,
    body, s₇, hbody, rfl, rfl⟩ := h
  obtain ⟨ps, hps, hparams⟩ := names_sound hfound
  obtain ⟨as, has, hreturns⟩ := annotation_sound hreturns
  obtain ⟨bs, hbs, hbody⟩ := block_sound hsub hbody
  exact ⟨_, ((ha.trans (hf.trans (hb.trans hps))).trans (hc.trans has)).trans hbs, by simp,
    .function hparams hreturns hbody rfl⟩

/-- A keyword with an expression passes the keyword, the expression and a semicolon. -/
theorem valueForm_sound {k : Keyword} {make : Expr → Span → Stmt} {form : Span → Stmt}
    (hk : s.current.value = .keyword k) (h : valueForm make s = .done form t) :
    ∃ o e es a b, s.Passes (kw k a :: es ++ [sym .semicolon b]) t ∧ Expression o 1 es e ∧
      form = make e := by
  simp only [valueForm, bind_eq_done_iff, symbol_done_iff, pure_apply, Reply.done.injEq] at h
  obtain ⟨token, u, htoken, e, v, he, b, w, hb, rfl, rfl⟩ := h
  obtain ⟨o, es, hes, he, -⟩ := expression_sound _ _ _ he
  exact ⟨o, e, es, _, b, ((passes_of_advance htoken hk (by simp)).trans hes).trans hb, he, rfl⟩

theorem bareForm_sound {k : Keyword} {make form : Span → Stmt}
    (hk : s.current.value = .keyword k) (h : bareForm make s = .done form t) :
    ∃ a b, s.Passes [kw k a, sym .semicolon b] t ∧ form = make := by
  simp only [bareForm, bind_eq_done_iff, symbol_done_iff, pure_apply, Reply.done.injEq] at h
  obtain ⟨token, u, htoken, b, w, hb, rfl, rfl⟩ := h
  exact ⟨_, b, (passes_of_advance htoken hk (by simp)).trans hb, rfl⟩

theorem rawForm_sound {code : String} {form : Span → Stmt} (hraw : s.current.value = .raw code)
    (h : rawForm code s = .done form t) :
    ∃ ts, s.Passes ts t ∧ ts ≠ [] ∧ Statement anyExpr ts (form (extent ts)) := by
  simp only [rawForm, bind_eq_done_iff, isAt_apply, Reply.done.injEq] at h
  obtain ⟨token, u, htoken, _, _, ⟨rfl, rfl⟩, h⟩ := h
  have hcode := passes_of_advance htoken hraw (by simp)
  split at h
  · next hat =>
    simp only [bind_eq_done_iff, pure_apply, Reply.done.injEq] at h
    obtain ⟨semicolon, v, hsemi, rfl, rfl⟩ := h
    exact ⟨_, hcode.trans (passes_of_advance hsemi (beq_iff_eq.1 hat) (by simp)), by simp,
      .rawEnded rfl⟩
  · simp only [pure_apply, Reply.done.injEq] at h
    obtain ⟨rfl, rfl⟩ := h
    exact ⟨_, hcode, by simp, .raw rfl⟩

theorem exprForm_sound {k : Keyword} {form : Span → Stmt} (hk : k = .call ∨ k = .method)
    (hcur : s.current.value = .keyword k) (h : exprForm s = .done form t) :
    ∃ ts, s.Passes ts t ∧ ts ≠ [] ∧ Statement anyExpr ts (form (extent ts)) := by
  simp only [exprForm, bind_eq_done_iff, symbol_done_iff, pure_apply, Reply.done.injEq] at h
  obtain ⟨e, u, he, b, w, hb, rfl, rfl⟩ := h
  obtain ⟨o, es, hes, he, -⟩ := expression_sound _ _ _ he
  -- the first token of the expression is the current one
  cases es with
  | nil => exact absurd rfl he.span_eq.1
  | cons token es =>
    obtain ⟨value, a⟩ := token
    rw [hes.current_eq] at hcur
    obtain rfl : value = .keyword k := hcur
    exact ⟨_, hes.trans hb, by simp, .expr hk he trivial rfl⟩

/-! ## Statements and programs -/

theorem statementForm_sound (hsub : ReadsStatements sub) : ReadsForms (statementForm sub) := by
  intro s form t h
  simp only [statementForm, bind_eq_done_iff, peek_apply, Reply.done.injEq] at h
  obtain ⟨_, _, ⟨rfl, rfl⟩, h⟩ := h
  generalize hval : s.current.value = value at h
  split at h
  · exact qualifiedForm_sound _ _ _ h
  · exact qualifiedForm_sound _ _ _ h
  · exact declareForm_sound _ _ _ h
  · exact storeForm_sound _ _ _ h
  · exact updateForm_sound _ _ _ h
  · exact checkForm_sound hsub _ _ _ h
  · simp only [bind_eq_done_iff] at h
    obtain ⟨second, u, hsecond, h⟩ := h
    obtain rfl := lookahead_state hsecond
    split at h
    · exact untilForm_sound hsub _ _ _ h
    · exact repeatForm_sound hsub _ _ _ h
  · exact forForm_sound hsub _ _ _ h
  · exact functionForm_sound hsub _ _ _ h
  · obtain ⟨o, e, es, a, b, hts, he, rfl⟩ := valueForm_sound hval h
    exact ⟨_, hts, by simp, .give he rfl⟩
  · obtain ⟨o, e, es, a, b, hts, he, rfl⟩ := valueForm_sound hval h
    exact ⟨_, hts, by simp, .display he rfl⟩
  · obtain ⟨o, e, es, a, b, hts, he, rfl⟩ := valueForm_sound hval h
    exact ⟨_, hts, by simp, .error he rfl⟩
  · obtain ⟨o, e, es, a, b, hts, he, rfl⟩ := valueForm_sound hval h
    exact ⟨_, hts, by simp, .panic he rfl⟩
  · obtain ⟨a, b, hts, rfl⟩ := bareForm_sound hval h
    exact ⟨_, hts, by simp, .skip rfl⟩
  · obtain ⟨a, b, hts, rfl⟩ := bareForm_sound hval h
    exact ⟨_, hts, by simp, .halt rfl⟩
  · exact rawForm_sound hval h
  · exact exprForm_sound (.inl rfl) hval h
  · exact exprForm_sound (.inr rfl) hval h
  · exact absurd h failHere_ne_done

/-- Whatever a parse of a statement passes writes the statement. -/
theorem statementUpTo_sound (n : Nat) : ReadsStatements (statementUpTo n) := by
  induction n with
  | zero => exact fun s x t h => absurd h exhausted_ne_done
  | succ n ih =>
    intro s x t h
    simp only [statementUpTo, bind_eq_done_iff, here_apply, lastStop_apply, pure_apply,
      Reply.done.injEq] at h
    obtain ⟨_, _, ⟨rfl, rfl⟩, form, u, hform, _, _, ⟨rfl, rfl⟩, rfl, rfl⟩ := h
    obtain ⟨ts, hts, hne, hform⟩ := statementForm_sound ih _ _ _ hform
    exact ⟨ts, hts, hts.extent_eq hne ▸ hform⟩

/-- Whatever a parse of a program passes writes the program, and it ends at the end of the file. -/
theorem program_sound {p : List Stmt} (h : program s = .done p t) :
    ∃ ts, s.Passes ts t ∧ Statements anyExpr ts p ∧ t.current.value = .endOfFile := by
  simp only [program, many, withBudget_apply] at h
  obtain ⟨ts, hts, hp, hend⟩ := manyUpTo_sound (G := Statement anyExpr)
    (L := Statements anyExpr)
    (fun u b v hb => by
      simp only [bind_eq_done_iff, isAt_apply, pure_apply, Reply.done.injEq] at hb
      obtain ⟨_, _, ⟨-, rfl⟩, -, rfl⟩ := hb
      rfl)
    (fun u x v _ hx => statementUpTo_sound _ _ _ _ hx) .nil (fun _ _ _ _ hx hxs => .cons hx hxs) h
  refine ⟨ts, hts, hp, ?_⟩
  simpa [bind_eq_done_iff] using hend

end Resin.Grammar
