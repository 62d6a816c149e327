import Resin.Proofs.Grammar.StmtSound
import Resin.Proofs.Parse.ForkExpr

/-!
# Statements before a fork

Every parse of a statement is followed from the source it succeeds on to the one that breaks off
with an error. A statement ends in a semicolon, a closing brace or a raw block, so it never ends in
front of the arrow of a head that was taken for an expression in brackets. Hence a whole program is
followed to one of two ends, `program_bad`: the error is reported behind the last token, or the
tokens end inside the head of a lambda and an error about that head is reported.
-/

namespace Resin

open Parse Grammar

namespace Fork.Site

variable {F : Fork} {x y z : F.Site} {α : Type}

/-! ## Parts of statements -/

theorem cuts_binding : x.Cuts Anywhere Never binding binding := by
  refine Cuts.peek ?_
  split
  · next hval =>
    exact (cuts_advance_of_isPlain (by rw [hval]; rfl)).seq fun _ _ _ _ => .pure trivial
  · next hval =>
    exact (cuts_advance_of_isPlain (by rw [hval]; rfl)).seq fun _ _ _ _ => .pure trivial
  · exact .pure trivial

theorem cuts_annotation : x.Cuts Anywhere Never annotation annotation := by
  refine Cuts.isAt ?_
  split
  · next hat =>
    have hval : x.current.value = .keyword .as := beq_iff_eq.1 hat
    refine (cuts_advance_of_isPlain (by rw [hval]; rfl)).seq fun _ y _ _ =>
      .take (fun u type t h => ?_) fun z _ => ?_
    · generalize y.current.value = value at h ⊢
      split at h
      · rfl
      · exact absurd h fail_ne_done
    · split
      · exact .pure trivial
      · exact .of_fails fun _ _ => fail_ne_done
  · exact .pure trivial

theorem cuts_optionalValue :
    x.Cuts Anywhere (fun value => value.isSome = true) optionalValue optionalValue := by
  refine Cuts.isAt ?_
  split
  · next hat =>
    have hval : x.current.value = .symbol .assign := beq_iff_eq.1 hat
    refine (cuts_advance_of_isPlain (by rw [hval]; rfl)).seq fun token y _ hy => ?_
    obtain ⟨rfl, hy⟩ := hy
    exact (cuts_expression (hy.ready (by simp [hval]))).bind (fun _ _ _ _ => .pure trivial)
      fun _ _ _ _ _ => .pure rfl
  · exact .pure trivial

theorem cuts_declaration : x.Cuts Anywhere Any declaration declaration := by
  refine cuts_binding.seq fun binding _ _ _ => (cuts_keyword rfl).seq fun start _ _ _ =>
    cuts_name.seq fun word _ _ _ => cuts_annotation.seq fun type _ _ _ =>
    cuts_optionalValue.bind (fun value y _ _ => .lastStop fun stop => ?_)
      fun value y _ _ hvalue => ?_
  · split
    · exact .of_fails fun _ _ => fail_ne_done
    · split
      · exact .of_fails fun _ _ => fail_ne_done
      · exact .pure trivial
  · -- a declaration with a value is always complete
    obtain ⟨value, rfl⟩ := Option.isSome_iff_exists.1 hvalue
    exact .inr ⟨_, rfl, trivial⟩

theorem cuts_storing : x.Cuts Anywhere Never storing storing := by
  refine cuts_binding.seq fun binding _ _ _ => (cuts_keyword rfl).seq fun _ _ _ _ =>
    cuts_name.seq fun word _ _ _ => (cuts_symbol rfl).seq fun _ y _ _ =>
    .take (fun u type t h => ?_) fun z _ => ?_
  · generalize y.current.value = value at h ⊢
    split at h
    · rfl
    · exact absurd h fail_ne_done
  · split
    · exact (cuts_symbol rfl).seq fun _ _ _ _ => .pure trivial
    · exact .of_fails fun _ _ => fail_ne_done

theorem cuts_indexInBraces (hval : x.current.value = .symbol .openBrace) :
    x.Cuts (fun _ y => y.left < x.left) Never indexInBraces indexInBraces := by
  refine (cuts_advance_of_isPlain (by rw [hval]; rfl)).seq fun token y _ hy => ?_
  obtain ⟨rfl, hy⟩ := hy
  have hlt := hy.left_lt
  refine (cuts_expression (hy.ready (by simp [hval]))).bind (fun _ _ hle _ => ?_)
    fun _ _ _ hz _ => hz.symbol (by simp)
  exact (cuts_symbol rfl).seq fun _ _ hle' _ => .pure (by omega)

/-- A loop whose rounds never end in front of the arrow of a head. -/
theorem Cuts.manyNever (Inv : F.Site → Prop) {On : F.Site → Prop} {more : Parse Bool}
    {item item' : Parse α}
    (hmore : ∀ y, Inv y → y.Cuts (fun b z => z = y ∧ (b = true → On y)) Never more more)
    (hitem : ∀ y, Inv y → On y → y.Cuts (fun _ z => z.left < y.left ∧ Inv z) Never item item')
    (hx : Inv x) : x.Cuts Anywhere Never (Parse.many more item) (Parse.many more item') := by
  refine (Cuts.many hmore hitem (fun _ _ _ h => h.elim) hx).mono (fun _ _ _ _ => trivial) ?_
  rintro as ⟨_, _, h⟩
  exact h

theorem cuts_mutation : x.Cuts Anywhere Any mutation mutation := by
  refine (cuts_keyword rfl).seq fun _ _ _ _ => cuts_name.seq fun word y _ _ => ?_
  have hindices : y.Cuts Anywhere Never (many (isAt (.symbol .openBrace)) indexInBraces)
      (many (isAt (.symbol .openBrace)) indexInBraces) :=
    .manyNever (fun _ => True) (fun _ _ => cuts_isAt) (fun z _ hz =>
      (cuts_indexInBraces hz).mono (fun _ _ _ h => ⟨h, trivial⟩) fun _ h => h) trivial
  refine hindices.seq fun indices _ _ _ => (cuts_symbol rfl).seq fun _ z _ hz => ?_
  exact (cuts_expression (hz.ready (by simp))).bind (fun _ _ _ _ => .pure trivial)
    fun _ _ _ _ _ => .pure trivial

theorem cuts_condition : x.Cuts Anywhere Never condition condition := by
  refine (cuts_symbol rfl).seq fun _ y _ hy => ?_
  refine (cuts_expression (hy.ready (by simp))).bind (fun _ _ _ _ => ?_)
    fun _ _ _ hz _ => hz.symbol (by simp)
  exact (cuts_symbol rfl).seq fun _ _ _ _ => .pure trivial

theorem cuts_blockGoesOn :
    x.Cuts (fun b y => y = x ∧ (b = true → True)) Never blockGoesOn blockGoesOn := by
  refine Cuts.peek ?_
  split
  · exact .pure ⟨rfl, fun _ => trivial⟩
  · exact .of_fails fun _ _ => failHere_ne_done
  · exact .pure ⟨rfl, fun _ => trivial⟩

theorem cuts_checkGoesOn : x.Cuts (fun b y => y = x ∧ (b = true → x.current.value = .keyword .or))
    Never checkGoesOn checkGoesOn := by
  refine Cuts.isAt ?_
  split
  · next hat =>
    have hval : x.current.value = .keyword .or := beq_iff_eq.1 hat
    refine (cuts_lookahead (by rw [hval]; rfl) (passable_of_isPlain (by rw [hval]; rfl))).seq
      fun second y _ hy => ?_
    subst hy
    exact .pure ⟨rfl, fun _ => hval⟩
  · exact .pure ⟨rfl, by simp⟩

theorem cuts_overCollection : x.Cuts (fun _ y => y = x) Never overCollection overCollection := by
  refine Cuts.peek ?_
  split
  · next w hval =>
    refine (cuts_lookahead (by rw [hval]; rfl) (passable_of_isPlain (by rw [hval]; rfl))).seq
      fun second y _ hy => ?_
    exact .pure hy
  · exact .pure rfl

theorem cuts_rangeStep (hpass : x.current.value = .symbol .comma → x.Passable) :
    x.Cuts Anywhere Any rangeStep rangeStep := by
  refine Cuts.isAt ?_
  split
  · next hat =>
    have hval : x.current.value = .symbol .comma := beq_iff_eq.1 hat
    refine (cuts_advance (by rw [hval]; rfl) (hpass hval)).seq fun token y _ hy => ?_
    obtain ⟨rfl, hy⟩ := hy
    exact (cuts_expression (hy.ready (by simp [hval]))).mono (fun _ _ _ _ => trivial) fun _ h => h
  · exact .here (.pure trivial)

/-- At the arrow of a head no step of a range is written. -/
theorem Astray.rangeStep (h : x.Astray) : x.Balks Any rangeStep := by
  refine .inr ⟨.number .one (.point x.bad.current.span.start), ?_, trivial⟩
  rw [Parse.rangeStep, bind_of_done (isAt_apply _ _), state_current, h.1]
  rfl

theorem cuts_loopStart : x.Cuts Anywhere Any loopStart loopStart := by
  refine Cuts.peek ?_
  split
  · exact cuts_declaration.bind (fun _ _ _ _ => .pure trivial) fun _ _ _ _ _ => .pure trivial
  · exact cuts_declaration.bind (fun _ _ _ _ => .pure trivial) fun _ _ _ _ _ => .pure trivial
  · exact cuts_declaration.bind (fun _ _ _ _ => .pure trivial) fun _ _ _ _ _ => .pure trivial
  · exact cuts_mutation.bind (fun _ _ _ _ => .pure trivial) fun _ _ _ _ _ => .pure trivial
  · exact cuts_name.seq fun _ _ _ _ => .pure trivial
  · exact .of_fails fun _ _ => failHere_ne_done

theorem Cuts.located {p q : Parse α} (h : x.Cuts Anywhere Any p q) :
    x.Cuts Anywhere Any (located p) (located q) :=
  .here (h.bind (fun _ _ _ _ => .lastStop fun _ => .pure trivial)
    fun _ _ _ _ _ => .inr ⟨_, rfl, trivial⟩)

/-! ## Forms of statements -/

theorem cuts_declareForm : x.Cuts Anywhere Never declareForm declareForm :=
  cuts_declaration.bind (fun _ _ _ _ => (cuts_symbol rfl).seq fun _ _ _ _ => .pure trivial)
    fun _ _ _ hy _ => hy.symbol (by simp)

theorem cuts_storeForm : x.Cuts Anywhere Never storeForm storeForm :=
  cuts_storing.seq fun _ _ _ _ => .pure trivial

theorem cuts_qualifiedForm (hplain : x.current.value.isPlain = true) :
    x.Cuts Anywhere Never qualifiedForm qualifiedForm := by
  refine (cuts_lookahead (hintAt_of_isPlain hplain) (passable_of_isPlain hplain)).seq
    fun second y _ _ => ?_
  split
  · exact cuts_declareForm
  · exact cuts_storeForm
  · exact .of_fails fun _ _ => failHere_ne_done

theorem cuts_updateForm : x.Cuts Anywhere Never updateForm updateForm :=
  cuts_mutation.bind (fun _ _ _ _ => (cuts_symbol rfl).seq fun _ _ _ _ => .pure trivial)
    fun _ _ _ hy _ => hy.symbol (by simp)

theorem cuts_valueForm {make : Expr → Span → Stmt} {k : Keyword}
    (hval : x.current.value = .keyword k) (hplain : (Token.keyword k).isPlain = true) :
    x.Cuts Anywhere Never (valueForm make) (valueForm make) := by
  refine (cuts_advance_of_isPlain (by rwa [hval])).seq fun token y _ hy => ?_
  obtain ⟨rfl, hy⟩ := hy
  refine (cuts_expression (hy.ready (by simp [hval]))).bind (fun _ _ _ _ => ?_)
    fun _ _ _ hz _ => hz.symbol (by simp)
  exact (cuts_symbol rfl).seq fun _ _ _ _ => .pure trivial

theorem cuts_bareForm {make : Span → Stmt} (hplain : x.current.value.isPlain = true) :
    x.Cuts Anywhere Never (bareForm make) (bareForm make) :=
  (cuts_advance_of_isPlain hplain).seq fun _ _ _ _ =>
    (cuts_symbol rfl).seq fun _ _ _ _ => .pure trivial

theorem cuts_rawForm {code : String} (hplain : x.current.value.isPlain = true) :
    x.Cuts Anywhere Never (rawForm code) (rawForm code) := by
  refine (cuts_advance_of_isPlain hplain).seq fun _ y _ _ => Cuts.isAt ?_
  split
  · next hat =>
    have hval : y.current.value = .symbol .semicolon := beq_iff_eq.1 hat
    exact (cuts_advance_of_isPlain (by rw [hval]; rfl)).seq fun _ _ _ _ => .pure trivial
  · exact .pure trivial

theorem cuts_exprForm (hready : x.Ready) : x.Cuts Anywhere Never exprForm exprForm := by
  refine (cuts_expression hready).bind (fun _ _ _ _ => ?_) fun _ _ _ hz _ => hz.symbol (by simp)
  exact (cuts_symbol rfl).seq fun _ _ _ _ => .pure trivial

section Blocks

variable {m : Nat} {sub sub' : Parse Stmt}

/-- With less than `m` tokens left, `q` follows `p`, and each statement passes a token. -/
def InStepStmt (F : Fork) (m : Nat) (p q : Parse Stmt) : Prop :=
  ∀ y : F.Site, y.left < m → y.Cuts (fun _ z => z.left < y.left) Never p q

theorem cuts_block (hsub : InStepStmt F m sub sub') (hx : x.left ≤ m) :
    x.Cuts Anywhere Never (block sub) (block sub') := by
  refine (cuts_symbol rfl).seq fun _ y _ hy => ?_
  have hlt := hy.left_lt
  have hbody : y.Cuts Anywhere Never (many blockGoesOn sub) (many blockGoesOn sub') := by
    refine .manyNever (fun z => z.left ≤ y.left) (fun _ _ => cuts_blockGoesOn)
      (fun z hz _ => ?_) (Nat.le_refl _)
    exact (hsub z (by omega)).mono (fun _ w hle hw => ⟨hw, by omega⟩) fun _ h => h
  exact hbody.seq fun _ _ _ _ => (cuts_symbol rfl).seq fun _ _ _ _ => .pure trivial

theorem cuts_guarded (hsub : InStepStmt F m sub sub') (hx : x.left ≤ m) :
    x.Cuts (fun _ y => y.left < x.left) Never (guarded sub) (guarded sub') := by
  refine (cuts_keyword rfl).seq fun _ y _ hy => cuts_condition.seq fun _ z hz _ => ?_
  have hlt := hy.left_lt
  exact (cuts_block hsub (by omega)).seq fun _ w hw _ => .pure (by omega)

theorem cuts_lastBlock (hsub : InStepStmt F m sub sub') (hx : x.left ≤ m) :
    x.Cuts Anywhere Never (lastBlock sub) (lastBlock sub') := by
  refine Cuts.isAt ?_
  split
  · next hat =>
    have hval : x.current.value = .keyword .alt := beq_iff_eq.1 hat
    refine (cuts_advance_of_isPlain (by rw [hval]; rfl)).seq fun _ y hy _ => ?_
    exact (cuts_block hsub (by omega)).seq fun _ _ _ _ => .pure trivial
  · exact .pure trivial

theorem cuts_checkForm (hsub : InStepStmt F m sub sub') (hx : x.left ≤ m) :
    x.Cuts Anywhere Never (checkForm sub) (checkForm sub') := by
  refine (cuts_guarded hsub hx).seq fun first y hy _ => ?_
  have hothers : y.Cuts (fun _ z => z.left ≤ y.left) Never
      (many checkGoesOn (do let _ ← advance; guarded sub))
      (many checkGoesOn (do let _ ← advance; guarded sub')) := by
    refine (Cuts.manyNever (fun z => z.left ≤ y.left) (fun _ _ => cuts_checkGoesOn)
      (fun z hz hor => ?_) (Nat.le_refl _)).mono (fun _ _ hle _ => hle) fun _ h => h
    refine (cuts_advance_of_isPlain (by rw [hor]; rfl)).seq fun _ w hw _ => ?_
    exact (cuts_guarded hsub (by omega)).mono (fun _ v _ hv => ⟨by omega, by omega⟩) fun _ h => h
  refine hothers.seq fun others z hz _ => ?_
  exact (cuts_lastBlock hsub (by omega)).seq fun _ _ _ _ => .pure trivial

theorem cuts_repeatForm (hsub : InStepStmt F m sub sub') (hx : x.left ≤ m) :
    x.Cuts Anywhere Never (repeatForm sub) (repeatForm sub') := by
  refine (cuts_keyword rfl).seq fun _ y₁ h₁ _ => (cuts_symbol rfl).seq fun _ y₂ h₂ _ =>
    cuts_name.seq fun counter y₃ h₃ _ => (cuts_hinting rfl).seq fun _ y₄ h₄ hin =>
    cuts_overCollection.seq fun overAll y₅ h₅ heq => ?_
  subst heq
  split
  · exact cuts_name.seq fun _ y₆ h₆ _ => (cuts_symbol rfl).seq fun _ y₇ h₇ _ =>
      (cuts_block hsub (by omega)).seq fun _ _ _ _ => .pure trivial
  · refine (cuts_expression (hin.ready (by simp))).bind (fun first y₆ h₆ _ => ?_)
      fun _ _ _ hz _ => hz.keyword_to
    refine (cuts_hinting rfl).seq fun _ y₇ h₇ hto => ?_
    refine (cuts_expression (hto.ready (by simp))).bind (fun last y₈ h₈ hlast => ?_)
      fun _ _ _ hz _ => hz.rangeStep.bind fun _ _ => hz.symbol (by simp)
    -- the expression in front of the comma stands behind `to`, not behind a bracket
    have hopened : ¬Opened y₇.before := by
      rw [hto.before_eq]
      exact not_opened_concat (by simp)
    obtain ⟨us, hus, hsettled⟩ := hlast
    refine (cuts_rangeStep (hus.passable hsettled hopened)).bind (fun step y₉ h₉ _ => ?_)
      fun _ _ _ hz _ => hz.symbol (by simp)
    exact (cuts_symbol rfl).seq fun _ y h _ =>
      (cuts_block hsub (by omega)).seq fun _ _ _ _ => .pure trivial

theorem cuts_untilForm (hsub : InStepStmt F m sub sub') (hx : x.left ≤ m) :
    x.Cuts Anywhere Never (untilForm sub) (untilForm sub') :=
  (cuts_keyword rfl).seq fun _ _ _ _ => (cuts_keyword rfl).seq fun _ _ _ _ =>
    cuts_condition.seq fun _ _ _ _ => (cuts_block hsub (by omega)).seq fun _ _ _ _ => .pure trivial

theorem cuts_forForm (hsub : InStepStmt F m sub sub') (hx : x.left ≤ m) :
    x.Cuts Anywhere Never (forForm sub) (forForm sub') := by
  refine (cuts_keyword rfl).seq fun _ y₁ h₁ _ => (cuts_symbol rfl).seq fun _ y₂ h₂ _ =>
    cuts_loopStart.located.bind (fun start y₃ h₃ _ => ?_) fun _ _ _ hz _ => hz.symbol (by simp)
  refine (cuts_symbol rfl).seq fun _ y₄ h₄ hsemi => ?_
  refine (cuts_expression (hsemi.ready (by simp))).bind (fun test y₅ h₅ _ => ?_)
    fun _ _ _ hz _ => hz.symbol (by simp)
  refine (cuts_symbol rfl).seq fun _ y₆ h₆ _ =>
    cuts_mutation.located.bind (fun increment y₇ h₇ _ => ?_) fun _ _ _ hz _ => hz.symbol (by simp)
  exact (cuts_symbol rfl).seq fun _ y₈ h₈ _ =>
    (cuts_block hsub (by omega)).seq fun _ _ _ _ => .pure trivial

theorem cuts_functionForm (hsub : InStepStmt F m sub sub') (hx : x.left ≤ m) :
    x.Cuts Anywhere Never (functionForm sub) (functionForm sub') := by
  refine (cuts_keyword rfl).seq fun _ y₁ h₁ _ => cuts_name.seq fun word y₂ h₂ hname =>
    (cuts_symbol rfl).seq fun _ y₃ h₃ hopen => ?_
  have hparam : ∀ y : F.Site, y.Cuts y.Through Never (name .parameter) (name .parameter) :=
    fun _ => cuts_name.mono (fun _ _ _ h => ⟨_, h, settled_singleton⟩) fun _ h => h
  have hparams : y₃.Cuts Anywhere Never (commaList .closeBracket (name .parameter))
      (commaList .closeBracket (name .parameter)) := by
    refine (Cuts.commaList (hopen.not_opened hname.not_unnamed) (hopen.unnamed (by simp))
      fun y _ _ => hparam y).mono (fun _ _ _ _ => trivial) ?_
    rintro as ⟨_, _, h⟩
    exact h
  exact hparams.seq fun _ y₄ h₄ _ => (cuts_symbol rfl).seq fun _ y₅ h₅ _ =>
    cuts_annotation.seq fun _ y₆ h₆ _ =>
    (cuts_block hsub (by omega)).seq fun _ _ _ _ => .pure trivial

/-! ## Statements and programs -/

theorem cuts_statementForm (hsub : InStepStmt F m sub sub') (hx : x.left ≤ m) :
    x.Cuts Anywhere Never (statementForm sub) (statementForm sub') := by
  refine Cuts.peek ?_
  split
  · next hval => exact cuts_qualifiedForm (by rw [hval]; rfl)
  · next hval => exact cuts_qualifiedForm (by rw [hval]; rfl)
  · exact cuts_declareForm
  · exact cuts_storeForm
  · exact cuts_updateForm
  · exact cuts_checkForm hsub hx
  · next hval =>
    refine (cuts_lookahead (by rw [hval]; rfl) (passable_of_isPlain (by rw [hval]; rfl))).seq
      fun second y _ hy => ?_
    subst hy
    split
    · exact cuts_untilForm hsub hx
    · exact cuts_repeatForm hsub hx
  · exact cuts_forForm hsub hx
  · exact cuts_functionForm hsub hx
  · next hval => exact cuts_valueForm hval rfl
  · next hval => exact cuts_valueForm hval rfl
  · next hval => exact cuts_valueForm hval rfl
  · next hval => exact cuts_valueForm hval rfl
  · next hval => exact cuts_bareForm (by rw [hval]; rfl)
  · next hval => exact cuts_bareForm (by rw [hval]; rfl)
  · next hval => exact cuts_rawForm (by rw [hval]; rfl)
  · next hval => exact cuts_exprForm fun h => by rw [hval] at h; cases h
  · next hval => exact cuts_exprForm fun h => by rw [hval] at h; cases h
  · exact .of_fails fun _ _ => failHere_ne_done

/-- A statement is followed up to the error, whatever nesting the two runs allow, if the second one
allows as much as there are tokens. -/
theorem inStepStmt_statementUpTo (n m : Nat) :
    InStepStmt F m (statementUpTo n) (statementUpTo m) := by
  induction m generalizing n with
  | zero => exact fun y hy => absurd hy (Nat.not_lt_zero _)
  | succ m ih =>
    intro y hy
    cases n with
    | zero => exact .of_fails fun _ _ => exhausted_ne_done
    | succ n =>
      have hform := (cuts_statementForm (ih n) (Nat.le_of_lt_succ hy)).passing
        (G := fun us => us ≠ []) fun form t h => by
          obtain ⟨us, hus, hne, -⟩ := statementForm_sound (statementUpTo_sound n) _ _ _ h
          exact ⟨us, hus, hne⟩
      refine .here (hform.seq fun _ z _ hz => .lastStop fun _ => .pure ?_)
      obtain ⟨us, hus, hne⟩ := hz
      have hleft := hus.left_add
      have hpos := List.length_pos_iff.2 hne
      omega

theorem cuts_statement : x.Cuts (fun _ y => y.left < x.left) Never statement statement :=
  .withBudget fun n m hm => inStepStmt_statementUpTo n m x hm

theorem cuts_program : x.Cuts Anywhere Never program program :=
  .manyNever (fun _ => True) (fun _ _ => .isAt (.pure ⟨rfl, fun _ => trivial⟩))
    (fun _ _ (_ : True) => cuts_statement.mono (fun _ _ _ h => ⟨h, trivial⟩) fun _ h => h) trivial

/-- Where the first source is a program, the second one is not: its error is reported, or one about
a head that it breaks off. -/
theorem program_bad {p : List Stmt} {t : ParseState} (hfree : x.Free)
    (h : program x.good = .done p t) : ∃ err s, program x.bad = .failed err s ∧
      (Misread F.tokens err ∨
        (∀ err, ¬Misread F.tokens err) ∧ err = F.error.behind F.tokens) := by
  have hreply := cuts_program hfree p t h
  generalize program x.bad = r at hreply ⊢
  cases hreply with
  | on y _ _ _ ht =>
    -- the run over the first source ends at its end, which is no place before the fork
    obtain ⟨-, -, -, hend⟩ := program_sound h
    rw [ht] at hend
    exact absurd hend y.current_ne_endOfFile
  | met hclear => exact ⟨_, _, rfl, .inr ⟨hclear, rfl⟩⟩
  | lost herr => exact ⟨_, _, rfl, .inl herr⟩
  | astray _ _ _ hb => exact hb.elim

end Blocks

end Fork.Site

end Resin
