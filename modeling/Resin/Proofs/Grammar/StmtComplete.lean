import Resin.Proofs.Grammar.ExprComplete
import Resin.Proofs.Grammar.StmtSound

/-!
# What the grammar derives as statements is read

Tokens that write a statement are read as that statement, wherever the next token cannot go on with
it: a check goes on behind `or` and `alt`, and a raw block takes a semicolon behind it. No statement
begins with one of these, and neither does what closes a block or a program, so statements are read
one after the other (`Statements.completes`), and a program is what its tokens write
(`Statements.read`).
-/

namespace Resin.Grammar

open Parse ParseState

variable {s t u : ParseState} {o : Bool} {n : Nat} {e : Expr} {ts es : List (Located Token)}

/-! ## How a statement begins and ends -/

/-- Whether a statement can begin with a token. -/
def beginsStatement : Token → Bool
  | .keyword .all | .keyword .fix | .keyword .assign | .keyword .store | .keyword .update
  | .keyword .check | .keyword .repeat_ | .keyword .for_ | .keyword .make | .keyword .give
  | .keyword .show_ | .keyword .error | .keyword .panic | .keyword .skip | .keyword .halt
  | .keyword .call | .keyword .method | .raw _ => true
  | _ => false

/-- Whether a token goes on with no statement. -/
def endsStatement : Token → Bool
  | .keyword .or | .keyword .alt | .symbol .semicolon => false
  | _ => true

theorem endsStatement_of_begins {token : Token} (h : beginsStatement token = true) :
    endsStatement token = true := by
  unfold beginsStatement at h
  split at h <;> first | rfl | cases h

theorem Declares.head {d : Declaration} (h : Declares ts d) :
    ∃ token rest, ts = token :: rest ∧ beginsStatement token.value = true := by
  obtain ⟨hq, -, -, -, rfl⟩ := h
  cases hq <;> exact ⟨_, _, rfl, rfl⟩

theorem Mutates.head {m : Mutation} (h : Mutates ts m) :
    ∃ a rest, ts = kw .update a :: rest := by
  obtain ⟨-, -, rfl⟩ := h
  exact ⟨_, _, rfl⟩

/-- A statement begins with a token that can begin one. -/
theorem Statement.head {alone : Expr → Prop} {stmt : Stmt} (h : Statement alone ts stmt) :
    ∃ token rest, ts = token :: rest ∧ beginsStatement token.value = true := by
  cases h with
  | declare hd hts =>
    obtain ⟨token, rest, rfl, htoken⟩ := hd.head
    exact ⟨token, _, hts, htoken⟩
  | store hq hts => cases hq <;> exact ⟨_, _, hts, rfl⟩
  | update hm hts =>
    obtain ⟨a, rest, rfl⟩ := hm.head
    exact ⟨_, _, hts, rfl⟩
  | check _ _ _ hts | repeatRange _ _ _ _ hts | repeatEach _ hts | repeatUntil _ _ hts
  | forLoop _ _ _ _ hts | function _ _ _ hts | give _ hts | display _ hts | error _ hts
  | panic _ hts | skip hts | halt hts | raw hts | rawEnded hts => exact ⟨_, _, hts, rfl⟩
  | expr hk _ _ hts => exact ⟨_, _, hts, by rcases hk with rfl | rfl <;> rfl⟩

/-! ## Parts of statements -/

theorem binding_complete {b : Binding} {qs : List (Located Token)} (h : Qualifier qs b)
    (hqs : s.Passes qs t)
    (hend : t.current.value = .keyword .assign ∨ t.current.value = .keyword .store) :
    binding s = .done b t := by
  rw [binding, bind_of_done (peek_apply s)]
  cases h with
  | plain =>
    obtain rfl := Passes.nil_iff.1 hqs
    rcases hend with hend | hend <;> rw [hend] <;> rfl
  | global =>
    rw [hqs.current_eq]
    exact bind_of_done (advance_of_passes hqs)
  | fixed =>
    rw [hqs.current_eq]
    exact bind_of_done (advance_of_passes hqs)

theorem annotation_complete {type : Option (Located TypeName)} (h : Annotation ts type)
    (hts : s.Passes ts t) (hend : t.current.value ≠ .keyword .as) :
    annotation s = .done type t := by
  rw [ annotation, bind_of_done (isAt_apply _ s)]
  cases h with
  | none =>
    obtain rfl := Passes.nil_iff.1 hts
    rw [if_neg (by simpa using hend)]
    rfl
  | some =>
    obtain ⟨u, has, htype⟩ := hts.uncons
    rw [if_pos (by simp [hts.current_eq]), bind_of_done (advance_of_passes has),
      bind_of_done (advance_of_passes htype)]
    rfl

theorem optionalValue_complete {value : Option Expr} (h : Initial ts value) (hts : s.Passes ts t)
    (hend : t.current.value = .symbol .semicolon) : optionalValue s = .done value t := by
  rw [optionalValue, bind_of_done (isAt_apply _ s)]
  cases h with
  | none =>
    obtain rfl := Passes.nil_iff.1 hts
    rw [if_neg (by simp [hend])]
    rfl
  | some he =>
    obtain ⟨u, hassign, hes⟩ := hts.uncons
    have hread := he.read hes (stops_of_closes (by rw [hend]; rfl))
    rw [if_pos (by simp [hts.current_eq]), bind_of_done (advance_of_passes hassign),
      bind_of_done hread]
    rfl

theorem declaration_complete {d : Declaration} (h : Declares ts d) (hts : s.Passes ts t)
    (hend : t.current.value = .symbol .semicolon) : declaration s = .done d t := by
  obtain @⟨b, qs, w, type, as, value, vs, _, a, c, hq, htype, hvalue, hneeds, rfl⟩ := h
  obtain ⟨u₃, h, hvs⟩ := Passes.append_iff.1 hts
  obtain ⟨u₀, hqs, h⟩ := Passes.append_iff.1 h
  obtain ⟨u₁, hassign, h⟩ := h.uncons
  obtain ⟨u₂, hw, has⟩ := h.uncons
  -- behind the type stands the equals sign of the value, or the semicolon
  have hafter : u₃.current.value ≠ .keyword .as := by
    cases hvalue with
    | none =>
      obtain rfl := Passes.nil_iff.1 hvs
      simp [hend]
    | some => simp [hvs.current_eq]
  have hbinding := binding_complete hq hqs (.inl (by rw [hassign.current_eq]))
  -- the two refusals at the end do not apply to what the grammar derives
  simp only [declaration, bind_eq_done_iff, keyword_done_iff, name_done_iff]
  refine ⟨_, _, hbinding, _, _, hassign, ⟨w, c⟩, _, hw, _, _, annotation_complete htype has hafter,
    _, _, optionalValue_complete hvalue hvs hend, _, _, rfl, ?_⟩
  cases hvalue with
  | none =>
    obtain ⟨htyped, hfree⟩ := hneeds rfl
    rw [if_neg (by simpa using htyped), if_neg (by simpa using hfree)]
    rfl
  | some => rfl

theorem indices_complete {indices : List Expr} (h : Indices ts indices) (hts : s.Passes ts t)
    (hend : t.current.value ≠ .symbol .openBrace) (hn : s.remaining < n) :
    manyUpTo (isAt (.symbol .openBrace)) indexInBraces n s = .done indices t := by
  induction h generalizing s n with
  | nil =>
    obtain rfl := Passes.nil_iff.1 hts
    obtain ⟨n, rfl⟩ := Nat.exists_eq_succ_of_ne_zero (n := n) (by omega)
    exact manyUpTo_stop (by simp [hend])
  | cons he _ ih =>
    obtain ⟨u₂, h, hrest⟩ := Passes.append_iff.1 hts
    obtain ⟨u₁, hopen, hes⟩ := h.uncons
    obtain ⟨u₃, hclose, hrest⟩ := hrest.uncons
    have hlt := hopen.length_add_remaining_le
    have hle := (hes.trans hclose).length_add_remaining_le
    simp only [List.length_singleton] at hlt
    obtain ⟨n, rfl⟩ := Nat.exists_eq_succ_of_ne_zero (n := n) (by omega)
    refine manyUpTo_step (by simp [hopen.current_eq]) ?_ (ih hrest (by omega))
    simp only [indexInBraces, bind_eq_done_iff, symbol_done_iff]
    exact ⟨_, _, advance_of_passes hopen, _, _, he.read hes (stops_of_passes hclose rfl), _, _,
      hclose, rfl⟩

theorem mutation_complete {m : Mutation} (h : Mutates ts m) (hts : s.Passes ts t)
    (hend : closes t.current.value = true) : mutation s = .done m t := by
  obtain @⟨w, indices, is, o, value, vs, _, a, b, c, hindices, hvalue, rfl⟩ := h
  obtain ⟨u₃, h, hrest⟩ := Passes.append_iff.1 hts
  obtain ⟨u₁, hupdate, h⟩ := h.uncons
  obtain ⟨u₂, hw, his⟩ := h.uncons
  obtain ⟨u₄, hassign, hvs⟩ := hrest.uncons
  have hread : many (isAt (.symbol .openBrace)) indexInBraces u₂ = .done indices u₃ :=
    indices_complete hindices his (by simp [hassign.current_eq]) u₂.remaining_lt_budget
  simp only [mutation, bind_eq_done_iff, keyword_done_iff, name_done_iff, symbol_done_iff]
  exact ⟨_, _, hupdate, ⟨w, b⟩, _, hw, _, _, hread, _, _, hassign, _, _,
    hvalue.read hvs (stops_of_closes hend), rfl⟩

theorem condition_complete {a b : Span} (h : Expression o 1 es e)
    (hes : s.Passes (sym .openBracket a :: es) u) (hclose : u.Passes [sym .closeBracket b] t) :
    condition s = .done e t := by
  obtain ⟨v, hopen, hes⟩ := hes.uncons
  simp only [condition, bind_eq_done_iff, symbol_done_iff]
  exact ⟨_, _, hopen, _, _, h.read hes (stops_of_passes hclose rfl), _, _, hclose, rfl⟩

/-! ## Blocks -/

/-- The tokens of a statement are read as the statement. -/
def StatementCompletes (ts : List (Located Token)) (stmt : Stmt) : Prop :=
  ∀ ⦃n : Nat⦄ ⦃s t : ParseState⦄, ts.length ≤ n → s.Passes ts t →
    endsStatement t.current.value = true → statementUpTo n s = .done stmt t

/-- The tokens of statements are read as the statements by any loop that goes on at the beginning of
a statement and has the room to read each. -/
def StatementsComplete (ss : List (Located Token)) (body : List Stmt) : Prop :=
  ∀ ⦃n f : Nat⦄ ⦃s t : ParseState⦄ ⦃more : Parse Bool⦄ ⦃item : Parse Stmt⦄, ss.length ≤ n →
    s.Passes ss t → s.remaining < f →
    (∀ u, beginsStatement u.current.value = true → more u = .done true u) →
    (∀ u, ∃ k, (n ≤ k ∨ u.remaining ≤ k) ∧ item u = statementUpTo k u) →
    more t = .done false t → endsStatement t.current.value = true →
    manyUpTo more item f s = .done body t

theorem StatementsComplete.nil : StatementsComplete [] [] := by
  intro n f s t more item _ hss hf _ _ hstop _
  obtain rfl := Passes.nil_iff.1 hss
  obtain ⟨f, rfl⟩ := Nat.exists_eq_succ_of_ne_zero (n := f) (by omega)
  exact manyUpTo_stop hstop

theorem StatementsComplete.cons {alone : Expr → Prop} {stmt : Stmt} {ss : List (Located Token)}
    {body : List Stmt} (hs : Statement alone ts stmt) (h : StatementCompletes ts stmt)
    (hss : Statements alone ss body) (hbody : StatementsComplete ss body) :
    StatementsComplete (ts ++ ss) (stmt :: body) := by
  intro n f s t more item hlen hpass hf hmore hitem hstop hend
  obtain ⟨u, hts, hrest⟩ := Passes.append_iff.1 hpass
  obtain ⟨token, rest, hcons, htoken⟩ := hs.head
  obtain ⟨k, hk, hrun⟩ := hitem s
  have hle := hts.length_add_remaining_le
  have hpos : 0 < ts.length := by simp [hcons]
  simp only [List.length_append] at hlen
  -- what follows is the next statement, or the end of them all
  have hnext : endsStatement u.current.value = true := by
    cases hss with
    | nil =>
      obtain rfl := Passes.nil_iff.1 hrest
      exact hend
    | cons hs' _ =>
      obtain ⟨token', rest', rfl, htoken'⟩ := hs'.head
      rw [hrest.current_eq]
      exact endsStatement_of_begins htoken'
  have hread : item s = .done stmt u := by
    rw [hrun]
    exact h (by omega) hts hnext
  obtain ⟨f, rfl⟩ := Nat.exists_eq_succ_of_ne_zero (n := f) (by omega)
  refine manyUpTo_step (hmore s ?_) hread
    (hbody (n := n) (by omega) hrest (by omega) hmore hitem hstop hend)
  rw [hcons] at hts
  rw [hts.current_eq]
  exact htoken

theorem blockGoesOn_of_begins (h : beginsStatement s.current.value = true) :
    blockGoesOn s = .done true s := by
  rw [blockGoesOn, bind_of_done (peek_apply s)]
  generalize s.current.value = value at h
  split
  · cases h
  · cases h
  · rfl

/-- The tokens of a block are read as the block, whatever follows. -/
def BlockCompletes (bs : List (Located Token)) (body : List Stmt) : Prop :=
  ∀ ⦃n : Nat⦄ ⦃s t : ParseState⦄, bs.length ≤ n + 1 → s.Passes bs t →
    block (statementUpTo n) s = .done body t

theorem StatementsComplete.block {body : List Stmt} {ss : List (Located Token)} {a b : Span}
    (h : StatementsComplete ss body) (hts : ts = sym .openBrace a :: ss ++ [sym .closeBrace b]) :
    BlockCompletes ts body := by
  intro n s t hlen hpass
  subst hts
  simp only [List.cons_append, List.length_cons, List.length_append, List.length_nil] at hlen
  obtain ⟨v, hss, hclose⟩ := Passes.append_iff.1 hpass
  obtain ⟨u, hopen, hss⟩ := hss.uncons
  have hstop : blockGoesOn v = .done false v := by
    rw [blockGoesOn, bind_of_done (peek_apply v), hclose.current_eq]
    rfl
  have hread : many blockGoesOn (statementUpTo n) u = .done body v :=
    h (by omega) hss u.remaining_lt_budget (fun _ => blockGoesOn_of_begins)
      (fun _ => ⟨n, .inl (Nat.le_refl _), rfl⟩) hstop (by rw [hclose.current_eq]; rfl)
  simp only [Parse.block, bind_eq_done_iff, symbol_done_iff]
  exact ⟨_, _, hopen, _, _, hread, _, _, hclose, rfl⟩

/-! ## Checks -/

theorem guarded_complete {body : List Stmt} {bs : List (Located Token)} {a b c : Span}
    (he : Expression o 1 es e) (hbody : BlockCompletes bs body) (hlen : bs.length ≤ n + 1)
    (h : s.Passes (kw .check a :: sym .openBracket b :: es ++ sym .closeBracket c :: bs) t) :
    guarded (statementUpTo n) s = .done (e, body) t := by
  obtain ⟨u₂, h, hrest⟩ := Passes.append_iff.1 h
  obtain ⟨u₁, hcheck, hes⟩ := h.uncons
  obtain ⟨u₃, hclose, hbs⟩ := hrest.uncons
  simp only [guarded, bind_eq_done_iff, keyword_done_iff]
  exact ⟨_, _, hcheck, _, _, condition_complete he hes hclose, _, _, hbody hlen hbs, rfl⟩

/-- The tokens behind the first block of a check are read as its alternatives. -/
def AlternativesComplete (os : List (Located Token)) (other : Otherwise) : Prop :=
  ∀ ⦃n : Nat⦄ ⦃s t : ParseState⦄, os.length ≤ n → s.Passes os t →
    endsStatement t.current.value = true → ∃ others last u,
      other = others.foldr (fun (test, body) next => .check test body next) last ∧
      (∀ f, s.remaining < f → manyUpTo checkGoesOn
        (do let _ ← advance; guarded (statementUpTo n)) f s = .done others u) ∧
      lastBlock (statementUpTo n) u = .done last t

theorem checkGoesOn_eq_false (h : s.current.value ≠ .keyword .or) :
    checkGoesOn s = .done false s := by
  rw [checkGoesOn, bind_of_done (isAt_apply _ s), if_neg (by simpa using h)]
  rfl

theorem AlternativesComplete.nothing : AlternativesComplete [] .nothing := by
  intro n s t _ hpass hend
  obtain rfl := Passes.nil_iff.1 hpass
  refine ⟨[], .nothing, s, rfl, fun f hf => ?_, ?_⟩
  · obtain ⟨f, rfl⟩ := Nat.exists_eq_succ_of_ne_zero (n := f) (by omega)
    exact manyUpTo_stop (checkGoesOn_eq_false fun heq => by rw [heq] at hend; cases hend)
  · have halt : s.current.value ≠ .keyword .alt := fun heq => by rw [heq] at hend; cases hend
    rw [lastBlock, bind_of_done (isAt_apply _ s), if_neg (by simpa using halt)]
    rfl

theorem AlternativesComplete.block {body : List Stmt} {bs : List (Located Token)} {a : Span}
    (h : BlockCompletes bs body) (hts : ts = kw .alt a :: bs) :
    AlternativesComplete ts (.block body) := by
  intro n s t hlen hpass _
  subst hts
  simp only [List.length_cons] at hlen
  obtain ⟨u, halt, hbs⟩ := hpass.uncons
  refine ⟨[], .block body, s, rfl, fun f hf => ?_, ?_⟩
  · obtain ⟨f, rfl⟩ := Nat.exists_eq_succ_of_ne_zero (n := f) (by omega)
    exact manyUpTo_stop (checkGoesOn_eq_false (by simp [hpass.current_eq]))
  · rw [lastBlock, bind_of_done (isAt_apply _ s), if_pos (by simp [hpass.current_eq]),
      bind_of_done (advance_of_passes halt), bind_of_done (h (by omega) hbs)]
    rfl

theorem AlternativesComplete.check {body : List Stmt} {bs ns : List (Located Token)}
    {next : Otherwise} {a b c d : Span} (he : Expression o 1 es e) (hbody : BlockCompletes bs body)
    (hnext : AlternativesComplete ns next)
    (hts : ts = kw .or a :: kw .check b :: sym .openBracket c :: es ++ sym .closeBracket d :: bs ++
      ns) : AlternativesComplete ts (.check e body next) := by
  intro n s t hlen hpass hend
  subst hts
  simp only [List.cons_append, List.length_cons, List.length_append] at hlen
  obtain ⟨v, h, hns⟩ := Passes.append_iff.1 hpass
  obtain ⟨u, hor, hguarded⟩ := h.uncons
  obtain ⟨others, last, w, rfl, hmany, hlast⟩ := hnext (n := n) (by omega) hns hend
  refine ⟨(e, body) :: others, last, w, rfl, fun f hf => ?_, hlast⟩
  have hlt := h.length_add_remaining_le
  simp only [List.cons_append, List.length_cons] at hlt
  obtain ⟨f, rfl⟩ := Nat.exists_eq_succ_of_ne_zero (n := f) (by omega)
  refine manyUpTo_step ?_ ?_ (hmany f (by omega))
  · rw [checkGoesOn, bind_of_done (isAt_apply _ s), if_pos (by simp [hor.current_eq]),
      bind_of_done (lookahead_of_passes hor), hguarded.current_eq]
    rfl
  · rw [bind_of_done (advance_of_passes hor)]
    exact guarded_complete he hbody (by omega) hguarded

/-! ## Statements by their form -/

namespace StatementCompletes

variable {a b c d : Span} {body : List Stmt} {bs : List (Located Token)}

/-- A statement is read if its form is. -/
theorem of_form {form : Span → Stmt} (hne : ts ≠ [])
    (h : ∀ n s t, ts.length ≤ n + 1 → s.Passes ts t → endsStatement t.current.value = true →
      statementForm (statementUpTo n) s = .done form t) :
    StatementCompletes ts (form (extent ts)) := by
  intro n s t hlen hts hend
  have hpos := List.length_pos_iff.2 hne
  obtain ⟨n, rfl⟩ := Nat.exists_eq_succ_of_ne_zero (n := n) (by omega)
  rw [statementUpTo, bind_of_done (here_apply s), bind_of_done (h n s t hlen hts hend),
    bind_of_done (lastStop_apply t), hts.extent_eq hne]
  rfl

/-- A declaration and a stored text are told apart by the keyword behind the qualifier. -/
theorem statementForm_of_qualifier {sub : Parse Stmt} {binding : Binding} {k : Keyword}
    {form : Parse (Span → Stmt)} {qs rest : List (Located Token)} (hq : Qualifier qs binding)
    (hk : k = .assign ∧ form = declareForm ∨ k = .store ∧ form = storeForm)
    (h : s.Passes (qs ++ kw k a :: rest) t) : statementForm sub s = form s := by
  rw [statementForm, bind_of_done (peek_apply s)]
  cases hq with
  | plain =>
    rw [h.current_eq]
    rcases hk with ⟨rfl, rfl⟩ | ⟨rfl, rfl⟩ <;> rfl
  | global | fixed =>
    obtain ⟨u, hqual, hrest⟩ := h.uncons
    rw [h.current_eq]
    simp only
    rw [qualifiedForm, bind_of_done (lookahead_of_passes hqual), hrest.current_eq]
    rcases hk with ⟨rfl, rfl⟩ | ⟨rfl, rfl⟩ <;> rfl

theorem declare {d : Declaration} {ds : List (Located Token)} (h : Declares ds d)
    (hts : ts = ds ++ [sym .semicolon a]) : StatementCompletes ts (.declare d (extent ts)) := by
  refine of_form (by simp [hts]) fun n s t _ hpass _ => ?_
  subst hts
  obtain ⟨u, hds, hsemi⟩ := Passes.append_iff.1 hpass
  have hform : declareForm s = .done (.declare d) t := by
    simp only [declareForm, bind_eq_done_iff, symbol_done_iff]
    exact ⟨_, _, declaration_complete h hds (by rw [hsemi.current_eq]), _, _, hsemi, rfl⟩
  obtain ⟨hq, -, -, -, rfl⟩ := h
  rw [List.append_assoc] at hds
  rw [statementForm_of_qualifier hq (.inl ⟨rfl, rfl⟩) hds]
  exact hform

theorem store {binding : Binding} {w c : String} {q : Quote} {x y z v i : Span}
    {qs : List (Located Token)} (hq : Qualifier qs binding)
    (hts : ts = qs ++ [kw .store x, word w y, sym .assign z, ⟨.text c q, v⟩, sym .semicolon i]) :
    StatementCompletes ts (.store ⟨binding, w, c, q, v⟩ (extent ts)) := by
  refine of_form (by simp [hts]) fun n s t _ hpass _ => ?_
  subst hts
  rw [statementForm_of_qualifier hq (.inr ⟨rfl, rfl⟩) hpass]
  obtain ⟨u₁, hqs, h⟩ := Passes.append_iff.1 hpass
  obtain ⟨u₂, hstore, h⟩ := h.uncons
  obtain ⟨u₃, hw, h⟩ := h.uncons
  obtain ⟨u₄, hassign, h⟩ := h.uncons
  obtain ⟨u₅, htext, hsemi⟩ := h.uncons
  have hbinding := binding_complete hq hqs (.inr (by rw [hstore.current_eq]))
  simp only [storeForm, storing, bind_eq_done_iff, keyword_done_iff, name_done_iff,
    symbol_done_iff]
  refine ⟨_, _, ⟨_, _, hbinding, _, _, hstore, ⟨w, y⟩, _, hw, _, _, hassign, _, _,
    advance_of_passes htext, ?_⟩, rfl⟩
  exact bind_eq_done_iff.2 ⟨_, _, symbol_done_iff.2 hsemi, rfl⟩

theorem update {m : Mutation} {ms : List (Located Token)} (h : Mutates ms m)
    (hts : ts = ms ++ [sym .semicolon a]) : StatementCompletes ts (.update m (extent ts)) := by
  refine of_form (by simp [hts]) fun n s t _ hpass _ => ?_
  subst hts
  obtain ⟨u, hms, hsemi⟩ := Passes.append_iff.1 hpass
  have hread := mutation_complete h hms (by rw [hsemi.current_eq]; rfl)
  obtain ⟨a, rest, rfl⟩ := h.head
  rw [statementForm, bind_of_done (peek_apply s), hms.current_eq]
  simp only [updateForm, bind_eq_done_iff, symbol_done_iff]
  exact ⟨_, _, hread, _, _, hsemi, rfl⟩

theorem check {other : Otherwise} {os : List (Located Token)} (he : Expression o 1 es e)
    (hbody : BlockCompletes bs body) (hother : AlternativesComplete os other)
    (hts : ts = kw .check a :: sym .openBracket b :: es ++ sym .closeBracket c :: bs ++ os) :
    StatementCompletes ts (.check e body other (extent ts)) := by
  refine of_form (by simp [hts]) fun n s t hlen hpass hend => ?_
  subst hts
  simp only [List.cons_append, List.length_cons, List.length_append] at hlen
  obtain ⟨u, hfirst, hos⟩ := Passes.append_iff.1 hpass
  obtain ⟨others, last, v, rfl, hmany, hlast⟩ := hother (n := n) (by omega) hos hend
  rw [statementForm, bind_of_done (peek_apply s), hpass.current_eq]
  simp only
  rw [checkForm, bind_of_done (guarded_complete he hbody (by omega) hfirst)]
  simp only [bind_eq_done_iff]
  exact ⟨_, _, hmany _ u.remaining_lt_budget, _, _, hlast, rfl⟩

theorem repeatEach {x xs : String} {f i : Span} (hbody : BlockCompletes bs body)
    (hts : ts = kw .repeat_ a :: sym .openBracket b :: word x c :: kw .in_ d :: word xs f ::
      sym .closeBracket i :: bs) : StatementCompletes ts (.repeatEach x xs body (extent ts)) := by
  refine of_form (by simp [hts]) fun n s t hlen hpass _ => ?_
  subst hts
  simp only [List.length_cons] at hlen
  obtain ⟨u₁, hrepeat, h⟩ := hpass.uncons
  obtain ⟨u₂, hopen, h'⟩ := h.uncons
  obtain ⟨u₃, hx, h'⟩ := h'.uncons
  obtain ⟨u₄, hin, h'⟩ := h'.uncons
  obtain ⟨u₅, hxs, h'⟩ := h'.uncons
  obtain ⟨u₆, hclose, hbs⟩ := h'.uncons
  -- a name with a bracket behind it is a collection
  have hover : overCollection u₄ = .done true u₄ := by
    rw [overCollection, bind_of_done (peek_apply u₄), hxs.current_eq]
    simp only
    rw [bind_of_done (lookahead_of_passes hxs), hclose.current_eq]
    rfl
  rw [statementForm, bind_of_done (peek_apply s), hpass.current_eq]
  simp only
  rw [bind_of_done (lookahead_of_passes hrepeat), h.current_eq]
  simp only [repeatForm, bind_eq_done_iff, keyword_done_iff, symbol_done_iff, name_done_iff,
    hinting_done_iff]
  refine ⟨_, _, hrepeat, _, _, hopen, ⟨x, c⟩, _, hx, _, _, hin, _, _, hover, ?_⟩
  simp only [if_true, bind_eq_done_iff, name_done_iff, symbol_done_iff]
  exact ⟨⟨xs, f⟩, _, hxs, _, _, hclose, _, _, hbody (by omega) hbs, rfl⟩

/-- The start of a range is no collection: behind a lone name stands `to`. -/
theorem overCollection_range {as : List (Located Token)} (he : Expression o 1 as e)
    (has : s.Passes as u) (hto : u.Passes (kw .to a :: ts) t) :
    overCollection s = .done false s := by
  obtain ⟨token, rest, rfl, -⟩ := he.head
  rw [overCollection, bind_of_done (peek_apply s), has.current_eq]
  obtain ⟨v, hfirst, hrest⟩ := has.uncons
  obtain ⟨value, place⟩ := token
  simp only
  split
  · rw [bind_of_done (lookahead_of_passes hfirst)]
    cases rest with
    | nil =>
      obtain rfl := Passes.nil_iff.1 hrest
      rw [hto.current_eq]
      rfl
    | cons second rest =>
      -- a longer expression goes on with something that is no bracket
      have hsecond := he.second rfl
      rw [hrest.current_eq]
      have hne : second.value ≠ .symbol .closeBracket := by
        intro heq
        rw [heq] at hsecond
        cases hsecond
      simp [hne]
  · rfl

theorem rangeStep_complete {step : Expr} {cs : List (Located Token)} (h : Step c cs step)
    (hcs : s.Passes cs u) (hclose : u.Passes [sym .closeBracket c] t) :
    rangeStep s = .done step u := by
  rw [rangeStep, bind_of_done (isAt_apply _ s)]
  cases h with
  | written he =>
    obtain ⟨v, hcomma, hes⟩ := hcs.uncons
    rw [if_pos (by simp [hcs.current_eq]), bind_of_done (advance_of_passes hcomma)]
    exact he.read hes (stops_of_passes hclose rfl)
  | omitted =>
    obtain rfl := Passes.nil_iff.1 hcs
    rw [if_neg (by simp [hclose.current_eq]), bind_of_done (here_apply s), hclose.current_eq]
    rfl

theorem repeatRange {x : String} {o' : Bool} {first last step : Expr} {f i : Span}
    {as ls cs : List (Located Token)} (hfirst : Expression o 1 as first)
    (hlast : Expression o' 1 ls last) (hstep : Step i cs step) (hbody : BlockCompletes bs body)
    (hts : ts = kw .repeat_ a :: sym .openBracket b :: word x c :: kw .in_ d :: as ++
      kw .to f :: ls ++ cs ++ sym .closeBracket i :: bs) :
    StatementCompletes ts (.repeatRange x first last step body (extent ts)) := by
  refine of_form (by simp [hts]) fun n s t hlen hpass _ => ?_
  subst hts
  simp only [List.cons_append, List.length_cons, List.length_append] at hlen
  obtain ⟨u₈, h, hrest⟩ := Passes.append_iff.1 hpass
  obtain ⟨u₇, h, hcs⟩ := Passes.append_iff.1 h
  obtain ⟨u₅, h, hls⟩ := Passes.append_iff.1 h
  obtain ⟨u₁, hrepeat, h⟩ := h.uncons
  obtain ⟨u₂, hopen, h'⟩ := h.uncons
  obtain ⟨u₃, hx, h'⟩ := h'.uncons
  obtain ⟨u₄, hin, has⟩ := h'.uncons
  obtain ⟨u₆, hto, hls'⟩ := hls.uncons
  obtain ⟨u₉, hclose, hbs⟩ := hrest.uncons
  -- behind the end of the range stands the comma of its step, or the bracket
  have hafter : closes u₇.current.value = true := by
    cases hstep with
    | written _ => rw [hcs.current_eq]; rfl
    | omitted =>
      obtain rfl := Passes.nil_iff.1 hcs
      rw [hclose.current_eq]
      rfl
  rw [statementForm, bind_of_done (peek_apply s), hpass.current_eq]
  simp only
  rw [bind_of_done (lookahead_of_passes hrepeat), h.current_eq]
  simp only [repeatForm, bind_eq_done_iff, keyword_done_iff, symbol_done_iff, name_done_iff,
    hinting_done_iff]
  refine ⟨_, _, hrepeat, _, _, hopen, ⟨x, c⟩, _, hx, _, _, hin, _, _,
    overCollection_range hfirst has hls, ?_⟩
  simp only [Bool.false_eq_true, if_false, bind_eq_done_iff, keyword_done_iff, symbol_done_iff,
    hinting_done_iff]
  exact ⟨_, _, hfirst.read has (stops_of_passes hto rfl), _, _, hto, _, _,
    hlast.read hls' (stops_of_closes hafter), _, _, rangeStep_complete hstep hcs hclose, _, _,
    hclose, _, _, hbody (by omega) hbs, rfl⟩

theorem repeatUntil (he : Expression o 1 es e) (hbody : BlockCompletes bs body)
    (hts : ts = kw .repeat_ a :: kw .until_ b :: sym .openBracket c :: es ++
      sym .closeBracket d :: bs) : StatementCompletes ts (.repeatUntil e body (extent ts)) := by
  refine of_form (by simp [hts]) fun n s t hlen hpass _ => ?_
  subst hts
  simp only [List.cons_append, List.length_cons, List.length_append] at hlen
  obtain ⟨u₃, h, hrest⟩ := Passes.append_iff.1 hpass
  obtain ⟨u₁, hrepeat, h⟩ := h.uncons
  obtain ⟨u₂, huntil, hes⟩ := h.uncons
  obtain ⟨u₄, hclose, hbs⟩ := hrest.uncons
  rw [statementForm, bind_of_done (peek_apply s), hpass.current_eq]
  simp only
  rw [bind_of_done (lookahead_of_passes hrepeat), huntil.current_eq]
  simp only [untilForm, bind_eq_done_iff, keyword_done_iff]
  exact ⟨_, _, hrepeat, _, _, huntil, _, _, condition_complete he hes hclose, _, _,
    hbody (by omega) hbs, rfl⟩

theorem loopStart_complete {start : LoopStart} (h : Starts ts start) (hts : s.Passes ts t)
    (hend : t.current.value = .symbol .semicolon) : loopStart s = .done start t := by
  rw [loopStart, bind_of_done (peek_apply s)]
  cases h with
  | declare h =>
    have hread := declaration_complete h hts hend
    obtain ⟨hq, -, -, -, rfl⟩ := h
    cases hq <;> (rw [hts.current_eq]; exact bind_of_done hread)
  | update h =>
    have hread := mutation_complete h hts (by rw [hend]; rfl)
    obtain ⟨a, rest, rfl⟩ := h.head
    rw [hts.current_eq]
    exact bind_of_done hread
  | @name w a =>
    have hread : name .loopVariable s = .done ⟨w, a⟩ t := name_done_iff.2 hts
    rw [hts.current_eq]
    exact bind_of_done hread

theorem located_complete {α : Type} {p : Parse α} {value : α} (h : p s = .done value t)
    (hts : s.Passes ts t) (hne : ts ≠ []) : located p s = .done ⟨value, extent ts⟩ t := by
  rw [located, bind_of_done (here_apply s), bind_of_done h, bind_of_done (lastStop_apply t),
    hts.extent_eq hne]
  rfl

theorem forLoop {start : LoopStart} {increment : Mutation} {ss is : List (Located Token)} {f : Span}
    (hstart : Starts ss start) (he : Expression o 1 es e) (hinc : Mutates is increment)
    (hbody : BlockCompletes bs body)
    (hts : ts = kw .for_ a :: sym .openBracket b :: ss ++ sym .semicolon c :: es ++
      sym .semicolon d :: is ++ sym .closeBracket f :: bs) :
    StatementCompletes ts
      (.forLoop ⟨start, extent ss⟩ e ⟨increment, extent is⟩ body (extent ts)) := by
  refine of_form (by simp [hts]) fun n s t hlen hpass _ => ?_
  subst hts
  simp only [List.cons_append, List.length_cons, List.length_append] at hlen
  obtain ⟨u₇, h, hrest⟩ := Passes.append_iff.1 hpass
  obtain ⟨u₅, h, his⟩ := Passes.append_iff.1 h
  obtain ⟨u₃, h, hes⟩ := Passes.append_iff.1 h
  obtain ⟨u₁, hfor, h⟩ := h.uncons
  obtain ⟨u₂, hopen, hss⟩ := h.uncons
  obtain ⟨u₄, hsemi, hes⟩ := hes.uncons
  obtain ⟨u₆, hsemi', his⟩ := his.uncons
  obtain ⟨u₈, hclose, hbs⟩ := hrest.uncons
  have hread := loopStart_complete hstart hss (by rw [hsemi.current_eq])
  have hread' := mutation_complete hinc his (by rw [hclose.current_eq]; rfl)
  rw [statementForm, bind_of_done (peek_apply s), hpass.current_eq]
  simp only [forForm, bind_eq_done_iff, keyword_done_iff, symbol_done_iff]
  exact ⟨_, _, hfor, _, _, hopen, _, _, located_complete hread hss hstart.ne_nil, _, _, hsemi, _, _,
    he.read hes (stops_of_passes hsemi' rfl), _, _, hsemi', _, _,
    located_complete hread' his hinc.ne_nil, _, _, hclose, _, _, hbody (by omega) hbs, rfl⟩

theorem function {f : String} {params : List String} {returns : Option (Located TypeName)}
    {ps as : List (Located Token)} (hps : Names ps params) (hreturns : Annotation as returns)
    (hbody : BlockCompletes bs body) (hbs : ∃ x rest, bs = sym .openBrace x :: rest)
    (hts : ts = kw .make a :: word f b :: sym .openBracket c :: ps ++ sym .closeBracket d :: as ++
      bs) : StatementCompletes ts (.function f params returns body (extent ts)) := by
  refine of_form (by simp [hts]) fun n s t hlen hpass _ => ?_
  subst hts
  simp only [List.cons_append, List.length_cons, List.length_append] at hlen
  obtain ⟨u₆, h, hblock⟩ := Passes.append_iff.1 hpass
  obtain ⟨u₄, h, has⟩ := Passes.append_iff.1 h
  obtain ⟨u₁, hmake, h⟩ := h.uncons
  obtain ⟨u₂, hf, h⟩ := h.uncons
  obtain ⟨u₃, hopen, hnames⟩ := h.uncons
  obtain ⟨u₅, hclose, has⟩ := has.uncons
  obtain ⟨found, hmap, hfound⟩ := hps.commaList .parameter hnames
    (by rw [hclose.current_eq]) (by simp)
  -- the block behind the type begins with a brace, so the type ends there
  have hread := annotation_complete hreturns has (by
    obtain ⟨x, rest, rfl⟩ := hbs
    simp [hblock.current_eq])
  rw [statementForm, bind_of_done (peek_apply s), hpass.current_eq]
  simp only [functionForm, bind_eq_done_iff, keyword_done_iff, symbol_done_iff, name_done_iff]
  exact ⟨_, _, hmake, ⟨f, b⟩, _, hf, _, _, hopen, _, _, hfound, _, _, hclose, _, _, hread, _, _,
    hbody (by omega) hblock, by rw [hmap]; rfl⟩

/-- A keyword with an expression, whichever keyword it is. -/
theorem value {k : Keyword} {make : Expr → Span → Stmt} (he : Expression o 1 es e)
    (hform : ∀ (sub : Parse Stmt) (r : ParseState), r.current.value = .keyword k →
      statementForm sub r = valueForm make r)
    (hts : ts = kw k a :: es ++ [sym .semicolon b]) :
    StatementCompletes ts (make e (extent ts)) := by
  refine of_form (by simp [hts]) fun n s t _ hpass _ => ?_
  subst hts
  rw [hform _ s (by rw [hpass.current_eq])]
  obtain ⟨u₂, h, hsemi⟩ := Passes.append_iff.1 hpass
  obtain ⟨u₁, hk, hes⟩ := h.uncons
  simp only [valueForm, bind_eq_done_iff, symbol_done_iff]
  exact ⟨_, _, advance_of_passes hk, _, _, he.read hes (stops_of_passes hsemi rfl), _, _, hsemi,
    rfl⟩

/-- A keyword alone, whichever it is. -/
theorem bare {k : Keyword} {make : Span → Stmt}
    (hform : ∀ (sub : Parse Stmt) (r : ParseState), r.current.value = .keyword k →
      statementForm sub r = bareForm make r)
    (hts : ts = [kw k a, sym .semicolon b]) : StatementCompletes ts (make (extent ts)) := by
  refine of_form (by simp [hts]) fun n s t _ hpass _ => ?_
  subst hts
  rw [hform _ s (by rw [hpass.current_eq])]
  obtain ⟨u, hk, hsemi⟩ := hpass.uncons
  simp only [bareForm, bind_eq_done_iff, symbol_done_iff]
  exact ⟨_, _, advance_of_passes hk, _, _, hsemi, rfl⟩

theorem raw {code : String} (hts : ts = [⟨.raw code, a⟩]) :
    StatementCompletes ts (.raw code (extent ts)) := by
  refine of_form (by simp [hts]) fun n s t _ hpass hend => ?_
  subst hts
  have hne : t.current.value ≠ .symbol .semicolon := fun heq => by rw [heq] at hend; cases hend
  rw [statementForm, bind_of_done (peek_apply s), hpass.current_eq]
  simp only
  rw [rawForm, bind_of_done (advance_of_passes hpass), bind_of_done (isAt_apply _ t),
    if_neg (by simpa using hne)]
  rfl

theorem rawEnded {code : String} (hts : ts = [⟨.raw code, a⟩, sym .semicolon b]) :
    StatementCompletes ts (.raw code (extent ts)) := by
  refine of_form (by simp [hts]) fun n s t _ hpass _ => ?_
  subst hts
  obtain ⟨u, hraw, hsemi⟩ := hpass.uncons
  rw [statementForm, bind_of_done (peek_apply s), hpass.current_eq]
  simp only
  rw [rawForm, bind_of_done (advance_of_passes hraw), bind_of_done (isAt_apply _ u),
    if_pos (by simp [hsemi.current_eq]), bind_of_done (advance_of_passes hsemi)]
  rfl

theorem expr {k : Keyword} (hk : k = .call ∨ k = .method)
    (he : Expression o 1 (kw k a :: es) e) (hts : ts = kw k a :: es ++ [sym .semicolon b]) :
    StatementCompletes ts (.expr e (extent ts)) := by
  refine of_form (by simp [hts]) fun n s t _ hpass _ => ?_
  subst hts
  have hform : statementForm (statementUpTo n) s = exprForm s := by
    rw [statementForm, bind_of_done (peek_apply s), hpass.current_eq]
    rcases hk with rfl | rfl <;> rfl
  obtain ⟨u, hes, hsemi⟩ := Passes.append_iff.1 hpass
  rw [hform]
  simp only [exprForm, bind_eq_done_iff, symbol_done_iff]
  exact ⟨_, _, he.read hes (stops_of_passes hsemi rfl), _, _, hsemi, rfl⟩

end StatementCompletes

/-! ## The induction -/

theorem Block.head {alone : Expr → Prop} {body : List Stmt} (h : Block alone ts body) :
    ∃ a rest, ts = sym .openBrace a :: rest := by
  obtain ⟨-, rfl⟩ := h
  exact ⟨_, _, rfl⟩

mutual

theorem Statement.completes {alone : Expr → Prop} {ts : List (Located Token)} {stmt : Stmt} :
    Statement alone ts stmt → StatementCompletes ts stmt
  | .declare hd hts => .declare hd hts
  | .store hq hts => .store hq hts
  | .update hm hts => .update hm hts
  | .check he hb ho hts => .check he hb.completes ho.completes hts
  | .repeatRange hf hl hs hb hts => .repeatRange hf hl hs hb.completes hts
  | .repeatEach hb hts => .repeatEach hb.completes hts
  | .repeatUntil he hb hts => .repeatUntil he hb.completes hts
  | .forLoop hs he hi hb hts => .forLoop hs he hi hb.completes hts
  | .function hp hr hb hts => .function hp hr hb.completes hb.head hts
  | .give he hts | .display he hts | .error he hts | .panic he hts =>
    .value he (fun sub r hr => by rw [statementForm, bind_of_done (peek_apply r), hr]) hts
  | .skip hts | .halt hts =>
    .bare (fun sub r hr => by rw [statementForm, bind_of_done (peek_apply r), hr]) hts
  | .raw hts => .raw hts
  | .rawEnded hts => .rawEnded hts
  | .expr hk he _ hts => .expr hk he hts

theorem Block.completes {alone : Expr → Prop} {ts : List (Located Token)} {body : List Stmt} :
    Block alone ts body → BlockCompletes ts body
  | .mk hs hts => hs.completes.block hts

theorem Alternatives.completes {alone : Expr → Prop} {ts : List (Located Token)}
    {other : Otherwise} : Alternatives alone ts other → AlternativesComplete ts other
  | .nothing => .nothing
  | .check he hb hn hts => .check he hb.completes hn.completes hts
  | .block hb hts => .block hb.completes hts

theorem Statements.completes {alone : Expr → Prop} {ts : List (Located Token)}
    {body : List Stmt} : Statements alone ts body → StatementsComplete ts body
  | .nil => .nil
  | .cons hs hss => .cons hs hs.completes hss hss.completes

end

/-- The tokens of a program are read as the program, if the end of the file follows them. -/
theorem Statements.read {alone : Expr → Prop} {p : List Stmt} (h : Statements alone ts p)
    (hts : s.Passes ts t) (hend : t.current.value = .endOfFile) : program s = .done p t := by
  refine h.completes (n := ts.length) (Nat.le_refl _) hts s.remaining_lt_budget ?_ ?_ ?_ ?_
  · intro u hu
    have hne : u.current.value ≠ .endOfFile := fun heq => by rw [heq] at hu; cases hu
    rw [bind_of_done (isAt_apply _ u)]
    simp [hne]
  · exact fun u => ⟨u.budget, .inr (Nat.le_of_lt u.remaining_lt_budget), rfl⟩
  · rw [bind_of_done (isAt_apply _ t), hend]
    rfl
  · rw [hend]
    rfl

end Resin.Grammar
