import Resin.Proofs.Script.WellFormed

/-!
# What scripts fail with

A program without a script fails with an error of one of its statements
(`exists_faults_of_programScript`). The errors of a statement are those of its declaration, of its
expressions, and of the text that it compiles with regions. In such a text a bracket may be left
open, a region may be empty, or the expression in a region may fail; the error of that expression is
moved by the offset of the region.
-/

namespace Resin

/-! ## Computations that fail -/

/-- Every error that a computation ends with is one of `P`. -/
def FailsOnly {α ε : Type} (P : ε → Prop) (x : Except ε α) : Prop :=
  ∀ e, x = .error e → P e

namespace FailsOnly

variable {α β ε : Type} {P Q : ε → Prop} {x : Except ε α}

theorem ok (a : α) : FailsOnly P (.ok a) := by
  intro e h
  cases h

theorem error {e : ε} (h : P e) : FailsOnly P (.error e : Except ε α) := by
  intro e' h'
  cases h'
  exact h

theorem bind {f : α → Except ε β} (hx : FailsOnly P x)
    (hf : ∀ a, x = .ok a → FailsOnly P (f a)) : FailsOnly P (x >>= f) := by
  cases x with
  | error e => exact error (hx e rfl)
  | ok a => exact hf a rfl

/-- A computation behind which nothing fails. -/
theorem bind_pure {f : α → β} (hx : FailsOnly P x) : FailsOnly P (x >>= fun a => pure (f a)) :=
  hx.bind fun a _ => ok (f a)

theorem mono (hx : FailsOnly P x) (h : ∀ e, P e → Q e) : FailsOnly Q x :=
  fun e he => h e (hx e he)

theorem mapM {f : α → Except ε β} {as : List α} (h : ∀ a ∈ as, FailsOnly P (f a)) :
    FailsOnly P (as.mapM f) := by
  induction as with
  | nil => exact ok []
  | cons a as ih =>
    rw [List.mapM_cons]
    refine (h a (List.mem_cons_self ..)).bind fun b _ => ?_
    exact (ih fun a' ha' => h a' (List.mem_cons_of_mem a ha')).bind_pure

end FailsOnly

/-! ## Texts with regions -/

/-- An error in a text with regions that starts at `offset`. -/
inductive Segment.Fault (text : String) (offset : Nat) : Error → Prop
  | unmatched {e : Error} : split text offset = .error e → Fault text offset e
  | empty {segments : List Segment} {o : Nat} :
    split text offset = .ok segments → .region "" o ∈ segments →
    Fault text offset ⟨.emptyRegion, ⟨o - 1, o + 1⟩, none⟩
  | inside {segments : List Segment} {r : String} {o : Nat} {e : Error} :
    split text offset = .ok segments → .region r o ∈ segments → r ≠ "" →
    regionScript r 0 = .error e → Fault text offset (e.shift o)

/-- The error of a region at an offset is its error at the start, moved by the offset. -/
theorem regionScript_eq_error {r : String} {o : Nat} {e : Error} (hr : r ≠ "")
    (h : regionScript r o = .error e) : ∃ e', regionScript r 0 = .error e' ∧ e = e'.shift o := by
  have hempty : r.isEmpty = false := by simpa using hr
  unfold regionScript at h ⊢
  rw [hempty] at h ⊢
  cases hscript : expressionScript r with
  | ok f =>
    rw [hscript] at h
    cases h
  | error e' =>
    rw [hscript] at h
    cases h
    exact ⟨e'.shift 0, rfl, rfl⟩

theorem failsOnly_templateScript (text : String) (offset : Nat) :
    FailsOnly (Segment.Fault text offset) (templateScript text offset) := by
  unfold templateScript
  refine .bind (fun e h => .unmatched h) fun segments hsegments => ?_
  refine (FailsOnly.mapM fun segment hsegment => ?_).bind_pure
  cases segment with
  | text content => exact .ok _
  | region r o =>
    refine FailsOnly.bind_pure fun e h => ?_
    by_cases hr : r = ""
    · subst hr
      cases h
      exact .empty hsegments hsegment
    · obtain ⟨e', he', rfl⟩ := regionScript_eq_error hr h
      exact .inside hsegments hsegment hr he'

/-! ## Statements -/

/-- The content and the span of a stored text, if its regions are compiled. -/
def Store.interpolated? (s : Store) : Option (String × Span) :=
  if s.quote = .backtick then some (s.content, s.contentSpan) else none

/-- The content and the span of a printed text, if its regions are compiled. -/
def Expr.interpolated? : Expr → Option (String × Span)
  | .text content _ span => if content.toList.contains '[' then some (content, span) else none
  | _ => none

namespace Stmt

/-- The declaration that a statement makes, where its errors are reported. -/
def declared? : Stmt → Option (Located Declaration)
  | .declare d span => some ⟨d, span⟩
  | .forLoop ⟨.declare d, span⟩ _ _ _ _ => some ⟨d, span⟩
  | _ => none

/-- The content and the span of the text that a statement compiles with its regions. -/
def interpolated? : Stmt → Option (String × Span)
  | .store s _ => s.interpolated?
  | .display e _ | .error e _ | .panic e _ => e.interpolated?
  | _ => none

/-- An error that a statement brings about itself, apart from the statements inside it. -/
inductive Faults : Stmt → Error → Prop
  | type {stmt : Stmt} {d : Located Declaration} {e : Error} : stmt.declared? = some d →
    d.value.checkType d.span = .error e → Faults stmt e
  | empty {stmt : Stmt} {d : Located Declaration} : stmt.declared? = some d →
    d.value.type = none → d.value.value = none →
    Faults stmt ⟨.emptyDeclaration d.value.name, d.span, none⟩
  | expr {stmt : Stmt} {x : Expr} {e : Error} : x ∈ stmt.exprs → x.script = .error e →
    Faults stmt e
  | bareCall {s : Store} {span : Span} {e : Error} : s.quote = .backtick →
    Segment.refuseBareCalls s.content (s.contentSpan.start + 1) = .error e →
    Faults (.store s span) e
  | interpolated {stmt : Stmt} {content : String} {span : Span} {e : Error} :
    stmt.interpolated? = some (content, span) → Segment.Fault content (span.start + 1) e →
    Faults stmt e

/-- An error of one of some expressions. -/
def ExprFault (es : List Expr) (e : Error) : Prop :=
  ∃ x ∈ es, x.script = .error e

/-- An error that one of some statements brings about. -/
def SomeFaults (nodes : List Stmt) (e : Error) : Prop :=
  ∃ node ∈ nodes, node.Faults e

theorem SomeFaults.mono {nodes nodes' : List Stmt} {e : Error} (hsub : nodes ⊆ nodes')
    (h : SomeFaults nodes e) : SomeFaults nodes' e := by
  obtain ⟨node, hnode, hfaults⟩ := h
  exact ⟨node, hsub hnode, hfaults⟩

end Stmt

open Stmt

theorem Expr.failsOnly_script {x : Expr} {es : List Expr} (hx : x ∈ es) :
    FailsOnly (ExprFault es) x.script :=
  fun _ h => ⟨x, hx, h⟩

theorem Expr.failsOnly_scripts {es es' : List Expr} (hes : es ⊆ es') :
    FailsOnly (ExprFault es') (Expr.scripts es) := by
  induction es with
  | nil => exact .ok []
  | cons x es ih =>
    refine (Expr.failsOnly_script (hes (List.mem_cons_self ..))).bind fun _ _ => ?_
    exact (ih fun y hy => hes (List.mem_cons_of_mem x hy)).bind_pure

theorem Mutation.failsOnly_script (m : Mutation) : FailsOnly (ExprFault m.exprs) m.script := by
  unfold Mutation.script
  refine (Expr.failsOnly_script (by simp [Mutation.exprs])).bind fun value _ => ?_
  split
  · exact .ok _
  · exact (Expr.failsOnly_scripts (List.subset_append_left ..)).bind_pure

theorem Declaration.failsOnly_script (stmt : Stmt) (d : Located Declaration) (typed : List String)
    (hstmt : stmt.declared? = some d) (hexprs : d.value.exprs ⊆ stmt.exprs) :
    FailsOnly stmt.Faults (d.value.script typed d.span) := by
  unfold Declaration.script
  refine .bind (fun e h => .type hstmt h) fun _ _ => FailsOnly.bind_pure ?_
  have hvalue (x : Expr) (hx : d.value.value = some x) : FailsOnly stmt.Faults x.script := by
    have hmem : x ∈ d.value.exprs := by simp [Declaration.exprs, hx]
    exact fun e h => .expr (hexprs hmem) h
  unfold Declaration.valueScript
  split
  case h_1 type x htype hx => exact (hvalue x hx).bind_pure
  case h_2 type htype hx => exact .ok _
  case h_3 x htype hx =>
    refine (hvalue x hx).bind fun value _ => ?_
    split
    · exact .ok _
    · exact .ok _
  case h_4 htype hx => exact .error (.empty hstmt htype hx)

theorem Store.failsOnly_script (s : Store) (span : Span) :
    FailsOnly (Stmt.store s span).Faults s.script := by
  unfold Store.script
  split
  case h_1 hquote =>
    refine .bind (fun e h => .bareCall hquote h) fun _ _ => FailsOnly.bind_pure ?_
    have htext : s.interpolated? = some (s.content, s.contentSpan) := if_pos hquote
    exact (failsOnly_templateScript _ _).mono fun e h => .interpolated htext h
  · exact .ok _
  · exact .ok _

theorem Expr.failsOnly_printedScript (stmt : Stmt) {x : Expr} (hstmt : stmt.printed? = some x) :
    FailsOnly stmt.Faults x.printedScript := by
  have hx : x ∈ stmt.exprs := by
    cases stmt <;> simp_all [printed?, Stmt.exprs]
  have hown : FailsOnly stmt.Faults x.script := fun e h => .expr hx h
  unfold Expr.printedScript
  split
  case h_1 content quote span =>
    by_cases hbracket : content.toList.contains '['
    · rw [if_pos hbracket]
      have htext : stmt.interpolated? = some (content, span) := by
        cases stmt <;> simp_all [printed?, Stmt.interpolated?, Expr.interpolated?]
      exact (failsOnly_templateScript _ _).mono fun e h => .interpolated htext h
    · rw [if_neg hbracket]
      exact hown
  · exact hown

theorem LoopStart.failsOnly_script (typed : List String) (start : Located LoopStart) (c : Expr)
    (inc : Located Mutation) (body : List Stmt) (span : Span) :
    FailsOnly (Stmt.forLoop start c inc body span).Faults (LoopStart.script typed start) := by
  obtain ⟨value, a⟩ := start
  cases value with
  | declare d =>
    exact Declaration.failsOnly_script _ ⟨d, a⟩ typed rfl (List.subset_append_left ..)
  | update m =>
    refine m.failsOnly_script.mono fun e h => ?_
    obtain ⟨x, hx, he⟩ := h
    exact .expr (List.mem_append_left _ hx) he
  | name word => exact .ok _

namespace Stmt

theorem Faults.self {stmt : Stmt} {e : Error} (h : stmt.Faults e) :
    SomeFaults (stmt :: stmt.inner) e :=
  ⟨stmt, List.mem_cons_self .., h⟩

theorem ExprFault.faults (stmt : Stmt) {es : List Expr} {e : Error} (hes : es ⊆ stmt.exprs)
    (h : ExprFault es e) : SomeFaults (stmt :: stmt.inner) e := by
  obtain ⟨x, hx, he⟩ := h
  exact (Faults.expr (hes hx) he).self

theorem failsOnly_expr (stmt : Stmt) {x : Expr} (hx : x ∈ stmt.exprs) :
    FailsOnly (SomeFaults (stmt :: stmt.inner)) x.script :=
  fun _ h => (Faults.expr hx h).self

theorem failsOnly_printed (stmt : Stmt) {x : Expr} (hstmt : stmt.printed? = some x) :
    FailsOnly (SomeFaults (stmt :: stmt.inner)) x.printedScript :=
  (Expr.failsOnly_printedScript stmt hstmt).mono fun _ h => h.self

mutual

theorem failsOnly_script (typed : List String) : ∀ stmt : Stmt,
    FailsOnly (SomeFaults (stmt :: stmt.inner)) (stmt.script typed)
  | .declare d span => by
    have hd :=
      Declaration.failsOnly_script (.declare d span) ⟨d, span⟩ typed rfl (List.Subset.refl _)
    exact (hd.mono fun e h => h.self).bind_pure
  | .store s span => (s.failsOnly_script span).mono fun e h => h.self
  | .update m span => by
    have hm := m.failsOnly_script
    exact (hm.mono fun e h => h.faults (.update m span) (List.Subset.refl _)).bind_pure
  | .check c body other span => by
    have hbody := failsOnly_scripts typed body
    have hother := failsOnly_otherwiseScript typed other
    have hinner :=
      List.subset_cons_self (.check c body other span) (nodesList body ++ nodesOtherwise other)
    refine (failsOnly_expr (.check c body other span) (List.mem_cons_self ..)).bind fun _ _ => ?_
    refine (hbody.mono fun e h => ?_).bind fun _ _ => (hother.mono fun e h => ?_).bind_pure
    · exact (h.mono (List.subset_append_left ..)).mono hinner
    · -- the conditions of the other branches are expressions of the check itself
      rcases h with h | h
      · exact h.faults (.check c body other span) (List.subset_cons_self ..)
      · exact (h.mono (List.subset_append_right ..)).mono hinner
  | .repeatRange counter first last step body span => by
    have hexpr (x : Expr) (hx : x ∈ [first, last, step]) :=
      failsOnly_expr (.repeatRange counter first last step body span) hx
    refine (hexpr first (by simp)).bind fun _ _ => (hexpr last (by simp)).bind fun _ _ =>
      (hexpr step (by simp)).bind fun _ _ => ?_
    exact (failsOnly_inner typed body _).bind_pure
  | .repeatEach item collection body span => (failsOnly_inner typed body _).bind_pure
  | .repeatUntil c body span => by
    have hc := failsOnly_expr (.repeatUntil c body span) (List.mem_cons_self ..)
    exact (failsOnly_inner typed body _).bind fun _ _ => hc.bind_pure
  | .forLoop start c inc body span => by
    have hstart := LoopStart.failsOnly_script typed start c inc body span
    have hc : c ∈ (Stmt.forLoop start c inc body span).exprs := by simp [exprs]
    have hinc : inc.value.exprs ⊆ (Stmt.forLoop start c inc body span).exprs := by
      intro x hx
      simp [exprs, hx]
    refine (hstart.mono fun e h => h.self).bind fun _ _ => ?_
    refine (failsOnly_expr _ hc).bind fun _ _ => ?_
    refine (inc.value.failsOnly_script.mono fun e h => h.faults _ hinc).bind fun _ _ => ?_
    exact (failsOnly_inner typed body _).bind_pure
  | .function name params returns body span => (failsOnly_inner typed body _).bind_pure
  | .display x span => (failsOnly_printed (.display x span) rfl).bind_pure
  | .error x span => (failsOnly_printed (.error x span) rfl).bind_pure
  | .panic x span => (failsOnly_printed (.panic x span) rfl).bind_pure
  | .give x span => (failsOnly_expr (.give x span) (List.mem_cons_self ..)).bind_pure
  | .expr x span => (failsOnly_expr (.expr x span) (List.mem_cons_self ..)).bind_pure
  | .skip _ | .halt _ | .raw _ _ => .ok _

/-- The block of a statement fails with an error of a statement inside it. -/
theorem failsOnly_inner (typed : List String) (body : List Stmt) (stmt : Stmt) :
    FailsOnly (SomeFaults (stmt :: nodesList body)) (scripts typed body) :=
  (failsOnly_scripts typed body).mono fun _ h => h.mono (List.subset_cons_self ..)

/-- The scripts of a block fail with an error of a statement in it. -/
theorem failsOnly_scripts (typed : List String) : ∀ stmts : List Stmt,
    FailsOnly (SomeFaults (nodesList stmts)) (scripts typed stmts)
  | [] => .ok []
  | stmt :: stmts => by
    have hfirst := failsOnly_script typed stmt
    have hrest := failsOnly_scripts typed stmts
    refine (hfirst.mono fun e h => ?_).bind fun _ _ => (hrest.mono fun e h => ?_).bind_pure
    · exact h.mono (List.subset_append_left ..)
    · exact h.mono (List.subset_append_right ..)

theorem failsOnly_otherwiseScript (typed : List String) : ∀ other : Otherwise,
    FailsOnly (fun e => ExprFault other.conditions e ∨ SomeFaults (nodesOtherwise other) e)
      (otherwiseScript typed other)
  | .nothing => .ok _
  | .check c body next => by
    have hbody := failsOnly_scripts typed body
    have hnext := failsOnly_otherwiseScript typed next
    refine .bind (fun e h => .inl ⟨c, List.mem_cons_self .., h⟩) fun _ _ => ?_
    refine (hbody.mono fun e h => ?_).bind fun _ _ => (hnext.mono fun e h => ?_).bind_pure
    · exact .inr (h.mono (List.subset_append_left ..))
    · rcases h with ⟨x, hx, h⟩ | h
      · exact .inl ⟨x, List.mem_cons_of_mem c hx, h⟩
      · exact .inr (h.mono (List.subset_append_right ..))
  | .block body => ((failsOnly_scripts typed body).mono fun e h => .inr h).bind_pure

end

end Stmt

/-- A program without a script fails with an error of one of its statements. -/
theorem exists_faults_of_programScript {p : List Stmt} {e : Error}
    (h : programScript p = .error e) : ∃ stmt ∈ nodesList p, stmt.Faults e :=
  (failsOnly_scripts (typedNamesList p) p).bind_pure e h

end Resin
