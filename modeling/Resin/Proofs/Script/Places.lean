import Mathlib.Data.List.Forall2
import Resin.Proofs.Print.Stmt
import Resin.Script.Stmt

/-!
# Scripts do not look at places

The spans of a tree get into errors and nowhere else: not into the script, and not into the question
whether there is one. `Agree` compares two computations in this sense, and `Stmt.agree_script`
follows the script of a statement through all its parts. So programs that are the same up to spans
have the same script, or fail in the same words (`agree_programScript_of_erase`).
-/

namespace Resin

/-- What the report on a failure says, its place left open. -/
def Error.report (e : Error) : Diagnostic :=
  { e.diagnostic with span := default }

/-- Both computations give values that `R` relates, or both fail with the same report. -/
inductive Agree {α β : Type} (R : α → β → Prop) : Except Error α → Except Error β → Prop
  | ok {a : α} {b : β} : R a b → Agree R (.ok a) (.ok b)
  | error {e e' : Error} : e.report = e'.report → Agree R (.error e) (.error e')

namespace Agree

variable {α β γ δ : Type} {R : α → β → Prop} {Q : γ → δ → Prop}

theorem bind {x : Except Error α} {y : Except Error β} {f : α → Except Error γ}
    {h : β → Except Error δ} (hxy : Agree R x y) (hf : ∀ a b, R a b → Agree Q (f a) (h b)) :
    Agree Q (x >>= f) (y >>= h) := by
  cases hxy with
  | ok hab => exact hf _ _ hab
  | error he => exact .error he

/-- A sequence whose first part gives the same value on both sides. -/
theorem seq {x y : Except Error α} {f : α → Except Error γ} {h : α → Except Error δ}
    (hxy : Agree Eq x y) (hf : ∀ a, Agree Q (f a) (h a)) : Agree Q (x >>= f) (y >>= h) :=
  hxy.bind fun a _ hab => hab ▸ hf a

theorem refl (x : Except Error α) : Agree Eq x x := by
  cases x with
  | ok a => exact .ok rfl
  | error e => exact .error rfl

theorem symm {x y : Except Error α} (h : Agree Eq x y) : Agree Eq y x := by
  cases h with
  | ok hab => exact .ok hab.symm
  | error he => exact .error he.symm

theorem trans {x y z : Except Error α} (hxy : Agree Eq x y) (hyz : Agree Eq y z) :
    Agree Eq x z := by
  cases hxy with
  | ok hab => exact hab ▸ hyz
  | error he =>
    cases hyz with
    | error he' => exact .error (he.trans he')

/-- Computations that agree succeed with the same value. -/
theorem eq_ok {x y : Except Error α} {a : α} (h : Agree Eq x y) (hx : x = .ok a) : y = .ok a := by
  cases h with
  | ok hab => exact hab ▸ hx
  | error he => cases hx

/-- Moving an error elsewhere does not change what it says. -/
theorem mapError_shift (x : Except Error α) (m n : Nat) :
    Agree Eq (x.mapError (Error.shift m)) (x.mapError (Error.shift n)) := by
  cases x with
  | ok a => exact .ok rfl
  | error e => exact .error rfl

theorem mapM {P : α → β → Prop} {f : α → Except Error γ} {h : β → Except Error γ}
    (hf : ∀ a b, P a b → Agree Eq (f a) (h b)) {xs : List α} {ys : List β}
    (hxs : List.Forall₂ P xs ys) : Agree Eq (xs.mapM f) (ys.mapM h) := by
  induction hxs with
  | nil => exact .ok rfl
  | cons hab _ ih =>
    rw [List.mapM_cons, List.mapM_cons]
    exact (hf _ _ hab).seq fun first => ih.seq fun rest => .ok rfl

end Agree

/-! ## Texts with regions -/

/-- Two segments differ at most in the offset of a region. -/
inductive Segment.Like : Segment → Segment → Prop
  | text {content : String} : Like (.text content) (.text content)
  | region {source : String} {m n : Nat} : Like (.region source m) (.region source n)

theorem Segment.forall₂_plain (cs : List Char) :
    List.Forall₂ Segment.Like (Segment.plain cs) (Segment.plain cs) := by
  unfold Segment.plain
  split
  · exact .nil
  · exact .cons .text .nil

/-- Where a text starts has no part in how it is split. -/
theorem Segment.agree_splitUpTo (n a b : Nat) (cs : List Char) :
    Agree (List.Forall₂ Segment.Like) (Segment.splitUpTo n a cs) (Segment.splitUpTo n b cs) := by
  induction n generalizing a b cs with
  | zero => exact .ok .nil
  | succ n ih =>
    simp only [Segment.splitUpTo]
    split
    · exact .ok (Segment.forall₂_plain _)
    · split
      · exact .error rfl
      · refine (ih _ _ _).bind fun segments segments' hlike => .ok ?_
        exact List.rel_append (Segment.forall₂_plain _) (.cons .region hlike)

theorem Segment.agree_refuseBareCalls (text : String) (a b : Nat) :
    Agree Eq (Segment.refuseBareCalls text a) (Segment.refuseBareCalls text b) := by
  have hfound : ∀ (cs : List Char) (depth : Nat) (previous : Option Char) (a b : Nat),
      (Segment.bareCall? depth previous a cs).isSome =
        (Segment.bareCall? depth previous b cs).isSome := by
    intro cs
    induction cs with
    | nil => exact fun _ _ _ _ => rfl
    | cons c cs ih =>
      intro depth previous a b
      simp only [Segment.bareCall?]
      split
      · exact ih _ _ _ _
      · split
        · exact ih _ _ _ _
        · split
          · rfl
          · exact ih _ _ _ _
  have hsame := hfound text.toList 0 none a b
  unfold Segment.refuseBareCalls
  generalize Segment.bareCall? 0 none a text.toList = x at hsame
  generalize Segment.bareCall? 0 none b text.toList = y at hsame
  cases x <;> cases y
  · exact .ok rfl
  · cases hsame
  · cases hsame
  · exact .error rfl

theorem agree_regionScript (source : String) (m n : Nat) :
    Agree Eq (regionScript source m) (regionScript source n) := by
  unfold regionScript
  split
  · exact .error rfl
  · exact .mapError_shift _ m n

theorem Segment.Like.agree_script {a b : Segment} (h : Segment.Like a b) :
    Agree Eq a.script b.script := by
  cases h with
  | text => exact .refl _
  | region => exact (agree_regionScript _ _ _).seq fun code => .ok rfl

theorem agree_templateScript (text : String) (a b : Nat) :
    Agree Eq (templateScript text a) (templateScript text b) :=
  (Segment.agree_splitUpTo _ a b _).bind fun _ _ hlike =>
    (Agree.mapM (P := Segment.Like) (fun _ _ h => h.agree_script) hlike).seq fun _ => .ok rfl

/-! ## Expressions -/

section Scripts

variable (f : Span → Span)

namespace Expr

theorem agree_resolveMethod (type : TypeName) (called : String) (a b : Span) (given : Nat)
    (s t : Span) :
    Agree Eq (resolveMethod type ⟨called, a⟩ given s) (resolveMethod type ⟨called, b⟩ given t) := by
  simp only [resolveMethod]
  split
  · exact .error rfl
  · split
    · exact .ok rfl
    · exact .error rfl

theorem isLambda_mapSpans (e : Expr) : (e.mapSpans f).isLambda = e.isLambda := by
  cases e <;> rfl

theorem slice?_mapSpans (e : Expr) : (e.mapSpans f).slice? = e.slice? := by
  cases e <;> rfl

theorem agree_requireLambda (type : TypeName) (method : String) (args : List Expr) :
    Agree Eq (requireLambda type method (mapSpansList f args))
      (requireLambda type method args) := by
  cases args with
  | nil => exact .ok rfl
  | cons arg args =>
    simp only [mapSpansList, requireLambda, isLambda_mapSpans]
    split
    · exact .ok rfl
    · exact .error rfl

theorem agree_requireSlice (type : TypeName) (method : String) (args : List Expr) :
    Agree Eq (requireSlice type method (mapSpansList f args)) (requireSlice type method args) := by
  cases args with
  | nil => exact .ok rfl
  | cons arg args =>
    simp only [mapSpansList, requireSlice, slice?_mapSpans]
    split
    · exact .ok rfl
    · exact .error rfl

mutual

/-- The spans in an expression have no part in its script. -/
theorem agree_script : ∀ e : Expr, Agree Eq (e.mapSpans f).script e.script
  | .number _ _ | .text _ _ _ | .bool _ _ | .null _ | .undefined _ | .input _ | .name _ _ =>
    .ok rfl
  | .index t i _ => (agree_script t).seq fun _ => (agree_script i).seq fun _ => .ok rfl
  | .call _ args _ => (agree_scripts args).seq fun _ => .ok rfl
  | .array es _ => (agree_scripts es).seq fun _ => .ok rfl
  | .lambda _ b _ => (agree_script b).seq fun _ => .ok rfl
  | .method type x called args span => by
    have hlength : (mapSpansList f args).length = args.length := by
      rw [mapSpansList_eq_map, List.length_map]
    simp only [mapSpans, script, hlength]
    refine (agree_resolveMethod _ _ _ _ _ _ _).seq fun m => ?_
    split
    · exact (agree_scripts args).seq fun _ => .ok rfl
    · exact (agree_requireLambda f _ _ args).seq fun _ =>
        (agree_scripts args).seq fun _ => .ok rfl
    · exact (agree_requireSlice f _ _ args).seq fun _ => .ok rfl
  | .binary _ l r _ => (agree_script l).seq fun _ => (agree_script r).seq fun _ => .ok rfl
  | .signed _ e _ => (agree_script e).seq fun _ => .ok rfl

theorem agree_scripts : ∀ es : List Expr, Agree Eq (scripts (mapSpansList f es)) (scripts es)
  | [] => .ok rfl
  | e :: es => (agree_script e).seq fun _ => (agree_scripts es).seq fun _ => .ok rfl

end

theorem agree_printedScript (e : Expr) :
    Agree Eq (e.mapSpans f).printedScript e.printedScript := by
  cases e with
  | text content quote span =>
    simp only [mapSpans, printedScript]
    split
    · exact agree_templateScript _ _ _
    · exact .ok rfl
  | _ => exact agree_script f _

end Expr

/-! ## Statements -/

variable (typed : List String)

theorem Declaration.agree_checkType (d : Declaration) (a b : Span) :
    Agree Eq ((d.mapSpans f).checkType a) (d.checkType b) := by
  obtain ⟨binding, name, type, value⟩ := d
  have htype : (type.map fun t => (⟨t.value, f t.span⟩ : Located TypeName)).map Located.value =
      type.map Located.value := by
    rw [Option.map_map]
    rfl
  simp only [mapSpans, checkType, htype]
  -- only the outermost form of the value counts
  cases value with
  | none => exact .ok rfl
  | some e =>
    cases e with
    | call callee args span =>
      cases type with
      | none => exact .error rfl
      | some t => exact .ok rfl
    | array elements span =>
      simp only [Option.map_some, Expr.mapSpans]
      split
      · exact .ok rfl
      · exact .error rfl
    | _ => exact .ok rfl

theorem Declaration.agree_valueScript (d : Declaration) (a b : Span) :
    Agree Eq ((d.mapSpans f).valueScript typed a) (d.valueScript typed b) := by
  obtain ⟨binding, name, type, value⟩ := d
  cases type with
  | none =>
    cases value with
    | none => exact .error rfl
    | some e => exact (Expr.agree_script f e).seq fun code => .refl _
  | some t =>
    cases value with
    | none => exact .ok rfl
    | some e => exact (Expr.agree_script f e).seq fun code => .ok rfl

theorem Declaration.agree_script (d : Declaration) (a b : Span) :
    Agree Eq ((d.mapSpans f).script typed a) (d.script typed b) :=
  (d.agree_checkType f a b).seq fun _ => (d.agree_valueScript f typed a b).seq fun _ => .ok rfl

theorem Store.agree_script (s : Store) :
    Agree Eq (Store.script { s with contentSpan := f s.contentSpan }) s.script := by
  obtain ⟨binding, name, content, quote, span⟩ := s
  cases quote with
  | backtick =>
    simp only [Store.script]
    exact (Segment.agree_refuseBareCalls content _ _).seq fun _ =>
      (agree_templateScript content _ _).seq fun _ => .ok rfl
  | double | single => exact .ok rfl

theorem Mutation.agree_script (m : Mutation) : Agree Eq (m.mapSpans f).script m.script := by
  obtain ⟨target, indices, value⟩ := m
  refine (Expr.agree_script f value).seq fun code => ?_
  cases indices with
  | nil => exact .ok rfl
  | cons index indices =>
    simp only [mapSpans, ← Expr.mapSpansList_eq_map]
    exact (Expr.agree_scripts f (index :: indices)).seq fun _ => .ok rfl

theorem LoopStart.agree_script (start : Located LoopStart) :
    Agree Eq (LoopStart.script typed ⟨start.value.mapSpans f, f start.span⟩)
      (LoopStart.script typed start) := by
  obtain ⟨value, span⟩ := start
  cases value with
  | declare d => exact d.agree_script f typed _ _
  | update m => exact m.agree_script f
  | name word => exact .ok rfl

namespace Stmt

mutual

/-- The spans in a statement have no part in its script. -/
theorem agree_script : ∀ stmt : Stmt, Agree Eq (script typed (stmt.mapSpans f)) (script typed stmt)
  | .declare d _ => (d.agree_script f typed _ _).seq fun _ => .ok rfl
  | .store s _ => s.agree_script f
  | .update m _ => (m.agree_script f).seq fun _ => .ok rfl
  | .check c body other _ => (c.agree_script f).seq fun _ => (agree_scripts body).seq fun _ =>
    (agree_otherwiseScript other).seq fun _ => .ok rfl
  | .repeatRange _ a b d body _ => (a.agree_script f).seq fun _ => (b.agree_script f).seq fun _ =>
    (d.agree_script f).seq fun _ => (agree_scripts body).seq fun _ => .ok rfl
  | .repeatEach _ _ body _ => (agree_scripts body).seq fun _ => .ok rfl
  | .repeatUntil c body _ => (agree_scripts body).seq fun _ => (c.agree_script f).seq fun _ =>
    .ok rfl
  | .forLoop start c inc body _ => (LoopStart.agree_script f typed start).seq fun _ =>
    (c.agree_script f).seq fun _ => (inc.value.agree_script f).seq fun _ =>
    (agree_scripts body).seq fun _ => .ok rfl
  | .function _ _ returns body _ => (agree_scripts body).seq fun lines => by
    cases returns with
    | none => exact .ok rfl
    | some type => exact .ok rfl
  | .give e _ | .expr e _ => (e.agree_script f).seq fun _ => .ok rfl
  | .display e _ | .error e _ | .panic e _ => (e.agree_printedScript f).seq fun _ => .ok rfl
  | .skip _ | .halt _ | .raw _ _ => .ok rfl

theorem agree_scripts : ∀ stmts : List Stmt,
    Agree Eq (scripts typed (mapSpansList f stmts)) (scripts typed stmts)
  | [] => .ok rfl
  | stmt :: stmts => (agree_script stmt).seq fun _ => (agree_scripts stmts).seq fun _ => .ok rfl

theorem agree_otherwiseScript : ∀ other : Otherwise,
    Agree Eq (otherwiseScript typed (mapSpansOtherwise f other)) (otherwiseScript typed other)
  | .nothing => .ok rfl
  | .check c body next => (c.agree_script f).seq fun _ => (agree_scripts body).seq fun _ =>
    (agree_otherwiseScript next).seq fun _ => .ok rfl
  | .block body => (agree_scripts body).seq fun _ => .ok rfl

end

theorem typedName_mapSpans (d : Declaration) : (d.mapSpans f).typedName = d.typedName := by
  simp [Declaration.typedName, Declaration.mapSpans]

mutual

theorem typedNames_mapSpans : ∀ stmt : Stmt, typedNames (stmt.mapSpans f) = typedNames stmt
  | .declare d _ => typedName_mapSpans f d
  | .forLoop start _ _ body _ => by
    obtain ⟨value, span⟩ := start
    simp only [mapSpans, typedNames, typedNamesList_mapSpans body]
    cases value with
    | declare d => simp only [LoopStart.mapSpans, LoopStart.typedName, typedName_mapSpans]
    | update | name => rfl
  | .check _ body other _ => by
    simp only [mapSpans, typedNames, typedNamesList_mapSpans body,
      typedNamesOtherwise_mapSpans other]
  | .repeatRange _ _ _ _ body _ | .repeatEach _ _ body _ | .repeatUntil _ body _
  | .function _ _ _ body _ => typedNamesList_mapSpans body
  | .store _ _ | .update _ _ | .give _ _ | .display _ _ | .error _ _ | .panic _ _ | .skip _
  | .halt _ | .raw _ _ | .expr _ _ => rfl

theorem typedNamesList_mapSpans : ∀ stmts : List Stmt,
    typedNamesList (mapSpansList f stmts) = typedNamesList stmts
  | [] => rfl
  | stmt :: stmts => by
    simp only [mapSpansList, typedNamesList, typedNames_mapSpans stmt,
      typedNamesList_mapSpans stmts]

theorem typedNamesOtherwise_mapSpans : ∀ other : Otherwise,
    typedNamesOtherwise (mapSpansOtherwise f other) = typedNamesOtherwise other
  | .nothing => rfl
  | .check _ body next => by
    simp only [mapSpansOtherwise, typedNamesOtherwise, typedNamesList_mapSpans body,
      typedNamesOtherwise_mapSpans next]
  | .block body => typedNamesList_mapSpans body

end

end Stmt

/-- The spans in a program have no part in its script. -/
theorem agree_programScript (p : List Stmt) :
    Agree Eq (programScript (p.map (Stmt.mapSpans f))) (programScript p) := by
  rw [← Stmt.mapSpansList_eq_map]
  unfold programScript
  rw [Stmt.typedNamesList_mapSpans]
  exact (Stmt.agree_scripts f _ p).seq fun _ => .ok rfl

end Scripts

/-- Programs that are the same up to spans have the same script, or none for the same reason. -/
theorem agree_programScript_of_erase {p q : List Stmt} (h : p.map Stmt.erase = q.map Stmt.erase) :
    Agree Eq (programScript p) (programScript q) := by
  have hp := agree_programScript (fun _ => default) p
  have hq := agree_programScript (fun _ => default) q
  exact hp.symm.trans ((show p.map (Stmt.mapSpans fun _ => default) = _ from h) ▸ hq)

end Resin
