import Resin.Proofs.Tree.Nodes
import Resin.Script.Stmt

/-!
# Well-formed programs

A program has a script exactly if each of its statements and expressions, at every depth, meets the
conditions of its own form. Nothing else in a tree can make its script fail, and no node is passed
over.
-/

namespace Resin

variable {α β ε : Type}

/-! ## Computations that succeed -/

/-- A computation gives a result. -/
def Succeeds (x : Except ε α) : Prop :=
  ∃ a, x = .ok a

/-- A result that is not looked at is folded away. -/
@[simp] theorem exists_eq_ok_iff {x : Except ε α} : (∃ a, x = .ok a) ↔ Succeeds x :=
  Iff.rfl

@[simp] theorem succeeds_ok (a : α) : Succeeds (.ok a : Except ε α) :=
  ⟨a, rfl⟩

@[simp] theorem succeeds_pure (a : α) : Succeeds (pure a : Except ε α) :=
  ⟨a, rfl⟩

@[simp] theorem not_succeeds_error (e : ε) : ¬ Succeeds (.error e : Except ε α) := by
  rintro ⟨a, h⟩
  cases h

@[simp] theorem succeeds_bind {x : Except ε α} {f : α → Except ε β} :
    Succeeds (x >>= f) ↔ ∃ a, x = .ok a ∧ Succeeds (f a) := by
  cases x with
  | error e =>
    have hfail : (Except.error e >>= f) = .error e := rfl
    simp [hfail]
  | ok a =>
    have hgo : (Except.ok a >>= f) = f a := rfl
    simp [hgo]

/-- A sequence that succeeds, taken apart. -/
theorem exists_of_bind_eq_ok {x : Except ε α} {f : α → Except ε β} {b : β}
    (h : (x >>= f) = .ok b) : ∃ a, x = .ok a ∧ f a = .ok b := by
  cases x with
  | error e => cases h
  | ok a => exact ⟨a, rfl, h⟩

@[simp] theorem succeeds_map {x : Except ε α} {f : α → β} : Succeeds (f <$> x) ↔ Succeeds x := by
  rw [← bind_pure_comp, succeeds_bind]
  simp

@[simp] theorem succeeds_mapError {x : Except ε α} (f : ε → ε) :
    Succeeds (x.mapError f) ↔ Succeeds x := by
  cases x with
  | error e => exact iff_of_false (not_succeeds_error (f e)) (not_succeeds_error e)
  | ok a => exact Iff.rfl

theorem succeeds_mapM {f : α → Except ε β} {items : List α} :
    Succeeds (items.mapM f) ↔ ∀ a ∈ items, Succeeds (f a) := by
  induction items with
  | nil => simp
  | cons a rest ih => simp [List.mapM_cons, ih]

/-! ## Methods -/

namespace Method

/-- The methods that take a lambda, and those that take a slice, are told by their names, and take
nothing besides. -/
def namedForArgument (m : Method) : Bool :=
  match m.lowering with
  | .template _ => m.name ≠ "filter" && m.name ≠ "map" && m.name ≠ "slice"
  | .lambda _ => (m.name = "filter" || m.name = "map") && m.arity = 1
  | .slice => m.name = "slice" && m.arity = 1

theorem namedForArgument_of_find? {type : TypeName} {name : String} {m : Method}
    (h : find? type name = some m) : m.name = name ∧ m.namedForArgument = true := by
  have hfound := List.find?_some h
  have hall : table.all namedForArgument = true := by decide
  simp only [Bool.and_eq_true, beq_iff_eq] at hfound
  exact ⟨hfound.2, List.all_eq_true.1 hall m (List.mem_of_find?_eq_some h)⟩

end Method

namespace Expr

/-- Arguments suit a method of a type: there is one of that name, it takes as many as are given, the
one of `filter` and of `map` is a lambda, and the one of `slice` is a text that writes a slice. -/
def ArgumentsFit (type : TypeName) (name : String) (args : List Expr) : Prop :=
  ∃ m, Method.find? type name = some m ∧ args.length = m.arity ∧
    (name = "filter" ∨ name = "map" → ∀ arg ∈ args, arg.isLambda = true) ∧
    (name = "slice" → ∀ arg ∈ args, arg.slice?.isSome = true)

/-- An expression is no method call, or a call whose arguments suit its method. -/
def MethodFits : Expr → Prop
  | .method type _ called args _ => ArgumentsFit type.value called.value args
  | _ => True

theorem resolveMethod_eq_ok_iff {type : TypeName} {called : Located String} {given : Nat}
    {span : Span} {m : Method} : resolveMethod type called given span = .ok m ↔
      Method.find? type called.value = some m ∧ given = m.arity := by
  unfold resolveMethod
  cases hfind : Method.find? type called.value with
  | none => simp
  | some m' =>
    by_cases harity : given = m'.arity
    · simp only [harity, if_true, Except.ok.injEq, Option.some.injEq]
      exact ⟨fun h => ⟨h, congrArg Method.arity h⟩, fun h => h.1⟩
    · simp only [harity, if_false, Option.some.injEq, reduceCtorEq, false_iff, not_and]
      rintro rfl
      exact harity

theorem succeeds_requireLambda {type : TypeName} {name : String} {arg : Expr} :
    Succeeds (requireLambda type name [arg]) ↔ arg.isLambda = true := by
  by_cases h : arg.isLambda = true <;> simp [requireLambda, h]

theorem succeeds_requireSlice {type : TypeName} {name : String} {arg : Expr} :
    Succeeds (requireSlice type name [arg]) ↔ arg.slice?.isSome = true := by
  cases h : arg.slice? <;> simp [requireSlice, h]

/-- An argument that writes a slice is a text, which has no method calls in it. -/
theorem methodFits_of_slice? {arg : Expr} (h : arg.slice?.isSome = true) :
    ∀ x ∈ nodesList [arg], x.MethodFits := by
  cases arg with
  | text => simp [nodesList, inner, MethodFits]
  | _ => cases h

/-- The script of a method call, if its arguments have scripts exactly if they fit. -/
theorem succeeds_method {type : Located TypeName} {target : String} {called : Located String}
    {args : List Expr} {span : Span}
    (hargs : Succeeds (scripts args) ↔ ∀ x ∈ nodesList args, x.MethodFits) :
    Succeeds (script (.method type target called args span)) ↔
      ArgumentsFit type.value called.value args ∧ ∀ x ∈ nodesList args, x.MethodFits := by
  simp only [script, succeeds_bind, resolveMethod_eq_ok_iff, ArgumentsFit]
  rw [← exists_and_right]
  refine exists_congr fun m => ?_
  rw [and_assoc, and_assoc, and_assoc]
  refine and_congr_right fun hfind => and_congr_right fun harity => ?_
  -- the name tells the lowering, and with it what is asked of the arguments
  obtain ⟨hname, hnamed⟩ := Method.namedForArgument_of_find? hfind
  rw [Method.namedForArgument, hname] at hnamed
  cases hlowering : m.lowering with
  | template text =>
    simp only [hlowering, Bool.and_eq_true, decide_eq_true_eq] at hnamed
    simp [hnamed, hargs]
  | lambda text =>
    simp only [hlowering, Bool.and_eq_true, Bool.or_eq_true, decide_eq_true_eq] at hnamed
    obtain ⟨arg, rfl⟩ := List.length_eq_one_iff.1 (harity.trans hnamed.2)
    have hslice : called.value ≠ "slice" := by
      rintro hslice
      simp [hslice] at hnamed
    simp [hnamed, hslice, hargs, succeeds_requireLambda]
  | slice =>
    -- the argument is decoded and never compiled, which is no loss: it is a text
    simp only [hlowering, Bool.and_eq_true, decide_eq_true_eq] at hnamed
    obtain ⟨arg, rfl⟩ := List.length_eq_one_iff.1 (harity.trans hnamed.2)
    simpa [hnamed, succeeds_requireSlice] using methodFits_of_slice?

mutual

/-- An expression has a script exactly if every method call in it fits. -/
theorem succeeds_script : (e : Expr) → (Succeeds e.script ↔ ∀ x ∈ e.nodes, x.MethodFits)
  | .number _ _ | .text _ _ _ | .bool _ _ | .null _ | .undefined _ | .input _ | .name _ _ => by
    simp [script, nodes, inner, MethodFits]
  | .index target place _ => by
    have htarget := succeeds_script target
    have hplace := succeeds_script place
    rw [forall_mem_nodes, inner_index, List.forall_mem_append, ← htarget, ← hplace]
    simp [script, MethodFits]
  | .call _ args _ | .array args _ => by
    have hargs := succeeds_scripts args
    rw [forall_mem_nodes, inner, ← hargs]
    simp [script, MethodFits]
  | .lambda _ body _ => by
    have hbody := succeeds_script body
    rw [forall_mem_nodes, inner_lambda, ← hbody]
    simp [script, MethodFits]
  | .method _ _ _ args _ => by
    rw [forall_mem_nodes, inner, succeeds_method (succeeds_scripts args)]
    rfl
  | .binary _ left right _ => by
    have hleft := succeeds_script left
    have hright := succeeds_script right
    rw [forall_mem_nodes, inner_binary, List.forall_mem_append, ← hleft, ← hright]
    simp [script, MethodFits]
  | .signed _ operand _ => by
    have hoperand := succeeds_script operand
    rw [forall_mem_nodes, inner_signed, ← hoperand]
    simp [script, MethodFits]

/-- Expressions have scripts exactly if every method call in them fits. -/
theorem succeeds_scripts :
    (es : List Expr) → (Succeeds (scripts es) ↔ ∀ x ∈ nodesList es, x.MethodFits)
  | [] => by simp [scripts, nodesList]
  | e :: es => by
    have hfirst := succeeds_script e
    have hrest := succeeds_scripts es
    rw [nodesList_cons, List.forall_mem_append, ← hfirst, ← hrest]
    simp [scripts]

end

end Expr

/-! ## Texts with regions -/

/-- A region is accepted exactly if it is not empty and is an expression whose methods fit. -/
theorem succeeds_regionScript {source : String} {offset : Nat} :
    Succeeds (regionScript source offset) ↔
      source ≠ "" ∧ ∃ e, parseExpression source = .ok e ∧ ∀ x ∈ e.nodes, x.MethodFits := by
  by_cases h : source = ""
  · simp [regionScript, h]
  · simp [regionScript, expressionScript, h, Expr.succeeds_script]

/-- A text that begins at an offset has only closed regions, and each of them is accepted. -/
def RegionsAccepted (text : String) (offset : Nat) : Prop :=
  ∃ segments, Segment.split text offset = .ok segments ∧
    ∀ source start, .region source start ∈ segments → Succeeds (regionScript source start)

theorem succeeds_templateScript {text : String} {offset : Nat} :
    Succeeds (templateScript text offset) ↔ RegionsAccepted text offset := by
  simp only [templateScript, succeeds_bind, succeeds_pure, and_true, exists_eq_ok_iff,
    succeeds_mapM, RegionsAccepted]
  refine exists_congr fun segments => and_congr_right fun _ => ⟨fun h source start hmem => ?_, ?_⟩
  · simpa [Segment.script] using h _ hmem
  · -- plain text between the regions is always accepted
    rintro h (content | ⟨source, start⟩) hmem
    · exact succeeds_ok _
    · simpa [Segment.script] using h source start hmem

/-! ## Statements -/

/-- A declaration has a type or a value, and the type that its value calls for: some type for the
result of a call, and the type of arrays for an array. -/
structure Declaration.Fits (d : Declaration) : Prop where
  supplied : d.type ≠ none ∨ d.value ≠ none
  call : ∀ callee args span, d.value = some (.call callee args span) → d.type ≠ none
  array : ∀ elements span, d.value = some (.array elements span) →
    d.type.map Located.value = some .array

/-- A text between backticks calls no function outside its regions, and these are accepted. -/
def Store.Fits (s : Store) : Prop :=
  s.quote = .backtick →
    Succeeds (Segment.refuseBareCalls s.content (s.contentSpan.start + 1)) ∧
      RegionsAccepted s.content (s.contentSpan.start + 1)

/-- The regions of a printed text, if it has an opening bracket, are accepted. -/
def Expr.PrintedFits : Expr → Prop
  | .text content _ span => '[' ∈ content.toList → RegionsAccepted content (span.start + 1)
  | _ => True

/-- What a statement shows, reports or ends the program with. -/
def Stmt.printed? : Stmt → Option Expr
  | .display e _ | .error e _ | .panic e _ => some e
  | _ => none

/-- A statement meets the conditions of its form, apart from the statements inside it. -/
structure Stmt.WellFormed (stmt : Stmt) : Prop where
  declaration : ∀ d, stmt.declaration? = some d → d.Fits
  store : ∀ s span, stmt = .store s span → s.Fits
  printed : ∀ e, stmt.printed? = some e → e.PrintedFits
  methods : ∀ e ∈ Expr.nodesList stmt.exprs, e.MethodFits

/-! ## Scripts of parts of statements -/

theorem Declaration.succeeds_checkType {d : Declaration} {span : Span} :
    Succeeds (d.checkType span) ↔
      (∀ callee args span, d.value = some (.call callee args span) → d.type ≠ none) ∧
        ∀ elements span, d.value = some (.array elements span) →
          d.type.map Located.value = some .array := by
  obtain ⟨binding, name, type, value⟩ := d
  cases value with
  | none => simp [checkType]
  | some value =>
    cases value with
    | call => cases type <;> simp [checkType]
    | array =>
      by_cases h : type.map Located.value = some .array
      · simp only [checkType, h]
        simp
      · simp only [checkType, h]
        simp
    | _ => simp [checkType]

theorem Declaration.succeeds_valueScript {typed : List String} {d : Declaration} {span : Span} :
    Succeeds (d.valueScript typed span) ↔
      (d.type ≠ none ∨ d.value ≠ none) ∧ ∀ e ∈ Expr.nodesList d.exprs, e.MethodFits := by
  rw [← Expr.succeeds_scripts]
  obtain ⟨binding, name, type, value⟩ := d
  cases type <;> cases value
  · simp [valueScript]
  · by_cases h : name ∈ typed <;> simp [valueScript, exprs, Expr.scripts, h]
  · simp [valueScript, exprs, Expr.scripts]
  · simp [valueScript, exprs, Expr.scripts]

theorem Declaration.succeeds_script (typed : List String) (span : Span) {d : Declaration} :
    Succeeds (d.script typed span) ↔
      d.Fits ∧ ∀ e ∈ Expr.nodesList d.exprs, e.MethodFits := by
  simp only [script, succeeds_bind, succeeds_pure, and_true, exists_eq_ok_iff, exists_and_right,
    succeeds_checkType, succeeds_valueScript]
  constructor
  · rintro ⟨⟨hcall, harray⟩, hsupplied, hmethods⟩
    exact ⟨⟨hsupplied, hcall, harray⟩, hmethods⟩
  · rintro ⟨⟨hsupplied, hcall, harray⟩, hmethods⟩
    exact ⟨⟨hcall, harray⟩, hsupplied, hmethods⟩

theorem Store.succeeds_script {s : Store} : Succeeds s.script ↔ s.Fits := by
  unfold Store.script Store.Fits
  cases s.quote <;> simp [succeeds_templateScript]

theorem Mutation.succeeds_script {m : Mutation} :
    Succeeds m.script ↔ ∀ e ∈ Expr.nodesList m.exprs, e.MethodFits := by
  rw [exprs, Expr.nodesList_append, List.forall_mem_append, ← Expr.succeeds_scripts,
    ← Expr.succeeds_scripts, script]
  by_cases h : m.indices = []
  · simp [h, Expr.scripts]
  · simp [h, Expr.scripts, and_comm]

theorem Expr.succeeds_printedScript {e : Expr} :
    Succeeds e.printedScript ↔ e.PrintedFits ∧ ∀ x ∈ e.nodes, x.MethodFits := by
  rw [← succeeds_script]
  cases e with
  | text content quote span =>
    by_cases h : '[' ∈ content.toList <;>
    simp [printedScript, PrintedFits, script, h, succeeds_templateScript]
  | _ => simp [printedScript, PrintedFits]

theorem LoopStart.succeeds_script (typed : List String) {start : Located LoopStart} :
    Succeeds (LoopStart.script typed start) ↔
      (∀ d, start.value = .declare d → d.Fits) ∧
        ∀ e ∈ Expr.nodesList start.value.exprs, e.MethodFits := by
  unfold LoopStart.script
  cases start.value with
  | declare d => simp [Declaration.succeeds_script, exprs]
  | update m => simp [Mutation.succeeds_script, exprs]
  | name word => simp [exprs, Expr.nodesList]

namespace Stmt

/-- A statement that declares, stores and prints nothing is well formed if its methods fit. -/
theorem wellFormed_iff_methods {stmt : Stmt} (hdeclaration : stmt.declaration? = none)
    (hstore : ∀ s span, stmt ≠ .store s span) (hprinted : stmt.printed? = none) :
    stmt.WellFormed ↔ ∀ e ∈ Expr.nodesList stmt.exprs, e.MethodFits := by
  refine ⟨fun h => h.methods, fun h => ⟨?_, ?_, ?_, h⟩⟩
  · simp [hdeclaration]
  · intro s span heq
    exact absurd heq (hstore s span)
  · simp [hprinted]

theorem wellFormed_declare {d : Declaration} {span : Span} :
    (Stmt.declare d span).WellFormed ↔ d.Fits ∧ ∀ e ∈ Expr.nodesList d.exprs, e.MethodFits := by
  constructor
  · intro h
    exact ⟨h.declaration d rfl, h.methods⟩
  · rintro ⟨hfits, hmethods⟩
    refine ⟨?_, by simp, by simp [printed?], hmethods⟩
    rintro d' ⟨⟩
    exact hfits

theorem wellFormed_store {s : Store} {span : Span} : (Stmt.store s span).WellFormed ↔ s.Fits := by
  constructor
  · intro h
    exact h.store s span rfl
  · intro hfits
    refine ⟨by simp [declaration?], ?_, by simp [printed?], by simp [exprs, Expr.nodesList]⟩
    rintro s' span' ⟨⟩
    exact hfits

/-- The three statements that print an expression. -/
theorem wellFormed_printed {stmt : Stmt} {e : Expr} (hprinted : stmt.printed? = some e) :
    stmt.WellFormed ↔ e.PrintedFits ∧ ∀ x ∈ e.nodes, x.MethodFits := by
  -- a statement that prints does nothing else
  have hexprs : stmt.exprs = [e] ∧ stmt.declaration? = none ∧ ∀ s span, stmt ≠ .store s span := by
    cases stmt <;> simp_all [printed?, exprs, declaration?]
  obtain ⟨hexprs, hdeclaration, hstore⟩ := hexprs
  have hnodes : Expr.nodesList stmt.exprs = e.nodes := by
    rw [hexprs, Expr.nodesList_cons, Expr.nodesList, List.append_nil]
  constructor
  · intro h
    exact ⟨h.printed e hprinted, hnodes ▸ h.methods⟩
  · rintro ⟨hfits, hmethods⟩
    refine ⟨by simp [hdeclaration], ?_, by simpa [hprinted] using hfits, hnodes ▸ hmethods⟩
    intro s span heq
    exact absurd heq (hstore s span)

theorem wellFormed_forLoop {start : Located LoopStart} {condition : Expr}
    {increment : Located Mutation} {body : List Stmt} {span : Span} :
    (Stmt.forLoop start condition increment body span).WellFormed ↔
      ((∀ d, start.value = .declare d → d.Fits) ∧
        ∀ e ∈ Expr.nodesList start.value.exprs, e.MethodFits) ∧
      (∀ e ∈ condition.nodes, e.MethodFits) ∧
      ∀ e ∈ Expr.nodesList increment.value.exprs, e.MethodFits := by
  have hmethods : (∀ e ∈ Expr.nodesList (Stmt.forLoop start condition increment body span).exprs,
      e.MethodFits) ↔ (∀ e ∈ Expr.nodesList start.value.exprs, e.MethodFits) ∧
        (∀ e ∈ condition.nodes, e.MethodFits) ∧
        ∀ e ∈ Expr.nodesList increment.value.exprs, e.MethodFits := by
    rw [exprs, Expr.nodesList_append, Expr.nodesList_cons, List.forall_mem_append,
      List.forall_mem_append]
  rw [and_assoc, ← hmethods]
  constructor
  · intro h
    exact ⟨fun d hd => h.declaration d (declaration?_forLoop.2 hd), h.methods⟩
  · rintro ⟨hfits, hmethods⟩
    refine ⟨?_, by simp, by simp [printed?], hmethods⟩
    intro d hd
    exact hfits d (declaration?_forLoop.1 hd)

mutual

/-- A statement has a script exactly if it and the statements inside it are well formed. -/
theorem succeeds_script (typed : List String) : (stmt : Stmt) →
    (Succeeds (stmt.script typed) ↔ stmt.WellFormed ∧ ∀ x ∈ stmt.inner, x.WellFormed)
  | .declare d span => by
    rw [wellFormed_declare, ← Declaration.succeeds_script typed span]
    simp [script, inner]
  | .store s _ => by
    rw [wellFormed_store, ← Store.succeeds_script]
    simp [script, inner]
  | .update m _ => by
    rw [wellFormed_iff_methods rfl (by simp) rfl, exprs, ← Mutation.succeeds_script]
    simp [script, inner]
  | .check condition body other _ => by
    have hbody := succeeds_scripts typed body
    have hother := succeeds_otherwiseScript typed other
    rw [wellFormed_iff_methods rfl (by simp) rfl, exprs, Expr.nodesList_cons, inner,
      List.forall_mem_append, List.forall_mem_append, ← Expr.succeeds_script, ← hbody,
      and_and_and_comm, ← hother]
    simp [script, and_assoc]
  | .repeatRange _ first last step body _ => by
    have hbody := succeeds_scripts typed body
    rw [wellFormed_iff_methods rfl (by simp) rfl, exprs, inner, ← Expr.succeeds_scripts, ← hbody]
    simp [script, Expr.scripts, and_assoc]
  | .repeatEach _ _ body _ => by
    have hbody := succeeds_scripts typed body
    rw [wellFormed_iff_methods rfl (by simp) rfl, exprs, inner, ← hbody]
    simp [script, Expr.nodesList]
  | .repeatUntil condition body _ => by
    have hbody := succeeds_scripts typed body
    rw [wellFormed_iff_methods rfl (by simp) rfl, exprs, inner, ← Expr.succeeds_scripts, ← hbody]
    simp [script, Expr.scripts, and_comm]
  | .forLoop start condition increment body _ => by
    have hbody := succeeds_scripts typed body
    rw [wellFormed_forLoop, inner, ← LoopStart.succeeds_script typed, ← Expr.succeeds_script,
      ← Mutation.succeeds_script, ← hbody]
    simp [script, and_assoc]
  | .function _ _ _ body _ => by
    have hbody := succeeds_scripts typed body
    rw [wellFormed_iff_methods rfl (by simp) rfl, exprs, inner, ← hbody]
    simp [script, Expr.nodesList]
  | .give value _ | .expr value _ => by
    rw [wellFormed_iff_methods rfl (by simp) rfl, exprs, ← Expr.succeeds_scripts]
    simp [script, inner, Expr.scripts]
  | .display value _ | .error value _ | .panic value _ => by
    rw [wellFormed_printed rfl, ← Expr.succeeds_printedScript]
    simp [script, inner]
  | .skip _ | .halt _ | .raw _ _ => by
    rw [wellFormed_iff_methods rfl (by simp) rfl]
    simp [script, exprs, inner, Expr.nodesList]

/-- Statements have scripts exactly if they and the statements inside them are well formed. -/
theorem succeeds_scripts (typed : List String) : (stmts : List Stmt) →
    (Succeeds (scripts typed stmts) ↔ ∀ x ∈ nodesList stmts, x.WellFormed)
  | [] => by simp [scripts, nodesList]
  | stmt :: stmts => by
    have hfirst := succeeds_script typed stmt
    have hrest := succeeds_scripts typed stmts
    rw [nodesList, List.forall_mem_append, List.forall_mem_cons, ← hfirst, ← hrest]
    simp [scripts]

/-- The rest of a check has a script exactly if the methods in its conditions fit and its statements
are well formed. -/
theorem succeeds_otherwiseScript (typed : List String) : (other : Otherwise) →
    (Succeeds (otherwiseScript typed other) ↔
      (∀ e ∈ Expr.nodesList other.conditions, e.MethodFits) ∧
        ∀ x ∈ nodesOtherwise other, x.WellFormed)
  | .nothing => by simp [otherwiseScript, Otherwise.conditions, nodesOtherwise, Expr.nodesList]
  | .check condition body next => by
    have hbody := succeeds_scripts typed body
    have hnext := succeeds_otherwiseScript typed next
    rw [Otherwise.conditions, nodesOtherwise, Expr.nodesList_cons, List.forall_mem_append,
      List.forall_mem_append, ← Expr.succeeds_script, ← hbody, and_and_and_comm, ← hnext]
    simp [otherwiseScript, and_assoc]
  | .block body => by
    have hbody := succeeds_scripts typed body
    rw [nodesOtherwise, ← hbody]
    simp [otherwiseScript, Otherwise.conditions, Expr.nodesList]

end

end Stmt

/-! ## Programs -/

/-- A program has a script exactly if every statement in it, at every depth, is well formed; and a
region of a text is accepted exactly if it is an expression whose methods fit. -/
theorem programScript_eq_ok_iff (p : List Stmt) :
    ((∃ script, programScript p = .ok script) ↔ ∀ stmt ∈ Stmt.nodesList p, stmt.WellFormed) ∧
      ∀ source offset, (∃ script, regionScript source offset = .ok script) ↔
        source ≠ "" ∧ ∃ e, parseExpression source = .ok e ∧ ∀ x ∈ e.nodes, x.MethodFits := by
  refine ⟨?_, fun source offset => succeeds_regionScript⟩
  rw [← Stmt.succeeds_scripts (Stmt.typedNamesList p)]
  simp [programScript]

end Resin
