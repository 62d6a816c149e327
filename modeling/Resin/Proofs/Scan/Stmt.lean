import Resin.Compile
import Resin.Proofs.Scan.Region

/-!
# Compiled scripts are closed

The script of a statement whose names are words and which has no raw block in it is closed. The
names of a program are words since they are tokens of its source, so a source without raw blocks
compiles to a closed script.
-/

namespace Resin

open Scan

/-! ## Parts of statements -/

theorem closed_braced {lines : List Fragment} (h : ∀ f ∈ lines, Closed f.code) :
    Closed (braced lines).code :=
  closed_of_parts (.own "\x7b\n") [.put _, .own "\n\x7d"] rfl
    ⟨Fragment.closed_join (by decide) h, trivial⟩

theorem closed_binding (b : Binding) : Closed b.script := by
  cases b <;> decide

theorem Declaration.closed_valueScript {typed : List String} {d : Declaration} {span : Span}
    {f : Fragment} (hexprs : Expr.ListNamesAll IsWord d.exprs)
    (h : d.valueScript typed span = .ok f) : Closed f.code := by
  obtain ⟨binding, name, type, value⟩ := d
  have hvalue : ∀ e, value = some e → e.ScriptClosed := by
    rintro e rfl
    exact e.scriptClosed (Expr.listNamesAll_singleton.1 hexprs)
  cases type with
  | some type =>
    cases value with
    | some value =>
      obtain ⟨v, hv, h⟩ := exists_of_bind_eq_ok h
      cases h
      exact closed_of_parts (.own "__epx_register(") [.put _, .own ", ", .put _, .own ", ", .put _,
        .own ")"] rfl ⟨closed_quoted _, closed_quoted _, hvalue value rfl v hv, trivial⟩
    | none =>
      cases h
      exact closed_of_parts (.own "__epx_register(") [.put _, .own ", ", .put _, .own ")"] rfl
        ⟨closed_quoted _, closed_quoted _, trivial⟩
  | none =>
    cases value with
    | some value =>
      obtain ⟨v, hv, h⟩ := exists_of_bind_eq_ok h
      split at h
      · cases h
        exact closed_of_parts (.own "__epx_forget(") [.put _, .own ", ", .put _, .own ")"] rfl
          ⟨closed_quoted _, hvalue value rfl v hv, trivial⟩
      · cases h
        exact hvalue value rfl f hv
    | none => cases h

theorem Declaration.closed_script {typed : List String} {d : Declaration} {span : Span}
    {f : Fragment} (hname : IsWord d.name) (hexprs : Expr.ListNamesAll IsWord d.exprs)
    (h : d.script typed span = .ok f) : Closed f.code := by
  obtain ⟨-, -, h⟩ := exists_of_bind_eq_ok h
  obtain ⟨v, hv, h⟩ := exists_of_bind_eq_ok h
  cases h
  exact closed_of_parts (.put _) [.own " ", .put _, .own " = ", .put _] rfl
    ⟨closed_binding _, hname.closed, closed_valueScript hexprs hv, trivial⟩

theorem Store.closed_script {s : Store} {f : Fragment} (hname : IsWord s.name)
    (h : s.script = .ok f) : Closed f.code := by
  have hstored : ∀ v : Fragment, Closed v.code →
      Closed (s.binding.script ++ " " ++ s.name ++ " = " ++ v ++ ";" : Fragment).code :=
    fun v hv => closed_of_parts (.put _) [.own " ", .put _, .own " = ", .put _, .own ";"] rfl
      ⟨closed_binding _, hname.closed, hv, trivial⟩
  unfold Store.script at h
  split at h
  · obtain ⟨-, -, h⟩ := exists_of_bind_eq_ok h
    obtain ⟨v, hv, h⟩ := exists_of_bind_eq_ok h
    cases h
    exact hstored v (closed_templateScript hv)
  · cases h
    exact hstored _ (closed_quoted _)
  · cases h
    exact hstored _ (closed_quoted _)

theorem Mutation.closed_script {m : Mutation} {f : Fragment} (hname : IsWord m.target)
    (hexprs : Expr.ListNamesAll IsWord m.exprs) (h : m.script = .ok f) : Closed f.code := by
  rw [Mutation.exprs, Expr.listNamesAll_append, Expr.listNamesAll_singleton] at hexprs
  obtain ⟨v, hv, h⟩ := exists_of_bind_eq_ok h
  have hvalue := m.value.scriptClosed hexprs.2 v hv
  split at h
  · cases h
    exact closed_of_parts (.put _) [.own " = __epx_validate(", .put _, .own ", ", .put _, .own ")"]
      rfl ⟨hname.closed, closed_quoted _, hvalue, trivial⟩
  · obtain ⟨indices, hindices, h⟩ := exists_of_bind_eq_ok h
    cases h
    have hplace : ∀ f ∈ indices.map fun i => ("[" ++ i ++ "]" : Fragment), Closed f.code := by
      intro f hf
      obtain ⟨i, hi, rfl⟩ := List.mem_map.1 hf
      exact closed_of_parts (.own "[") [.put _, .own "]"] rfl
        ⟨Expr.scriptsClosed m.indices hexprs.1 indices hindices i hi, trivial⟩
    exact closed_of_parts (.put _) [.put _, .own " = ", .put _] rfl
      ⟨hname.closed, Fragment.closed_join (by decide) hplace, hvalue, trivial⟩

theorem Expr.closed_printedScript {e : Expr} {f : Fragment} (hnames : e.NamesAll IsWord)
    (h : e.printedScript = .ok f) : Closed f.code := by
  unfold printedScript at h
  split at h
  · split at h
    · exact closed_templateScript h
    · exact Expr.scriptClosed _ hnames f h
  · exact e.scriptClosed hnames f h

theorem LoopStart.closed_script {typed : List String} {start : Located LoopStart} {f : Fragment}
    (hnames : ∀ n ∈ start.value.names, IsWord n)
    (hexprs : Expr.ListNamesAll IsWord start.value.exprs)
    (h : LoopStart.script typed start = .ok f) : Closed f.code := by
  obtain ⟨value, span⟩ := start
  cases value with
  | declare d => exact Declaration.closed_script (hnames _ (List.mem_cons_self ..)) hexprs h
  | update m => exact Mutation.closed_script (hnames _ (List.mem_cons_self ..)) hexprs h
  | name w =>
    cases h
    exact (hnames _ (List.mem_cons_self ..)).closed

theorem closed_rangeLoop {counter : String} {first last step : Fragment} {body : List Fragment}
    (hcounter : IsWord counter) (hfirst : Closed first.code) (hlast : Closed last.code)
    (hstep : Closed step.code) (hbody : ∀ f ∈ body, Closed f.code) :
    Closed (rangeLoop counter first last step body).code := by
  have hup : Closed ("(" ++ first ++ " <= " ++ last ++ ")" : Fragment).code :=
    closed_of_parts (.own "(") [.put _, .own " <= ", .put _, .own ")"] rfl ⟨hfirst, hlast, trivial⟩
  have hcounter := hcounter.closed
  exact closed_of_parts (.own "for (let ")
    [.put _, .own " = ", .put _, .own " ? ", .put _, .own " : ", .put _, .own "; ",
      .put _, .own " ? ", .put _, .own " <= ", .put _, .own " : ", .put _, .own " >= ", .put _,
      .own "; ", .put _, .own " += ", .put _, .own " ? Math.abs(", .put _, .own ") : -Math.abs(",
      .put _, .own ")) ", .put _] rfl
    ⟨hcounter, hup, hfirst, hfirst, hup, hcounter, hlast, hcounter, hlast, hcounter, hup, hstep,
      hstep, closed_braced hbody, trivial⟩

theorem closed_functionScript {name : String} {params : List String}
    {returns : Option (Located TypeName)} {body : List Fragment} (hname : IsWord name)
    (hparams : ∀ n ∈ params, IsWord n) (hbody : ∀ f ∈ body, Closed f.code) :
    Closed (functionScript name params returns body).code := by
  have hlist : Closed (", ".intercalate params) :=
    closed_intercalate (by decide) fun n hn => (hparams n hn).closed
  have hheader : ∀ lines : List Fragment, (∀ f ∈ lines, Closed f.code) →
      Closed (("function " ++ name ++ "(" ++ ", ".intercalate params ++ ") " : String) ++
        (braced lines).code) :=
    fun lines hlines => closed_of_parts (.own "function ")
      [.put _, .own "(", .put _, .own ") ", .put _] rfl
      ⟨hname.closed, hlist, closed_braced hlines, trivial⟩
  cases returns with
  | none => exact hheader body hbody
  | some type =>
    refine hheader _ fun f hf => ?_
    rw [List.mem_singleton.1 hf]
    exact closed_of_parts (.own "return __epx_returns(")
      [.put _, .own ", ", .put _, .own ", (() => ", .put _, .own ")());"] rfl
      ⟨closed_quoted _, closed_quoted _, closed_braced hbody, trivial⟩

/-! ## Statements -/

namespace Stmt

variable {typed : List String} {span : Span}

/-- The script of a statement, if it has one, is closed. -/
def ScriptClosed (typed : List String) (stmt : Stmt) : Prop :=
  ∀ f, stmt.script typed = .ok f → Closed f.code

/-- The scripts of the statements of a block, if they have any, are closed. -/
def ScriptsClosed (typed : List String) (stmts : List Stmt) : Prop :=
  ∀ fs, scripts typed stmts = .ok fs → ∀ f ∈ fs, Closed f.code

/-- The script of the rest of a check, if it has one, is closed. -/
def OtherwiseClosed (typed : List String) (other : Otherwise) : Prop :=
  ∀ f, otherwiseScript typed other = .ok f → Closed f.code

/-- A statement whose script is a closed one with a semicolon. -/
theorem ScriptClosed.ended {stmt : Stmt} {x : Except Error Fragment}
    (hx : ∀ v, x = .ok v → Closed v.code)
    (hscript : stmt.script typed = do
      let v ← x
      pure (v ++ ";" : Fragment)) : ScriptClosed typed stmt := by
  intro f h
  rw [hscript] at h
  obtain ⟨v, hv, h⟩ := exists_of_bind_eq_ok h
  obtain rfl := Except.ok.inj h
  exact closed_of_parts (.put _) [.own ";"] rfl ⟨hx v hv, trivial⟩

/-- A statement whose script is a closed one between characters of its own. -/
theorem ScriptClosed.wrapped {stmt : Stmt} {x : Except Error Fragment} {before after : String}
    (hx : ∀ v, x = .ok v → Closed v.code)
    (hscript : stmt.script typed = do
      let v ← x
      pure (before ++ v ++ after : Fragment))
    (haround : Part.passAll start [.own before, .put "", .own after] = some start) :
    ScriptClosed typed stmt := by
  intro f h
  rw [hscript] at h
  obtain ⟨v, hv, h⟩ := exists_of_bind_eq_ok h
  obtain rfl := Except.ok.inj h
  exact closed_of_parts (.own before) [.put _, .own after] haround ⟨hx v hv, trivial⟩

theorem ScriptClosed.check {condition : Expr} {body : List Stmt} {other : Otherwise}
    (hcondition : condition.ScriptClosed) (hbody : ScriptsClosed typed body)
    (hother : OtherwiseClosed typed other) :
    ScriptClosed typed (.check condition body other span) := by
  intro f h
  rw [script] at h
  obtain ⟨c, hc, h⟩ := exists_of_bind_eq_ok h
  obtain ⟨b, hb, h⟩ := exists_of_bind_eq_ok h
  obtain ⟨o, ho, h⟩ := exists_of_bind_eq_ok h
  obtain rfl := Except.ok.inj h
  exact closed_of_parts (.own "if (") [.put _, .own ") ", .put _, .put _] rfl
    ⟨hcondition c hc, closed_braced (hbody b hb), hother o ho, trivial⟩

theorem ScriptClosed.repeatRange {counter : String} {first last step : Expr} {body : List Stmt}
    (hcounter : IsWord counter) (hfirst : first.ScriptClosed) (hlast : last.ScriptClosed)
    (hstep : step.ScriptClosed) (hbody : ScriptsClosed typed body) :
    ScriptClosed typed (.repeatRange counter first last step body span) := by
  intro f h
  rw [script] at h
  obtain ⟨a, ha, h⟩ := exists_of_bind_eq_ok h
  obtain ⟨z, hz, h⟩ := exists_of_bind_eq_ok h
  obtain ⟨d, hd, h⟩ := exists_of_bind_eq_ok h
  obtain ⟨b, hb, h⟩ := exists_of_bind_eq_ok h
  obtain rfl := Except.ok.inj h
  exact closed_rangeLoop hcounter (hfirst a ha) (hlast z hz) (hstep d hd) (hbody b hb)

theorem ScriptClosed.repeatEach {item collection : String} {body : List Stmt} (hitem : IsWord item)
    (hcollection : IsWord collection) (hbody : ScriptsClosed typed body) :
    ScriptClosed typed (.repeatEach item collection body span) := by
  intro f h
  rw [script] at h
  obtain ⟨b, hb, h⟩ := exists_of_bind_eq_ok h
  obtain rfl := Except.ok.inj h
  exact closed_of_parts (.own "for (const ") [.put _, .own " of ", .put _, .own ") ", .put _] rfl
    ⟨hitem.closed, hcollection.closed, closed_braced (hbody b hb), trivial⟩

theorem ScriptClosed.repeatUntil {condition : Expr} {body : List Stmt}
    (hcondition : condition.ScriptClosed) (hbody : ScriptsClosed typed body) :
    ScriptClosed typed (.repeatUntil condition body span) := by
  intro f h
  rw [script] at h
  obtain ⟨b, hb, h⟩ := exists_of_bind_eq_ok h
  obtain ⟨c, hc, h⟩ := exists_of_bind_eq_ok h
  obtain rfl := Except.ok.inj h
  exact closed_of_parts (.own "do ") [.put _, .own " while (!(", .put _, .own "));"] rfl
    ⟨closed_braced (hbody b hb), hcondition c hc, trivial⟩

theorem ScriptClosed.forLoop {start : Located LoopStart} {condition : Expr}
    {increment : Located Mutation} {body : List Stmt}
    (hstart : ∀ f, LoopStart.script typed start = .ok f → Closed f.code)
    (hcondition : condition.ScriptClosed)
    (hincrement : ∀ f, increment.value.script = .ok f → Closed f.code)
    (hbody : ScriptsClosed typed body) :
    ScriptClosed typed (.forLoop start condition increment body span) := by
  intro f h
  rw [script] at h
  obtain ⟨a, ha, h⟩ := exists_of_bind_eq_ok h
  obtain ⟨c, hc, h⟩ := exists_of_bind_eq_ok h
  obtain ⟨i, hi, h⟩ := exists_of_bind_eq_ok h
  obtain ⟨b, hb, h⟩ := exists_of_bind_eq_ok h
  obtain rfl := Except.ok.inj h
  exact closed_of_parts (.own "for (")
    [.put _, .own "; ", .put _, .own "; ", .put _, .own ") ", .put _] rfl
    ⟨hstart a ha, hcondition c hc, hincrement i hi, closed_braced (hbody b hb), trivial⟩

theorem ScriptClosed.function {name : String} {params : List String}
    {returns : Option (Located TypeName)} {body : List Stmt} (hname : IsWord name)
    (hparams : ∀ n ∈ params, IsWord n) (hbody : ScriptsClosed typed body) :
    ScriptClosed typed (.function name params returns body span) := by
  intro f h
  rw [script] at h
  obtain ⟨b, hb, h⟩ := exists_of_bind_eq_ok h
  obtain rfl := Except.ok.inj h
  exact closed_functionScript hname hparams (hbody b hb)

theorem OtherwiseClosed.check {condition : Expr} {body : List Stmt} {next : Otherwise}
    (hcondition : condition.ScriptClosed) (hbody : ScriptsClosed typed body)
    (hnext : OtherwiseClosed typed next) : OtherwiseClosed typed (.check condition body next) := by
  intro f h
  rw [otherwiseScript] at h
  obtain ⟨c, hc, h⟩ := exists_of_bind_eq_ok h
  obtain ⟨b, hb, h⟩ := exists_of_bind_eq_ok h
  obtain ⟨n, hn, h⟩ := exists_of_bind_eq_ok h
  obtain rfl := Except.ok.inj h
  exact closed_of_parts (.own " else if (") [.put _, .own ") ", .put _, .put _] rfl
    ⟨hcondition c hc, closed_braced (hbody b hb), hnext n hn, trivial⟩

theorem OtherwiseClosed.block {body : List Stmt} (hbody : ScriptsClosed typed body) :
    OtherwiseClosed typed (.block body) := by
  intro f h
  rw [otherwiseScript] at h
  obtain ⟨b, hb, h⟩ := exists_of_bind_eq_ok h
  obtain rfl := Except.ok.inj h
  exact closed_of_parts (.own " else ") [.put _] rfl ⟨closed_braced (hbody b hb), trivial⟩

theorem ScriptsClosed.cons {stmt : Stmt} {stmts : List Stmt} (hfirst : ScriptClosed typed stmt)
    (hrest : ScriptsClosed typed stmts) : ScriptsClosed typed (stmt :: stmts) := by
  intro fs h
  rw [scripts] at h
  obtain ⟨f, hf, h⟩ := exists_of_bind_eq_ok h
  obtain ⟨fs, hfs, h⟩ := exists_of_bind_eq_ok h
  obtain rfl := Except.ok.inj h
  exact List.forall_mem_cons.2 ⟨hfirst f hf, hrest fs hfs⟩

/-- The names that a statement writes, itself and in its expressions, are words, and it is no raw
block. -/
structure Wordy (stmt : Stmt) : Prop where
  names : ∀ n ∈ stmt.names, IsWord n
  exprs : Expr.ListNamesAll IsWord stmt.exprs
  notRaw : ∀ code span, stmt ≠ .raw code span

theorem Wordy.single {stmt : Stmt} {e : Expr} (h : stmt.Wordy) (he : stmt.exprs = [e]) :
    e.NamesAll IsWord :=
  Expr.listNamesAll_singleton.1 (he ▸ h.exprs)

mutual

/-- The script of a statement is closed if it and the statements inside it write only words for
names and have no raw blocks. -/
theorem scriptClosed (typed : List String) :
    (stmt : Stmt) → stmt.Wordy → (∀ x ∈ stmt.inner, x.Wordy) → ScriptClosed typed stmt
  | .declare d _, hw, _ => .ended
    (fun _ => d.closed_script (hw.names d.name (List.mem_cons_self ..)) hw.exprs) rfl
  | .store s _, hw, _ => fun _ => s.closed_script (hw.names s.name (List.mem_cons_self ..))
  | .update m _, hw, _ => .ended
    (fun _ => m.closed_script (hw.names m.target (List.mem_cons_self ..)) hw.exprs) rfl
  | .check condition body other _, hw, hin =>
    have hexprs := Expr.listNamesAll_cons.1 hw.exprs
    have hin := List.forall_mem_append.1 hin
    .check (condition.scriptClosed hexprs.1) (scriptsClosed typed body hin.1)
      (otherwiseClosed typed other hexprs.2 hin.2)
  | .repeatRange counter first last step body _, hw, hin =>
    have hfirst := Expr.listNamesAll_cons.1 hw.exprs
    have hlast := Expr.listNamesAll_cons.1 hfirst.2
    have hstep := Expr.listNamesAll_singleton.1 hlast.2
    .repeatRange (hw.names counter (List.mem_cons_self ..)) (first.scriptClosed hfirst.1)
      (last.scriptClosed hlast.1) (step.scriptClosed hstep) (scriptsClosed typed body hin)
  | .repeatEach item collection body _, hw, hin =>
    .repeatEach (hw.names item (by simp [names])) (hw.names collection (by simp [names]))
      (scriptsClosed typed body hin)
  | .repeatUntil condition body _, hw, hin =>
    .repeatUntil (condition.scriptClosed (hw.single rfl)) (scriptsClosed typed body hin)
  | .forLoop start condition increment body _, hw, hin =>
    have hnames := List.forall_mem_append.1 hw.names
    have hstart := Expr.listNamesAll_append.1 hw.exprs
    have hrest := Expr.listNamesAll_cons.1 hstart.2
    .forLoop (fun _ => LoopStart.closed_script hnames.1 hstart.1) (condition.scriptClosed hrest.1)
      (fun _ => increment.value.closed_script (hnames.2 _ (List.mem_cons_self ..)) hrest.2)
      (scriptsClosed typed body hin)
  | .function name params _ body _, hw, hin =>
    have hnames := List.forall_mem_cons.1 hw.names
    .function hnames.1 hnames.2 (scriptsClosed typed body hin)
  | .give value _, hw, _ =>
    .wrapped (value.scriptClosed (hw.single rfl)) rfl (by decide)
  | .display value _, hw, _ | .error value _, hw, _ | .panic value _, hw, _ =>
    .wrapped (fun _ => value.closed_printedScript (hw.single rfl)) rfl (by decide)
  | .skip _, _, _ | .halt _, _, _ => fun f h => by
    obtain rfl := Except.ok.inj h
    decide
  | .raw code span, hw, _ => absurd rfl (hw.notRaw code span)
  | .expr value _, hw, _ => .ended (value.scriptClosed (hw.single rfl)) rfl

/-- The scripts of the statements of a block are closed. -/
theorem scriptsClosed (typed : List String) :
    (stmts : List Stmt) → (∀ x ∈ nodesList stmts, x.Wordy) → ScriptsClosed typed stmts
  | [], _ => fun fs h => by
    obtain rfl := Except.ok.inj h
    simp
  | stmt :: stmts, hw => by
    rw [nodesList, List.forall_mem_append, List.forall_mem_cons] at hw
    exact .cons (scriptClosed typed stmt hw.1.1 hw.1.2) (scriptsClosed typed stmts hw.2)

/-- The script of the rest of a check is closed. -/
theorem otherwiseClosed (typed : List String) : (other : Otherwise) →
    Expr.ListNamesAll IsWord other.conditions → (∀ x ∈ nodesOtherwise other, x.Wordy) →
      OtherwiseClosed typed other
  | .nothing, _, _ => fun f h => by
    obtain rfl := Except.ok.inj h
    decide
  | .check condition body next, hconditions, hin =>
    have hconditions := Expr.listNamesAll_cons.1 hconditions
    have hin := List.forall_mem_append.1 hin
    .check (condition.scriptClosed hconditions.1) (scriptsClosed typed body hin.1)
      (otherwiseClosed typed next hconditions.2 hin.2)
  | .block body, _, hin => .block (scriptsClosed typed body hin)

end

end Stmt

/-! ## Programs -/

/-- Whether a token is a raw block, for sources to be checked by evaluation. -/
def isRawBlock : Outcome → Bool
  | .ok token => match token.value with
    | .raw _ => true
    | _ => false
  | .error _ => false

end Resin
