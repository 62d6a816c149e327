import Resin.Proofs.Script.Concat

/-!
# How names are bound

Names are bound by declarations, which may stand in the header of a loop, and by stored texts. In
the script of a program each of them is a binding of its own, in the order of the program
(`programScript_bindings`). What a name is bound to depends on the types that the program declares:

* a declaration with a type registers the type;
* a declaration without one forgets the type of its name if any declaration of the program, before
  or behind it and at any depth, gives the name a type, and else binds the value as it is;
* a stored text is bound as it is. It does not forget a type.
-/

namespace Resin

/-! ## Texts in a text -/

/-- In a text stand, one behind the other, texts for the items of a list. `R` says which texts an
item can have. -/
inductive Contains {α : Type} (R : α → List Char → Prop) : List Char → List α → Prop
  | nil : Contains R [] []
  | skip {c : Char} {text : List Char} {items : List α} :
    Contains R text items → Contains R (c :: text) items
  | cons {item : α} {text rest : List Char} {items : List α} :
    R item text → Contains R rest items → Contains R (text ++ rest) (item :: items)

namespace Contains

variable {α : Type} {R : α → List Char → Prop} {text text' : List Char} {items items' : List α}

theorem behind (front : List Char) (h : Contains R text items) :
    Contains R (front ++ text) items := by
  induction front with
  | nil => exact h
  | cons c front ih => exact .skip ih

theorem nothing (text : List Char) : Contains R text [] := by
  have h := (Contains.nil (R := R)).behind text
  rwa [List.append_nil] at h

theorem append (h : Contains R text items) (h' : Contains R text' items') :
    Contains R (text ++ text') (items ++ items') := by
  induction h with
  | nil => exact h'
  | skip _ ih => exact .skip ih
  | cons hitem _ ih =>
    rw [List.append_assoc]
    exact .cons hitem ih

theorem single {item : α} (h : R item text) : Contains R text [item] := by
  have hcons := Contains.cons h .nil
  rwa [List.append_nil] at hcons

end Contains

/-! ## Bindings of a program -/

/-- What binds a name. -/
inductive Binder where
  | declared (d : Declaration)
  | stored (s : Store)

namespace Binder

def name : Binder → String
  | declared d => d.name
  | stored s => s.name

def binding : Binder → Binding
  | declared d => d.binding
  | stored s => s.binding

end Binder

namespace Stmt

/-- What a statement binds a name with, by itself or in the header of a loop. -/
def binder? : Stmt → Option Binder
  | .store s _ => some (.stored s)
  | stmt => stmt.declaration?.map .declared

/-- The binders of some statements, at every depth and in the headers of loops. -/
def binders (stmts : List Stmt) : List Binder :=
  (nodesList stmts).filterMap binder?

/-- The binders of a statement, at every depth. -/
def ownBinders (stmt : Stmt) : List Binder :=
  (stmt :: stmt.inner).filterMap binder?

theorem binders_cons (stmt : Stmt) (stmts : List Stmt) :
    binders (stmt :: stmts) = stmt.ownBinders ++ binders stmts :=
  List.filterMap_append (l := stmt :: stmt.inner) ..

theorem ownBinders_check (c : Expr) (body : List Stmt) (other : Otherwise) (span : Span) :
    (Stmt.check c body other span).ownBinders =
      binders body ++ (nodesOtherwise other).filterMap binder? :=
  List.filterMap_append ..

theorem ownBinders_forLoop (start : Located LoopStart) (c : Expr) (inc : Located Mutation)
    (body : List Stmt) (span : Span) : (Stmt.forLoop start c inc body span).ownBinders =
      (Stmt.forLoop start c inc body span).binder?.toList ++ binders body := by
  unfold ownBinders
  cases hbinder : (Stmt.forLoop start c inc body span).binder? with
  | none => exact List.filterMap_cons_none hbinder
  | some b => exact List.filterMap_cons_some hbinder

theorem nodesOtherwise_check_binders (c : Expr) (body : List Stmt) (next : Otherwise) :
    (nodesOtherwise (.check c body next)).filterMap binder? =
      binders body ++ (nodesOtherwise next).filterMap binder? :=
  List.filterMap_append ..

end Stmt

/-- Some declaration of a program gives the name a type. -/
def GivesType (p : List Stmt) (n : String) : Prop :=
  ∃ d ∈ Stmt.declarations p, d.name = n ∧ d.type.isSome

theorem contains_typedNamesList {p : List Stmt} {n : String} :
    (Stmt.typedNamesList p).contains n = true ↔ GivesType p n := by
  rw [List.contains_iff_mem, Stmt.typedNamesList_eq, List.mem_flatMap]
  refine exists_congr fun d => and_congr_right fun _ => ?_
  unfold Declaration.typedName
  by_cases htype : d.type.isSome
  · simp [htype, eq_comm]
  · simp [htype]

/-! ## What a name is bound to -/

/-- The text of the value that a name is bound to in the script of a program. -/
inductive Binder.Value (p : List Stmt) : Binder → String → Prop
  | registered {d : Declaration} {type : Located TypeName} {value : Expr} {v : Fragment} :
    d.type = some type → d.value = some value → value.script = .ok v →
    Value p (.declared d) ("__epx_register(" ++ Literal.quoted d.name ++ ", " ++
      Literal.quoted type.value.spelling ++ ", " ++ v.code ++ ")")
  | registeredEmpty {d : Declaration} {type : Located TypeName} :
    d.type = some type → d.value = none →
    Value p (.declared d) ("__epx_register(" ++ Literal.quoted d.name ++ ", " ++
      Literal.quoted type.value.spelling ++ ")")
  | forgotten {d : Declaration} {value : Expr} {v : Fragment} :
    d.type = none → d.value = some value → value.script = .ok v → GivesType p d.name →
    Value p (.declared d) ("__epx_forget(" ++ Literal.quoted d.name ++ ", " ++ v.code ++ ")")
  | untyped {d : Declaration} {value : Expr} {v : Fragment} :
    d.type = none → d.value = some value → value.script = .ok v → ¬ GivesType p d.name →
    Value p (.declared d) v.code
  | text {s : Store} : s.quote ≠ .backtick → Value p (.stored s) (Literal.quoted s.content)
  | template {s : Store} {v : Fragment} : s.quote = .backtick →
    templateScript s.content (s.contentSpan.start + 1) = .ok v → Value p (.stored s) v.code

/-- The text of a binding in the script of a program. -/
def Binder.WrittenAs (p : List Stmt) (b : Binder) (text : List Char) : Prop :=
  ∃ value, b.Value p value ∧
    text = (b.binding.script ++ " " ++ b.name ++ " = " ++ value ++ ";").toList

theorem Declaration.writtenAs {p : List Stmt} {d : Declaration} {span : Span} {f : Fragment}
    (h : d.script (Stmt.typedNamesList p) span = .ok f) :
    (Binder.declared d).WrittenAs p (f ++ ";" : Fragment).code.toList := by
  obtain ⟨⟨⟩, -, h⟩ := exists_of_bind_eq_ok h
  obtain ⟨value, hvalue, h⟩ := exists_of_bind_eq_ok h
  obtain rfl := Except.ok.inj h
  refine ⟨value.code, ?_, rfl⟩
  unfold Declaration.valueScript at hvalue
  split at hvalue
  case h_1 type e htype he =>
    obtain ⟨v, hv, hvalue⟩ := exists_of_bind_eq_ok hvalue
    obtain rfl := Except.ok.inj hvalue
    exact .registered htype he hv
  case h_2 type htype he =>
    obtain rfl := Except.ok.inj hvalue
    exact .registeredEmpty htype he
  case h_3 e htype he =>
    obtain ⟨v, hv, hvalue⟩ := exists_of_bind_eq_ok hvalue
    split at hvalue
    case isTrue hname =>
      obtain rfl := Except.ok.inj hvalue
      exact .forgotten htype he hv (contains_typedNamesList.1 hname)
    case isFalse hname =>
      obtain rfl := Except.ok.inj hvalue
      exact .untyped htype he hv fun hgives => hname (contains_typedNamesList.2 hgives)
  case h_4 => cases hvalue

theorem Store.writtenAs {p : List Stmt} {s : Store} {f : Fragment} (h : s.script = .ok f) :
    (Binder.stored s).WrittenAs p f.code.toList := by
  unfold Store.script at h
  split at h
  case h_1 hquote =>
    obtain ⟨⟨⟩, -, h⟩ := exists_of_bind_eq_ok h
    obtain ⟨value, hvalue, h⟩ := exists_of_bind_eq_ok h
    obtain rfl := Except.ok.inj h
    exact ⟨_, .template hquote hvalue, rfl⟩
  all_goals
    rename_i hquote
    obtain rfl := Except.ok.inj h
    exact ⟨_, .text (by rw [hquote]; nofun), rfl⟩

/-! ## Bindings in scripts -/

/-- A fragment holds the texts of some bindings, in their order. -/
def Fragment.Binds (p : List Stmt) (f : Fragment) (bs : List Binder) : Prop :=
  Contains (Binder.WrittenAs p) f.code.toList bs

namespace Fragment.Binds

variable {p : List Stmt} {f g : Fragment} {bs cs : List Binder}

theorem nothing (f : Fragment) : f.Binds p [] :=
  Contains.nothing _

theorem append (h : f.Binds p bs) (h' : g.Binds p cs) : (f ++ g).Binds p (bs ++ cs) := by
  unfold Binds
  rw [code_append, String.toList_append]
  exact Contains.append h h'

theorem behind (f : Fragment) (h : g.Binds p bs) : (f ++ g).Binds p bs :=
  (nothing f).append h

theorem before (g : Fragment) (h : f.Binds p bs) : (f ++ g).Binds p bs := by
  have happend := h.append (nothing g)
  rwa [List.append_nil] at happend

theorem join_cons {separator : String} {fs : List Fragment} (h : f.Binds p bs)
    (h' : (join separator fs).Binds p cs) : (join separator (f :: fs)).Binds p (bs ++ cs) := by
  cases fs with
  | nil =>
    -- without more lines the joined text behind `f` is empty, and holds what it holds all the same
    rw [join_singleton, ← append_empty f]
    exact h.append h'
  | cons g fs =>
    rw [join_cons_cons]
    exact (h.before _).append h'

theorem braced {lines : List Fragment} (h : (join "\n" lines).Binds p bs) :
    (Resin.braced lines).Binds p bs :=
  (h.behind _).before _

theorem functionScript {name : String} {params : List String} {returns : Option (Located TypeName)}
    {body : List Fragment} (h : (join "\n" body).Binds p bs) :
    (Resin.functionScript name params returns body).Binds p bs := by
  unfold Resin.functionScript
  cases returns with
  | none => exact h.braced.behind _
  | some type =>
    refine .behind _ (.braced ?_)
    rw [join_singleton]
    exact (h.braced.behind _).before _

/-- The header of a loop ends a declaration by its first semicolon. -/
theorem loopStart {start : Located LoopStart}
    (h : LoopStart.script (Stmt.typedNamesList p) start = .ok f) (c : Expr)
    (inc : Located Mutation) (body : List Stmt) (span : Span) :
    ("for (" ++ f ++ "; " : Fragment).Binds p
      (Stmt.forLoop start c inc body span).binder?.toList := by
  obtain ⟨value, a⟩ := start
  cases value with
  | declare d =>
    -- the binding ends in the middle of what the header writes behind the declaration
    have hends : ("for (" ++ f ++ "; " : Fragment) = "for (" ++ (f ++ ";") ++ " " := by
      rw [show text "; " = text ";" ++ text " " from rfl]
      simp only [append_assoc]
    rw [hends]
    have hbinds : (f ++ ";" : Fragment).Binds p [.declared d] :=
      Contains.single (Declaration.writtenAs h)
    exact (hbinds.behind _).before _
  | update m => exact nothing _
  | name word => exact nothing _

end Fragment.Binds

namespace Stmt

variable {p : List Stmt}

mutual

theorem binds_script : ∀ (stmt : Stmt) (f : Fragment),
    stmt.script (typedNamesList p) = .ok f → f.Binds p stmt.ownBinders
  | .declare d span, f, h => by
    obtain ⟨code, hcode, h⟩ := exists_of_bind_eq_ok h
    obtain rfl := Except.ok.inj h
    exact .single (Declaration.writtenAs hcode)
  | .store s span, f, h => .single (Store.writtenAs h)
  | .check c body other span, f, h => by
    obtain ⟨condition, -, h⟩ := exists_of_bind_eq_ok h
    obtain ⟨lines, hlines, h⟩ := exists_of_bind_eq_ok h
    obtain ⟨rest, hrest, h⟩ := exists_of_bind_eq_ok h
    obtain rfl := Except.ok.inj h
    rw [ownBinders_check]
    exact ((binds_scripts body lines hlines).braced.behind _).append
      (binds_otherwiseScript other rest hrest)
  | .repeatRange counter first last step body span, f, h => by
    obtain ⟨first, -, h⟩ := exists_of_bind_eq_ok h
    obtain ⟨last, -, h⟩ := exists_of_bind_eq_ok h
    obtain ⟨step, -, h⟩ := exists_of_bind_eq_ok h
    obtain ⟨lines, hlines, h⟩ := exists_of_bind_eq_ok h
    obtain rfl := Except.ok.inj h
    exact (binds_scripts body lines hlines).braced.behind _
  | .repeatEach item collection body span, f, h => by
    obtain ⟨lines, hlines, h⟩ := exists_of_bind_eq_ok h
    obtain rfl := Except.ok.inj h
    exact (binds_scripts body lines hlines).braced.behind _
  | .repeatUntil c body span, f, h => by
    obtain ⟨lines, hlines, h⟩ := exists_of_bind_eq_ok h
    obtain ⟨condition, -, h⟩ := exists_of_bind_eq_ok h
    obtain rfl := Except.ok.inj h
    exact ((((binds_scripts body lines hlines).braced.behind _).before _).before _).before _
  | .forLoop start c inc body span, f, h => by
    obtain ⟨header, hheader, h⟩ := exists_of_bind_eq_ok h
    obtain ⟨condition, -, h⟩ := exists_of_bind_eq_ok h
    obtain ⟨increment, -, h⟩ := exists_of_bind_eq_ok h
    obtain ⟨lines, hlines, h⟩ := exists_of_bind_eq_ok h
    obtain rfl := Except.ok.inj h
    have hstart := Fragment.Binds.loopStart hheader c inc body span
    have hbody := (binds_scripts body lines hlines).braced
    rw [ownBinders_forLoop]
    exact ((((hstart.before _).before _).before _).before _).append hbody
  | .function name params returns body span, f, h => by
    obtain ⟨lines, hlines, h⟩ := exists_of_bind_eq_ok h
    obtain rfl := Except.ok.inj h
    exact (binds_scripts body lines hlines).functionScript
  | .update _ _, f, _ | .give _ _, f, _ | .display _ _, f, _ | .error _ _, f, _ | .panic _ _, f, _
  | .skip _, f, _ | .halt _, f, _ | .raw _ _, f, _ | .expr _ _, f, _ => .nothing f

/-- The script of a block holds the bindings of its statements. -/
theorem binds_scripts : ∀ (stmts : List Stmt) (fs : List Fragment),
    scripts (typedNamesList p) stmts = .ok fs → (Fragment.join "\n" fs).Binds p (binders stmts)
  | [], fs, h => .nothing _
  | stmt :: stmts, fs, h => by
    obtain ⟨first, hfirst, h⟩ := exists_of_bind_eq_ok h
    obtain ⟨rest, hrest, h⟩ := exists_of_bind_eq_ok h
    obtain rfl := Except.ok.inj h
    rw [binders_cons]
    exact (binds_script stmt first hfirst).join_cons (binds_scripts stmts rest hrest)

theorem binds_otherwiseScript : ∀ (other : Otherwise) (f : Fragment),
    otherwiseScript (typedNamesList p) other = .ok f →
      f.Binds p ((nodesOtherwise other).filterMap binder?)
  | .nothing, f, h => .nothing f
  | .check c body next, f, h => by
    obtain ⟨condition, -, h⟩ := exists_of_bind_eq_ok h
    obtain ⟨lines, hlines, h⟩ := exists_of_bind_eq_ok h
    obtain ⟨rest, hrest, h⟩ := exists_of_bind_eq_ok h
    obtain rfl := Except.ok.inj h
    rw [nodesOtherwise_check_binders]
    exact ((binds_scripts body lines hlines).braced.behind _).append
      (binds_otherwiseScript next rest hrest)
  | .block body, f, h => by
    obtain ⟨lines, hlines, h⟩ := exists_of_bind_eq_ok h
    obtain rfl := Except.ok.inj h
    exact (binds_scripts body lines hlines).braced.behind _

end

end Stmt

/-- The bindings of a program stand in its script in their order, each written for the types that
the program declares. A stored text is bound as it is, also if its name is given a type. -/
theorem programScript_bindings {p : List Stmt} {f : Fragment} (h : programScript p = .ok f) :
    Contains (Binder.WrittenAs p) f.code.toList (Stmt.binders p) := by
  obtain ⟨lines, hlines, h⟩ := exists_of_bind_eq_ok h
  obtain rfl := Except.ok.inj h
  exact Stmt.binds_scripts p lines hlines

/-- A name is given a type in a block. Behind the block it is declared without one, which forgets
the type, and bound to a text, which does not. -/
theorem programScript_bindings_stored : ∃ source p f,
    source =
      "check [y] \x7b assign x as int = 1; \x7d assign x = 2; store x = \"a\"; update x = \"b\";" ∧
    parseProgram source = .ok p ∧ programScript p = .ok f ∧
    f.code = "if (y) \x7b\nlet x = __epx_register(\"x\", \"int\", 1);\n\x7d\n" ++
      "let x = __epx_forget(\"x\", 2);\nlet x = \"a\";\nx = __epx_validate(\"x\", \"b\");" ∧
    Contains (Binder.WrittenAs p) f.code.toList (Stmt.binders p) := by
  let source :=
    "check [y] \x7b assign x as int = 1; \x7d assign x = 2; store x = \"a\"; update x = \"b\";"
  let p : List Stmt := [
    .check (.name "y" ⟨7, 8⟩) [.declare ⟨.plain, "x", some ⟨.int, ⟨24, 27⟩⟩,
      some (.number (.ofParts ['1'] []) ⟨30, 31⟩)⟩ ⟨12, 32⟩] .nothing ⟨0, 34⟩,
    .declare ⟨.plain, "x", none, some (.number (.ofParts ['2'] []) ⟨46, 47⟩)⟩ ⟨35, 48⟩,
    .store ⟨.plain, "x", "a", .double, ⟨59, 62⟩⟩ ⟨49, 63⟩,
    .update ⟨"x", [], .text "b" .double ⟨75, 78⟩⟩ ⟨64, 79⟩]
  have hp : (parseProgram source).toOption = some p := by decide +kernel
  have hf : (programScript p).toOption = some
      ⟨"if (y) \x7b\nlet x = __epx_register(\"x\", \"int\", 1);\n\x7d\n" ++
        "let x = __epx_forget(\"x\", 2);\nlet x = \"a\";\nx = __epx_validate(\"x\", \"b\");",
        ⟨true, false⟩⟩ := by decide +kernel
  have hok := eq_ok_of_toOption hf
  exact ⟨source, p, _, rfl, eq_ok_of_toOption hp, hok, rfl, programScript_bindings hok⟩

end Resin
