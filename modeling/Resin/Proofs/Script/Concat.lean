import Resin.Compile
import Resin.Proofs.Print.RoundTrip
import Resin.Proofs.Grammar.Program
import Resin.Proofs.Script.WellFormed
import Resin.Proofs.Token.Stretches

/-!
# Programs one after the other

Two sources with a line feed between them are read as the statements of the first and then those of
the second: their tokens stand one after the other (`Stream.items_join`), a statement takes no token
beyond its own, and the statements of the second source are only moved.

The scripts of two programs stand one after the other in the script of both. The one thing that a
statement is told about the rest of its program is which names are given a type, and it asks only
about the names that it declares without one (`Stmt.scripts_congr`).
-/

namespace Resin

open Text

/-! ## Sources one after the other -/

/-- Two stretches between the same states are the same. -/
theorem ParseState.Passes.unique {s t : ParseState} {ts us : List (Located Token)}
    (h : s.Passes ts t) (h' : s.Passes us t) : ts = us := by
  have nothing {vs : List (Located Token)} (hvs : t.Passes vs t) : vs = [] := by
    have := hvs.length_add_remaining_le
    exact List.eq_nil_of_length_eq_zero (by omega)
  rcases h.split h' with ⟨vs, rfl, hvs⟩ | ⟨vs, rfl, hvs⟩
  · rw [nothing hvs, List.append_nil]
  · rw [nothing hvs, List.append_nil]

namespace Grammar

variable {alone : Expr → Prop} {ts us : List (Located Token)} {p q : List Stmt}

theorem Statements.append : ∀ {ts : List (Located Token)} {p : List Stmt},
    Statements alone ts p → Statements alone us q → Statements alone (ts ++ us) (p ++ q)
  | _, _, .nil, hq => hq
  | _, _, .cons hs hss, hq => by
    rw [List.append_assoc]
    exact .cons hs (hss.append hq)

/-- What a source is read as is written by its tokens wherever they stand. -/
theorem Statements.move {s t : ParseState} (g : Nat → Nat) (h : Statements anyExpr us q)
    (hus : s.Passes us t) (hend : t.current.value = .endOfFile) :
    Statements anyExpr (us.map (Located.move g)) (q.map (Stmt.move g)) := by
  have hmoved := Parse.tracks_program (g := g) s
  rw [h.read hus hend] at hmoved
  generalize hread : Parse.program (s.move g) = reply at hmoved
  cases hmoved with
  | done hq =>
    obtain rfl := hq
    obtain ⟨vs, hvs, hq, -⟩ := program_sound hread
    rwa [(hus.move g).unique hvs]

end Grammar

/-- Two sources that are accepted are accepted with a line feed between them, and read as the
statements of the first and then those of the second. -/
theorem parseProgram_append {a b : String} {p q : List Stmt} (ha : parseProgram a = .ok p)
    (hb : parseProgram b = .ok q) : parseProgram (a ++ "\n" ++ b) =
      .ok (p ++ q.map (Stmt.mapSpans (Span.shift (byteLength a.toList + 1)))) := by
  obtain ⟨ts, hts, hp⟩ := statements_of_parseProgram ha
  obtain ⟨us, hus, hq⟩ := statements_of_parseProgram hb
  obtain ⟨s, t, -, hpasses, hend⟩ := passes_of_items_eq hus
  have hmoved := hq.move (· + (byteLength a.toList + 1)) hpasses hend
  refine parseProgram_of_statements ?_ (hp.append hmoved)
  rw [Stream.items_join hts, hus, List.map_append, List.map_map, List.map_map]
  rfl

/-! ## Declarations in a program -/

namespace Stmt

/-- The declarations of some statements, at every depth and in the headers of loops. -/
def declarations (stmts : List Stmt) : List Declaration :=
  (nodesList stmts).filterMap declaration?

/-- The declarations that a statement makes, at every depth. -/
def ownDeclarations (stmt : Stmt) : List Declaration :=
  (stmt :: stmt.inner).filterMap declaration?

theorem declarations_cons (stmt : Stmt) (stmts : List Stmt) :
    declarations (stmt :: stmts) = stmt.ownDeclarations ++ declarations stmts := by
  simp only [declarations, ownDeclarations, nodesList, List.cons_append, List.filterMap_cons,
    List.filterMap_append]
  cases stmt.declaration? <;> simp

theorem ownDeclarations_check (c : Expr) (body : List Stmt) (other : Otherwise) (span : Span) :
    (Stmt.check c body other span).ownDeclarations =
      declarations body ++ (nodesOtherwise other).filterMap declaration? :=
  List.filterMap_append ..

theorem ownDeclarations_forLoop (start : Located LoopStart) (c : Expr) (inc : Located Mutation)
    (body : List Stmt) (span : Span) : (Stmt.forLoop start c inc body span).ownDeclarations =
      (match start.value with | .declare d => [d] | .update _ | .name _ => []) ++
        declarations body := by
  obtain ⟨value, a⟩ := start
  cases value <;> rfl

mutual

theorem typedNames_eq : ∀ stmt : Stmt,
    typedNames stmt = stmt.ownDeclarations.flatMap Declaration.typedName
  | .declare d span => (List.append_nil _).symm
  | .check c body other span => by
    rw [typedNames, ownDeclarations_check, List.flatMap_append, typedNamesList_eq body,
      typedNamesOtherwise_eq other]
  | .forLoop start c inc body span => by
    rw [typedNames, ownDeclarations_forLoop, List.flatMap_append, typedNamesList_eq body]
    obtain ⟨value, a⟩ := start
    cases value <;> simp [LoopStart.typedName]
  | .repeatRange _ _ _ _ body _ | .repeatEach _ _ body _ | .repeatUntil _ body _
  | .function _ _ _ body _ => typedNamesList_eq body
  | .store _ _ | .update _ _ | .give _ _ | .display _ _ | .error _ _ | .panic _ _ | .skip _
  | .halt _ | .raw _ _ | .expr _ _ => rfl

/-- The names with a declared type are those of the declarations that give one. -/
theorem typedNamesList_eq : ∀ stmts : List Stmt,
    typedNamesList stmts = (declarations stmts).flatMap Declaration.typedName
  | [] => rfl
  | stmt :: stmts => by
    rw [typedNamesList, declarations_cons, List.flatMap_append, typedNames_eq stmt,
      typedNamesList_eq stmts]

theorem typedNamesOtherwise_eq : ∀ other : Otherwise, typedNamesOtherwise other =
    ((nodesOtherwise other).filterMap declaration?).flatMap Declaration.typedName
  | .nothing => rfl
  | .check c body next => by
    rw [typedNamesOtherwise, nodesOtherwise, List.filterMap_append, List.flatMap_append,
      typedNamesList_eq body, typedNamesOtherwise_eq next]
    rfl
  | .block body => typedNamesList_eq body

end

end Stmt

/-! ## What a script asks about names -/

/-- Two lists of names that tell the same about the names which are declared without a type. -/
def SameTyped (typed typed' : List String) (ds : List Declaration) : Prop :=
  ∀ d ∈ ds, d.type = none → typed.contains d.name = typed'.contains d.name

namespace SameTyped

variable {typed typed' : List String} {ds ds' : List Declaration}

theorem left (h : SameTyped typed typed' (ds ++ ds')) : SameTyped typed typed' ds :=
  fun d hd => h d (List.mem_append_left _ hd)

theorem right (h : SameTyped typed typed' (ds ++ ds')) : SameTyped typed typed' ds' :=
  fun d hd => h d (List.mem_append_right _ hd)

end SameTyped

theorem Declaration.script_congr {typed typed' : List String} {d : Declaration}
    (h : d.type = none → typed.contains d.name = typed'.contains d.name) (span : Span) :
    d.script typed span = d.script typed' span := by
  have hvalue : d.valueScript typed span = d.valueScript typed' span := by
    unfold valueScript
    cases htype : d.type with
    | none => rw [h htype]
    | some type => cases d.value <;> rfl
  rw [Declaration.script, Declaration.script, hvalue]

theorem LoopStart.script_congr {typed typed' : List String} {start : Located LoopStart}
    (h : ∀ d, start.value = .declare d → d.type = none →
      typed.contains d.name = typed'.contains d.name) :
    LoopStart.script typed start = LoopStart.script typed' start := by
  unfold LoopStart.script
  cases hstart : start.value with
  | declare d => exact Declaration.script_congr (h d hstart) _
  | update m => rfl
  | name w => rfl

namespace Stmt

variable {typed typed' : List String}

mutual

theorem script_congr : ∀ stmt : Stmt, SameTyped typed typed' stmt.ownDeclarations →
    script typed stmt = script typed' stmt
  | .declare d span, h => by
    rw [script, script, Declaration.script_congr (h d (by simp [ownDeclarations, declaration?]))]
  | .check c body other span, h => by
    rw [ownDeclarations_check] at h
    simp only [script]
    rw [scripts_congr body h.left, otherwiseScript_congr other h.right]
  | .repeatRange x a b d body span, h => by
    simp only [script]
    rw [scripts_congr body h]
  | .repeatEach x xs body span, h => by
    simp only [script]
    rw [scripts_congr body h]
  | .repeatUntil c body span, h => by
    simp only [script]
    rw [scripts_congr body h]
  | .forLoop start c inc body span, h => by
    rw [ownDeclarations_forLoop] at h
    simp only [script]
    rw [LoopStart.script_congr, scripts_congr body h.right]
    intro d hd
    exact h.left d (by simp [hd])
  | .function f ps r body span, h => by
    simp only [script]
    rw [scripts_congr body h]
  | .store _ _, _ | .update _ _, _ | .give _ _, _ | .display _ _, _ | .error _ _, _
  | .panic _ _, _ | .skip _, _ | .halt _, _ | .raw _ _, _ | .expr _ _, _ => rfl

/-- The scripts of statements depend only on which names declared without a type have one. -/
theorem scripts_congr : ∀ stmts : List Stmt, SameTyped typed typed' (declarations stmts) →
    scripts typed stmts = scripts typed' stmts
  | [], _ => rfl
  | stmt :: stmts, h => by
    rw [declarations_cons] at h
    rw [scripts, scripts, script_congr stmt h.left, scripts_congr stmts h.right]

theorem otherwiseScript_congr : ∀ other : Otherwise,
    SameTyped typed typed' ((nodesOtherwise other).filterMap declaration?) →
    otherwiseScript typed other = otherwiseScript typed' other
  | .nothing, _ => rfl
  | .check c body next, h => by
    rw [nodesOtherwise, List.filterMap_append] at h
    simp only [otherwiseScript]
    rw [scripts_congr body h.left, otherwiseScript_congr next h.right]
  | .block body, h => by
    rw [otherwiseScript, otherwiseScript, scripts_congr body h]

end

end Stmt

/-! ## Programs one after the other -/

/-- Declarations of one name in two programs both give a type or both give none. -/
def Compatible (p q : List Stmt) : Prop :=
  ∀ d ∈ Stmt.declarations p, ∀ e ∈ Stmt.declarations q, d.name = e.name →
    d.type.isSome = e.type.isSome

instance (p q : List Stmt) : Decidable (Compatible p q) :=
  inferInstanceAs (Decidable (∀ d ∈ Stmt.declarations p, ∀ e ∈ Stmt.declarations q,
    d.name = e.name → d.type.isSome = e.type.isSome))

theorem Compatible.symm {p q : List Stmt} (h : Compatible p q) : Compatible q p :=
  fun d hd e he hname => (h e he d hd hname.symm).symm

/-- A program learns nothing about its own names from a program that it is compatible with. -/
theorem Compatible.not_mem {p q : List Stmt} (h : Compatible p q) {d : Declaration}
    (hd : d ∈ Stmt.declarations p) (htype : d.type = none) : d.name ∉ Stmt.typedNamesList q := by
  rw [Stmt.typedNamesList_eq, List.mem_flatMap]
  rintro ⟨e, he, hname⟩
  unfold Declaration.typedName at hname
  split at hname
  · next hsome =>
    have hsame := h d hd e he (List.mem_singleton.1 hname)
    rw [htype, hsome] at hsame
    cases hsame
  · cases hname

theorem Stmt.typedNamesList_append (p q : List Stmt) :
    typedNamesList (p ++ q) = typedNamesList p ++ typedNamesList q := by
  induction p with
  | nil => rfl
  | cons stmt p ih => simp only [List.cons_append, typedNamesList, ih, List.append_assoc]

theorem Stmt.scripts_append {typed : List String} {p q : List Stmt} {xs ys : List Fragment}
    (hp : scripts typed p = .ok xs) (hq : scripts typed q = .ok ys) :
    scripts typed (p ++ q) = .ok (xs ++ ys) := by
  induction p generalizing xs with
  | nil =>
    cases hp
    exact hq
  | cons stmt p ih =>
    simp only [scripts] at hp
    obtain ⟨first, hfirst, hp⟩ := exists_of_bind_eq_ok hp
    obtain ⟨rest, hrest, hp⟩ := exists_of_bind_eq_ok hp
    cases hp
    simp only [List.cons_append, scripts, hfirst, ih hrest]
    rfl

theorem Stmt.scripts_ne_nil {typed : List String} {p : List Stmt} {xs : List Fragment}
    (hp : scripts typed p = .ok xs) (hne : p ≠ []) : xs ≠ [] := by
  cases p with
  | nil => exact absurd rfl hne
  | cons stmt p =>
    simp only [scripts] at hp
    obtain ⟨first, hfirst, hp⟩ := exists_of_bind_eq_ok hp
    obtain ⟨rest, hrest, hp⟩ := exists_of_bind_eq_ok hp
    cases hp
    exact List.cons_ne_nil _ _

theorem Fragment.allFeatures_append (xs ys : List Fragment) :
    allFeatures (xs ++ ys) = (allFeatures xs).union (allFeatures ys) := by
  induction xs with
  | nil => exact (Features.none_union _).symm
  | cons x xs ih =>
    change x.features.union (allFeatures (xs ++ ys)) = _
    rw [ih, ← Features.union_assoc]
    rfl

theorem Fragment.join_append (sep : String) {xs ys : List Fragment} (hxs : xs ≠ [])
    (hys : ys ≠ []) : join sep (xs ++ ys) =
      ⟨(join sep xs).code ++ sep ++ (join sep ys).code,
        (join sep xs).features.union (join sep ys).features⟩ := by
  have hcode := String.intercalate_append_of_ne_nil (s := sep) (l := xs.map code)
    (m := ys.map code) (by simpa using hxs) (by simpa using hys)
  simp only [join, List.map_append, hcode, allFeatures_append]

/-- The script of two programs is their two scripts on lines of their own. -/
theorem programScript_append {p q : List Stmt} {f g : Fragment} (hp : p ≠ []) (hq : q ≠ [])
    (h : Compatible p q) (hf : programScript p = .ok f) (hg : programScript q = .ok g) :
    programScript (p ++ q) = .ok ⟨f.code ++ "\n" ++ g.code, f.features.union g.features⟩ := by
  unfold programScript at hf hg
  obtain ⟨xs, hxs, hf⟩ := exists_of_bind_eq_ok hf
  obtain ⟨ys, hys, hg⟩ := exists_of_bind_eq_ok hg
  cases hf
  cases hg
  have hleft : SameTyped (Stmt.typedNamesList p) (Stmt.typedNamesList (p ++ q))
      (Stmt.declarations p) := by
    intro d hd htype
    simp [Stmt.typedNamesList_append, h.not_mem hd htype]
  have hright : SameTyped (Stmt.typedNamesList q) (Stmt.typedNamesList (p ++ q))
      (Stmt.declarations q) := by
    intro d hd htype
    simp [Stmt.typedNamesList_append, h.symm.not_mem hd htype]
  rw [Stmt.scripts_congr p hleft] at hxs
  rw [Stmt.scripts_congr q hright] at hys
  unfold programScript
  rw [Stmt.scripts_append hxs hys, ← Fragment.join_append _ (Stmt.scripts_ne_nil hxs hp)
    (Stmt.scripts_ne_nil hys hq)]
  rfl

/-- Compilation goes over sources and over programs piece by piece. Two sources that are accepted
are accepted with a line feed between them, and read as the statements of the first and then those
of the second, moved behind the first source and the line feed. And two programs that have scripts
have their scripts one after the other on lines of their own, with the preambles of both, unless a
name that has a declared type in one of them is declared without a type in the other. -/
theorem compilation_composes :
    (∀ (a b : String) (p q : List Stmt), parseProgram a = .ok p → parseProgram b = .ok q →
      parseProgram (a ++ "\n" ++ b) =
        .ok (p ++ q.map (Stmt.mapSpans (Span.shift (byteLength a.toList + 1))))) ∧
    ∀ (p q : List Stmt) (f g : Fragment), p ≠ [] → q ≠ [] → Compatible p q →
      programScript p = .ok f → programScript q = .ok g →
      programScript (p ++ q) = .ok ⟨f.code ++ "\n" ++ g.code,
        ⟨f.features.types || g.features.types, f.features.input || g.features.input⟩⟩ :=
  ⟨fun _ _ _ _ => parseProgram_append, fun _ _ _ _ => programScript_append⟩

/-- A check at the end of the first source, with a comment behind it, does not go on in the second;
both declare a name with a type. -/
theorem compilation_composes_check : ∃ a b p q f g,
    a = "check [x] \x7b assign n as int = 1; \x7d $ done" ∧ b = "assign n as int = :input;" ∧
    parseProgram a = .ok p ∧ parseProgram b = .ok q ∧ Compatible p q ∧
    programScript p = .ok f ∧ programScript q = .ok g ∧
    parseProgram (a ++ "\n" ++ b) =
      .ok (p ++ q.map (Stmt.mapSpans (Span.shift (byteLength a.toList + 1)))) ∧
    programScript (p ++ q) = .ok ⟨f.code ++ "\n" ++ g.code,
      ⟨f.features.types || g.features.types, f.features.input || g.features.input⟩⟩ := by
  let a := "check [x] \x7b assign n as int = 1; \x7d $ done"
  let b := "assign n as int = :input;"
  let p : List Stmt := [.check (.name "x" ⟨7, 8⟩)
    [.declare ⟨.plain, "n", some ⟨.int, ⟨24, 27⟩⟩, some (.number .one ⟨30, 31⟩)⟩ ⟨12, 32⟩]
    .nothing ⟨0, 34⟩]
  let q : List Stmt :=
    [.declare ⟨.plain, "n", some ⟨.int, ⟨12, 15⟩⟩, some (.input ⟨18, 24⟩)⟩ ⟨0, 25⟩]
  have hp : (parseProgram a).toOption = some p := by decide +kernel
  have hq : (parseProgram b).toOption = some q := by decide +kernel
  have hcompatible : Compatible p q := by decide +kernel
  obtain ⟨f, hf⟩ : ∃ f, programScript p = .ok f := ⟨_, rfl⟩
  obtain ⟨g, hg⟩ : ∃ g, programScript q = .ok g := ⟨_, rfl⟩
  refine ⟨a, b, p, q, f, g, rfl, rfl, eq_ok_of_toOption hp, eq_ok_of_toOption hq, hcompatible, hf,
    hg, ?_, ?_⟩
  · exact compilation_composes.1 a b p q (eq_ok_of_toOption hp) (eq_ok_of_toOption hq)
  · exact compilation_composes.2 p q f g (by simp [p]) (by simp [q]) hcompatible hf hg

end Resin
