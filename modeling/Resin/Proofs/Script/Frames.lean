import Resin.Proofs.Scan.Region
import Resin.Proofs.Script.Faults
import Resin.Proofs.Script.Marked

/-!
# What scripts are put together from

A frame is a text with holes. Every script is built up from a fixed number of frames: those that
belong to the constructions of the language (`Phrase`), and the texts of the methods. What fills the
holes are scripts again, names, numbers and literals (`Generated`). This is shown once, for
expressions and for statements (`Expr.generated`, `Stmt.generated`); what holds of every script is
then an induction over `Generated`.
-/

namespace Resin

open Fragment

/-! ## Frames -/

/-- A stretch of a text with holes: characters that are always the same, or a hole. -/
inductive Frame where
  | own (text : String)
  | hole
deriving DecidableEq, Repr, Inhabited

/-- A text with holes, filled in from the left. -/
@[simp]
def Frame.fill : List Frame → List String → String
  | [], _ => ""
  | .own text :: frames, fillings => text ++ fill frames fillings
  | .hole :: frames, filling :: fillings => filling ++ fill frames fillings
  | .hole :: frames, [] => fill frames []

/-- The constructions of the language, as far as scripts tell them apart. -/
inductive Phrase where
  | empty | bool (value : Bool) | null | undefined | input
  | index | call | array | comma | lambda | binary (op : BinaryOp) | signed (sign : Sign)
  | sliceFrom | sliceBetween | stride (joined : Bool) | reversal (joined : Bool)
  | register | registerValue | forget | validate | bind (binding : Binding) | assign
  | line | check | elseIf | otherwise | atMost | rangeLoop | each | doUntil | forLoop
  | function | returns | give | display | error | panic | skip | halt | ended
deriving DecidableEq, Repr, Inhabited

/-- The frame of a construction. -/
@[simp]
def Phrase.frames : Phrase → List Frame
  | .empty => []
  | .bool value => [.own (if value then "true" else "false")]
  | .null => [.own "null"]
  | .undefined => [.own "undefined"]
  | .input => [.own "__epx_input()"]
  | .index => [.hole, .own "[", .hole, .own "]"]
  | .call => [.hole, .own "(", .hole, .own ")"]
  | .array => [.own "[", .hole, .own "]"]
  | .comma => [.hole, .own ", ", .hole]
  | .lambda => [.own "((", .hole, .own ") => ", .hole, .own ")"]
  | .binary op => [.own "(", .hole, .own (" " ++ op.script ++ " "), .hole, .own ")"]
  | .signed sign => [.own ("(" ++ sign.spelling), .hole, .own ")"]
  | .sliceFrom => [.hole, .own ".slice(", .hole, .own ")"]
  | .sliceBetween => [.hole, .own ".slice(", .hole, .own ", ", .hole, .own ")"]
  | .stride joined =>
    [.own "[...", .hole, .own "].filter((_, i) => i % ", .hole,
      .own (" === 0)" ++ if joined then ".join(\"\")" else "")]
  | .reversal joined =>
    [.own "[...", .hole, .own ("].reverse()" ++ if joined then ".join(\"\")" else "")]
  | .register => [.own "__epx_register(", .hole, .own ", ", .hole, .own ")"]
  | .registerValue =>
    [.own "__epx_register(", .hole, .own ", ", .hole, .own ", ", .hole, .own ")"]
  | .forget => [.own "__epx_forget(", .hole, .own ", ", .hole, .own ")"]
  | .validate => [.hole, .own " = __epx_validate(", .hole, .own ", ", .hole, .own ")"]
  | .bind binding => [.own (binding.script ++ " "), .hole, .own " = ", .hole]
  | .assign => [.hole, .own " = ", .hole]
  | .line => [.hole, .own "\n", .hole]
  | .check => [.own "if (", .hole, .own ") ", .own "\x7b\n", .hole, .own "\n\x7d", .hole]
  | .elseIf => [.own " else if (", .hole, .own ") ", .own "\x7b\n", .hole, .own "\n\x7d", .hole]
  | .otherwise => [.own " else ", .own "\x7b\n", .hole, .own "\n\x7d"]
  | .atMost => [.own "(", .hole, .own " <= ", .hole, .own ")"]
  | .rangeLoop =>
    [.own "for (let ", .hole, .own " = ", .hole, .own " ? ", .hole, .own " : ", .hole, .own "; ",
      .hole, .own " ? ", .hole, .own " <= ", .hole, .own " : ", .hole, .own " >= ", .hole,
      .own "; ", .hole, .own " += ", .hole, .own " ? Math.abs(", .hole, .own ") : -Math.abs(",
      .hole, .own ")) ", .own "\x7b\n", .hole, .own "\n\x7d"]
  | .each =>
    [.own "for (const ", .hole, .own " of ", .hole, .own ") ", .own "\x7b\n", .hole, .own "\n\x7d"]
  | .doUntil =>
    [.own "do ", .own "\x7b\n", .hole, .own "\n\x7d", .own " while (!(", .hole, .own "));"]
  | .forLoop =>
    [.own "for (", .hole, .own "; ", .hole, .own "; ", .hole, .own ") ", .own "\x7b\n", .hole,
      .own "\n\x7d"]
  | .function =>
    [.own "function ", .hole, .own "(", .hole, .own ") ", .own "\x7b\n", .hole, .own "\n\x7d"]
  | .returns =>
    [.own "return __epx_returns(", .hole, .own ", ", .hole, .own ", (() => ", .own "\x7b\n", .hole,
      .own "\n\x7d", .own ")());"]
  | .give => [.own "return ", .hole, .own ";"]
  | .display => [.own "console.log(", .hole, .own ");"]
  | .error => [.own "console.error(", .hole, .own ");"]
  | .panic => [.own "throw new Error(String(", .hole, .own "));"]
  | .skip => [.own "continue;"]
  | .halt => [.own "break;"]
  | .ended => [.hole, .own ";"]

namespace Method

/-- A stretch of a text with places, as one with holes. -/
def Slot.frame : Slot → Frame
  | .own run => .own (String.ofList run)
  | .target | .argument _ => .hole

/-- What fills the hole of a stretch. -/
def Slot.filling? (target : String) (args : List String) : Slot → Option String
  | .own _ => none
  | .target => some target
  | .argument n => some (args.getD n "")

/-- The text of a method that has places. -/
def text? (m : Method) : Option String :=
  match m.lowering with
  | .template text | .lambda text => some text
  | .slice => none

end Method

/-- The frames that scripts are put together from. -/
inductive Framed : List Frame → Prop
  | phrase (p : Phrase) : Framed p.frames
  | method {m : Method} {text : String} : m ∈ Method.table → m.text? = some text →
    Framed ((Method.slots m.arity 0 text.toList).map Method.Slot.frame)

/-- The text is put together from frames. Into plain code it brings texts with a property, which are
the names and the numbers of a program, and whole numbers in digits; other texts of a program stand
in string literals and template literals. -/
inductive Generated (P : String → Prop) : String → Prop
  | plain {text : String} : P text → Generated P text
  | nat (n : Nat) : Generated P (toString n)
  | int (i : Int) : Generated P (toString i)
  | quoted (text : String) : Generated P (Literal.quoted text)
  | template {content : String} {offset : Nat} {segments : List Segment} {f : Fragment} :
    Segment.split content offset = .ok segments → templateScript content offset = .ok f →
    (∀ r o g, .region r o ∈ segments → regionScript r o = .ok g → Generated P g.code) →
      Generated P f.code
  | framed {frames : List Frame} {fillings : List String} : Framed frames →
    (∀ filling ∈ fillings, Generated P filling) → Generated P (Frame.fill frames fillings)

namespace Generated

variable {P : String → Prop} {text : String}

/-- All of some texts are put together from frames. -/
@[reducible] def All (P : String → Prop) : List String → Prop
  | [] => True
  | text :: texts => Generated P text ∧ All P texts

theorem All.forall_mem {texts : List String} (h : All P texts) : ∀ t ∈ texts, Generated P t := by
  induction texts with
  | nil => exact List.forall_mem_nil _
  | cons t texts ih => exact List.forall_mem_cons.2 ⟨h.1, ih h.2⟩

/-- A text that is a construction of the language. That it is the frame with these fillings is
found by writing both out, with the brackets of all sums on the right. -/
theorem phrase (p : Phrase) (fillings : List String) (h : All P fillings)
    (htext : text = Frame.fill p.frames fillings := by
      simp [braced, Fragment.text, Fragment.typed, String.append_assoc, -String.reduceAppend]) :
    Generated P text := by
  rw [htext]
  exact .framed (.phrase p) h.forall_mem

theorem join {separator : String} (p : Phrase)
    (hp : p.frames = [.hole, .own separator, .hole]) {fs : List Fragment}
    (h : ∀ f ∈ fs, Generated P f.code) : Generated P (Fragment.join separator fs).code := by
  induction fs with
  | nil => exact .phrase .empty [] trivial rfl
  | cons f fs ih =>
    rw [List.forall_mem_cons] at h
    cases fs with
    | nil =>
      rw [join_singleton]
      exact h.1
    | cons g fs =>
      refine .phrase p [f.code, _] ⟨h.1, ih h.2, trivial⟩ ?_
      rw [join_cons_cons, hp]
      simp [Fragment.text, String.append_assoc, -String.reduceAppend]

/-- Texts with a comma between them. -/
theorem commas {texts : List String} (h : ∀ t ∈ texts, Generated P t) :
    Generated P (", ".intercalate texts) := by
  have hjoin : Generated P (Fragment.join ", " (texts.map Fragment.text)).code :=
    .join .comma rfl (by simpa [Fragment.text] using h)
  rw [Fragment.join, List.map_map] at hjoin
  have hid : texts.map (Fragment.code ∘ Fragment.text) = texts := List.map_id texts
  rwa [hid] at hjoin

end Generated

/-! ## Methods -/

namespace Method

/-- A text with places is its stretches with their holes filled. -/
theorem fill_eq (text target : String) (fs : List Fragment) :
    fill text target (fs.map Fragment.code) =
      Frame.fill ((slots fs.length 0 text.toList).map Slot.frame)
        ((slots fs.length 0 text.toList).filterMap
          (Slot.filling? target (fs.map Fragment.code))) := by
  have hslots (ss : List Slot) : (Part.all (ss.map (Slot.part target fs))).code =
      Frame.fill (ss.map Slot.frame)
        (ss.filterMap (Slot.filling? target (fs.map Fragment.code))) := by
    induction ss with
    | nil => rfl
    | cons slot ss ih =>
      rw [List.map_cons, Part.all, code_append, ih, List.map_cons]
      cases slot with
      | own run => rfl
      | target => rfl
      | argument n => exact congrArg (· ++ _) (code_getD fs n)
  rw [fill, fillFrom_eq, String.ofList_toList, hslots]

/-- The text of a method with a target and arguments put in. -/
theorem generated_fillMethod {P : String → Prop} {m : Method} {text target : String}
    {fs : List Fragment} (hm : m ∈ table) (htext : m.text? = some text)
    (hlength : fs.length = m.arity) (htarget : Generated P target)
    (hfs : ∀ f ∈ fs, Generated P f.code) :
    Generated P (Expr.fillMethod text target fs).code := by
  rw [Expr.fillMethod, fill_eq, hlength]
  refine .framed (.method hm htext) fun filling hfilling => ?_
  obtain ⟨slot, -, hslot⟩ := List.mem_filterMap.1 hfilling
  cases slot with
  | own run => cases hslot
  | target =>
    cases hslot
    exact htarget
  | argument n =>
    cases hslot
    rw [← code_getD, List.getD_eq_getElem?_getD]
    cases hget : fs[n]? with
    | none => exact .phrase .empty [] trivial rfl
    | some f => exact hfs f (List.mem_of_getElem? hget)

end Method

theorem Slice.generated_script {P : String → Prop} {target : String} (htarget : Generated P target)
    (type : TypeName) (slice : Slice) : Generated P (slice.script type target) := by
  match slice with
  | .range first none =>
    refine .phrase .sliceFrom [target, _] ⟨htarget, .int (first.getD 0), trivial⟩ ?_
    simp [script, String.append_assoc, -String.reduceAppend]
  | .range first (some last) =>
    refine .phrase .sliceBetween [target, _, _]
      ⟨htarget, .int (first.getD 0), .int last, trivial⟩ ?_
    simp [script, String.append_assoc, -String.reduceAppend]
  | .stride step =>
    refine .phrase (.stride (type = .string)) [target, _] ⟨htarget, .nat step, trivial⟩ ?_
    simp [script, script.joined, String.append_assoc, -String.reduceAppend]
  | .reverse =>
    refine .phrase (.reversal (type = .string)) [target] ⟨htarget, trivial⟩ ?_
    simp [script, script.joined, String.append_assoc, -String.reduceAppend]

/-! ## Expressions -/

namespace Expr

/-- The texts that an expression writes into plain code itself: its names, or its number. -/
def plainTexts : Expr → List String
  | .number v _ => [v.text]
  | e => e.names

/-- The texts that an expression, and those inside it, write into plain code have a property. -/
def PlainAll (P : String → Prop) (e : Expr) : Prop :=
  ∀ x ∈ e.nodes, ∀ w ∈ x.plainTexts, P w

/-- The texts that some expressions, and those inside them, write into plain code have a
property. -/
def ListPlainAll (P : String → Prop) (es : List Expr) : Prop :=
  ∀ x ∈ nodesList es, ∀ w ∈ x.plainTexts, P w

variable {P : String → Prop}

theorem plainAll_iff {e : Expr} :
    e.PlainAll P ↔ (∀ w ∈ e.plainTexts, P w) ∧ ∀ x ∈ e.inner, ∀ w ∈ x.plainTexts, P w :=
  forall_mem_nodes

theorem listPlainAll_append {es es' : List Expr} :
    ListPlainAll P (es ++ es') ↔ ListPlainAll P es ∧ ListPlainAll P es' := by
  rw [ListPlainAll, nodesList_append, List.forall_mem_append]
  rfl

theorem listPlainAll_cons {e : Expr} {es : List Expr} :
    ListPlainAll P (e :: es) ↔ e.PlainAll P ∧ ListPlainAll P es := by
  rw [ListPlainAll, nodesList_cons, List.forall_mem_append]
  rfl

theorem listPlainAll_singleton {e : Expr} : ListPlainAll P [e] ↔ e.PlainAll P := by
  rw [ListPlainAll, nodesList_singleton]
  rfl

theorem generated_method {type : Located TypeName} {target : String} {called : Located String}
    {args : List Expr} {span : Span} {f : Fragment} (htarget : Generated P target)
    (hargs : ∀ fs, scripts args = .ok fs → ∀ f ∈ fs, Generated P f.code)
    (h : (Expr.method type target called args span).script = .ok f) : Generated P f.code := by
  rw [script] at h
  obtain ⟨m, hm, h⟩ := exists_of_bind_eq_ok h
  obtain ⟨hfind, harity⟩ := resolveMethod_eq_ok_iff.1 hm
  have hmem := List.mem_of_find?_eq_some hfind
  have hfill {text : String} {fs : List Fragment} (hfs : scripts args = .ok fs)
      (htext : m.text? = some text) : Generated P (fillMethod text target fs).code :=
    Method.generated_fillMethod hmem htext ((length_of_scripts hfs).trans harity) htarget
      (hargs fs hfs)
  split at h
  · next text hlowering =>
    obtain ⟨fs, hfs, h⟩ := exists_of_bind_eq_ok h
    cases h
    exact hfill hfs (by rw [Method.text?, hlowering])
  · next text hlowering =>
    obtain ⟨-, -, h⟩ := exists_of_bind_eq_ok h
    obtain ⟨fs, hfs, h⟩ := exists_of_bind_eq_ok h
    cases h
    exact hfill hfs (by rw [Method.text?, hlowering])
  · obtain ⟨slice, -, h⟩ := exists_of_bind_eq_ok h
    cases h
    exact slice.generated_script htarget _

mutual

/-- The script of an expression is put together from frames. -/
theorem generated : (e : Expr) → e.PlainAll P → ∀ f, e.script = .ok f → Generated P f.code
  | .number v _, hp, f, h => by
    cases h
    exact .plain (hp _ (List.mem_cons_self ..) v.text (List.mem_singleton_self _))
  | .text content _ _, _, f, h => by
    cases h
    exact .quoted content
  | .bool v _, _, f, h => by
    cases h
    exact .phrase (.bool v) [] trivial
  | .null _, _, f, h => by
    cases h
    exact .phrase .null [] trivial rfl
  | .undefined _, _, f, h => by
    cases h
    exact .phrase .undefined [] trivial rfl
  | .input _, _, f, h => by
    cases h
    exact .phrase .input [] trivial rfl
  | .name w _, hp, f, h => by
    cases h
    exact .plain (hp _ (List.mem_cons_self ..) w (List.mem_singleton_self w))
  | .index target place _, hp, f, h => by
    rw [plainAll_iff, inner_index, List.forall_mem_append] at hp
    rw [script] at h
    obtain ⟨t, ht, h⟩ := exists_of_bind_eq_ok h
    obtain ⟨p, hp', h⟩ := exists_of_bind_eq_ok h
    cases h
    exact .phrase .index [t.code, p.code]
      ⟨generated target hp.2.1 t ht, generated place hp.2.2 p hp', trivial⟩
  | .call callee args _, hp, f, h => by
    rw [plainAll_iff] at hp
    rw [script] at h
    obtain ⟨fs, hfs, h⟩ := exists_of_bind_eq_ok h
    cases h
    exact .phrase .call [callee, _] ⟨.plain (hp.1 callee (List.mem_singleton_self callee)),
      .join .comma rfl (generatedList args hp.2 fs hfs), trivial⟩
  | .array elements _, hp, f, h => by
    rw [plainAll_iff] at hp
    rw [script] at h
    obtain ⟨fs, hfs, h⟩ := exists_of_bind_eq_ok h
    cases h
    exact .phrase .array [_]
      ⟨.join .comma rfl (generatedList elements hp.2 fs hfs), trivial⟩
  | .lambda params body _, hp, f, h => by
    rw [plainAll_iff] at hp
    rw [script] at h
    obtain ⟨b, hb, h⟩ := exists_of_bind_eq_ok h
    cases h
    exact .phrase .lambda [", ".intercalate params, b.code] ⟨.commas fun n hn => .plain (hp.1 n hn),
      generated body hp.2 b hb, trivial⟩
  | .method _ target _ args _, hp, f, h => by
    rw [plainAll_iff] at hp
    exact generated_method (.plain (hp.1 target (List.mem_singleton_self target)))
      (generatedList args hp.2) h
  | .binary op left right _, hp, f, h => by
    rw [plainAll_iff, inner_binary, List.forall_mem_append] at hp
    rw [script] at h
    obtain ⟨l, hl, h⟩ := exists_of_bind_eq_ok h
    obtain ⟨r, hr, h⟩ := exists_of_bind_eq_ok h
    cases h
    exact .phrase (.binary op) [l.code, r.code]
      ⟨generated left hp.2.1 l hl, generated right hp.2.2 r hr, trivial⟩
  | .signed sign operand _, hp, f, h => by
    rw [plainAll_iff] at hp
    rw [script] at h
    obtain ⟨o, ho, h⟩ := exists_of_bind_eq_ok h
    cases h
    exact .phrase (.signed sign) [o.code] ⟨generated operand hp.2 o ho, trivial⟩

theorem generatedList : (es : List Expr) → ListPlainAll P es →
    ∀ fs, scripts es = .ok fs → ∀ f ∈ fs, Generated P f.code
  | [], _, fs, h => by
    cases h
    exact List.forall_mem_nil _
  | e :: es, hp, fs, h => by
    rw [listPlainAll_cons] at hp
    rw [scripts] at h
    obtain ⟨f, hf, h⟩ := exists_of_bind_eq_ok h
    obtain ⟨fs, hfs, h⟩ := exists_of_bind_eq_ok h
    cases h
    rw [List.forall_mem_cons]
    exact ⟨generated e hp.1 f hf, generatedList es hp.2 fs hfs⟩

end

/-- Places in square brackets behind a text. -/
theorem generated_places {text : String} {indices : List Fragment} (htext : Generated P text)
    (hindices : ∀ i ∈ indices, Generated P i.code) :
    Generated P (text ++ (Fragment.join "" (indices.map fun i => "[" ++ i ++ "]")).code) := by
  induction indices generalizing text with
  | nil =>
    rw [show (Fragment.join "" _).code = "" from rfl, String.append_empty]
    exact htext
  | cons i indices ih =>
    rw [List.forall_mem_cons] at hindices
    have hfirst : Generated P (text ++ ("[" ++ (i.code ++ "]"))) :=
      .phrase .index [text, i.code] ⟨htext, hindices.1, trivial⟩ (by simp)
    have hrest := ih hfirst hindices.2
    rw [List.map_cons, join_empty_cons]
    simpa [Fragment.text, String.append_assoc, -String.reduceAppend] using hrest

end Expr

/-! ## Texts with regions -/

theorem generated_regionScript {P : String → Prop} {source : String} {offset : Nat} {f : Fragment}
    (hplain : ∀ e, parseExpression source = .ok e → e.PlainAll P)
    (h : regionScript source offset = .ok f) : Generated P f.code := by
  unfold regionScript at h
  split at h
  · cases h
  · cases hscript : expressionScript source with
    | error e =>
      rw [hscript] at h
      cases h
    | ok g =>
      rw [hscript] at h
      cases h
      obtain ⟨e, he, hf⟩ := exists_of_bind_eq_ok hscript
      exact e.generated (hplain e he) f hf

/-! ## Statements -/

/-- The texts that a statement, its expressions and the regions of its text write into plain code
have a property, and the statement is no raw block. -/
structure Stmt.PlainAll (P : String → Prop) (stmt : Stmt) : Prop where
  names : ∀ n ∈ stmt.names, P n
  exprs : Expr.ListPlainAll P stmt.exprs
  regions : ∀ content span, stmt.interpolated? = some (content, span) →
    ∀ segments, Segment.split content (span.start + 1) = .ok segments →
      ∀ r o, .region r o ∈ segments → ∀ e, parseExpression r = .ok e → e.PlainAll P
  notRaw : ∀ code span, stmt ≠ .raw code span

theorem Stmt.PlainAll.generated_template {P : String → Prop} {stmt : Stmt} (h : stmt.PlainAll P)
    {content : String} {span : Span} (htext : stmt.interpolated? = some (content, span))
    {f : Fragment} (hf : templateScript content (span.start + 1) = .ok f) :
    Generated P f.code := by
  obtain ⟨segments, hsplit, -⟩ := exists_of_bind_eq_ok hf
  refine .template hsplit hf fun r o g hregion hg => ?_
  exact generated_regionScript (h.regions content span htext segments hsplit r o hregion) hg

section Parts

variable {P : String → Prop} {typed : List String} {f : Fragment}

theorem Declaration.generated_script {d : Declaration} {span : Span} (hname : P d.name)
    (hexprs : Expr.ListPlainAll P d.exprs) (h : d.script typed span = .ok f) :
    Generated P f.code := by
  obtain ⟨binding, name, type, value⟩ := d
  obtain ⟨-, -, h⟩ := exists_of_bind_eq_ok h
  obtain ⟨v, hv, h⟩ := exists_of_bind_eq_ok h
  cases h
  have hvalue : ∀ e, value = some e → ∀ g, e.script = .ok g → Generated P g.code := by
    rintro e rfl
    exact e.generated (Expr.listPlainAll_singleton.1 hexprs)
  suffices hwhole : Generated P v.code from
    .phrase (.bind binding) [name, v.code] ⟨.plain hname, hwhole, trivial⟩
  cases type with
  | some type =>
    cases value with
    | some value =>
      obtain ⟨g, hg, hv⟩ := exists_of_bind_eq_ok hv
      cases hv
      exact .phrase .registerValue [_, _, g.code] ⟨.quoted name, .quoted type.value.spelling,
        hvalue value rfl g hg, trivial⟩
    | none =>
      cases hv
      exact .phrase .register [_, _] ⟨.quoted name, .quoted type.value.spelling, trivial⟩
  | none =>
    cases value with
    | some value =>
      obtain ⟨g, hg, hv⟩ := exists_of_bind_eq_ok hv
      split at hv
      · cases hv
        exact .phrase .forget [_, g.code] ⟨.quoted name, hvalue value rfl g hg, trivial⟩
      · cases hv
        exact hvalue value rfl v hg
    | none => cases hv

theorem Mutation.generated_script {m : Mutation} (htarget : P m.target)
    (hexprs : Expr.ListPlainAll P m.exprs) (h : m.script = .ok f) : Generated P f.code := by
  rw [Mutation.exprs, Expr.listPlainAll_append, Expr.listPlainAll_singleton] at hexprs
  obtain ⟨v, hv, h⟩ := exists_of_bind_eq_ok h
  have hvalue := m.value.generated hexprs.2 v hv
  split at h
  · cases h
    exact .phrase .validate [m.target, _, v.code]
      ⟨.plain htarget, .quoted m.target, hvalue, trivial⟩
  · obtain ⟨indices, hindices, h⟩ := exists_of_bind_eq_ok h
    cases h
    have hplace := Expr.generated_places (.plain htarget)
      (Expr.generatedList m.indices hexprs.1 indices hindices)
    exact .phrase .assign [_, v.code] ⟨hplace, hvalue, trivial⟩

theorem LoopStart.generated_script {start : Located LoopStart}
    (hnames : ∀ n ∈ start.value.names, P n) (hexprs : Expr.ListPlainAll P start.value.exprs)
    (h : LoopStart.script typed start = .ok f) : Generated P f.code := by
  obtain ⟨value, span⟩ := start
  cases value with
  | declare d => exact d.generated_script (hnames _ (List.mem_cons_self ..)) hexprs h
  | update m => exact m.generated_script (hnames _ (List.mem_cons_self ..)) hexprs h
  | name w =>
    cases h
    exact .plain (hnames _ (List.mem_cons_self ..))

theorem Store.generated_script {s : Store} {span : Span} (hs : (Stmt.store s span).PlainAll P)
    (h : s.script = .ok f) : Generated P f.code := by
  have hname : P s.name := hs.names s.name (List.mem_singleton_self _)
  have hstored (v : Fragment) (hv : Generated P v.code) :
      Generated P (s.binding.script ++ " " ++ s.name ++ " = " ++ v ++ ";" : Fragment).code := by
    have hbind : Generated P (s.binding.script ++ (" " ++ (s.name ++ (" = " ++ v.code)))) :=
      .phrase (.bind s.binding) [s.name, v.code] ⟨.plain hname, hv, trivial⟩
    exact .phrase .ended [_] ⟨hbind, trivial⟩
  unfold Store.script at h
  split at h
  · next hquote =>
    obtain ⟨-, -, h⟩ := exists_of_bind_eq_ok h
    obtain ⟨v, hv, h⟩ := exists_of_bind_eq_ok h
    cases h
    have htext : (Stmt.store s span).interpolated? = some (s.content, s.contentSpan) :=
      if_pos hquote
    exact hstored v (hs.generated_template htext hv)
  · cases h
    exact hstored _ (.quoted s.content)
  · cases h
    exact hstored _ (.quoted s.content)

/-- A printed value is a text with regions, or its script. -/
theorem Expr.generated_printedScript {e : Expr} (hplain : e.PlainAll P)
    (htemplate : ∀ content span, e.interpolated? = some (content, span) →
      ∀ g, templateScript content (span.start + 1) = .ok g → Generated P g.code)
    (h : e.printedScript = .ok f) : Generated P f.code := by
  unfold printedScript at h
  split at h
  · next content quote span =>
    split at h
    · next hbracket => exact htemplate content span (if_pos hbracket) f h
    · exact Expr.generated _ hplain f h
  · exact e.generated hplain f h

theorem generated_rangeLoop {counter : String} {first last step : Fragment} {body : List Fragment}
    (hcounter : Generated P counter) (hfirst : Generated P first.code)
    (hlast : Generated P last.code) (hstep : Generated P step.code)
    (hbody : Generated P (join "\n" body).code) :
    Generated P (rangeLoop counter first last step body).code := by
  let up : Fragment := "(" ++ first ++ " <= " ++ last ++ ")"
  have hup : Generated P up.code :=
    .phrase .atMost [first.code, last.code] ⟨hfirst, hlast, trivial⟩
      (by simp [up, Fragment.text, String.append_assoc, -String.reduceAppend])
  refine .phrase .rangeLoop [counter, up.code, first.code, first.code, up.code, counter, last.code,
    counter, last.code, counter, up.code, step.code, step.code, (join "\n" body).code] ?_ ?_
  · exact ⟨hcounter, hup, hfirst, hfirst, hup, hcounter, hlast, hcounter, hlast, hcounter, hup,
      hstep, hstep, hbody, trivial⟩
  · unfold rangeLoop
    simp only [up, braced, code_append, Fragment.text, Phrase.frames, Frame.fill,
      String.append_assoc, String.append_empty]

theorem generated_functionScript {name : String} {params : List String}
    {returns : Option (Located TypeName)} {body : List Fragment} (hname : P name)
    (hparams : ∀ n ∈ params, P n) (hbody : Generated P (join "\n" body).code) :
    Generated P (functionScript name params returns body).code := by
  have hlist : Generated P (", ".intercalate params) := .commas fun n hn => .plain (hparams n hn)
  unfold functionScript
  cases returns with
  | none => exact .phrase .function [name, _, _] ⟨.plain hname, hlist, hbody, trivial⟩
  | some type =>
    have hreturns : Generated P (.typed "return __epx_returns(" ++ Literal.quoted name ++ ", " ++
        Literal.quoted type.value.spelling ++ ", (() => " ++ braced body ++ ")());" :
          Fragment).code :=
      .phrase .returns [_, _, _] ⟨.quoted name, .quoted type.value.spelling, hbody, trivial⟩
    refine .phrase .function [name, _, _] ⟨.plain hname, hlist, hreturns, trivial⟩ ?_
    simp [braced, join_singleton, Fragment.text, String.append_assoc, -String.reduceAppend]

end Parts

namespace Stmt

variable {P : String → Prop}

/-- A statement whose script is one with a semicolon. -/
theorem generated_ended {x : Except Error Fragment} {f : Fragment}
    (hx : ∀ v, x = .ok v → Generated P v.code)
    (h : (do let v ← x; pure (v ++ ";" : Fragment)) = .ok f) : Generated P f.code := by
  obtain ⟨v, hv, h⟩ := exists_of_bind_eq_ok h
  obtain rfl := Except.ok.inj h
  exact .phrase .ended [v.code] ⟨hx v hv, trivial⟩

/-- A statement whose script is one between characters of its own. -/
theorem generated_wrapped {x : Except Error Fragment} {before after : String} {f : Fragment}
    (p : Phrase) (hp : p.frames = [.own before, .hole, .own after])
    (hx : ∀ v, x = .ok v → Generated P v.code)
    (h : (do let v ← x; pure (before ++ v ++ after : Fragment)) = .ok f) : Generated P f.code := by
  obtain ⟨v, hv, h⟩ := exists_of_bind_eq_ok h
  obtain rfl := Except.ok.inj h
  refine .phrase p [v.code] ⟨hx v hv, trivial⟩ ?_
  rw [hp]
  simp [Fragment.text, String.append_assoc, -String.reduceAppend]

theorem PlainAll.single {stmt : Stmt} {e : Expr} (h : stmt.PlainAll P) (he : stmt.exprs = [e]) :
    e.PlainAll P :=
  Expr.listPlainAll_singleton.1 (he ▸ h.exprs)

/-- The value that a statement prints. -/
theorem PlainAll.generated_printed {stmt : Stmt} {e : Expr} (h : stmt.PlainAll P)
    (he : stmt.exprs = [e]) (htext : stmt.interpolated? = e.interpolated?) :
    ∀ f, e.printedScript = .ok f → Generated P f.code :=
  fun _ => Expr.generated_printedScript (h.single he) fun _ _ hcontent _ hg =>
    h.generated_template (htext.trans hcontent) hg

mutual

/-- The script of a statement is put together from frames, if it and the statements inside it have
no raw blocks. -/
theorem generated (typed : List String) : (stmt : Stmt) → stmt.PlainAll P →
    (∀ x ∈ stmt.inner, x.PlainAll P) → ∀ f, stmt.script typed = .ok f → Generated P f.code
  | .declare d _, hp, _, f, h =>
    generated_ended (fun _ => d.generated_script (hp.names _ (List.mem_cons_self ..)) hp.exprs) h
  | .store s _, hp, _, f, h => Store.generated_script hp h
  | .update m _, hp, _, f, h =>
    generated_ended (fun _ => m.generated_script (hp.names _ (List.mem_cons_self ..)) hp.exprs) h
  | .check condition body other _, hp, hin, f, h => by
    have hexprs := Expr.listPlainAll_cons.1 hp.exprs
    have hin := List.forall_mem_append.1 hin
    rw [script] at h
    obtain ⟨c, hc, h⟩ := exists_of_bind_eq_ok h
    obtain ⟨b, hb, h⟩ := exists_of_bind_eq_ok h
    obtain ⟨o, ho, h⟩ := exists_of_bind_eq_ok h
    obtain rfl := Except.ok.inj h
    exact .phrase .check [c.code, _, o.code]
      ⟨condition.generated hexprs.1 c hc, generatedBlock typed body hin.1 b hb,
        generatedOtherwise typed other hexprs.2 hin.2 o ho, trivial⟩
  | .repeatRange counter first last step body _, hp, hin, f, h => by
    have hfirst := Expr.listPlainAll_cons.1 hp.exprs
    have hlast := Expr.listPlainAll_cons.1 hfirst.2
    have hstep := Expr.listPlainAll_singleton.1 hlast.2
    rw [script] at h
    obtain ⟨a, ha, h⟩ := exists_of_bind_eq_ok h
    obtain ⟨z, hz, h⟩ := exists_of_bind_eq_ok h
    obtain ⟨d, hd, h⟩ := exists_of_bind_eq_ok h
    obtain ⟨b, hb, h⟩ := exists_of_bind_eq_ok h
    obtain rfl := Except.ok.inj h
    exact generated_rangeLoop (.plain (hp.names counter (List.mem_cons_self ..)))
      (first.generated hfirst.1 a ha) (last.generated hlast.1 z hz) (step.generated hstep d hd)
      (generatedBlock typed body hin b hb)
  | .repeatEach item collection body _, hp, hin, f, h => by
    rw [script] at h
    obtain ⟨b, hb, h⟩ := exists_of_bind_eq_ok h
    obtain rfl := Except.ok.inj h
    have hnames : P item ∧ P collection := by simpa [names] using hp.names
    exact .phrase .each [item, collection, _]
      ⟨.plain hnames.1, .plain hnames.2, generatedBlock typed body hin b hb, trivial⟩
  | .repeatUntil condition body _, hp, hin, f, h => by
    rw [script] at h
    obtain ⟨b, hb, h⟩ := exists_of_bind_eq_ok h
    obtain ⟨c, hc, h⟩ := exists_of_bind_eq_ok h
    obtain rfl := Except.ok.inj h
    exact .phrase .doUntil [_, c.code]
      ⟨generatedBlock typed body hin b hb, condition.generated (hp.single rfl) c hc, trivial⟩
  | .forLoop start condition increment body _, hp, hin, f, h => by
    have hnames := List.forall_mem_append.1 hp.names
    have hstart := Expr.listPlainAll_append.1 hp.exprs
    have hrest := Expr.listPlainAll_cons.1 hstart.2
    rw [script] at h
    obtain ⟨a, ha, h⟩ := exists_of_bind_eq_ok h
    obtain ⟨c, hc, h⟩ := exists_of_bind_eq_ok h
    obtain ⟨i, hi, h⟩ := exists_of_bind_eq_ok h
    obtain ⟨b, hb, h⟩ := exists_of_bind_eq_ok h
    obtain rfl := Except.ok.inj h
    exact .phrase .forLoop [a.code, c.code, i.code, _]
      ⟨LoopStart.generated_script hnames.1 hstart.1 ha, condition.generated hrest.1 c hc,
        increment.value.generated_script (hnames.2 _ (List.mem_singleton_self _)) hrest.2 hi,
        generatedBlock typed body hin b hb, trivial⟩
  | .function name params _ body _, hp, hin, f, h => by
    have hnames := List.forall_mem_cons.1 hp.names
    rw [script] at h
    obtain ⟨b, hb, h⟩ := exists_of_bind_eq_ok h
    obtain rfl := Except.ok.inj h
    exact generated_functionScript hnames.1 hnames.2 (generatedBlock typed body hin b hb)
  | .give value _, hp, _, f, h =>
    generated_wrapped .give rfl (value.generated (hp.single rfl)) h
  | .display value _, hp, _, f, h =>
    generated_wrapped .display rfl (hp.generated_printed rfl rfl) h
  | .error value _, hp, _, f, h =>
    generated_wrapped .error rfl (hp.generated_printed rfl rfl) h
  | .panic value _, hp, _, f, h =>
    generated_wrapped .panic rfl (hp.generated_printed rfl rfl) h
  | .skip _, _, _, f, h => by
    obtain rfl := Except.ok.inj h
    exact .phrase .skip [] trivial rfl
  | .halt _, _, _, f, h => by
    obtain rfl := Except.ok.inj h
    exact .phrase .halt [] trivial rfl
  | .raw code span, hp, _, _, _ => absurd rfl (hp.notRaw code span)
  | .expr value _, hp, _, f, h => generated_ended (value.generated (hp.single rfl)) h

/-- The scripts of the statements of a block, a line for each. -/
theorem generatedBlock (typed : List String) : (stmts : List Stmt) →
    (∀ x ∈ nodesList stmts, x.PlainAll P) →
      ∀ fs, scripts typed stmts = .ok fs → Generated P (join "\n" fs).code
  | [], _, fs, h => by
    obtain rfl := Except.ok.inj h
    exact .phrase .empty [] trivial rfl
  | stmt :: stmts, hp, fs, h => by
    rw [nodesList, List.forall_mem_append, List.forall_mem_cons] at hp
    rw [scripts] at h
    obtain ⟨f, hf, h⟩ := exists_of_bind_eq_ok h
    obtain ⟨fs, hfs, h⟩ := exists_of_bind_eq_ok h
    obtain rfl := Except.ok.inj h
    have hfirst := generated typed stmt hp.1.1 hp.1.2 f hf
    have hrest := generatedBlock typed stmts hp.2 fs hfs
    cases fs with
    | nil =>
      rw [join_singleton]
      exact hfirst
    | cons g fs =>
      rw [join_cons_cons]
      exact .phrase .line [f.code, _] ⟨hfirst, hrest, trivial⟩

theorem generatedOtherwise (typed : List String) : (other : Otherwise) →
    Expr.ListPlainAll P other.conditions → (∀ x ∈ nodesOtherwise other, x.PlainAll P) →
      ∀ f, otherwiseScript typed other = .ok f → Generated P f.code
  | .nothing, _, _, f, h => by
    obtain rfl := Except.ok.inj h
    exact .phrase .empty [] trivial rfl
  | .check condition body next, hconditions, hin, f, h => by
    have hconditions := Expr.listPlainAll_cons.1 hconditions
    have hin := List.forall_mem_append.1 hin
    rw [otherwiseScript] at h
    obtain ⟨c, hc, h⟩ := exists_of_bind_eq_ok h
    obtain ⟨b, hb, h⟩ := exists_of_bind_eq_ok h
    obtain ⟨n, hn, h⟩ := exists_of_bind_eq_ok h
    obtain rfl := Except.ok.inj h
    exact .phrase .elseIf [c.code, _, n.code]
      ⟨condition.generated hconditions.1 c hc, generatedBlock typed body hin.1 b hb,
        generatedOtherwise typed next hconditions.2 hin.2 n hn, trivial⟩
  | .block body, _, hin, f, h => by
    rw [otherwiseScript] at h
    obtain ⟨b, hb, h⟩ := exists_of_bind_eq_ok h
    obtain rfl := Except.ok.inj h
    exact .phrase .otherwise [_] ⟨generatedBlock typed body hin b hb, trivial⟩

end

end Stmt

/-- The script of a program without raw blocks is put together from frames. -/
theorem generated_programScript {P : String → Prop} {p : List Stmt} {f : Fragment}
    (hp : ∀ stmt ∈ Stmt.nodesList p, stmt.PlainAll P) (h : programScript p = .ok f) :
    Generated P f.code := by
  obtain ⟨lines, hlines, h⟩ := exists_of_bind_eq_ok h
  obtain rfl := Except.ok.inj h
  exact Stmt.generatedBlock _ p hp lines hlines

end Resin
