import Resin.Proofs.JavaScript.Structure
import Resin.Proofs.Scan.Expr

/-!
# Scripts of expressions are operands

An operand of a script is a run of words, numbers, literals, brackets and member accesses: where the
scanner stands in plain code with nothing open, there are only the characters of these. Any operator
next to an operand takes it as a whole. The script of every expression of a source is one operand
(`Expr.Built.solid`): operators, spaces and signs stand in brackets, since every operation is
written in parentheses, and the texts of methods put their arguments into brackets.
-/

namespace Resin

open Scan

namespace Scan

/-! ## Operands -/

/-- The characters of an operand outside its brackets and literals. -/
def isOperandPart (c : Char) : Bool :=
  JavaScript.isWordPart c || ['.', '\x22', '\x60', '(', '['].contains c

/-- One character of an operand. -/
def solidStep (s : State) (c : Char) : Option State :=
  if s = start ∧ isOperandPart c = false then none else step s c

/-- The characters of an operand one after the other. -/
def solidRun : State → List Char → Option State
  | s, [] => some s
  | s, c :: cs => (solidStep s c).bind fun s => solidRun s cs

/-- The text is one operand: all that stands in it outside brackets and literals are the characters
of words, numbers and member accesses. -/
structure Solid (text : String) : Prop where
  ne_empty : text ≠ ""
  run : solidRun start text.toList = some start

instance (text : String) : Decidable (Solid text) :=
  decidable_of_iff (text ≠ "" ∧ solidRun start text.toList = some start)
    ⟨fun h => ⟨h.1, h.2⟩, fun h => ⟨h.1, h.2⟩⟩

theorem solidRun_append (s : State) (cs ds : List Char) :
    solidRun s (cs ++ ds) = (solidRun s cs).bind fun s => solidRun s ds := by
  induction cs generalizing s with
  | nil => rfl
  | cons c cs ih =>
    cases h : solidStep s c <;> simp [solidRun, h, ih]

/-- An operand begins with one of its characters. -/
theorem Solid.exists_cons {text : String} (h : Solid text) :
    ∃ c cs, text.toList = c :: cs ∧ isOperandPart c = true := by
  obtain ⟨c, cs, hcs⟩ := List.exists_cons_of_ne_nil (l := text.toList) (by simpa using h.ne_empty)
  refine ⟨c, cs, hcs, ?_⟩
  have hrun := h.run
  rw [hcs, solidRun, solidStep] at hrun
  by_contra hpart
  rw [if_pos ⟨rfl, Bool.eq_false_of_not_eq_true hpart⟩] at hrun
  cases hrun

theorem run_of_solidRun {s t : State} {cs : List Char} (h : solidRun s cs = some t) :
    run s cs = some t := by
  induction cs generalizing s with
  | nil => exact h
  | cons c cs ih =>
    obtain ⟨u, hu, hrest⟩ := Option.bind_eq_some_iff.1 h
    rw [solidStep] at hu
    split at hu
    · cases hu
    · rw [run, hu]
      exact ih hrest

theorem Solid.closed {text : String} (h : Solid text) : Closed text :=
  run_of_solidRun h.run

theorem Leads.solidRun {P : State → Prop} {s t : State} {cs : List Char} (h : Leads P s cs t)
    (hP : ∀ s, P s → s ≠ start) : solidRun s cs = some t := by
  induction h with
  | nil => rfl
  | cons hs hstep _ ih =>
    rw [Scan.solidRun, solidStep, if_neg fun hstart => hP _ hs hstart.1, hstep]
    exact ih

/-- In brackets any closed text may stand. -/
theorem Closed.solidRun {text : String} (h : Closed text) (b : Bracket) (stack : List Bracket) :
    solidRun ⟨.code, b :: stack⟩ text.toList = some ⟨.code, b :: stack⟩ := by
  refine (h.leads (b :: stack)).solidRun ?_
  rintro s hs rfl
  exact absurd (List.suffix_nil.1 hs) (List.cons_ne_nil b stack)

/-- The characters of words and numbers. -/
theorem solidRun_of_isWordPart {cs : List Char}
    (h : ∀ c ∈ cs, (JavaScript.isWordPart c || c == '.') = true) :
    solidRun start cs = some start := by
  induction cs with
  | nil => rfl
  | cons c cs ih =>
    rw [List.forall_mem_cons] at h
    have hpart : isOperandPart c = true := by
      rw [isOperandPart, Bool.or_eq_true]
      rcases Bool.or_eq_true_iff.1 h.1 with hword | hpoint
      · exact .inl hword
      · exact .inr (by rw [beq_iff_eq.1 hpoint]; rfl)
    have hplain : isPlain c = true :=
      isPlain_of_class (p := fun c => JavaScript.isWordPart c || c == '.') h.1 (by decide)
    rw [solidRun, solidStep, if_neg (by simp [hpart]), start, step_of_isPlain hplain]
    exact ih h.2

theorem solid_quoted (text : String) : Solid (Literal.quoted text) := by
  refine ⟨by simp [Literal.quoted, Literal.quotedChars], ?_⟩
  have hbody : solidRun ⟨.string, []⟩ (text.toList.flatMap Literal.escapeChar) =
      some ⟨.string, []⟩ := by
    refine (leads_string text.toList []).solidRun ?_
    rintro s ⟨hmode | hmode, -⟩ rfl <;> cases hmode
  rw [Literal.quoted, String.toList_ofList, Literal.quotedChars, solidRun_append]
  change ((solidRun ⟨.string, []⟩ (text.toList.flatMap Literal.escapeChar)).bind _) = _
  rw [hbody]
  rfl

namespace Part

/-- The scanner goes over a part of an operand; a text may be put into brackets only. -/
def solidPass (s : State) : Part → Option State
  | .own text => solidRun s text.toList
  | .put _ => if s.mode = .code ∧ s.stack ≠ [] then some s else none

/-- The scanner goes over parts of an operand one after the other. -/
def solidPassAll : State → List Part → Option State
  | s, [] => some s
  | s, part :: parts => (part.solidPass s).bind fun s => solidPassAll s parts

theorem solidRun_pass {s t : State} {part : Part} {parts : List Part}
    (hput : PutsClosed (part :: parts)) (h : part.solidPass s = some t) :
    solidRun s part.text.toList = some t ∧ PutsClosed parts := by
  cases part with
  | own text => exact ⟨h, hput⟩
  | put text =>
    obtain ⟨mode, stack⟩ := s
    rw [solidPass] at h
    split at h
    · next hs =>
      obtain ⟨rfl, hstack⟩ := hs
      obtain ⟨b, stack, rfl⟩ := List.exists_cons_of_ne_nil hstack
      cases h
      exact ⟨hput.1.solidRun b stack, hput.2⟩
    · cases h

theorem solidRun_after {s t u : State} {first : String} {parts : List Part}
    (hput : PutsClosed parts) (hfirst : solidRun s first.toList = some t)
    (h : solidPassAll t parts = some u) : solidRun s (after first parts).toList = some u := by
  induction parts generalizing first t with
  | nil => exact hfirst.trans h
  | cons part parts ih =>
    obtain ⟨v, hv, hrest⟩ := Option.bind_eq_some_iff.1 h
    obtain ⟨hrun, hput⟩ := solidRun_pass hput hv
    refine ih hput ?_ hrest
    rw [String.toList_append, solidRun_append, hfirst]
    exact hrun

theorem after_ne_empty {first : String} (h : first ≠ "") (parts : List Part) :
    after first parts ≠ "" := by
  induction parts generalizing first with
  | nil => exact h
  | cons part parts ih => exact ih (by simp [h])

end Part

/-- A text is one operand if its own characters are, with closed texts put into their brackets. -/
theorem solid_after (first : String) {s : State} (hne : first ≠ "")
    (hfirst : solidRun start first.toList = some s) (parts : List Part)
    (h : Part.solidPassAll s parts = some start) (hput : Part.PutsClosed parts) :
    Solid (Part.after first parts) :=
  ⟨Part.after_ne_empty hne parts, Part.solidRun_after hput hfirst h⟩

theorem Solid.after {first : String} (hfirst : Solid first) (parts : List Part)
    (h : Part.solidPassAll start parts = some start) (hput : Part.PutsClosed parts) :
    Solid (Part.after first parts) :=
  solid_after first hfirst.ne_empty hfirst.run parts h hput

end Scan

/-! ## Methods -/

namespace Method

/-- The scanner goes over a text with places, as in `pass`, that becomes an operand. Outside
brackets only the target may stand. -/
def solidPass (arity : Nat) : Nat → Scan.State → List Char → Option Scan.State
  | _, s, [] => some s
  | skip + 1, s, _ :: cs => solidPass arity skip s cs
  | 0, s, c :: cs =>
    if c = '{' then
      match placeLength? arity cs with
      | some length =>
        if s.mode = .code ∧ (s.stack ≠ [] ∨ (placeLength? 0 cs).isSome) then
          solidPass arity length s cs
        else none
      | none => (solidStep s c).bind fun s => solidPass arity 0 s cs
    else (solidStep s c).bind fun s => solidPass arity 0 s cs

/-- Without arguments a place is one for the target. -/
theorem place?_of_placeLength?_zero {target : String} {args : List String} {cs : List Char}
    {value : String} {length : Nat} (hzero : (placeLength? 0 cs).isSome = true)
    (h : place? target args cs = some (value, length)) : value = target := by
  unfold placeLength? place? at hzero
  unfold place? at h
  cases hcut : Text.cut? ['}'] cs with
  | none => simp [hcut] at h
  | some parts =>
    simp only [hcut, List.replicate_zero, Option.isSome_map] at hzero
    simp only [hcut, Option.map_eq_some_iff, Prod.mk.injEq] at h
    obtain ⟨_, hvalue, rfl, -⟩ := h
    unfold value? at hzero hvalue
    by_cases hkey : parts.1 = ['t']
    · rw [if_pos hkey] at hvalue
      exact (Option.some.inj hvalue).symm
    · rw [if_neg hkey] at hzero
      split at hzero <;> simp at hzero

/-- A text with places becomes an operand, whatever closed texts are put in for the arguments. -/
theorem solidRun_fillFrom {target : String} {args : List String} (htarget : Solid target)
    (hargs : ∀ a ∈ args, Closed a) {skip : Nat} {s t : Scan.State} {cs : List Char}
    (h : solidPass args.length skip s cs = some t) :
    solidRun s (fillFrom target args skip cs) = some t := by
  fun_induction fillFrom target args skip cs generalizing s with
  | case1 => simpa [solidPass, solidRun] using h
  | case2 skip c cs ih => exact ih h
  | case3 cs value length hplace ih =>
    have hlength := placeLength?_eq target args cs
    rw [hplace, Option.map_some] at hlength
    simp only [solidPass, if_true, hlength] at h
    split at h
    · next hs =>
      obtain ⟨mode, stack⟩ := s
      obtain ⟨rfl, hwhere⟩ := hs
      have hvalue : solidRun ⟨.code, stack⟩ value.toList = some ⟨.code, stack⟩ := by
        cases stack with
        | nil =>
          obtain hfalse | hzero := hwhere
          · exact absurd rfl hfalse
          · rw [place?_of_placeLength?_zero hzero hplace]
            exact htarget.run
        | cons b stack =>
          rcases mem_of_place? hplace with rfl | hmem
          · exact htarget.closed.solidRun b stack
          · exact (hargs value hmem).solidRun b stack
      rw [solidRun_append, hvalue]
      exact ih h
    · cases h
  | case4 cs hplace ih =>
    have hlength := placeLength?_eq target args cs
    rw [hplace, Option.map_none] at hlength
    simp only [solidPass, if_true, hlength] at h
    obtain ⟨u, hu, hrest⟩ := Option.bind_eq_some_iff.1 h
    rw [solidRun, hu]
    exact ih hrest
  | case5 c cs hc ih =>
    simp only [solidPass, hc, if_false] at h
    obtain ⟨u, hu, hrest⟩ := Option.bind_eq_some_iff.1 h
    rw [solidRun, hu]
    exact ih hrest

theorem fillFrom_ne_nil {target : String} {args : List String} {t : Scan.State} {cs : List Char}
    (htarget : target ≠ "") (hcs : cs ≠ []) (h : solidPass args.length 0 start cs = some t) :
    fillFrom target args 0 cs ≠ [] := by
  obtain ⟨c, cs, rfl⟩ := List.exists_cons_of_ne_nil hcs
  rw [fillFrom]
  by_cases hc : c = '{'
  · rw [if_pos hc]
    cases hplace : place? target args cs with
    | none => exact List.cons_ne_nil _ _
    | some place =>
      have hlength := placeLength?_eq target args cs
      rw [hplace, Option.map_some] at hlength
      simp only [solidPass, hc, if_true, hlength] at h
      split at h
      · next hs =>
        have hzero := hs.2.resolve_left fun hstack => hstack rfl
        simp [place?_of_placeLength?_zero hzero hplace, htarget]
      · cases h
  · rw [if_neg hc]
    exact List.cons_ne_nil _ _

/-- The texts with places in the table become operands. -/
def solidAround (m : Method) : Bool :=
  match m.lowering with
  | .template text | .lambda text => text ≠ "" ∧ solidPass m.arity 0 start text.toList = some start
  | .slice => true

theorem solidAround_of_find? {type : TypeName} {name : String} {m : Method}
    (h : find? type name = some m) : m.solidAround = true := by
  have hall : table.all solidAround = true := by decide +kernel
  exact List.all_eq_true.1 hall m (List.mem_of_find?_eq_some h)

theorem solid_fill {target text : String} {args : List String} (htarget : Solid target)
    (hargs : ∀ a ∈ args, Closed a) (hne : text ≠ "")
    (h : solidPass args.length 0 start text.toList = some start) :
    Solid (fill text target args) := by
  refine ⟨?_, ?_⟩
  · have hnil : fillFrom target args 0 text.toList ≠ [] :=
      fillFrom_ne_nil htarget.ne_empty (by simpa using hne) h
    simpa [fill] using hnil
  · rw [fill, String.toList_ofList]
    exact solidRun_fillFrom htarget hargs h

end Method

theorem Slice.solid_script {target : String} (htarget : Solid target) (type : TypeName)
    (slice : Slice) : Solid (slice.script type target) := by
  have hjoined : solidRun start (Slice.script.joined type).toList = some start := by
    cases type <;> decide
  -- what a stride and a reversal give may be joined again behind the call
  have hthen : ∀ {text : String}, Solid text → Solid (text ++ Slice.script.joined type) := by
    intro text htext
    refine ⟨by simp [htext.ne_empty], ?_⟩
    rw [String.toList_append, solidRun_append, htext.run]
    exact hjoined
  cases slice with
  | range first last =>
    cases last with
    | none => exact htarget.after [.own ".slice(", .put _, .own ")"] rfl ⟨closed_int _, trivial⟩
    | some last =>
      exact htarget.after [.own ".slice(", .put _, .own ", ", .put _, .own ")"] rfl
        ⟨closed_int _, closed_int _, trivial⟩
  | stride step =>
    exact hthen (solid_after "[..." (by decide) rfl
      [.put _, .own "].filter((_, i) => i % ", .put _, .own " === 0)"] rfl
      ⟨htarget.closed, closed_nat _, trivial⟩)
  | reverse =>
    exact hthen (solid_after "[..." (by decide) rfl [.put _, .own "].reverse()"] rfl
      ⟨htarget.closed, trivial⟩)

/-! ## Expressions -/

theorem IsName.solid {w : String} (h : IsName w) : Solid w := by
  refine ⟨by simpa using h.1, solidRun_of_isWordPart fun c hc => ?_⟩
  rw [JavaScript.isWordPart_of_isWordChar (h.2.1 c hc), Bool.true_or]

namespace Number

/-- A number that a program writes is one operand in its script. -/
theorem solid_text_of_ofParts {v : Number} {whole fraction : List Char}
    (hv : v = .ofParts whole fraction) : Solid v.text := by
  cases v with
  | finite negative m e =>
    obtain ⟨first, whole, hfirst, hwhole, -, htext⟩ :=
      numeral_of_ofParts hv (fun _ heq => by cases heq)
    have hdigit : ∀ c : Char, c.isDigit = true →
        (JavaScript.isWordPart c || c == '.') = true := by
      intro c hc
      rw [JavaScript.isWordPart, hc, Bool.or_true, Bool.true_or]
    rcases htext with ⟨htext, -⟩ | ⟨fraction, hfraction, htext, -⟩
    · refine ⟨fun hempty => by simp [hempty] at htext, solidRun_of_isWordPart ?_⟩
      rw [htext]
      simp only [List.forall_mem_cons]
      exact ⟨hdigit first hfirst, fun c hc => hdigit c (hwhole c hc)⟩
    · refine ⟨fun hempty => by simp [hempty] at htext, solidRun_of_isWordPart ?_⟩
      rw [htext]
      simp only [List.forall_mem_append, List.forall_mem_cons]
      exact ⟨⟨hdigit first hfirst, fun c hc => hdigit c (hwhole c hc)⟩, rfl,
        fun c hc => hdigit c (hfraction c hc)⟩
  | infinite negative =>
    cases negative with
    | true => exact absurd hv.symm (ofRatio_ne_infinite_true _ _)
    | false => decide
  | nan => exact absurd hv.symm (ofRatio_ne_nan _ _)

end Number

namespace Expr

theorem NamesAll.isWord {e : Expr} (h : e.NamesAll IsName) : e.NamesAll IsWord :=
  fun x hx n hn => (h x hx n hn).isWord

/-- The numbers in an expression are operands of their own. -/
def NumbersSolid (e : Expr) : Prop :=
  ∀ v span, .number v span ∈ e.nodes → Solid v.text

theorem solid_method {type : Located TypeName} {target : String} {called : Located String}
    {args : List Expr} {span : Span} {f : Fragment} (htarget : IsName target)
    (hargs : ScriptsClosed args) (h : (Expr.method type target called args span).script = .ok f) :
    Solid f.code := by
  rw [script] at h
  obtain ⟨m, hm, h⟩ := exists_of_bind_eq_ok h
  obtain ⟨hfind, harity⟩ := resolveMethod_eq_ok_iff.1 hm
  have haround := Method.solidAround_of_find? hfind
  have hfill : ∀ {text fs}, scripts args = .ok fs →
      text ≠ "" ∧ Method.solidPass m.arity 0 start text.toList = some start →
      Solid (fillMethod text target fs).code := by
    intro text fs hfs hpass
    refine Method.solid_fill htarget.solid (fun a ha => ?_) hpass.1 ?_
    · obtain ⟨f, hf, rfl⟩ := List.mem_map.1 ha
      exact hargs fs hfs f hf
    · rw [List.length_map, length_of_scripts hfs, harity]
      exact hpass.2
  unfold Method.solidAround at haround
  split at h
  · next text hlowering =>
    rw [hlowering, decide_eq_true_eq] at haround
    obtain ⟨fs, hfs, h⟩ := exists_of_bind_eq_ok h
    cases h
    exact hfill hfs haround
  · next text hlowering =>
    rw [hlowering, decide_eq_true_eq] at haround
    obtain ⟨-, -, h⟩ := exists_of_bind_eq_ok h
    obtain ⟨fs, hfs, h⟩ := exists_of_bind_eq_ok h
    cases h
    exact hfill hfs haround
  · obtain ⟨slice, -, h⟩ := exists_of_bind_eq_ok h
    cases h
    exact Slice.solid_script htarget.solid _ slice

/-- The script of an expression is one operand. Only the target of an index stands outside
brackets, so the induction goes along it. -/
theorem solid_script : (e : Expr) → e.NamesAll IsName → e.NumbersSolid →
    ∀ f, e.script = .ok f → Solid f.code
  | .number v _, _, hnumbers, f, h => by
    cases h
    exact hnumbers v _ (List.mem_cons_self ..)
  | .text content _ _, _, _, f, h => by
    cases h
    exact solid_quoted content
  | .bool v _, _, _, f, h => by
    cases h
    cases v <;> decide
  | .null _, _, _, f, h | .undefined _, _, _, f, h | .input _, _, _, f, h => by
    cases h
    decide
  | .name w _, hnames, _, f, h => by
    cases h
    exact (hnames _ (List.mem_cons_self ..) w (List.mem_singleton_self w)).solid
  | .index target place _, hnames, hnumbers, f, h => by
    rw [namesAll_iff, inner_index, List.forall_mem_append] at hnames
    rw [script] at h
    obtain ⟨t, ht, h⟩ := exists_of_bind_eq_ok h
    obtain ⟨p, hp, h⟩ := exists_of_bind_eq_ok h
    cases h
    have htarget := solid_script target hnames.2.1 (fun v span hv => hnumbers v span
      (List.mem_cons_of_mem _ (List.mem_append_left _ hv))) t ht
    have hplace := place.scriptClosed (NamesAll.isWord hnames.2.2) p hp
    exact htarget.after [.own "[", .put _, .own "]"] rfl ⟨hplace, trivial⟩
  | .call callee args _, hnames, _, f, h => by
    rw [script] at h
    obtain ⟨fs, hfs, h⟩ := exists_of_bind_eq_ok h
    cases h
    have hcallee := hnames _ (List.mem_cons_self ..) callee (List.mem_singleton_self callee)
    have hargs := scriptsClosed args (namesAll_iff.1 hnames.isWord).2 fs hfs
    exact hcallee.solid.after [.own "(", .put _, .own ")"] rfl
      ⟨Fragment.closed_join (by decide) hargs, trivial⟩
  | .array elements _, hnames, _, f, h => by
    rw [script] at h
    obtain ⟨fs, hfs, h⟩ := exists_of_bind_eq_ok h
    cases h
    have helements := scriptsClosed elements (namesAll_iff.1 hnames.isWord).2 fs hfs
    exact solid_after "[" (by decide) rfl [.put _, .own "]"] rfl
      ⟨Fragment.closed_join (by decide) helements, trivial⟩
  | .lambda params body _, hnames, _, f, h => by
    rw [script] at h
    obtain ⟨b, hb, h⟩ := exists_of_bind_eq_ok h
    cases h
    have hwords := namesAll_iff.1 hnames.isWord
    exact solid_after "((" (by decide) rfl
      [.put _, .own ") => ", .put _, .own ")"] rfl
      ⟨closed_intercalate (by decide) fun n hn => (hwords.1 n hn).closed,
        body.scriptClosed hwords.2 b hb, trivial⟩
  | .method _ target _ args _, hnames, _, f, h =>
    solid_method (hnames _ (List.mem_cons_self ..) target (List.mem_singleton_self target))
      (scriptsClosed args (namesAll_iff.1 hnames.isWord).2) h
  | .binary op left right _, hnames, _, f, h => by
    have hwords := (namesAll_iff.1 hnames.isWord).2
    rw [inner_binary, List.forall_mem_append] at hwords
    rw [script] at h
    obtain ⟨l, hl, h⟩ := exists_of_bind_eq_ok h
    obtain ⟨r, hr, h⟩ := exists_of_bind_eq_ok h
    cases h
    have hop : Closed op.script := by cases op <;> decide
    exact solid_after "(" (by decide) rfl
      [.put _, .own " ", .put _, .own " ", .put _, .own ")"] rfl
      ⟨left.scriptClosed hwords.1 l hl, hop, right.scriptClosed hwords.2 r hr, trivial⟩
  | .signed sign operand _, hnames, _, f, h => by
    rw [script] at h
    obtain ⟨o, ho, h⟩ := exists_of_bind_eq_ok h
    cases h
    have hsign : Closed sign.spelling := by cases sign <;> decide
    exact solid_after "(" (by decide) rfl [.put _, .put _, .own ")"] rfl
      ⟨hsign, operand.scriptClosed (namesAll_iff.1 hnames.isWord).2 o ho, trivial⟩

/-- The script of an expression of a source is one operand. -/
theorem Built.solid {e : Expr} {f : Fragment} (h : e.Built) (hf : e.script = .ok f) :
    Solid f.code := by
  obtain ⟨hnames, hnumbers⟩ := h.literals
  refine e.solid_script hnames (fun v span hv => ?_) f hf
  obtain ⟨whole, fraction, hparts⟩ := hnumbers v span hv
  exact Number.solid_text_of_ofParts hparts

end Expr

end Resin
