import Resin.Script.Literal

/-!
# Scanning a script

A scanner that goes over a script character by character. It knows string literals, template
literals with substitutions, and the brackets of plain code, and nothing else of the language: a
stack holds the brackets and substitutions that are open. A text is *closed* if scanning it from
plain code with nothing open ends there again.

Whatever is open around a closed text stays open in it (`Closed.run`), so closed texts can be put
next to each other, into brackets and into substitutions. The two kinds of literals that carry the
texts of a program keep the scanner inside until their last character.
-/

namespace Resin.Scan

/-! ## The scanner -/

/-- What can be open in plain code. -/
inductive Bracket where
  | paren | square | brace | substitution
deriving DecidableEq, Repr, Inhabited

/-- Where a scanner stands. In a literal a backslash hides the next character; in a template
literal a dollar may begin a substitution. -/
inductive Mode where
  | code | string | stringEscape | template | templateEscape | templateDollar
deriving DecidableEq, Repr, Inhabited

/-- The place of a scanner and the brackets that are open there, the innermost first. -/
structure State where
  mode : Mode
  stack : List Bracket
deriving DecidableEq, Repr, Inhabited

namespace Bracket

/-- The bracket that a character of plain code opens. -/
def ofOpening? (c : Char) : Option Bracket :=
  if c = '(' then some .paren
  else if c = '[' then some .square
  else if c = '{' then some .brace
  else none

/-- The character that closes a bracket. -/
def closing : Bracket → Char
  | .paren => ')'
  | .square => ']'
  | .brace | .substitution => '}'

/-- Where a scanner stands behind a bracket. -/
def outside : Bracket → Mode
  | .paren | .square | .brace => .code
  | .substitution => .template

end Bracket

/-- A character that closes the innermost bracket, if it is the one for it. -/
def close (c : Char) : List Bracket → Option State
  | [] => none
  | b :: stack => if b.closing = c then some ⟨b.outside, stack⟩ else none

/-- A character of plain code. -/
def codeStep (stack : List Bracket) (c : Char) : Option State :=
  if c = '\x22' then some ⟨.string, stack⟩
  else if c = '\x60' then some ⟨.template, stack⟩
  else if c = ')' ∨ c = ']' ∨ c = '}' then close c stack
  else match Bracket.ofOpening? c with
    | some b => some ⟨.code, b :: stack⟩
    | none => some ⟨.code, stack⟩

/-- A character of a template literal that is not escaped. -/
def templateStep (stack : List Bracket) (c : Char) : State :=
  if c = '\x60' then ⟨.code, stack⟩
  else if c = '\\' then ⟨.templateEscape, stack⟩
  else if c = '$' then ⟨.templateDollar, stack⟩
  else ⟨.template, stack⟩

/-- One character. A bracket that closes nothing is refused, and so is a line feed in a string
literal. -/
def step (s : State) (c : Char) : Option State :=
  match s.mode with
  | .code => codeStep s.stack c
  | .string =>
    if c = '\x22' then some ⟨.code, s.stack⟩
    else if c = '\\' then some ⟨.stringEscape, s.stack⟩
    else if c = '\n' then none
    else some ⟨.string, s.stack⟩
  | .stringEscape => if c = '\n' then none else some ⟨.string, s.stack⟩
  | .template => some (templateStep s.stack c)
  | .templateEscape => some ⟨.template, s.stack⟩
  | .templateDollar =>
    if c = '{' then some ⟨.code, .substitution :: s.stack⟩ else some (templateStep s.stack c)

/-- The characters of a text one after the other. -/
def run : State → List Char → Option State
  | s, [] => some s
  | s, c :: cs => (step s c).bind fun s => run s cs

/-- Plain code with nothing open. -/
def start : State := ⟨.code, []⟩

/-- Scanning the text from plain code ends there again, with all brackets closed. -/
def Closed (text : String) : Prop :=
  run start text.toList = some start

instance (text : String) : Decidable (Closed text) :=
  inferInstanceAs (Decidable (_ = _))

theorem run_append (s : State) (cs ds : List Char) :
    run s (cs ++ ds) = (run s cs).bind fun s => run s ds := by
  induction cs generalizing s with
  | nil => rfl
  | cons c cs ih =>
    cases h : step s c <;> simp [run, h, ih]

/-! ## What is open around a text -/

/-- The same place with more brackets open around it. -/
def State.within (s : State) (stack : List Bracket) : State :=
  ⟨s.mode, s.stack ++ stack⟩

theorem close_within {c : Char} {opened : List Bracket} {s : State} (h : close c opened = some s)
    (stack : List Bracket) : close c (opened ++ stack) = some (s.within stack) := by
  cases opened with
  | nil => cases h
  | cons b opened =>
    by_cases hclosing : b.closing = c
    · simp only [close, hclosing, if_true, Option.some.injEq] at h
      simp [close, hclosing, ← h, State.within]
    · simp [close, hclosing] at h

theorem codeStep_within {c : Char} {opened : List Bracket} {s : State}
    (h : codeStep opened c = some s) (stack : List Bracket) :
    codeStep (opened ++ stack) c = some (s.within stack) := by
  unfold codeStep at h ⊢
  split at h
  · next hc =>
    cases h
    simp [hc, State.within]
  · next hquote =>
    split at h
    · next hc =>
      cases h
      simp [hc, State.within]
    · next hbacktick =>
      split at h
      · next hc =>
        rw [if_neg hquote, if_neg hbacktick, if_pos hc]
        exact close_within h stack
      · next hc =>
        rw [if_neg hquote, if_neg hbacktick, if_neg hc]
        split at h <;> cases h <;> simp_all [State.within]

/-- What is open further out has no part in a step that is taken without it. -/
theorem step_within {s s' : State} {c : Char} (h : step s c = some s') (stack : List Bracket) :
    step (s.within stack) c = some (s'.within stack) := by
  obtain ⟨mode, opened⟩ := s
  cases mode with
  | code => exact codeStep_within h stack
  | string | stringEscape | template | templateEscape | templateDollar =>
    -- in a literal the stack is not looked at
    simp only [step, templateStep, State.within] at h ⊢
    grind

theorem run_within {s s' : State} {cs : List Char} (h : run s cs = some s')
    (stack : List Bracket) : run (s.within stack) cs = some (s'.within stack) := by
  induction cs generalizing s with
  | nil =>
    cases h
    rfl
  | cons c cs ih =>
    obtain ⟨u, hu, hrest⟩ := Option.bind_eq_some_iff.1 h
    rw [run, step_within hu stack]
    exact ih hrest

/-- A closed text leaves what is open around it as it is. -/
theorem Closed.run {text : String} (h : Closed text) (stack : List Bracket) :
    run ⟨.code, stack⟩ text.toList = some ⟨.code, stack⟩ :=
  run_within h stack

theorem Closed.append {a b : String} (ha : Closed a) (hb : Closed b) : Closed (a ++ b) := by
  rw [Closed, String.toList_append, run_append, ha]
  exact hb

/-! ## The way through a text -/

/-- Scanning leads from one state to another, only through states with a property, the two ends
included. -/
inductive Leads (P : State → Prop) : State → List Char → State → Prop
  | nil {s} : P s → Leads P s [] s
  | cons {s t u c cs} : P s → step s c = some t → Leads P t cs u → Leads P s (c :: cs) u

variable {P : State → Prop} {s t u : State} {cs ds : List Char}

theorem Leads.run (h : Leads P s cs t) : run s cs = some t := by
  induction h with
  | nil => rfl
  | cons _ hstep _ ih => rw [Scan.run, hstep, Option.bind_some, ih]

theorem Leads.append (h : Leads P s cs t) (h' : Leads P t ds u) : Leads P s (cs ++ ds) u := by
  induction h with
  | nil => exact h'
  | cons hp hstep _ ih => exact .cons hp hstep (ih h')

/-- A closed text never closes what is open around it, not even to open it again. -/
theorem Closed.leads {text : String} (h : Closed text) (stack : List Bracket) :
    Leads (fun s => stack <:+ s.stack) ⟨.code, stack⟩ text.toList ⟨.code, stack⟩ := by
  -- on the way from any state to any other, what the text opens lies above `stack`
  have hrun : ∀ {cs s t}, Scan.run s cs = some t →
      Leads (fun s => stack <:+ s.stack) (s.within stack) cs (t.within stack) := by
    intro cs
    induction cs with
    | nil =>
      intro s t h
      cases h
      exact .nil (List.suffix_append ..)
    | cons c cs ih =>
      intro s t h
      obtain ⟨u, hu, hrest⟩ := Option.bind_eq_some_iff.1 h
      exact .cons (List.suffix_append ..) (step_within hu stack) (ih hrest)
  exact hrun h

/-! ## String literals -/

/-- Inside a string literal, with the given brackets open around it. -/
def InString (stack : List Bracket) (s : State) : Prop :=
  (s.mode = .string ∨ s.mode = .stringEscape) ∧ s.stack = stack

variable {stack : List Bracket}

theorem leads_escaped {c : Char} (h : c ≠ '\n') :
    Leads (InString stack) ⟨.string, stack⟩ ['\\', c] ⟨.string, stack⟩ := by
  refine .cons ⟨.inl rfl, rfl⟩ rfl (.cons ⟨.inr rfl, rfl⟩ ?_ (.nil ⟨.inl rfl, rfl⟩))
  simp [step, h]

theorem leads_unescaped {c : Char} (hquote : c ≠ '\x22') (hbackslash : c ≠ '\\')
    (hfeed : c ≠ '\n') :
    Leads (InString stack) ⟨.string, stack⟩ [c] ⟨.string, stack⟩ := by
  refine .cons ⟨.inl rfl, rfl⟩ ?_ (.nil ⟨.inl rfl, rfl⟩)
  simp [step, hquote, hbackslash, hfeed]

theorem leads_digitChar (n : Nat) :
    Leads (InString stack) ⟨.string, stack⟩ [Nat.digitChar n] ⟨.string, stack⟩ :=
  leads_unescaped (Nat.digitChar_ne _ (by decide)) (Nat.digitChar_ne _ (by decide))
    (Nat.digitChar_ne _ (by decide))

theorem leads_escapeChar (c : Char) :
    Leads (InString stack) ⟨.string, stack⟩ (Literal.escapeChar c) ⟨.string, stack⟩ := by
  by_cases hquote : c = '\x22'
  · rw [hquote]
    exact leads_escaped (c := '\x22') (by decide)
  by_cases hbackslash : c = '\\'
  · rw [hbackslash]
    exact leads_escaped (c := '\\') (by decide)
  by_cases hfeed : c = '\n'
  · rw [hfeed]
    exact leads_escaped (c := 'n') (by decide)
  by_cases hreturn : c = '\r'
  · rw [hreturn]
    exact leads_escaped (c := 'r') (by decide)
  by_cases htab : c = '\t'
  · rw [htab]
    exact leads_escaped (c := 't') (by decide)
  by_cases hcontrol : c.toNat < 0x20
  · -- the other control characters are written by their numbers
    have hzero : Leads (InString stack) ⟨.string, stack⟩ ['0'] ⟨.string, stack⟩ := leads_digitChar 0
    have hhigh := hzero.append (leads_digitChar (c.toNat / 16))
    have hlow := hhigh.append (leads_digitChar (c.toNat % 16))
    have hcode := (leads_escaped (c := 'u') (by decide)).append (hzero.append hlow)
    simpa [Literal.escapeChar, hquote, hbackslash, hfeed, hreturn, htab, hcontrol] using hcode
  · simpa [Literal.escapeChar, hquote, hbackslash, hfeed, hreturn, htab, hcontrol] using
      leads_unescaped hquote hbackslash hfeed

/-- No text leaves the string literal that it is written in. -/
theorem leads_string (cs : List Char) (stack : List Bracket) :
    Leads (InString stack) ⟨.string, stack⟩ (cs.flatMap Literal.escapeChar) ⟨.string, stack⟩ := by
  induction cs with
  | nil => exact .nil ⟨.inl rfl, rfl⟩
  | cons c cs ih => exact (leads_escapeChar c).append ih

theorem closed_quoted (text : String) : Closed (Literal.quoted text) := by
  rw [Closed, Literal.quoted, String.toList_ofList, Literal.quotedChars, run_append]
  change ((run ⟨.string, []⟩ (text.toList.flatMap Literal.escapeChar)).bind _) = _
  rw [(leads_string _ _).run]
  rfl

/-! ## Template literals -/

/-- Inside a template literal, with the given brackets open around it. -/
def InTemplate (stack : List Bracket) (s : State) : Prop :=
  (s.mode = .template ∨ s.mode = .templateEscape ∨ s.mode = .templateDollar) ∧ s.stack = stack

/-- Before a character of a template literal that begins no substitution. -/
def BeforeText (mode : Mode) (next : Option Char) : Prop :=
  mode = .template ∨ mode = .templateDollar ∧ next ≠ some '{'

theorem BeforeText.step {mode : Mode} {c : Char} (h : BeforeText mode (some c)) :
    step ⟨mode, stack⟩ c = some (templateStep stack c) := by
  obtain rfl | ⟨rfl, hc⟩ := h
  · rfl
  · have hc : c ≠ '{' := fun heq => hc (congrArg some heq)
    simp [Scan.step, hc]

theorem BeforeText.of_ne {mode : Mode} {next : Option Char} {c : Char} (h : BeforeText mode next)
    (hc : c ≠ '{') : BeforeText mode (some c) :=
  h.imp_right fun hmode => ⟨hmode.1, fun heq => hc (Option.some.inj heq)⟩

theorem BeforeText.inTemplate {mode : Mode} {next : Option Char} (h : BeforeText mode next) :
    InTemplate stack ⟨mode, stack⟩ := by
  obtain rfl | ⟨rfl, -⟩ := h
  · exact ⟨.inl rfl, rfl⟩
  · exact ⟨.inr (.inr rfl), rfl⟩

/-- No text leaves the template literal that it is written in. A dollar at its end may be followed
by a substitution; one just before it is followed by no brace. -/
theorem leads_template (cs : List Char) (stack : List Bracket) {mode : Mode}
    (hmode : BeforeText mode cs.head?) :
    ∃ mode', BeforeText mode' none ∧
      Leads (InTemplate stack) ⟨mode, stack⟩ (Literal.templateChars cs) ⟨mode', stack⟩ := by
  have hin : InTemplate stack ⟨mode, stack⟩ := hmode.inTemplate
  have hescape : InTemplate stack ⟨.templateEscape, stack⟩ := ⟨.inr (.inl rfl), rfl⟩
  have htemplate : InTemplate stack ⟨.template, stack⟩ := ⟨.inl rfl, rfl⟩
  fun_induction Literal.templateChars cs generalizing mode with
  | case1 => exact ⟨mode, hmode, .nil hin⟩
  | case2 cs ih =>
    -- the backslash hides the dollar, so the brace opens nothing
    obtain ⟨mode', hmode', hrest⟩ := ih (.inl rfl) htemplate
    have hbackslash := hmode.of_ne (c := '\\') (by decide)
    exact ⟨mode', hmode', .cons hin hbackslash.step (.cons hescape rfl (.cons htemplate rfl hrest))⟩
  | case3 c cs _ hc ih =>
    obtain ⟨mode', hmode', hrest⟩ := ih (.inl rfl) htemplate
    have hbackslash := hmode.of_ne (c := '\\') (by decide)
    exact ⟨mode', hmode', .cons hin hbackslash.step (.cons hescape rfl hrest)⟩
  | case4 c cs hpair hc ih =>
    rw [not_or] at hc
    by_cases hdollar : c = '$'
    · -- a dollar is written as it is only if no brace follows it
      have hnext : BeforeText .templateDollar cs.head? := by
        refine .inr ⟨rfl, fun hhead => ?_⟩
        obtain ⟨tail, rfl⟩ := List.head?_eq_some_iff.1 hhead
        exact hpair tail hdollar rfl
      obtain ⟨mode', hmode', hrest⟩ := ih hnext hnext.inTemplate
      have hstep : templateStep stack c = ⟨.templateDollar, stack⟩ := by
        simp [templateStep, hdollar]
      exact ⟨mode', hmode', .cons hin (hstep ▸ hmode.step) hrest⟩
    · obtain ⟨mode', hmode', hrest⟩ := ih (.inl rfl) htemplate
      have hstep : templateStep stack c = ⟨.template, stack⟩ := by simp [templateStep, hc, hdollar]
      exact ⟨mode', hmode', .cons hin (hstep ▸ hmode.step) hrest⟩

/-! ## Plain code -/

/-- The characters that a scanner of plain code stops at. -/
def special : List Char :=
  ['\x22', '\x60', '(', ')', '[', ']', '{', '}']

/-- A character that is no quote and no bracket. -/
def isPlain (c : Char) : Bool :=
  !special.contains c

theorem isPlain_of_class {p : Char → Bool} {c : Char} (h : p c = true)
    (hp : special.all (fun x => !p x) = true) : isPlain c = true := by
  rw [isPlain, Bool.not_eq_true', List.contains_eq_mem, decide_eq_false_iff_not]
  intro hmem
  have hnot := List.all_eq_true.1 hp c hmem
  rw [h] at hnot
  cases hnot

theorem step_of_isPlain {c : Char} (h : isPlain c = true) (stack : List Bracket) :
    step ⟨.code, stack⟩ c = some ⟨.code, stack⟩ := by
  simp only [isPlain, special, List.contains_eq_mem, List.mem_cons, List.not_mem_nil, or_false,
    Bool.not_eq_true', decide_eq_false_iff_not, not_or] at h
  simp [step, codeStep, Bracket.ofOpening?, h]

/-- Plain characters leave the scanner where it is. -/
theorem leads_plain {cs : List Char} (h : ∀ c ∈ cs, isPlain c = true) (stack : List Bracket) :
    Leads (· = ⟨.code, stack⟩) ⟨.code, stack⟩ cs ⟨.code, stack⟩ := by
  induction cs with
  | nil => exact .nil rfl
  | cons c cs ih =>
    rw [List.forall_mem_cons] at h
    exact .cons rfl (step_of_isPlain h.1 stack) (ih h.2)

theorem closed_of_isPlain {text : String} (h : ∀ c ∈ text.toList, isPlain c = true) : Closed text :=
  (leads_plain h []).run

/-! ## Closed texts put together -/

theorem closed_intercalate {separator : String} {texts : List String} (hsep : Closed separator)
    (h : ∀ text ∈ texts, Closed text) : Closed (separator.intercalate texts) := by
  induction texts with
  | nil => exact rfl
  | cons a texts ih =>
    rw [List.forall_mem_cons] at h
    cases texts with
    | nil =>
      rw [String.intercalate_singleton]
      exact h.1
    | cons b texts =>
      rw [String.intercalate_cons_cons]
      exact (h.1.append hsep).append (ih h.2)

/-- A part of a text: characters of its own, or a text that is put in. -/
inductive Part where
  | own (text : String)
  | put (text : String)

namespace Part

def text : Part → String
  | .own text | .put text => text

/-- The scanner goes over a part; a text may be put into plain code only, and is passed over. -/
def pass (s : State) : Part → Option State
  | .own text => run s text.toList
  | .put _ => if s.mode = .code then some s else none

/-- The scanner goes over parts one after the other. -/
def passAll : State → List Part → Option State
  | s, [] => some s
  | s, part :: parts => (part.pass s).bind fun s => passAll s parts

/-- A text with parts behind it. -/
def after (first : String) : List Part → String
  | [] => first
  | part :: parts => after (first ++ part.text) parts

/-- Every text that is put in is closed. -/
@[reducible] def PutsClosed : List Part → Prop
  | [] => True
  | .own _ :: parts => PutsClosed parts
  | .put text :: parts => Closed text ∧ PutsClosed parts

theorem run_pass {part : Part} {parts : List Part} (hput : PutsClosed (part :: parts))
    (h : part.pass s = some t) : run s part.text.toList = some t ∧ PutsClosed parts := by
  cases part with
  | own text => exact ⟨h, hput⟩
  | put text =>
    -- the text is scanned as if nothing were open, and ends where it began
    obtain ⟨mode, stack⟩ := s
    by_cases hmode : mode = .code
    · subst hmode
      cases h
      exact ⟨hput.1.run stack, hput.2⟩
    · simp [pass, hmode] at h

theorem run_after {first : String} {parts : List Part} (hput : PutsClosed parts)
    (hfirst : run s first.toList = some t) (h : passAll t parts = some u) :
    run s (after first parts).toList = some u := by
  induction parts generalizing first t with
  | nil => exact hfirst.trans h
  | cons part parts ih =>
    obtain ⟨v, hv, hrest⟩ := Option.bind_eq_some_iff.1 h
    obtain ⟨hrun, hput⟩ := run_pass hput hv
    refine ih hput ?_ hrest
    rw [String.toList_append, run_append, hfirst]
    exact hrun

end Part

/-- A text is closed if its own characters are, with closed texts put into their plain code. -/
theorem closed_of_parts (first : Part) (parts : List Part)
    (h : Part.passAll start (first :: parts) = some start)
    (hput : Part.PutsClosed (first :: parts)) : Closed (Part.after first.text parts) := by
  obtain ⟨v, hv, hrest⟩ := Option.bind_eq_some_iff.1 h
  obtain ⟨hrun, hput⟩ := Part.run_pass hput hv
  exact Part.run_after hput hrun hrest

end Resin.Scan
