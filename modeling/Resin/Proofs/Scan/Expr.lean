import Resin.Proofs.Grammar.Names
import Resin.Proofs.Scan.Basic
import Resin.Proofs.Script.WellFormed

/-!
# Scripts of expressions are closed

Names and numbers are plain characters, texts stand in literals, and the brackets of every form of
an expression match. The script of an expression whose names are words is therefore closed.
-/

namespace Resin

open Scan

/-! ## Names and numbers -/

theorem isPlain_of_isDigit {c : Char} (h : c.isDigit = true) : isPlain c = true :=
  isPlain_of_class h (by decide)

theorem IsWord.isPlain {w : String} (h : IsWord w) : ∀ c ∈ w.toList, isPlain c = true :=
  fun c hc => isPlain_of_class (h c hc) (by decide)

theorem IsWord.closed {w : String} (h : IsWord w) : Closed w :=
  closed_of_isPlain h.isPlain

section Digits

variable {P : Char → Prop}

theorem forall_mem_toDigits (hdigit : ∀ c, c.isDigit = true → P c) (n : Nat) :
    ∀ c ∈ Nat.toDigits 10 n, P c :=
  fun c hc => hdigit c (Nat.isDigit_of_mem_toDigits (by decide) (by decide) hc)

theorem Number.forall_mem_positional (hdigit : ∀ c, c.isDigit = true → P c) (hpoint : P '.')
    (digits : Nat) (exponent : Int) : ∀ c ∈ positional digits exponent, P c := by
  have hzeros (n : Nat) : ∀ c ∈ List.replicate n '0', P c := by
    intro c hc
    rw [List.eq_of_mem_replicate hc]
    exact hdigit '0' rfl
  have hpadded (n : Nat) : ∀ c ∈ List.replicate n '0' ++ Nat.toDigits 10 digits, P c :=
    List.forall_mem_append.2 ⟨hzeros n, forall_mem_toDigits hdigit digits⟩
  unfold positional
  split
  · exact List.forall_mem_append.2 ⟨forall_mem_toDigits hdigit digits, hzeros _⟩
  · refine List.forall_mem_append.2 ⟨fun c hc => hpadded _ c (List.mem_of_mem_take hc), ?_⟩
    exact List.forall_mem_cons.2 ⟨hpoint, fun c hc => hpadded _ c (List.mem_of_mem_drop hc)⟩

/-- The text of a number has digits, a sign, a point and the letters of its two words. -/
theorem Number.forall_mem_text (hdigit : ∀ c, c.isDigit = true → P c)
    (hother : ∀ c ∈ ['-', '.'] ++ ['i', 'n', 'f'] ++ ['N', 'a', 'N'], P c) (x : Number) :
    ∀ c ∈ x.text.toList, P c := by
  rw [List.forall_mem_append, List.forall_mem_append] at hother
  obtain ⟨⟨hmarks, hinf⟩, hnan⟩ := hother
  have hmagnitude : ∀ c ∈ x.magnitudeText, P c := by
    cases x with
    | finite negative mantissa exponent =>
      simp only [magnitudeText]
      split
      · exact List.forall_mem_singleton.2 (hdigit '0' rfl)
      · exact forall_mem_positional hdigit (hmarks '.' (by decide)) _ _
    | infinite negative => exact hinf
    | nan => exact hnan
  rw [text, String.toList_ofList]
  split
  · exact List.forall_mem_cons.2 ⟨hmarks '-' (by decide), hmagnitude⟩
  · exact hmagnitude

theorem forall_mem_nat (hdigit : ∀ c, c.isDigit = true → P c) (n : Nat) :
    ∀ c ∈ (toString n).toList, P c := by
  rw [Nat.toString_eq_ofList_toDigits, String.toList_ofList]
  exact forall_mem_toDigits hdigit n

theorem forall_mem_int (hdigit : ∀ c, c.isDigit = true → P c) (hminus : P '-') (i : Int) :
    ∀ c ∈ (toString i).toList, P c := by
  show ∀ c ∈ i.repr.toList, P c
  rw [Int.repr_eq_if]
  split
  · exact forall_mem_nat hdigit _
  · rw [String.toList_append]
    exact List.forall_mem_append.2 ⟨List.forall_mem_singleton.2 hminus, forall_mem_nat hdigit _⟩

end Digits

theorem Number.isPlain_of_mem_text {x : Number} {c : Char} (h : c ∈ x.text.toList) :
    isPlain c = true :=
  forall_mem_text (fun _ => isPlain_of_isDigit) (List.all_eq_true.1 rfl) x c h

theorem closed_number (x : Number) : Closed x.text :=
  closed_of_isPlain fun _ => Number.isPlain_of_mem_text

theorem closed_nat (n : Nat) : Closed (toString n) :=
  closed_of_isPlain (forall_mem_nat (fun _ => isPlain_of_isDigit) n)

theorem closed_int (i : Int) : Closed (toString i) :=
  closed_of_isPlain (forall_mem_int (fun _ => isPlain_of_isDigit) rfl i)

/-! ## Methods -/

namespace Method

/-- How many characters the place that was opened before `cs` has, if it is one for the target or
for one of so many arguments. -/
def placeLength? (arity : Nat) (cs : List Char) : Option Nat :=
  (place? "" (List.replicate arity "") cs).map Prod.snd

/-- The scanner goes over a text with places, of which the first `skip` characters are already dealt
with. A place may stand in plain code only, and is passed over. -/
def pass (arity : Nat) : Nat → Scan.State → List Char → Option Scan.State
  | _, s, [] => some s
  | skip + 1, s, _ :: cs => pass arity skip s cs
  | 0, s, c :: cs =>
    if c = '{' then
      match placeLength? arity cs with
      | some length => if s.mode = .code then pass arity length s cs else none
      | none => (Scan.step s c).bind fun s => pass arity 0 s cs
    else (Scan.step s c).bind fun s => pass arity 0 s cs

theorem value?_map_const {γ : Type} (target : String) (args : List String) (key : List Char)
    (x : γ) :
    (value? target args key).map (fun _ => x) =
      (value? "" (List.replicate args.length "") key).map fun _ => x := by
  unfold value?
  by_cases htarget : key = ['t']
  · simp [htarget]
  · cases hindex : Text.unsigned64? key with
    | none => simp [htarget]
    | some n =>
      by_cases hn : n < args.length <;> simp [htarget, hn]

/-- How long a place is depends on the number of the arguments only. -/
theorem placeLength?_eq (target : String) (args : List String) (cs : List Char) :
    placeLength? args.length cs = (place? target args cs).map Prod.snd := by
  unfold placeLength? place?
  cases Text.cut? ['}'] cs with
  | none => rfl
  | some parts =>
    simp only [Option.map_map]
    exact (value?_map_const target args parts.1 (parts.1.length + 1)).symm

/-- What stands at a place is the target or an argument. -/
theorem mem_of_place? {target : String} {args : List String} {cs : List Char} {value : String}
    {length : Nat} (h : place? target args cs = some (value, length)) :
    value = target ∨ value ∈ args := by
  unfold place? at h
  cases hcut : Text.cut? ['}'] cs with
  | none => simp [hcut] at h
  | some parts =>
    simp only [hcut, Option.map_eq_some_iff, Prod.mk.injEq] at h
    obtain ⟨_, hvalue, rfl, -⟩ := h
    unfold value? at hvalue
    split at hvalue
    · cases hvalue
      exact .inl rfl
    · split at hvalue
      · exact .inr (List.mem_of_getElem? hvalue)
      · cases hvalue

/-- A text with places is scanned as it stands, whatever closed texts are put in. -/
theorem run_fillFrom {target : String} {args : List String} (htarget : Closed target)
    (hargs : ∀ a ∈ args, Closed a) {skip : Nat} {s t : Scan.State} {cs : List Char}
    (h : pass args.length skip s cs = some t) :
    Scan.run s (fillFrom target args skip cs) = some t := by
  fun_induction fillFrom target args skip cs generalizing s with
  | case1 => simpa [pass, Scan.run] using h
  | case2 skip c cs ih => exact ih h
  | case3 cs value length hplace ih =>
    -- a place: the scanner passes over it, and the text that stands there leads back to its state
    have hlength := placeLength?_eq target args cs
    rw [hplace, Option.map_some] at hlength
    simp only [pass, if_true, hlength] at h
    split at h
    · next hmode =>
      have hvalue : Closed value := by
        rcases mem_of_place? hplace with rfl | hmem
        · exact htarget
        · exact hargs value hmem
      obtain ⟨mode, stack⟩ := s
      cases hmode
      rw [Scan.run_append, hvalue.run stack]
      exact ih h
    · cases h
  | case4 cs hplace ih =>
    -- a brace that opens no place is an ordinary character
    have hlength := placeLength?_eq target args cs
    rw [hplace, Option.map_none] at hlength
    simp only [pass, if_true, hlength] at h
    obtain ⟨u, hu, hrest⟩ := Option.bind_eq_some_iff.1 h
    rw [Scan.run, hu]
    exact ih hrest
  | case5 c cs hc ih =>
    simp only [pass, hc, if_false] at h
    obtain ⟨u, hu, hrest⟩ := Option.bind_eq_some_iff.1 h
    rw [Scan.run, hu]
    exact ih hrest

/-- Every text with places in the table is closed around them. -/
def closedAround (m : Method) : Bool :=
  match m.lowering with
  | .template text | .lambda text => pass m.arity 0 Scan.start text.toList = some Scan.start
  | .slice => true

theorem closedAround_of_find? {type : TypeName} {name : String} {m : Method}
    (h : find? type name = some m) : m.closedAround = true := by
  have hall : table.all closedAround = true := by decide +kernel
  exact List.all_eq_true.1 hall m (List.mem_of_find?_eq_some h)

theorem closed_fill {target text : String} {args : List String} (htarget : Closed target)
    (hargs : ∀ a ∈ args, Closed a)
    (h : pass args.length 0 Scan.start text.toList = some Scan.start) :
    Closed (fill text target args) := by
  rw [Closed, fill, String.toList_ofList]
  exact run_fillFrom htarget hargs h

end Method

theorem Slice.closed_script {target : String} (htarget : Closed target) (type : TypeName)
    (slice : Slice) : Closed (slice.script type target) := by
  have hjoined : Closed (Slice.script.joined type) := by cases type <;> decide
  cases slice with
  | range first last =>
    cases last with
    | none =>
      exact closed_of_parts (.put _) [.own ".slice(", .put _, .own ")"] rfl
        ⟨htarget, closed_int _, trivial⟩
    | some last =>
      exact closed_of_parts (.put _) [.own ".slice(", .put _, .own ", ", .put _, .own ")"] rfl
        ⟨htarget, closed_int _, closed_int _, trivial⟩
  | stride step =>
    exact closed_of_parts (.own "[...")
      [.put _, .own "].filter((_, i) => i % ", .put _, .own " === 0)", .put _] rfl
      ⟨htarget, closed_nat _, hjoined, trivial⟩
  | reverse =>
    exact closed_of_parts (.own "[...") [.put _, .own "].reverse()", .put _] rfl
      ⟨htarget, hjoined, trivial⟩

/-! ## Expressions -/

theorem Fragment.closed_join {separator : String} {fragments : List Fragment}
    (hsep : Closed separator) (h : ∀ f ∈ fragments, Closed f.code) :
    Closed (Fragment.join separator fragments).code := by
  refine closed_intercalate hsep fun text htext => ?_
  obtain ⟨f, hf, rfl⟩ := List.mem_map.1 htext
  exact h f hf

namespace Expr

/-- The script of an expression, if it has one, is closed. -/
def ScriptClosed (e : Expr) : Prop :=
  ∀ f, e.script = .ok f → Closed f.code

/-- The scripts of some expressions, if they have any, are closed. -/
def ScriptsClosed (es : List Expr) : Prop :=
  ∀ fs, scripts es = .ok fs → ∀ f ∈ fs, Closed f.code

theorem length_of_scripts {es : List Expr} {fs : List Fragment} (h : scripts es = .ok fs) :
    fs.length = es.length := by
  induction es generalizing fs with
  | nil =>
    cases h
    rfl
  | cons e es ih =>
    rw [scripts] at h
    obtain ⟨f, -, h⟩ := exists_of_bind_eq_ok h
    obtain ⟨fs, hfs, h⟩ := exists_of_bind_eq_ok h
    cases h
    rw [List.length_cons, List.length_cons, ih hfs]

theorem ScriptClosed.index {target place : Expr} {span : Span} (htarget : target.ScriptClosed)
    (hplace : place.ScriptClosed) : (Expr.index target place span).ScriptClosed := by
  intro f h
  rw [script] at h
  obtain ⟨t, ht, h⟩ := exists_of_bind_eq_ok h
  obtain ⟨p, hp, h⟩ := exists_of_bind_eq_ok h
  cases h
  exact closed_of_parts (.put _) [.own "[", .put _, .own "]"] rfl
    ⟨htarget t ht, hplace p hp, trivial⟩

theorem ScriptClosed.call {callee : String} {args : List Expr} {span : Span}
    (hcallee : IsWord callee) (hargs : ScriptsClosed args) :
    (Expr.call callee args span).ScriptClosed := by
  intro f h
  rw [script] at h
  obtain ⟨fs, hfs, h⟩ := exists_of_bind_eq_ok h
  cases h
  exact closed_of_parts (.put _) [.own "(", .put _, .own ")"] rfl
    ⟨hcallee.closed, Fragment.closed_join (by decide) (hargs fs hfs), trivial⟩

theorem ScriptClosed.array {elements : List Expr} {span : Span} (h : ScriptsClosed elements) :
    (Expr.array elements span).ScriptClosed := by
  intro f hf
  rw [script] at hf
  obtain ⟨fs, hfs, hf⟩ := exists_of_bind_eq_ok hf
  cases hf
  exact closed_of_parts (.own "[") [.put _, .own "]"] rfl
    ⟨Fragment.closed_join (by decide) (h fs hfs), trivial⟩

theorem ScriptClosed.lambda {params : List String} {body : Expr} {span : Span}
    (hparams : ∀ n ∈ params, IsWord n) (hbody : body.ScriptClosed) :
    (Expr.lambda params body span).ScriptClosed := by
  intro f h
  rw [script] at h
  obtain ⟨b, hb, h⟩ := exists_of_bind_eq_ok h
  cases h
  exact closed_of_parts (.own "((") [.put _, .own ") => ", .put _, .own ")"] rfl
    ⟨closed_intercalate (by decide) fun n hn => (hparams n hn).closed, hbody b hb, trivial⟩

theorem ScriptClosed.method {type : Located TypeName} {target : String} {called : Located String}
    {args : List Expr} {span : Span} (htarget : IsWord target) (hargs : ScriptsClosed args) :
    (Expr.method type target called args span).ScriptClosed := by
  intro f h
  rw [script] at h
  obtain ⟨m, hm, h⟩ := exists_of_bind_eq_ok h
  obtain ⟨hfind, harity⟩ := resolveMethod_eq_ok_iff.1 hm
  have haround := Method.closedAround_of_find? hfind
  -- both lowerings with places fill them with the scripts of the arguments
  have hfill : ∀ {text fs}, scripts args = .ok fs →
      Method.pass m.arity 0 start text.toList = some start →
      Closed (fillMethod text target fs).code := by
    intro text fs hfs hpass
    refine Method.closed_fill htarget.closed (fun a ha => ?_) ?_
    · obtain ⟨f, hf, rfl⟩ := List.mem_map.1 ha
      exact hargs fs hfs f hf
    · rwa [List.length_map, length_of_scripts hfs, harity]
  unfold Method.closedAround at haround
  split at h
  · next text hlowering =>
    rw [hlowering, decide_eq_true_eq] at haround
    obtain ⟨fs, hfs, h⟩ := exists_of_bind_eq_ok h
    cases h
    exact hfill hfs haround
  · next text hlowering =>
    rw [hlowering, decide_eq_true_eq] at haround
    obtain ⟨-, -, h⟩ := exists_of_bind_eq_ok h
    obtain ⟨fs, hfs, h⟩ := exists_of_bind_eq_ok h
    cases h
    exact hfill hfs haround
  · obtain ⟨slice, -, h⟩ := exists_of_bind_eq_ok h
    cases h
    exact Slice.closed_script htarget.closed _ slice

theorem ScriptClosed.binary {op : BinaryOp} {left right : Expr} {span : Span}
    (hleft : left.ScriptClosed) (hright : right.ScriptClosed) :
    (Expr.binary op left right span).ScriptClosed := by
  intro f h
  rw [script] at h
  obtain ⟨l, hl, h⟩ := exists_of_bind_eq_ok h
  obtain ⟨r, hr, h⟩ := exists_of_bind_eq_ok h
  cases h
  have hop : Closed op.script := by cases op <;> decide
  exact closed_of_parts (.own "(") [.put _, .own " ", .put _, .own " ", .put _, .own ")"] rfl
    ⟨hleft l hl, hop, hright r hr, trivial⟩

theorem ScriptClosed.signed {sign : Sign} {operand : Expr} {span : Span}
    (hoperand : operand.ScriptClosed) : (Expr.signed sign operand span).ScriptClosed := by
  intro f h
  rw [script] at h
  obtain ⟨o, ho, h⟩ := exists_of_bind_eq_ok h
  cases h
  have hsign : Closed sign.spelling := by cases sign <;> decide
  exact closed_of_parts (.own "(") [.put _, .put _, .own ")"] rfl ⟨hsign, hoperand o ho, trivial⟩

mutual

/-- The script of an expression whose names are words is closed. -/
theorem scriptClosed : (e : Expr) → e.NamesAll IsWord → e.ScriptClosed
  | .number v _, _ => fun f h => by
    cases h
    exact closed_number v
  | .text content _ _, _ => fun f h => by
    cases h
    exact closed_quoted content
  | .bool v _, _ => fun f h => by
    cases h
    cases v <;> decide
  | .null _, _ | .undefined _, _ | .input _, _ => fun f h => by
    cases h
    decide
  | .name w _, hnames => fun f h => by
    cases h
    exact (hnames _ (List.mem_cons_self ..) w (List.mem_singleton_self w)).closed
  | .index target place _, hnames => by
    rw [namesAll_iff, inner_index, List.forall_mem_append] at hnames
    exact .index (scriptClosed target hnames.2.1) (scriptClosed place hnames.2.2)
  | .call callee args _, hnames => by
    rw [namesAll_iff] at hnames
    exact .call (hnames.1 callee (List.mem_singleton_self callee)) (scriptsClosed args hnames.2)
  | .array elements _, hnames => by
    rw [namesAll_iff] at hnames
    exact .array (scriptsClosed elements hnames.2)
  | .lambda params body _, hnames => by
    rw [namesAll_iff] at hnames
    exact .lambda hnames.1 (scriptClosed body hnames.2)
  | .method _ target _ args _, hnames => by
    rw [namesAll_iff] at hnames
    exact .method (hnames.1 target (List.mem_singleton_self target)) (scriptsClosed args hnames.2)
  | .binary _ left right _, hnames => by
    rw [namesAll_iff, inner_binary, List.forall_mem_append] at hnames
    exact .binary (scriptClosed left hnames.2.1) (scriptClosed right hnames.2.2)
  | .signed _ operand _, hnames => by
    rw [namesAll_iff] at hnames
    exact .signed (scriptClosed operand hnames.2)

/-- The scripts of expressions whose names are words are closed. -/
theorem scriptsClosed : (es : List Expr) → ListNamesAll IsWord es → ScriptsClosed es
  | [], _ => fun fs h => by
    cases h
    simp
  | e :: es, hnames => fun fs h => by
    rw [listNamesAll_cons] at hnames
    rw [scripts] at h
    obtain ⟨f, hf, h⟩ := exists_of_bind_eq_ok h
    obtain ⟨fs, hfs, h⟩ := exists_of_bind_eq_ok h
    cases h
    rw [List.forall_mem_cons]
    exact ⟨scriptClosed e hnames.1 f hf, scriptsClosed es hnames.2 fs hfs⟩

end

end Expr

end Resin
