import Resin.Proofs.Scan.Region
import Resin.Proofs.Script.Mentions

/-!
# Scripts of expressions are marked

The script of an expression is marked, if the texts that the expression takes from its source are
without the mark. Of a method this asks that every argument has a place in the method's text, and
that no word of an argument goes on in the text around it; both are read off the table
(`Method.keepsWords_of_find?`).
-/

namespace Resin

open Fragment

/-! ## Methods -/

namespace Method

/-- A stretch of a text with places: characters of its own, the place of the target, or that of an
argument. -/
inductive Slot where
  | own (run : List Char)
  | target
  | argument (n : Nat)
deriving DecidableEq

/-- What a key between braces stands for, if there are so many arguments. -/
def slot? (arity : Nat) (key : List Char) : Option Slot :=
  if key = ['t'] then some .target
  else match Text.unsigned64? key with
    | some n => if n < arity then some (.argument n) else none
    | none => none

/-- The place that was opened before `cs`, and how many characters of `cs` belong to it. -/
def slotPlace? (arity : Nat) (cs : List Char) : Option (Slot × Nat) :=
  match Text.cut? ['}'] cs with
  | some (key, _) => (slot? arity key).map fun slot => (slot, key.length + 1)
  | none => none

/-- A character in front of stretches. -/
def Slot.cons (c : Char) : List Slot → List Slot
  | .own run :: slots => .own (c :: run) :: slots
  | slots => .own [c] :: slots

/-- The stretches of a text with places, of which the first `skip` characters are already dealt
with. -/
def slots (arity : Nat) : Nat → List Char → List Slot
  | _, [] => []
  | skip + 1, _ :: cs => slots arity skip cs
  | 0, c :: cs =>
    if c = '{' then
      match slotPlace? arity cs with
      | some (slot, length) => slot :: slots arity length cs
      | none => Slot.cons c (slots arity 0 cs)
    else Slot.cons c (slots arity 0 cs)

/-- What stands at a stretch. -/
def Slot.part (target : String) (args : List Fragment) : Slot → Part
  | .own run => .own (String.ofList run)
  | .target => .put target
  | .argument n => .put (args.getD n "")

theorem code_getD (fs : List Fragment) (n : Nat) :
    (fs.getD n "").code = (fs.map Fragment.code).getD n "" := by
  simp only [List.getD_eq_getElem?_getD, List.getElem?_map]
  cases fs[n]? <;> rfl

variable {target : String} {args : List Fragment}

theorem code_all_cons (c : Char) (ss : List Slot) :
    (Part.all ((Slot.cons c ss).map (Slot.part target args))).code.toList =
      c :: (Part.all (ss.map (Slot.part target args))).code.toList := by
  match ss with
  | .own run :: ss => simp [Slot.cons, Part.all, Slot.part, Part.fragment, Fragment.text]
  | [] => simp [Slot.cons, Part.all, Slot.part, Part.fragment, Fragment.text]
  | .target :: ss => simp [Slot.cons, Part.all, Slot.part, Part.fragment, Fragment.text]
  | .argument n :: ss => simp [Slot.cons, Part.all, Slot.part, Part.fragment, Fragment.text]

theorem place?_eq (cs : List Char) : place? target (args.map code) cs =
    (slotPlace? args.length cs).map fun p => ((p.1.part target args).fragment.code, p.2) := by
  unfold place? slotPlace?
  cases Text.cut? ['}'] cs with
  | none => rfl
  | some parts =>
    obtain ⟨key, rest⟩ := parts
    unfold value? slot?
    by_cases htarget : key = ['t']
    · simp [htarget, Slot.part, Part.fragment, Fragment.text]
    · cases hindex : Text.unsigned64? key with
      | none => simp [htarget, hindex]
      | some n =>
        by_cases hn : n < args.length
        · simp [htarget, hindex, hn, Slot.part, Part.fragment]
        · simp [htarget, hindex, hn]

/-- A text is filled in stretch by stretch. -/
theorem fillFrom_eq (skip : Nat) (cs : List Char) : fillFrom target (args.map code) skip cs =
    (Part.all ((slots args.length skip cs).map (Slot.part target args))).code.toList := by
  fun_induction fillFrom target (args.map code) skip cs with
  | case1 => rfl
  | case2 skip c cs ih => exact ih
  | case3 cs value length hplace ih =>
    rw [place?_eq, Option.map_eq_some_iff] at hplace
    obtain ⟨⟨slot, n⟩, hslot, heq⟩ := hplace
    cases heq
    simp only [slots, if_true, hslot, List.map_cons, Part.all, code_append,
      String.toList_append, ih]
  | case4 cs hplace ih =>
    rw [place?_eq, Option.map_eq_none_iff] at hplace
    simp only [slots, if_true, hplace, code_all_cons, ih]
  | case5 c cs hc ih => simp only [slots, hc, if_false, code_all_cons, ih]

/-- Whether the places of a text are those of so many arguments, each with one at least. -/
def covers (arity : Nat) (ss : List Slot) : Bool :=
  (List.range arity).all fun n => ss.contains (.argument n)

theorem any_allFeatures (feature : Features → Bool) (hnone : feature .none = false)
    (hunion : ∀ a b, feature (a.union b) = (feature a || feature b)) (fs : List Fragment) :
    feature (allFeatures fs) = fs.any fun f => feature f.features := by
  induction fs with
  | nil => exact hnone
  | cons f fs ih =>
    rw [List.any_cons, ← ih]
    exact hunion _ _

theorem any_all (feature : Features → Bool) (hnone : feature .none = false)
    (hunion : ∀ a b, feature (a.union b) = (feature a || feature b)) (parts : List Part) :
    feature (Part.all parts).features = parts.any fun p => feature p.fragment.features := by
  induction parts with
  | nil => exact hnone
  | cons part parts ih =>
    rw [List.any_cons, ← ih]
    exact hunion _ _

/-- Nothing that an argument relies on is lost when it is put into a text with places. -/
theorem feature_all_eq (feature : Features → Bool) (hnone : feature .none = false)
    (hunion : ∀ a b, feature (a.union b) = (feature a || feature b)) {ss : List Slot}
    (hcovers : covers args.length ss = true) :
    feature (Part.all (ss.map (Slot.part target args))).features = feature (allFeatures args) := by
  rw [any_all feature hnone hunion, any_allFeatures feature hnone hunion, Bool.eq_iff_iff,
    List.any_map, List.any_eq_true, List.any_eq_true]
  constructor
  · rintro ⟨slot, hslot, h⟩
    cases slot with
    | own run => exact absurd h (by simp [Slot.part, Part.fragment, Fragment.text, hnone])
    | target => exact absurd h (by simp [Slot.part, Part.fragment, Fragment.text, hnone])
    | argument n =>
      by_cases hn : n < args.length
      · refine ⟨args[n], List.getElem_mem hn, ?_⟩
        simpa [Slot.part, Part.fragment, hn] using h
      · simp [Slot.part, Part.fragment, hn, Fragment.text, hnone] at h
  · rintro ⟨arg, harg, h⟩
    obtain ⟨n, hn, rfl⟩ := List.getElem_of_mem harg
    have hplace := List.all_eq_true.1 hcovers n (List.mem_range.2 hn)
    refine ⟨.argument n, List.contains_iff_mem.1 hplace, ?_⟩
    simpa [Slot.part, Part.fragment, hn] using h

/-- A text with places filled in is the parts that stand at its stretches. -/
theorem fillMethod_eq {template : String}
    (hcovers : covers args.length (slots args.length 0 template.toList) = true) :
    Expr.fillMethod template target args =
      Part.all ((slots args.length 0 template.toList).map (Slot.part target args)) := by
  have hcode := @fillFrom_eq target args 0 template.toList
  generalize hf : Part.all ((slots args.length 0 template.toList).map (Slot.part target args)) = f
    at hcode ⊢
  have htypes : f.features.types = (allFeatures args).types := by
    rw [← hf]
    exact feature_all_eq Features.types rfl (fun _ _ => rfl) hcovers
  have hinput : f.features.input = (allFeatures args).input := by
    rw [← hf]
    exact feature_all_eq Features.input rfl (fun _ _ => rfl) hcovers
  rw [Expr.fillMethod, Method.fill, hcode, String.ofList_toList]
  obtain ⟨code, types, input⟩ := f
  show Fragment.mk code (allFeatures args) = ⟨code, ⟨types, input⟩⟩
  rw [show types = _ from htypes, show input = _ from hinput]

/-- Whether the words of a text with places stay in their stretches does not depend on what is put
in. -/
theorem fits_map_part (target' : String) (args' : List Fragment) (ss : List Slot) :
    Part.fits (ss.map (Slot.part target args)) = Part.fits (ss.map (Slot.part target' args')) := by
  have hapart (slot : Slot) (ss : List Slot) :
      (slot.part target args).apart (ss.map (Slot.part target args)) =
        (slot.part target' args').apart (ss.map (Slot.part target' args')) := by
    cases ss with
    | nil => cases slot <;> rfl
    | cons next ss => cases slot <;> cases next <;> rfl
  induction ss with
  | nil => rfl
  | cons slot ss ih =>
    have hslot := hapart slot ss
    cases slot <;> simp only [List.map_cons, Slot.part, Part.fits] at hslot ⊢ <;> rw [hslot, ih]

/-- Whether every argument of a method has a place in its text, where no word goes on into it or
behind it. -/
def keepsWords (m : Method) : Bool :=
  match m.lowering with
  | .template text | .lambda text =>
    covers m.arity (slots m.arity 0 text.toList) &&
      Part.fits ((slots m.arity 0 text.toList).map (Slot.part "" []))
  | .slice => true

theorem keepsWords_of_find? {type : TypeName} {name : String} {m : Method}
    (h : find? type name = some m) : m.keepsWords = true := by
  have hall : table.all keepsWords = true := by decide +kernel
  exact List.all_eq_true.1 hall m (List.mem_of_find?_eq_some h)

theorem putsMarked_map_part (htarget : Clean target) (hargs : ∀ arg ∈ args, arg.Marked)
    (ss : List Slot) : Part.PutsMarked (ss.map (Slot.part target args)) := by
  induction ss with
  | nil => trivial
  | cons slot ss ih =>
    cases slot with
    | own run => exact ih
    | target => exact ⟨marked_text htarget, ih⟩
    | argument n =>
      refine ⟨?_, ih⟩
      rw [List.getD_eq_getElem?_getD]
      cases hget : args[n]? with
      | none => exact marked_text rfl
      | some arg => exact hargs arg (List.mem_of_getElem? hget)

theorem marked_fillMethod {template : String} (htarget : Clean target)
    (hargs : ∀ arg ∈ args, arg.Marked)
    (hcovers : covers args.length (slots args.length 0 template.toList) = true)
    (hfits : Part.fits ((slots args.length 0 template.toList).map (Slot.part "" [])) = true) :
    (Expr.fillMethod template target args).Marked := by
  rw [fillMethod_eq hcovers]
  apply Part.marked_all
  · rw [fits_map_part "" []]
    exact hfits
  · exact putsMarked_map_part htarget hargs _

end Method

/-! ## Numbers and slices -/

theorem bne_underscore_of_isDigit (c : Char) (h : c.isDigit = true) : (c != '_') = true := by
  rw [bne_iff_ne]
  rintro rfl
  cases h

theorem clean_of_bne {text : String} (h : ∀ c ∈ text.toList, (c != '_') = true) : Clean text :=
  clean_of_not_mem fun hmem => absurd (h '_' hmem) (by decide)

theorem Number.clean_text (x : Number) : Clean x.text :=
  clean_of_bne (forall_mem_text bne_underscore_of_isDigit (List.all_eq_true.1 rfl) x)

theorem clean_nat (n : Nat) : Clean (toString n) :=
  clean_of_bne (forall_mem_nat bne_underscore_of_isDigit n)

theorem clean_int (i : Int) : Clean (toString i) :=
  clean_of_bne (forall_mem_int bne_underscore_of_isDigit rfl i)

theorem Slice.marked_script {target : String} (htarget : Clean target) (type : TypeName)
    (slice : Slice) : (Fragment.text (slice.script type target)).Marked := by
  have hjoined : Clean (Slice.script.joined type) := by
    cases type <;> exact rfl
  have htarget := marked_text htarget
  cases slice with
  | range first last =>
    cases last with
    | none =>
      simp only [script, text_append]
      exact marked_of_parts (.put target) [.own ".slice(", .put _, .own ")"] rfl
        ⟨htarget, marked_text (clean_int _), trivial⟩
    | some last =>
      simp only [script, text_append]
      exact marked_of_parts (.put target) [.own ".slice(", .put _, .own ", ", .put _, .own ")"] rfl
        ⟨htarget, marked_text (clean_int _), marked_text (clean_int _), trivial⟩
  | stride step =>
    simp only [script, text_append]
    exact marked_of_parts (.own "[...")
      [.put target, .own "].filter((_, i) => i % ", .put _, .own " === 0)", .put _] rfl
      ⟨htarget, marked_text (clean_nat _), marked_text hjoined, trivial⟩
  | reverse =>
    simp only [script, text_append]
    exact marked_of_parts (.own "[...") [.put target, .own "].reverse()", .put _] rfl
      ⟨htarget, marked_text hjoined, trivial⟩

/-! ## Expressions -/

namespace Expr

/-- The script of an expression, if it has one, is marked. -/
def ScriptMarked (e : Expr) : Prop :=
  ∀ f, e.script = .ok f → f.Marked

/-- The scripts of some expressions, if they have any, are marked. -/
def ScriptsMarked (es : List Expr) : Prop :=
  ∀ fs, scripts es = .ok fs → ∀ f ∈ fs, f.Marked

variable {span : Span}

theorem ScriptMarked.index {target place : Expr} (htarget : target.ScriptMarked)
    (hplace : place.ScriptMarked) : (Expr.index target place span).ScriptMarked := by
  intro f h
  rw [script] at h
  obtain ⟨t, ht, h⟩ := exists_of_bind_eq_ok h
  obtain ⟨p, hp, h⟩ := exists_of_bind_eq_ok h
  cases h
  exact marked_of_parts (.put t) [.own "[", .put p, .own "]"] rfl
    ⟨htarget t ht, hplace p hp, trivial⟩

theorem ScriptMarked.call {callee : String} {args : List Expr} (hcallee : Clean callee)
    (hargs : ScriptsMarked args) : (Expr.call callee args span).ScriptMarked := by
  intro f h
  rw [script] at h
  obtain ⟨fs, hfs, h⟩ := exists_of_bind_eq_ok h
  cases h
  exact marked_of_parts (.put callee) [.own "(", .put _, .own ")"] rfl
    ⟨marked_text hcallee, marked_join rfl (hargs fs hfs), trivial⟩

theorem ScriptMarked.array {elements : List Expr} (h : ScriptsMarked elements) :
    (Expr.array elements span).ScriptMarked := by
  intro f hf
  rw [script] at hf
  obtain ⟨fs, hfs, hf⟩ := exists_of_bind_eq_ok hf
  cases hf
  exact marked_of_parts (.own "[") [.put _, .own "]"] rfl ⟨marked_join rfl (h fs hfs), trivial⟩

/-- Texts with a separator between them are a fragment that relies on nothing. -/
theorem marked_intercalate {separator : String} {texts : List String}
    (hsep : Part.fits [.put "", .own separator, .put ""] = true) (h : ∀ t ∈ texts, Clean t) :
    (Fragment.text (separator.intercalate texts)).Marked := by
  have hfeatures : allFeatures (texts.map Fragment.text) = .none := by
    clear h
    induction texts with
    | nil => rfl
    | cons t texts ih => exact ih
  have hjoin : join separator (texts.map Fragment.text) =
      Fragment.text (separator.intercalate texts) := by
    rw [join, hfeatures, List.map_map]
    show Fragment.text (separator.intercalate (texts.map id)) = _
    rw [List.map_id]
  rw [← hjoin]
  refine marked_join hsep fun f hf => ?_
  obtain ⟨t, ht, rfl⟩ := List.mem_map.1 hf
  exact marked_text (h t ht)

theorem ScriptMarked.lambda {params : List String} {body : Expr} (hparams : ∀ n ∈ params, Clean n)
    (hbody : body.ScriptMarked) : (Expr.lambda params body span).ScriptMarked := by
  intro f h
  rw [script] at h
  obtain ⟨b, hb, h⟩ := exists_of_bind_eq_ok h
  cases h
  exact marked_of_parts (.own "((") [.put _, .own ") => ", .put b, .own ")"] rfl
    ⟨marked_intercalate rfl hparams, hbody b hb, trivial⟩

theorem ScriptMarked.method {type : Located TypeName} {target : String} {called : Located String}
    {args : List Expr} (htarget : Clean target) (hargs : ScriptsMarked args) :
    (Expr.method type target called args span).ScriptMarked := by
  intro f h
  rw [script] at h
  obtain ⟨m, hm, h⟩ := exists_of_bind_eq_ok h
  obtain ⟨hfind, harity⟩ := resolveMethod_eq_ok_iff.1 hm
  have hkeeps := Method.keepsWords_of_find? hfind
  -- both lowerings with places fill them with the scripts of the arguments
  have hfill : ∀ {text fs}, scripts args = .ok fs →
      Method.covers m.arity (Method.slots m.arity 0 text.toList) = true →
      Part.fits ((Method.slots m.arity 0 text.toList).map (Method.Slot.part "" [])) = true →
      (fillMethod text target fs).Marked := by
    intro text fs hfs hcovers hfits
    have hlength : m.arity = fs.length := by rw [length_of_scripts hfs, harity]
    rw [hlength] at hcovers hfits
    exact Method.marked_fillMethod htarget (hargs fs hfs) hcovers hfits
  unfold Method.keepsWords at hkeeps
  split at h
  · next text hlowering =>
    rw [hlowering, Bool.and_eq_true] at hkeeps
    obtain ⟨fs, hfs, h⟩ := exists_of_bind_eq_ok h
    cases h
    exact hfill hfs hkeeps.1 hkeeps.2
  · next text hlowering =>
    rw [hlowering, Bool.and_eq_true] at hkeeps
    obtain ⟨-, -, h⟩ := exists_of_bind_eq_ok h
    obtain ⟨fs, hfs, h⟩ := exists_of_bind_eq_ok h
    cases h
    exact hfill hfs hkeeps.1 hkeeps.2
  · obtain ⟨slice, -, h⟩ := exists_of_bind_eq_ok h
    cases h
    exact Slice.marked_script htarget _ slice

theorem ScriptMarked.binary {op : BinaryOp} {left right : Expr} (hleft : left.ScriptMarked)
    (hright : right.ScriptMarked) : (Expr.binary op left right span).ScriptMarked := by
  intro f h
  rw [script] at h
  obtain ⟨l, hl, h⟩ := exists_of_bind_eq_ok h
  obtain ⟨r, hr, h⟩ := exists_of_bind_eq_ok h
  cases h
  have hop : (Fragment.text op.script).Marked := by
    cases op <;> exact marked_text rfl
  exact marked_of_parts (.own "(") [.put l, .own " ", .put _, .own " ", .put r, .own ")"] rfl
    ⟨hleft l hl, hop, hright r hr, trivial⟩

theorem ScriptMarked.signed {sign : Sign} {operand : Expr} (hoperand : operand.ScriptMarked) :
    (Expr.signed sign operand span).ScriptMarked := by
  intro f h
  rw [script] at h
  obtain ⟨o, ho, h⟩ := exists_of_bind_eq_ok h
  cases h
  have hsign : Clean sign.spelling := by
    cases sign <;> exact rfl
  have hlast : sign.spelling.toList.getLast?.all (fun c => !Lexeme.isWordChar c) = true := by
    cases sign <;> exact rfl
  exact marked_of_parts (.own "(") [.shut sign.spelling, .put o, .own ")"] rfl
    ⟨marked_text hsign, hlast, hoperand o ho, trivial⟩

mutual

/-- The script of an expression that takes no helper from its source is marked. -/
theorem scriptMarked : (e : Expr) → (∀ x ∈ e.nodes, x.Draws Clean) → e.ScriptMarked
  | .number v _, _ => fun f h => by
    cases h
    exact marked_text v.clean_text
  | .text content _ _, hd => fun f h => by
    cases h
    have hcontent := hd _ (List.mem_cons_self ..) content (List.mem_singleton_self content)
    exact marked_text hcontent.quoted
  | .bool v _, _ => fun f h => by
    cases h
    cases v <;> exact marked_text rfl
  | .null _, _ | .undefined _, _ => fun f h => by
    cases h
    exact marked_text rfl
  | .input _, _ => fun f h => by
    cases h
    exact marked_of_isMarked rfl
  | .name w _, hd => fun f h => by
    cases h
    exact marked_text (hd _ (List.mem_cons_self ..) w (List.mem_singleton_self w))
  | .index target place _, hd => by
    rw [forall_mem_nodes, inner_index, List.forall_mem_append] at hd
    exact .index (scriptMarked target hd.2.1) (scriptMarked place hd.2.2)
  | .call callee args _, hd => by
    rw [forall_mem_nodes] at hd
    exact .call (hd.1 callee (List.mem_singleton_self callee)) (scriptsMarked args hd.2)
  | .array elements _, hd => by
    rw [forall_mem_nodes] at hd
    exact .array (scriptsMarked elements hd.2)
  | .lambda params body _, hd => by
    rw [forall_mem_nodes] at hd
    exact .lambda hd.1 (scriptMarked body hd.2)
  | .method _ target _ args _, hd => by
    rw [forall_mem_nodes] at hd
    exact .method (hd.1 target (List.mem_singleton_self target)) (scriptsMarked args hd.2)
  | .binary _ left right _, hd => by
    rw [forall_mem_nodes, inner_binary, List.forall_mem_append] at hd
    exact .binary (scriptMarked left hd.2.1) (scriptMarked right hd.2.2)
  | .signed _ operand _, hd => by
    rw [forall_mem_nodes] at hd
    exact .signed (scriptMarked operand hd.2)

theorem scriptsMarked : (es : List Expr) → (∀ x ∈ nodesList es, x.Draws Clean) → ScriptsMarked es
  | [], _ => fun fs h => by
    cases h
    exact List.forall_mem_nil _
  | e :: es, hd => fun fs h => by
    rw [nodesList_cons, List.forall_mem_append] at hd
    rw [scripts] at h
    obtain ⟨f, hf, h⟩ := exists_of_bind_eq_ok h
    obtain ⟨fs, hfs, h⟩ := exists_of_bind_eq_ok h
    cases h
    rw [List.forall_mem_cons]
    exact ⟨scriptMarked e hd.1 f hf, scriptsMarked es hd.2 fs hfs⟩

end

end Expr

end Resin
