import Resin.Proofs.JavaScript.Token
import Resin.Proofs.Script.Marked

/-!
# Names that the text of a method captures

The text of a method has arrow functions of its own, and the target and the arguments are put into
it as they are. A name that is put into the body of an arrow function refers to the parameter of
this function, if there is one of that name, and no longer to the variable of the program.

A script text is taken here as a row of cells: the characters that the method writes itself, and the
places of the target and of the arguments. Every arrow among the characters makes an arrow function
(`Cell.arrows`). No argument stands in the body of one. The target does in one method only, the
removal from an array, whose parameter is `i`; so a variable `i` is captured there and no other name
is captured anywhere (`method_captures`).
-/

namespace Resin

open Fragment

/-! ## Cells -/

/-- A character that a method writes itself, or the place of the target or of an argument. -/
inductive Cell where
  | own (c : Char)
  | target
  | argument (n : Nat)
deriving DecidableEq, Repr, Inhabited

/-- An arrow function: its parameters and its body. -/
structure Arrow where
  params : List String
  body : List Cell
deriving DecidableEq, Repr, Inhabited

namespace Cell

/-- What stands at a cell. -/
def chars (target : String) (args : List String) : Cell → List Char
  | .own c => [c]
  | .target => target.toList
  | .argument n => (args.getD n "").toList

/-- The text of a row of cells. -/
def write (target : String) (args : List String) (cells : List Cell) : String :=
  String.ofList (cells.flatMap (chars target args))

/-- The characters of a text, as cells. -/
def ofText (text : String) : List Cell :=
  text.toList.map .own

/-- Whether a cell is a character with a property. -/
def ownAnd (p : Char → Bool) : Cell → Bool
  | .own c => p c
  | .target | .argument _ => false

/-- Whether a cell is the place of an argument. -/
def isArgument : Cell → Bool
  | .argument _ => true
  | .own _ | .target => false

/-- The words among some characters. -/
def wordsOf (cells : List Cell) : List String :=
  let chars := cells.filterMap fun
    | .own c => some c
    | _ => none
  ((chars.splitOnP fun c => !JavaScript.isWordPart c).filter (· ≠ [])).map String.ofList

/-- The parameters of the arrow function whose arrow stands behind the cells, these being given
backwards: the words between two parentheses, or the one word there. -/
def paramsBefore (before : List Cell) : List String :=
  match before.dropWhile (ownAnd (· == ' ')) with
  | .own ')' :: rest => wordsOf (rest.takeWhile (· ≠ .own '(')).reverse
  | rest => wordsOf (rest.takeWhile (ownAnd JavaScript.isWordPart)).reverse

/-- The body of an arrow function at the front of what stands behind its arrow. It ends before a
comma, a semicolon or a closing bracket that belongs to something around it. -/
def bodyFrom (depth : Nat) : List Cell → List Cell
  | [] => []
  | cell :: cells =>
    if cell.ownAnd ['(', '[', '{'].contains then cell :: bodyFrom (depth + 1) cells
    else if depth = 0 ∧ cell.ownAnd [')', ']', '}', ',', ';'].contains then []
    else if cell.ownAnd [')', ']', '}'].contains then cell :: bodyFrom (depth - 1) cells
    else cell :: bodyFrom depth cells

/-- The arrow functions whose arrows stand among some cells, behind others that are given
backwards. -/
def arrowsFrom (before : List Cell) : List Cell → List Arrow
  | [] => []
  | .own '=' :: .own '>' :: cells =>
    ⟨paramsBefore before, bodyFrom 0 cells⟩ :: arrowsFrom (.own '>' :: .own '=' :: before) cells
  | cell :: cells => arrowsFrom (cell :: before) cells

/-- The arrow functions of a row of cells. -/
def arrows (cells : List Cell) : List Arrow := arrowsFrom [] cells

/-- The names that the arrow functions around the target bind. -/
def boundAtTarget (cells : List Cell) : List String :=
  ((arrows cells).filter fun a => a.body.contains .target).flatMap Arrow.params

end Cell

namespace Expr

mutual

/-- The names in an expression that refer to variables outside it. -/
def freeNames : Expr → List String
  | .number _ _ | .text _ _ _ | .bool _ _ | .null _ | .undefined _ | .input _ => []
  | .name w _ => [w]
  | .index target place _ => freeNames target ++ freeNames place
  | .call callee args _ => callee :: freeNamesList args
  | .array elements _ => freeNamesList elements
  | .lambda params body _ => (freeNames body).filter fun w => !params.contains w
  | .method _ target _ args _ => target :: freeNamesList args
  | .binary _ left right _ => freeNames left ++ freeNames right
  | .signed _ operand _ => freeNames operand

/-- The names in some expressions that refer to variables outside them. -/
def freeNamesList : List Expr → List String
  | [] => []
  | e :: es => freeNames e ++ freeNamesList es

end

end Expr

/-- The target, or an argument, is put into the body of an arrow function that binds its name, or a
free name of the argument. -/
inductive Captures (target : String) (args : List Expr) (cells : List Cell) : Prop
  | target {a : Arrow} : a ∈ Cell.arrows cells → .target ∈ a.body → target ∈ a.params →
    Captures target args cells
  | argument {a : Arrow} {n : Nat} {e : Expr} {w : String} : a ∈ Cell.arrows cells →
    .argument n ∈ a.body → args[n]? = some e → w ∈ e.freeNames → w ∈ a.params →
      Captures target args cells

namespace Cell

/-! ## Arrow functions -/

theorem bodyFrom_subset (depth : Nat) (cells : List Cell) : bodyFrom depth cells ⊆ cells := by
  induction cells generalizing depth with
  | nil => exact List.Subset.refl _
  | cons cell cells ih =>
    rw [bodyFrom]
    split
    · exact List.cons_subset_cons _ (ih _)
    · split
      · exact List.nil_subset _
      · split
        · exact List.cons_subset_cons _ (ih _)
        · exact List.cons_subset_cons _ (ih _)

/-- The body of an arrow function stands behind its arrow. -/
theorem body_subset_of_mem_arrowsFrom {before cells : List Cell} {a : Arrow}
    (h : a ∈ arrowsFrom before cells) : a.body ⊆ cells := by
  fun_induction arrowsFrom before cells with
  | case1 => cases h
  | case2 before cells ih =>
    have hsuffix : cells ⊆ .own '=' :: .own '>' :: cells :=
      ((List.suffix_cons _ _).trans (List.suffix_cons _ _)).subset
    rcases List.mem_cons.1 h with rfl | h
    · exact List.Subset.trans (bodyFrom_subset 0 cells) hsuffix
    · exact List.Subset.trans (ih h) hsuffix
  | case3 before cell cells _ ih => exact List.Subset.trans (ih h) (List.subset_cons_self ..)

/-- Cells without an arrow are passed over. -/
theorem arrowsFrom_append {pre : List Cell} (hpre : .own '=' ∉ pre) (before cells : List Cell) :
    arrowsFrom before (pre ++ cells) = arrowsFrom (pre.reverse ++ before) cells := by
  induction pre generalizing before with
  | nil => rfl
  | cons cell pre ih =>
    rw [List.mem_cons, not_or] at hpre
    rw [List.cons_append, arrowsFrom, ih hpre.2, List.reverse_cons, List.append_assoc]
    · rfl
    · rintro rest rfl
      exact absurd rfl hpre.1

theorem body_subset_of_mem_arrows {pre post : List Cell} (hpre : .own '=' ∉ pre) {a : Arrow}
    (h : a ∈ arrows (pre ++ post)) : a.body ⊆ post := by
  rw [arrows, arrowsFrom_append hpre] at h
  exact body_subset_of_mem_arrowsFrom h

example : arrows (ofText "f((a, b) => a(b, 1), c => c)") =
    [⟨["a", "b"], ofText " a(b, 1)"⟩, ⟨["c"], ofText " c"⟩] := by
  decide +kernel

/-- Where no argument stands in the body of an arrow function, only the target can be captured. -/
theorem captures_iff {target : String} {args : List Expr} {cells : List Cell}
    (hargs : ∀ a ∈ arrows cells, ∀ n, .argument n ∉ a.body) :
    Captures target args cells ↔ target ∈ boundAtTarget cells := by
  simp only [boundAtTarget, List.mem_flatMap, List.mem_filter, List.contains_iff_mem]
  constructor
  · intro h
    cases h with
    | target ha hbody hparams => exact ⟨_, ⟨ha, hbody⟩, hparams⟩
    | argument ha hbody _ _ _ => exact absurd hbody (hargs _ ha _)
  · rintro ⟨a, ⟨ha, hbody⟩, hparams⟩
    exact .target ha hbody hparams

end Cell

/-! ## The cells of a method -/

/-- The cells of a stretch of a text with places. -/
def Method.Slot.cells : Slot → List Cell
  | .own run => run.map .own
  | .target => [.target]
  | .argument n => [.argument n]

/-- The cells of a slice. -/
def Slice.cells (type : TypeName) : Slice → List Cell
  | .range first none => .target :: Cell.ofText (".slice(" ++ toString (first.getD 0) ++ ")")
  | .range first (some last) =>
    .target :: Cell.ofText (".slice(" ++ toString (first.getD 0) ++ ", " ++ toString last ++ ")")
  | .stride step =>
    Cell.ofText "[..." ++ .target :: Cell.ofText
      ("].filter((_, i) => i % " ++ toString step ++ " === 0)" ++ Slice.script.joined type)
  | .reverse =>
    Cell.ofText "[..." ++ .target :: Cell.ofText ("].reverse()" ++ Slice.script.joined type)

/-- The cells of what a method becomes. Only a slice looks at the arguments for this. -/
def Method.cells (m : Method) (args : List Expr) : List Cell :=
  match m.lowering with
  | .template text | .lambda text => (slots m.arity 0 text.toList).flatMap Slot.cells
  | .slice =>
    match args.head?.bind Expr.slice? with
    | some slice => slice.cells m.type
    | none => []

theorem Cell.flatMap_ofText (target : String) (args : List String) (text : String) :
    (ofText text).flatMap (chars target args) = text.toList := by
  rw [ofText, List.flatMap_map]
  exact List.flatMap_singleton' text.toList

namespace Slice

theorem write_cells (type : TypeName) (target : String) (args : List String) (slice : Slice) :
    Cell.write target args (slice.cells type) = slice.script type target := by
  rw [Cell.write, ← String.toList_inj, String.toList_ofList]
  match slice with
  | .range first none => simp [cells, Cell.flatMap_ofText, Cell.chars, script]
  | .range first (some last) => simp [cells, Cell.flatMap_ofText, Cell.chars, script]
  | .stride step => simp [cells, Cell.flatMap_ofText, Cell.chars, script]
  | .reverse => simp [cells, Cell.flatMap_ofText, Cell.chars, script]

/-- A slice writes no arrow before it has written the target, and nothing but characters of its own
behind it. -/
theorem exists_cells_eq (type : TypeName) (slice : Slice) :
    ∃ pre text, .own '=' ∉ pre ∧ slice.cells type = pre ++ Cell.ofText text :=
  match slice with
  | .range _ none => ⟨[.target], _, by decide, rfl⟩
  | .range _ (some _) => ⟨[.target], _, by decide, rfl⟩
  | .stride _ | .reverse =>
    ⟨Cell.ofText "[..." ++ [.target], _, by decide, (List.append_assoc _ [Cell.target] _).symm⟩

/-- The arrow functions of a slice have nothing put into their bodies. -/
theorem exists_own_of_mem_body {type : TypeName} {slice : Slice} {a : Arrow} {cell : Cell}
    (ha : a ∈ Cell.arrows (slice.cells type)) (hcell : cell ∈ a.body) : ∃ c, cell = .own c := by
  obtain ⟨pre, text, hpre, heq⟩ := slice.exists_cells_eq type
  rw [heq] at ha
  obtain ⟨c, -, rfl⟩ := List.mem_map.1 (Cell.body_subset_of_mem_arrows hpre ha hcell)
  exact ⟨c, rfl⟩

end Slice

namespace Method

/-- A text filled in is its cells, written out. -/
theorem write_slots (template target : String) (fs : List Fragment) :
    Cell.write target (fs.map Fragment.code)
      ((slots fs.length 0 template.toList).flatMap Slot.cells) =
        (Expr.fillMethod template target fs).code := by
  have hpart (slot : Slot) : slot.cells.flatMap (Cell.chars target (fs.map Fragment.code)) =
      (slot.part target fs).fragment.code.toList := by
    cases slot with
    | own run =>
      simp [Slot.cells, Slot.part, Part.fragment, Fragment.text, List.flatMap_map, Cell.chars]
    | target => simp [Slot.cells, Slot.part, Part.fragment, Fragment.text, Cell.chars]
    | argument n =>
      simp only [Slot.cells, Slot.part, Part.fragment, Cell.chars, List.flatMap_singleton,
        code_getD]
  have hall (ss : List Slot) :
      (ss.flatMap Slot.cells).flatMap (Cell.chars target (fs.map Fragment.code)) =
        (Part.all (ss.map (Slot.part target fs))).code.toList := by
    induction ss with
    | nil => rfl
    | cons slot ss ih =>
      simp only [List.flatMap_cons, List.flatMap_append, List.map_cons, Part.all, code_append,
        String.toList_append, hpart, ih]
  rw [Cell.write, hall, Expr.fillMethod, fill, fillFrom_eq]

/-- The names that are captured as the target of a method. -/
def captured (type : TypeName) (name : String) : List String :=
  if type = .array ∧ name = "remove" then ["i"] else []

theorem mem_captured_iff {type : TypeName} {name target : String} :
    target ∈ captured type name ↔ type = .array ∧ name = "remove" ∧ target = "i" := by
  by_cases h : type = .array ∧ name = "remove"
  · simp [captured, h]
  · rw [captured, if_neg h, ← and_assoc]
    exact iff_of_false List.not_mem_nil fun hcaptured => h hcaptured.1

theorem type_name_of_find? {type : TypeName} {name : String} {m : Method}
    (h : find? type name = some m) : m.type = type ∧ m.name = name := by
  simpa using List.find?_some h

/-- Whether no argument is put into the body of an arrow function in the text of a method, and the
target only into those that bind the names said to be captured. -/
def capturesOnly (m : Method) : Bool :=
  ((Cell.arrows (m.cells [])).all fun a => !a.body.any Cell.isArgument) &&
    Cell.boundAtTarget (m.cells []) == captured m.type m.name

theorem capturesOnly_of_find? {type : TypeName} {name : String} {m : Method}
    (h : find? type name = some m) : m.capturesOnly = true := by
  have hall : table.all capturesOnly = true := by decide +kernel
  exact List.all_eq_true.1 hall m (List.mem_of_find?_eq_some h)

/-- A method has its own cells whatever its arguments are, or those of a slice. -/
theorem cells_cases (m : Method) (args : List Expr) : m.cells args = m.cells [] ∨
    m.cells [] = [] ∧ ∃ slice : Slice, m.cells args = slice.cells m.type := by
  unfold cells
  cases m.lowering with
  | template text => exact .inl rfl
  | lambda text => exact .inl rfl
  | slice =>
    cases args.head?.bind Expr.slice? with
    | none => exact .inl (by simp)
    | some slice => exact .inr ⟨rfl, slice, by simp⟩

variable {m : Method}

theorem argument_not_mem_body (hm : m.capturesOnly = true) (args : List Expr) :
    ∀ a ∈ Cell.arrows (m.cells args), ∀ n, .argument n ∉ a.body := by
  intro a ha n hn
  rcases m.cells_cases args with heq | ⟨-, slice, heq⟩
  · rw [heq] at ha
    have hnone := List.all_eq_true.1 (Bool.and_eq_true_iff.1 hm).1 a ha
    have hsome : a.body.any Cell.isArgument = true := List.any_eq_true.2 ⟨_, hn, rfl⟩
    rw [hsome] at hnone
    cases hnone
  · rw [heq] at ha
    obtain ⟨c, hc⟩ := Slice.exists_own_of_mem_body ha hn
    cases hc

theorem boundAtTarget_cells (hm : m.capturesOnly = true) (args : List Expr) :
    Cell.boundAtTarget (m.cells args) = captured m.type m.name := by
  have hown := eq_of_beq (Bool.and_eq_true_iff.1 hm).2
  rcases m.cells_cases args with heq | ⟨hnil, slice, heq⟩
  · rw [heq, hown]
  · rw [← hown, hnil, heq]
    -- nothing is put into the arrow functions of a slice, the target neither
    have hnone : (Cell.arrows (slice.cells m.type)).filter (fun a => a.body.contains .target) =
        [] := by
      refine List.filter_eq_nil_iff.2 fun a ha htarget => ?_
      obtain ⟨c, hc⟩ := Slice.exists_own_of_mem_body ha (List.contains_iff_mem.1 htarget)
      cases hc
    rw [Cell.boundAtTarget, hnone]
    rfl

end Method

namespace Expr

variable {type : Located TypeName} {target : String} {called : Located String} {args : List Expr}
  {span : Span} {f : Fragment}

theorem exists_of_requireSlice {type : TypeName} {name : String} {slice : Slice}
    (hlength : args.length = 1) (h : requireSlice type name args = .ok slice) :
    args.head?.bind slice? = some slice ∧ ∃ fs, scripts args = .ok fs := by
  obtain ⟨arg, rfl⟩ := List.length_eq_one_iff.1 hlength
  have hslice : arg.slice? = some slice := by
    rw [requireSlice] at h
    split at h
    · next hslice =>
      cases h
      exact hslice
    · cases h
  refine ⟨hslice, ?_⟩
  cases arg with
  | text content => exact ⟨_, rfl⟩
  | _ => cases hslice

/-- The script of a method call is the cells of its method, written out with its target and the
scripts of its arguments. -/
theorem exists_write_of_method (h : (Expr.method type target called args span).script = .ok f) :
    ∃ m fs, Method.find? type.value called.value = some m ∧ scripts args = .ok fs ∧
      f.code = Cell.write target (fs.map Fragment.code) (m.cells args) := by
  rw [script] at h
  obtain ⟨m, hm, h⟩ := exists_of_bind_eq_ok h
  obtain ⟨hfind, harity⟩ := resolveMethod_eq_ok_iff.1 hm
  have hfill {text : String} {fs : List Fragment} (hfs : scripts args = .ok fs)
      (hcells : m.cells args = (Method.slots m.arity 0 text.toList).flatMap Method.Slot.cells) :
      (fillMethod text target fs).code =
        Cell.write target (fs.map Fragment.code) (m.cells args) := by
    rw [hcells, ← harity, ← length_of_scripts hfs, Method.write_slots]
  split at h
  · next text hlowering =>
    obtain ⟨fs, hfs, h⟩ := exists_of_bind_eq_ok h
    cases h
    exact ⟨m, fs, hfind, hfs, hfill hfs (by rw [Method.cells, hlowering])⟩
  · next text hlowering =>
    obtain ⟨-, -, h⟩ := exists_of_bind_eq_ok h
    obtain ⟨fs, hfs, h⟩ := exists_of_bind_eq_ok h
    cases h
    exact ⟨m, fs, hfind, hfs, hfill hfs (by rw [Method.cells, hlowering])⟩
  · next hlowering =>
    obtain ⟨slice, hslice, h⟩ := exists_of_bind_eq_ok h
    cases h
    obtain ⟨-, hnamed⟩ := Method.namedForArgument_of_find? hfind
    simp only [Method.namedForArgument, hlowering, Bool.and_eq_true, decide_eq_true_eq] at hnamed
    obtain ⟨hhead, fs, hfs⟩ := exists_of_requireSlice (harity.trans hnamed.2) hslice
    refine ⟨m, fs, hfind, hfs, ?_⟩
    have hcells : m.cells args = slice.cells m.type := by rw [Method.cells, hlowering, hhead]
    rw [hcells, Slice.write_cells, (Method.type_name_of_find? hfind).1]
    rfl

/-- A method call captures a name in one case only, a variable `i` that an array removal has as its
target. Nothing that its arguments say is captured: none is put into the body of an arrow function
of the method. -/
theorem method_captures (h : (Expr.method type target called args span).script = .ok f) :
    ∃ m fs, Method.find? type.value called.value = some m ∧ scripts args = .ok fs ∧
      f.code = Cell.write target (fs.map Fragment.code) (m.cells args) ∧
      (∀ a ∈ Cell.arrows (m.cells args), ∀ n, .argument n ∉ a.body) ∧
      (Captures target args (m.cells args) ↔
        type.value = .array ∧ called.value = "remove" ∧ target = "i") := by
  obtain ⟨m, fs, hfind, hfs, hcode⟩ := exists_write_of_method h
  have hm := Method.capturesOnly_of_find? hfind
  have hargs := Method.argument_not_mem_body hm args
  refine ⟨m, fs, hfind, hfs, hcode, hargs, ?_⟩
  obtain ⟨htype, hname⟩ := Method.type_name_of_find? hfind
  rw [Cell.captures_iff hargs, Method.boundAtTarget_cells hm, Method.mem_captured_iff, htype, hname]

theorem method_captures_remove : ∃ cells,
    (Expr.method ⟨.array, default⟩ "i" ⟨"remove", default⟩ [.name "i" default] default).script =
      .ok (Cell.write "i" ["i"] cells) ∧
    Cell.write "i" ["i"] cells = "((i) => i === -1 ? i : (i.splice(i, 1), i))(i.indexOf(i))" ∧
    Captures "i" [.name "i" default] cells := by
  have hscript : (Expr.method ⟨.array, default⟩ "i" ⟨"remove", default⟩ [.name "i" default]
      default).script = .ok _ := rfl
  obtain ⟨m, fs, hfind, hfs, hcode, -, hcaptures⟩ := method_captures hscript
  cases hfs
  have htext : Cell.write "i" ["i"] (m.cells [.name "i" default]) =
      "((i) => i === -1 ? i : (i.splice(i, 1), i))(i.indexOf(i))" := by
    cases hfind
    decide +kernel
  exact ⟨_, by rw [htext]; rfl, htext, hcaptures.2 ⟨rfl, rfl, rfl⟩⟩

end Expr

end Resin
