import Resin.Proofs.JavaScript.Token
import Resin.Proofs.Text.Readers
import Resin.Script.Slice

/-!
# The notation of slices

A slice is written as two colons with a step, or as two bounds around a colon, with blanks around
each part. `Slice.Denotes` says which texts these are, and reading a slice accepts exactly them
(`Slice.ofChars?_eq_some_iff`). Every slice whose numbers fit 64 bits has a spelling of its own,
with any blanks around the parts (`Slice.Spelled`), and is read back from it. In the script of a
slice its numbers are written in decimals, which read back as well (`Slice.integers_script`).
-/

namespace Resin

open Text

/-! ## Parts of a notation -/

namespace Text

theorem isBlank_of_isDigit {c : Char} (h : c.isDigit = true) : isBlank c = false := by
  simp only [Char.isDigit, Bool.and_eq_true, decide_eq_true_eq] at h
  have hlow : 48 ≤ c.toNat := h.1
  have hhigh : c.toNat ≤ 57 := h.2
  simp only [isBlank, Bool.or_eq_false_iff, Bool.and_eq_false_iff, decide_eq_false_iff_not,
    beq_eq_false_iff_ne]
  omega

theorem IsDigits.getLast? {cs : List Char} (h : IsDigits cs) :
    ∀ c ∈ cs.getLast?, isBlank c = false :=
  fun c hc => isBlank_of_isDigit (h.isDigit c (List.mem_of_getLast? hc))

/-- An integer begins with a sign or a digit and ends with a digit. -/
theorem IsSigned.trimmed {cs : List Char} {i : Int} (h : IsSigned cs i) : Trimmed cs ∧ cs ≠ [] := by
  have hsign {c : Char} {digits : List Char} (hc : isBlank c = false) (hdigits : IsDigits digits) :
      Trimmed (c :: digits) ∧ c :: digits ≠ [] := by
    refine ⟨⟨by simpa using hc, ?_⟩, by simp⟩
    rw [List.getLast?_cons_of_ne_nil hdigits.ne_nil]
    exact hdigits.getLast?
  cases h with
  | unsigned h =>
    cases h with
    | bare hdigits =>
      refine ⟨⟨fun c hc => ?_, hdigits.getLast?⟩, hdigits.ne_nil⟩
      exact isBlank_of_isDigit (hdigits.isDigit c (List.mem_of_head? hc))
    | plus hdigits => exact hsign (by decide) hdigits
  | minus hdigits => exact hsign (by decide) hdigits

/-- No colon stands in an integer. -/
theorem IsSigned.colon_not_mem {cs : List Char} {i : Int} (h : IsSigned cs i) : ':' ∉ cs := by
  have hdigits {digits : List Char} (hdigits : IsDigits digits) : ':' ∉ digits :=
    fun hmem => absurd (hdigits.isDigit _ hmem) (by decide)
  cases h with
  | unsigned h =>
    cases h with
    | bare h => exact hdigits h
    | plus h => simpa using hdigits h
  | minus h => simpa using hdigits h

/-- The decimal text of a natural number is digits with its value. -/
theorem isDigits_toString (n : Nat) :
    IsDigits (toString n).toList ∧ digitsValue (toString n).toList = n := by
  rw [Nat.toString_eq_ofList_toDigits, String.toList_ofList]
  exact ⟨⟨Nat.toDigits_ne_nil, fun c => Number.isDigit_of_mem_toDigits⟩,
    (Number.digitsValue_eq _).trans Nat.ofDigitChars_ten_toDigits⟩

/-- The decimal text of an integer. -/
theorem signed_toString (i : Int) : IsSigned (toString i).toList i := by
  show IsSigned i.repr.toList i
  rw [Int.repr_eq_if]
  split
  · next h =>
    obtain ⟨hdigits, hvalue⟩ := isDigits_toString i.toNat
    have hsigned := IsSigned.unsigned (.bare hdigits)
    rw [hvalue, Int.toNat_of_nonneg h] at hsigned
    exact hsigned
  · next h =>
    obtain ⟨hdigits, hvalue⟩ := isDigits_toString (-i).toNat
    have hsigned := IsSigned.minus hdigits
    rw [hvalue, Int.toNat_of_nonneg (by omega), Int.neg_neg] at hsigned
    rw [String.toList_append]
    exact hsigned

end Text

namespace Slice

/-! ## The language -/

/-- What a bound without blanks around it stands for: nothing, or an integer. -/
inductive Bound : List Char → Option Int → Prop
  | absent : Bound [] none
  | present {cs : List Char} {i : Int} : Signed64 cs i → Bound cs (some i)

/-- The slice that a text writes. -/
inductive Denotes (text : List Char) : Slice → Prop
  | reverse {blanks step : List Char} : Trims text (':' :: ':' :: (blanks ++ step)) →
    Blanks blanks → Signed64 step (-1) → Denotes text .reverse
  | stride {blanks step : List Char} {n : Nat} : Trims text (':' :: ':' :: (blanks ++ step)) →
    Blanks blanks → Signed64 step n → 0 < n → Denotes text (.stride n)
  | range {first last a b : List Char} {i j : Option Int} : Trims text (first ++ ':' :: last) →
    ':' ∉ first → ¬ [':', ':'] <+: first ++ ':' :: last → Trims first a → Bound a i →
      Trims last b → Bound b j → Denotes text (.range i j)

theorem bound?_eq_some_iff {cs : List Char} {i : Option Int} :
    bound? cs = some i ↔ ∃ a, Trims cs a ∧ Bound a i := by
  have htrim : (∃ a, Trims cs a ∧ Bound a i) ↔ Bound (trim cs) i := by
    constructor
    · rintro ⟨a, ha, hbound⟩
      rwa [trim_eq_iff.2 ha]
    · exact fun h => ⟨_, trim_eq_iff.1 rfl, h⟩
  rw [htrim]
  unfold bound?
  dsimp only
  constructor
  · intro h
    split at h
    · next hempty =>
      cases h
      rw [List.isEmpty_iff.1 hempty]
      exact .absent
    · obtain ⟨n, hn, rfl⟩ := Option.map_eq_some_iff.1 h
      exact .present (signed64?_eq_some_iff.1 hn)
  · intro h
    generalize trim cs = core at h
    cases h with
    | absent => rfl
    | present h =>
      rw [if_neg (by simpa using h.signed.trimmed.2), signed64?_eq_some_iff.2 h]
      rfl

/-- A step has blanks in front only, for the text that it ends is trimmed. -/
theorem trims_step_iff {step core : List Char} {i : Int}
    (htrimmed : Trimmed (':' :: ':' :: step)) (hcore : IsSigned core i) :
    Trims step core ↔ ∃ blanks, step = blanks ++ core ∧ Blanks blanks := by
  constructor
  · rintro ⟨left, right, rfl, hleft, hright, -⟩
    refine ⟨left, ?_, hleft⟩
    rcases List.eq_nil_or_concat right with rfl | ⟨init, c, rfl⟩
    · rw [List.append_nil]
    · have hlast := htrimmed.last c (by simp [List.getLast?_append, List.getLast?_cons])
      rw [hright c (by simp)] at hlast
      cases hlast
  · rintro ⟨blanks, rfl, hblanks⟩
    exact ⟨blanks, [], by simp, hblanks, by simp [Blanks], hcore.trimmed.1⟩

theorem ofStep?_eq_some_iff {step : List Char} {s : Slice} : ofStep? step = some s ↔
    s = .reverse ∧ Signed64 (trim step) (-1) ∨
      ∃ n : Nat, s = .stride n ∧ Signed64 (trim step) n ∧ 0 < n := by
  unfold ofStep?
  constructor
  · intro h
    split at h
    · cases h
    · next i hi =>
      rw [signed64?_eq_some_iff] at hi
      split at h
      · next hminus =>
        cases h
        exact .inl ⟨rfl, hminus ▸ hi⟩
      · split at h
        · next hpos =>
          cases h
          refine .inr ⟨i.toNat, rfl, ?_, by omega⟩
          rwa [Int.toNat_of_nonneg (by omega)]
        · cases h
  · rintro (⟨rfl, h⟩ | ⟨n, rfl, h, hn⟩)
    · rw [signed64?_eq_some_iff.2 h]
      rfl
    · rw [signed64?_eq_some_iff.2 h]
      simp only [Int.toNat_natCast]
      rw [if_neg (by omega), if_pos (by omega)]

/-- Reading a slice accepts exactly the texts that write one. -/
theorem ofChars?_eq_some_iff {text : List Char} {s : Slice} :
    ofChars? text = some s ↔ Denotes text s := by
  have htrimmed := trimmed_trim text
  unfold ofChars?
  constructor
  · intro h
    split at h
    · next step heq =>
      rw [heq] at htrimmed
      have hstep : Trims step (trim step) := trim_eq_iff.1 rfl
      rcases ofStep?_eq_some_iff.1 h with ⟨rfl, hint⟩ | ⟨n, rfl, hint, hn⟩
      · obtain ⟨blanks, hblank, hblanks⟩ := (trims_step_iff htrimmed hint.signed).1 hstep
        exact .reverse (trim_eq_iff.1 (hblank ▸ heq)) hblanks hint
      · obtain ⟨blanks, hblank, hblanks⟩ := (trims_step_iff htrimmed hint.signed).1 hstep
        exact .stride (trim_eq_iff.1 (hblank ▸ heq)) hblanks hint hn
    · next hcolons =>
      split at h
      · cases h
      · next first last hcut =>
        obtain ⟨hcs, hfirst⟩ := cut?_char_eq_some_iff.1 hcut
        split at h
        · next i j hi hj =>
          cases h
          obtain ⟨a, ha, hai⟩ := bound?_eq_some_iff.1 hi
          obtain ⟨b, hb, hbj⟩ := bound?_eq_some_iff.1 hj
          refine .range (trim_eq_iff.1 hcs) hfirst ?_ ha hai hb hbj
          rintro ⟨step, hstep⟩
          exact hcolons step (hcs.trans hstep.symm)
        · cases h
  · rintro (⟨htext, hblanks, hint⟩ | ⟨htext, hblanks, hint, hn⟩ |
      ⟨htext, hfirst, hcolons, ha, hai, hb, hbj⟩)
    all_goals
      rw [trim_eq_iff.2 htext] at htrimmed ⊢
    · refine ofStep?_eq_some_iff.2 (.inl ⟨rfl, ?_⟩)
      rwa [trim_eq_iff.2 ((trims_step_iff htrimmed hint.signed).2 ⟨_, rfl, hblanks⟩)]
    · refine ofStep?_eq_some_iff.2 (.inr ⟨_, rfl, ?_, hn⟩)
      rwa [trim_eq_iff.2 ((trims_step_iff htrimmed hint.signed).2 ⟨_, rfl, hblanks⟩)]
    · split
      · next step heq => exact absurd ⟨step, heq.symm⟩ hcolons
      · rw [cut?_char_eq_some_iff.2 ⟨rfl, hfirst⟩]
        simp only [bound?_eq_some_iff.2 ⟨_, ha, hai⟩, bound?_eq_some_iff.2 ⟨_, hb, hbj⟩]

/-! ## Spellings -/

/-- The numbers of a slice fit 64 bits, and the step of a stride is positive. -/
def Fits : Slice → Prop
  | .range i j => ∀ k ∈ i.toList ++ j.toList, -2 ^ 63 ≤ k ∧ k < 2 ^ 63
  | .stride n => 0 < n ∧ n < 2 ^ 63
  | .reverse => True

/-- What a text writes has numbers of 64 bits. -/
theorem Denotes.fits {text : List Char} {s : Slice} (h : Denotes text s) : s.Fits := by
  have hbound {cs : List Char} {i : Option Int} (h : Bound cs i) :
      ∀ k ∈ i.toList, -2 ^ 63 ≤ k ∧ k < 2 ^ 63 := by
    cases h with
    | absent => simp
    | present h => simpa using ⟨h.le, h.lt⟩
  cases h with
  | reverse => trivial
  | stride _ _ hint hn => exact ⟨hn, by exact_mod_cast hint.lt⟩
  | range _ _ _ _ hi _ hj => exact List.forall_mem_append.2 ⟨hbound hi, hbound hj⟩

/-- A bound in decimals. -/
def boundText : Option Int → List Char
  | none => []
  | some i => (toString i).toList

/-- How a slice is written, with any blanks around the parts. -/
inductive Spelled : Slice → List Char → Prop
  | range {i j : Option Int} {w x y z : List Char} : Blanks w → Blanks x → Blanks y → Blanks z →
    Spelled (.range i j) (w ++ (boundText i ++ x) ++ ':' :: (y ++ (boundText j ++ z)))
  | stride {n : Nat} {w x y : List Char} : Blanks w → Blanks x → Blanks y →
    Spelled (.stride n) (w ++ (':' :: ':' :: (x ++ (toString n).toList) ++ y))
  | reverse {w x y : List Char} : Blanks w → Blanks x → Blanks y →
    Spelled .reverse (w ++ (':' :: ':' :: (x ++ ['-', '1']) ++ y))

theorem boundText_spec {i : Option Int} (h : ∀ k ∈ i, -2 ^ 63 ≤ k ∧ k < 2 ^ 63) :
    Bound (boundText i) i ∧ Trimmed (boundText i) ∧ ':' ∉ boundText i := by
  cases i with
  | none => exact ⟨.absent, ⟨by simp [boundText], by simp [boundText]⟩, by simp [boundText]⟩
  | some i =>
    have hsigned := signed_toString i
    obtain ⟨hle, hlt⟩ := h i rfl
    exact ⟨.present ⟨hsigned, hle, hlt⟩, hsigned.trimmed.1, hsigned.colon_not_mem⟩

/-- Behind the two colons, the text of a step ends with a digit. -/
theorem trimmed_step {x step : List Char} {i : Int} (h : IsSigned step i) :
    Trimmed (':' :: ':' :: (x ++ step)) := by
  refine ⟨by simp [isBlank], fun c hc => ?_⟩
  obtain ⟨htrimmed, hne⟩ := h.trimmed
  refine htrimmed.last c ?_
  rwa [List.getLast?_cons_of_ne_nil (by simp), List.getLast?_cons_of_ne_nil (by simp [hne]),
    List.getLast?_append_of_ne_nil _ hne] at hc

/-- A text with a colon in it is trimmed on each side of the colon. -/
theorem trim_append_colon (cs ds : List Char) :
    trim (cs ++ ':' :: ds) = trimStart cs ++ ':' :: trimEnd ds := by
  have hdrop (xs ys : List Char) :
      (xs ++ ':' :: ys).dropWhile isBlank = xs.dropWhile isBlank ++ ':' :: ys := by
    rw [List.dropWhile_append]
    split
    · next hempty =>
      rw [List.isEmpty_iff.1 hempty]
      rfl
    · rfl
  rw [trim, trimStart, hdrop, trimEnd, List.reverse_append, List.reverse_cons, List.append_assoc,
    List.singleton_append, hdrop, trimEnd]
  simp [trimStart]

/-- The bound in front of the colon, of which the blanks at the start of the text are gone. -/
theorem trims_trimStart {cs core : List Char} (h : Trims cs core) : Trims (trimStart cs) core := by
  have hblanks : Blanks (cs.takeWhile isBlank) := fun c hc => List.mem_takeWhile_imp hc
  have hagain := (trim_eq_iff.1 (rfl : trim (trimStart cs) = _)).around hblanks (r := [])
    (by simp [Blanks])
  rw [List.append_nil, trimStart, List.takeWhile_append_dropWhile] at hagain
  rw [← trim_eq_iff] at h hagain ⊢
  exact hagain.symm.trans h

/-- The bound behind the colon, of which the blanks at the end of the text are gone. -/
theorem trims_trimEnd {cs core : List Char} (h : Trims cs core) : Trims (trimEnd cs) core := by
  have hblanks : Blanks (cs.reverse.takeWhile isBlank).reverse :=
    fun c hc => List.mem_takeWhile_imp (List.mem_reverse.1 hc)
  have hagain := (trim_eq_iff.1 (rfl : trim (trimEnd cs) = _)).around (l := [])
    (by simp [Blanks]) hblanks
  rw [List.nil_append, trimEnd_append] at hagain
  rw [← trim_eq_iff] at h hagain ⊢
  exact hagain.symm.trans h

theorem colon_not_mem_bound {w core x : List Char} (hw : Blanks w) (hcore : ':' ∉ core)
    (hx : Blanks x) : ':' ∉ w ++ (core ++ x) := by
  have hblank {cs : List Char} (hcs : Blanks cs) : ':' ∉ cs :=
    fun hmem => absurd (hcs _ hmem) (by decide)
  simp [hblank hw, hcore, hblank hx]

/-- A spelling of a slice writes it. -/
theorem Spelled.denotes {s : Slice} {text : List Char} (h : Spelled s text) (hfits : s.Fits) :
    Denotes text s := by
  cases h with
  | @range i j w x y z hw hx hy hz =>
    have hfits := List.forall_mem_append.1 hfits
    obtain ⟨hi, hitrimmed, hicolon⟩ := boundText_spec (i := i) (by simpa using hfits.1)
    obtain ⟨hj, hjtrimmed, hjcolon⟩ := boundText_spec (i := j) (by simpa using hfits.2)
    have hfirst : Trims (w ++ (boundText i ++ x)) (boundText i) := ⟨w, x, rfl, hw, hx, hitrimmed⟩
    have hlast : Trims (y ++ (boundText j ++ z)) (boundText j) := ⟨y, z, rfl, hy, hz, hjtrimmed⟩
    have hcolon : ':' ∉ trimStart (w ++ (boundText i ++ x)) := fun hmem =>
      colon_not_mem_bound hw hicolon hx ((List.dropWhile_sublist _).subset hmem)
    refine .range (trim_eq_iff.1 (trim_append_colon _ _)) hcolon ?_ (trims_trimStart hfirst) hi
      (trims_trimEnd hlast) hj
    -- the first colon is the only one
    rintro ⟨step, hstep⟩
    have hmem : ':' ∈ trimEnd (y ++ (boundText j ++ z)) := by
      cases hnil : trimStart (w ++ (boundText i ++ x)) with
      | nil =>
        rw [hnil] at hstep
        rw [← (List.cons.inj hstep).2]
        exact List.mem_cons_self ..
      | cons c rest =>
        rw [hnil] at hstep hcolon
        have hc : ':' = c := (List.cons.inj hstep).1
        exact absurd (hc ▸ List.mem_cons_self ..) hcolon
    have hfront := trimEnd_prefix (y ++ (boundText j ++ z))
    exact colon_not_mem_bound hy hjcolon hz (hfront.subset hmem)
  | @stride n w x y hw hx hy =>
    have hsigned := signed_toString n
    have hstep : Signed64 (toString n).toList n := by
      refine ⟨?_, by omega, by exact_mod_cast hfits.2⟩
      exact hsigned
    exact .stride ⟨w, y, rfl, hw, hy, trimmed_step hsigned⟩ hx hstep hfits.1
  | @reverse w x y hw hx hy =>
    have hstep : Signed64 ['-', '1'] (-1) := signed64?_eq_some_iff.1 (by decide)
    exact .reverse ⟨w, y, rfl, hw, hy, trimmed_step hstep.signed⟩ hx hstep

/-! ## Numbers of a script -/

/-- The integer that a run of the characters of words is, if these are digits, with the sign in
front of it. -/
def integerOf (minus : Bool) (run : List Char) : List Int :=
  ((digits? run).map fun n => if minus then -(n : Int) else n).toList

/-- The decimal integers in a script text, in their order. The text is read behind a run of the
characters of words, in front of which a minus sign may stand. -/
def integersFrom (minus : Bool) (run : List Char) : List Char → List Int
  | [] => integerOf minus run
  | c :: cs =>
    if JavaScript.isWordPart c then integersFrom minus (run ++ [c]) cs
    else integerOf minus run ++ integersFrom (c == '-') [] cs

/-- The decimal integers in a script text, in their order. -/
def integers (cs : List Char) : List Int := integersFrom false [] cs

/-- The numbers that the script of a slice has. A start that is not given is zero, and a stride
compares a remainder with zero. -/
def numbers : Slice → List Int
  | .range i none => [i.getD 0]
  | .range i (some j) => [i.getD 0, j]
  | .stride n => [n, 0]
  | .reverse => []

/-- No integer goes on behind a character that is in no word. -/
theorem integersFrom_append {minus : Bool} {run : List Char} {c : Char} (cs rest : List Char)
    (hc : JavaScript.isWordPart c = false) :
    integersFrom minus run (cs ++ c :: rest) =
      integersFrom minus run (cs ++ [c]) ++ integersFrom (c == '-') [] rest := by
  induction cs generalizing minus run with
  | nil =>
    simp only [List.nil_append, integersFrom, hc, Bool.false_eq_true, if_false]
    simp [integerOf, digits?]
  | cons d cs ih =>
    simp only [List.cons_append, integersFrom]
    split
    · exact ih
    · rw [ih, List.append_assoc]

/-- Whether a text has no integer, and one behind it is not changed by it. -/
def isFree (own : String) : Bool :=
  integers own.toList = [] && own.toList.getLast?.any fun c => !JavaScript.isWordPart c && c != '-'

theorem integers_append {own : String} (h : isFree own = true) (rest : List Char) :
    integers (own.toList ++ rest) = integers rest := by
  rw [isFree, Bool.and_eq_true, decide_eq_true_eq] at h
  obtain ⟨c, hlast, hc⟩ := (Option.any_eq_true _ _).1 h.2
  obtain ⟨cs, hcs⟩ := List.getLast?_eq_some_iff.1 hlast
  simp only [Bool.and_eq_true, Bool.not_eq_true', bne_iff_ne] at hc
  have hown : integersFrom false [] (cs ++ [c]) = [] := hcs ▸ h.1
  rw [hcs, List.append_assoc, List.singleton_append, integers, integersFrom_append cs rest hc.1,
    hown, List.nil_append, beq_eq_false_iff_ne.2 hc.2, integers]

theorem integersFrom_run {minus : Bool} {run ds : List Char} {c : Char} (rest : List Char)
    (hds : ∀ d ∈ ds, JavaScript.isWordPart d = true) (hc : JavaScript.isWordPart c = false) :
    integersFrom minus run (ds ++ c :: rest) =
      integerOf minus (run ++ ds) ++ integersFrom (c == '-') [] rest := by
  induction ds generalizing run with
  | nil => rw [List.nil_append, integersFrom, if_neg (by simp [hc]), List.append_nil]
  | cons d ds ih =>
    rw [List.forall_mem_cons] at hds
    rw [List.cons_append, integersFrom, if_pos hds.1, ih hds.2, List.append_assoc,
      List.singleton_append]

theorem integersFrom_nat (minus : Bool) (n : Nat) {c : Char} (rest : List Char)
    (hc : JavaScript.isWordPart c = false) :
    integersFrom minus [] ((toString n).toList ++ c :: rest) =
      (if minus then -(n : Int) else n) :: integersFrom (c == '-') [] rest := by
  obtain ⟨hdigits, hvalue⟩ := isDigits_toString n
  have hword : ∀ d ∈ (toString n).toList, JavaScript.isWordPart d = true := fun d hd => by
    rw [JavaScript.isWordPart, hdigits.isDigit d hd, Bool.or_true]
  rw [integersFrom_run rest hword hc, List.nil_append, integerOf,
    digits?_eq_some_iff.2 ⟨hdigits, rfl⟩, hvalue]
  rfl

theorem integersFrom_int (i : Int) {c : Char} (rest : List Char)
    (hc : JavaScript.isWordPart c = false) :
    integersFrom false [] ((toString i).toList ++ c :: rest) =
      i :: integersFrom (c == '-') [] rest := by
  show integersFrom false [] (i.repr.toList ++ c :: rest) = _
  rw [Int.repr_eq_if]
  split
  · next h =>
    rw [show i.toNat.repr = toString i.toNat from rfl, integersFrom_nat false _ rest hc]
    simp [Int.toNat_of_nonneg h]
  · next h =>
    rw [String.toList_append, show "-".toList = ['-'] from rfl, List.singleton_append,
      List.cons_append, integersFrom, if_neg (by decide), show integerOf false [] = [] from rfl,
      List.nil_append, beq_self_eq_true, show (-i).toNat.repr = toString (-i).toNat from rfl,
      integersFrom_nat true _ rest hc]
    simp [Int.toNat_of_nonneg (show 0 ≤ -i by omega)]

/-- The script of a slice has its numbers behind the target and none in front of it. -/
theorem integers_script (type : TypeName) (target : String) (s : Slice) :
    ∃ before after : String, s.script type target = before ++ target ++ after ∧
      integers before.toList = [] ∧ integers after.toList = s.numbers := by
  have hjoined : integers (script.joined type).toList = [] := by
    cases type <;> decide
  cases s with
  | range i last =>
    cases last with
    | none =>
      refine ⟨"", ".slice(" ++ toString (i.getD 0) ++ ")", ?_, rfl, ?_⟩
      · simp only [script, String.empty_append, String.append_assoc]
      · rw [String.toList_append, String.toList_append, List.append_assoc,
          integers_append (by decide), integers, show ")".toList = ')' :: [] from rfl,
          integersFrom_int _ _ (by decide)]
        rfl
    | some j =>
      refine ⟨"", ".slice(" ++ toString (i.getD 0) ++ ", " ++ toString j ++ ")", ?_, rfl, ?_⟩
      · simp only [script, String.empty_append, String.append_assoc]
      · have hsecond : integersFrom false [] (' ' :: ((toString j).toList ++ ')' :: [])) = [j] := by
          show integers (" ".toList ++ ((toString j).toList ++ ')' :: [])) = [j]
          rw [integers_append (by decide), integers, integersFrom_int _ _ (by decide)]
          rfl
        simp only [String.toList_append, List.append_assoc]
        rw [integers_append (by decide), integers]
        show integersFrom false [] ((toString (i.getD 0)).toList ++
          ',' :: ' ' :: ((toString j).toList ++ ')' :: [])) = _
        rw [integersFrom_int _ _ (by decide), show (',' == '-') = false from rfl, hsecond]
        rfl
  | stride n =>
    refine ⟨"[...", "].filter((_, i) => i % " ++ toString n ++ " === 0)" ++ script.joined type, ?_,
      rfl, ?_⟩
    · simp only [script, String.append_assoc]
    · have hown : " === 0)".toList ++ (script.joined type).toList =
          ' ' :: ("=== 0".toList ++ ')' :: (script.joined type).toList) := rfl
      have hrest : integersFrom false [] ("=== 0".toList ++ ')' :: (script.joined type).toList) =
          [0] := by
        rw [integersFrom_append _ _ (by decide), show (')' == '-') = false from rfl,
          show integersFrom false [] (script.joined type).toList = [] from hjoined]
        decide
      simp only [String.toList_append, List.append_assoc]
      rw [integers_append (by decide), integers, hown, integersFrom_nat false _ _ (by decide),
        show (' ' == '-') = false from rfl, hrest]
      rfl
  | reverse =>
    refine ⟨"[...", "].reverse()" ++ script.joined type, ?_, rfl, ?_⟩
    · simp only [script, String.append_assoc]
    · rw [String.toList_append, integers_append (by decide)]
      exact hjoined

/-- Reading a slice accepts exactly the texts that write one, and nothing from any other. Every
slice with numbers of 64 bits is read back from its spelling, with any blanks around the parts. The
decimal integers in its script are its numbers, and read back as such. -/
theorem ofText?_notation :
    (∀ text s, ofText? text = some s ↔ Denotes text.toList s) ∧
    (∀ text, ofText? text = none ↔ ∀ s, ¬ Denotes text.toList s) ∧
    (∀ (s : Slice) (text : String), s.Fits → Spelled s text.toList → ofText? text = some s) ∧
    (∀ text s, ofText? text = some s → s.Fits) ∧
    ∀ (type : TypeName) (target : String) (s : Slice), ∃ before after : String,
      s.script type target = before ++ target ++ after ∧
        integers before.toList = [] ∧ integers after.toList = s.numbers := by
  refine ⟨fun text s => ofChars?_eq_some_iff, fun text => ?_, fun s text hfits hspelled => ?_,
    fun text s h => ?_, integers_script⟩
  · rw [Option.eq_none_iff_forall_ne_some]
    exact forall_congr' fun s => not_congr ofChars?_eq_some_iff
  · exact ofChars?_eq_some_iff.2 (hspelled.denotes hfits)
  · exact (ofChars?_eq_some_iff.1 h).fits

/-- The least bound of all, with blanks of three kinds around the parts, and a blank between the
colons of a step, where it may not stand. -/
theorem ofText?_notation_blanks :
    Fits (.range (some (-9223372036854775808)) none) ∧
    Spelled (.range (some (-9223372036854775808)) none)
      "\u3000-9223372036854775808 :\t".toList ∧
    ofText? "\u3000-9223372036854775808 :\t" =
      some (.range (some (-9223372036854775808)) none) ∧
    ∀ s, ¬ Denotes ": :2".toList s := by
  have hfits : Fits (.range (some (-9223372036854775808)) none) := by
    simp [Fits]
  have hspelled : Spelled (.range (some (-9223372036854775808)) none)
      "\u3000-9223372036854775808 :\t".toList := by
    have hblanks {cs : List Char} (h : cs.all isBlank = true) : Blanks cs := List.all_eq_true.1 h
    have htext : "\u3000-9223372036854775808 :\t".toList = ['\u3000'] ++
        (boundText (some (-9223372036854775808)) ++ [' ']) ++
          ':' :: (['\t'] ++ (boundText none ++ [])) := by decide +kernel
    rw [htext]
    exact .range (hblanks rfl) (hblanks rfl) (hblanks rfl) (hblanks rfl)
  obtain ⟨-, hnone, hback, -⟩ := ofText?_notation
  exact ⟨hfits, hspelled, hback _ _ hfits hspelled, (hnone ": :2").1 (by decide)⟩

end Slice

end Resin
