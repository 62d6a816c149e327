import Mathlib.Data.List.TakeWhile
import Resin.Proofs.Script.Interpolation

/-!
# Splitting a text is a partition

A text is cut into segments: the stretches without an opening bracket, as long as they can be, and
the groups of balanced brackets, of which a region keeps what stands inside without the blanks
around it. `Segment.Tiles` says this without the scanner, by what stands behind what. A bracket
outside the groups that is never closed (`Unclosed`) has no group, and a text with such a bracket
has no segments. Splitting finds the segments of a text or the first such bracket
(`Segment.split_partitions`).
-/

namespace Resin

open Text

namespace Text

/-- Neither end of the text is a blank. -/
structure Trimmed (cs : List Char) : Prop where
  first : ∀ c ∈ cs.head?, isBlank c = false
  last : ∀ c ∈ cs.getLast?, isBlank c = false

/-- The text is `source` with blanks around it, of which `left` stands in front. If it is nothing
but blanks, all of them stand in front. -/
def Strips (inner left source : List Char) : Prop :=
  ∃ right, inner = left ++ (source ++ right) ∧ (∀ c ∈ left ++ right, isBlank c = true) ∧
    Trimmed source ∧ (source = [] → right = [])

theorem dropWhile_isBlank_eq_self {cs : List Char} (h : ∀ c ∈ cs.head?, isBlank c = false) :
    cs.dropWhile isBlank = cs := by
  cases cs with
  | nil => rfl
  | cons c cs => rw [List.dropWhile_cons_of_neg (by simp [h c rfl])]

theorem takeWhile_isBlank_eq_nil {cs : List Char} (h : ∀ c ∈ cs.head?, isBlank c = false) :
    cs.takeWhile isBlank = [] := by
  cases cs with
  | nil => rfl
  | cons c cs => rw [List.takeWhile_cons_of_neg (by simp [h c rfl])]

theorem head?_dropWhile_isBlank (cs : List Char) :
    ∀ c ∈ (cs.dropWhile isBlank).head?, isBlank c = false := by
  intro c hc
  have hnot := List.head?_dropWhile_not isBlank cs
  rw [Option.mem_def.1 hc] at hnot
  simpa using hnot

theorem trimEnd_append (cs : List Char) :
    trimEnd cs ++ (cs.reverse.takeWhile isBlank).reverse = cs := by
  rw [trimEnd, ← List.reverse_append, List.takeWhile_append_dropWhile, List.reverse_reverse]

/-- Trimming takes away the blanks around a text, and nothing else. -/
theorem strips_trim (inner : List Char) : Strips inner (inner.takeWhile isBlank) (trim inner) := by
  let middle := inner.dropWhile isBlank
  have hmiddle : trimEnd middle ++ (middle.reverse.takeWhile isBlank).reverse = middle :=
    trimEnd_append middle
  have hfirst : ∀ c ∈ middle.head?, isBlank c = false := head?_dropWhile_isBlank inner
  refine ⟨(middle.reverse.takeWhile isBlank).reverse, ?_, ?_, ⟨?_, ?_⟩, ?_⟩
  · rw [trim, trimStart, hmiddle, List.takeWhile_append_dropWhile]
  · intro c hc
    rw [List.mem_append, List.mem_reverse] at hc
    exact hc.elim List.mem_takeWhile_imp List.mem_takeWhile_imp
  · -- the first character of what is left is that of the middle
    intro c hc
    obtain ⟨rest, hrest⟩ := List.head?_eq_some_iff.1 hc
    refine hfirst c ?_
    rw [← hmiddle, show trimEnd middle = c :: rest from hrest]
    rfl
  · intro c hc
    rw [trim, trimEnd, List.getLast?_reverse] at hc
    exact head?_dropWhile_isBlank _ c hc
  · -- a text of blanks only has no middle, for this would not begin with a blank
    intro hnil
    rw [show trimEnd middle = [] from hnil, List.nil_append] at hmiddle
    cases hright : (middle.reverse.takeWhile isBlank).reverse with
    | nil => rfl
    | cons c rest =>
      have hc : c ∈ middle.reverse.takeWhile isBlank := by
        rw [← List.mem_reverse, hright]
        exact List.mem_cons_self
      have hnot := hfirst c (by rw [← hmiddle, hright]; rfl)
      rw [List.mem_takeWhile_imp hc] at hnot
      cases hnot

theorem Strips.eq {inner left source : List Char} (h : Strips inner left source) :
    left = inner.takeWhile isBlank ∧ source = trim inner := by
  obtain ⟨right, rfl, hblank, htrimmed, hright⟩ := h
  rw [List.forall_mem_append] at hblank
  have hhead : ∀ c ∈ (source ++ right).head?, isBlank c = false := by
    cases source with
    | nil => simp [hright rfl]
    | cons c source => exact htrimmed.first
  have hstart : trimStart (left ++ (source ++ right)) = source ++ right := by
    rw [trimStart, List.dropWhile_append_of_pos hblank.1, dropWhile_isBlank_eq_self hhead]
  constructor
  · rw [List.takeWhile_append_of_pos hblank.1, takeWhile_isBlank_eq_nil hhead, List.append_nil]
  · have hend : ∀ c ∈ source.reverse.head?, isBlank c = false := by
      rw [List.head?_reverse]
      exact htrimmed.last
    rw [trim, hstart, trimEnd, List.reverse_append, List.dropWhile_append_of_pos,
      dropWhile_isBlank_eq_self hend, List.reverse_reverse]
    simpa using hblank.2

end Text

/-! ## Brackets that are closed -/

/-- A bracket that stands in front of the text is not closed in it: no part of the text from its
start on closes more brackets than it opens. -/
def Unclosed (cs : List Char) : Prop :=
  ∀ front, front <+: cs → front.count ']' ≤ front.count '['

theorem Unclosed.of_append {cs ds : List Char} (h : Unclosed (cs ++ ds)) : Unclosed cs :=
  fun front hfront => h front (hfront.trans (List.prefix_append cs ds))

/-- Balanced brackets do not close the one in front of them, a closing bracket behind them does. -/
theorem Balanced.not_unclosed {inner : List Char} (h : Balanced inner) (after : List Char) :
    ¬ Unclosed (inner ++ ']' :: after) := by
  intro hunclosed
  have hclosed := hunclosed (inner ++ [']']) ⟨after, by simp⟩
  have hsettled := h.settled
  simp only [List.count_append, List.count_singleton_self] at hclosed
  have hopening : [']'].count '[' = 0 := rfl
  omega

/-- Every bracket in a text with balanced brackets is closed in it. -/
theorem Balanced.not_unclosed_of_append {front rest : List Char}
    (h : Balanced (front ++ '[' :: rest)) : ¬ Unclosed rest := by
  intro hunclosed
  have hfront := h.opened front (List.prefix_append front _)
  have hrest := hunclosed rest (List.prefix_refl rest)
  have hsettled := h.settled
  simp only [List.count_append, List.count_cons_self,
    List.count_cons_of_ne (show '[' ≠ ']' by decide)] at hsettled
  omega

/-- Taking blanks away leaves balanced brackets balanced. -/
theorem Balanced.strips {inner left source : List Char} (h : Balanced inner)
    (hstrips : Strips inner left source) : Balanced source := by
  obtain ⟨right, rfl, hblank, -, -⟩ := hstrips
  rw [List.forall_mem_append] at hblank
  have hcount : ∀ {b : Char} {cs : List Char}, isBlank b = false →
      (∀ c ∈ cs, isBlank c = true) → cs.count b = 0 := by
    intro b cs hb hcs
    rw [List.count_eq_zero]
    intro hmem
    rw [hcs b hmem] at hb
    cases hb
  have hopen {cs : List Char} := @hcount '[' cs (by decide)
  have hclose {cs : List Char} := @hcount ']' cs (by decide)
  constructor
  · intro front hfront
    obtain ⟨rest, rfl⟩ := hfront
    have hopened := h.opened (left ++ front) ⟨rest ++ right, by simp⟩
    simpa [hopen hblank.1, hclose hblank.1] using hopened
  · have hsettled := h.settled
    simpa [hopen hblank.1, hclose hblank.1, hopen hblank.2, hclose hblank.2] using hsettled

namespace Segment

/-- A bracket that is not found to be closed is not closed. -/
theorem lt_of_closing?_eq_none {depth : Nat} {cs : List Char} (hdepth : 0 < depth)
    (h : closing? depth cs = none) :
    ∀ front, front <+: cs → front.count ']' < depth + front.count '[' := by
  induction cs generalizing depth with
  | nil =>
    intro front hfront
    obtain rfl := List.prefix_nil.1 hfront
    simpa using hdepth
  | cons c cs ih =>
    rw [closing?] at h
    generalize hnext : (if c = '[' then depth + 1 else if c = ']' then depth - 1 else depth) = next
      at h
    intro front hfront
    cases front with
    | nil => simpa using hdepth
    | cons d front =>
      obtain ⟨rfl, hrest⟩ := List.cons_prefix_cons.1 hfront
      by_cases hzero : next = 0
      · simp [hzero] at h
      · simp only [hzero, if_false, Option.map_eq_none_iff] at h
        have hmore := ih (Nat.pos_of_ne_zero hzero) h front hrest
        have hcount := count_cons_next hdepth hnext front
        omega

/-- The brackets in front of the one that closes are balanced, but for those that were open. -/
theorem lt_of_closing?_eq_some {depth : Nat} {cs inner after : List Char} (hdepth : 0 < depth)
    (h : closing? depth cs = some (inner, after)) :
    (∀ front, front <+: inner → front.count ']' < depth + front.count '[') ∧
      inner.count ']' + 1 = depth + inner.count '[' := by
  induction cs generalizing depth inner with
  | nil => cases h
  | cons c cs ih =>
    rw [closing?] at h
    generalize hnext : (if c = '[' then depth + 1 else if c = ']' then depth - 1 else depth) = next
      at h
    have hcount := count_cons_next hdepth hnext
    by_cases hzero : next = 0
    · simp only [hzero, if_true, Option.some.injEq, Prod.mk.injEq] at h
      obtain ⟨rfl, rfl⟩ := h
      -- one character closes one bracket at most, so no more was open
      have hlength : [c].count ']' ≤ 1 := List.count_le_length
      have hfirst := hcount []
      simp only [List.count_nil] at hfirst
      refine ⟨fun front hfront => ?_, by simp only [List.count_nil]; omega⟩
      obtain rfl := List.prefix_nil.1 hfront
      simpa using hdepth
    · simp only [hzero, if_false] at h
      obtain ⟨⟨inner', after'⟩, hclosing, heq⟩ := Option.map_eq_some_iff.1 h
      simp only [Prod.mk.injEq] at heq
      obtain ⟨rfl, rfl⟩ := heq
      obtain ⟨hopen, hlast⟩ := ih (Nat.pos_of_ne_zero hzero) hclosing
      refine ⟨fun front hfront => ?_, ?_⟩
      · cases front with
        | nil => simpa using hdepth
        | cons d front =>
          obtain ⟨rfl, hrest⟩ := List.cons_prefix_cons.1 hfront
          have hmore := hopen front hrest
          have hfirst := hcount front
          omega
      · have hfirst := hcount inner'
        omega

theorem balanced_of_closing? {cs inner after : List Char}
    (h : closing? 1 cs = some (inner, after)) : Balanced inner := by
  obtain ⟨hopen, hlast⟩ := lt_of_closing?_eq_some Nat.zero_lt_one h
  refine ⟨fun front hfront => ?_, by omega⟩
  have hlt := hopen front hfront
  omega

/-- A bracket in front of a text is not closed in it, or the text begins with what it encloses. -/
theorem unclosed_or_group (cs : List Char) :
    Unclosed cs ∨ ∃ inner after, Balanced inner ∧ cs = inner ++ ']' :: after := by
  cases hclosing : closing? 1 cs with
  | none =>
    left
    intro front hfront
    have hlt := lt_of_closing?_eq_none Nat.zero_lt_one hclosing front hfront
    omega
  | some parts =>
    right
    exact ⟨parts.1, parts.2, balanced_of_closing? hclosing,
      eq_append_of_closing? hclosing (by decide)⟩

theorem closing?_of_unclosed {cs : List Char} (h : Unclosed cs) : closing? 1 cs = none := by
  cases hclosing : closing? 1 cs with
  | none => rfl
  | some parts =>
    have hcs : cs = parts.1 ++ ']' :: parts.2 := eq_append_of_closing? hclosing (by decide)
    rw [hcs] at h
    exact absurd h ((balanced_of_closing? hclosing).not_unclosed parts.2)

/-! ## Segments of a text -/

/-- The segments are those of a text that starts at `offset`: its stretches without an opening
bracket, as long as they can be, and its groups of balanced brackets, each as what stands between
the brackets without the blanks around it. -/
inductive Tiles : Nat → List Char → List Segment → Prop
  | nil {offset} : Tiles offset [] []
  | text {offset content after rest} : content ≠ [] → '[' ∉ content →
    (∀ c ∈ after.head?, c = '[') → Tiles (offset + byteLength content) after rest →
    Tiles offset (content ++ after) (.text (String.ofList content) :: rest)
  | region {offset inner left source after rest} : Balanced inner → Strips inner left source →
    Tiles (offset + byteLength inner + 2) after rest →
    Tiles offset ('[' :: (inner ++ ']' :: after))
      (.region (String.ofList source) (offset + 1 + byteLength left) :: rest)

/-! ## One step of splitting -/

theorem ofInner_of_strips {inner left source : List Char} (h : Strips inner left source)
    (offset : Nat) : ofInner inner offset =
      .region (String.ofList source) (offset + byteLength left) := by
  have hlength := byteLength_trimStart_add inner
  rw [ofInner, h.eq.2, h.eq.1]
  congr 1
  omega

theorem plain_of_ne_nil {cs : List Char} (h : cs ≠ []) : plain cs = [.text (String.ofList cs)] := by
  rw [plain, if_neg (by simpa using h)]

variable {n offset : Nat} {literal inner after : List Char}

/-- The first bracket of a text is not closed. -/
theorem splitUpTo_unclosed (hliteral : '[' ∉ literal) (h : Unclosed after) :
    splitUpTo (n + 1) offset (literal ++ '[' :: after) = .error ⟨.unmatchedBracket,
      ⟨offset + byteLength literal, offset + byteLength literal + 1⟩, none⟩ := by
  simp only [splitUpTo, takeWhile_bracket hliteral, List.drop_left, closing?_of_unclosed h]

theorem splitUpTo_region (h : Balanced inner) :
    splitUpTo (n + 1) offset ('[' :: (inner ++ ']' :: after)) =
      (splitUpTo n (offset + byteLength inner + 2) after).map (ofInner inner (offset + 1) :: ·) :=
  splitUpTo_group List.not_mem_nil h

/-- A stretch without a bracket is split off by itself. -/
theorem splitUpTo_text (hliteral : '[' ∉ literal) (hafter : ∀ c ∈ after.head?, c = '[') :
    splitUpTo (n + 1) offset (literal ++ after) =
      (splitUpTo (n + 1) (offset + byteLength literal) after).map (plain literal ++ ·) := by
  cases after with
  | nil =>
    rw [List.append_nil, splitUpTo_plain hliteral, splitUpTo_plain List.not_mem_nil]
    exact congrArg Except.ok (List.append_nil _).symm
  | cons c rest =>
    rw [hafter c rfl]
    -- the bracket is the first one with the stretch in front of it and without
    rcases unclosed_or_group rest with hrest | ⟨inner, after, hinner, rfl⟩
    · rw [splitUpTo_unclosed hliteral hrest]
      exact congrArg (Except.map _) (splitUpTo_unclosed List.not_mem_nil hrest).symm
    · rw [splitUpTo_group hliteral hinner, splitUpTo_region hinner]
      cases splitUpTo n (offset + byteLength literal + byteLength inner + 2) after <;> rfl

/-! ## Splitting a text -/

theorem byteLength_group (inner after : List Char) :
    byteLength ('[' :: (inner ++ ']' :: after)) = byteLength inner + 2 + byteLength after := by
  simpa using byteLength_region [] inner after

/-- A bracket that is not closed stands in the text behind `before`. -/
def UnclosedBehind (cs before : List Char) : Prop :=
  ∃ after, cs = before ++ '[' :: after ∧ Unclosed after

/-- A text with segments is split into them. -/
theorem Tiles.splitUpTo_eq {cs : List Char} {segments : List Segment}
    (h : Tiles offset cs segments) (hn : cs.length ≤ n) :
    splitUpTo (n + 1) offset cs = .ok segments := by
  induction h generalizing n with
  | nil => exact splitUpTo_plain List.not_mem_nil
  | text hne hplain hafter _ ih =>
    rw [List.length_append] at hn
    rw [splitUpTo_text hplain hafter, ih (by omega), plain_of_ne_nil hne]
    rfl
  | region hinner hstrips _ ih =>
    simp only [List.length_cons, List.length_append] at hn
    obtain ⟨n, rfl⟩ := Nat.exists_eq_add_of_le' (Nat.one_le_of_lt hn)
    rw [splitUpTo_region hinner, ih (by omega), ofInner_of_strips hstrips]
    rfl

/-- A bracket that is not closed ends the splitting, if the text in front of it has segments. -/
theorem Tiles.splitUpTo_unclosed {before : List Char} {segments : List Segment}
    (h : Tiles offset before segments) (hafter : Unclosed after)
    (hn : (before ++ '[' :: after).length ≤ n) :
    splitUpTo (n + 1) offset (before ++ '[' :: after) = .error ⟨.unmatchedBracket,
      ⟨offset + byteLength before, offset + byteLength before + 1⟩, none⟩ := by
  induction h generalizing n with
  | nil => exact Segment.splitUpTo_unclosed List.not_mem_nil hafter
  | @text offset content rest _ _ hplain hrest _ ih =>
    have hhead : ∀ c ∈ (rest ++ '[' :: after).head?, c = '[' := by
      cases rest with
      | nil => simp
      | cons d rest => exact hrest
    rw [List.append_assoc] at hn ⊢
    rw [List.length_append] at hn
    rw [splitUpTo_text hplain hhead, ih (by omega), byteLength_append, Nat.add_assoc]
    rfl
  | @region offset inner _ _ rest _ hinner _ _ ih =>
    have happend : '[' :: (inner ++ ']' :: rest) ++ '[' :: after =
        '[' :: (inner ++ ']' :: (rest ++ '[' :: after)) := by simp
    rw [happend] at hn ⊢
    rw [List.length_cons, List.length_append, List.length_cons] at hn
    obtain ⟨n, rfl⟩ := Nat.exists_eq_add_of_le' (Nat.one_le_of_lt hn)
    rw [splitUpTo_region hinner, ih (by omega), byteLength_group]
    show Except.error _ = _
    congr 3 <;> omega

/-- A stretch without a bracket in front of a text with segments. -/
theorem Tiles.behind {segments : List Segment} (hliteral : '[' ∉ literal)
    (hafter : ∀ c ∈ after.head?, c = '[') (h : Tiles (offset + byteLength literal) after segments) :
    Tiles offset (literal ++ after) (plain literal ++ segments) := by
  cases literal with
  | nil => exact h
  | cons c literal =>
    rw [plain_of_ne_nil (List.cons_ne_nil c literal)]
    exact .text (List.cons_ne_nil c literal) hliteral hafter h

theorem tiles_plain (hliteral : '[' ∉ literal) : Tiles offset literal (plain literal) := by
  have h : Tiles offset (literal ++ []) (plain literal ++ []) := .behind hliteral (by simp) .nil
  rwa [List.append_nil, List.append_nil] at h

theorem Tiles.inset {segments : List Segment} (hliteral : '[' ∉ literal) (hinner : Balanced inner)
    (h : Tiles (offset + byteLength literal + byteLength inner + 2) after segments) :
    Tiles offset (literal ++ '[' :: (inner ++ ']' :: after)) (plain literal ++
      .region (String.ofList (trim inner))
        (offset + byteLength literal + 1 + byteLength (inner.takeWhile isBlank)) :: segments) :=
  (Tiles.region hinner (strips_trim inner) h).behind hliteral (by simp)

/-- Every text has segments, or it has a bracket that is not closed behind a text that has. -/
theorem exists_tiles_or_unclosed (offset : Nat) (cs : List Char) :
    (∃ segments, Tiles offset cs segments) ∨
      ∃ before segments, Tiles offset before segments ∧ UnclosedBehind cs before := by
  induction hlength : cs.length using Nat.strong_induction_on generalizing offset cs with
  | _ length ih =>
    by_cases hcs : '[' ∈ cs
    · obtain ⟨literal, rest, rfl, hliteral⟩ := List.eq_append_cons_of_mem hcs
      rcases unclosed_or_group rest with hrest | ⟨inner, after, hinner, rfl⟩
      · exact .inr ⟨literal, _, tiles_plain hliteral, rest, rfl, hrest⟩
      · simp only [List.length_append, List.length_cons] at hlength
        rcases ih after.length (by omega) (offset + byteLength literal + byteLength inner + 2)
          after rfl with
          ⟨segments, hsegments⟩ | ⟨before, segments, hsegments, rest, rfl, hrest⟩
        · exact .inl ⟨_, hsegments.inset hliteral hinner⟩
        · exact .inr ⟨_, _, hsegments.inset hliteral hinner, rest, by simp, hrest⟩
    · exact .inl ⟨_, tiles_plain hcs⟩

/-! ## What the segments are -/

/-- Some of the first segments of a text are those of a part of it. -/
theorem Tiles.exists_append {cs : List Char} {front back : List Segment}
    (h : Tiles offset cs (front ++ back)) : ∃ left right, cs = left ++ right ∧
      Tiles offset left front ∧ Tiles (offset + byteLength left) right back := by
  induction front generalizing offset cs with
  | nil => exact ⟨[], cs, rfl, .nil, h⟩
  | cons segment front ih =>
    cases h with
    | @text _ content after _ hne hplain hafter hrest =>
      obtain ⟨left, right, rfl, hleft, hright⟩ := ih hrest
      refine ⟨content ++ left, right, by simp, .text hne hplain ?_ hleft, ?_⟩
      · intro c hc
        exact hafter c (List.mem_head?_append_of_mem_head? hc)
      · rwa [byteLength_append, ← Nat.add_assoc]
    | @region _ inner _ _ after _ hinner hstrips hrest =>
      obtain ⟨left, right, rfl, hleft, hright⟩ := ih hrest
      refine ⟨'[' :: (inner ++ ']' :: left), right, by simp, .region hinner hstrips hleft, ?_⟩
      rwa [byteLength_group, ← Nat.add_assoc, ← Nat.add_assoc]

/-- Every bracket of a text with segments is closed. -/
theorem Tiles.not_unclosed {cs front rest : List Char} {segments : List Segment}
    (h : Tiles offset cs segments) (hcs : cs = front ++ '[' :: rest) : ¬ Unclosed rest := by
  induction h generalizing front with
  | nil => simp at hcs
  | text _ hplain _ _ ih =>
    rcases List.append_eq_append_iff.1 hcs with ⟨middle, rfl, hmiddle⟩ | ⟨middle, rfl, hmiddle⟩
    · exact ih hmiddle
    · cases middle with
      | nil => exact @ih [] hmiddle.symm
      | cons c middle =>
        rw [List.cons_append, List.cons.injEq] at hmiddle
        simp [← hmiddle.1] at hplain
  | @region _ inner _ _ after _ hinner _ _ ih =>
    cases front with
    | nil =>
      obtain rfl : inner ++ ']' :: after = rest := by simpa using hcs
      exact hinner.not_unclosed after
    | cons c front =>
      rw [List.cons_append, List.cons.injEq] at hcs
      rcases List.append_eq_append_iff.1 hcs.2 with ⟨middle, rfl, hmiddle⟩ | ⟨middle, rfl, hmiddle⟩
      · cases middle with
        | nil => simp at hmiddle
        | cons d middle =>
          rw [List.cons_append, List.cons.injEq] at hmiddle
          exact ih hmiddle.2
      · cases middle with
        | nil => simp at hmiddle
        | cons d middle =>
          rw [List.cons_append, List.cons.injEq] at hmiddle
          obtain ⟨rfl, rfl⟩ := hmiddle
          exact fun hunclosed => hinner.not_unclosed_of_append hunclosed.of_append

variable {base : Nat} {cs : List Char} {segments : List Segment}

theorem Tiles.text_of_mem {content : String} (h : Tiles base cs segments)
    (hmem : .text content ∈ segments) : content ≠ "" ∧ '[' ∉ content.toList := by
  obtain ⟨front, back, rfl⟩ := List.append_of_mem hmem
  obtain ⟨left, right, -, -, hright⟩ := h.exists_append
  cases hright with
  | text hne hplain _ _ =>
    rw [String.toList_ofList]
    exact ⟨by simpa using hne, hplain⟩

/-- No stretch of plain text stands directly behind another one: it would begin with a bracket. -/
theorem Tiles.ne_append_text_text (h : Tiles base cs segments) (front back : List Segment)
    (content content' : String) : segments ≠ front ++ .text content :: .text content' :: back := by
  rintro rfl
  obtain ⟨left, right, -, -, hright⟩ := h.exists_append
  cases hright with
  | text _ _ hafter hrest =>
    cases hrest with
    | @text _ content _ _ hne hplain _ _ =>
      cases content with
      | nil => exact hne rfl
      | cons c content =>
        rw [hafter c rfl] at hplain
        exact hplain List.mem_cons_self

/-- A region is a part of the text, at the bytes its offset gives. -/
theorem Tiles.region_of_mem {text source : String} {offset : Nat}
    (h : Tiles base text.toList segments) (hmem : .region source offset ∈ segments) :
    base ≤ offset ∧ Balanced source.toList ∧ Trimmed source.toList ∧
      (Span.mk (offset - base) (offset - base + byteLength source.toList)).text? text =
        some source := by
  obtain ⟨front, back, rfl⟩ := List.append_of_mem hmem
  obtain ⟨left, right, htext, -, hright⟩ := h.exists_append
  cases hright with
  | @region _ inner blanks source after _ hinner hstrips _ =>
    rw [String.toList_ofList]
    refine ⟨by omega, hinner.strips hstrips, ?_, ?_⟩
    · obtain ⟨_, -, -, htrimmed, -⟩ := hstrips
      exact htrimmed
    · obtain ⟨blanks', rfl, -, -, -⟩ := hstrips
      have hsplit : text.toList =
          left ++ '[' :: blanks ++ (source ++ (blanks' ++ ']' :: after)) := by simp [htext]
      refine Span.text?_of_append hsplit ?_ rfl
      have hbracket : '['.utf8Size = 1 := rfl
      rw [byteLength_append, byteLength_cons]
      show base + byteLength left + 1 + byteLength blanks - base = _
      omega

/-! ## The partition -/

theorem Tiles.split_eq {text : String} (h : Tiles base text.toList segments) :
    split text base = .ok segments :=
  h.splitUpTo_eq (Nat.le_refl _)

theorem Tiles.split_unclosed {text : String} {before : List Char} (h : Tiles base before segments)
    (hbefore : UnclosedBehind text.toList before) : split text base = .error ⟨.unmatchedBracket,
      ⟨base + byteLength before, base + byteLength before + 1⟩, none⟩ := by
  obtain ⟨after, htext, hafter⟩ := hbefore
  rw [split, htext, h.splitUpTo_unclosed hafter (Nat.le_refl _)]

theorem split_eq_ok_iff {text : String} :
    split text base = .ok segments ↔ Tiles base text.toList segments := by
  refine ⟨fun h => ?_, Tiles.split_eq⟩
  rcases exists_tiles_or_unclosed base text.toList with
    ⟨segments', hsegments⟩ | ⟨before, segments', hsegments, hbefore⟩
  · rw [hsegments.split_eq, Except.ok.injEq] at h
    exact h ▸ hsegments
  · rw [hsegments.split_unclosed hbefore] at h
    cases h

/-- The first of the places in a text that are of a kind, each given by what stands in front of
it. -/
structure IsFirst (places : List Char → Prop) (before : List Char) : Prop where
  mem : places before
  least : ∀ other, places other → before.length ≤ other.length

/-- No bracket in front of one that stands outside the groups is left open. -/
theorem Tiles.isFirst {before : List Char} (h : Tiles base before segments)
    (hbefore : UnclosedBehind cs before) : IsFirst (UnclosedBehind cs) before := by
  refine ⟨hbefore, fun other hother => ?_⟩
  obtain ⟨after, rfl, -⟩ := hbefore
  obtain ⟨after', hcs, hunclosed⟩ := hother
  rcases List.append_eq_append_iff.1 hcs with ⟨middle, rfl, -⟩ | ⟨middle, hmiddle, hafter⟩
  · rw [List.length_append]
    omega
  · cases middle with
    | nil => rw [hmiddle, List.append_nil]
    | cons c middle =>
      rw [List.cons_append, List.cons.injEq] at hafter
      obtain ⟨rfl, rfl⟩ := hafter
      exact absurd hunclosed.of_append (h.not_unclosed hmiddle)

theorem split_eq_error_iff {text : String} {e : Error} : split text base = .error e ↔
    ∃ before segments, Tiles base before segments ∧ UnclosedBehind text.toList before ∧
      e = ⟨.unmatchedBracket, ⟨base + byteLength before, base + byteLength before + 1⟩, none⟩ := by
  constructor
  · intro h
    rcases exists_tiles_or_unclosed base text.toList with
      ⟨segments', hsegments⟩ | ⟨before, segments', hsegments, hbefore⟩
    · rw [hsegments.split_eq] at h
      cases h
    · refine ⟨before, segments', hsegments, hbefore, ?_⟩
      rw [hsegments.split_unclosed hbefore, Except.error.injEq] at h
      exact h.symm
  · rintro ⟨before, segments', hsegments, hbefore, rfl⟩
    exact hsegments.split_unclosed hbefore

/-- Splitting a text is a partition of it. It fails exactly if a bracket outside the groups is never
closed, and names the first bracket of the text that is not. Otherwise the segments are those of the
text, each at its place. -/
theorem split_partitions (text : String) (base : Nat) :
    ((∃ e, split text base = .error e) ↔
        ∃ before segments, Tiles base before segments ∧ UnclosedBehind text.toList before) ∧
      (∀ e, split text base = .error e → ∃ before segments, Tiles base before segments ∧
        IsFirst (UnclosedBehind text.toList) before ∧
        e = ⟨.unmatchedBracket, ⟨base + byteLength before, base + byteLength before + 1⟩, none⟩) ∧
      (∀ segments, split text base = .ok segments ↔ Tiles base text.toList segments) ∧
      ∀ segments, split text base = .ok segments →
        (∀ content, .text content ∈ segments → content ≠ "" ∧ '[' ∉ content.toList) ∧
        (∀ front back content content',
          segments ≠ front ++ .text content :: .text content' :: back) ∧
        ∀ source offset, .region source offset ∈ segments →
          base ≤ offset ∧ Balanced source.toList ∧ Trimmed source.toList ∧
            (Span.mk (offset - base) (offset - base + byteLength source.toList)).text? text =
              some source := by
  refine ⟨⟨?_, ?_⟩, ?_, fun segments => split_eq_ok_iff, ?_⟩
  · rintro ⟨e, he⟩
    obtain ⟨before, segments, hsegments, hbefore, -⟩ := split_eq_error_iff.1 he
    exact ⟨before, segments, hsegments, hbefore⟩
  · rintro ⟨before, segments, hsegments, hbefore⟩
    exact ⟨_, split_eq_error_iff.2 ⟨before, segments, hsegments, hbefore, rfl⟩⟩
  · intro e he
    obtain ⟨before, segments, hsegments, hbefore, heq⟩ := split_eq_error_iff.1 he
    exact ⟨before, segments, hsegments, hsegments.isFirst hbefore, heq⟩
  · intro segments h
    have htiles := split_eq_ok_iff.1 h
    exact ⟨fun content => htiles.text_of_mem, htiles.ne_append_text_text,
      fun source offset => htiles.region_of_mem⟩

end Segment

end Resin
