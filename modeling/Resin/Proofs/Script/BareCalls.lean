import Resin.Proofs.Script.Partition

/-!
# Calls outside the regions of a text

A stored text must not call a function outside its regions. The check for it walks over the text
once more and counts brackets on its own: it never looks for the bracket that closes, and a closing
bracket too many leaves the depth at zero. On a text that can be split this is the same as looking
at the stretches between the regions, each by itself: a stretch is walked over at depth zero
(`Segment.exists_isFirst_or_skips`), a group is skipped as a whole (`Segment.bareCall?_group`), and
the brackets around a stretch are no part of a word. So the word that is refused is the first one
in a stretch (`Segment.refuseBareCalls_eq_error_iff`).
-/

namespace Resin

open Text

namespace Segment

/-! ## Words in a text -/

/-- The character, if there is one, is not part of a word of ASCII characters. -/
def Free (c : Option Char) : Prop :=
  ∀ d ∈ c, d.isAlpha = false ∧ d.isDigit = false ∧ d ≠ '_'

theorem joinsWord_eq_false_iff {c : Option Char} : joinsWord c = false ↔ Free c := by
  cases c with
  | none => simp [joinsWord, Free]
  | some c =>
    have halphanum : c.isAlphanum = (c.isAlpha || c.isDigit) := rfl
    simp only [joinsWord, halphanum, Bool.or_eq_false_iff, beq_eq_false_iff_ne, Free,
      Option.mem_def, Option.some.injEq, forall_eq', and_assoc]

theorem free_none : Free none := by
  simp [Free]

/-- The word `call` stands in the text behind `before`, and nothing makes it a longer word.
`previous` is the character in front of the text. -/
def CallBehind (previous : Option Char) (cs before : List Char) : Prop :=
  ∃ after, cs = before ++ (['c', 'a', 'l', 'l'] ++ after) ∧ Free (before.getLast?.or previous) ∧
    Free after.head?

theorem not_callBehind_nil {previous : Option Char} {before : List Char} :
    ¬ CallBehind previous [] before := by
  rintro ⟨after, hnil, -⟩
  simp at hnil

theorem callBehind_cons_cons_iff {previous : Option Char} {c d : Char} {cs before : List Char} :
    CallBehind previous (c :: cs) (d :: before) ↔ d = c ∧ CallBehind (some c) cs before := by
  have hlast : (d :: before).getLast?.or previous = before.getLast?.or (some d) := by
    rw [List.getLast?_cons]
    cases before.getLast? <;> rfl
  simp only [CallBehind, List.cons_append, List.cons.injEq, hlast]
  constructor
  · rintro ⟨after, ⟨rfl, hcs⟩, hfree, hafter⟩
    exact ⟨rfl, after, hcs, hfree, hafter⟩
  · rintro ⟨rfl, after, hcs, hfree, hafter⟩
    exact ⟨after, ⟨rfl, hcs⟩, hfree, hafter⟩

/-- In front of a text may stand any character that does not join its first word. -/
theorem callBehind_iff_of_free {previous : Option Char} (hprevious : Free previous)
    {cs before : List Char} : CallBehind previous cs before ↔ CallBehind none cs before := by
  cases before with
  | nil => simp only [CallBehind, List.getLast?_nil, Option.none_or, hprevious, free_none]
  | cons d before => simp [CallBehind, List.getLast?_cons]

/-! ## One step of the search -/

variable {previous : Option Char} {offset : Nat} {content after : List Char}

theorem getElem?_call (rest : List Char) : (['c', 'a', 'l', 'l'] ++ rest)[4]? = rest.head? := by
  simp [List.head?_eq_getElem?]

/-- A word of a stretch in front of a bracket is seen as one, whatever stands behind. -/
theorem callBehind_nil_iff (hcontent : '[' ∉ content) (hafter : ∀ c ∈ after.head?, c = '[') :
    CallBehind previous content [] ↔ ['c', 'a', 'l', 'l'].isPrefixOf (content ++ after) ∧
      ¬ joinsWord previous ∧ ¬ joinsWord (content ++ after)[4]? := by
  simp only [Bool.not_eq_true, joinsWord_eq_false_iff, List.isPrefixOf_iff_prefix]
  constructor
  · rintro ⟨rest, rfl, hprevious, hrest⟩
    rw [List.nil_append, List.append_assoc, getElem?_call]
    refine ⟨List.prefix_append _ _, hprevious, ?_⟩
    cases rest with
    | nil =>
      intro c hc
      rw [hafter c hc]
      decide
    | cons d rest => exact hrest
  · rintro ⟨⟨rest, hprefix⟩, hprevious, hfour⟩
    rcases List.append_eq_append_iff.1 hprefix with
      ⟨middle, rfl, -⟩ | ⟨middle, hmiddle, rfl⟩
    · refine ⟨middle, rfl, hprevious, ?_⟩
      rw [List.append_assoc, getElem?_call] at hfour
      cases middle with
      | nil => exact free_none
      | cons d middle => exact hfour
    · cases middle with
      | nil =>
        rw [List.append_nil] at hmiddle
        exact ⟨[], by simp [hmiddle], hprevious, free_none⟩
      | cons d middle =>
        -- the word would reach into the bracket behind the stretch
        have hbracket : d ∈ ['c', 'a', 'l', 'l'] := by simp [hmiddle]
        rw [hafter d rfl] at hbracket
        exact absurd hbracket (by decide)

theorem bareCall?_call (hcontent : '[' ∉ content) (hafter : ∀ c ∈ after.head?, c = '[')
    (h : CallBehind previous content []) :
    bareCall? 0 previous offset (content ++ after) = some offset := by
  have hcheck := (callBehind_nil_iff hcontent hafter).1 h
  obtain ⟨rest, rfl, -⟩ := h
  simp only [List.nil_append, List.cons_append, bareCall?] at hcheck ⊢
  rw [if_neg (by decide), if_neg (by decide), if_pos]
  exact ⟨trivial, hcheck⟩

theorem bareCall?_cons {c : Char} (hcontent : '[' ∉ c :: content)
    (hafter : ∀ c ∈ after.head?, c = '[') (h : ¬ CallBehind previous (c :: content) []) :
    bareCall? 0 previous offset (c :: content ++ after) =
      bareCall? 0 (some c) (offset + c.utf8Size) (content ++ after) := by
  have hcheck := mt (callBehind_nil_iff hcontent hafter).2 h
  have hopening : c ≠ '[' := fun hc => hcontent (by simp [hc])
  rw [List.cons_append, bareCall?, if_neg hopening]
  by_cases hclosing : c = ']'
  · rw [if_pos hclosing, hclosing]
    rfl
  · rw [if_neg hclosing, if_neg]
    exact fun hcall => hcheck hcall.2

/-- Inside brackets every character only counts for the depth. -/
theorem bareCall?_inside {depth : Nat} {c : Char} {cs : List Char} (hdepth : 0 < depth) :
    bareCall? depth previous offset (c :: cs) =
      bareCall? (if c = '[' then depth + 1 else if c = ']' then depth - 1 else depth) (some c)
        (offset + c.utf8Size) cs := by
  rw [bareCall?]
  by_cases hopening : c = '['
  · rw [if_pos hopening, if_pos hopening, hopening]
    rfl
  · by_cases hclosing : c = ']'
    · rw [if_neg hopening, if_pos hclosing, if_neg hopening, if_pos hclosing, hclosing]
      rfl
    · rw [if_neg hopening, if_neg hclosing, if_neg hopening, if_neg hclosing, if_neg]
      exact fun hcall => Nat.ne_of_gt hdepth hcall.1

/-- The search goes on behind the bracket that closes all open ones. -/
theorem bareCall?_closing {depth : Nat} {inner : List Char}
    (hopen : ∀ front, front <+: inner → front.count ']' < depth + front.count '[')
    (hlast : inner.count ']' + 1 = depth + inner.count '[') :
    bareCall? depth previous offset (inner ++ ']' :: after) =
      bareCall? 0 (some ']') (offset + byteLength inner + 1) after := by
  induction inner generalizing depth previous offset with
  | nil =>
    obtain rfl : depth = 1 := by simpa using hlast.symm
    rfl
  | cons c inner ih =>
    have hdepth : 0 < depth := by simpa using hopen [] List.nil_prefix
    rw [List.cons_append, bareCall?_inside hdepth]
    generalize hnext : (if c = '[' then depth + 1 else if c = ']' then depth - 1 else depth) = next
    have hcount := count_cons_next hdepth hnext
    have hrest : ∀ front, front <+: inner → front.count ']' < next + front.count '[' := by
      intro front hfront
      have hlonger := hopen (c :: front) (List.cons_prefix_cons.2 ⟨rfl, hfront⟩)
      have hdeeper := hcount front
      omega
    have hdeeper := hcount inner
    rw [ih hrest (by omega), byteLength_cons, Nat.add_assoc offset]

theorem bareCall?_group {inner : List Char} (h : Balanced inner) :
    bareCall? 0 previous offset ('[' :: (inner ++ ']' :: after)) =
      bareCall? 0 (some ']') (offset + byteLength inner + 2) after := by
  rw [bareCall?, if_pos rfl, bareCall?_closing]
  · congr 1
    omega
  · intro front hfront
    have hopened := h.opened front hfront
    omega
  · have hsettled := h.settled
    omega

/-! ## Stretches -/

/-- Places that all lie behind one text have their first one there. -/
theorem IsFirst.behind {places places' : List Char → Prop} {front before : List Char}
    (h : IsFirst places before) (hmem : places' (front ++ before))
    (hbehind : ∀ other, places' other → ∃ rest, other = front ++ rest ∧ places rest) :
    IsFirst places' (front ++ before) := by
  refine ⟨hmem, fun other hother => ?_⟩
  obtain ⟨rest, rfl, hrest⟩ := hbehind other hother
  rw [List.length_append, List.length_append]
  exact Nat.add_le_add_left (h.least rest hrest) _

/-- The search finds the first call of a stretch, or goes on behind it. -/
theorem exists_isFirst_or_skips (previous : Option Char) (offset : Nat) (hcontent : '[' ∉ content)
    (hafter : ∀ c ∈ after.head?, c = '[') :
    (∃ before, IsFirst (CallBehind previous content) before ∧
      bareCall? 0 previous offset (content ++ after) = some (offset + byteLength before)) ∨
    (∀ before, ¬ CallBehind previous content before) ∧
      bareCall? 0 previous offset (content ++ after) =
        bareCall? 0 (content.getLast?.or previous) (offset + byteLength content) after := by
  induction content generalizing previous offset with
  | nil => exact .inr ⟨fun before => not_callBehind_nil, rfl⟩
  | cons c content ih =>
    by_cases hcall : CallBehind previous (c :: content) []
    · exact .inl ⟨[], ⟨hcall, fun _ _ => Nat.zero_le _⟩, bareCall?_call hcontent hafter hcall⟩
    · rw [bareCall?_cons hcontent hafter hcall]
      have hbehind : ∀ other, CallBehind previous (c :: content) other →
          ∃ rest, other = [c] ++ rest ∧ CallBehind (some c) content rest := by
        rintro (_ | ⟨d, other⟩) hother
        · exact absurd hother hcall
        · obtain ⟨rfl, hrest⟩ := callBehind_cons_cons_iff.1 hother
          exact ⟨other, rfl, hrest⟩
      rcases ih (some c) (offset + c.utf8Size) (fun hmem => hcontent (List.mem_cons_of_mem c hmem))
        with ⟨before, hfirst, hfound⟩ | ⟨hnone, hskips⟩
      · refine .inl ⟨[c] ++ before, hfirst.behind ?_ hbehind, ?_⟩
        · exact callBehind_cons_cons_iff.2 ⟨rfl, hfirst.mem⟩
        · rw [hfound, List.singleton_append, byteLength_cons, Nat.add_assoc]
      · refine .inr ⟨?_, ?_⟩
        · intro other hother
          obtain ⟨rest, -, hrest⟩ := hbehind other hother
          exact hnone rest hrest
        · rw [hskips, byteLength_cons, Nat.add_assoc, List.getLast?_cons]
          cases content.getLast? <;> rfl

/-! ## Texts -/

variable {base : Nat} {cs : List Char} {segments : List Segment}

/-- A word `call` stands in a stretch outside the regions, behind `before` in the whole text. -/
def CallOutside (base : Nat) (cs : List Char) (segments : List Segment) (before : List Char) :
    Prop :=
  ∃ front content back left right inside, segments = front ++ .text content :: back ∧
    cs = left ++ (content.toList ++ right) ∧ Tiles base left front ∧
    CallBehind none content.toList inside ∧ before = left ++ inside

theorem Tiles.text_inv {content : String} (h : Tiles base cs (.text content :: segments)) :
    ∃ after, cs = content.toList ++ after ∧
      Tiles (base + byteLength content.toList) after segments := by
  cases h with
  | @text _ content after _ _ _ _ hrest =>
    rw [String.toList_ofList]
    exact ⟨after, rfl, hrest⟩

theorem Tiles.region_inv {source : String} (h : Tiles base cs (.region source offset :: segments)) :
    ∃ inner after, cs = '[' :: (inner ++ ']' :: after) ∧ Balanced inner ∧
      Tiles (base + byteLength inner + 2) after segments := by
  cases h with
  | region hinner _ hrest => exact ⟨_, _, rfl, hinner, hrest⟩

/-- A bracket is closed at one place only. -/
theorem group_inj {inner inner' after after' : List Char} (hinner : Balanced inner)
    (hinner' : Balanced inner') (h : inner ++ ']' :: after = inner' ++ ']' :: after') :
    inner = inner' ∧ after = after' := by
  have hclosing := closing?_of_balanced hinner after
  rw [h, closing?_of_balanced hinner', Option.some.injEq, Prod.mk.injEq] at hclosing
  exact ⟨hclosing.1.symm, hclosing.2.symm⟩

/-- The calls of a text that begins with a stretch are those of the stretch and those behind it. -/
theorem callOutside_text_iff (base : Nat) (segments : List Segment) (before : List Char)
    (hne : content ≠ []) (hcontent : '[' ∉ content) (hafter : ∀ c ∈ after.head?, c = '[') :
    CallOutside base (content ++ after) (.text (String.ofList content) :: segments) before ↔
      CallBehind none content before ∨ ∃ behind, before = content ++ behind ∧
        CallOutside (base + byteLength content) after segments behind := by
  constructor
  · rintro ⟨front, word, back, left, right, inside, hsegments, hcs, hleft, hinside, rfl⟩
    cases front with
    | nil =>
      cases hleft
      rw [List.nil_append, List.cons.injEq, Segment.text.injEq] at hsegments
      rw [← hsegments.1, String.toList_ofList] at hinside
      exact .inl hinside
    | cons segment front =>
      rw [List.cons_append, List.cons.injEq] at hsegments
      rw [← hsegments.1] at hleft
      obtain ⟨left, rfl, hrest⟩ := hleft.text_inv
      rw [String.toList_ofList] at hcs hrest ⊢
      rw [List.append_assoc, List.append_cancel_left_eq] at hcs
      exact .inr ⟨left ++ inside, List.append_assoc .., front, word, back, left, right, inside,
        hsegments.2, hcs, hrest, hinside, rfl⟩
  · rintro (hbefore | ⟨behind, rfl, hbehind⟩)
    · refine ⟨[], String.ofList content, segments, [], after, before, rfl, ?_, .nil, ?_, rfl⟩
      · rw [String.toList_ofList, List.nil_append]
      · rwa [String.toList_ofList]
    · obtain ⟨front, word, back, left, right, inside, rfl, rfl, hleft, hinside, rfl⟩ := hbehind
      refine ⟨.text (String.ofList content) :: front, word, back, content ++ left, right, inside,
        rfl, (List.append_assoc ..).symm, ?_, hinside, (List.append_assoc ..).symm⟩
      exact .text hne hcontent
        (fun c hc => hafter c (List.mem_head?_append_of_mem_head? hc)) hleft

/-- A group has no calls. -/
theorem callOutside_region_iff {inner blanks source : List Char} (base : Nat)
    (segments : List Segment) (after before : List Char) (hinner : Balanced inner)
    (hstrips : Strips inner blanks source) :
    CallOutside base ('[' :: (inner ++ ']' :: after))
        (.region (String.ofList source) (base + 1 + byteLength blanks) :: segments) before ↔
      ∃ behind, before = '[' :: (inner ++ ']' :: behind) ∧
        CallOutside (base + byteLength inner + 2) after segments behind := by
  constructor
  · rintro ⟨front, word, back, left, right, inside, hsegments, hcs, hleft, hinside, rfl⟩
    cases front with
    | nil => simp at hsegments
    | cons segment front =>
      rw [List.cons_append, List.cons.injEq] at hsegments
      rw [← hsegments.1] at hleft
      obtain ⟨inner', left, rfl, hinner', hrest⟩ := hleft.region_inv
      simp only [List.cons_append, List.append_assoc, List.cons.injEq, true_and] at hcs
      obtain ⟨rfl, hafter⟩ := group_inj hinner hinner' hcs
      exact ⟨left ++ inside, by simp, front, word, back, left, right, inside, hsegments.2, hafter,
        hrest, hinside, rfl⟩
  · rintro ⟨behind, rfl, front, word, back, left, right, inside, rfl, rfl, hleft, hinside, rfl⟩
    exact ⟨_ :: front, word, back, '[' :: (inner ++ ']' :: left), right, inside, rfl, by simp,
      .region hinner hstrips hleft, hinside, by simp⟩

/-- What the search finds in a text: its first call outside the regions, or nothing if it has none.
The character in front of the text does not count if a bracket comes first. -/
theorem Tiles.bareCall? (h : Tiles base cs segments) (previous : Option Char) (offset : Nat)
    (hprevious : ∀ c ∈ cs.head?, c ≠ '[' → Free previous) :
    (∃ before, IsFirst (CallOutside base cs segments) before ∧
      Segment.bareCall? 0 previous offset cs = some (offset + byteLength before)) ∨
    (∀ before, ¬ CallOutside base cs segments before) ∧
      Segment.bareCall? 0 previous offset cs = none := by
  induction h generalizing previous offset with
  | nil =>
    refine .inr ⟨?_, rfl⟩
    rintro before ⟨front, content, back, -, -, -, hnil, -⟩
    simp at hnil
  | @text base content after segments hne hcontent hafter _ ih =>
    have hfree : Free previous := by
      cases content with
      | nil => exact absurd rfl hne
      | cons c content => exact hprevious c rfl fun hc => hcontent (by simp [hc])
    have hiff {before} := callOutside_text_iff base segments before hne hcontent hafter
    rcases exists_isFirst_or_skips previous offset hcontent hafter with
      ⟨before, hfirst, hfound⟩ | ⟨hnone, hskips⟩
    · -- a call further on is behind the whole stretch
      have hcall := (callBehind_iff_of_free hfree).1 hfirst.mem
      refine .inl ⟨before, ⟨hiff.2 (.inl hcall), ?_⟩, hfound⟩
      intro other hother
      rcases hiff.1 hother with hother | ⟨behind, rfl, -⟩
      · exact hfirst.least other ((callBehind_iff_of_free hfree).2 hother)
      · obtain ⟨rest, rfl, -⟩ := hfirst.mem
        simp only [List.length_append]
        omega
    · rw [hskips]
      have hbehind : ∀ other, CallOutside base (content ++ after)
          (.text (String.ofList content) :: segments) other → ∃ rest, other = content ++ rest ∧
            CallOutside (base + byteLength content) after segments rest := by
        intro other hother
        exact (hiff.1 hother).resolve_left
          fun hcall => hnone other ((callBehind_iff_of_free hfree).2 hcall)
      rcases ih (content.getLast?.or previous) (offset + byteLength content)
        (fun c hc hne => absurd (hafter c hc) hne) with
        ⟨behind, hfirst, hfound⟩ | ⟨hnothing, hend⟩
      · refine .inl ⟨content ++ behind, hfirst.behind ?_ hbehind, ?_⟩
        · exact hiff.2 (.inr ⟨behind, rfl, hfirst.mem⟩)
        · rw [hfound, byteLength_append, Nat.add_assoc]
      · refine .inr ⟨fun other hother => ?_, hend⟩
        obtain ⟨rest, -, hrest⟩ := hbehind other hother
        exact hnothing rest hrest
  | @region base inner blanks source after segments hinner hstrips _ ih =>
    have hiff {before} := callOutside_region_iff base segments after before hinner hstrips
    rw [bareCall?_group hinner]
    rcases ih (some ']') (offset + byteLength inner + 2)
      (fun _ _ _ => joinsWord_eq_false_iff.1 rfl) with
      ⟨behind, hfirst, hfound⟩ | ⟨hnothing, hend⟩
    · refine .inl ⟨'[' :: (inner ++ [']']) ++ behind, hfirst.behind ?_ ?_, ?_⟩
      · exact hiff.2 ⟨behind, by simp, hfirst.mem⟩
      · intro other hother
        obtain ⟨rest, rfl, hrest⟩ := hiff.1 hother
        exact ⟨rest, by simp, hrest⟩
      · have hlength : byteLength ('[' :: (inner ++ [']']) ++ behind) =
            byteLength inner + 2 + byteLength behind := by
          simpa using byteLength_group inner behind
        rw [hfound, hlength, Nat.add_assoc, Nat.add_assoc, Nat.add_assoc]
    · refine .inr ⟨fun other hother => ?_, hend⟩
      obtain ⟨rest, -, hrest⟩ := hiff.1 hother
      exact hnothing rest hrest

/-- A text has a call outside its regions if one of its stretches has. -/
theorem Tiles.exists_callOutside_iff (h : Tiles base cs segments) :
    (∃ before, CallOutside base cs segments before) ↔
      ∃ content inside, .text content ∈ segments ∧ CallBehind none content.toList inside := by
  constructor
  · rintro ⟨-, front, content, back, -, -, inside, rfl, -, -, hinside, -⟩
    exact ⟨content, inside, by simp, hinside⟩
  · rintro ⟨content, inside, hmem, hinside⟩
    obtain ⟨front, back, rfl⟩ := List.append_of_mem hmem
    obtain ⟨left, right, rfl, hleft, hright⟩ := h.exists_append
    obtain ⟨after, rfl, -⟩ := hright.text_inv
    exact ⟨left ++ inside, front, content, back, left, after, inside, rfl, rfl, hleft, hinside, rfl⟩

theorem CallOutside.isPrefix {before : List Char} (h : CallOutside base cs segments before) :
    before <+: cs := by
  obtain ⟨-, content, -, left, right, inside, -, rfl, -, ⟨rest, hcontent, -⟩, rfl⟩ := h
  rw [hcontent]
  exact ⟨['c', 'a', 'l', 'l'] ++ rest ++ right, by simp⟩

theorem IsFirst.unique {places : List Char → Prop} {before before' : List Char}
    (h : IsFirst places before) (h' : IsFirst places before')
    (hplaces : ∀ other, places other → other <+: cs) : before = before' :=
  have hle := List.prefix_of_prefix_length_le (hplaces _ h.mem) (hplaces _ h'.mem)
    (h.least _ h'.mem)
  hle.eq_of_length_le (h'.least _ h.mem)

/-- The check for calls agrees with the splitting on what stands outside the regions. A text that
can be split is refused exactly if one of its stretches has the word `call`, and the first of these
words is the one that is named. -/
theorem refuseBareCalls_eq_error_iff {text : String} {base : Nat} {segments : List Segment}
    (h : split text base = .ok segments) (offset : Nat) :
    ((∃ e, refuseBareCalls text offset = .error e) ↔
        ∃ content inside, .text content ∈ segments ∧ CallBehind none content.toList inside) ∧
      ∀ e, refuseBareCalls text offset = .error e ↔
        ∃ before, IsFirst (CallOutside base text.toList segments) before ∧
          e = ⟨.bareCall, ⟨offset + byteLength before, offset + byteLength before + 4⟩, none⟩ := by
  have htiles := split_eq_ok_iff.1 h
  rw [← htiles.exists_callOutside_iff]
  rcases htiles.bareCall? none offset (fun _ _ _ => free_none) with
    ⟨before, hfirst, hfound⟩ | ⟨hnone, hend⟩
  · simp only [refuseBareCalls, hfound]
    refine ⟨⟨fun _ => ⟨before, hfirst.mem⟩, fun _ => ⟨_, rfl⟩⟩, fun e => ⟨?_, ?_⟩⟩
    · rintro ⟨⟩
      exact ⟨before, hfirst, rfl⟩
    · rintro ⟨before', hfirst', rfl⟩
      rw [hfirst.unique hfirst' fun _ => CallOutside.isPrefix]
  · simp only [refuseBareCalls, hend]
    refine ⟨⟨?_, ?_⟩, fun e => ⟨?_, ?_⟩⟩
    · rintro ⟨e, ⟨⟩⟩
    · rintro ⟨before, hbefore⟩
      exact absurd hbefore (hnone before)
    · rintro ⟨⟩
    · rintro ⟨before, hfirst, -⟩
      exact absurd hfirst.mem (hnone before)

/-- A stray bracket does not hide a call, a region and a letter in front of the word do. -/
theorem refuseBareCalls_eq_error_iff_stray : ∃ segments,
    split "é] recall[call f[]]call" 5 = .ok segments ∧
      refuseBareCalls "é] recall[call f[]]call" 7 = .error ⟨.bareCall, ⟨27, 31⟩, none⟩ ∧
      ∃ before, IsFirst (CallOutside 5 "é] recall[call f[]]call".toList segments) before ∧
        byteLength before = 20 := by
  have hsplit : split "é] recall[call f[]]call" 5 =
      .ok [.text "é] recall", .region "call f[]" 16, .text "call"] := by decide +kernel
  have hrefused : refuseBareCalls "é] recall[call f[]]call" 7 =
      .error ⟨.bareCall, ⟨27, 31⟩, none⟩ := by decide +kernel
  obtain ⟨before, hfirst, herror⟩ := ((refuseBareCalls_eq_error_iff hsplit 7).2 _).1 hrefused
  refine ⟨_, hsplit, hrefused, before, hfirst, ?_⟩
  have hspan := congrArg (fun e : Error => e.span.start) herror
  simp only at hspan
  omega

end Segment

end Resin
