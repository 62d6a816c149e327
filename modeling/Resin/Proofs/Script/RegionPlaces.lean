import Resin.Proofs.Script.WellFormed

/-!
# Where the regions of a text stand

A text is split into stretches of plain characters and regions. Every region is a stretch of the
text, and its offset tells where it begins, if the text itself begins where it is said to
(`Segment.placed_of_mem_split`). An opening bracket that nothing closes is reported at its own place
(`Segment.exists_bracket_of_split`).
-/

namespace Resin

open Text

namespace Text

theorem byteLength_trimStart_add (cs : List Char) :
    byteLength (cs.takeWhile isBlank) + byteLength (trimStart cs) = byteLength cs := by
  rw [trimStart, ← byteLength_append, List.takeWhile_append_dropWhile]

theorem trimEnd_prefix (cs : List Char) : trimEnd cs <+: cs := by
  unfold trimEnd
  rw [← List.reverse_suffix, List.reverse_reverse]
  exact List.dropWhile_suffix _

/-- What is left of a text stands behind its leading blanks. -/
theorem exists_trim (cs : List Char) :
    ∃ after, cs = cs.takeWhile isBlank ++ (trim cs ++ after) := by
  obtain ⟨after, hafter⟩ := trimEnd_prefix (trimStart cs)
  refine ⟨after, ?_⟩
  rw [trim, hafter, trimStart, List.takeWhile_append_dropWhile]

end Text

namespace Segment

/-- The closing bracket stands between the text before it and the text after it. -/
theorem eq_append_of_closing? {depth : Nat} {cs inner after : List Char}
    (h : closing? depth cs = some (inner, after)) (hdepth : depth ≠ 0) :
    cs = inner ++ ']' :: after := by
  induction cs generalizing depth inner with
  | nil => cases h
  | cons c cs ih =>
    rw [closing?] at h
    generalize hnext : (if c = '[' then depth + 1 else if c = ']' then depth - 1 else depth) = next
      at h
    by_cases hzero : next = 0
    · -- only a closing bracket brings the depth down
      have hc : c = ']' := by
        by_cases hopen : c = '['
        · rw [if_pos hopen] at hnext
          omega
        · by_cases hclose : c = ']'
          · exact hclose
          · rw [if_neg hopen, if_neg hclose] at hnext
            omega
      simp only [hzero, if_true, Option.some.injEq, Prod.mk.injEq] at h
      obtain ⟨rfl, rfl⟩ := h
      rw [hc, List.nil_append]
    · simp only [hzero, if_false] at h
      obtain ⟨⟨inner', after'⟩, hclosing, heq⟩ := Option.map_eq_some_iff.1 h
      simp only [Prod.mk.injEq] at heq
      obtain ⟨rfl, rfl⟩ := heq
      rw [List.cons_append, ← ih hclosing hzero]

/-- A stretch of a text that begins at `offset` stands where it says. -/
def Placed (offset : Nat) (cs : List Char) : Segment → Prop
  | .text content => content.toList <:+: cs
  | .region source start =>
    ∃ before after, cs = before ++ (source.toList ++ after) ∧ start = offset + byteLength before

/-- With more text in front, everything stands so much further on. -/
theorem Placed.behind {offset offset' : Nat} {front cs : List Char} {segment : Segment}
    (h : segment.Placed offset' cs) (hoffset : offset' = offset + byteLength front) :
    segment.Placed offset (front ++ cs) := by
  cases segment with
  | text content => exact h.trans (List.suffix_append front cs).isInfix
  | region source start =>
    obtain ⟨before, after, rfl, rfl⟩ := h
    refine ⟨front ++ before, after, ?_, ?_⟩
    · rw [List.append_assoc]
    · rw [byteLength_append]
      omega

theorem placed_plain {offset : Nat} {cs : List Char} (rest : List Char) :
    ∀ segment ∈ plain cs, segment.Placed offset (cs ++ rest) := by
  intro segment hsegment
  unfold plain at hsegment
  split at hsegment
  · cases hsegment
  · rw [List.mem_singleton.1 hsegment]
    show (String.ofList cs).toList <:+: cs ++ rest
    rw [String.toList_ofList]
    exact (List.prefix_append cs rest).isInfix

theorem placed_ofInner (offset : Nat) (inner rest : List Char) :
    (ofInner inner offset).Placed offset (inner ++ rest) := by
  obtain ⟨after, hinner⟩ := exists_trim inner
  have hlength := byteLength_trimStart_add inner
  refine ⟨inner.takeWhile isBlank, after ++ rest, ?_, ?_⟩
  · rw [String.toList_ofList, ← List.append_assoc, ← List.append_assoc, List.append_assoc _ _ after,
      ← hinner]
  · omega

/-- What splitting a text begins with: there is no bracket, or the first one is not closed, or it is
closed and splitting goes on behind the region. -/
inductive Splits (n offset : Nat) : List Char → Except Error (List Segment) → Prop
  | plain (literal : List Char) : Splits n offset literal (.ok (plain literal))
  | unmatched (literal rest : List Char) {at_ : Nat} : at_ = offset + byteLength literal →
    Splits n offset (literal ++ '[' :: rest)
      (.error ⟨.unmatchedBracket, ⟨at_, at_ + 1⟩, none⟩)
  | region (literal inner after : List Char) {at_ : Nat} : at_ = offset + byteLength literal →
    Splits n offset (literal ++ '[' :: (inner ++ ']' :: after)) (do
      let segments ← splitUpTo n (at_ + byteLength inner + 2) after
      pure (Segment.plain literal ++ ofInner inner (at_ + 1) :: segments))

theorem splits (n offset : Nat) (cs : List Char) :
    Splits n offset cs (splitUpTo (n + 1) offset cs) := by
  have hsplit := List.takeWhile_append_dropWhile (p := (· ≠ '[')) (l := cs)
  have hdrop : cs.drop (cs.takeWhile (· ≠ '[')).length = cs.dropWhile (· ≠ '[') := by
    have hright := congrArg (List.drop (cs.takeWhile (· ≠ '[')).length) hsplit
    rwa [List.drop_left, eq_comm] at hright
  have hhead : ∀ c, (cs.dropWhile (· ≠ '[')).head? = some c → c = '[' := by
    intro c hc
    have hnot := List.head?_dropWhile_not (· ≠ '[') cs
    rw [hc] at hnot
    simpa using hnot
  simp only [splitUpTo, hdrop]
  generalize cs.takeWhile (· ≠ '[') = literal at hsplit ⊢
  generalize cs.dropWhile (· ≠ '[') = rest at hsplit hhead ⊢
  subst hsplit
  cases rest with
  | nil =>
    rw [List.append_nil]
    exact .plain literal
  | cons c rest =>
    rw [hhead c rfl]
    cases hclosing : closing? 1 rest with
    | none =>
      simp only [hclosing]
      exact .unmatched literal rest rfl
    | some parts =>
      obtain ⟨inner, after⟩ := parts
      simp only [hclosing]
      rw [eq_append_of_closing? hclosing (by decide)]
      exact .region literal inner after rfl

theorem byteLength_region (literal inner after : List Char) :
    byteLength (literal ++ '[' :: (inner ++ ']' :: after)) =
      byteLength literal + byteLength inner + 2 + byteLength after := by
  simp only [byteLength_append, byteLength_cons]
  show _ + (1 + (_ + (1 + _))) = _
  omega

/-- Every stretch that a text is split into stands where it says. -/
theorem placed_of_mem_splitUpTo {n offset : Nat} {cs : List Char} {segments : List Segment}
    (h : splitUpTo n offset cs = .ok segments) :
    ∀ segment ∈ segments, segment.Placed offset cs := by
  induction n generalizing offset cs segments with
  | zero =>
    cases h
    exact List.forall_mem_nil _
  | succ n ih =>
    have hsplits := splits n offset cs
    generalize splitUpTo (n + 1) offset cs = result at h hsplits
    cases hsplits with
    | plain literal =>
      cases h
      have hplain := @placed_plain offset cs []
      rwa [List.append_nil] at hplain
    | unmatched literal rest hat => cases h
    | region literal inner after hat =>
      obtain ⟨rest, hrest, h⟩ := exists_of_bind_eq_ok h
      cases h
      refine List.forall_mem_append.2 ⟨placed_plain _, List.forall_mem_cons.2 ⟨?_, ?_⟩⟩
      · -- the region stands behind the bracket
        have hinner := placed_ofInner (offset + byteLength literal + 1) inner (']' :: after)
        rw [hat, ← List.singleton_append, ← List.append_assoc]
        exact hinner.behind (by rw [byteLength_append]; rfl)
      · intro segment hsegment
        have hbehind := ih hrest segment hsegment
        rw [hat] at hbehind
        have hfront : literal ++ '[' :: (inner ++ ']' :: after) =
            literal ++ '[' :: (inner ++ ']' :: []) ++ after := by simp
        rw [hfront]
        refine hbehind.behind ?_
        rw [byteLength_region, byteLength_nil]
        omega

/-- Every stretch that a text is split into stands where it says. -/
theorem placed_of_mem_split {text : String} {offset : Nat} {segments : List Segment}
    (h : split text offset = .ok segments) :
    ∀ segment ∈ segments, segment.Placed offset text.toList :=
  placed_of_mem_splitUpTo h

/-- A text that cannot be split has an opening bracket at the place that the error names. -/
theorem exists_bracket_of_splitUpTo {n offset : Nat} {cs : List Char} {e : Error}
    (h : splitUpTo n offset cs = .error e) :
    ∃ before after, cs = before ++ '[' :: after ∧ e =
      ⟨.unmatchedBracket, ⟨offset + byteLength before, offset + byteLength before + 1⟩, none⟩ := by
  induction n generalizing offset cs with
  | zero => cases h
  | succ n ih =>
    have hsplits := splits n offset cs
    generalize splitUpTo (n + 1) offset cs = result at h hsplits
    cases hsplits with
    | plain literal => cases h
    | unmatched literal rest hat =>
      cases h
      exact ⟨literal, rest, rfl, by rw [hat]⟩
    | region literal inner after hat =>
      cases hrest : splitUpTo n (_ + byteLength inner + 2) after with
      | ok rest =>
        rw [hrest] at h
        cases h
      | error e' =>
        rw [hrest] at h
        cases h
        obtain ⟨before, behind, rfl, rfl⟩ := ih hrest
        refine ⟨literal ++ '[' :: (inner ++ ']' :: before), behind, by simp, ?_⟩
        have hplace : offset + byteLength literal + byteLength inner + 2 + byteLength before =
            offset + (byteLength literal + byteLength inner + 2 + byteLength before) := by omega
        rw [byteLength_region, hat, hplace]

theorem exists_bracket_of_split {text : String} {offset : Nat} {e : Error}
    (h : split text offset = .error e) :
    ∃ before after, text.toList = before ++ '[' :: after ∧
      e = ⟨.unmatchedBracket, ⟨offset + byteLength before, offset + byteLength before + 1⟩, none⟩ :=
  exists_bracket_of_splitUpTo h

end Segment

end Resin
