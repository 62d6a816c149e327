import Resin.Parse.Basic

/-!
# Passing tokens

A parse that succeeds has passed a stretch of tokens. `ParseState.Passes` says which: from one state
to another, exactly these tokens were passed, none of them the end of the file. Each primitive parse
is described by the tokens it passes, in both directions, so that what a larger parse accepts can be
read off its definition step by step.

* `extent`, the span from the start of the first token of a stretch to the end of its last one;
* `Passes` with its laws: stretches join, and of two from one state one goes on with the other;
* `remaining`, the number of tokens left, which every passed token lowers and every budget exceeds;
* the primitives (`expect_done_iff`, `name_done_iff`, …) and the loops (`manyUpTo_done`, …).
-/

namespace Resin

/-! ## Stretches of tokens -/

/-- The span from the start of the first token to the end of the last one. -/
def extent (ts : List (Located Token)) : Span :=
  ⟨(ts.head?.map fun t => t.span.start).getD 0, (ts.getLast?.map fun t => t.span.stop).getD 0⟩

@[simp] theorem extent_concat_stop (ts : List (Located Token)) (t : Located Token) :
    (extent (ts ++ [t])).stop = t.span.stop := by
  simp [extent]

/-- A keyword at a place. -/
abbrev kw (k : Keyword) (span : Span) : Located Token := ⟨.keyword k, span⟩

/-- A symbol at a place. -/
abbrev sym (s : Symbol) (span : Span) : Located Token := ⟨.symbol s, span⟩

/-- A name at a place. -/
abbrev word (name : String) (span : Span) : Located Token := ⟨.name name, span⟩

namespace ParseState

/-- From `s`, passing the tokens `ts` one after the other leads to `t`. -/
inductive Passes : ParseState → List (Located Token) → ParseState → Prop
  | nil {s : ParseState} : Passes s [] s
  | cons {s u t : ParseState} {token : Located Token} {ts : List (Located Token)} :
    token.value ≠ .endOfFile → Parse.advance s = .done token u → Passes u ts t →
    Passes s (token :: ts) t

/-- The number of tokens from the current one on, the end of the file apart. -/
def remaining (s : ParseState) : Nat :=
  if s.current.value = .endOfFile then 0 else s.ahead.items.length + 1

theorem remaining_lt_budget (s : ParseState) : s.remaining < s.budget := by
  unfold remaining budget
  split <;> omega

/-- Passing a token makes the next outcome current and keeps where the passed one ended. -/
theorem advance_done_iff {s t : ParseState} {token : Located Token} :
    Parse.advance s = .done token t ↔
      token = s.current ∧ s.ahead.next = (.ok t.current, t.ahead) ∧
        t.lastStop = s.current.span.stop := by
  obtain ⟨current, ahead, lastStop⟩ := t
  simp only [Parse.advance]
  rcases hnext : s.ahead.next with ⟨outcome | outcome, rest⟩
  · simp
  · simp only [Reply.done.injEq, ParseState.mk.injEq, Prod.mk.injEq, Except.ok.injEq]
    constructor
    · rintro ⟨rfl, rfl, rfl, rfl⟩
      exact ⟨rfl, ⟨rfl, rfl⟩, rfl⟩
    · rintro ⟨rfl, ⟨rfl, rfl⟩, rfl⟩
      exact ⟨rfl, rfl, rfl, rfl⟩

theorem remaining_lt_of_advance {s t : ParseState} {token : Located Token}
    (hne : token.value ≠ .endOfFile) (h : Parse.advance s = .done token t) :
    t.remaining < s.remaining := by
  obtain ⟨rfl, hnext, -⟩ := advance_done_iff.1 h
  simp only [remaining, hne, if_false]
  unfold Stream.next at hnext
  split at hnext
  · -- past the last outcome only the end of the file comes
    next hitems =>
    simp only [Prod.mk.injEq, Except.ok.injEq] at hnext
    have hend : t.current.value = .endOfFile := by rw [← hnext.1]; rfl
    rw [if_pos hend]
    omega
  · next hitems =>
    simp only [Prod.mk.injEq] at hnext
    rw [hitems, ← hnext.2, List.length_cons]
    dsimp only
    split <;> omega

namespace Passes

variable {s t u : ParseState} {token : Located Token} {ts us : List (Located Token)}

@[simp] theorem nil_iff : s.Passes [] t ↔ s = t :=
  ⟨fun h => by cases h; rfl, fun h => h ▸ .nil⟩

theorem cons_iff : s.Passes (token :: ts) t ↔
    token.value ≠ .endOfFile ∧ ∃ u, Parse.advance s = .done token u ∧ u.Passes ts t := by
  constructor
  · rintro (_ | ⟨hne, ha, hts⟩)
    exact ⟨hne, _, ha, hts⟩
  · rintro ⟨hne, u, ha, hts⟩
    exact .cons hne ha hts

theorem singleton_iff : s.Passes [token] t ↔
    token.value ≠ .endOfFile ∧ Parse.advance s = .done token t := by
  simp [cons_iff]

/-- Two stretches join to one, and one can be cut anywhere. -/
theorem append_iff : s.Passes (ts ++ us) t ↔ ∃ u, s.Passes ts u ∧ u.Passes us t := by
  induction ts generalizing s with
  | nil => simp
  | cons token ts ih =>
    simp only [List.cons_append, cons_iff, ih]
    grind

theorem trans (h₁ : s.Passes ts u) (h₂ : u.Passes us t) : s.Passes (ts ++ us) t :=
  append_iff.2 ⟨u, h₁, h₂⟩

/-- The first token of a stretch is passed first. -/
theorem uncons (h : s.Passes (token :: ts) t) : ∃ u, s.Passes [token] u ∧ u.Passes ts t :=
  append_iff.1 (show s.Passes ([token] ++ ts) t from h)

/-- The first token of a stretch is the current one. -/
theorem current_eq (h : s.Passes (token :: ts) t) : s.current = token := by
  obtain ⟨-, u, ha, -⟩ := cons_iff.1 h
  exact (advance_done_iff.1 ha).1.symm

/-- Of two stretches from one state, one goes on where the other ends. -/
theorem split (h₁ : s.Passes ts t) (h₂ : s.Passes us u) :
    (∃ vs, us = ts ++ vs ∧ t.Passes vs u) ∨ ∃ vs, ts = us ++ vs ∧ u.Passes vs t := by
  induction h₁ generalizing us with
  | nil => exact .inl ⟨us, rfl, h₂⟩
  | @cons s r t token ts hne ha hts ih =>
    cases us with
    | nil =>
      obtain rfl := nil_iff.1 h₂
      exact .inr ⟨token :: ts, rfl, .cons hne ha hts⟩
    | cons token' us =>
      obtain ⟨-, r', ha', hus⟩ := cons_iff.1 h₂
      rw [ha, Reply.done.injEq] at ha'
      obtain ⟨rfl, rfl⟩ := ha'
      rcases ih hus with ⟨vs, rfl, hvs⟩ | ⟨vs, rfl, hvs⟩
      · exact .inl ⟨vs, rfl, hvs⟩
      · exact .inr ⟨vs, rfl, hvs⟩

/-- Every passed token lowers the number of tokens left. -/
theorem length_add_remaining_le (h : s.Passes ts t) :
    ts.length + t.remaining ≤ s.remaining := by
  induction h with
  | nil => simp
  | cons hne ha _ ih =>
    have hlt := remaining_lt_of_advance hne ha
    simp only [List.length_cons]
    omega

theorem lastStop_eq (h : s.Passes ts t) (hts : ts ≠ []) : t.lastStop = (extent ts).stop := by
  obtain ⟨init, last, rfl⟩ := (List.eq_nil_or_concat ts).resolve_left hts
  rw [List.concat_eq_append] at h ⊢
  obtain ⟨u, -, hlast⟩ := append_iff.1 h
  have hu := (advance_done_iff.1 (singleton_iff.1 hlast).2)
  rw [extent_concat_stop, hu.2.2, ← hu.1]

/-- The extent of a passed stretch, as a parse computes it: from the start of the token that was
current before to the end of the last token passed. -/
theorem extent_eq (h : s.Passes ts t) (hts : ts ≠ []) :
    extent ts = ⟨s.current.span.start, t.lastStop⟩ := by
  cases ts with
  | nil => exact absurd rfl hts
  | cons token ts =>
    rw [h.lastStop_eq hts, h.current_eq]
    rfl

end Passes

end ParseState

namespace Parse

open ParseState

variable {α β : Type} {s t : ParseState}

/-! ## Primitive parses -/

@[simp] theorem peek_apply (s : ParseState) : peek s = .done s.current.value s := rfl

@[simp] theorem here_apply (s : ParseState) : here s = .done s.current.span s := rfl

@[simp] theorem lastStop_apply (s : ParseState) : lastStop s = .done s.lastStop s := rfl

@[simp] theorem isAt_apply (token : Token) (s : ParseState) :
    isAt token s = .done (s.current.value == token) s := rfl

theorem isAt_state {token : Token} {b : Bool} (h : isAt token s = .done b t) : t = s := by
  rw [isAt_apply, Reply.done.injEq] at h
  exact h.2.symm

theorem current_of_isAt {token : Token} (h : isAt token s = .done true t) :
    s.current.value = token := by
  rw [isAt_apply, Reply.done.injEq, beq_iff_eq] at h
  exact h.1

@[simp] theorem withBudget_apply (p : Nat → Parse α) (s : ParseState) :
    withBudget p s = p s.budget s := rfl

@[simp] theorem fail_ne_done {cause : Cause} {span : Span} {a : α} :
    fail cause span s ≠ .done a t := by
  simp [fail]

@[simp] theorem failHere_ne_done {cause : Token → Cause} {a : α} :
    failHere cause s ≠ .done a t := by
  simp [failHere]

@[simp] theorem exhausted_ne_done {a : α} : exhausted s ≠ .done a t :=
  failHere_ne_done

/-- A first part that succeeds hands its value and its state to the second. -/
theorem bind_of_done {p : Parse α} {f : α → Parse β} {a : α} (h : p s = .done a t) :
    (p >>= f) s = f a t := by
  rw [bind_apply, h]

@[simp] theorem hinting_done_iff {hint : Hint} {p : Parse α} {a : α} :
    hinting hint p s = .done a t ↔ p s = .done a t := by
  simp only [hinting]
  cases p s <;> simp

theorem attempt_of_done {p : Parse α} {a : α} (h : p s = .done a t) :
    attempt p s = .done (some a) t := by
  simp [attempt, h]

theorem attempt_eq_some {p : Parse α} {a : α} (h : attempt p s = .done (some a) t) :
    p s = .done a t := by
  simp only [attempt] at h
  cases hp : p s <;> simp_all

theorem attempt_eq_none {p : Parse α} (h : attempt p s = .done none t) : t = s := by
  simp only [attempt] at h
  cases hp : p s <;> simp_all

theorem attempt_of_not_done {p : Parse α} (h : ∀ a t, p s ≠ .done a t) :
    attempt p s = .done none s := by
  simp only [attempt]
  cases hp : p s with
  | done a t => exact absurd hp (h a t)
  | failed e t => rfl

/-- Passing whatever token is current. -/
theorem advance_of_passes {token : Located Token} (h : s.Passes [token] t) :
    advance s = .done token t :=
  (Passes.singleton_iff.1 h).2

/-- The token behind a passed one can be looked at before. -/
theorem lookahead_of_passes {token : Located Token} (h : s.Passes [token] t) :
    lookahead s = .done t.current.value s := by
  have hnext := (advance_done_iff.1 (advance_of_passes h)).2.1
  simp [lookahead, hnext]

/-- Looking ahead moves nothing. -/
theorem lookahead_state {value : Token} (h : lookahead s = .done value t) : t = s := by
  simp only [lookahead] at h
  split at h <;> simp_all

/-- What was passed, when the kind of the current token is known. -/
theorem passes_of_advance {token : Located Token} {value : Token} (h : advance s = .done token t)
    (hval : s.current.value = value) (hne : value ≠ .endOfFile) :
    s.Passes [⟨value, token.span⟩] t := by
  obtain ⟨rfl, -⟩ := advance_done_iff.1 h
  subst hval
  exact Passes.singleton_iff.2 ⟨hne, h⟩

/-- Passing an expected token. -/
theorem expect_done_iff {expected : Token} {span : Span} (hne : expected ≠ .endOfFile) :
    expect expected s = .done span t ↔ s.Passes [⟨expected, span⟩] t := by
  simp only [expect, bind_eq_done_iff, isAt_apply, Reply.done.injEq]
  constructor
  · rintro ⟨_, _, ⟨rfl, rfl⟩, h⟩
    split at h
    · next heq =>
      simp only [bind_eq_done_iff, pure_apply, Reply.done.injEq] at h
      obtain ⟨token, _, ha, rfl, rfl⟩ := h
      exact passes_of_advance ha (beq_iff_eq.1 heq) hne
    · exact absurd h failHere_ne_done
  · intro h
    have hval : s.current.value = expected := by rw [h.current_eq]
    refine ⟨_, _, ⟨rfl, rfl⟩, ?_⟩
    rw [if_pos (beq_iff_eq.2 hval), bind_of_done (advance_of_passes h)]
    rfl

@[simp] theorem symbol_done_iff {x : Symbol} {span : Span} :
    symbol x s = .done span t ↔ s.Passes [sym x span] t :=
  expect_done_iff (by simp)

@[simp] theorem keyword_done_iff {k : Keyword} {span : Span} :
    keyword k s = .done span t ↔ s.Passes [kw k span] t :=
  expect_done_iff (by simp)

/-- Passing a name. -/
@[simp] theorem name_done_iff {role : NameRole} {found : Located String} :
    name role s = .done found t ↔ s.Passes [word found.value found.span] t := by
  simp only [name, bind_eq_done_iff, peek_apply, Reply.done.injEq]
  constructor
  · rintro ⟨_, _, ⟨rfl, rfl⟩, h⟩
    generalize heq : s.current.value = value at h
    split at h
    · simp only [bind_eq_done_iff, pure_apply, Reply.done.injEq] at h
      obtain ⟨token, _, ha, rfl, rfl⟩ := h
      exact passes_of_advance ha heq (by simp)
    · exact absurd h failHere_ne_done
  · intro h
    refine ⟨_, _, ⟨rfl, rfl⟩, ?_⟩
    rw [h.current_eq]
    exact bind_of_done (advance_of_passes h)

/-! ## Loops -/

section Loops

variable {more : Parse Bool} {item : Parse α} {a : α} {as : List α} {n : Nat}

theorem manyUpTo_stop (hmore : more s = .done false s) :
    manyUpTo more item (n + 1) s = .done [] s := by
  rw [manyUpTo, bind_of_done hmore]
  rfl

theorem manyUpTo_step {u : ParseState} (hmore : more s = .done true s) (hitem : item s = .done a u)
    (hrest : manyUpTo more item n u = .done as t) :
    manyUpTo more item (n + 1) s = .done (a :: as) t := by
  rw [manyUpTo, bind_of_done hmore, if_pos rfl, bind_of_done hitem, bind_of_done hrest]
  rfl

/-- A loop passes one stretch after the other. If each stretch that `item` passes is in `G`, and
`L` holds of the empty stretch and of a stretch in `G` before one in `L`, then what the loop passes
is in `L`; and the loop ends where `more` fails. -/
theorem manyUpTo_sound {G : List (Located Token) → α → Prop}
    {L : List (Located Token) → List α → Prop}
    (hmore : ∀ u b v, more u = .done b v → v = u)
    (hitem : ∀ u a v, more u = .done true u → item u = .done a v → ∃ ts, u.Passes ts v ∧ G ts a)
    (nil : L [] []) (cons : ∀ ts a us as, G ts a → L us as → L (ts ++ us) (a :: as))
    (h : manyUpTo more item n s = .done as t) :
    ∃ ts, s.Passes ts t ∧ L ts as ∧ more t = .done false t := by
  induction n generalizing s as with
  | zero => exact absurd h exhausted_ne_done
  | succ n ih =>
    simp only [manyUpTo, bind_eq_done_iff] at h
    obtain ⟨b, u, hb, h⟩ := h
    obtain rfl := hmore _ _ _ hb
    cases b with
    | false =>
      simp only [Bool.false_eq_true, if_false, pure_apply, Reply.done.injEq] at h
      obtain ⟨rfl, rfl⟩ := h
      exact ⟨[], .nil, nil, hb⟩
    | true =>
      simp only [if_true, bind_eq_done_iff, pure_apply, Reply.done.injEq] at h
      obtain ⟨first, v, hfirst, rest, w, hrest, rfl, rfl⟩ := h
      obtain ⟨ts, hts, hG⟩ := hitem _ _ _ hb hfirst
      obtain ⟨us, hus, hL, hend⟩ := ih hrest
      exact ⟨ts ++ us, hts.trans hus, cons _ _ _ _ hG hL, hend⟩

/-- What a list with commas passes: nothing in front of the closing symbol, or items with a comma
between each two. -/
theorem commaList_sound {close : Symbol} {G : List (Located Token) → α → Prop}
    {L : List (Located Token) → List α → Prop}
    (hitem : ∀ u a v, item u = .done a v → ∃ ts, u.Passes ts v ∧ G ts a)
    (nil : L [] []) (one : ∀ ts a, G ts a → L ts [a])
    (more : ∀ ts a c us as, G ts a → as ≠ [] → L us as → L (ts ++ sym .comma c :: us) (a :: as))
    (h : commaList close item s = .done as t) : ∃ ts, s.Passes ts t ∧ L ts as := by
  simp only [commaList, bind_eq_done_iff, isAt_apply, Reply.done.injEq] at h
  obtain ⟨_, _, ⟨rfl, rfl⟩, h⟩ := h
  split at h
  · simp only [pure_apply, Reply.done.injEq] at h
    obtain ⟨rfl, rfl⟩ := h
    exact ⟨[], .nil, nil⟩
  · simp only [bind_eq_done_iff, pure_apply, Reply.done.injEq, many, withBudget_apply] at h
    obtain ⟨first, u, hfirst, rest, v, hrest, rfl, rfl⟩ := h
    obtain ⟨ts, hts, hG⟩ := hitem _ _ _ hfirst
    have hnext : ∀ u a v, isAt (.symbol .comma) u = .done true u →
        (advance >>= fun _ => item) u = .done a v →
        ∃ us, u.Passes us v ∧ ∃ c ts, us = sym .comma c :: ts ∧ G ts a := by
      intro u a v hat hv
      obtain ⟨token, w, htoken, hv⟩ := bind_eq_done_iff.1 hv
      obtain ⟨ts, hts, hG⟩ := hitem _ _ _ hv
      have hcomma := passes_of_advance htoken (current_of_isAt hat) (by simp)
      exact ⟨_, hcomma.trans hts, _, ts, rfl, hG⟩
    -- the tail is described by what it becomes behind a first item
    have hcons : ∀ us a vs as, (∃ c ts, us = sym .comma c :: ts ∧ G ts a) →
        (∀ ts a, G ts a → L (ts ++ vs) (a :: as)) →
        ∀ ts a', G ts a' → L (ts ++ (us ++ vs)) (a' :: a :: as) := by
      intro us a vs as hus hL ts' a' hG'
      obtain ⟨c, ts, rfl, hG⟩ := hus
      exact more _ _ _ _ _ hG' (List.cons_ne_nil _ _) (hL ts a hG)
    obtain ⟨us, hus, hL, -⟩ := manyUpTo_sound
      (L := fun us as => ∀ ts a, G ts a → L (ts ++ us) (a :: as))
      (fun _ _ _ => isAt_state) hnext
      (fun ts a hG => by rw [List.append_nil]; exact one ts a hG) hcons hrest
    exact ⟨ts ++ us, hts.trans hus, hL ts first hG⟩

/-- From `s`, a nonempty list of items with commas between them is read up to `t`. -/
def ReadsItems (item : Parse α) (s : ParseState) (as : List α) (t : ParseState) : Prop :=
  ∃ first rest u, as = first :: rest ∧ item s = .done first u ∧ u.remaining ≤ s.remaining ∧
    ∀ n, u.remaining < n →
      manyUpTo (isAt (.symbol .comma)) (do let _ ← advance; item) n u = .done rest t

theorem ReadsItems.one (hitem : item s = .done a t) (hle : t.remaining ≤ s.remaining)
    (hend : t.current.value ≠ .symbol .comma) : ReadsItems item s [a] t := by
  refine ⟨a, [], t, rfl, hitem, hle, fun n hn => ?_⟩
  obtain ⟨n, rfl⟩ := Nat.exists_eq_succ_of_ne_zero (n := n) (by omega)
  exact manyUpTo_stop (by simp [hend])

theorem ReadsItems.cons {u v : ParseState} {span : Span} (hitem : item s = .done a u)
    (hle : u.remaining ≤ s.remaining) (hcomma : u.Passes [sym .comma span] v)
    (hrest : ReadsItems item v as t) : ReadsItems item s (a :: as) t := by
  obtain ⟨first, rest, w, rfl, hfirst, hle', hmany⟩ := hrest
  have hlt := hcomma.length_add_remaining_le
  refine ⟨a, first :: rest, u, rfl, hitem, hle, fun n hn => ?_⟩
  simp only [List.length_singleton] at hlt
  obtain ⟨n, rfl⟩ := Nat.exists_eq_succ_of_ne_zero (n := n) (by omega)
  refine manyUpTo_step (by simp [hcomma.current_eq]) ?_ (hmany n (by omega))
  rw [bind_of_done (advance_of_passes hcomma)]
  exact hfirst

theorem ReadsItems.commaList {close : Symbol} (h : ReadsItems item s as t)
    (hat : s.current.value ≠ .symbol close) : commaList close item s = .done as t := by
  obtain ⟨first, rest, u, rfl, hfirst, -, hmany⟩ := h
  have hrest : many (isAt (.symbol .comma)) (do let _ ← advance; item) u = .done rest t :=
    hmany _ u.remaining_lt_budget
  rw [Parse.commaList, bind_of_done (isAt_apply _ s), if_neg (by simpa using hat),
    bind_of_done hfirst, bind_of_done hrest]
  rfl

theorem commaList_of_close {close : Symbol} (hat : s.current.value = .symbol close) :
    commaList close item s = .done [] s := by
  rw [commaList, bind_of_done (isAt_apply _ s), if_pos (by simpa using hat)]
  rfl

end Loops

end Parse

end Resin
