import Mathlib.Logic.Function.Iterate
import Resin.Proofs.Parse.Passing

/-!
# Parses come to an end

The loops and the nested calls of a parse run on budgets. No source uses one up, since each round of
a loop and each nested call stands behind a token that was passed for it.

* `Gains d s reply`: since `s`, `d` tokens or more were passed, or the parse has failed, and not for
  want of budget.
* `Alike d n p q`: from states with less than `n` tokens left, `p` and `q` end alike and gain `d`
  tokens. Behind a token there are less than `n` left where there were less than `n + 1`, so what
  stands there need only be alike for `n` (`Alike.front`). In this way each parse that calls `sub`
  behind its first token is alike for `n + 1` if `sub` is for `n`.
* `Resolves F f`: the recursion `F` has the solution `f` and comes to an end. Unrolled more often
  than there are tokens left it gives `f`, whatever parse is put in for the calls further down, so
  none of those is made. Every loop and every recursion of the parser is of this kind.
-/

namespace Resin

namespace Stream

variable {stream ahead : Stream} {outcome : Outcome}

/-- All errors are errors of reading. -/
def Lexed (stream : Stream) : Prop :=
  ∀ e, .error e ∈ stream.items → e.cause.stage = .lexical

theorem mem_of_next (h : stream.next = (outcome, ahead)) :
    (∀ e, outcome = .error e → .error e ∈ stream.items) ∧
      ∀ x ∈ ahead.items, x ∈ stream.items := by
  unfold next at h
  split at h
  · cases h
    refine ⟨fun e he => ?_, fun _ hx => hx⟩
    cases he
  · next hitems =>
    cases h
    rw [hitems]
    exact ⟨fun e he => he ▸ List.mem_cons_self .., fun x hx => List.mem_cons_of_mem _ hx⟩

theorem Lexed.of_passes {s t : ParseState} {ts : List (Located Token)} (hs : s.ahead.Lexed)
    (h : s.Passes ts t) : t.ahead.Lexed := by
  induction h with
  | nil => exact hs
  | cons _ ha _ ih =>
    have hmem := (mem_of_next (ParseState.advance_done_iff.1 ha).2.1).2
    exact ih fun e he => hs e (hmem _ he)

/-- An error that comes next is one of reading, and so is not the lack of a budget. -/
theorem Lexed.cause_ne {e : Error} (hs : stream.Lexed) (h : stream.next = (.error e, ahead)) :
    e.cause ≠ .tooDeep := by
  have hlexical := hs e ((mem_of_next h).1 e rfl)
  intro heq
  rw [heq] at hlexical
  cases hlexical

end Stream

namespace Parse

open ParseState

variable {α β ι : Type} {d d' n : Nat} {s t : ParseState}

/-! ## Gaining tokens -/

/-- Since `s`, `d` tokens or more were passed, or the parse has failed; and if only errors of
reading were ahead, then not for want of budget. -/
inductive Gains (d : Nat) (s : ParseState) : Reply α → Prop
  | done {a : α} {ts : List (Located Token)} {t : ParseState} :
    s.Passes ts t → d ≤ ts.length → Gains d s (.done a t)
  | failed {e : Error} {t : ParseState} :
    (s.ahead.Lexed → e.cause ≠ .tooDeep) → Gains d s (.failed e t)

theorem Gains.mono {reply : Reply α} (h : Gains d s reply) (hd : d' ≤ d) : Gains d' s reply := by
  cases h with
  | done hts hlen => exact .done hts (Nat.le_trans hd hlen)
  | failed he => exact .failed he

/-- What is gained behind tokens that were passed is gained on top of them. -/
theorem Gains.behind {ts : List (Located Token)} {reply : Reply α} (hts : s.Passes ts t)
    (hd : d ≤ ts.length) (h : Gains d' t reply) : Gains (d + d') s reply := by
  cases h with
  | done hus hlen =>
    refine .done (hts.trans hus) ?_
    rw [List.length_append]
    omega
  | failed he => exact .failed fun hs => he (hs.of_passes hts)

/-- At `s`, the two parses end alike, `d` tokens further on. -/
def AlikeAt (s : ParseState) (d : Nat) (p q : Parse α) : Prop :=
  p s = q s ∧ Gains d s (q s)

/-- From every state with less than `n` tokens left, the two parses end alike, `d` tokens further
on. -/
def Alike (d n : Nat) (p q : Parse α) : Prop :=
  ∀ s : ParseState, s.remaining < n → AlikeAt s d p q

theorem AlikeAt.mono {p q : Parse α} (h : AlikeAt s d p q) (hd : d' ≤ d) : AlikeAt s d' p q :=
  ⟨h.1, h.2.mono hd⟩

/-- Two sequences are alike if their first parts are, and their second parts where these end. -/
theorem AlikeAt.bind {p q : Parse α} {f g : α → Parse β} (hp : AlikeAt s d p q)
    (hf : ∀ a t, q s = .done a t → t.remaining + d ≤ s.remaining → AlikeAt t d' (f a) (g a)) :
    AlikeAt s (d + d') (p >>= f) (q >>= g) := by
  obtain ⟨heq, hgain⟩ := hp
  unfold AlikeAt
  rw [bind_apply, bind_apply, heq]
  generalize hreply : q s = reply at hgain
  cases hgain with
  | failed he => exact ⟨rfl, .failed he⟩
  | @done a ts t hts hd =>
    have hle := hts.length_add_remaining_le
    obtain ⟨heq, hgain⟩ := hf a t hreply (by omega)
    exact ⟨heq, hgain.behind hts hd⟩

/-- A sequence gains what its second part does. -/
theorem AlikeAt.seq {p q : Parse α} {f g : α → Parse β} (hp : AlikeAt s d p q)
    (hf : ∀ a t, q s = .done a t → t.remaining + d ≤ s.remaining → AlikeAt t d' (f a) (g a)) :
    AlikeAt s d' (p >>= f) (q >>= g) :=
  (hp.bind hf).mono (Nat.le_add_left d' d)

namespace Alike

variable {p q : Parse α} {f g : α → Parse β}

theorem mono {n' : Nat} (h : Alike d n p q) (hd : d' ≤ d) (hn : n' ≤ n) : Alike d' n' p q :=
  fun s hs => (h s (Nat.lt_of_lt_of_le hs hn)).mono hd

/-- Two parses that stand behind a token. -/
theorem behind (h : Alike 1 (n + 1) p q) : Alike 0 n p q :=
  h.mono (Nat.zero_le 1) (Nat.le_succ n)

theorem seq (hp : Alike d n p q) (hf : ∀ a, Alike d' n (f a) (g a)) :
    Alike d' n (p >>= f) (q >>= g) :=
  fun s hs => (hp s hs).seq fun a t _ ht => hf a t (by omega)

/-- Behind a token there is one token less, so the second part need be alike for one less. -/
theorem front (hp : Alike 1 (n + 1) p q) (hf : ∀ a, Alike 0 n (f a) (g a)) :
    Alike 1 (n + 1) (p >>= f) (q >>= g) :=
  fun s hs => (hp s hs).bind fun a t _ ht => hf a t (by omega)

/-- A sequence gains what its first part does. -/
theorem gain (hp : Alike 1 n p q) (hf : ∀ a, Alike 0 n (f a) (g a)) :
    Alike 1 n (p >>= f) (q >>= g) :=
  fun s hs => (hp s hs).bind fun a t _ ht => hf a t (by omega)

theorem pure {a : α} : Alike 0 n (pure a : Parse α) (pure a) :=
  fun _ _ => ⟨rfl, .done .nil (Nat.le_refl 0)⟩

theorem fail {cause : Cause} {span : Span} (h : cause ≠ .tooDeep) :
    Alike d n (fail cause span : Parse α) (fail cause span) :=
  fun _ _ => ⟨rfl, .failed fun _ => h⟩

theorem failHere {cause : Token → Cause} (h : ∀ token, cause token ≠ .tooDeep) :
    Alike d n (failHere cause : Parse α) (failHere cause) :=
  fun s _ => ⟨rfl, .failed fun _ => h s.current.value⟩

theorem hinting {hint : Hint} (hp : Alike d n p q) :
    Alike d n (hinting hint p) (hinting hint q) := by
  intro s hs
  obtain ⟨heq, hgain⟩ := hp s hs
  unfold AlikeAt Parse.hinting
  rw [heq]
  generalize q s = reply at hgain
  cases hgain with
  | done hts hd => exact ⟨rfl, .done hts hd⟩
  | failed he => exact ⟨rfl, .failed he⟩

/-- What is attempted is behind a token if it succeeds, and else nothing was passed. -/
theorem attempt {f g : Option α → Parse β} (hp : Alike 1 (n + 1) p p)
    (hsome : ∀ a, Alike 0 n (f (some a)) (g (some a))) (hnone : Alike 1 (n + 1) (f none) (g none)) :
    Alike 1 (n + 1) (attempt p >>= f) (attempt p >>= g) := by
  intro s hs
  have hgain := (hp s hs).2
  unfold AlikeAt
  rw [bind_apply, bind_apply]
  unfold Parse.attempt
  generalize p s = reply at hgain
  cases hgain with
  -- nothing tells that the attempt was made, so the parses go on from `s` itself
  | failed he => exact hnone s hs
  | @done a ts t hts hd =>
    have hle := hts.length_add_remaining_le
    obtain ⟨heq, hgain⟩ := hsome a t (by omega)
    exact ⟨heq, hgain.behind hts hd⟩

/-- Two parses that go by the current token are alike if they are at every token. -/
theorem atCurrent {f g : Token → Parse α}
    (h : ∀ s : ParseState, s.remaining < n → AlikeAt s d (f s.current.value) (g s.current.value)) :
    Alike d n (peek >>= f) (peek >>= g) :=
  h

/-- Two parses that go by whether a token stands here are alike if they are in both cases. -/
theorem ifAt {token : Token} {p' q' : Parse α}
    (hat : ∀ s : ParseState, s.remaining < n → s.current.value = token → AlikeAt s d p q)
    (helse : Alike d n p' q') :
    Alike d n (do if ← isAt token then p else p') (do if ← isAt token then q else q') := by
  intro s hs
  change AlikeAt s d (if s.current.value == token then p else p')
    (if s.current.value == token then q else q')
  split
  · next heq => exact hat s hs (beq_iff_eq.1 heq)
  · exact helse s hs

end Alike

/-! ## Primitive parses -/

/-- A parse that only looks at the state passes nothing. -/
theorem Alike.look (f : ParseState → α) :
    Alike 0 n (fun s => .done (f s) s) (fun s => .done (f s) s) :=
  fun _ _ => ⟨rfl, .done .nil (Nat.le_refl 0)⟩

theorem alike_peek : Alike 0 n peek peek :=
  .look fun s => s.current.value

theorem alike_here : Alike 0 n here here :=
  .look fun s => s.current.span

theorem alike_lastStop : Alike 0 n lastStop lastStop :=
  .look fun s => s.lastStop

theorem alike_isAt {token : Token} : Alike 0 n (isAt token) (isAt token) :=
  .look fun s => s.current.value == token

theorem alike_lookahead : Alike 0 n lookahead lookahead := by
  intro s _
  refine ⟨rfl, ?_⟩
  unfold lookahead
  cases hnext : s.ahead.next with
  | mk outcome ahead =>
    cases outcome with
    | ok token => exact .done .nil (Nat.le_refl 0)
    | error e => exact .failed fun hs => hs.cause_ne hnext

/-- Passing the current token, unless it is the end of the file. -/
theorem alikeAt_advance (h : s.current.value ≠ .endOfFile) : AlikeAt s 1 advance advance := by
  refine ⟨rfl, ?_⟩
  cases hadvance : advance s with
  | done token t =>
    obtain ⟨rfl, -⟩ := advance_done_iff.1 hadvance
    exact .done (Passes.singleton_iff.2 ⟨h, hadvance⟩) (Nat.le_refl 1)
  | failed e t =>
    unfold advance at hadvance
    split at hadvance
    · cases hadvance
    · next hnext =>
      cases hadvance
      exact .failed fun hs => hs.cause_ne hnext

/-- A token that is not the end of the file, in front of two parses that are alike for one less. -/
theorem AlikeAt.pass {f g : Located Token → Parse α} (hne : s.current.value ≠ .endOfFile)
    (hs : s.remaining < n + 1) (hf : ∀ token, Alike 0 n (f token) (g token)) :
    AlikeAt s 1 (advance >>= f) (advance >>= g) :=
  (alikeAt_advance hne).bind fun token t _ ht => hf token t (by omega)

/-- The same behind another token, where no gain is asked for. -/
theorem AlikeAt.over {f g : Located Token → Parse α} (hne : s.current.value ≠ .endOfFile)
    (hs : s.remaining < n) (hf : ∀ token, Alike 0 n (f token) (g token)) :
    AlikeAt s 0 (advance >>= f) (advance >>= g) :=
  (AlikeAt.pass hne (Nat.lt_succ_of_lt hs) hf).mono (Nat.zero_le 1)

/-- Any token, in front of two parses that refuse the end of the file. -/
theorem Alike.anyToken {f g : Located Token → Parse α} (cause : Cause) (hcause : cause ≠ .tooDeep)
    (hend : ∀ span, f ⟨.endOfFile, span⟩ = Parse.fail cause span ∧
      g ⟨.endOfFile, span⟩ = Parse.fail cause span)
    (hf : ∀ token, Alike 0 n (f token) (g token)) :
    Alike 1 (n + 1) (advance >>= f) (advance >>= g) := by
  intro s hs
  by_cases hne : s.current.value = .endOfFile
  · obtain ⟨⟨value, span⟩, ahead, lastStop⟩ := s
    obtain rfl : value = .endOfFile := hne
    unfold AlikeAt
    rw [bind_apply, bind_apply]
    unfold advance
    cases hnext : ahead.next with
    | mk outcome ahead' =>
      cases outcome with
      | ok token =>
        dsimp only
        rw [(hend span).1, (hend span).2]
        exact ⟨rfl, .failed fun _ => hcause⟩
      | error e => exact ⟨rfl, .failed fun hs => hs.cause_ne hnext⟩
  · exact .pass hne hs hf

theorem alike_expect {token : Token} (hne : token ≠ .endOfFile) :
    Alike 1 n (expect token) (expect token) :=
  .ifAt (fun _ hs hval => .pass (hval ▸ hne) (Nat.lt_succ_of_lt hs) fun _ => .pure)
    (.failHere fun _ => by simp)

theorem alike_symbol {x : Symbol} : Alike 1 n (symbol x) (symbol x) :=
  alike_expect (by simp)

theorem alike_keyword {k : Keyword} : Alike 1 n (keyword k) (keyword k) :=
  alike_expect (by simp)

theorem alike_name {role : NameRole} : Alike 1 n (name role) (name role) := by
  refine .atCurrent fun s hs => ?_
  generalize hval : s.current.value = value
  split
  · exact .pass (by simp [hval]) (Nat.lt_succ_of_lt hs) fun _ => .pure
  · exact Alike.failHere (fun _ => by simp) s hs

/-! ## Recursion -/

/-- The recursion `F` has the solution `f` and comes to an end: unrolled more often than there are
tokens left, it gives `f`, whatever `p` is put in for the calls further down. -/
def Resolves (F : (ι → Parse α) → ι → Parse α) (f : ι → Parse α) : Prop :=
  F f = f ∧ ∀ p n i s, s.remaining < n → F^[n] p i s = f i s

/-- Up to `n`, the bodies `F` and `G` of two recursions are alike if their calls are for one token
less. -/
def Descends (d n : Nat) (F G : (ι → Parse α) → ι → Parse α) : Prop :=
  ∀ m < n, ∀ p q : ι → Parse α, (∀ i, Alike d m (p i) (q i)) → ∀ i, Alike d (m + 1) (F p i) (G q i)

/-- A parse that is given by steps is the step, taken so many times. -/
theorem eq_iterate {F : (ι → Parse α) → ι → Parse α} {f : Nat → ι → Parse α}
    (hf : ∀ n, f (n + 1) = F (f n)) (n : Nat) : f n = F^[n] (f 0) := by
  induction n with
  | zero => rfl
  | succ n ih => rw [Function.iterate_succ_apply', hf, ih]

namespace Descends

variable {F G : (ι → Parse α) → ι → Parse α} {p q : ι → Parse α} {f g : Nat → ι → Parse α}

theorem mono {m : Nat} (h : Descends d n F G) (hm : m ≤ n) : Descends d m F G :=
  fun k hk => h k (Nat.lt_of_lt_of_le hk hm)

/-- Unrolled `n` times, the recursions are alike up to `n`, whatever the calls further down are. -/
theorem iterate (h : Descends d n F G) (i : ι) : Alike d n (F^[n] p i) (G^[n] q i) := by
  induction n generalizing i with
  | zero => exact fun s hs => absurd hs (Nat.not_lt_zero _)
  | succ n ih =>
    rw [Function.iterate_succ_apply', Function.iterate_succ_apply']
    exact h n (Nat.lt_succ_self n) _ _ (ih (h.mono (Nat.le_succ n))) i

/-- Any two numbers of unrollings will do that exceed the number of tokens left. -/
theorem unroll {k l : Nat} (h : Descends d n F G) (hs : s.remaining < n) (hk : s.remaining < k)
    (hl : s.remaining < l) (i : ι) : AlikeAt s d (F^[k] p i) (G^[l] q i) := by
  obtain ⟨k, rfl⟩ := Nat.exists_eq_add_of_le (Nat.succ_le_of_lt hk)
  obtain ⟨l, rfl⟩ := Nat.exists_eq_add_of_le (Nat.succ_le_of_lt hl)
  rw [Function.iterate_add_apply, Function.iterate_add_apply]
  exact (h.mono (Nat.succ_le_of_lt hs)).iterate i s (Nat.lt_succ_self _)

/-- On their budgets, the recursions are alike. -/
theorem withBudget (h : Descends d n F G) (hf : ∀ n, f (n + 1) = F (f n))
    (hg : ∀ n, g (n + 1) = G (g n)) (i : ι) :
    Alike d n (withBudget fun k => f k i) (withBudget fun k => g k i) := by
  intro s hs
  have hbudget := s.remaining_lt_budget
  have hunrolled : AlikeAt s d (F^[s.budget] (f 0) i) (G^[s.budget] (g 0) i) :=
    h.unroll hs hbudget hbudget i
  rwa [← eq_iterate hf, ← eq_iterate hg] at hunrolled

/-- A recursion that goes down to fewer tokens with every call comes to an end. -/
theorem resolves (h : ∀ n, Descends d n F F) (hf : ∀ n, f (n + 1) = F (f n)) :
    Resolves F fun i => Parse.withBudget fun k => f k i := by
  have hunrolled : ∀ (q : ι → Parse α) (n : Nat) (i : ι) (s : ParseState), s.remaining < n →
      AlikeAt s d (F^[n] q i) (f s.budget i) := by
    intro q n i s hs
    rw [eq_iterate hf]
    exact (h n).unroll hs hs s.remaining_lt_budget i
  refine ⟨?_, fun q n i s hs => (hunrolled q n i s hs).1⟩
  funext i s
  -- the calls that `F` makes from `s` agree with one unrolling less than the budget allows
  have hcalls : ∀ i, Alike d s.remaining (Parse.withBudget fun k => f k i)
      (f (s.ahead.items.length + 1) i) := by
    intro i t ht
    have hle : s.remaining < s.ahead.items.length + 2 := s.remaining_lt_budget
    have hcall : AlikeAt t d (F^[t.budget] (f 0) i) (F^[s.ahead.items.length + 1] (f 0) i) :=
      (h _).unroll ht t.remaining_lt_budget (by omega) i
    rwa [← eq_iterate hf, ← eq_iterate hf] at hcall
  have hstep := h (s.remaining + 1) _ (Nat.lt_succ_self _) _ _ hcalls i s (Nat.lt_succ_self _)
  rw [← hf] at hstep
  exact hstep.1

end Descends

/-! ## Loops -/

/-- A round of a loop, and then the loop again. -/
def manyStep (more : Parse Bool) (item : Parse α) (loop : Unit → Parse (List α)) :
    Unit → Parse (List α) := fun _ => do
  if ← more then
    let first ← item
    let rest ← loop ()
    pure (first :: rest)
  else pure []

section Loops

variable {more : Parse Bool} {item item' : Parse α}

/-- A loop goes down to fewer tokens if each of its rounds passes one. -/
theorem descends_manyStep (hmore : ∀ n, Alike 0 n more more)
    (hitem : ∀ s t : ParseState, t.remaining < n → more s = .done true t → AlikeAt t 1 item item') :
    Descends 0 n (manyStep more item) (manyStep more item') := by
  intro m hm p q hpq _ s hs
  refine (hmore (m + 1) s hs).seq fun b t hb ht => ?_
  cases b with
  | false => exact Alike.pure t (Nat.lt_of_le_of_lt ht hs)
  | true =>
    exact (hitem s t (by omega) hb).seq fun first u _ hu =>
      ((hpq ()).seq fun rest => .pure) u (by omega)

theorem alike_many (hmore : ∀ n, Alike 0 n more more)
    (hitem : ∀ s t : ParseState, t.remaining < n → more s = .done true t → AlikeAt t 1 item item') :
    Alike 0 n (many more item) (many more item') :=
  (descends_manyStep hmore hitem).withBudget (f := fun n _ => manyUpTo more item n)
    (g := fun n _ => manyUpTo more item' n) (fun _ => rfl) (fun _ => rfl) ()

theorem resolves_many (hmore : ∀ n, Alike 0 n more more)
    (hitem : ∀ s t : ParseState, more s = .done true t → AlikeAt t 1 item item) :
    Resolves (manyStep more item) fun _ => many more item :=
  Descends.resolves (f := fun n _ => manyUpTo more item n)
    (fun _ => descends_manyStep hmore fun s t _ => hitem s t) fun _ => rfl

/-- An item behind a comma. -/
theorem alikeAt_commaItem (hitem : Alike 1 n item item') (ht : t.remaining < n)
    (hmore : isAt (.symbol .comma) s = .done true t) :
    AlikeAt t 1 (do let _ ← advance; item) (do let _ ← advance; item') := by
  obtain rfl := isAt_state hmore
  exact .pass (by simp [current_of_isAt hmore]) (Nat.lt_succ_of_lt ht) fun _ =>
    hitem.mono (Nat.zero_le 1) (Nat.le_refl n)

theorem alike_commaList {close : Symbol} (hitem : Alike 1 n item item') :
    Alike 0 n (commaList close item) (commaList close item') :=
  .ifAt (fun s hs _ => Alike.pure s hs) <| hitem.seq fun _ =>
    (alike_many (fun _ => alike_isAt) fun _ _ => alikeAt_commaItem hitem).seq fun _ => .pure

end Loops

end Parse

end Resin
