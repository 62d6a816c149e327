import Resin.Proofs.Parse.Heads

/-!
# Where two sources part

Two sources begin with the same tokens. Behind them the first goes on with anything and the second
with an error. A parse that succeeds on the first source is followed on the second, token by token.
There is only one place where the second run can leave the first before it meets the error: the head
of a lambda. It is read as an attempt, and an error met in an attempt is dropped, so that the head
is read again as an expression in brackets.

* `Fork` holds the common tokens, and `Fork.Site` is a place among them, seen from either source.
* `Site.Free` says that no head breaks off before a place, and `Site.Astray` that the place is at
  the arrow of a head which was taken for an expression in brackets.
* `Site.Replies` says how the second run can end where the first one succeeds, and `Site.Cuts` that
  a parse ends so. It goes through sequences (`Cuts.bind`) and loops (`Cuts.many`), so that each
  parse is followed along its definition.
-/

namespace Resin

open Parse Grammar

/-! ## Places before the fork -/

/-- The tokens that two sources begin with, what follows them in the first source, and the error
that follows them in the second one, with what stands behind it. -/
structure Fork where
  tokens : List (Located Token)
  more : Stream
  error : Error
  rest : Stream
  real : ∀ t ∈ tokens, t.value ≠ .endOfFile

namespace Fork

/-- What follows the common tokens in the second source. -/
def broken (F : Fork) : Stream := ⟨.error F.error :: F.rest.items, F.rest.stop⟩

variable {F : Fork} {α β : Type}

/-- A place among the common tokens. -/
structure Site (F : Fork) where
  before : List (Located Token)
  current : Located Token
  after : List (Located Token)
  tokens_eq : F.tokens = before ++ current :: after

namespace Site

/-- A parse at the place, in a source that goes on with `tail` behind the common tokens. -/
def state (x : F.Site) (tail : Stream) : ParseState :=
  ⟨x.current, ⟨x.after.map .ok ++ tail.items, tail.stop⟩, (extent x.before).stop⟩

/-- A parse of the first source at the place. -/
abbrev good (x : F.Site) : ParseState := x.state F.more

/-- A parse of the second source at the place. -/
abbrev bad (x : F.Site) : ParseState := x.state F.broken

/-- The number of common tokens behind the place. -/
def left (x : F.Site) : Nat := x.after.length

/-- Passing the tokens `us` leads from `x` to `y`. -/
def Past (x : F.Site) (us : List (Located Token)) (y : F.Site) : Prop :=
  y.before = x.before ++ us

variable {x y z : F.Site} {us vs : List (Located Token)} {token : Located Token}

theorem Past.before_eq (h : x.Past us y) : y.before = x.before ++ us := h

@[simp] theorem state_current (x : F.Site) (tail : Stream) :
    (x.state tail).current = x.current := rfl

theorem length_before (x : F.Site) : x.before.length + x.left + 1 = F.tokens.length := by
  rw [x.tokens_eq, List.length_append, List.length_cons, left]
  omega

/-- Places with the same number of tokens behind them are the same. -/
theorem eq_of_left_eq (h : x.left = y.left) : x = y := by
  have hx := x.length_before
  have hy := y.length_before
  obtain ⟨before, current, after, htokens⟩ := x
  obtain ⟨before', current', after', htokens'⟩ := y
  rw [htokens] at htokens'
  obtain ⟨rfl, htail⟩ := List.append_inj htokens' (by simp only at hx hy; omega)
  obtain ⟨rfl, rfl⟩ := List.cons.inj htail
  rfl

theorem past_iff : x.Past us y ↔ x.current :: x.after = us ++ y.current :: y.after := by
  have htokens : x.before ++ x.current :: x.after = y.before ++ y.current :: y.after := by
    rw [← x.tokens_eq, ← y.tokens_eq]
  constructor
  · intro h
    rw [h, List.append_assoc] at htokens
    exact List.append_cancel_left htokens
  · intro h
    rw [h, ← List.append_assoc] at htokens
    exact (List.append_cancel_right htokens).symm

theorem Past.left_add (h : x.Past us y) : y.left + us.length = x.left := by
  have hlen := congrArg List.length (past_iff.1 h)
  simp only [List.length_cons, List.length_append] at hlen
  simp only [left]
  omega

theorem Past.left_lt (h : x.Past (token :: us) y) : y.left < x.left := by
  have hleft := h.left_add
  simp only [List.length_cons] at hleft
  omega

theorem Past.trans (h : x.Past us y) (h' : y.Past vs z) : x.Past (us ++ vs) z := by
  unfold Past at h h' ⊢
  rw [h', h, List.append_assoc]

/-- The first token of a stretch is the current one, and passing it leads to a place. -/
theorem Past.uncons (h : x.Past (token :: us) y) :
    x.current = token ∧ ∃ z, x.Past [token] z ∧ z.Past us y := by
  obtain ⟨hcurrent, hafter⟩ := List.cons.inj (past_iff.1 h)
  refine ⟨hcurrent, ?_⟩
  -- the place behind the token: at the next token of the stretch, or at `y`
  obtain ⟨next, rest, hnext⟩ : ∃ next rest, x.after = next :: rest := by
    rw [hafter]
    cases us with
    | nil => exact ⟨_, _, rfl⟩
    | cons u us => exact ⟨_, _, rfl⟩
  refine ⟨⟨x.before ++ [token], next, rest, ?_⟩, rfl, ?_⟩
  · rw [x.tokens_eq, hnext, hcurrent, List.append_assoc]
    rfl
  · rw [past_iff, ← hnext]
    exact hafter

theorem Past.after_eq (h : x.Past [token] y) : x.after = y.current :: y.after :=
  (List.cons.inj (past_iff.1 h)).2

theorem Past.current_eq (h : x.Past (token :: us) y) : x.current = token :=
  h.uncons.1

theorem Past.unnamed (h : x.Past [token] y) (htoken : ∀ w, token.value ≠ .name w) :
    Unnamed y.before := by
  rw [h.before_eq]
  exact unnamed_concat htoken

/-- A bracket behind a name does not begin a head. -/
theorem Past.not_opened {a : Span} (h : x.Past [sym .openBracket a] y)
    (hnamed : ¬Unnamed x.before) : ¬Opened y.before := by
  rintro ⟨us, b, hus, heq⟩
  rw [h.before_eq] at heq
  exact hnamed ((List.append_inj' heq rfl).1 ▸ hus)

theorem Past.not_unnamed {w : String} {a : Span} (h : x.Past [word w a] y) : ¬Unnamed y.before := by
  rw [h.before_eq]
  exact not_unnamed_concat

/-- Passing one token, in either source. -/
theorem Past.advance (h : x.Past [token] y) (tail : Stream) :
    Parse.advance (x.state tail) = .done token (y.state tail) := by
  rw [ParseState.advance_done_iff]
  refine ⟨h.current_eq.symm, ?_, ?_⟩
  · simp only [state, h.after_eq]
    rfl
  · have hbefore : y.before = x.before ++ [token] := h
    simp only [state, hbefore, extent_concat_stop, h.current_eq]

/-- Behind a place there is another one, or else the error. -/
theorem next_cases (x : F.Site) : (∃ y, x.Past [x.current] y) ∨ x.after = [] := by
  obtain ⟨before, current, after, htokens⟩ := x
  cases after with
  | nil => exact .inr rfl
  | cons next after => exact .inl ⟨⟨before ++ [current], next, after, by simp [htokens]⟩, rfl⟩

theorem current_ne_endOfFile (x : F.Site) : x.current.value ≠ .endOfFile :=
  F.real _ (by rw [x.tokens_eq]; simp)

theorem Past.passes (h : x.Past us y) (tail : Stream) :
    (x.state tail).Passes us (y.state tail) := by
  induction us generalizing x with
  | nil =>
    have hxy : x = y := eq_of_left_eq (by simpa using h.left_add.symm)
    rw [hxy]
    exact .nil
  | cons token us ih =>
    obtain ⟨hcurrent, z, hz, hy⟩ := h.uncons
    exact .cons (hcurrent ▸ x.current_ne_endOfFile) (hz.advance tail) (ih hy)

/-- What is passed from a place ends at another one, or it goes beyond the common tokens and the
source goes on with a token there. -/
theorem past_of_passes {t : ParseState} {tail : Stream} (h : (x.state tail).Passes us t) :
    (∃ y, x.Past us y ∧ t = y.state tail) ∨
      (∃ vs, us = x.current :: x.after ++ vs) ∧ ∃ token, tail.next.1 = .ok token := by
  induction us generalizing x with
  | nil =>
    obtain rfl := ParseState.Passes.nil_iff.1 h
    exact .inl ⟨x, by simp [Past], rfl⟩
  | cons token us ih =>
    have hcurrent : x.current = token := h.current_eq
    subst hcurrent
    obtain ⟨-, u, hu, hus⟩ := ParseState.Passes.cons_iff.1 h
    rcases x.next_cases with ⟨z, hz⟩ | hlast
    · rw [hz.advance, Reply.done.injEq] at hu
      obtain ⟨-, rfl⟩ := hu
      rcases ih hus with ⟨y, hy, rfl⟩ | ⟨⟨vs, hvs⟩, htail⟩
      · exact .inl ⟨y, hz.trans hy, rfl⟩
      · exact .inr ⟨⟨vs, by rw [hvs, hz.after_eq]; rfl⟩, htail⟩
    · refine .inr ⟨⟨us, by rw [hlast]; rfl⟩, u.current, ?_⟩
      have hnext := (ParseState.advance_done_iff.1 hu).2.1
      simp only [state, hlast, List.map_nil, List.nil_append] at hnext
      rw [hnext]

/-- What is passed in the second source stays before the error. -/
theorem past_of_passes_bad {t : ParseState} (h : x.bad.Passes us t) :
    ∃ y, x.Past us y ∧ t = y.bad := by
  rcases past_of_passes h with hy | ⟨-, token, htoken⟩
  · exact hy
  · cases htoken

/-- At the last common token, the second source has the error. -/
theorem advance_bad_of_last (h : x.after = []) : ∃ s, advance x.bad = .failed F.error s := by
  refine ⟨{ x.bad with ahead := F.rest }, ?_⟩
  simp only [advance, state, h]
  rfl

theorem lookahead_bad_of_last (h : x.after = []) : lookahead x.bad = .failed F.error x.bad := by
  simp only [lookahead, state, h]
  rfl

theorem remaining_state (x : F.Site) (tail : Stream) :
    (x.state tail).remaining = x.left + tail.items.length + 1 := by
  simp only [ParseState.remaining, state, x.current_ne_endOfFile, if_false, List.length_append,
    List.length_map, left]

theorem left_lt_budget (x : F.Site) (tail : Stream) : x.left < (x.state tail).budget := by
  have hlt := (x.state tail).remaining_lt_budget
  rw [remaining_state] at hlt
  omega

/-- What is passed between two places is what stands between them. -/
theorem past_of_passes_state {tail : Stream} (h : (x.state tail).Passes us (y.state tail)) :
    x.Past us y := by
  have hle := h.length_add_remaining_le
  rw [remaining_state, remaining_state] at hle
  rcases past_of_passes h with ⟨z, hz, heq⟩ | ⟨⟨vs, rfl⟩, -⟩
  · have hrem := congrArg ParseState.remaining heq
    rw [remaining_state, remaining_state] at hrem
    rwa [eq_of_left_eq (show y.left = z.left by omega)]
  · simp only [List.length_append, List.length_cons, left] at hle
    omega

/-! ## Places where a head breaks off -/

/-- At the place the tokens break off a head of a lambda, with this error. -/
def Breaks (x : F.Site) (err : Error) : Prop :=
  Derails x.before x.current x.after err

/-- No head breaks off before the place. -/
def Free (x : F.Site) : Prop :=
  ∀ (z : F.Site) err, z.Breaks err → z.left ≤ x.left

/-- No head breaks off at the place. -/
def Passable (x : F.Site) : Prop :=
  ∀ err, ¬x.Breaks err

/-- The place is at the arrow of a head that was taken for an expression in brackets. -/
def Astray (x : F.Site) : Prop :=
  x.current.value = .symbol .arrow ∧
    ∀ expected, x.Breaks (arrowError expected x.current.span)

theorem Breaks.misread {err : Error} (h : x.Breaks err) : Misread F.tokens err :=
  ⟨x.before, x.current, x.after, x.tokens_eq, h⟩

theorem passable_of_value (hcomma : x.current.value ≠ .symbol .comma)
    (harrow : x.current.value ≠ .symbol .arrow) : x.Passable :=
  fun _ h => h.current_eq.elim hcomma harrow

theorem Free.next (h : x.Free) (hpass : x.Passable) (hy : x.Past [token] y) : y.Free := by
  intro z err hz
  have hle := h z err hz
  have hleft := hy.left_add
  simp only [List.length_singleton] at hleft
  rcases Nat.lt_or_eq_of_le hle with hlt | heq
  · omega
  · obtain rfl := eq_of_left_eq heq
    exact absurd hz (hpass err)

/-- If no head breaks off up to the last token, none does. -/
theorem Free.not_misread (h : x.Free) (hpass : x.Passable) (hlast : x.after = []) (err : Error) :
    ¬Misread F.tokens err := by
  rintro ⟨before, current, after, htokens, hderails⟩
  have hle := h ⟨before, current, after, htokens⟩ err hderails
  have hzero : x.left = 0 := by simp [left, hlast]
  have heq : (⟨before, current, after, htokens⟩ : F.Site) = x := eq_of_left_eq (by omega)
  exact hpass err (heq ▸ hderails)

/-- A head that is passed as a whole does not break off. -/
theorem Free.behind_arrow {a : Span} (h : x.Free) (hy : x.Past (us ++ [sym .arrow a]) y) :
    y.Free := by
  intro z err hz
  refine Nat.le_of_not_lt fun hlt => ?_
  have hle := h z err hz
  -- between the place where it breaks off and `y` lies the arrow, which would be the last token
  have htokens : z.before ++ z.current :: z.after =
      (x.before ++ us) ++ sym .arrow a :: y.current :: y.after := by
    rw [← z.tokens_eq, y.tokens_eq, hy]
    simp
  have hz' := z.length_before
  have hx' := x.length_before
  have hadd := hy.left_add
  simp only [List.length_append, List.length_singleton] at hadd
  rcases List.append_eq_append_iff.1 htokens with ⟨vs, -, hvs⟩ | ⟨vs, hbefore, hvs⟩
  · cases hz.arrow_last hvs
  · cases vs with
    | nil => cases hz.arrow_last (show _ = [] ++ sym .arrow a :: _ from hvs.symm)
    | cons v vs =>
      have hlen := congrArg List.length hbefore
      simp only [List.length_append, List.length_cons] at hlen
      omega

/-! ## Following a parse -/

/-- How a run over the second source can end when the run over the first one is done with `a` at
`t`. -/
inductive Replies (x : F.Site) (Post : α → F.Site → Prop) (Loose : α → Prop) (a : α)
    (t : ParseState) : Reply α → Prop
  /-- in step, at a place before the fork -/
  | on (y : F.Site) : y.left ≤ x.left → y.Free → Post a y → t = y.good →
    Replies x Post Loose a t (.done a y.bad)
  /-- with the error of the second source -/
  | met {s : ParseState} : (∀ err, ¬Misread F.tokens err) →
    Replies x Post Loose a t (.failed (F.error.behind F.tokens) s)
  /-- with an error about a head that was taken for an expression in brackets -/
  | lost {err : Error} {s : ParseState} : Misread F.tokens err →
    Replies x Post Loose a t (.failed err s)
  /-- with a value that ends in such an expression, in front of the arrow -/
  | astray {b : α} (y : F.Site) : y.left < x.left → y.Astray → Loose b →
    Replies x Post Loose a t (.done b y.bad)

theorem Replies.imp {Post Post' : α → F.Site → Prop} {Loose Loose' : α → Prop} {a : α}
    {t : ParseState} {r : Reply α} (h : y.Replies Post Loose a t r) (hle : y.left ≤ x.left)
    (hpost : ∀ z : F.Site, z.left ≤ y.left → t = z.good → Post a z → Post' a z)
    (hloose : ∀ b, Loose b → Loose' b) : x.Replies Post' Loose' a t r := by
  cases h with
  | on z hle' hz hpost' ht => exact .on z (Nat.le_trans hle' hle) hz (hpost z hle' ht hpost') ht
  | met hclear => exact .met hclear
  | lost herr => exact .lost herr
  | astray z hlt hz hb => exact .astray z (Nat.lt_of_lt_of_le hlt hle) hz (hloose _ hb)

/-- A reply at a later place is one at an earlier place. -/
theorem Replies.lift {Post : α → F.Site → Prop} {Loose : α → Prop} {a : α} {t : ParseState}
    {r : Reply α} (h : y.Replies Post Loose a t r) (hle : y.left ≤ x.left) :
    x.Replies Post Loose a t r :=
  h.imp hle (fun _ _ _ hpost => hpost) fun _ hloose => hloose

/-- Where `p` succeeds on the first source, `q` replies on the second one. -/
def Cuts (x : F.Site) (Post : α → F.Site → Prop) (Loose : α → Prop) (p q : Parse α) : Prop :=
  x.Free → ∀ a t, p x.good = .done a t → x.Replies Post Loose a t (q x.bad)

/-- No condition on where a parse ends. -/
abbrev Anywhere : α → F.Site → Prop := fun _ _ => True

/-- The tokens passed are settled. -/
abbrev Through (x : F.Site) : α → F.Site → Prop := fun _ y => ∃ us, x.Past us y ∧ Settled us

/-- A value that never ends in front of the arrow of a head. -/
abbrev Never : α → Prop := fun _ => False

/-- A value that may end in front of the arrow of a head. -/
abbrev Any : α → Prop := fun _ => True

/-- Behind an expression in brackets that should have been a head, the parse fails at the arrow or
ends without moving. -/
def Balks (x : F.Site) (Loose : α → Prop) (q : Parse α) : Prop :=
  (∃ err s, q x.bad = .failed err s ∧ Misread F.tokens err) ∨
    ∃ b, q x.bad = .done b x.bad ∧ Loose b

namespace Cuts

variable {Post : α → F.Site → Prop} {Loose : α → Prop} {Post' : β → F.Site → Prop}
  {Loose' : β → Prop} {p q : Parse α} {f g : α → Parse β}

/-- A parse that fails on the first source says nothing about the second one. -/
theorem of_done (h : ∀ a t, p x.good = .done a t → x.Cuts Post Loose p q) :
    x.Cuts Post Loose p q :=
  fun hfree a t hp => h a t hp hfree a t hp

theorem of_fails (h : ∀ a t, p x.good ≠ .done a t) : x.Cuts Post Loose p q :=
  of_done fun a t hp => absurd hp (h a t)

theorem mono {Post' : α → F.Site → Prop} {Loose' : α → Prop} (h : x.Cuts Post Loose p q)
    (hpost : ∀ a y, y.left ≤ x.left → Post a y → Post' a y) (hloose : ∀ b, Loose b → Loose' b) :
    x.Cuts Post' Loose' p q := by
  intro hfree a t hp
  exact (h hfree a t hp).imp (Nat.le_refl _) (fun y hle _ => hpost a y hle) hloose

/-- What is known of the tokens that `p` passes holds of the tokens up to the place. -/
theorem passing {G : List (Located Token) → Prop} (h : x.Cuts Post Loose p q)
    (hp : ∀ a t, p x.good = .done a t → ∃ us, x.good.Passes us t ∧ G us) :
    x.Cuts (fun _ y => ∃ us, x.Past us y ∧ G us) Loose p q := by
  intro hfree a t hdone
  obtain ⟨us, hus, hG⟩ := hp a t hdone
  refine (h hfree a t hdone).imp (Nat.le_refl _) (fun y _ hy _ => ?_) fun _ hb => hb
  exact ⟨us, past_of_passes_state (hy ▸ hus), hG⟩

/-- A sequence is followed part by part. -/
theorem bind (hp : x.Cuts Post Loose p q)
    (hf : ∀ a y, y.left ≤ x.left → Post a y → y.Cuts Post' Loose' (f a) (g a))
    (hastray : ∀ b (y : F.Site), y.left < x.left → y.Astray → Loose b → y.Balks Loose' (g b)) :
    x.Cuts Post' Loose' (p >>= f) (q >>= g) := by
  intro hfree b t h
  obtain ⟨a, u, hu, ht⟩ := bind_eq_done_iff.1 h
  have hreply := hp hfree a u hu
  rw [bind_apply]
  generalize q x.bad = r at hreply ⊢
  cases hreply with
  | on y hle hy hpost heq =>
    subst heq
    exact (hf a y hle hpost hy b t ht).lift hle
  | met hclear => exact .met hclear
  | lost herr => exact .lost herr
  | astray y hlt hy hb =>
    rcases hastray _ y hlt hy hb with ⟨err, s, hs, herr⟩ | ⟨c, hc, hloose⟩
    · simp only [hs]
      exact .lost herr
    · simp only [hc]
      exact .astray y hlt hy hloose

/-- A sequence whose first part never ends in front of the arrow of a head. -/
theorem seq (hp : x.Cuts Post Never p q)
    (hf : ∀ a y, y.left ≤ x.left → Post a y → y.Cuts Post' Loose' (f a) (g a)) :
    x.Cuts Post' Loose' (p >>= f) (q >>= g) :=
  hp.bind hf fun _ _ _ _ hb => hb.elim

theorem pure {a : α} (h : Post a x) : x.Cuts Post Loose (pure a) (pure a) := by
  intro hfree b t hb
  cases hb
  exact .on x (Nat.le_refl _) hfree h rfl

theorem withBudget {p q : Nat → Parse α} (h : ∀ n m, x.left < m → x.Cuts Post Loose (p n) (q m)) :
    x.Cuts Post Loose (withBudget p) (withBudget q) :=
  h x.good.budget x.bad.budget (x.left_lt_budget _)

/-! ### Looking at the current token -/

theorem peek {f g : Token → Parse β} (h : x.Cuts Post' Loose' (f x.current.value)
    (g x.current.value)) : x.Cuts Post' Loose' (peek >>= f) (peek >>= g) := h

theorem here {f g : Span → Parse β} (h : x.Cuts Post' Loose' (f x.current.span)
    (g x.current.span)) : x.Cuts Post' Loose' (here >>= f) (here >>= g) := h

theorem lastStop {f g : Nat → Parse β} (h : ∀ stop, x.Cuts Post' Loose' (f stop) (g stop)) :
    x.Cuts Post' Loose' (lastStop >>= f) (lastStop >>= g) := h _

theorem isAt {token : Token} {f g : Bool → Parse β}
    (h : x.Cuts Post' Loose' (f (x.current.value == token)) (g (x.current.value == token))) :
    x.Cuts Post' Loose' (isAt token >>= f) (isAt token >>= g) := h

end Cuts

/-! ## Tokens -/

theorem passable_of_isPlain (h : x.current.value.isPlain = true) : x.Passable := by
  simp only [Token.isPlain, Bool.and_eq_true, bne_iff_ne] at h
  exact passable_of_value h.1.2 h.2

theorem hintAt_of_isPlain {token : Token} (h : token.isPlain = true) : hintAt token = none := by
  simp only [Token.isPlain, Bool.and_eq_true, Option.isNone_iff_eq_none] at h
  exact h.1.1

/-- At the last token the error is met, and it is reported with the token's hint. -/
theorem Free.met {Post : α → F.Site → Prop} {Loose : α → Prop} {a : α} {s t : ParseState}
    {err : Error} (h : x.Free) (hpass : x.Passable) (hlast : x.after = [])
    (herr : { F.error with hint := (hintAt x.current.value).or F.error.hint } = err) :
    x.Replies Post Loose a t (.failed err s) := by
  have hbehind : F.error.behind F.tokens = err := by
    rw [← herr]
    simp [Error.behind, x.tokens_eq, hlast]
  rw [← hbehind]
  exact .met (h.not_misread hpass hlast)

theorem cuts_advance (hhint : hintAt x.current.value = none) (hpass : x.Passable) :
    x.Cuts (fun token y => token = x.current ∧ x.Past [token] y) Never advance advance := by
  intro hfree a t h
  rcases x.next_cases with ⟨y, hy⟩ | hlast
  · rw [hy.advance, Reply.done.injEq] at h
    obtain ⟨rfl, rfl⟩ := h
    rw [hy.advance]
    exact .on y (Nat.le_of_lt hy.left_lt) (hfree.next hpass hy) ⟨rfl, hy⟩ rfl
  · obtain ⟨s, hs⟩ := advance_bad_of_last hlast
    rw [hs]
    exact hfree.met hpass hlast (by rw [hhint]; rfl)

theorem cuts_lookahead (hhint : hintAt x.current.value = none) (hpass : x.Passable) :
    x.Cuts (fun _ y => y = x) Never lookahead lookahead := by
  intro hfree a t h
  rcases x.next_cases with ⟨y, hy⟩ | hlast
  · have hlook : ∀ tail, lookahead (x.state tail) = .done y.current.value (x.state tail) :=
      fun tail => lookahead_of_passes (hy.passes tail)
    rw [hlook, Reply.done.injEq] at h
    obtain ⟨rfl, rfl⟩ := h
    rw [hlook]
    exact .on x (Nat.le_refl _) hfree rfl rfl
  · rw [lookahead_bad_of_last hlast]
    exact hfree.met hpass hlast (by rw [hhint]; rfl)

theorem cuts_advance_of_isPlain (h : x.current.value.isPlain = true) :
    x.Cuts (fun token y => token = x.current ∧ x.Past [token] y) Never advance advance :=
  cuts_advance (hintAt_of_isPlain h) (passable_of_isPlain h)

/-- A token that is passed and then looked at, if only a plain one is taken. -/
theorem Cuts.take {Post : β → F.Site → Prop} {Loose : β → Prop} {f g : Located Token → Parse β}
    (hplain : ∀ u b t, f x.current u = .done b t → x.current.value.isPlain = true)
    (hf : ∀ y, x.Past [x.current] y → y.Cuts Post Loose (f x.current) (g x.current)) :
    x.Cuts Post Loose (advance >>= f) (advance >>= g) := by
  refine .of_done fun b t h => ?_
  obtain ⟨token, u, htoken, h⟩ := bind_eq_done_iff.1 h
  obtain rfl : token = x.current := (ParseState.advance_done_iff.1 htoken).1
  refine (cuts_advance_of_isPlain (hplain u b t h)).seq fun token y _ hy => ?_
  obtain ⟨rfl, hy⟩ := hy
  exact hf y hy

/-- A token without a hint, passed where it is expected. -/
theorem cuts_expect {expected : Token} (h : expected.isPlain = true) :
    x.Cuts (fun span y => x.Past [⟨expected, span⟩] y) Never (expect expected)
      (expect expected) := by
  refine Cuts.isAt ?_
  split
  · next hat =>
    have hval : x.current.value = expected := beq_iff_eq.1 hat
    refine (cuts_advance_of_isPlain (hval ▸ h)).seq fun token y _ hy => .pure ?_
    obtain ⟨rfl, hy⟩ := hy
    rwa [← hval]
  · exact .of_fails fun _ _ => failHere_ne_done

theorem cuts_symbol {c : Symbol} (h : (Token.symbol c).isPlain = true) :
    x.Cuts (fun span y => x.Past [sym c span] y) Never (symbol c) (symbol c) :=
  cuts_expect h

theorem cuts_keyword {k : Keyword} (h : (Token.keyword k).isPlain = true) :
    x.Cuts (fun span y => x.Past [kw k span] y) Never (keyword k) (keyword k) :=
  cuts_expect h

theorem cuts_name {role : NameRole} :
    x.Cuts (fun w y => x.Past [word w.value w.span] y) Never (name role) (name role) := by
  refine Cuts.peek ?_
  split
  · next w hval =>
    refine (cuts_advance_of_isPlain (by rw [hval]; rfl)).seq fun token y _ hy => .pure ?_
    obtain ⟨rfl, hy⟩ := hy
    show x.Past [⟨.name w, x.current.span⟩] y
    rwa [← hval]
  · exact .of_fails fun _ _ => failHere_ne_done

theorem expect_of_ne {expected : Token} {s : ParseState} (h : s.current.value ≠ expected) :
    expect expected s =
      .failed ⟨.expectedToken expected s.current.value, s.current.span, none⟩ s := by
  rw [expect, bind_of_done (isAt_apply _ s), if_neg (by simpa using h)]
  rfl

/-- At the last token an expected token is there, but the error is met behind it. -/
theorem expect_bad_of_last {expected : Token} (hval : x.current.value = expected)
    (hlast : x.after = []) : ∃ s, expect expected x.bad = .failed F.error s := by
  obtain ⟨s, hs⟩ := advance_bad_of_last hlast
  refine ⟨s, ?_⟩
  rw [expect, bind_of_done (isAt_apply _ _), state_current, if_pos (beq_iff_eq.2 hval), bind_apply,
    hs]

/-- A token with a hint, passed where it is expected. -/
theorem cuts_hinting {expected : Token} {hint : Hint} (h : hintAt expected = some hint) :
    x.Cuts (fun span y => x.Past [⟨expected, span⟩] y) Never (hinting hint (expect expected))
      (hinting hint (expect expected)) := by
  have hplain : expected ≠ .symbol .comma ∧ expected ≠ .symbol .arrow ∧ expected ≠ .endOfFile := by
    refine ⟨?_, ?_, ?_⟩ <;> rintro rfl <;> cases h
  intro hfree span t hdone
  have hpasses := (expect_done_iff hplain.2.2).1 (hinting_done_iff.1 hdone)
  have hval : x.current.value = expected := by rw [← state_current, hpasses.current_eq]
  have hpass : x.Passable := passable_of_value (hval ▸ hplain.1) (hval ▸ hplain.2.1)
  rcases x.next_cases with ⟨y, hy⟩ | hlast
  · have hcurrent : x.current = ⟨expected, span⟩ := hpasses.current_eq
    rw [hcurrent] at hy
    have hread : ∀ tail,
        hinting hint (expect expected) (x.state tail) = .done span (y.state tail) :=
      fun tail => hinting_done_iff.2 ((expect_done_iff hplain.2.2).2 (hy.passes tail))
    rw [hread, Reply.done.injEq] at hdone
    rw [hread]
    exact .on y (Nat.le_of_lt hy.left_lt) (hfree.next hpass hy) hy hdone.2.symm
  · obtain ⟨s, hs⟩ := expect_bad_of_last hval hlast
    rw [hinting, hs]
    exact hfree.met hpass hlast (by rw [hval, h]; rfl)

/-! ## In front of the arrow of a head -/

namespace Balks

variable {Loose : α → Prop} {Loose' : β → Prop}

theorem pure {b : α} (h : Loose b) : x.Balks Loose (pure b) :=
  .inr ⟨b, rfl, h⟩

theorem bind {p : Parse α} {g : α → Parse β} (hp : x.Balks Loose p)
    (hg : ∀ b, Loose b → x.Balks Loose' (g b)) : x.Balks Loose' (p >>= g) := by
  rcases hp with ⟨err, s, hs, herr⟩ | ⟨b, hb, hloose⟩
  · exact .inl ⟨err, s, by rw [bind_apply, hs], herr⟩
  · rcases hg b hloose with ⟨err, s, hs, herr⟩ | ⟨c, hc, hloose'⟩
    · exact .inl ⟨err, s, by rw [bind_of_done hb, hs], herr⟩
    · exact .inr ⟨c, by rw [bind_of_done hb, hc], hloose'⟩

end Balks

/-- Any other symbol is missed at the arrow. -/
theorem Astray.symbol {Loose : α → Prop} {c : Symbol} {g : Span → Parse α} (h : x.Astray)
    (hc : c ≠ .arrow) : x.Balks Loose (symbol c >>= g) := by
  refine .inl ⟨arrowError (.symbol c) x.current.span, x.bad, ?_, (h.2 _).misread⟩
  have hne : x.bad.current.value ≠ .symbol c := by
    rw [state_current, h.1]
    simpa using fun heq => hc heq.symm
  rw [bind_apply, Parse.symbol, expect_of_ne hne, state_current, h.1]
  rfl

/-- The keyword between the ends of a range is missed at the arrow. -/
theorem Astray.keyword_to {Loose : α → Prop} {g : Span → Parse α} (h : x.Astray) :
    x.Balks Loose (hinting .loop (keyword .to) >>= g) := by
  refine .inl ⟨arrowError (.keyword .to) x.current.span, x.bad, ?_, (h.2 _).misread⟩
  have hne : x.bad.current.value ≠ .keyword .to := by
    rw [state_current, h.1]
    simp
  rw [bind_apply, hinting, keyword, expect_of_ne hne, state_current, h.1]
  rfl

/-! ## Loops -/

section Loops

variable {item item' : Parse α} {Loose : α → Prop}

theorem cuts_isAt {token : Token} : x.Cuts (fun b y => y = x ∧ (b = true → x.current.value = token))
    Never (isAt token) (isAt token) := by
  intro hfree b t h
  rw [isAt_apply, Reply.done.injEq] at h
  obtain ⟨rfl, rfl⟩ := h
  exact .on x (Nat.le_refl _) hfree ⟨rfl, fun h => beq_iff_eq.1 h⟩ rfl

/-- A loop is followed round by round. Each round starts where `On` holds and passes a token, and
`Inv` holds between the rounds. A round that ends in front of the arrow of a head is the last. -/
theorem Cuts.manyUpTo {more : Parse Bool} {Inv On : F.Site → Prop}
    (hmore : ∀ y, Inv y → y.Cuts (fun b z => z = y ∧ (b = true → On y)) Never more more)
    (hitem : ∀ y, Inv y → On y → y.Cuts (fun _ z => z.left < y.left ∧ Inv z) Loose item item')
    (hastray : ∀ (y : F.Site) b, y.Astray → Loose b → more y.bad = .done false y.bad)
    (n : Nat) {m : Nat} (hm : x.left < m) (hx : Inv x) :
    x.Cuts (fun _ y => Inv y) (fun as => ∃ b ∈ as, Loose b) (manyUpTo more item n)
      (manyUpTo more item' m) := by
  induction m generalizing n x with
  | zero => exact absurd hm (Nat.not_lt_zero _)
  | succ m ih =>
    cases n with
    | zero => exact .of_fails fun _ _ => exhausted_ne_done
    | succ n =>
      refine (hmore x hx).seq fun b y _ hy => ?_
      obtain ⟨rfl, hon⟩ := hy
      cases b with
      | false => exact .pure hx
      | true =>
        refine (hitem y hx (hon rfl)).bind (fun a z _ hz => ?_) fun b z hlt hz hb => ?_
        · refine (ih n (by omega) hz.2).bind (fun as w _ hw => .pure hw) fun as w _ _ has => ?_
          obtain ⟨b, hmem, hb⟩ := has
          exact .pure ⟨b, List.mem_cons_of_mem a hmem, hb⟩
        · have hstop : Parse.manyUpTo more item' m z.bad = .done [] z.bad := by
            obtain ⟨m, rfl⟩ := Nat.exists_eq_succ_of_ne_zero (n := m) (by omega)
            exact manyUpTo_stop (hastray z b hz hb)
          exact .inr ⟨[b], by rw [bind_of_done hstop]; rfl, b, List.mem_singleton_self b, hb⟩

theorem Cuts.many {more : Parse Bool} {Inv On : F.Site → Prop}
    (hmore : ∀ y, Inv y → y.Cuts (fun b z => z = y ∧ (b = true → On y)) Never more more)
    (hitem : ∀ y, Inv y → On y → y.Cuts (fun _ z => z.left < y.left ∧ Inv z) Loose item item')
    (hastray : ∀ (y : F.Site) b, y.Astray → Loose b → more y.bad = .done false y.bad)
    (hx : Inv x) : x.Cuts (fun _ y => Inv y) (fun as => ∃ b ∈ as, Loose b) (many more item)
      (many more item') :=
  .withBudget fun n _ hm => .manyUpTo hmore hitem hastray n hm hx

/-- The comma behind an item that is settled is no comma of a head. -/
theorem Past.passable (h : y.Past us z) (hus : Settled us) (hy : ¬Opened y.before)
    (hcomma : z.current.value = .symbol .comma) : z.Passable := by
  intro err hz
  obtain ⟨ts, a, w, b, hts, hbefore⟩ := hz.before_of_comma hcomma
  rw [h.before_eq] at hbefore
  obtain ⟨init, last, rfl⟩ := (List.eq_nil_or_concat us).resolve_left hus.1
  cases init with
  | nil =>
    -- the item is the name itself, so the bracket stands right in front of it
    have heq : y.before ++ [last] = (ts ++ [sym .openBracket a]) ++ [word w b] := by
      simpa using hbefore
    exact hy ⟨ts, a, hts, (List.append_inj' heq rfl).1⟩
  | cons first init =>
    have hsuffix : [sym .openBracket a, word w b] <:+ y.before ++ (first :: init).concat last := by
      rw [hbefore]
      exact List.suffix_append _ _
    exact hus.2 a w b
      (List.suffix_of_suffix_length_le hsuffix (List.suffix_append _ _) (by simp))

/-- Items with commas between them, outside of heads of lambdas. -/
theorem Cuts.commaList {close : Symbol} (hx : ¬Opened x.before) (hunnamed : Unnamed x.before)
    (hitem : ∀ y : F.Site, y.left ≤ x.left → Unnamed y.before →
      y.Cuts y.Through Loose item item') :
    x.Cuts Anywhere (fun as => ∃ b ∈ as, Loose b) (commaList close item)
      (commaList close item') := by
  -- between the rounds, a comma that stands here is none of a head
  let Inv : F.Site → Prop := fun y =>
    y.left ≤ x.left ∧ (y.current.value = .symbol .comma → y.Passable)
  have hround : ∀ y : F.Site, Inv y → y.current.value = .symbol .comma →
      y.Cuts (fun _ z => z.left < y.left ∧ Inv z) Loose (do let _ ← advance; item)
        (do let _ ← advance; item') := by
    intro y hy hcomma
    refine (cuts_advance (by rw [hcomma]; rfl) (hy.2 hcomma)).seq fun token z _ hz => ?_
    obtain ⟨rfl, hz⟩ := hz
    have hlt := hz.left_lt
    have hbefore : z.before = y.before ++ [y.current] := hz
    have hopened : ¬Opened z.before := by
      rw [hbefore]
      exact not_opened_concat (by simp [hcomma])
    have hz' : Unnamed z.before := by
      rw [hbefore]
      exact unnamed_concat (by simp [hcomma])
    refine (hitem z (Nat.le_trans (Nat.le_of_lt hlt) hy.1) hz').mono (fun a w hle hw => ?_)
      fun _ hb => hb
    obtain ⟨us, hus, hsettled⟩ := hw
    have hxy := hy.1
    exact ⟨by omega, by omega, hus.passable hsettled hopened⟩
  have hstop : ∀ (y : F.Site) (b : α), y.Astray → Loose b →
      Parse.isAt (.symbol .comma) y.bad = .done false y.bad := by
    intro y b hy _
    rw [isAt_apply, state_current, hy.1]
    rfl
  refine Cuts.isAt ?_
  split
  · exact .pure trivial
  · refine (hitem x (Nat.le_refl _) hunnamed).bind (fun a y hle hy => ?_) fun b y _ hy hb => ?_
    · obtain ⟨us, hus, hsettled⟩ := hy
      have hinv : Inv y := ⟨hle, hus.passable hsettled hx⟩
      refine (Cuts.many (fun _ _ => cuts_isAt) hround hstop hinv).bind
        (fun _ _ _ _ => .pure trivial) fun as _ _ _ has => ?_
      obtain ⟨b, hmem, hb⟩ := has
      exact .pure ⟨b, List.mem_cons_of_mem a hmem, hb⟩
    · have hmany : Parse.many (Parse.isAt (.symbol .comma)) (do let _ ← advance; item') y.bad =
          .done [] y.bad := manyUpTo_stop (hstop y b hy hb)
      exact .inr ⟨[b], by rw [bind_of_done hmany]; rfl, b, List.mem_singleton_self b, hb⟩

end Loops

end Site

end Fork

end Resin
