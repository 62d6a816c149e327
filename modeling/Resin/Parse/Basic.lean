import Resin.Token.Cursor

/-!
# Parsing

A parse reads a value off the outcomes of a source. Its state is the current token, the outcomes
after it and the end of the last token passed. A parse that fails also leaves a state, in which
reading can go on.

The state moves only in `Parse.advance`. An error among the outcomes is reported when it would
become the current token; it is then gone from the outcomes, and the current token stays.
-/

namespace Resin

/-- Where a parse stands. -/
structure ParseState where
  current : Located Token
  ahead : Stream
  lastStop : Nat

namespace ParseState

/-- The first token of a stream becomes the current one. -/
def start (stream : Stream) : Except Error ParseState :=
  match stream.next with
  | (.ok token, ahead) => .ok ⟨token, ahead, 0⟩
  | (.error e, _) => .error e

/-- The start of a source. -/
def ofText (source : String) : Except Error ParseState :=
  start (.ofText source)

/-- More steps than tokens are left. It bounds every repetition and every nesting of a parse,
since each takes at least one token. -/
def budget (s : ParseState) : Nat :=
  s.ahead.items.length + 2

end ParseState

/-- How a parse ends: with a value or an error, and in both cases with a state. -/
inductive Reply (α : Type) where
  | done (value : α) (state : ParseState)
  | failed (error : Error) (state : ParseState)

/-- A parse of a value. -/
def Parse (α : Type) : Type := ParseState → Reply α

namespace Parse

variable {α β : Type}

instance : Monad Parse where
  pure a := fun s => .done a s
  bind p f := fun s =>
    match p s with
    | .done a s' => f a s'
    | .failed e s' => .failed e s'

@[simp] theorem pure_apply (a : α) (s : ParseState) : (pure a : Parse α) s = .done a s := rfl

theorem bind_apply (p : Parse α) (f : α → Parse β) (s : ParseState) :
    (p >>= f) s = match p s with
      | .done a s' => f a s'
      | .failed e s' => .failed e s' := rfl

/-- A sequence succeeds exactly if both parts do, one after the other. -/
theorem bind_eq_done_iff {p : Parse α} {f : α → Parse β} {s t : ParseState} {b : β} :
    (p >>= f) s = .done b t ↔ ∃ a u, p s = .done a u ∧ f a u = .done b t := by
  rw [bind_apply]
  cases p s <;> simp [and_assoc]

/-- A sequence fails exactly if its first part does, or its second part after it. -/
theorem bind_eq_failed_iff {p : Parse α} {f : α → Parse β} {s t : ParseState} {e : Error} :
    (p >>= f) s = .failed e t ↔
      p s = .failed e t ∨ ∃ a u, p s = .done a u ∧ f a u = .failed e t := by
  rw [bind_apply]
  cases p s <;> simp [and_assoc]

/-! ## Looking at the state -/

/-- The current token. -/
def peek : Parse Token := fun s => .done s.current.value s

/-- The span of the current token. -/
def here : Parse Span := fun s => .done s.current.span s

/-- The end of the last token passed. -/
def lastStop : Parse Nat := fun s => .done s.lastStop s

/-- Whether the current token is `token`. -/
def isAt (token : Token) : Parse Bool := fun s => .done (s.current.value == token) s

/-- The token after the current one. If that is an error, so is this parse, and the state stays. -/
def lookahead : Parse Token := fun s =>
  match s.ahead.next.1 with
  | .ok token => .done token.value s
  | .error e => .failed e s

/-! ## Failing -/

/-- Fails at a span. -/
def fail (cause : Cause) (span : Span) : Parse α := fun s => .failed ⟨cause, span, none⟩ s

/-- Fails at the current token. -/
def failHere (cause : Token → Cause) : Parse α := fun s =>
  .failed ⟨cause s.current.value, s.current.span, none⟩ s

/-- The same parse, a hint taking the place of the note of its failure. -/
def hinting (hint : Hint) (p : Parse α) : Parse α := fun s =>
  match p s with
  | .done a s' => .done a s'
  | .failed e s' => .failed (e.withHint hint) s'

/-- The value of a parse, or nothing and the state as it was if the parse fails. -/
def attempt (p : Parse α) : Parse (Option α) := fun s =>
  match p s with
  | .done a s' => .done (some a) s'
  | .failed _ _ => .done none s

/-! ## Passing tokens -/

/-- Passes the current token. -/
def advance : Parse (Located Token) := fun s =>
  match s.ahead.next with
  | (.ok token, ahead) => .done s.current ⟨token, ahead, s.current.span.stop⟩
  | (.error e, ahead) => .failed e { s with ahead }

/-- Passes the token `expected`, giving its span. -/
def expect (expected : Token) : Parse Span := do
  if ← isAt expected then
    let token ← advance
    pure token.span
  else failHere (.expectedToken expected)

/-- Passes a symbol. -/
def symbol (s : Symbol) : Parse Span := expect (.symbol s)

/-- Passes a keyword. -/
def keyword (k : Keyword) : Parse Span := expect (.keyword k)

/-- Passes a name. -/
def name (role : NameRole) : Parse (Located String) := do
  match ← peek with
  | .name word =>
    let token ← advance
    pure ⟨word, token.span⟩
  | _ => failHere (.expectedName role)

/-! ## Repeating -/

/-- A parse that is given the budget of the state it starts in. -/
def withBudget (p : Nat → Parse α) : Parse α := fun s => p s.budget s

/-- Fails because the budget is used up, which no source brings about. -/
def exhausted : Parse α := failHere fun _ => .tooDeep

/-- Runs `item` as long as `more` holds, at most `n - 1` times. -/
def manyUpTo (more : Parse Bool) (item : Parse α) : Nat → Parse (List α)
  | 0 => exhausted
  | n + 1 => do
    if ← more then
      let first ← item
      let rest ← manyUpTo more item n
      pure (first :: rest)
    else pure []

/-- Runs `item` as long as `more` holds. -/
def many (more : Parse Bool) (item : Parse α) : Parse (List α) :=
  withBudget (manyUpTo more item)

/-- Items with commas between them, or none in front of the closing symbol. -/
def commaList (close : Symbol) (item : Parse α) : Parse (List α) := do
  if ← isAt (.symbol close) then pure []
  else
    let first ← item
    let rest ← many (isAt (.symbol .comma)) (do let _ ← advance; item)
    pure (first :: rest)

end Parse

end Resin
