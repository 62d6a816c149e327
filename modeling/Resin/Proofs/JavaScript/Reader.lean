import Resin.Proofs.JavaScript.Token

/-!
# Reading an expression of a script

The expression grammar of the host language as a reader of tokens. Every nonterminal of the grammar
is a function that takes tokens from the front; its first argument bounds the depth of the calls:

* the binary operators have ten levels, and those of one level group to the left;
* `**` binds tighter and groups to the right, and its left operand is not a bare sign;
* an arrow function reaches as far to the right as it can;
* indices, arguments and property names follow a primary expression and bind tightest.

Left out are the forms that begin with a reserved word, object, template and pattern literals,
default values and spreading, `?.` and `??`. A text that needs one of them is not read at all.

An `Operand` can stand next to any operator. Operands with an operator between them, with a sign or
with parameters in front are read as the grammar says where the expression ends (`Argument.binary`,
`Argument.signed`, `Argument.arrow`), and brackets make operands of them again (`Operand.paren`).
-/

namespace Resin.JavaScript

/-! ## Trees -/

/-- An expression of the host language. -/
inductive Tree where
  | number (value : Number)
  | text (content : String)
  | bool (value : Bool)
  | null
  | name (word : String)
  | array (elements : List Tree)
  | member (target place : Tree)
  | property (target : Tree) (word : String)
  | call (callee : Tree) (args : List Tree)
  | update (op : Punctuator) (before : Bool) (target : Tree)
  | unary (op : Punctuator) (operand : Tree)
  | binary (op : Punctuator) (left right : Tree)
  | conditional (test yes no : Tree)
  | arrow (params : List String) (body : Tree)
  | assign (op : Punctuator) (target value : Tree)
  | sequence (first second : Tree)
deriving Repr, Inhabited

/-- Whether a value can be assigned to an expression. -/
def Tree.isTarget : Tree → Bool
  | .name _ | .member _ _ | .property _ _ => true
  | _ => false

/-! ## Words and operators -/

/-- The words that are no names, in some context at least. -/
def reserved : List String :=
  ["async", "await", "break", "case", "catch", "class", "const", "continue", "debugger", "default",
    "delete", "do", "else", "enum", "export", "extends", "false", "finally", "for", "function",
    "if", "implements", "import", "in", "instanceof", "interface", "let", "new", "null", "package",
    "private", "protected", "public", "return", "static", "super", "switch", "this", "throw",
    "true", "try", "typeof", "var", "void", "while", "with", "yield"]

/-- What a word stands for by itself. -/
def wordTree? (w : String) : Option Tree :=
  if w = "true" then some (.bool true)
  else if w = "false" then some (.bool false)
  else if w = "null" then some .null
  else if w ∈ reserved then none
  else some (.name w)

namespace Punctuator

/-- How tightly a binary operator binds its operands, `**` apart. -/
def level? : Punctuator → Option Nat
  | .or => some 1
  | .and => some 2
  | .bitOr => some 3
  | .bitXor => some 4
  | .bitAnd => some 5
  | .equal | .notEqual | .strictEqual | .strictNotEqual => some 6
  | .less | .greater | .lessEqual | .greaterEqual => some 7
  | .shiftLeft | .shiftRight | .shiftRightZero => some 8
  | .plus | .minus => some 9
  | .star | .slash | .percent => some 10
  | _ => none

/-- The tightest level of binary operators. -/
def lastLevel : Nat := 10

/-- Whether a punctuator is an operator in front of its operand. -/
def isSign : Punctuator → Bool
  | .plus | .minus | .not | .bitNot => true
  | _ => false

/-- Whether a punctuator counts a variable up or down. -/
def isUpdate : Punctuator → Bool
  | .increment | .decrement => true
  | _ => false

/-- Whether a punctuator assigns. -/
def isAssignment : Punctuator → Bool
  | .assign | .plusAssign | .minusAssign | .starAssign | .slashAssign | .percentAssign
  | .powerAssign | .shiftLeftAssign | .shiftRightAssign | .shiftRightZeroAssign
  | .bitAndAssign | .bitOrAssign | .bitXorAssign | .andAssign | .orAssign | .coalesceAssign => true
  | _ => false

end Punctuator

/-! ## The reader -/

/-- The parameters of an arrow function behind their opening bracket, up to its arrow. -/
def params? : List Token → Option (List String × List Token)
  | .punct .closeParen :: .punct .arrow :: ts => some ([], ts)
  | .word w :: .punct .closeParen :: .punct .arrow :: ts =>
    if w ∈ reserved then none else some ([w], ts)
  | .word w :: .punct .comma :: ts =>
    if w ∈ reserved then none else (params? ts).map fun read => (w :: read.1, read.2)
  | _ => none

/-- The parameters of an arrow function, up to its arrow. -/
def arrowHead? : List Token → Option (List String × List Token)
  | .word w :: .punct .arrow :: ts => if w ∈ reserved then none else some ([w], ts)
  | .punct .openParen :: ts => params? ts
  | _ => none

mutual

/-- An expression: assignments with commas between them. -/
def expression : Nat → List Token → Option (Tree × List Token)
  | 0, _ => none
  | n + 1, ts => do
    let (first, rest) ← assignment n ts
    sequence n first rest

/-- What follows an expression behind commas. -/
def sequence : Nat → Tree → List Token → Option (Tree × List Token)
  | 0, _, _ => none
  | n + 1, first, .punct .comma :: ts => do
    let (second, rest) ← assignment n ts
    sequence n (.sequence first second) rest
  | _ + 1, first, ts => some (first, ts)

/-- An arrow function, an assignment, or a conditional expression. -/
def assignment : Nat → List Token → Option (Tree × List Token)
  | 0, _ => none
  | n + 1, ts =>
    match arrowHead? ts with
    | some (params, ts) => do
      let (body, rest) ← assignment n ts
      some (.arrow params body, rest)
    | none => do
      let (target, rest) ← conditional n ts
      match rest with
      | .punct p :: after =>
        if p.isAssignment then
          if target.isTarget then do
            let (value, rest) ← assignment n after
            some (.assign p target value, rest)
          else none
        else some (target, rest)
      | rest => some (target, rest)

/-- An operation, perhaps with a choice behind it. -/
def conditional : Nat → List Token → Option (Tree × List Token)
  | 0, _ => none
  | n + 1, ts => do
    let (test, rest) ← binary n 1 ts
    match rest with
    | .punct .question :: rest => do
      let (yes, rest) ← assignment n rest
      match rest with
      | .punct .colon :: rest => do
        let (no, rest) ← assignment n rest
        some (.conditional test yes no, rest)
      | _ => none
    | rest => some (test, rest)

/-- An operation with binary operators of a level and tighter ones. -/
def binary : Nat → Nat → List Token → Option (Tree × List Token)
  | 0, _, _ => none
  | n + 1, level, ts =>
    if Punctuator.lastLevel < level then exponent n ts
    else do
      let (left, rest) ← binary n (level + 1) ts
      climb n level left rest

/-- What follows a left operand behind operators of a level. -/
def climb : Nat → Nat → Tree → List Token → Option (Tree × List Token)
  | 0, _, _, _ => none
  | n + 1, level, left, .punct p :: ts =>
    if p.level? = some level then do
      let (right, rest) ← binary n (level + 1) ts
      climb n level (.binary p left right) rest
    else some (left, .punct p :: ts)
  | _ + 1, _, left, ts => some (left, ts)

/-- A signed expression with no power behind it, or a power. -/
def exponent : Nat → List Token → Option (Tree × List Token)
  | 0, _ => none
  | n + 1, .punct p :: ts =>
    if p.isSign then do
      let (signed, rest) ← unary n (.punct p :: ts)
      if rest.head? = some (.punct .power) then none else some (signed, rest)
    else power n (.punct p :: ts)
  | n + 1, ts => power n ts

/-- An expression without a sign in front, perhaps raised to a power. -/
def power : Nat → List Token → Option (Tree × List Token)
  | 0, _ => none
  | n + 1, ts => do
    let (base, rest) ← update n ts
    match rest with
    | .punct .power :: rest => do
      let (raised, rest) ← exponent n rest
      some (.binary .power base raised, rest)
    | rest => some (base, rest)

/-- An expression with any number of signs in front. -/
def unary : Nat → List Token → Option (Tree × List Token)
  | 0, _ => none
  | n + 1, .punct p :: ts =>
    if p.isSign then do
      let (operand, rest) ← unary n ts
      some (.unary p operand, rest)
    else update n (.punct p :: ts)
  | n + 1, ts => update n ts

/-- A variable that is counted up or down, or any expression that binds tighter. -/
def update : Nat → List Token → Option (Tree × List Token)
  | 0, _ => none
  | n + 1, .punct p :: ts =>
    if p.isUpdate then do
      let (target, rest) ← unary n ts
      some (.update p true target, rest)
    else counted n (.punct p :: ts)
  | n + 1, ts => counted n ts

/-- A variable with an operator that counts it behind, or any expression that binds tighter. -/
def counted : Nat → List Token → Option (Tree × List Token)
  | 0, _ => none
  | n + 1, ts => do
    let (target, rest) ← leftHand n ts
    match rest with
    | .punct p :: after =>
      if p.isUpdate then some (.update p false target, after) else some (target, rest)
    | rest => some (target, rest)

/-- A primary expression with indices, arguments and property names behind it. -/
def leftHand : Nat → List Token → Option (Tree × List Token)
  | 0, _ => none
  | n + 1, ts => do
    let (base, rest) ← primary n ts
    suffixes n base rest

/-- Indices, arguments and property names behind an expression. -/
def suffixes : Nat → Tree → List Token → Option (Tree × List Token)
  | 0, _, _ => none
  | n + 1, base, .punct .openBracket :: ts => do
    let (place, rest) ← expression n ts
    match rest with
    | .punct .closeBracket :: rest => suffixes n (.member base place) rest
    | _ => none
  | n + 1, base, .punct .openParen :: ts => do
    let (args, rest) ← items n .closeParen ts
    suffixes n (.call base args) rest
  | n + 1, base, .punct .dot :: .word w :: ts => suffixes n (.property base w) ts
  | _ + 1, base, ts => some (base, ts)

/-- Expressions with commas between them, up to a closing bracket. -/
def items : Nat → Punctuator → List Token → Option (List Tree × List Token)
  | 0, _, _ => none
  | n + 1, close, ts =>
    if ts.head? = some (.punct close) then some ([], ts.tail)
    else do
      let (first, rest) ← assignment n ts
      match rest with
      | .punct .comma :: rest => do
        let (others, rest) ← items n close rest
        some (first :: others, rest)
      | rest => if rest.head? = some (.punct close) then some ([first], rest.tail) else none

/-- A literal, a name, or an expression in brackets. -/
def primary : Nat → List Token → Option (Tree × List Token)
  | 0, _ => none
  | _ + 1, .number v :: ts => some (.number v, ts)
  | _ + 1, .text c :: ts => some (.text c, ts)
  | _ + 1, .word w :: ts => (wordTree? w).map fun t => (t, ts)
  | n + 1, .punct .openParen :: ts => do
    let (inside, rest) ← expression n ts
    match rest with
    | .punct .closeParen :: rest => some (inside, rest)
    | _ => none
  | n + 1, .punct .openBracket :: ts => do
    let (elements, rest) ← items n .closeBracket ts
    some (.array elements, rest)
  | _ + 1, _ => none

end

/-- The tree of a text that is one expression. -/
def read (text : String) : Option Tree := do
  let ts ← tokens text
  let (t, rest) ← expression (20 * ts.length + 30) ts
  if rest = [] then some t else none

/-! ## Where an expression ends -/

namespace Punctuator

/-- Whether a punctuator closes what stands before it. -/
def closes : Punctuator → Bool
  | .closeParen | .closeBracket | .comma => true
  | _ => false

/-- Whether an operand ends in front of a punctuator that does not close it. -/
def joins (p : Punctuator) : Bool :=
  p.level?.isSome || p == .power

theorem level?_of_closes {p : Punctuator} : p.closes = true → p.level? = none := by
  cases p <;> decide

theorem isUpdate_of_ends {p : Punctuator} :
    p.closes = true ∨ p.joins = true → p.isUpdate = false := by
  cases p <;> decide

end Punctuator

/-- Nothing follows, or one of some punctuators. -/
def Follows (P : Punctuator → Prop) (rest : List Token) : Prop :=
  rest = [] ∨ ∃ p after, rest = .punct p :: after ∧ P p

/-- An expression ends here. -/
def Ends : List Token → Prop :=
  Follows fun p => p.closes = true

/-- An operand ends here. -/
def OperandEnds : List Token → Prop :=
  Follows fun p => p.closes = true ∨ p.joins = true

theorem Follows.imp {P Q : Punctuator → Prop} {rest : List Token} (h : Follows P rest)
    (himp : ∀ p, P p → Q p) : Follows Q rest := by
  rcases h with rfl | ⟨p, after, rfl, hp⟩
  · exact .inl rfl
  · exact .inr ⟨p, after, rfl, himp p hp⟩

theorem Follows.head_ne {P : Punctuator → Prop} {rest : List Token} {q : Punctuator}
    (h : Follows P rest) (hq : ¬ P q) : rest.head? ≠ some (.punct q) := by
  rcases h with rfl | ⟨p, after, rfl, hp⟩
  · simp
  · intro heq
    obtain rfl := Token.punct.inj (Option.some.inj heq)
    exact hq hp

theorem Ends.operandEnds {rest : List Token} (h : Ends rest) : OperandEnds rest :=
  h.imp fun _ => .inl

section Ends

variable {rest : List Token} (n : Nat) (t : Tree)

theorem suffixes_of_ends (h : OperandEnds rest) : suffixes (n + 1) t rest = some (t, rest) := by
  rcases h with rfl | ⟨p, after, rfl, hp⟩
  · rfl
  · rw [suffixes.eq_def]
    split <;> simp_all [Punctuator.joins, Punctuator.closes, Punctuator.level?]

theorem climb_of_follows {level : Nat} (h : Follows (fun p => p.level? ≠ some level) rest) :
    climb (n + 1) level t rest = some (t, rest) := by
  rcases h with rfl | ⟨p, after, rfl, hp⟩
  · rfl
  · simp only [climb, if_neg hp]

end Ends

/-- What is read at a level is read at looser ones, if none of their operators follows. -/
theorem binary_lower {ts rest : List Token} {t : Tree} {level bound : Nat} (d : Nat)
    (h : ∀ n, bound ≤ n → binary n (level + d) ts = some (t, rest)) (hbound : 1 ≤ bound)
    (htop : level + d ≤ Punctuator.lastLevel + 1)
    (hrest : ∀ l, level ≤ l → l < level + d → Follows (fun p => p.level? ≠ some l) rest) :
    ∀ n, bound + d ≤ n → binary n level ts = some (t, rest) := by
  induction d generalizing level with
  | zero => exact h
  | succ d ih =>
    intro n hn
    obtain ⟨k, rfl⟩ : ∃ k, n = k + 2 := ⟨n - 2, by omega⟩
    have htighter : binary (k + 1) (level + 1) ts = some (t, rest) := by
      refine ih (by rwa [Nat.add_assoc, Nat.add_comm 1]) (by omega) ?_ (k + 1) (by omega)
      exact fun l hl hd => hrest l (by omega) (by omega)
    rw [binary, if_neg (by omega), htighter]
    exact climb_of_follows k t (hrest level (Nat.le_refl level) (by omega))

/-! ## Operands -/

/-- The tokens, the first and the others, begin an operand and no arrow function. -/
inductive Starts : Token → List Token → Prop
  | number {v more} : Starts (.number v) more
  | text {c more} : Starts (.text c) more
  | word {w more} : (∀ next ∈ more.head?, next = .punct .openParen ∨ next = .punct .openBracket) →
    Starts (.word w) more
  | bracket {more} : Starts (.punct .openBracket) more
  | paren {more} : (∀ rest, params? (more ++ rest) = none) → Starts (.punct .openParen) more

/-- The tokens are read as the tree, and whatever follows is read behind it. Twenty calls for each
token are enough: there are that many from one bracket to the next one inside it. -/
structure Operand (ts : List Token) (t : Tree) : Prop where
  start : ∃ first more, ts = first :: more ∧ Starts first more
  read : ∀ n rest, 20 * ts.length ≤ n →
    ∃ m, n ≤ m + ts.length ∧ leftHand n (ts ++ rest) = suffixes m t rest

namespace Starts

variable {first : Token} {more : List Token} (h : Starts first more)
include h

theorem append {p : Punctuator} (hp : p = .openParen ∨ p = .openBracket) (ts : List Token) :
    Starts first (more ++ .punct p :: ts) := by
  cases h with
  | number => exact .number
  | text => exact .text
  | word hnext =>
    refine .word ?_
    cases more with
    | nil => simpa using hp
    | cons next more => exact hnext
  | bracket => exact .bracket
  | paren hparams => exact .paren fun rest => by rw [List.append_assoc]; exact hparams _

/-- An operand is no arrow function. -/
theorem arrowHead?_eq_none {rest : List Token}
    (hrest : Follows (fun p => p ≠ .arrow) rest) : arrowHead? (first :: more ++ rest) = none := by
  cases h with
  | number | text | bracket => rfl
  | word hnext =>
    cases more with
    | nil =>
      rcases hrest with rfl | ⟨p, after, rfl, hp⟩
      · rfl
      · rw [arrowHead?.eq_def]
        split <;> simp_all
    | cons next more =>
      rcases hnext next rfl with rfl | rfl <;> rfl
  | paren hparams => exact hparams rest

/-- An operand that an operator follows is no list of parameters. -/
theorem params?_eq_none {rest : List Token} (hrest : Follows (fun p => p.joins = true) rest) :
    params? (first :: more ++ rest) = none := by
  cases h with
  | number | text | bracket | paren => rfl
  | word hnext =>
    cases more with
    | nil =>
      rcases hrest with rfl | ⟨p, after, rfl, hp⟩
      · rfl
      · rw [params?.eq_def]
        split <;> simp_all [Punctuator.joins, Punctuator.level?]
    | cons next more =>
      rcases hnext next rfl with rfl | rfl <;> rfl

theorem update_eq (n : Nat) (rest : List Token) :
    update (n + 1) (first :: more ++ rest) = counted n (first :: more ++ rest) := by
  cases h <;> rfl

theorem unary_eq (n : Nat) (rest : List Token) :
    unary (n + 1) (first :: more ++ rest) = update n (first :: more ++ rest) := by
  cases h <;> rfl

theorem exponent_eq (n : Nat) (rest : List Token) :
    exponent (n + 1) (first :: more ++ rest) = power n (first :: more ++ rest) := by
  cases h <;> rfl

end Starts

namespace Operand

variable {ts rest : List Token} {t : Tree} {n : Nat} (h : Operand ts t)
include h

theorem leftHand_eq (hrest : OperandEnds rest) (hn : 20 * ts.length ≤ n) :
    leftHand n (ts ++ rest) = some (t, rest) := by
  obtain ⟨m, hm, hread⟩ := h.read n rest hn
  obtain ⟨first, more, rfl, -⟩ := h.start
  rw [List.length_cons] at hn hm
  obtain ⟨k, rfl⟩ : ∃ k, m = k + 1 := ⟨m - 1, by omega⟩
  rw [hread, suffixes_of_ends k t hrest]

theorem update_eq (hrest : OperandEnds rest) (hn : 20 * ts.length + 2 ≤ n) :
    update n (ts ++ rest) = some (t, rest) := by
  obtain ⟨k, rfl⟩ : ∃ k, n = k + 2 := ⟨n - 2, by omega⟩
  have hread := h.leftHand_eq (n := k) hrest (by omega)
  obtain ⟨first, more, rfl, hstart⟩ := h.start
  rw [hstart.update_eq, counted, hread]
  rcases hrest with rfl | ⟨p, after, rfl, hp⟩
  · rfl
  · simp [Punctuator.isUpdate_of_ends hp]

theorem unary_eq (hrest : OperandEnds rest) (hn : 20 * ts.length + 3 ≤ n) :
    unary n (ts ++ rest) = some (t, rest) := by
  obtain ⟨k, rfl⟩ : ∃ k, n = k + 1 := ⟨n - 1, by omega⟩
  have hread := h.update_eq (n := k) hrest (by omega)
  obtain ⟨first, more, rfl, hstart⟩ := h.start
  rw [hstart.unary_eq, hread]

theorem exponent_eq (hrest : OperandEnds rest) (hpower : rest.head? ≠ some (.punct .power))
    (hn : 20 * ts.length + 4 ≤ n) : exponent n (ts ++ rest) = some (t, rest) := by
  obtain ⟨k, rfl⟩ : ∃ k, n = k + 2 := ⟨n - 2, by omega⟩
  have hread := h.update_eq (n := k) hrest (by omega)
  obtain ⟨first, more, rfl, hstart⟩ := h.start
  rw [hstart.exponent_eq, power, hread]
  simp only [Option.bind_eq_bind, Option.bind_some]
  split
  · simp at hpower
  · rfl

/-- An operand is all that is read if a looser operator follows. -/
theorem binary_eq {level : Nat} (hlevel : level ≤ Punctuator.lastLevel + 1)
    (hrest : Follows (fun p => p.closes = true ∨ ∃ l, p.level? = some l ∧ l < level) rest)
    (hn : 20 * ts.length + 16 ≤ n + level) : binary n level (ts ++ rest) = some (t, rest) := by
  have hends : OperandEnds rest := by
    refine hrest.imp fun p hp => hp.imp_right ?_
    rintro ⟨l, hl, -⟩
    simp [Punctuator.joins, hl]
  have hpower : rest.head? ≠ some (.punct .power) :=
    hrest.head_ne (by simp [Punctuator.closes, Punctuator.level?])
  have htop : ∀ n, 20 * ts.length + 5 ≤ n →
      binary n (Punctuator.lastLevel + 1) (ts ++ rest) = some (t, rest) := by
    intro n hn
    obtain ⟨k, rfl⟩ : ∃ k, n = k + 1 := ⟨n - 1, by omega⟩
    rw [binary, if_pos (Nat.lt_succ_self _), h.exponent_eq hends hpower (by omega)]
  obtain ⟨d, hd⟩ := Nat.exists_eq_add_of_le hlevel
  refine binary_lower d (by rw [← hd]; exact htop) (by omega) (by omega) (fun l hl hd => ?_) n ?_
  · refine hrest.imp fun p hp => ?_
    rcases hp with hp | ⟨l', hl', hlt⟩
    · simp [Punctuator.level?_of_closes hp]
    · rw [hl', Ne, Option.some.injEq]
      omega
  · rw [Punctuator.lastLevel] at hd
    omega

end Operand

/-! ## Operations -/

/-- The tokens are read as the tree where a closing bracket or a comma follows. -/
def Argument (ts : List Token) (t : Tree) : Prop :=
  ∀ n rest, Ends rest → 20 * ts.length + 20 ≤ n → assignment n (ts ++ rest) = some (t, rest)

/-- What is read at a level and is no arrow function is a whole expression if it ends there. -/
theorem assignment_of_binary {ts rest : List Token} {t : Tree} {n : Nat} (level bound : Nat)
    (h : ∀ n, bound ≤ n → binary n level ts = some (t, rest)) (hbound : 1 ≤ bound)
    (hlevel : 1 ≤ level ∧ level ≤ Punctuator.lastLevel + 1) (hrest : Ends rest)
    (harrow : arrowHead? ts = none) (hn : bound + level + 1 ≤ n) :
    assignment n ts = some (t, rest) := by
  obtain ⟨k, rfl⟩ : ∃ k, n = k + 2 := ⟨n - 2, by omega⟩
  have hbinary : binary k 1 ts = some (t, rest) := by
    obtain ⟨d, rfl⟩ := Nat.exists_eq_add_of_le hlevel.1
    refine binary_lower d h hbound hlevel.2 (fun l _ _ => ?_) k (by omega)
    exact hrest.imp fun p hp => by simp [Punctuator.level?_of_closes hp]
  rw [assignment, harrow]
  simp only [conditional, hbinary, Option.bind_eq_bind, Option.bind_some]
  rcases hrest with rfl | ⟨p, after, rfl, hp⟩
  · rfl
  · have hassign : p.isAssignment = false := by
      revert hp
      cases p <;> decide
    split
    · next heq =>
      obtain ⟨rfl, -⟩ : p = .question ∧ _ := by simpa using heq
      cases hp
    · simp [hassign]

theorem Operand.argument {ts : List Token} {t : Tree} (h : Operand ts t) : Argument ts t := by
  intro n rest hrest hn
  refine assignment_of_binary (Punctuator.lastLevel + 1) (20 * ts.length + 5) (fun n hn => ?_)
    (by omega) (by decide) hrest ?_ ?_
  · refine h.binary_eq (Nat.le_refl _) (hrest.imp fun p => .inl) ?_
    rw [Punctuator.lastLevel]
    omega
  · obtain ⟨first, more, rfl, hstart⟩ := h.start
    exact hstart.arrowHead?_eq_none (hrest.imp fun p hp => by rintro rfl; cases hp)
  · rw [Punctuator.lastLevel]
    omega

theorem Punctuator.level?_of_joins {p : Punctuator} (h : p.joins = true) :
    (∃ level, p.level? = some level ∧ 1 ≤ level ∧ level ≤ lastLevel) ∨ p = .power := by
  revert h
  cases p <;> simp [joins, level?, lastLevel]

theorem Ends.head_ne_power {rest : List Token} (h : Ends rest) :
    rest.head? ≠ some (.punct .power) :=
  h.head_ne (by decide)

/-- Stretches of tokens with a comma between each two. -/
def separated (tss : List (List Token)) : List Token :=
  List.intercalate [.punct .comma] tss

theorem separated_singleton (ts : List Token) : separated [ts] = ts :=
  List.intercalate_singleton

theorem separated_cons_cons (ts us : List Token) (tss : List (List Token)) :
    separated (ts :: us :: tss) = ts ++ .punct .comma :: separated (us :: tss) := by
  rw [separated, List.intercalate_cons_cons, List.append_assoc, List.singleton_append]
  rfl

theorem params?_separated {params : List String} (h : ∀ w ∈ params, w ∉ reserved)
    (rest : List Token) : params? (separated (params.map fun w => [.word w]) ++
      .punct .closeParen :: .punct .arrow :: rest) = some (params, rest) := by
  induction params with
  | nil => rfl
  | cons w ws ih =>
    obtain ⟨hw, hws⟩ := List.forall_mem_cons.1 h
    cases ws with
    | nil => simp [separated_singleton, params?, hw]
    | cons v ws =>
      have hmore := ih hws
      rw [List.map_cons] at hmore
      rw [List.map_cons, List.map_cons, separated_cons_cons, List.append_assoc,
        List.singleton_append, List.cons_append]
      simp only [params?, if_neg hw, hmore, Option.map_some]

namespace Argument

variable {ts ls rs : List Token} {t left right : Tree} {p : Punctuator}

/-- Two operands with an operator of a level between them. -/
theorem binary_of_level {rest : List Token} {n level : Nat} (hl : Operand ls left)
    (hr : Operand rs right) (hp : p.level? = some level) (hlevel : level ≤ Punctuator.lastLevel)
    (hrest : Ends rest) (hn : 20 * (ls.length + rs.length) + 17 ≤ n + level) :
    JavaScript.binary n level (ls ++ .punct p :: (rs ++ rest)) =
      some (.binary p left right, rest) := by
  obtain ⟨k, rfl⟩ : ∃ k, n = k + 3 := ⟨n - 3, by rw [Punctuator.lastLevel] at hlevel; omega⟩
  have hleft : JavaScript.binary (k + 2) (level + 1) (ls ++ .punct p :: (rs ++ rest)) =
      some (left, .punct p :: (rs ++ rest)) := by
    refine hl.binary_eq (Nat.succ_le_succ hlevel) (.inr ⟨p, _, rfl, .inr ?_⟩) (by omega)
    exact ⟨level, hp, Nat.lt_succ_self level⟩
  have hright : JavaScript.binary (k + 1) (level + 1) (rs ++ rest) = some (right, rest) :=
    hr.binary_eq (Nat.succ_le_succ hlevel) (hrest.imp fun _ => .inl) (by omega)
  rw [JavaScript.binary, if_neg (Nat.not_lt.2 hlevel), hleft]
  simp only [Option.bind_eq_bind, Option.bind_some, climb, if_pos hp, hright]
  exact climb_of_follows k _ (hrest.imp fun p hp => by simp [Punctuator.level?_of_closes hp])

theorem binary (hp : p.joins = true) (hl : Operand ls left) (hr : Operand rs right) :
    Argument (ls ++ .punct p :: rs) (.binary p left right) := by
  intro n rest hrest hn
  rw [List.length_append, List.length_cons] at hn
  rw [List.append_assoc, List.cons_append]
  have harrow : arrowHead? (ls ++ .punct p :: (rs ++ rest)) = none := by
    obtain ⟨first, more, rfl, hstart⟩ := hl.start
    refine hstart.arrowHead?_eq_none (.inr ⟨p, _, rfl, ?_⟩)
    rintro rfl
    cases hp
  rcases Punctuator.level?_of_joins hp with ⟨level, hlevel, hpos, hlast⟩ | rfl
  · have hten : level ≤ 10 := hlast
    refine assignment_of_binary level (20 * (ls.length + rs.length) + 17 - level)
      (fun n hn => binary_of_level hl hr hlevel hlast hrest (by omega)) ?_
      ⟨hpos, Nat.le_succ_of_le hlast⟩ hrest harrow ?_
    · omega
    · omega
  · refine assignment_of_binary (Punctuator.lastLevel + 1) (20 * (ls.length + rs.length) + 7)
      (fun n hn => ?_) (by omega) (by decide) hrest harrow (by rw [Punctuator.lastLevel]; omega)
    obtain ⟨k, rfl⟩ : ∃ k, n = k + 3 := ⟨n - 3, by omega⟩
    have hleft : update k (ls ++ .punct .power :: (rs ++ rest)) =
        some (left, .punct .power :: (rs ++ rest)) :=
      hl.update_eq (.inr ⟨_, _, rfl, .inr rfl⟩) (by omega)
    have hright := hr.exponent_eq (n := k) hrest.operandEnds hrest.head_ne_power (by omega)
    obtain ⟨first, more, rfl, hstart⟩ := hl.start
    rw [JavaScript.binary, if_pos (Nat.lt_succ_self _), hstart.exponent_eq, power, hleft]
    simp [hright]

theorem signed (hp : p.isSign = true) (h : Operand ts t) :
    Argument (.punct p :: ts) (.unary p t) := by
  intro n rest hrest hn
  rw [List.length_cons] at hn
  rw [List.cons_append]
  have harrow : arrowHead? (.punct p :: (ts ++ rest)) = none := by
    rw [arrowHead?.eq_def]
    split <;> simp_all [Punctuator.isSign]
  refine assignment_of_binary (Punctuator.lastLevel + 1) (20 * ts.length + 6) (fun n hn => ?_)
    (by omega) (by decide) hrest harrow (by rw [Punctuator.lastLevel]; omega)
  obtain ⟨k, rfl⟩ : ∃ k, n = k + 3 := ⟨n - 3, by omega⟩
  have hread := h.unary_eq (n := k) hrest.operandEnds (by omega)
  rw [JavaScript.binary, if_pos (Nat.lt_succ_self _), exponent, if_pos hp, unary, if_pos hp, hread]
  simp [hrest.head_ne_power]

/-- An arrow function takes all that follows for its body. -/
theorem arrow {params : List String} (hparams : ∀ w ∈ params, w ∉ reserved) (h : Argument ts t) :
    Argument (.punct .openParen :: separated (params.map fun w => [.word w]) ++
      .punct .closeParen :: .punct .arrow :: ts) (.arrow params t) := by
  intro n rest hrest hn
  simp only [List.cons_append, List.length_cons, List.length_append] at hn
  obtain ⟨k, rfl⟩ : ∃ k, n = k + 1 := ⟨n - 1, by omega⟩
  rw [List.append_assoc, List.cons_append, List.cons_append, List.cons_append, assignment,
    arrowHead?, params?_separated hparams]
  simp only [h k rest hrest (by omega), Option.bind_eq_bind, Option.bind_some]

end Argument

/-! ## Brackets -/

namespace Operand

variable {ts us : List Token} {t place : Tree}

/-- A primary expression is an operand. -/
theorem of_primary {first : Token} {more : List Token} (hstart : Starts first more)
    (h : ∀ n rest, 20 * more.length + 18 ≤ n →
      primary (n + 1) (first :: (more ++ rest)) = some (t, rest)) : Operand (first :: more) t where
  start := ⟨_, _, rfl, hstart⟩
  read n rest hn := by
    rw [List.length_cons] at hn
    obtain ⟨k, rfl⟩ : ∃ k, n = k + 2 := ⟨n - 2, by omega⟩
    refine ⟨k + 1, by rw [List.length_cons]; omega, ?_⟩
    rw [List.cons_append, leftHand, h k rest (by omega)]
    rfl

/-- An operand with an index or with arguments behind it is one. -/
theorem of_suffix {p : Punctuator} {t' : Tree} (h : Operand ts t)
    (hp : p = .openParen ∨ p = .openBracket)
    (hsuffix : ∀ n rest, 20 * us.length + 1 ≤ n →
      suffixes (n + 1) t (.punct p :: (us ++ rest)) = suffixes n t' rest) :
    Operand (ts ++ .punct p :: us) t' where
  start := by
    obtain ⟨first, more, rfl, hstart⟩ := h.start
    exact ⟨first, _, rfl, hstart.append hp us⟩
  read n rest hn := by
    rw [List.length_append, List.length_cons] at hn
    obtain ⟨m, hm, hread⟩ := h.read n (.punct p :: (us ++ rest)) (by omega)
    obtain ⟨k, rfl⟩ : ∃ k, m = k + 1 := ⟨m - 1, by omega⟩
    refine ⟨k, by rw [List.length_append, List.length_cons]; omega, ?_⟩
    rw [List.append_assoc, List.cons_append, hread, hsuffix k rest (by omega)]

theorem number (v : Number) : Operand [.number v] (.number v) :=
  of_primary .number fun _ _ _ => rfl

theorem text (c : String) : Operand [.text c] (.text c) :=
  of_primary .text fun _ _ _ => rfl

theorem word {w : String} (h : wordTree? w = some t) : Operand [.word w] t := by
  refine of_primary (.word (by simp)) fun n rest _ => ?_
  rw [primary, h]
  rfl

theorem expression_eq {n : Nat} {p : Punctuator} {rest : List Token} (h : Argument ts t)
    (hp : p.closes = true ∧ p ≠ .comma) (hn : 20 * ts.length + 21 ≤ n) :
    expression n (ts ++ .punct p :: rest) = some (t, .punct p :: rest) := by
  obtain ⟨k, rfl⟩ : ∃ k, n = k + 2 := ⟨n - 2, by omega⟩
  rw [expression, h (k + 1) _ (.inr ⟨p, rest, rfl, hp.1⟩) (by omega)]
  simp only [Option.bind_eq_bind, Option.bind_some]
  rw [sequence.eq_def]
  split <;> simp_all

/-- Brackets make an operand of every expression that cannot be taken for parameters. -/
theorem paren (h : Argument ts t) (hparams : ∀ rest, params? (ts ++ rest) = none) :
    Operand (.punct .openParen :: ts ++ [.punct .closeParen]) t := by
  refine of_primary (.paren fun rest => ?_) fun n rest hn => ?_
  · rw [List.append_eq, List.append_assoc]
    exact hparams _
  · rw [List.append_eq, List.length_append, List.length_singleton] at hn
    have hread : expression n (ts ++ .punct .closeParen :: rest) =
        some (t, .punct .closeParen :: rest) := expression_eq h (by decide) (by omega)
    rw [List.append_eq, List.append_assoc, List.singleton_append, primary, hread]
    rfl

theorem member (h : Operand ts t) (hplace : Operand us place) :
    Operand (ts ++ .punct .openBracket :: us ++ [.punct .closeBracket]) (.member t place) := by
  rw [List.append_assoc, List.cons_append]
  refine h.of_suffix (.inr rfl) fun n rest hn => ?_
  rw [List.length_append, List.length_singleton] at hn
  have hread : expression n (us ++ .punct .closeBracket :: rest) =
      some (place, .punct .closeBracket :: rest) :=
    expression_eq hplace.argument (by decide) (by omega)
  rw [List.append_assoc, List.singleton_append, suffixes, hread]
  rfl

theorem head_ne {p : Punctuator} {rest : List Token} (h : Operand ts t) (hp : p.closes = true) :
    (ts ++ rest).head? ≠ some (.punct p) := by
  obtain ⟨first, more, rfl, hstart⟩ := h.start
  intro heq
  obtain rfl : first = .punct p := Option.some.inj heq
  cases hstart <;> cases hp

/-- Operands with commas between them, up to a closing bracket. -/
theorem items_eq {n : Nat} {close : Punctuator} {rest : List Token} {tss : List (List Token)}
    {trees : List Tree} (h : List.Forall₂ Operand tss trees)
    (hclose : close.closes = true ∧ close ≠ .comma)
    (hn : 20 * (separated tss).length + 21 ≤ n) :
    items n close (separated tss ++ .punct close :: rest) = some (trees, rest) := by
  induction h generalizing n with
  | nil =>
    obtain ⟨k, rfl⟩ : ∃ k, n = k + 1 := ⟨n - 1, by omega⟩
    simp [separated, items]
  | @cons ts t tss trees h htss ih =>
    obtain ⟨k, rfl⟩ : ∃ k, n = k + 1 := ⟨n - 1, by omega⟩
    cases htss with
    | nil =>
      rw [separated_singleton] at hn ⊢
      rw [items, if_neg (h.head_ne hclose.1),
        h.argument k _ (.inr ⟨_, _, rfl, hclose.1⟩) (by omega)]
      simp only [Option.bind_eq_bind, Option.bind_some]
      split
      · next heq =>
        obtain ⟨heq, -⟩ := List.cons.inj heq
        exact absurd (Token.punct.inj heq) hclose.2
      · exact if_pos rfl
    | @cons us u tss trees h' htss =>
      rw [separated_cons_cons, List.length_append, List.length_cons] at hn
      have hmore := ih (n := k) (by omega)
      rw [separated_cons_cons, List.append_assoc, List.cons_append, items,
        if_neg (h.head_ne hclose.1), h.argument k _ (.inr ⟨_, _, rfl, rfl⟩) (by omega)]
      simp only [Option.bind_eq_bind, Option.bind_some, hmore]

theorem array {tss : List (List Token)} {trees : List Tree} (h : List.Forall₂ Operand tss trees) :
    Operand (.punct .openBracket :: separated tss ++ [.punct .closeBracket]) (.array trees) := by
  refine of_primary .bracket fun n rest hn => ?_
  rw [List.append_eq, List.length_append, List.length_singleton] at hn
  have hread : items n .closeBracket (separated tss ++ .punct .closeBracket :: rest) =
      some (trees, rest) := items_eq h (by decide) (by omega)
  rw [List.append_eq, List.append_assoc, List.singleton_append, primary, hread]
  rfl

theorem call {tss : List (List Token)} {args : List Tree} (h : Operand ts t)
    (hargs : List.Forall₂ Operand tss args) :
    Operand (ts ++ .punct .openParen :: separated tss ++ [.punct .closeParen]) (.call t args) := by
  rw [List.append_assoc, List.cons_append]
  refine h.of_suffix (.inl rfl) fun n rest hn => ?_
  rw [List.length_append, List.length_singleton] at hn
  have hread : items n .closeParen (separated tss ++ .punct .closeParen :: rest) =
      some (args, rest) := items_eq hargs (by decide) (by omega)
  rw [List.append_assoc, List.singleton_append, suffixes, hread]
  rfl

end Operand

/-- A text whose tokens are an operand is read as a whole. -/
theorem read_eq {text : String} {ts : List Token} {t : Tree} (htokens : tokens text = some ts)
    (h : Operand ts t) : read text = some t := by
  have hread : expression (20 * ts.length + 30) (ts ++ []) = some (t, []) := by
    rw [expression, h.argument _ _ (.inl rfl) (by omega)]
    rfl
  rw [List.append_nil] at hread
  simp [read, htokens, hread]

-- a bare sign is no base of a power, a sign in brackets is one
example : (read "-a ** b").isNone = true ∧ (read "(-a) ** b").isSome = true := by decide +kernel

end Resin.JavaScript
