import Resin.Proofs.Parse.Passing
import Resin.Tree.Stmt

/-!
# The surface grammar

Which tokens write which tree, as inductive relations between stretches of tokens and trees. A token
here stands at a place, and so does every node of a tree: the span of a node is the extent of the
tokens that write it.

An expression has a level: its operators outside brackets bind at least that tightly, and operators
of one level group to the left. A lambda reaches as far to the right as it can, so an expression
that ends in a lambda is *open*: an operator behind it would belong to the lambda's body, and it can
be the right operand of an operation but not the left one.

The relations on statements have a parameter `alone`, the expressions that may stand alone as a
statement. The surface grammar takes the calls and the method calls for it, `Expr.IsDispatch`.
-/

namespace Resin

/-- Whether an expression is a call of a function or a method. -/
def Expr.IsDispatch : Expr → Prop
  | .call _ _ _ | .method _ _ _ _ _ => True
  | _ => False

namespace Grammar

/-! ## Expressions -/

/-- How tightly the operators bind: `or` least, then `and`, comparisons, sums, and products with
powers. -/
def rank : BinaryOp → Nat
  | .or => 1
  | .and => 2
  | .equal | .notEqual | .strictEqual | .strictNotEqual => 3
  | .less | .lessEqual | .greater | .greaterEqual => 3
  | .add | .sub => 4
  | .mul | .div | .mod | .power => 5

/-- Names with a comma between each two. -/
inductive Names : List (Located Token) → List String → Prop
  | nil : Names [] []
  | one {w a} : Names [word w a] [w]
  | more {w ws ts a b} : ws ≠ [] → Names ts ws → Names (word w a :: sym .comma b :: ts) (w :: ws)

mutual

/-- An expression of a level; the flag tells whether it is open. -/
inductive Expression : Bool → Nat → List (Located Token) → Expr → Prop
  | operand {o level ts e} : Operand o ts e → Expression o level ts e
  | binary {o level op left right ls rs ts a} :
    level ≤ rank op → Expression false (rank op) ls left → Expression o (rank op + 1) rs right →
    ts = ls ++ ⟨op.token, a⟩ :: rs → Expression o level ts (.binary op left right (extent ts))

/-- An expression without operators outside brackets, signs apart. -/
inductive Operand : Bool → List (Located Token) → Expr → Prop
  | number {v a} : Operand false [⟨.number v, a⟩] (.number v a)
  | text {c q a} : Operand false [⟨.text c q, a⟩] (.text c q a)
  | bool {v a} : Operand false [⟨.bool v, a⟩] (.bool v a)
  | null {t a} : t = .null ∨ t = .type .null → Operand false [⟨t, a⟩] (.null a)
  | undefined {t a} :
    t = .undefined ∨ t = .type .undefined → Operand false [⟨t, a⟩] (.undefined a)
  | input {a} : Operand false [⟨.input, a⟩] (.input a)
  | name {w a} : Operand false [word w a] (.name w a)
  | index {o w i is ts a b c} : Expression o 1 is i →
    ts = word w a :: sym .openBrace b :: is ++ [sym .closeBrace c] →
    Operand false ts (.index (.name w a) i (extent ts))
  | call {f args as ts a b c d} : Arguments as args →
    ts = kw .call a :: word f b :: sym .openBracket c :: as ++ [sym .closeBracket d] →
    Operand false ts (.call f args (extent ts))
  | array {es as ts a b} : Arguments as es →
    ts = sym .openBrace a :: as ++ [sym .closeBrace b] → Operand false ts (.array es (extent ts))
  | lambda {o params ps body bs ts a b c} : Names ps params → Expression o 1 bs body →
    ts = sym .openBracket a :: ps ++ sym .closeBracket b :: sym .arrow c :: bs →
    Operand true ts (.lambda params body (extent ts))
  | nameLambda {o w body bs ts a b} : Expression o 1 bs body →
    ts = word w a :: sym .arrow b :: bs → Operand true ts (.lambda [w] body (extent ts))
  | method {type x m args as ts a b c d e f g h} : Arguments as args →
    ts = kw .method a :: sym .colon b :: ⟨.type type, c⟩ :: word x d :: sym .dot e :: word m f ::
      sym .openBracket g :: as ++ [sym .closeBracket h] →
    Operand false ts (.method ⟨type, c⟩ x ⟨m, f⟩ args (extent ts))
  | parenthesized {o e es ts a b} : Expression o 1 es e →
    ts = sym .openParen a :: es ++ [sym .closeParen b] → Operand false ts (e.withSpan (extent ts))
  | bracketed {o e es ts a b} : Expression o 1 es e →
    ts = sym .openBracket a :: es ++ [sym .closeBracket b] →
    Operand false ts (e.withSpan (extent ts))
  | signed {o t sign e es ts a} : Sign.ofToken? t = some sign → Operand o es e →
    ts = ⟨t, a⟩ :: es → Operand o ts (.signed sign e (extent ts))

/-- Expressions with a comma between each two. -/
inductive Arguments : List (Located Token) → List Expr → Prop
  | nil : Arguments [] []
  | one {o e ts} : Expression o 1 ts e → Arguments ts [e]
  | more {o e es ts us a} : Expression o 1 ts e → es ≠ [] → Arguments us es →
    Arguments (ts ++ sym .comma a :: us) (e :: es)

end

/-! ## Parts of statements -/

/-- The keyword in front of a declaration. -/
inductive Qualifier : List (Located Token) → Binding → Prop
  | plain : Qualifier [] .plain
  | global {a} : Qualifier [kw .all a] .global
  | fixed {a} : Qualifier [kw .fix a] .fixed

/-- A type after `as`, or nothing. -/
inductive Annotation : List (Located Token) → Option (Located TypeName) → Prop
  | none : Annotation [] none
  | some {type a b} : Annotation [kw .as a, ⟨.type type, b⟩] (some ⟨type, b⟩)

/-- A value after an equals sign, or nothing. -/
inductive Initial : List (Located Token) → Option Expr → Prop
  | none : Initial [] none
  | some {o e es a} : Expression o 1 es e → Initial (sym .assign a :: es) (some e)

/-- A declaration without its semicolon. One without a value has a type and is not fixed. -/
inductive Declares : List (Located Token) → Declaration → Prop
  | mk {binding qs n type as value vs ts a b} : Qualifier qs binding → Annotation as type →
    Initial vs value → (value = none → type ≠ none ∧ binding ≠ .fixed) →
    ts = qs ++ kw .assign a :: word n b :: as ++ vs → Declares ts ⟨binding, n, type, value⟩

/-- Indices, each in braces. -/
inductive Indices : List (Located Token) → List Expr → Prop
  | nil : Indices [] []
  | cons {o i is indices ts a b} : Expression o 1 is i → Indices ts indices →
    Indices (sym .openBrace a :: is ++ sym .closeBrace b :: ts) (i :: indices)

/-- A mutation without its semicolon. -/
inductive Mutates : List (Located Token) → Mutation → Prop
  | mk {n indices is o value vs ts a b c} : Indices is indices → Expression o 1 vs value →
    ts = kw .update a :: word n b :: is ++ sym .assign c :: vs → Mutates ts ⟨n, indices, value⟩

/-- What the header of a counting loop starts with. -/
inductive Starts : List (Located Token) → LoopStart → Prop
  | declare {ts d} : Declares ts d → Starts ts (.declare d)
  | update {ts m} : Mutates ts m → Starts ts (.update m)
  | name {w a} : Starts [word w a] (.name w)

/-- The step of a range in front of the bracket at `close`: one, if it is omitted. -/
inductive Step (close : Span) : List (Located Token) → Expr → Prop
  | written {o e es a} : Expression o 1 es e → Step close (sym .comma a :: es) e
  | omitted : Step close [] (.number .one (.point close.start))

theorem Mutates.ne_nil {ts : List (Located Token)} {m : Mutation} (h : Mutates ts m) : ts ≠ [] := by
  obtain ⟨-, -, rfl⟩ := h
  simp

theorem Starts.ne_nil {ts : List (Located Token)} {start : LoopStart} (h : Starts ts start) :
    ts ≠ [] := by
  cases h with
  | declare h =>
    obtain ⟨-, -, -, -, rfl⟩ := h
    simp
  | update h => exact h.ne_nil
  | name => simp

/-! ## Statements -/

mutual

/-- A statement. -/
inductive Statement (alone : Expr → Prop) : List (Located Token) → Stmt → Prop
  | declare {d ds ts a} : Declares ds d → ts = ds ++ [sym .semicolon a] →
    Statement alone ts (.declare d (extent ts))
  | store {binding qs n c q ts a b d e f} : Qualifier qs binding →
    ts = qs ++ [kw .store a, word n b, sym .assign d, ⟨.text c q, e⟩, sym .semicolon f] →
    Statement alone ts (.store ⟨binding, n, c, q, e⟩ (extent ts))
  | update {m ms ts a} : Mutates ms m → ts = ms ++ [sym .semicolon a] →
    Statement alone ts (.update m (extent ts))
  | check {o test es body bs other os ts a b c} : Expression o 1 es test → Block alone bs body →
    Alternatives alone os other →
    ts = kw .check a :: sym .openBracket b :: es ++ sym .closeBracket c :: bs ++ os →
    Statement alone ts (.check test body other (extent ts))
  | repeatRange {x o first as o' last bs step cs body ds ts a b c d e f} :
    Expression o 1 as first → Expression o' 1 bs last → Step f cs step → Block alone ds body →
    ts = kw .repeat_ a :: sym .openBracket b :: word x c :: kw .in_ d :: as ++
      kw .to e :: bs ++ cs ++ sym .closeBracket f :: ds →
    Statement alone ts (.repeatRange x first last step body (extent ts))
  | repeatEach {x xs body ds ts a b c d e f} : Block alone ds body →
    ts = kw .repeat_ a :: sym .openBracket b :: word x c :: kw .in_ d :: word xs e ::
      sym .closeBracket f :: ds →
    Statement alone ts (.repeatEach x xs body (extent ts))
  | repeatUntil {o test es body bs ts a b c d} : Expression o 1 es test → Block alone bs body →
    ts = kw .repeat_ a :: kw .until_ b :: sym .openBracket c :: es ++ sym .closeBracket d :: bs →
    Statement alone ts (.repeatUntil test body (extent ts))
  | forLoop {start ss o test es increment is body bs ts a b c d e} : Starts ss start →
    Expression o 1 es test → Mutates is increment → Block alone bs body →
    ts = kw .for_ a :: sym .openBracket b :: ss ++ sym .semicolon c :: es ++ sym .semicolon d ::
      is ++ sym .closeBracket e :: bs →
    Statement alone ts
      (.forLoop ⟨start, extent ss⟩ test ⟨increment, extent is⟩ body (extent ts))
  | function {f params ps returns as body bs ts a b c d} : Names ps params →
    Annotation as returns → Block alone bs body →
    ts = kw .make a :: word f b :: sym .openBracket c :: ps ++ sym .closeBracket d :: as ++ bs →
    Statement alone ts (.function f params returns body (extent ts))
  | give {o e es ts a b} : Expression o 1 es e → ts = kw .give a :: es ++ [sym .semicolon b] →
    Statement alone ts (.give e (extent ts))
  | display {o e es ts a b} : Expression o 1 es e → ts = kw .show_ a :: es ++ [sym .semicolon b] →
    Statement alone ts (.display e (extent ts))
  | error {o e es ts a b} : Expression o 1 es e → ts = kw .error a :: es ++ [sym .semicolon b] →
    Statement alone ts (.error e (extent ts))
  | panic {o e es ts a b} : Expression o 1 es e → ts = kw .panic a :: es ++ [sym .semicolon b] →
    Statement alone ts (.panic e (extent ts))
  | skip {ts a b} : ts = [kw .skip a, sym .semicolon b] → Statement alone ts (.skip (extent ts))
  | halt {ts a b} : ts = [kw .halt a, sym .semicolon b] → Statement alone ts (.halt (extent ts))
  | raw {code ts a} : ts = [⟨.raw code, a⟩] → Statement alone ts (.raw code (extent ts))
  | rawEnded {code ts a b} : ts = [⟨.raw code, a⟩, sym .semicolon b] →
    Statement alone ts (.raw code (extent ts))
  | expr {o e k es ts a b} : k = .call ∨ k = .method → Expression o 1 (kw k a :: es) e → alone e →
    ts = kw k a :: es ++ [sym .semicolon b] → Statement alone ts (.expr e (extent ts))

/-- Statements in braces. -/
inductive Block (alone : Expr → Prop) : List (Located Token) → List Stmt → Prop
  | mk {body ss ts a b} : Statements alone ss body →
    ts = sym .openBrace a :: ss ++ [sym .closeBrace b] → Block alone ts body

/-- What follows the first block of a check. -/
inductive Alternatives (alone : Expr → Prop) : List (Located Token) → Otherwise → Prop
  | nothing : Alternatives alone [] .nothing
  | check {o test es body bs next ns ts a b c d} : Expression o 1 es test → Block alone bs body →
    Alternatives alone ns next →
    ts = kw .or a :: kw .check b :: sym .openBracket c :: es ++ sym .closeBracket d :: bs ++ ns →
    Alternatives alone ts (.check test body next)
  | block {body bs ts a} : Block alone bs body → ts = kw .alt a :: bs →
    Alternatives alone ts (.block body)

/-- Statements one after the other. A program is no more than that. -/
inductive Statements (alone : Expr → Prop) : List (Located Token) → List Stmt → Prop
  | nil : Statements alone [] []
  | cons {s ss ts us} : Statement alone ts s → Statements alone us ss →
    Statements alone (ts ++ us) (s :: ss)

end

/-! ## Spans and extents -/

mutual

/-- The span of an expression is the extent of its tokens, and there are some. -/
theorem Expression.span_eq {o : Bool} {level : Nat} {ts : List (Located Token)} {e : Expr} :
    Expression o level ts e → ts ≠ [] ∧ e.span = extent ts
  | .operand h => h.span_eq
  | .binary _ _ _ hts => ⟨by simp [hts], rfl⟩

/-- The span of an operand is the extent of its tokens, and there are some. -/
theorem Operand.span_eq {o : Bool} {ts : List (Located Token)} {e : Expr} :
    Operand o ts e → ts ≠ [] ∧ e.span = extent ts
  | .number | .text | .bool | .null _ | .undefined _ | .input | .name => ⟨by simp, rfl⟩
  | .index _ hts | .call _ hts | .array _ hts | .lambda _ _ hts | .nameLambda _ hts
  | .method _ hts | .signed _ _ hts => ⟨by simp [hts], rfl⟩
  | .parenthesized _ hts | .bracketed _ hts => ⟨by simp [hts], Expr.span_withSpan _ _⟩

end

/-- What stands at a level stands at every lower one. -/
theorem Expression.mono {o : Bool} {level level' : Nat} {ts : List (Located Token)} {e : Expr}
    (h : Expression o level ts e) (hle : level' ≤ level) : Expression o level' ts e := by
  cases h with
  | operand h => exact .operand h
  | binary hop hl hr hts => exact .binary (Nat.le_trans hle hop) hl hr hts

end Grammar

end Resin
