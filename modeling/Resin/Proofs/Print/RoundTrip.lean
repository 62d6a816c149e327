import Resin.Proofs.Grammar.StmtComplete
import Resin.Proofs.Print.Spelling
import Resin.Proofs.Print.Stmt

/-!
# Written programs are read back

A program is written as its tokens with one space between each two. Reading the text gives the
program back, up to spans (`parseProgram_print`): the text has the tokens as its outcomes
(`Stream.items_written`), they write the program wherever they stand (`Stmt.listDerivable`), and
what they write is what is read (`Grammar.Statements.read`).
-/

namespace Resin

/-- The text of a program, with a spelling for each number. -/
def print (spell : Number → List Char) (p : List Stmt) : String :=
  written spell (Stmt.listTokens p)

/-- What has to hold of a program to be read back from its text. Its names are names, no text has
its own quote in it, no raw block its own end, and each number is one that its spelling writes; and
each of its statements, at every depth, is what the grammar asks for. -/
structure Printable (spell : Number → List Char) (p : List Stmt) : Prop where
  readable : ∀ token ∈ Stmt.listTokens p, token.Readable spell
  regular : ∀ stmt ∈ Stmt.nodesList p, stmt.Regular

/-- A program that the grammar derives from the tokens of a source is what the source is read as. -/
theorem parseProgram_of_statements {source : String} {ts : List (Located Token)} {p : List Stmt}
    {alone : Expr → Prop} (hitems : (Stream.ofText source).items = ts.map Except.ok)
    (hp : Grammar.Statements alone ts p) : parseProgram source = .ok p := by
  obtain ⟨s, t, hstart, hts, hend⟩ := passes_of_items_eq hitems
  have hread := hp.read hts hend
  unfold parseProgram
  rw [hstart]
  change Parse.run Parse.program s = .ok p
  rw [Parse.run, hread]

/-- A program that is written is read back, up to spans. -/
theorem parseProgram_print {spell : Number → List Char} {p : List Stmt} (h : Printable spell p) :
    ∃ q, parseProgram (print spell p) = .ok q ∧ q.map Stmt.erase = p.map Stmt.erase := by
  obtain ⟨ts, hitems, hvalues⟩ := Stream.items_written h.readable
  obtain ⟨q, hq, hderived⟩ := Stmt.listDerivable p h.regular hvalues
  exact ⟨q, parseProgram_of_statements hitems hderived, hq⟩

/-- A function whose body has a check with a raw block behind it, and a call with a lambda and a
text for its arguments. -/
theorem parseProgram_print_function : ∃ spell p, Printable spell p ∧
    print spell p =
      "make f [ a , b ] as int \x7b check [ a + ( - b ) ] \x7b give a \x7b 1. \x7d ; \x7d " ++
      "alt \x7b @js :~ x ~: \x7d call f [ [ x ] -> x , \"it's\" ] ; \x7d" ∧
    ∃ q, parseProgram (print spell p) = .ok q ∧ q.map Stmt.erase = p.map Stmt.erase := by
  let a : Expr := .name "a" default
  let test : Expr := .binary .add a (.signed .minus (.name "b" default) default) default
  let entry : Expr := .index a (.number (.ofParts ['1'] []) default) default
  let args : List Expr :=
    [.lambda ["x"] (.name "x" default) default, .text "it's" .double default]
  let check : Stmt := .check test [.give entry default] (.block [.raw " x " default]) default
  let call : Stmt := .expr (.call "f" args default) default
  let p : List Stmt :=
    [.function "f" ["a", "b"] (some ⟨.int, default⟩) [check, call] default]
  have hnames : IsName "f" ∧ IsName "a" ∧ IsName "b" ∧ IsName "x" := by decide
  have hone : (Number.ofParts ['1'] []).WrittenAs ['1', '.'] :=
    ⟨'1', [], rfl, by simp, .inr ⟨[], by simp, rfl, rfl⟩⟩
  have hraw : ¬ ['~', ':'] <:+: [' ', 'x', ' '] := by decide
  have hp : Printable (fun _ => "1.".toList) p := by
    constructor
    · simp only [p, check, call, args, entry, test, a, Stmt.listTokens, Stmt.tokens,
        Stmt.otherwiseTokens, inBraces, typeTokens, nameTokens, Expr.tokens, Expr.listTokens,
        Expr.grouped, Expr.isCompound, BinaryOp.token, Sign.token]
      simp [Token.Readable, hnames, hone, hraw, Quote.char]
    · simp only [p, check, call, Stmt.nodesList, Stmt.inner, Stmt.nodesOtherwise,
        List.cons_append, List.nil_append, List.append_nil, List.forall_mem_cons]
      have regular {stmt : Stmt} (hd : stmt.declaration? = none)
          (halone : Grammar.StandsBy Expr.IsDispatch stmt)
          (hnames : ∀ x ∈ Expr.nodesList stmt.exprs, x.IndexesName) : stmt.Regular :=
        ⟨by simp [hd], halone, hnames⟩
      refine ⟨regular rfl trivial ?_, regular rfl trivial ?_, regular rfl trivial ?_,
        regular rfl trivial ?_, regular rfl trivial ?_, by simp⟩ <;>
      simp [Stmt.exprs, Otherwise.conditions, Expr.nodesList, Expr.inner, Expr.IndexesName, test,
        entry, args, a]
  exact ⟨_, p, hp, by decide +kernel, parseProgram_print hp⟩

end Resin
