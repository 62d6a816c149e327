import Resin.Text.Cut
import Resin.Text.Integer
import Resin.Token.Keyword

/-!
# Methods

The methods of arrays and strings, each with the script text that it becomes. In a text, `{t}`
stands for the variable that the method is called on and `{0}`, `{1}`, … for its arguments.
`Method.fill` puts these in, in one pass, so that what is put in is not searched again.
-/

namespace Resin

/-- How a method becomes script text: from a text with places to fill, from such a text if its
argument is a lambda, or by a slice. -/
inductive Lowering where
  | template (text : String)
  | lambda (text : String)
  | slice
deriving DecidableEq, Repr, Inhabited

/-- A method of a type. -/
structure Method where
  type : TypeName
  name : String
  arity : Nat
  lowering : Lowering
deriving DecidableEq, Repr, Inhabited

namespace Method

/-- Every method. -/
def table : List Method :=
  [⟨.array, "append", 1, .template "\x7bt\x7d.push(\x7b0\x7d)"⟩,
    ⟨.array, "remove", 1, .template
      ("((i) => i === -1 ? \x7bt\x7d : (\x7bt\x7d.splice(i, 1), \x7bt\x7d))" ++
        "(\x7bt\x7d.indexOf(\x7b0\x7d))")⟩,
    ⟨.array, "includes", 1, .template "\x7bt\x7d.includes(\x7b0\x7d)"⟩,
    ⟨.array, "filter", 1, .lambda "\x7bt\x7d.filter(\x7b0\x7d)"⟩,
    ⟨.array, "map", 1, .lambda "\x7bt\x7d.map(\x7b0\x7d)"⟩,
    ⟨.array, "join", 1, .template "\x7bt\x7d.join(\x7b0\x7d)"⟩,
    ⟨.array, "concat", 1, .template "\x7bt\x7d.concat(\x7b0\x7d)"⟩,
    ⟨.array, "sort", 0, .template "[...\x7bt\x7d].sort((a, b) => a - b)"⟩,
    ⟨.array, "sort_text", 0, .template
      "[...\x7bt\x7d].sort((a, b) => String(a).localeCompare(String(b)))"⟩,
    ⟨.array, "min", 0, .template "Math.min(...\x7bt\x7d)"⟩,
    ⟨.array, "max", 0, .template "Math.max(...\x7bt\x7d)"⟩,
    ⟨.array, "size", 0, .template "\x7bt\x7d.length"⟩,
    ⟨.array, "slice", 1, .slice⟩,
    ⟨.string, "upper", 0, .template "\x7bt\x7d.toUpperCase()"⟩,
    ⟨.string, "lower", 0, .template "\x7bt\x7d.toLowerCase()"⟩,
    ⟨.string, "size", 0, .template "\x7bt\x7d.length"⟩,
    ⟨.string, "includes", 1, .template "\x7bt\x7d.includes(\x7b0\x7d)"⟩,
    ⟨.string, "concat", 1, .template "\x7bt\x7d.concat(\x7b0\x7d)"⟩,
    ⟨.string, "replace", 2, .template "\x7bt\x7d.replace(\x7b0\x7d, \x7b1\x7d)"⟩,
    ⟨.string, "replace_all", 2, .template "\x7bt\x7d.replaceAll(\x7b0\x7d, \x7b1\x7d)"⟩,
    ⟨.string, "slice", 1, .slice⟩]

/-- The method of a type with a name, if any. -/
def find? (type : TypeName) (name : String) : Option Method :=
  table.find? fun m => m.type == type && m.name == name

/-- The names of the methods of a type. -/
def names (type : TypeName) : List String :=
  (table.filter fun m => m.type == type).map Method.name

/-! ## Filling in a text -/

/-- What a key between braces stands for: the target, or an argument by its number. -/
def value? (target : String) (args : List String) (key : List Char) : Option String :=
  if key = ['t'] then some target
  else match Text.unsigned64? key with
    | some n => args[n]?
    | none => none

/-- What the place that was opened before `cs` stands for, and how many characters of `cs`
belong to it. -/
def place? (target : String) (args : List String) (cs : List Char) : Option (String × Nat) :=
  match Text.cut? ['}'] cs with
  | some (key, _) => (value? target args key).map fun value => (value, key.length + 1)
  | none => none

/-- Fills in a text of which the first `skip` characters are already dealt with. A brace that
opens no place is copied. -/
def fillFrom (target : String) (args : List String) : Nat → List Char → List Char
  | _, [] => []
  | skip + 1, _ :: cs => fillFrom target args skip cs
  | 0, c :: cs =>
    if c = '{' then
      match place? target args cs with
      | some (value, length) => value.toList ++ fillFrom target args length cs
      | none => c :: fillFrom target args 0 cs
    else c :: fillFrom target args 0 cs

/-- Fills in the places of a text. -/
def fill (template target : String) (args : List String) : String :=
  String.ofList (fillFrom target args 0 template.toList)

end Method

end Resin
