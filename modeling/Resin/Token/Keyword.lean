/-!
# Words with a meaning

The keywords and the type names of the language. Each list `all` is the order in which a word is
looked up.
-/

namespace Resin

/-- A reserved word that gives a statement or an expression its form. -/
inductive Keyword where
  | all | fix | assign | update | store | make | call | give | check | alt | repeat_ | until_
  | in_ | to | or | and | as | show_ | error | panic | skip | halt | method | for_
deriving DecidableEq, Repr, Inhabited

namespace Keyword

/-- How a keyword is written. -/
def spelling : Keyword → String
  | .all => "all"
  | .fix => "fix"
  | .assign => "assign"
  | .update => "update"
  | .store => "store"
  | .make => "make"
  | .call => "call"
  | .give => "give"
  | .check => "check"
  | .alt => "alt"
  | .repeat_ => "repeat"
  | .until_ => "until"
  | .in_ => "in"
  | .to => "to"
  | .or => "or"
  | .and => "and"
  | .as => "as"
  | .show_ => "show"
  | .error => "error"
  | .panic => "panic"
  | .skip => "skip"
  | .halt => "halt"
  | .method => "method"
  | .for_ => "for"

/-- Every keyword. -/
def list : List Keyword :=
  [.all, .fix, .assign, .update, .store, .make, .call, .give, .check, .alt, .repeat_, .until_,
    .in_, .to, .or, .and, .as, .show_, .error, .panic, .skip, .halt, .method, .for_]

/-- The keyword that a word is, if any. -/
def ofWord? (word : String) : Option Keyword :=
  list.find? fun k => k.spelling == word

/-- A keyword is found under its own spelling. -/
@[simp] theorem ofWord?_spelling (k : Keyword) : ofWord? k.spelling = some k := by
  cases k <;> decide

end Keyword

/-- A type that a declaration, a function or a method call can name. -/
inductive TypeName where
  | string | int | double | bool | array | object | null | undefined
deriving DecidableEq, Repr, Inhabited

namespace TypeName

/-- How a type is written. -/
def spelling : TypeName → String
  | .string => "string"
  | .int => "int"
  | .double => "double"
  | .bool => "bool"
  | .array => "array"
  | .object => "object"
  | .null => "null"
  | .undefined => "undefined"

/-- Every type. -/
def list : List TypeName :=
  [.string, .int, .double, .bool, .array, .object, .null, .undefined]

/-- The type that a word names, if any. -/
def ofWord? (word : String) : Option TypeName :=
  list.find? fun t => t.spelling == word

/-- A type is found under its own spelling. -/
@[simp] theorem ofWord?_spelling (t : TypeName) : ofWord? t.spelling = some t := by
  cases t <;> decide

end TypeName

end Resin
