/-!
# Hints

Notes that show how a construct is written, with its keywords in bold yellow on a terminal.
-/

namespace Resin

/-- A stretch of a hint: plain words or a keyword. -/
inductive HintPart where
  | plain (text : String)
  | keyword (text : String)
deriving DecidableEq, Repr, Inhabited

/-- A keyword is put between the escapes for bold and yellow and their resets. -/
def HintPart.render : HintPart → String
  | .plain text => text
  | .keyword text => "\x1b[1m\x1b[33m" ++ text ++ "\x1b[0m\x1b[0m"

/-- The text of a hint. -/
def HintPart.renderAll (parts : List HintPart) : String :=
  String.join (parts.map render)

/-- The constructs with a hint. -/
inductive Hint where
  | declaration | loop | method
deriving DecidableEq, Repr, Inhabited

namespace Hint

/-- How a construct is written. -/
def parts : Hint → List HintPart
  | .declaration =>
    [.plain "the syntax for a declaration is: [", .keyword "all", .plain "|", .keyword "fix",
      .plain "] ", .keyword "assign", .plain " name [", .keyword "as",
      .plain " type] [= value];"]
  | .loop =>
    [.plain "loops are written ", .keyword "repeat",
      .plain " [i in start to end, step] \x7b ... \x7d or ", .keyword "repeat",
      .plain " [item in items] \x7b ... \x7d"]
  | .method =>
    [.plain "the syntax for a method call is ", .keyword "method",
      .plain ":array items.filter[[x] -> x > 1] or ", .keyword "method",
      .plain ":string text.upper[]"]

/-- The text of a construct's hint. -/
def text (hint : Hint) : String :=
  HintPart.renderAll hint.parts

end Hint

end Resin
