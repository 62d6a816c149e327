import Resin.Token.Lexeme

/-!
# Reading tokens off a source

A `Cursor` stands at a place in a source. Reading goes on after a lexeme that is no token, so a
source is a sequence of outcomes, each a token with its span or an error. A `Stream` holds the
outcomes that are still to come; past the last one it yields the end of the file for ever.
-/

namespace Resin

open Text

/-- A lexeme's token with its span, or the error it is. -/
abbrev Outcome := Except Error (Located Token)

/-- A place in a source: its byte offset and the text from there on. -/
structure Cursor where
  offset : Nat
  rest : List Char
deriving DecidableEq, Repr, Inhabited

namespace Cursor

/-- The start of a source. -/
def ofText (source : String) : Cursor := ⟨0, source.toList⟩

/-- The place `n` characters further on. -/
def drop (n : Nat) (c : Cursor) : Cursor :=
  ⟨c.offset + byteLength (c.rest.take n), c.rest.drop n⟩

/-- The characters that separate tokens. -/
def isSeparator (c : Char) : Bool :=
  c == ' ' || c == '\t' || c == '\r' || c == '\n' || c == '\x0c'

/-- The number of characters in front of the next lexeme: separators, and comments from a dollar
sign to the end of its line. The flag tells whether the text starts inside a comment. -/
def triviaLength (comment : Bool) : List Char → Nat
  | [] => 0
  | c :: cs =>
    if comment then triviaLength (c ≠ '\n') cs + 1
    else if isSeparator c then triviaLength false cs + 1
    else if c = '$' then triviaLength true cs + 1
    else 0

/-- The place of the next lexeme. -/
def skipTrivia (c : Cursor) : Cursor :=
  c.drop (triviaLength false c.rest)

/-- The next outcome and the place after its lexeme; nothing at the end of the source. The span
of an error is that of the lexeme's first character. -/
def next? (c : Cursor) : Option (Outcome × Cursor) :=
  let start := c.skipTrivia
  match start.rest with
  | [] => none
  | first :: rest =>
    let lexeme := Lexeme.front first rest
    let after := start.drop (lexeme.more + 1)
    let outcome : Outcome := match lexeme.reading with
      | .ok token => .ok ⟨token, ⟨start.offset, after.offset⟩⟩
      | .error cause => .error ⟨cause, ⟨start.offset, start.offset + first.utf8Size⟩, none⟩
    some (outcome, after)

/-- The end of the file, as a token with its empty span. -/
def endOfFile (offset : Nat) : Located Token :=
  ⟨.endOfFile, .point offset⟩

/-- The next outcome, which at the end of the source is the end of the file. -/
def next (c : Cursor) : Outcome × Cursor :=
  c.next?.getD (.ok (endOfFile c.skipTrivia.offset), c)

/-- The next `n` outcomes, or fewer if the source ends. -/
def outcomes : Nat → Cursor → List Outcome
  | 0, _ => []
  | n + 1, c =>
    match c.next? with
    | none => []
    | some (outcome, after) => outcome :: outcomes n after

@[simp] theorem rest_drop (n : Nat) (c : Cursor) : (c.drop n).rest = c.rest.drop n := rfl

/-- Moving on keeps the offset and the text in step. -/
@[simp] theorem offset_drop (n : Nat) (c : Cursor) :
    (c.drop n).offset + byteLength (c.drop n).rest = c.offset + byteLength c.rest := by
  simp [drop, Nat.add_assoc, byteLength_take_add_drop]

/-- Every outcome takes at least one character of the source. -/
theorem length_rest_lt_of_next? {c after : Cursor} {outcome : Outcome}
    (h : c.next? = some (outcome, after)) : after.rest.length < c.rest.length := by
  simp only [next?] at h
  split at h
  · simp at h
  · next first rest heq =>
    simp only [Option.some.injEq, Prod.mk.injEq] at h
    have hskip : c.skipTrivia.rest.length ≤ c.rest.length := by simp [skipTrivia]
    rw [← h.2, rest_drop, heq, List.drop_succ_cons, List.length_drop]
    rw [heq, List.length_cons] at hskip
    omega

end Cursor

/-- The outcomes of a source that are still to be read, and the offset of its end. -/
structure Stream where
  items : List Outcome
  stop : Nat

namespace Stream

/-- All outcomes of a source. Each takes a character, so there are no more than characters. -/
def ofText (source : String) : Stream :=
  let chars := source.toList
  ⟨Cursor.outcomes chars.length ⟨0, chars⟩, byteLength chars⟩

/-- The first outcome and the rest; past the last one, the end of the file. -/
def next (s : Stream) : Outcome × Stream :=
  match s.items with
  | [] => (.ok (Cursor.endOfFile s.stop), s)
  | outcome :: items => (outcome, { s with items })

end Stream

end Resin
