import Mathlib.Data.List.Find
import Resin.Number.Decimal
import Resin.Proofs.Number.Text
import Resin.Proofs.Print.Spelling
import Resin.Script.Literal

/-!
# Tokens of a script

The lexical grammar of the host language, as far as expressions need it: words, decimal numbers,
string literals between double quotes, and all punctuators, of which the longest is taken. Spaces
and comments separate tokens. A word is written with letters, digits, underscores and dollar signs.
A text is read if it is one line, so that nothing depends on where lines end.

`Lexes cs ts rest` says that the characters `cs` in front of `rest` are read as the tokens `ts`. It
goes over to texts put together from others (`Lexes.append`), so that the tokens of a script are
found piece by piece.
-/

namespace Resin.JavaScript

/-! ## Punctuators -/

/-- A token written with punctuation only. -/
inductive Punctuator where
  | shiftRightZeroAssign
  | ellipsis | strictEqual | strictNotEqual | shiftRightZero | powerAssign | shiftLeftAssign
  | shiftRightAssign | andAssign | orAssign | coalesceAssign
  | arrow | equal | notEqual | lessEqual | greaterEqual | and | or | coalesce | optional
  | increment | decrement | power | shiftLeft | shiftRight
  | plusAssign | minusAssign | starAssign | slashAssign | percentAssign
  | bitAndAssign | bitOrAssign | bitXorAssign
  | openBrace | closeBrace | openParen | closeParen | openBracket | closeBracket
  | dot | semicolon | comma | less | greater | plus | minus | star | slash | percent
  | bitAnd | bitOr | bitXor | not | bitNot | question | colon | assign
deriving DecidableEq, Repr, Inhabited

namespace Punctuator

/-- How a punctuator is written. -/
def spelling : Punctuator → List Char
  | .shiftRightZeroAssign => ['>', '>', '>', '=']
  | .ellipsis => ['.', '.', '.']
  | .strictEqual => ['=', '=', '=']
  | .strictNotEqual => ['!', '=', '=']
  | .shiftRightZero => ['>', '>', '>']
  | .powerAssign => ['*', '*', '=']
  | .shiftLeftAssign => ['<', '<', '=']
  | .shiftRightAssign => ['>', '>', '=']
  | .andAssign => ['&', '&', '=']
  | .orAssign => ['|', '|', '=']
  | .coalesceAssign => ['?', '?', '=']
  | .arrow => ['=', '>']
  | .equal => ['=', '=']
  | .notEqual => ['!', '=']
  | .lessEqual => ['<', '=']
  | .greaterEqual => ['>', '=']
  | .and => ['&', '&']
  | .or => ['|', '|']
  | .coalesce => ['?', '?']
  | .optional => ['?', '.']
  | .increment => ['+', '+']
  | .decrement => ['-', '-']
  | .power => ['*', '*']
  | .shiftLeft => ['<', '<']
  | .shiftRight => ['>', '>']
  | .plusAssign => ['+', '=']
  | .minusAssign => ['-', '=']
  | .starAssign => ['*', '=']
  | .slashAssign => ['/', '=']
  | .percentAssign => ['%', '=']
  | .bitAndAssign => ['&', '=']
  | .bitOrAssign => ['|', '=']
  | .bitXorAssign => ['^', '=']
  | .openBrace => ['\x7b']
  | .closeBrace => ['\x7d']
  | .openParen => ['(']
  | .closeParen => [')']
  | .openBracket => ['[']
  | .closeBracket => [']']
  | .dot => ['.']
  | .semicolon => [';']
  | .comma => [',']
  | .less => ['<']
  | .greater => ['>']
  | .plus => ['+']
  | .minus => ['-']
  | .star => ['*']
  | .slash => ['/']
  | .percent => ['%']
  | .bitAnd => ['&']
  | .bitOr => ['|']
  | .bitXor => ['^']
  | .not => ['!']
  | .bitNot => ['~']
  | .question => ['?']
  | .colon => [':']
  | .assign => ['=']

/-- Every punctuator, longer spellings first. -/
def list : List Punctuator :=
  [.shiftRightZeroAssign, .ellipsis, .strictEqual, .strictNotEqual, .shiftRightZero, .powerAssign,
    .shiftLeftAssign, .shiftRightAssign, .andAssign, .orAssign, .coalesceAssign, .arrow, .equal,
    .notEqual, .lessEqual, .greaterEqual, .and, .or, .coalesce, .optional, .increment, .decrement,
    .power, .shiftLeft, .shiftRight, .plusAssign, .minusAssign, .starAssign, .slashAssign,
    .percentAssign, .bitAndAssign, .bitOrAssign, .bitXorAssign, .openBrace, .closeBrace, .openParen,
    .closeParen, .openBracket, .closeBracket, .dot, .semicolon, .comma, .less, .greater, .plus,
    .minus, .star, .slash, .percent, .bitAnd, .bitOr, .bitXor, .not, .bitNot, .question, .colon,
    .assign]

/-- The punctuator with the longest spelling that the text starts with. -/
def longest? (cs : List Char) : Option Punctuator :=
  list.find? fun p => p.spelling.isPrefixOf cs

theorem longest?_spelling (p : Punctuator) : longest? p.spelling = some p := by
  cases p <;> decide

theorem mem_list (p : Punctuator) : p ∈ list := by
  cases p <;> decide

end Punctuator

/-! ## Reading tokens -/

/-- A token of a script. -/
inductive Token where
  | word (text : String)
  | number (value : Number)
  | text (content : String)
  | punct (punctuator : Punctuator)
deriving DecidableEq, Repr, Inhabited

/-- The characters that a word can begin with. -/
def isWordStart (c : Char) : Bool :=
  c.isAlpha || c == '_' || c == '$'

/-- The characters of a word. -/
def isWordPart (c : Char) : Bool :=
  isWordStart c || c.isDigit

/-- The value of a hexadecimal digit. -/
def hexDigit? (c : Char) : Option Nat :=
  if c.isDigit then some (c.toNat - '0'.toNat)
  else if 'a' ≤ c ∧ c ≤ 'f' then some (c.toNat - 'a'.toNat + 10)
  else if 'A' ≤ c ∧ c ≤ 'F' then some (c.toNat - 'A'.toNat + 10)
  else none

/-- The character with a code of four hexadecimal digits, if it is one. -/
def unicodeEscape? (a b c d : Char) : Option Char :=
  match hexDigit? a, hexDigit? b, hexDigit? c, hexDigit? d with
  | some a, some b, some c, some d =>
    let code := ((a * 16 + b) * 16 + c) * 16 + d
    if code.isValidChar then some (Char.ofNat code) else none
  | _, _, _, _ => none

/-- The character that a backslash and another character stand for. -/
def simpleEscape? (c : Char) : Option Char :=
  if c = '\x22' ∨ c = '\x27' ∨ c = '\\' then some c
  else if c = 'n' then some '\n'
  else if c = 'r' then some '\r'
  else if c = 't' then some '\t'
  else none

/-- The characters of a string literal up to its closing quote, and what follows. No line ends
inside a literal. -/
def stringBody? : List Char → Option (List Char × List Char)
  | [] => none
  | '\x22' :: rest => some ([], rest)
  | '\\' :: 'u' :: a :: b :: c :: d :: rest =>
    match unicodeEscape? a b c d with
    | some x => (stringBody? rest).map fun body => (x :: body.1, body.2)
    | none => none
  | '\\' :: c :: rest =>
    match simpleEscape? c with
    | some x => (stringBody? rest).map fun body => (x :: body.1, body.2)
    | none => none
  | c :: rest =>
    if c = '\n' ∨ c = '\r' ∨ c = '\\' then none
    else (stringBody? rest).map fun body => (c :: body.1, body.2)

/-- The text behind a number, unless a word or a number follows it at once. -/
def behindNumber? (rest : List Char) : Option (List Char) :=
  match rest with
  | c :: _ => if isWordPart c then none else some rest
  | [] => some rest

/-- A decimal number and what follows. Only zero itself begins with a zero before the point. -/
def number? (first : Char) (rest : List Char) : Option (Number × List Char) :=
  let whole := rest.takeWhile Char.isDigit
  if first = '0' ∧ whole ≠ [] then none
  else match rest.dropWhile Char.isDigit with
    | '.' :: after =>
      (behindNumber? (after.dropWhile Char.isDigit)).map fun rest =>
        (.ofParts (first :: whole) (after.takeWhile Char.isDigit), rest)
    | after => (behindNumber? after).map fun rest => (.ofParts (first :: whole) [], rest)

/-- The token at the front of a text and what follows. -/
def token? (first : Char) (rest : List Char) : Option (Token × List Char) :=
  if isWordStart first then
    some (.word (String.ofList (first :: rest.takeWhile isWordPart)), rest.dropWhile isWordPart)
  else if first.isDigit then
    (number? first rest).map fun read => (.number read.1, read.2)
  else if first = '\x22' then
    (stringBody? rest).map fun body => (.text (String.ofList body.1), body.2)
  else
    (Punctuator.longest? (first :: rest)).map fun p =>
      (.punct p, (first :: rest).drop p.spelling.length)

/-- The characters that end a line. -/
def isLineEnd (c : Char) : Bool :=
  c == '\n' || c == '\r' || c == '\u2028' || c == '\u2029'

/-- What may stand between two tokens, and where the reader is in it. -/
inductive Trivia where
  | space | line | block
deriving DecidableEq, Repr, Inhabited

/-- The text from the next token on; nothing if a line ends before it or a comment is not closed. -/
def skip? : Trivia → List Char → Option (List Char)
  | .space, ' ' :: cs => skip? .space cs
  | .space, '\t' :: cs => skip? .space cs
  | .space, '/' :: '/' :: cs => skip? .line cs
  | .space, '/' :: '*' :: cs => skip? .block cs
  | .space, cs => some cs
  | .line, c :: cs => if isLineEnd c then none else skip? .line cs
  | .line, [] => some []
  | .block, '*' :: '/' :: cs => skip? .space cs
  | .block, c :: cs => if isLineEnd c then none else skip? .block cs
  | .block, [] => none

/-- The tokens of a text, if there are fewer than `n`. -/
def tokensUpTo : Nat → List Char → Option (List Token)
  | 0, _ => none
  | n + 1, cs =>
    match skip? .space cs with
    | none => none
    | some [] => some []
    | some (first :: rest) =>
      match token? first rest with
      | none => none
      | some (token, after) => (tokensUpTo n after).map (token :: ·)

/-- The tokens of a text. There are no more of them than characters. -/
def tokens (text : String) : Option (List Token) :=
  tokensUpTo (text.toList.length + 1) text.toList

/-! ## Texts and their tokens -/

/-- In front of `rest`, the characters `cs` are read as the tokens `ts`. -/
def Lexes (cs : List Char) (ts : List Token) (rest : List Char) : Prop :=
  ts.length ≤ cs.length ∧
    ∀ n, tokensUpTo (ts.length + n) (cs ++ rest) = (tokensUpTo n rest).map (ts ++ ·)

namespace Lexes

variable {cs cs' : List Char} {ts ts' : List Token} {rest : List Char}

theorem nil (rest : List Char) : Lexes [] [] rest :=
  ⟨Nat.le_refl _, fun n => by simp⟩

theorem append (h : Lexes cs ts (cs' ++ rest)) (h' : Lexes cs' ts' rest) :
    Lexes (cs ++ cs') (ts ++ ts') rest := by
  refine ⟨?_, fun n => ?_⟩
  · have := h.1
    have := h'.1
    simp only [List.length_append]
    omega
  · rw [List.length_append, Nat.add_assoc, List.append_assoc, h.2, h'.2]
    simp [Function.comp_def]

theorem space (rest : List Char) : Lexes [' '] [] rest := by
  refine ⟨Nat.zero_le _, fun n => ?_⟩
  rw [List.length_nil, Nat.zero_add]
  cases n with
  | zero => rfl
  | succ n => 
    change tokensUpTo (n + 1) (' ' :: rest) = _
    rw [tokensUpTo, tokensUpTo, skip?]
    simp

/-- A single token that no separator or comment begins with. -/
theorem single {first : Char} {more : List Char} {token : Token}
    (hskip : skip? .space (first :: more ++ rest) = some (first :: more ++ rest))
    (htoken : token? first (more ++ rest) = some (token, rest)) :
    Lexes (first :: more) [token] rest := by
  refine ⟨by simp, fun n => ?_⟩
  rw [List.length_singleton, Nat.add_comm, tokensUpTo, hskip]
  simp only [List.cons_append, htoken]
  rfl

/-- The tokens of a whole text. -/
theorem tokens_eq {text : String} (h : Lexes text.toList ts []) : tokens text = some ts := by
  have hlen := h.1
  obtain ⟨n, hn⟩ : ∃ n, text.toList.length + 1 = ts.length + (n + 1) :=
    ⟨text.toList.length - ts.length, by omega⟩
  have hread := h.2 (n + 1)
  rw [List.append_nil] at hread
  rw [tokens, hn, hread]
  simp [tokensUpTo, skip?]

end Lexes

/-! ## Punctuators -/

/-- No punctuator is written like `p` and the next character. -/
def Punctuator.Clear (p : Punctuator) (rest : List Char) : Prop :=
  ∀ c ∈ rest.head?, ∀ q ∈ list, ¬ p.spelling ++ [c] <+: q.spelling

namespace Punctuator

variable {p : Punctuator} {rest : List Char}

theorem spelling_ne_nil (p : Punctuator) : p.spelling ≠ [] := by
  cases p <;> decide

theorem Clear.longest? (h : p.Clear rest) : longest? (p.spelling ++ rest) = some p := by
  have heq : ∀ q ∈ list, q.spelling.isPrefixOf (p.spelling ++ rest) =
      q.spelling.isPrefixOf p.spelling := by
    intro q hq
    rw [Bool.eq_iff_iff, List.isPrefixOf_iff_prefix, List.isPrefixOf_iff_prefix]
    refine ⟨fun hpre => ?_, fun hpre => hpre.trans (List.prefix_append _ _)⟩
    rcases List.prefix_or_prefix_of_prefix hpre (List.prefix_append _ _) with hshort | hlong
    · exact hshort
    · -- a longer spelling would go on with the next character
      obtain ⟨more, hmore⟩ := hlong
      cases more with
      | nil => rw [← hmore, List.append_nil]
      | cons c more =>
        rw [← hmore, List.prefix_append_right_inj] at hpre
        obtain ⟨after, rfl⟩ := hpre
        refine absurd ?_ (h c rfl q hq)
        rw [← hmore, List.prefix_append_right_inj]
        exact ⟨more, rfl⟩
  rw [Punctuator.longest?, ← longest?_spelling p, Punctuator.longest?]
  exact List.find?_congr heq

/-- Spaces, and everything that can begin an operand other than a sign, stand clear. -/
theorem clear_of_not_mem (h : ∀ c ∈ rest.head?, ∀ q ∈ list, c ∉ q.spelling.tail) :
    p.Clear rest := by
  rintro c hc q hq ⟨more, hmore⟩
  refine h c hc q hq ?_
  cases hp : p.spelling with
  | nil => exact absurd hp p.spelling_ne_nil
  | cons first tail =>
    rw [← hmore, hp]
    simp

/-- Nothing but itself begins like a bracket or a comma. -/
theorem clear_of_single (h : ∀ q ∈ list, p.spelling <+: q.spelling → q = p) (rest : List Char) :
    p.Clear rest := by
  intro c _ q hq hpre
  have hq := h q hq ((List.prefix_append _ _).trans hpre)
  subst hq
  have := hpre.length_le
  simp at this

end Punctuator

namespace Lexes

variable {rest : List Char}

theorem skip?_of_ne {first : Char} {cs : List Char} (hspace : first ≠ ' ') (htab : first ≠ '\t')
    (hslash : first ≠ '/') : skip? .space (first :: cs) = some (first :: cs) := by
  rw [skip?.eq_def]
  split <;> simp_all

/-- A punctuator that stands clear of what follows and does not open a comment. -/
theorem punct {p : Punctuator} (h : p.Clear rest)
    (hslash : p = .slash → rest.head? = some ' ') : Lexes p.spelling [.punct p] rest := by
  have hlongest := h.longest?
  have hfirst : p.spelling.head?.all (fun first => !isWordStart first && !first.isDigit &&
      first != '\x22' && first != ' ' && first != '\t' &&
      (first != '/' || p == .slash || p == .slashAssign)) = true := by
    cases p <;> decide
  cases hp : p.spelling with
  | nil => exact absurd hp p.spelling_ne_nil
  | cons first more =>
    rw [hp] at hlongest hfirst
    simp only [List.head?_cons, Option.all_some, Bool.and_eq_true, Bool.not_eq_true', bne_iff_ne,
      Bool.or_eq_true, beq_iff_eq] at hfirst
    obtain ⟨⟨⟨⟨⟨hword, hdigit⟩, hquote⟩, hspace⟩, htab⟩, hopens⟩ := hfirst
    have htoken : token? first (more ++ rest) = some (.punct p, rest) := by
      rw [List.cons_append] at hlongest
      rw [token?, hword, hdigit, hlongest]
      simp [hquote, hp]
    refine single ?_ htoken
    by_cases hcomment : first = '/'
    · subst hcomment
      rcases hopens with (hne | rfl) | rfl
      · exact absurd rfl hne
      · obtain ⟨rfl⟩ := (by simpa [Punctuator.spelling] using hp : more = [])
        cases rest with
        | nil => cases hslash rfl
        | cons c rest =>
          obtain rfl := Option.some.inj (hslash rfl)
          rfl
      · obtain ⟨rfl⟩ := (by simpa [Punctuator.spelling, eq_comm] using hp : more = ['='])
        rfl
    · exact skip?_of_ne hspace htab hcomment

/-- A punctuator of one character that no other begins with, in front of any text. -/
theorem mark {c : Char} {cs : List Char} {ts : List Token} (p : Punctuator) (hp : p.spelling = [c])
    (hsingle : ∀ q ∈ Punctuator.list, p.spelling <+: q.spelling → q = p) (h : Lexes cs ts rest) :
    Lexes (c :: cs) (.punct p :: ts) rest := by
  have hfirst : Lexes p.spelling [.punct p] (cs ++ rest) := by
    refine punct (Punctuator.clear_of_single hsingle _) ?_
    rintro rfl
    have hassign := hsingle .slashAssign (Punctuator.mem_list _) (by decide)
    cases hassign
  rw [hp] at hfirst
  exact hfirst.append h

/-- A space in front of a text. -/
theorem spaced {cs : List Char} {ts : List Token} (h : Lexes cs ts rest) :
    Lexes (' ' :: cs) ts rest :=
  (space (cs ++ rest)).append h

/-- An operator in front of a space. -/
theorem operator {cs : List Char} {ts : List Token} (p : Punctuator)
    (h : Lexes (' ' :: cs) ts rest) :
    Lexes (p.spelling ++ ' ' :: cs) (.punct p :: ts) rest := by
  refine (punct (Punctuator.clear_of_not_mem ?_) fun _ => rfl).append h
  intro c hc
  obtain rfl := Option.some.inj hc
  decide

end Lexes

/-! ## Words, numbers and texts -/

/-- Neither a word nor a number goes on with the text. -/
def Breaks (rest : List Char) : Prop :=
  ∀ c ∈ rest.head?, isWordPart c = false ∧ c ≠ '.'

namespace Breaks

variable {rest : List Char}

theorem isDigit (h : Breaks rest) : ∀ c ∈ rest.head?, c.isDigit = false :=
  fun c hc => (Bool.or_eq_false_iff.1 (h c hc).1).2

theorem behindNumber? (h : Breaks rest) : behindNumber? rest = some rest := by
  cases rest with
  | nil => rfl
  | cons c rest => simp [JavaScript.behindNumber?, (h c rfl).1]

end Breaks

theorem number?_of_numeral {v : Number} {first : Char} {more rest : List Char}
    (h : v.Numeral (first :: more)) (hrest : Breaks rest) :
    number? first (more ++ rest) = some (v, rest) := by
  obtain ⟨digit, whole, -, hwhole, hzero, hshape⟩ := h
  rcases hshape with ⟨htext, rfl⟩ | ⟨fraction, hfraction, htext, rfl⟩
  · obtain ⟨rfl, rfl⟩ := List.cons.inj htext
    have hzero : ¬ (first = '0' ∧ more ≠ []) := fun hz => hz.2 (hzero hz.1)
    simp only [number?, takeWhile_of_run hwhole hrest.isDigit,
      dropWhile_of_run hwhole hrest.isDigit, if_neg hzero]
    split
    · exact absurd rfl (hrest '.' rfl).2
    · rw [hrest.behindNumber?]
      rfl
  · obtain ⟨rfl, rfl⟩ := List.cons.inj htext
    have hpoint : ∀ c ∈ ('.' :: (fraction ++ rest)).head?, c.isDigit = false := by
      intro c hc
      obtain rfl := Option.some.inj hc
      rfl
    have hzero : ¬ (first = '0' ∧ whole ≠ []) := fun hz => hz.2 (hzero hz.1)
    simp only [number?, List.append_eq, List.append_assoc, List.cons_append,
      takeWhile_of_run hwhole hpoint, dropWhile_of_run hwhole hpoint, if_neg hzero,
      takeWhile_of_run hfraction hrest.isDigit, dropWhile_of_run hfraction hrest.isDigit,
      hrest.behindNumber?, Option.map_some]

/-- A character is read back from the way it stands in a string literal. -/
theorem stringBody?_escapeChar (c : Char) (rest : List Char) :
    stringBody? (Literal.escapeChar c ++ rest) =
      (stringBody? rest).map fun body => (c :: body.1, body.2) := by
  unfold Literal.escapeChar
  split_ifs with hquote hback hline hreturn htab hcontrol
  · subst hquote
    simp [stringBody?, simpleEscape?]
  · subst hback
    simp [stringBody?, simpleEscape?]
  · subst hline
    simp [stringBody?, simpleEscape?]
  · subst hreturn
    simp [stringBody?, simpleEscape?]
  · subst htab
    simp [stringBody?, simpleEscape?]
  · have hcode : ∀ n : Fin 32, unicodeEscape? '0' '0' (Nat.digitChar (n / 16))
        (Nat.digitChar (n % 16)) = some (Char.ofNat n) := by decide
    have hread := hcode ⟨c.toNat, hcontrol⟩
    rw [Char.ofNat_toNat] at hread
    simp only [List.cons_append, List.nil_append, stringBody?, hread]
  · rw [List.singleton_append, stringBody?.eq_def]
    split <;> simp_all

/-- A text is read back from its string literal, whatever follows. -/
theorem stringBody?_flatMap (cs rest : List Char) :
    stringBody? (cs.flatMap Literal.escapeChar ++ '\x22' :: rest) = some (cs, rest) := by
  induction cs with
  | nil => rfl
  | cons c cs ih =>
    rw [List.flatMap_cons, List.append_assoc, stringBody?_escapeChar, ih]
    rfl

namespace Lexes

variable {first : Char} {more rest : List Char}

theorem word (hfirst : isWordStart first = true) (hmore : ∀ c ∈ more, isWordPart c = true)
    (hrest : Breaks rest) : Lexes (first :: more) [.word (String.ofList (first :: more))] rest := by
  have hbreak : ∀ c ∈ rest.head?, isWordPart c = false := fun c hc => (hrest c hc).1
  refine single (skip?_of_ne ?_ ?_ ?_) ?_
  · rintro rfl
    cases hfirst
  · rintro rfl
    cases hfirst
  · rintro rfl
    cases hfirst
  · rw [token?, if_pos hfirst, takeWhile_of_run hmore hbreak, dropWhile_of_run hmore hbreak]

theorem number {v : Number} {text : List Char} (h : v.Numeral text) (hrest : Breaks rest) :
    Lexes text [.number v] rest := by
  obtain ⟨first, more, rfl, hdigit⟩ :
      ∃ first more, text = first :: more ∧ first.isDigit = true := by
    obtain ⟨first, whole, hdigit, -, -, ⟨rfl, -⟩ | ⟨fraction, -, rfl, -⟩⟩ := h
    · exact ⟨first, whole, rfl, hdigit⟩
    · exact ⟨first, _, rfl, hdigit⟩
  have hword : isWordStart first = false := by
    have hchar : (first.isAlpha || first == '_') = false := isWordChar_of_isDigit hdigit
    rw [isWordStart, hchar, Bool.false_or, beq_eq_false_iff_ne]
    rintro rfl
    cases hdigit
  refine single (skip?_of_ne ?_ ?_ ?_) ?_
  · rintro rfl
    cases hdigit
  · rintro rfl
    cases hdigit
  · rintro rfl
    cases hdigit
  · rw [token?, hword, hdigit, number?_of_numeral h hrest]
    rfl

theorem quoted (text : String) (rest : List Char) :
    Lexes (Literal.quotedChars text.toList) [.text text] rest := by
  refine single (skip?_of_ne (by decide) (by decide) (by decide)) ?_
  rw [List.append_eq, List.append_assoc, List.singleton_append, token?, stringBody?_flatMap,
    if_neg (by decide), if_neg (by decide), if_pos rfl, Option.map_some, String.ofList_toList]

end Lexes

end Resin.JavaScript
