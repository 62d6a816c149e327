import Resin.Proofs.JavaScript.Token
import Resin.Proofs.Scan.Basic
import Resin.Proofs.Script.Interpolation

/-!
# The values of literals

The host language reads a string literal and a template literal by the same escapes, but not by the
same rules for what stands unescaped: no line may end in a string literal, while in a template
literal a line end is a part of the value. There, a carriage return is read as a line feed, and so
is a carriage return with a line feed behind it. Escapes are those of strict code. The value of a
literal is a list of UTF-16 code units.

A text is the value of its string literal (`string?_quoted`). The template literal of a text without
regions has no substitution, and its value is the text with its line ends read as line feeds
(`templateBody?_templateChars`). So the two agree exactly if the text has no carriage return
(`templateScript_value`).
-/

namespace Resin

namespace JavaScript

/-! ## Code units -/

/-- The code units of a code point. -/
def codeUnits (code : Nat) : List Nat :=
  if code < 0x10000 then [code]
  else [0xD800 + (code - 0x10000) / 0x400, 0xDC00 + (code - 0x10000) % 0x400]

/-- The code units of a text. -/
def units (cs : List Char) : List Nat :=
  cs.flatMap fun c => codeUnits c.toNat

@[simp] theorem units_nil : units [] = [] := rfl

@[simp] theorem units_cons (c : Char) (cs : List Char) :
    units (c :: cs) = codeUnits c.toNat ++ units cs := rfl

theorem codeUnits_ne_nil (code : Nat) : codeUnits code ≠ [] := by
  unfold codeUnits
  split <;> simp

/-- The first character can be told from the code units of a text. -/
theorem codeUnits_append_inj {c d : Char} {us vs : List Nat}
    (h : codeUnits c.toNat ++ us = codeUnits d.toNat ++ vs) : c = d ∧ us = vs := by
  -- a pair begins with a number that is no character
  have hc : c.toNat < 0xD800 ∨ 0xDFFF < c.toNat ∧ c.toNat < 0x110000 := c.valid
  have hd : d.toNat < 0xD800 ∨ 0xDFFF < d.toNat ∧ d.toNat < 0x110000 := d.valid
  rw [← Char.toNat_inj]
  unfold codeUnits at h
  split at h <;> split at h <;>
    simp only [List.cons_append, List.nil_append, List.cons.injEq] at h
  · exact h
  · omega
  · omega
  · exact ⟨by omega, h.2.2⟩

theorem units_injective {cs ds : List Char} (h : units cs = units ds) : cs = ds := by
  induction cs generalizing ds with
  | nil =>
    cases ds with
    | nil => rfl
    | cons d ds => simp [codeUnits_ne_nil] at h
  | cons c cs ih =>
    cases ds with
    | nil => simp [codeUnits_ne_nil] at h
    | cons d ds =>
      obtain ⟨rfl, hmore⟩ := codeUnits_append_inj h
      rw [ih hmore]

/-! ## Escapes -/

/-- The number that hexadecimal digits write. -/
def hexValue? (cs : List Char) : Option Nat :=
  if cs.isEmpty then none
  else cs.foldlM (fun code c => (hexDigit? c).map (code * 16 + ·)) 0

/-- The code point written with exactly `n` hexadecimal digits, and what follows. -/
def hexEscape? (n : Nat) (cs : List Char) : Option (List Nat × List Char) :=
  if cs.length < n then none
  else (hexValue? (cs.take n)).map fun code => (codeUnits code, cs.drop n)

/-- The code point written with hexadecimal digits up to a closing brace, and what follows. -/
def bracedEscape? (cs : List Char) : Option (List Nat × List Char) :=
  match hexValue? (cs.takeWhile (· ≠ '}')), cs.dropWhile (· ≠ '}') with
  | some code, _ :: rest => if code ≤ 0x10FFFF then some (codeUnits code, rest) else none
  | _, _ => none

/-- The code of the character that a backslash and a character stand for. -/
def escapeCode (c : Char) : Nat :=
  match c with
  | 'b' => 8
  | 't' => 9
  | 'n' => 10
  | 'v' => 11
  | 'f' => 12
  | 'r' => 13
  | c => c.toNat

/-- What the characters behind a backslash stand for, and what follows them. A line end stands for
nothing, and a digit is an escape only if it is a zero with no digit behind it. -/
def escape? : List Char → Option (List Nat × List Char)
  | [] => none
  | 'x' :: cs => hexEscape? 2 cs
  | 'u' :: '{' :: cs => bracedEscape? cs
  | 'u' :: cs => hexEscape? 4 cs
  | '\r' :: '\n' :: cs => some ([], cs)
  | c :: cs =>
    if isLineEnd c then some ([], cs)
    else if c.isDigit then
      if c = '0' ∧ ¬ cs.head?.any Char.isDigit then some ([0], cs) else none
    else some (codeUnits (escapeCode c), cs)

theorem length_hexEscape? {n : Nat} {cs rest : List Char} {value : List Nat}
    (h : hexEscape? n cs = some (value, rest)) : rest.length ≤ cs.length := by
  unfold hexEscape? at h
  split at h
  · cases h
  · obtain ⟨code, -, heq⟩ := Option.map_eq_some_iff.1 h
    cases heq
    simp

theorem length_bracedEscape? {cs rest : List Char} {value : List Nat}
    (h : bracedEscape? cs = some (value, rest)) : rest.length ≤ cs.length := by
  have hdrop : (cs.dropWhile (· ≠ '}')).length ≤ cs.length := (List.dropWhile_suffix _).length_le
  unfold bracedEscape? at h
  split at h
  · next hcode hrest =>
    split at h
    · cases h
      rw [hrest, List.length_cons] at hdrop
      omega
    · cases h
  · cases h

/-- An escape leaves less than there was. -/
theorem length_escape? {cs rest : List Char} {value : List Nat}
    (h : escape? cs = some (value, rest)) : rest.length < cs.length := by
  unfold escape? at h
  split at h
  · cases h
  · exact Nat.lt_succ_of_le (length_hexEscape? h)
  · have := length_bracedEscape? h
    simp only [List.length_cons]
    omega
  · exact Nat.lt_succ_of_le (length_hexEscape? h)
  · cases h
    simp only [List.length_cons]
    omega
  · next c cs _ _ _ _ =>
    have hrest : rest = cs := by
      split_ifs at h <;> cases h <;> rfl
    rw [hrest, List.length_cons]
    exact Nat.lt_succ_self _

/-! ## String literals -/

/-- The value of a string literal between double quotes from behind its opening quote on, and what
follows the literal. -/
def stringUnits? : List Char → Option (List Nat × List Char)
  | [] => none
  | '\x22' :: cs => some ([], cs)
  | '\\' :: cs =>
    match h : escape? cs with
    | none => none
    | some (value, rest) =>
      have := length_escape? h
      (stringUnits? rest).map fun read => (value ++ read.1, read.2)
  | c :: cs =>
    if c = '\n' ∨ c = '\r' then none
    else (stringUnits? cs).map fun read => (codeUnits c.toNat ++ read.1, read.2)
termination_by cs => cs.length

/-- The value of a string literal at the front of a text, and what follows the literal. -/
def string? (code : String) : Option (List Nat × List Char) :=
  match code.toList with
  | '\x22' :: cs => stringUnits? cs
  | _ => none

theorem stringUnits?_escape {cs rest : List Char} {value : List Nat}
    (h : escape? cs = some (value, rest)) :
    stringUnits? ('\\' :: cs) = (stringUnits? rest).map fun read => (value ++ read.1, read.2) := by
  rw [stringUnits?]
  split <;> simp_all

theorem toNat_ofNat {code : Nat} (h : code.isValidChar) : (Char.ofNat code).toNat = code := by
  rw [Char.ofNat, dif_pos h]
  rfl

theorem escape?_of_unicodeEscape? {a b c d x : Char} (h : unicodeEscape? a b c d = some x)
    (rest : List Char) :
    escape? ('u' :: a :: b :: c :: d :: rest) = some (codeUnits x.toNat, rest) := by
  unfold unicodeEscape? at h
  split at h
  · next i j k l ha hb hc hd =>
    -- a digit is no brace, so these are four digits and not a code between braces
    have hne : a ≠ '{' := by
      rintro rfl
      cases ha
    have hvalue : hexValue? [a, b, c, d] = some (((i * 16 + j) * 16 + k) * 16 + l) := by
      simp [hexValue?, ha, hb, hc, hd]
    simp only [Option.ite_none_right_eq_some, Option.some.injEq] at h
    obtain ⟨hvalid, rfl⟩ := h
    rw [toNat_ofNat hvalid]
    simp [escape?, hne, hexEscape?, hvalue]
  · cases h

theorem escape?_of_simpleEscape? {c x : Char} (h : simpleEscape? c = some x) (rest : List Char) :
    escape? (c :: rest) = some (codeUnits x.toNat, rest) := by
  unfold simpleEscape? at h
  split_ifs at h with hself hline hreturn htab
  · obtain rfl | rfl | rfl := hself <;> cases h <;> rfl
  · subst hline
    cases h
    rfl
  · subst hreturn
    cases h
    rfl
  · subst htab
    cases h
    rfl

/-- What is read as the text of a token is the value of the literal. -/
theorem stringUnits?_of_stringBody? {cs text rest : List Char}
    (h : stringBody? cs = some (text, rest)) : stringUnits? cs = some (units text, rest) := by
  fun_induction stringBody? cs generalizing text with
  | case1 => cases h
  | case2 cs =>
    cases h
    rw [stringUnits?]
    rfl
  | case3 a b c d cs x hx ih =>
    obtain ⟨⟨more, after⟩, hmore, heq⟩ := Option.map_eq_some_iff.1 h
    cases heq
    rw [stringUnits?_escape (escape?_of_unicodeEscape? hx cs), ih hmore]
    rfl
  | case4 => cases h
  | case5 c cs _ x hx ih =>
    obtain ⟨⟨more, after⟩, hmore, heq⟩ := Option.map_eq_some_iff.1 h
    cases heq
    rw [stringUnits?_escape (escape?_of_simpleEscape? hx cs), ih hmore]
    rfl
  | case6 => cases h
  | case7 => cases h
  | case8 c cs hquote _ _ hc ih =>
    -- what the token reader passes as it is stands for itself
    obtain ⟨⟨more, after⟩, hmore, heq⟩ := Option.map_eq_some_iff.1 h
    cases heq
    rw [stringUnits?.eq_def]
    split <;> simp_all

/-- A text is the value of its string literal. -/
theorem string?_quoted (text : String) :
    string? (Literal.quoted text) = some (units text.toList, []) := by
  rw [string?, Literal.quoted, String.toList_ofList, Literal.quotedChars]
  exact stringUnits?_of_stringBody? (stringBody?_flatMap text.toList [])

/-! ## Template literals -/

/-- A template literal up to its end or to its first substitution: the value of these characters,
and what follows them. -/
inductive Template where
  | noSubstitution (value : List Nat) (rest : List Char)
  | head (value : List Nat) (rest : List Char)
deriving DecidableEq, Repr

/-- A template literal with more code units at its front. -/
def Template.behind (value : List Nat) : Template → Template
  | .noSubstitution more rest => .noSubstitution (value ++ more) rest
  | .head more rest => .head (value ++ more) rest

/-- A template literal from behind its opening backtick on. -/
def templateBody? : List Char → Option Template
  | [] => none
  | '\x60' :: cs => some (.noSubstitution [] cs)
  | '$' :: '{' :: cs => some (.head [] cs)
  | '\\' :: cs =>
    match h : escape? cs with
    | none => none
    | some (value, rest) =>
      have := length_escape? h
      (templateBody? rest).map (.behind value)
  | '\r' :: cs =>
    -- a line feed behind it stands for both
    if cs.head? = some '\n' then templateBody? cs else (templateBody? cs).map (.behind [10])
  | c :: cs => (templateBody? cs).map (.behind (codeUnits c.toNat))
termination_by cs => cs.length

/-- The template literal at the front of a text. -/
def template? (code : String) : Option Template :=
  match code.toList with
  | '\x60' :: cs => templateBody? cs
  | _ => none

/-- A text with every line end that has a carriage return made a line feed. -/
def lineFeeds : List Char → List Char
  | [] => []
  | c :: cs =>
    if c = '\r' then if cs.head? = some '\n' then lineFeeds cs else '\n' :: lineFeeds cs
    else c :: lineFeeds cs

theorem return_not_mem_lineFeeds (cs : List Char) : '\r' ∉ lineFeeds cs := by
  fun_induction lineFeeds cs with
  | case1 => simp
  | case2 cs _ ih => exact ih
  | case3 cs _ ih => simpa using ih
  | case4 c cs hc ih => simpa [Ne.symm hc] using ih

/-- Only a carriage return is changed. -/
theorem lineFeeds_eq_self_iff {cs : List Char} : lineFeeds cs = cs ↔ '\r' ∉ cs := by
  constructor
  · intro h
    rw [← h]
    exact return_not_mem_lineFeeds cs
  · intro h
    induction cs with
    | nil => rfl
    | cons c cs ih =>
      obtain ⟨hc, hcs⟩ := not_or.1 (List.mem_cons.not.1 h)
      rw [lineFeeds, if_neg (Ne.symm hc), ih hcs]

theorem templateBody?_escape {cs rest : List Char} {value : List Nat}
    (h : escape? cs = some (value, rest)) :
    templateBody? ('\\' :: cs) = (templateBody? rest).map (.behind value) := by
  rw [templateBody?]
  split <;> simp_all

/-- A character that is no part of an escape, a substitution or a line end stands for itself. -/
theorem templateBody?_cons {c : Char} {cs : List Char} (hbacktick : c ≠ '\x60')
    (hbackslash : c ≠ '\\') (hreturn : c ≠ '\r') (hdollar : c = '$' → cs.head? ≠ some '{') :
    templateBody? (c :: cs) = (templateBody? cs).map (.behind (codeUnits c.toNat)) := by
  rw [templateBody?.eq_def]
  split <;> simp_all

/-- What a template literal escapes stands for itself behind a backslash. -/
theorem escape?_self {c : Char} (h : c = '\\' ∨ c = '\x60' ∨ c = '$') (cs : List Char) :
    escape? (c :: cs) = some (codeUnits c.toNat, cs) := by
  obtain rfl | rfl | rfl := h <;> rfl

/-- A text and its characters in a template literal begin alike, unless with an escape. -/
theorem head?_templateChars {cs rest : List Char} {d : Char} (hbackslash : d ≠ '\\')
    (hbacktick : d ≠ '\x60') (hdollar : d ≠ '$') :
    (Literal.templateChars cs ++ '\x60' :: rest).head? = some d ↔ cs.head? = some d := by
  fun_cases Literal.templateChars cs with
  | case1 => simp [Ne.symm hbacktick]
  | case2 cs => simp [Ne.symm hbackslash, Ne.symm hdollar]
  | case3 c cs _ hc =>
    have hne : c ≠ d := by
      rintro rfl
      exact hc.elim hbackslash hbacktick
    simp [Ne.symm hbackslash, hne]
  | case4 c cs _ hc => simp

/-- The characters of a text, written in a template literal, have no substitution and do not end it.
Their value is the text with its line ends made line feeds. -/
theorem templateBody?_templateChars (cs rest : List Char) :
    templateBody? (Literal.templateChars cs ++ '\x60' :: rest) =
      some (.noSubstitution (units (lineFeeds cs)) rest) := by
  fun_induction Literal.templateChars cs with
  | case1 =>
    rw [List.nil_append, templateBody?]
    rfl
  | case2 cs ih =>
    -- the dollar is escaped, so the brace behind it opens nothing
    simp only [List.cons_append]
    rw [templateBody?_escape (escape?_self (.inr (.inr rfl)) _),
      templateBody?_cons (by decide) (by decide) (by decide) (by simp), ih]
    rfl
  | case3 c cs _ hc ih =>
    have hreturn : c ≠ '\r' := by
      rintro rfl
      exact absurd hc (by decide)
    simp only [List.cons_append]
    rw [templateBody?_escape (escape?_self (hc.imp_right .inl) _), ih, lineFeeds, if_neg hreturn]
    rfl
  | case4 c cs hpair hc ih =>
    rw [List.cons_append]
    by_cases hreturn : c = '\r'
    · -- whether a line feed follows is the same in the text and in the literal
      have hfeed := @head?_templateChars cs rest '\n' (by decide) (by decide) (by decide)
      subst hreturn
      rw [templateBody?, lineFeeds, if_pos rfl]
      simp only [hfeed, ih]
      split <;> rfl
    · -- and a dollar that is not escaped has no brace behind it
      have hbrace := @head?_templateChars cs rest '{' (by decide) (by decide) (by decide)
      have hdollar : c = '$' → (Literal.templateChars cs ++ '\x60' :: rest).head? ≠ some '{' := by
        intro heq hhead
        obtain ⟨tail, rfl⟩ := List.head?_eq_some_iff.1 (hbrace.1 hhead)
        exact hpair tail heq rfl
      obtain ⟨hbackslash, hbacktick⟩ := not_or.1 hc
      rw [templateBody?_cons hbacktick hbackslash hreturn hdollar, ih, lineFeeds, if_neg hreturn]
      rfl

end JavaScript

open JavaScript

/-- The template literal of a text without regions is the text between backticks. -/
theorem templateScript_plain {text : String} (h : '[' ∉ text.toList) (offset : Nat) :
    templateScript text offset = .ok (.text ("`" ++ Literal.template text ++ "`")) := by
  obtain ⟨pieces, hpieces, hjoin⟩ := @Segment.mapM_script_plain text [] [] rfl
  rw [List.append_nil] at hpieces
  replace hjoin : Fragment.join "" pieces = .text (Literal.template text) :=
    hjoin.trans (Fragment.append_empty _)
  have hsplit : Segment.split text offset = .ok (Segment.plain text.toList) :=
    Segment.splitUpTo_plain h
  rw [templateScript, hsplit]
  show (List.mapM Segment.script _ >>= _) = _
  rw [hpieces]
  show Except.ok (Fragment.text "`" ++ Fragment.join "" pieces ++ Fragment.text "`") = _
  rw [hjoin, Fragment.text_append_text]
  rfl

theorem template?_template (text : String) :
    template? ("`" ++ Literal.template text ++ "`") =
      some (.noSubstitution (units (lineFeeds text.toList)) []) := by
  have hcode : ("`" ++ Literal.template text ++ "`").toList =
      '\x60' :: (Literal.templateChars text.toList ++ ['\x60']) := by
    simp [Literal.template]
  rw [template?, hcode]
  exact templateBody?_templateChars text.toList []

/-- A text without regions has a template literal and a string literal. The value of the string
literal is the text. The template literal has no substitution, and its value is the text with its
line ends made line feeds: it is the text too exactly if the text has no carriage return. -/
theorem templateScript_value {text : String} (h : '[' ∉ text.toList) (offset : Nat) :
    ∃ code, templateScript text offset = .ok (.text code) ∧
      template? code = some (.noSubstitution (units (lineFeeds text.toList)) []) ∧
      string? (Literal.quoted text) = some (units text.toList, []) ∧
      (template? code = some (.noSubstitution (units text.toList) []) ↔ '\r' ∉ text.toList) := by
  refine ⟨_, templateScript_plain h offset, template?_template text, string?_quoted text, ?_⟩
  rw [template?_template, ← lineFeeds_eq_self_iff]
  constructor
  · intro heq
    simp only [Option.some.injEq, Template.noSubstitution.injEq] at heq
    exact units_injective heq.1
  · intro heq
    rw [heq]

/-- A carriage return in front of a line feed is lost, all that is escaped is kept. -/
theorem templateScript_value_windows :
    '[' ∉ "C:\\$\x7bx\x7d\x60\r\n".toList ∧
      ∃ code, templateScript "C:\\$\x7bx\x7d\x60\r\n" 0 = .ok (.text code) ∧
        template? code = some (.noSubstitution (units "C:\\$\x7bx\x7d\x60\n".toList) []) ∧
        template? code ≠ some (.noSubstitution (units "C:\\$\x7bx\x7d\x60\r\n".toList) []) ∧
        string? (Literal.quoted "C:\\$\x7bx\x7d\x60\r\n") =
          some (units "C:\\$\x7bx\x7d\x60\r\n".toList, []) := by
  have hbracket : '[' ∉ "C:\\$\x7bx\x7d\x60\r\n".toList := by decide
  obtain ⟨code, hscript, htemplate, hstring, hsame⟩ := templateScript_value hbracket 0
  exact ⟨hbracket, code, hscript, htemplate, hsame.not.2 (by decide), hstring⟩

end Resin
