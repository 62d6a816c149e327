import Resin.Proofs.JavaScript.Literal

/-!
# Reading a string literal back

The string literal of a text is a code that ends itself: a reader at the front of the literal finds
the text and stops where the literal stops, whatever stands behind it (`unquoted?_quoted`). It needs
no more than the escapes that are written, and it agrees with the host language. So no literal is
the beginning of another one, and different texts have different literals (`quoted_decodable`).
-/

namespace Resin

namespace Literal

/-! ## The reader -/

/-- The character that a backslash and another character stand for. -/
def escaped? (c : Char) : Option Char :=
  if c = '\x22' ∨ c = '\\' then some c
  else if c = 'n' then some '\n'
  else if c = 'r' then some '\r'
  else if c = 't' then some '\t'
  else none

/-- The text of a string literal from behind its opening quote on, and what follows the literal. A
raw line feed or carriage return ends the reading; every other character may stand as it is. -/
def unquotedChars? : List Char → Option (List Char × List Char)
  | [] => none
  | '\x22' :: rest => some ([], rest)
  | '\\' :: 'u' :: a :: b :: c :: d :: rest =>
    match JavaScript.unicodeEscape? a b c d with
    | some x => (unquotedChars? rest).map fun read => (x :: read.1, read.2)
    | none => none
  | '\\' :: c :: rest =>
    match escaped? c with
    | some x => (unquotedChars? rest).map fun read => (x :: read.1, read.2)
    | none => none
  | c :: rest =>
    if c = '\n' ∨ c = '\r' ∨ c = '\\' then none
    else (unquotedChars? rest).map fun read => (c :: read.1, read.2)

/-- The text of the string literal at the front of a text, and what follows the literal. -/
def unquoted? (code : String) : Option (String × String) :=
  match code.toList with
  | '\x22' :: cs =>
    (unquotedChars? cs).map fun read => (String.ofList read.1, String.ofList read.2)
  | _ => none

/-! ## Reading what is written -/

/-- The code of a control character has two digits that are not zero at most. -/
theorem unicodeEscape?_control {c : Char} (h : c.toNat < 0x20) :
    JavaScript.unicodeEscape? '0' '0' (Nat.digitChar (c.toNat / 16))
      (Nat.digitChar (c.toNat % 16)) = some c := by
  have hcode : ∀ n : Fin 0x20, JavaScript.unicodeEscape? '0' '0' (Nat.digitChar (n / 16))
      (Nat.digitChar (n % 16)) = some (Char.ofNat n) := by decide
  have hread := hcode ⟨c.toNat, h⟩
  rwa [Char.ofNat_toNat] at hread

/-- A character that needs no escape stands for itself. -/
theorem unquotedChars?_cons {c : Char} (hquote : c ≠ '\x22') (hbackslash : c ≠ '\\')
    (hline : c ≠ '\n') (hreturn : c ≠ '\r') (rest : List Char) :
    unquotedChars? (c :: rest) =
      (unquotedChars? rest).map fun read => (c :: read.1, read.2) := by
  rw [unquotedChars?.eq_def]
  split <;> simp_all

/-- A character is read back from the way it is written. -/
theorem unquotedChars?_escapeChar (c : Char) (rest : List Char) :
    unquotedChars? (escapeChar c ++ rest) =
      (unquotedChars? rest).map fun read => (c :: read.1, read.2) := by
  unfold escapeChar
  split_ifs with hquote hbackslash hline hreturn htab hcontrol
  · subst hquote
    simp [unquotedChars?, escaped?]
  · subst hbackslash
    simp [unquotedChars?, escaped?]
  · subst hline
    simp [unquotedChars?, escaped?]
  · subst hreturn
    simp [unquotedChars?, escaped?]
  · subst htab
    simp [unquotedChars?, escaped?]
  · simp only [List.cons_append, List.nil_append, unquotedChars?, unicodeEscape?_control hcontrol]
  · exact unquotedChars?_cons hquote hbackslash hline hreturn rest

theorem unquotedChars?_flatMap (cs rest : List Char) :
    unquotedChars? (cs.flatMap escapeChar ++ '\x22' :: rest) = some (cs, rest) := by
  induction cs with
  | nil => rfl
  | cons c cs ih =>
    rw [List.flatMap_cons, List.append_assoc, unquotedChars?_escapeChar, ih]
    rfl

theorem toList_quoted_append (text rest : String) :
    (quoted text ++ rest).toList =
      '\x22' :: (text.toList.flatMap escapeChar ++ '\x22' :: rest.toList) := by
  simp [quoted, quotedChars]

/-- A text is read back from its literal, and the reader stops behind the literal. -/
theorem unquoted?_quoted (text rest : String) :
    unquoted? (quoted text ++ rest) = some (text, rest) := by
  rw [unquoted?, toList_quoted_append]
  simp only [unquotedChars?_flatMap, Option.map_some, String.ofList_toList]

/-- No literal is the beginning of another one. -/
theorem quoted_append_inj {text other rest after : String}
    (h : quoted text ++ rest = quoted other ++ after) : text = other ∧ rest = after := by
  have hread := unquoted?_quoted text rest
  rw [h, unquoted?_quoted] at hread
  simpa [eq_comm] using hread

theorem quoted_injective : Function.Injective quoted := by
  intro text other h
  exact (quoted_append_inj (congrArg (· ++ "") h)).1

/-! ## Agreement with the host language -/

theorem simpleEscape?_of_escaped? {c x : Char} (h : escaped? c = some x) :
    JavaScript.simpleEscape? c = some x := by
  unfold escaped? at h
  unfold JavaScript.simpleEscape?
  split_ifs at h with hself hline hreturn htab
  · rwa [if_pos (hself.imp_right .inr)]
  all_goals
    subst c
    exact h

/-- What the reader finds in a literal is the text of the token that the literal is. -/
theorem stringBody?_of_unquotedChars? {cs text rest : List Char}
    (h : unquotedChars? cs = some (text, rest)) :
    JavaScript.stringBody? cs = some (text, rest) := by
  fun_induction unquotedChars? cs generalizing text with
  | case1 => cases h
  | case2 cs =>
    cases h
    rfl
  | case3 a b c d cs x hx ih =>
    obtain ⟨⟨more, after⟩, hmore, heq⟩ := Option.map_eq_some_iff.1 h
    cases heq
    simp only [JavaScript.stringBody?, hx, ih hmore, Option.map_some]
  | case4 => cases h
  | case5 c cs hlong x hx ih =>
    obtain ⟨⟨more, after⟩, hmore, heq⟩ := Option.map_eq_some_iff.1 h
    cases heq
    rw [JavaScript.stringBody?, simpleEscape?_of_escaped? hx]
    · simp only [ih hmore, Option.map_some]
    · exact hlong
  | case6 => cases h
  | case7 => cases h
  | case8 c cs hquote _ _ hc ih =>
    obtain ⟨⟨more, after⟩, hmore, heq⟩ := Option.map_eq_some_iff.1 h
    cases heq
    rw [JavaScript.stringBody?.eq_def]
    split <;> simp_all

/-- What the reader finds is the value of the literal in the host language. -/
theorem string?_of_unquoted? {code text rest : String} (h : unquoted? code = some (text, rest)) :
    JavaScript.string? code = some (JavaScript.units text.toList, rest.toList) := by
  unfold unquoted? at h
  split at h
  · next cs hcode =>
    obtain ⟨⟨chars, after⟩, hread, heq⟩ := Option.map_eq_some_iff.1 h
    cases heq
    rw [JavaScript.string?, hcode, String.toList_ofList, String.toList_ofList]
    exact JavaScript.stringUnits?_of_stringBody? (stringBody?_of_unquotedChars? hread)
  · cases h

/-! ## What is never written -/

/-- Escaping leaves no control character. -/
theorem le_toNat_of_mem_escapeChar {c x : Char} (h : x ∈ escapeChar c) : 0x20 ≤ x.toNat := by
  have hdigit : ∀ n : Fin 16, 0x20 ≤ (Nat.digitChar n).toNat := by decide
  unfold escapeChar at h
  split_ifs at h with hquote hbackslash hline hreturn htab hcontrol
  all_goals simp only [List.mem_cons, List.not_mem_nil, or_false] at h
  · obtain rfl | rfl := h <;> decide
  · obtain rfl | rfl := h <;> decide
  · obtain rfl | rfl := h <;> decide
  · obtain rfl | rfl := h <;> decide
  · obtain rfl | rfl := h <;> decide
  · obtain rfl | rfl | rfl | rfl | rfl | rfl := h
    · decide
    · decide
    · decide
    · decide
    · exact hdigit ⟨c.toNat / 16, by omega⟩
    · exact hdigit ⟨c.toNat % 16, by omega⟩
  · rw [h]
    exact Nat.not_lt.1 hcontrol

theorem le_toNat_of_mem_quoted {text : String} {x : Char} (h : x ∈ (quoted text).toList) :
    0x20 ≤ x.toNat := by
  rw [quoted, String.toList_ofList, quotedChars, List.mem_append, List.mem_cons,
    List.mem_flatMap, List.mem_singleton] at h
  obtain (rfl | ⟨c, -, hx⟩) | rfl := h
  · decide
  · exact le_toNat_of_mem_escapeChar hx
  · decide

end Literal

open JavaScript

/-- Whatever stands behind the literal of a text, reading from the front of the literal succeeds,
gives the text and stops behind the literal, with no other escapes than those that are written and
by the rules of the host language alike. The literal has no control character. Literals with texts
behind them are equal only if the literals are, and different texts have different literals. -/
theorem quoted_decodable (text rest : String) :
    Literal.unquoted? (Literal.quoted text ++ rest) = some (text, rest) ∧
      string? (Literal.quoted text ++ rest) = some (units text.toList, rest.toList) ∧
      (∀ c ∈ (Literal.quoted text).toList, 0x20 ≤ c.toNat) ∧
      (∀ other after, Literal.quoted text ++ rest = Literal.quoted other ++ after →
        text = other ∧ rest = after) ∧
      Function.Injective Literal.quoted := by
  have hread := Literal.unquoted?_quoted text rest
  exact ⟨hread, Literal.string?_of_unquoted? hread, fun c => Literal.le_toNat_of_mem_quoted,
    fun other after => Literal.quoted_append_inj, Literal.quoted_injective⟩

-- a trailing backslash hides no quote, and the separators of lines stand as they are
example : Literal.unquoted? (Literal.quoted "\x00\\\"\u2028\\" ++ "\"") =
    some ("\x00\\\"\u2028\\", "\"") := by decide +kernel

end Resin
