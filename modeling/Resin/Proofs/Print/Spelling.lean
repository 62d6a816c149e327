import Resin.Proofs.Token.Outcomes

/-!
# Writing tokens and reading them back

`Token.spelling` writes a token, and `written` writes a list of tokens with one space between each
two. Numbers have many spellings, so the one to use is a parameter. A token that is `Readable` is
read back from its spelling wherever a space or the end of the text follows
(`Token.Readable.spells`), and so a written list of readable tokens has exactly these tokens as its
outcomes (`Stream.items_written`).
-/

namespace Resin

open Text

/-! ## Spelling -/

/-- The text is digits, then perhaps a point and any number of digits, and it is read as the
number. -/
def Number.WrittenAs (v : Number) (text : List Char) : Prop :=
  ∃ first whole, first.isDigit = true ∧ (∀ c ∈ whole, c.isDigit = true) ∧
    (text = first :: whole ∧ v = .ofParts (first :: whole) [] ∨
      ∃ fraction, (∀ c ∈ fraction, c.isDigit = true) ∧
        text = first :: whole ++ '.' :: fraction ∧ v = .ofParts (first :: whole) fraction)

/-- A word that can be a name: letters and underscores, and no word with a meaning of its own. -/
def IsName (word : String) : Prop :=
  word.toList ≠ [] ∧ (∀ c ∈ word.toList, Lexeme.isWordChar c = true) ∧
    (∀ k : Keyword, word ≠ k.spelling) ∧ (∀ t : TypeName, word ≠ t.spelling) ∧
    word ≠ "true" ∧ word ≠ "false"

namespace Token

variable (spell : Number → List Char)

/-- How a token is written. -/
def spelling : Token → List Char
  | .number v => spell v
  | .text content quote => quote.char :: content.toList ++ [quote.char]
  | .bool v => if v then "true".toList else "false".toList
  | .null => "null".toList
  | .undefined => "undefined".toList
  | .input => ":input".toList
  | .name word => word.toList
  | .type t => t.spelling.toList
  | .raw code => "@js :~".toList ++ code.toList ++ "~:".toList
  | .keyword k => k.spelling.toList
  | .symbol s => s.spelling.toList
  | .endOfFile => []

/-- What has to hold of a token to be read back from its spelling. The literals `null` and
`undefined` are read as types. -/
def Readable : Token → Prop
  | .number v => v.WrittenAs (spell v)
  | .text content quote => quote.char ∉ content.toList
  | .name word => IsName word
  | .raw code => ¬ "~:".toList <:+: code.toList
  | .bool _ | .input | .type _ | .keyword _ | .symbol _ => True
  | .null | .undefined | .endOfFile => False

end Token

/-- Tokens with one space between each two. -/
def written (spell : Number → List Char) (tokens : List Token) : String :=
  String.ofList (List.intercalate [' '] (tokens.map (Token.spelling spell)))

/-! ## Reading one token back -/

/-- The text is empty or begins with a space. -/
def Apart (rest : List Char) : Prop :=
  ∀ c, rest.head? = some c → c = ' '

theorem takeWhile_of_run {P : Char → Bool} {run rest : List Char} (hrun : ∀ c ∈ run, P c = true)
    (hrest : ∀ c ∈ rest.head?, P c = false) : (run ++ rest).takeWhile P = run := by
  rw [List.takeWhile_append_of_pos hrun]
  cases rest with
  | nil => simp
  | cons c rest => simp [hrest c rfl]

theorem dropWhile_of_run {P : Char → Bool} {run rest : List Char} (hrun : ∀ c ∈ run, P c = true)
    (hrest : ∀ c ∈ rest.head?, P c = false) : (run ++ rest).dropWhile P = rest := by
  rw [List.dropWhile_append_of_pos hrun]
  cases rest with
  | nil => simp
  | cons c rest => simp [hrest c rfl]

theorem takeWhile_of_apart {p : Char → Bool} {cs rest : List Char} (hcs : ∀ c ∈ cs, p c = true)
    (hrest : Apart rest) (hspace : p ' ' = false) : (cs ++ rest).takeWhile p = cs := by
  refine takeWhile_of_run hcs fun c hc => ?_
  obtain rfl := hrest c hc
  exact hspace

/-- The lexeme of a text is read as a token and is just the spelling of the token. -/
def ReadsBack (token : Token) (first : Char) (more rest : List Char) : Prop :=
  Lexeme.front first (more ++ rest) = ⟨.ok token, more.length⟩

theorem readsBack_word {first : Char} {more rest : List Char}
    (hword : ∀ c ∈ first :: more, Lexeme.isWordChar c = true) (hrest : Apart rest) :
    ReadsBack (.ofWord (String.ofList (first :: more))) first more rest := by
  have hmore : (more ++ rest).takeWhile Lexeme.isWordChar = more :=
    takeWhile_of_apart (fun c hc => hword c (List.mem_cons_of_mem _ hc)) hrest (by decide)
  simp only [ReadsBack, Lexeme.front, hword first (List.mem_cons_self ..), if_true, Lexeme.word,
    hmore]

/-- A word can be a name exactly if it is read as one. -/
theorem isName_iff {word : String} : IsName word ↔ word.toList ≠ [] ∧
    word.toList.all Lexeme.isWordChar = true ∧ Token.ofWord word = .name word := by
  rw [IsName, List.all_eq_true]
  refine and_congr_right fun _ => and_congr_right fun _ => ⟨?_, fun h => ?_⟩
  · rintro ⟨hkeyword, htype, htrue, hfalse⟩
    have hk : Keyword.ofWord? word = none := by
      rw [Keyword.ofWord?, List.find?_eq_none]
      intro k _ heq
      exact hkeyword k (beq_iff_eq.1 heq).symm
    have ht : TypeName.ofWord? word = none := by
      rw [TypeName.ofWord?, List.find?_eq_none]
      intro t _ heq
      exact htype t (beq_iff_eq.1 heq).symm
    simp [Token.ofWord, hk, ht, htrue, hfalse]
  · refine ⟨?_, ?_, ?_, ?_⟩
    · rintro k rfl
      rw [Token.ofWord_keyword] at h
      cases h
    · rintro t rfl
      cases t <;> cases h
    · rintro rfl
      cases h
    · rintro rfl
      cases h

instance (word : String) : Decidable (IsName word) :=
  decidable_of_iff _ isName_iff.symm

theorem isWordChar_of_isDigit {c : Char} (h : c.isDigit = true) : Lexeme.isWordChar c = false := by
  rw [Lexeme.isWordChar, Bool.or_eq_false_iff]
  constructor
  · simp only [Char.isDigit, Bool.and_eq_true, decide_eq_true_eq] at h
    have hupper : c.isUpper = decide (c.val ≥ 65 ∧ c.val ≤ 90) := rfl
    have hlower : c.isLower = (decide (c.val ≥ 97) && decide (c.val ≤ 122)) := rfl
    have halpha : c.isAlpha = (c.isUpper || c.isLower) := rfl
    grind
  · rw [beq_eq_false_iff_ne]
    rintro rfl
    exact absurd h (by decide)

theorem readsBack_whole {first : Char} {whole rest : List Char} (hfirst : first.isDigit = true)
    (hwhole : ∀ c ∈ whole, c.isDigit = true) (hrest : Apart rest) :
    ReadsBack (.number (.ofParts (first :: whole) [])) first whole rest := by
  have hdigits : (whole ++ rest).takeWhile Char.isDigit = whole :=
    takeWhile_of_apart hwhole hrest (by decide)
  simp only [ReadsBack, Lexeme.front, isWordChar_of_isDigit hfirst, hfirst, Bool.false_eq_true,
    if_false, if_true, Lexeme.number, hdigits, List.drop_left]
  split
  · next after =>
    have hpoint := hrest '.' rfl
    cases hpoint
  · rfl

theorem readsBack_fraction {first : Char} {whole fraction rest : List Char}
    (hfirst : first.isDigit = true) (hwhole : ∀ c ∈ whole, c.isDigit = true)
    (hfraction : ∀ c ∈ fraction, c.isDigit = true) (hrest : Apart rest) :
    ReadsBack (.number (.ofParts (first :: whole) fraction)) first (whole ++ '.' :: fraction)
      rest := by
  have hdigits : (whole ++ '.' :: (fraction ++ rest)).takeWhile Char.isDigit = whole := by
    rw [List.takeWhile_append_of_pos hwhole, List.takeWhile_cons, if_neg (by decide),
      List.append_nil]
  have hfigures : (fraction ++ rest).takeWhile Char.isDigit = fraction :=
    takeWhile_of_apart hfraction hrest (by decide)
  have hlen : whole.length + 1 + fraction.length = whole.length + (fraction.length + 1) := by omega
  simp only [ReadsBack, Lexeme.front, isWordChar_of_isDigit hfirst, hfirst, Bool.false_eq_true,
    if_false, if_true, Lexeme.number, List.append_assoc, List.cons_append, hdigits,
    List.drop_left, hfigures, List.length_append, List.length_cons, hlen]

/-- A text is cut at a mark behind it, if the mark does not begin earlier. -/
theorem cut?_append {mark before after : List Char} (hmark : mark ≠ [])
    (h : ¬ mark <:+: before ++ mark.dropLast) :
    cut? mark (before ++ (mark ++ after)) = some (before, after) := by
  induction before with
  | nil =>
    obtain ⟨c, mark, rfl⟩ := List.exists_cons_of_ne_nil hmark
    simp [cut?]
  | cons c before ih =>
    have hnot : mark.isPrefixOf (c :: (before ++ (mark ++ after))) = false := by
      rw [Bool.eq_false_iff]
      intro hp
      rw [List.isPrefixOf_iff_prefix] at hp
      -- so short an occurrence would end before the last character of the mark
      have hshort : c :: before ++ mark.dropLast <+: c :: (before ++ (mark ++ after)) := by
        refine ⟨[mark.getLast hmark] ++ after, ?_⟩
        rw [List.append_assoc, ← List.append_assoc mark.dropLast,
          List.dropLast_concat_getLast hmark, List.cons_append]
      have hle : mark.length ≤ (c :: before ++ mark.dropLast).length := by
        simp only [List.cons_append, List.length_cons, List.length_append, List.length_dropLast]
        omega
      exact h (List.prefix_of_prefix_length_le hp hshort hle).isInfix
    have hrest : ¬ mark <:+: before ++ mark.dropLast :=
      fun hin => h (hin.trans (List.suffix_cons c _).isInfix)
    simp only [List.cons_append, cut?, hnot, Bool.false_eq_true, if_false, ih hrest,
      Option.map_some]

theorem readsBack_text {content : String} {quote : Quote} {rest : List Char}
    (h : quote.char ∉ content.toList) :
    ReadsBack (.text content quote) quote.char (content.toList ++ [quote.char]) rest := by
  have hcut : cut? [quote.char] (content.toList ++ ([quote.char] ++ rest)) =
      some (content.toList, rest) := by
    refine cut?_append (by simp) fun hin => h ?_
    rw [show [quote.char].dropLast = [] from rfl, List.append_nil] at hin
    exact hin.subset (List.mem_singleton.2 rfl)
  have hfirst : Lexeme.isWordChar quote.char = false ∧ quote.char.isDigit = false := by
    cases quote <;> decide
  simp only [ReadsBack, Lexeme.front, hfirst.1, hfirst.2, Bool.false_eq_true, if_false,
    Quote.ofChar?_char, Lexeme.quoted, List.append_assoc, hcut, String.ofList_toList,
    List.length_append, List.length_singleton]

theorem readsBack_raw {code : String} {rest : List Char} (h : ¬ "~:".toList <:+: code.toList) :
    ReadsBack (.raw code) '@' ("js :~".toList ++ code.toList ++ "~:".toList) rest := by
  have hcut : cut? ['~', ':'] (code.toList ++ (['~', ':'] ++ rest)) = some (code.toList, rest) := by
    refine cut?_append (by simp) ?_
    -- the mark does not end in its own first character
    rw [show ['~', ':'].dropLast = ['~'] from rfl, List.infix_concat_iff]
    rintro (hend | hin)
    · obtain ⟨pre, hpre⟩ := hend
      have hlast := congrArg List.getLast? hpre
      simp at hlast
    · exact h hin
  have hfront : Lexeme.front '@' ("js :~".toList ++ code.toList ++ "~:".toList ++ rest) =
      Lexeme.raw ('j' :: 's' :: ' ' :: ':' :: '~' :: (code.toList ++ (['~', ':'] ++ rest))) := by
    simp [Lexeme.front, Lexeme.isWordChar, Quote.ofChar?, Quote.char]
  have htrim : trimStart (' ' :: ':' :: '~' :: (code.toList ++ (['~', ':'] ++ rest))) =
      ':' :: '~' :: (code.toList ++ (['~', ':'] ++ rest)) := by
    simp [trimStart, isBlank]
  rw [ReadsBack, hfront]
  simp only [Lexeme.raw, htrim, hcut, String.ofList_toList]
  simp
  omega

/-- How the spelling of a symbol begins. -/
theorem Symbol.spelling_cons (s : Symbol) : ∃ first more, s.spelling.toList = first :: more ∧
    Lexeme.isWordChar first = false ∧ first.isDigit = false ∧ Quote.ofChar? first = none ∧
    first ≠ '@' ∧ Cursor.isSeparator first = false ∧ first ≠ '$' ∧ (first = ':' → more = []) := by
  cases s <;> exact ⟨_, _, rfl, by decide⟩

theorem Symbol.space_not_mem (s : Symbol) : ' ' ∉ s.spelling.toList := by
  cases s <;> decide

/-- A symbol in front of a space is read as itself. -/
theorem Symbol.longest?_of_apart (s : Symbol) {rest : List Char} (hrest : Apart rest) :
    Symbol.longest? (s.spelling.toList ++ rest) = some s := by
  -- no spelling has a space in it, so what follows one is never part of a symbol
  have hsame : ∀ t : Symbol, t.spelling.toList.isPrefixOf (s.spelling.toList ++ rest) =
      t.spelling.toList.isPrefixOf s.spelling.toList := by
    intro t
    rw [Bool.eq_iff_iff, List.isPrefixOf_iff_prefix, List.isPrefixOf_iff_prefix]
    refine ⟨fun h => ?_, fun h => h.trans (List.prefix_append _ _)⟩
    have hself := List.prefix_append s.spelling.toList rest
    rcases List.prefix_or_prefix_of_prefix h hself with h' | h'
    · exact h'
    · obtain ⟨extra, hextra⟩ := h'
      rw [← hextra, List.prefix_append_right_inj] at h
      cases extra with
      | nil => simp [← hextra]
      | cons c extra =>
        obtain ⟨tail, rfl⟩ := h
        obtain rfl := hrest c rfl
        exact absurd (hextra ▸ by simp) t.space_not_mem
  rw [Symbol.longest?, funext hsame]
  exact Symbol.longest?_spelling s

theorem readsBack_symbol {s : Symbol} {first : Char} {more rest : List Char}
    (h : s.spelling.toList = first :: more) (hrest : Apart rest) :
    ReadsBack (.symbol s) first more rest := by
  obtain ⟨first', more', heq, hword, hdigit, hquote, hat, -, -, hcolon⟩ := s.spelling_cons
  obtain ⟨rfl, rfl⟩ := List.cons.inj (h.symm.trans heq)
  have hinput : ¬ (first = ':' ∧ (more ++ rest).takeWhile Lexeme.isWordChar = "input".toList) := by
    rintro ⟨rfl, hinput⟩
    rw [hcolon rfl, takeWhile_of_apart (by simp) hrest (by decide)] at hinput
    cases hinput
  have hlongest : Symbol.longest? (first :: (more ++ rest)) = some s := by
    rw [← List.cons_append, ← h]
    exact s.longest?_of_apart hrest
  have hlen : s.spelling.length = more.length + 1 := by
    rw [← String.length_toList, h, List.length_cons]
  simp only [ReadsBack, Lexeme.front, hword, hdigit, hquote, hat, Bool.false_eq_true, if_false,
    Lexeme.symbol, hinput, hlongest, hlen, Nat.add_sub_cancel]

theorem not_separator {p : Char → Bool} {c : Char} (h : p c = true)
    (hp : [' ', '\t', '\r', '\n', '\x0c', '$'].all (fun x => p x = false) = true) :
    Cursor.isSeparator c = false ∧ c ≠ '$' := by
  have hne : ∀ x ∈ [' ', '\t', '\r', '\n', '\x0c', '$'], c ≠ x := by
    rintro x hx rfl
    have hx := List.all_eq_true.1 hp c hx
    rw [decide_eq_true_eq, h] at hx
    cases hx
  simp only [List.forall_mem_cons] at hne
  simp [Cursor.isSeparator, hne]

/-- The spelling is read back in front of a space or the end, and neither a separator nor a comment
begins with it. -/
def Spells (text : List Char) (token : Token) : Prop :=
  ∃ first more, text = first :: more ∧ (Cursor.isSeparator first = false ∧ first ≠ '$') ∧
    ∀ rest, Apart rest → ReadsBack token first more rest

theorem spells_word {word : String} {token : Token} (hne : word.toList ≠ [])
    (hall : word.toList.all Lexeme.isWordChar = true) (htoken : Token.ofWord word = token) :
    Spells word.toList token := by
  obtain ⟨first, more, heq⟩ := List.exists_cons_of_ne_nil hne
  have hword := List.all_eq_true.1 (heq ▸ hall)
  refine ⟨first, more, heq, not_separator (hword first (List.mem_cons_self ..)) (by decide), ?_⟩
  intro rest hrest
  have hread := readsBack_word hword hrest
  rwa [← heq, String.ofList_toList, htoken] at hread

theorem spells_number {v : Number} {text : List Char} (h : v.WrittenAs text) :
    Spells text (.number v) := by
  obtain ⟨first, whole, hfirst, hwhole, ⟨rfl, rfl⟩ | ⟨fraction, hfraction, rfl, rfl⟩⟩ := h
  · exact ⟨first, whole, rfl, not_separator hfirst (by decide),
      fun rest hrest => readsBack_whole hfirst hwhole hrest⟩
  · exact ⟨first, whole ++ '.' :: fraction, rfl, not_separator hfirst (by decide),
      fun rest hrest => readsBack_fraction hfirst hwhole hfraction hrest⟩

theorem spells_input : Spells ":input".toList .input := by
  refine ⟨':', "input".toList, rfl, by decide, fun rest hrest => ?_⟩
  have hword : ("input".toList ++ rest).takeWhile Lexeme.isWordChar = "input".toList :=
    takeWhile_of_apart (List.all_eq_true.1 (by decide)) hrest (by decide)
  have hquote : Quote.ofChar? ':' = none := by decide
  simp only [ReadsBack, Lexeme.front, show Lexeme.isWordChar ':' = false by decide,
    show Char.isDigit ':' = false by decide, hquote, Bool.false_eq_true, if_false, Lexeme.symbol,
    hword, true_and, if_true]
  rfl

/-- Every readable token is read back from its spelling. -/
theorem Token.Readable.spells {spell : Number → List Char} {token : Token}
    (h : token.Readable spell) : Spells (token.spelling spell) token := by
  cases token with
  | number v => exact spells_number h
  | text content quote =>
    exact ⟨_, _, rfl, by cases quote <;> decide, fun rest _ => readsBack_text h⟩
  | bool v =>
    cases v with
    | false => exact spells_word (by decide) (by decide) (by decide)
    | true => exact spells_word (by decide) (by decide) (by decide)
  | input => exact spells_input
  | name word => exact spells_word h.1 (isName_iff.1 h).2.1 (isName_iff.1 h).2.2
  | type t =>
    exact spells_word (by cases t <;> decide) (by cases t <;> decide) (by cases t <;> decide)
  | raw code => exact ⟨_, _, rfl, by decide, fun rest _ => readsBack_raw h⟩
  | keyword k =>
    exact spells_word (by cases k <;> decide) (by cases k <;> decide) (ofWord_keyword k)
  | symbol s =>
    obtain ⟨first, more, heq, -, -, -, -, hsep, hdollar, -⟩ := s.spelling_cons
    exact ⟨first, more, heq, ⟨hsep, hdollar⟩, fun rest hrest => readsBack_symbol heq hrest⟩
  | null | undefined | endOfFile => cases h

/-! ## Reading all tokens back -/

/-- What stands in front of a token in a written list: a space, except for the first. -/
theorem skipTrivia_of_sep {c : Cursor} {sep text : List Char} {first : Char}
    (hsep : sep = [] ∨ sep = [' ']) (hfirst : Cursor.isSeparator first = false ∧ first ≠ '$')
    (h : c.rest = sep ++ first :: text) : c.skipTrivia.rest = first :: text := by
  have hlength : Cursor.triviaLength false c.rest = sep.length := by
    rw [h]
    have hspace : Cursor.isSeparator ' ' = true := rfl
    rcases hsep with rfl | rfl <;> simp [Cursor.triviaLength, hfirst.1, hfirst.2, hspace]
  rw [Cursor.skipTrivia, Cursor.rest_drop, hlength, h, List.drop_left]

theorem next?_of_spells {c : Cursor} {sep text rest : List Char} {token : Token}
    (hsep : sep = [] ∨ sep = [' ']) (htoken : Spells text token) (hrest : Apart rest)
    (h : c.rest = sep ++ (text ++ rest)) :
    ∃ span after, c.next? = some (.ok ⟨token, span⟩, after) ∧ after.rest = rest := by
  obtain ⟨first, more, rfl, hfirst, hread⟩ := htoken
  have hstart : c.skipTrivia.rest = first :: (more ++ rest) := skipTrivia_of_sep hsep hfirst h
  simp only [Cursor.next?, hstart]
  rw [hread rest hrest]
  refine ⟨_, _, rfl, ?_⟩
  rw [Cursor.rest_drop, hstart, List.drop_succ_cons, List.drop_left]

/-- A space in front of each token. -/
def led (spell : Number → List Char) (tokens : List Token) : List Char :=
  tokens.flatMap fun token => ' ' :: token.spelling spell

theorem apart_led (spell : Number → List Char) (tokens : List Token) :
    Apart (led spell tokens) := by
  cases tokens with
  | nil => simp [Apart, led]
  | cons token tokens => simp [Apart, led]

theorem outcomes_nil (n offset : Nat) : Cursor.outcomes n ⟨offset, []⟩ = [] := by
  cases n <;> rfl

/-- The outcomes of a token and of those behind it, each behind a space. -/
theorem outcomes_led {spell : Number → List Char} {token : Token} {tokens : List Token}
    {c : Cursor} {sep : List Char} {n : Nat}
    (htokens : ∀ t ∈ token :: tokens, t.Readable spell) (hn : tokens.length < n)
    (hsep : sep = [] ∨ sep = [' '])
    (h : c.rest = sep ++ (token.spelling spell ++ led spell tokens)) :
    ∃ ts : List (Located Token), Cursor.outcomes n c = ts.map Except.ok ∧
      ts.map Located.value = token :: tokens := by
  induction tokens generalizing token c sep n with
  | nil =>
    obtain ⟨n, rfl⟩ := Nat.exists_eq_succ_of_ne_zero (Nat.ne_of_gt hn)
    obtain ⟨span, after, hnext, hafter⟩ :=
      next?_of_spells hsep (htokens token (List.mem_cons_self ..)).spells (apart_led spell []) h
    refine ⟨[⟨token, span⟩], ?_, rfl⟩
    obtain ⟨offset, rest⟩ := after
    obtain rfl : rest = [] := hafter
    simp only [Cursor.outcomes, hnext, outcomes_nil, List.map_cons, List.map_nil]
  | cons next tokens ih =>
    simp only [List.length_cons] at hn
    obtain ⟨n, rfl⟩ := Nat.exists_eq_succ_of_ne_zero (n := n) (by omega)
    obtain ⟨span, after, hnext, hafter⟩ := next?_of_spells hsep
      (htokens token (List.mem_cons_self ..)).spells (apart_led spell (next :: tokens)) h
    obtain ⟨ts, hts, hvalues⟩ := ih (n := n)
      (fun t ht => htokens t (List.mem_cons_of_mem _ ht)) (by omega) (.inr rfl)
      (hafter.trans List.flatMap_cons)
    exact ⟨⟨token, span⟩ :: ts, by simp only [Cursor.outcomes, hnext, hts, List.map_cons],
      by rw [List.map_cons, hvalues]⟩

theorem toList_written_cons (spell : Number → List Char) (token : Token) (tokens : List Token) :
    (written spell (token :: tokens)).toList = token.spelling spell ++ led spell tokens := by
  rw [written, String.toList_ofList]
  induction tokens generalizing token with
  | nil => simp [led]
  | cons next tokens ih =>
    rw [List.map_cons, List.map_cons, List.intercalate_cons_cons, ← List.map_cons, ih next]
    simp [led]

theorem length_le_led (spell : Number → List Char) (tokens : List Token) :
    tokens.length ≤ (led spell tokens).length := by
  induction tokens with
  | nil => simp
  | cons token tokens ih =>
    simp only [led, List.flatMap_cons, List.length_append, List.length_cons] at ih ⊢
    omega

/-- A written list of readable tokens has these tokens, and nothing else, as its outcomes. -/
theorem Stream.items_written {spell : Number → List Char} {tokens : List Token}
    (htokens : ∀ token ∈ tokens, token.Readable spell) :
    ∃ ts : List (Located Token), (Stream.ofText (written spell tokens)).items = ts.map Except.ok ∧
      ts.map Located.value = tokens := by
  cases tokens with
  | nil => exact ⟨[], rfl, rfl⟩
  | cons token tokens =>
    have htext := toList_written_cons spell token tokens
    have hlength := length_le_led spell tokens
    obtain ⟨first, more, hspelling, -⟩ := (htokens token (List.mem_cons_self ..)).spells
    refine outcomes_led htokens ?_ (.inl rfl) htext
    rw [htext, hspelling, List.length_append, List.length_cons]
    omega

end Resin
