import Resin.Proofs.Grammar.Names
import Resin.Proofs.Token.Order
import Resin.Proofs.Token.Seams

/-!
# What a tree takes from its source

The names, the texts and the raw code in the tree of a source are stretches of the source, character
by character (`draws_of_parseProgram`). A text literal may stand in brackets, which belong to its
span; the literal itself is one of the tokens inside.
-/

namespace Resin

namespace Grammar

/-! ## Text literals -/

variable {o : Bool} {level : Nat} {ts : List (Located Token)} {content : String} {quote : Quote}
  {span : Span}

theorem exists_of_withSpan_eq_text {e : Expr} {s : Span}
    (h : e.withSpan s = .text content quote span) :
    s = span ∧ ∃ s', e = .text content quote s' := by
  cases e <;> cases h
  exact ⟨rfl, _, rfl⟩

/-- The tokens of a text literal are the literal, or there is a bracket on each side of it. -/
def IsTextLiteral (content : String) (quote : Quote) (span : Span)
    (ts : List (Located Token)) : Prop :=
  ts = [⟨.text content quote, span⟩] ∨
    ∃ first inner last a, ts = first :: inner ++ [last] ∧ ⟨.text content quote, a⟩ ∈ inner

theorem IsTextLiteral.exists_mem (h : IsTextLiteral content quote span ts) :
    ∃ a, ⟨.text content quote, a⟩ ∈ ts := by
  rcases h with rfl | ⟨first, inner, last, a, rfl, ha⟩
  · exact ⟨span, List.mem_singleton_self _⟩
  · exact ⟨a, by simp [ha]⟩

/-- The literal of a stored text is one of the tokens of the statement. -/
theorem Statement.text_mem {alone : Expr → Prop} {s : Store}
    (h : Statement alone ts (.store s span)) : ⟨.text s.content s.quote, s.contentSpan⟩ ∈ ts := by
  cases h with
  | store _ hts =>
    rw [hts]
    simp

mutual

theorem Expression.isTextLiteral {o : Bool} {level : Nat} {ts : List (Located Token)} {e : Expr}
    {span : Span} :
    Expression o level ts e → e = .text content quote span → IsTextLiteral content quote span ts
  | .operand h, heq => h.isTextLiteral heq
  | .binary _ _ _ _, heq => by cases heq

theorem Operand.isTextLiteral {o : Bool} {ts : List (Located Token)} {e : Expr} {span : Span} :
    Operand o ts e → e = .text content quote span → IsTextLiteral content quote span ts
  | .text, heq => by
    cases heq
    exact .inl rfl
  | .number, heq | .bool, heq | .null _, heq | .undefined _, heq | .input, heq | .name, heq
  | .index _ _, heq | .call _ _, heq | .array _ _, heq | .lambda _ _ _, heq | .nameLambda _ _, heq
  | .method _ _, heq | .signed _ _ _, heq => by cases heq
  | .parenthesized h hts, heq | .bracketed h hts, heq => by
    obtain ⟨-, s', hinner⟩ := exists_of_withSpan_eq_text heq
    obtain ⟨a, ha⟩ := (h.isTextLiteral hinner).exists_mem
    exact .inr ⟨_, _, _, a, hts, ha⟩

end

end Grammar

/-! ## Texts of tokens -/

/-- The text that a token carries into a tree. -/
def Token.carried? : Token → Option String
  | .name w | .text w _ | .raw w => some w
  | _ => none

theorem Token.ofWord_carried {text w : String} (h : (Token.ofWord text).carried? = some w) :
    Token.ofWord text = .name w ∧ w = text := by
  unfold Token.ofWord at h ⊢
  repeat' split at h
  all_goals cases h
  simp_all

namespace Lexeme

open Text

/-- What a token carries, and how it stands in the text of the token. -/
inductive Carries (first : Char) (more : List Char) : Token → String → Prop
  | name (w : String) : w.toList = first :: more → Carries first more (.name w) w
  | text (w : String) (quote : Quote) : first = quote.char → more = w.toList ++ [quote.char] →
    Carries first more (.text w quote) w
  | raw (w : String) : w.toList <:+: more → Carries first more (.raw w) w

variable {first : Char} {more after : List Char} {token : Token} {w : String}

theorem Carries.isInfix (h : Carries first more token w) : w.toList <:+: first :: more := by
  cases h with
  | name _ h => exact ⟨[], [], by simp [h]⟩
  | text _ quote _ hmore =>
    rw [hmore]
    exact List.infix_cons (List.prefix_append _ _).isInfix
  | raw _ h => exact List.infix_cons h

theorem carries_word (h : word first (more ++ after) = ⟨.ok token, more.length⟩)
    (hw : token.carried? = some w) : Carries first more token w := by
  simp only [word, Lexeme.mk.injEq, Except.ok.injEq] at h
  obtain ⟨rfl, hlength⟩ := h
  have htail : (more ++ after).takeWhile isWordChar = more :=
    (List.prefix_of_prefix_length_le (List.takeWhile_prefix _) (List.prefix_append more after)
      (Nat.le_of_eq hlength)).eq_of_length hlength
  obtain ⟨hname, rfl⟩ := Token.ofWord_carried hw
  rw [hname]
  refine .name _ ?_
  rw [String.toList_ofList, htail]

theorem carries_quoted {quote : Quote} (hfirst : first = quote.char)
    (h : quoted quote (more ++ after) = ⟨.ok token, more.length⟩)
    (hw : token.carried? = some w) : Carries first more token w := by
  unfold quoted at h
  cases hcut : cut? [quote.char] (more ++ after) with
  | none =>
    rw [hcut] at h
    cases h
  | some parts =>
    obtain ⟨content, rest⟩ := parts
    rw [hcut] at h
    simp only [Lexeme.mk.injEq, Except.ok.injEq] at h
    obtain ⟨rfl, hlength⟩ := h
    obtain rfl := Option.some.inj hw
    refine .text _ quote hfirst ?_
    -- the literal and `more` are two beginnings of one text, of the same length
    have hprefix : content ++ [quote.char] <+: more ++ after :=
      ⟨rest, (eq_append_of_cut? hcut).symm⟩
    rw [String.toList_ofList]
    exact ((List.prefix_of_prefix_length_le hprefix (List.prefix_append more after)
      (by simp [hlength])).eq_of_length (by simp [hlength])).symm

theorem carries_raw (h : raw (more ++ after) = ⟨.ok token, more.length⟩)
    (hw : token.carried? = some w) : Carries first more token w := by
  obtain ⟨blanks, code, rest, htext, -, -, rfl, hlength⟩ := raw_ok_cases h
  obtain rfl := Option.some.inj hw
  refine .raw _ ?_
  have hprefix : 'j' :: 's' :: blanks ++ ':' :: '~' :: (code ++ ['~', ':']) <+: more ++ after :=
    ⟨rest, by rw [htext, RawText]; simp⟩
  have heq := (List.prefix_of_prefix_length_le hprefix (List.prefix_append more after)
    (by simp; omega)).eq_of_length (by simp; omega)
  rw [String.toList_ofList, ← heq]
  exact ⟨'j' :: 's' :: blanks ++ [':', '~'], ['~', ':'], by simp⟩

theorem carries_front (h : front first (more ++ after) = ⟨.ok token, more.length⟩)
    (hw : token.carried? = some w) : Carries first more token w := by
  unfold front at h
  split at h
  · exact carries_word h hw
  · split at h
    · -- a number carries no text
      unfold number at h
      dsimp only at h
      split at h
      all_goals
        simp only [Lexeme.mk.injEq, Except.ok.injEq] at h
        obtain ⟨rfl, -⟩ := h
        cases hw
    · split at h
      · next quote hquote =>
        have hchar := List.find?_some hquote
        exact carries_quoted (beq_iff_eq.1 hchar).symm h hw
      · split at h
        · exact carries_raw h hw
        · -- and neither does a symbol
          unfold symbol at h
          split at h
          · simp only [Lexeme.mk.injEq, Except.ok.injEq] at h
            obtain ⟨rfl, -⟩ := h
            cases hw
          · split at h
            all_goals
              simp only [Lexeme.mk.injEq, Except.ok.injEq, reduceCtorEq, false_and] at h
            obtain ⟨rfl, -⟩ := h
            cases hw

end Lexeme

/-- A text is a stretch of another one. -/
def Occurs (w text : String) : Prop :=
  w.toList <:+: text.toList

instance (w text : String) : Decidable (Occurs w text) :=
  inferInstanceAs (Decidable (_ <:+: _))

theorem ReadOff.carries {source : String} {token : Located Token} {before more after : List Char}
    {first : Char} (h : ReadOff source token before first more after) {w : String}
    (hw : token.value.carried? = some w) : Lexeme.Carries first more token.value w :=
  Lexeme.carries_front h.front hw

theorem occurs_of_items {source : String} {ts : List (Located Token)}
    (h : (Stream.ofText source).items = ts.map Except.ok) {token : Located Token}
    (htoken : token ∈ ts) {w : String} (hw : token.value.carried? = some w) : Occurs w source := by
  obtain ⟨before, first, more, after, hread⟩ := exists_lexeme_of_items h token htoken
  have hinfix := (hread.carries hw).isInfix
  rw [Occurs, hread.source_eq]
  exact hinfix.trans (List.infix_append' ..)

/-! ## Texts in a tree -/

/-- The texts that an expression takes from its source, without those in the expressions inside
it. -/
def Expr.drawn : Expr → List String
  | .text content _ _ => [content]
  | e => e.names

/-- The texts that a statement takes from its source, without those in its expressions and in the
statements inside it. -/
def Stmt.drawn : Stmt → List String
  | .store s _ => [s.name, s.content]
  | .raw code _ => [code]
  | stmt => stmt.names

/-- What an expression takes from its source has a property. -/
def Expr.Draws (P : String → Prop) (e : Expr) : Prop :=
  ∀ w ∈ e.drawn, P w

/-- What a statement and its expressions take from their source has a property. -/
structure Stmt.Draws (P : String → Prop) (stmt : Stmt) : Prop where
  own : ∀ w ∈ stmt.drawn, P w
  exprs : ∀ x ∈ Expr.nodesList stmt.exprs, x.Draws P

namespace Grammar

variable {source : String} {ts us : List (Located Token)}

theorem wordsAll_occurs (h : (Stream.ofText source).items = ts.map Except.ok) :
    WordsAll (Occurs · source) ts := by
  intro token htoken w hw
  exact occurs_of_items h htoken (by rw [hw]; rfl)

theorem Derives.draws (h : (Stream.ofText source).items = ts.map Except.ok) (hus : us <:+: ts)
    {e : Expr} (he : Derives us e) : e.Draws (Occurs · source) := by
  obtain ⟨o, he⟩ := he
  cases e with
  | text content quote span =>
    obtain ⟨a, ha⟩ := (he.isTextLiteral rfl).exists_mem
    exact List.forall_mem_singleton.2 (occurs_of_items h (hus.subset ha) rfl)
  | _ => exact he.own_names ((wordsAll_occurs h).of_stretch hus)

theorem Within.draws (h : (Stream.ofText source).items = ts.map Except.ok) (hus : us <:+: ts)
    {e : Expr} (he : Within Derives us e) : e.Draws (Occurs · source) := by
  obtain ⟨vs, hvs, he⟩ := he
  exact he.draws h (hvs.trans hus)

theorem Statement.draws (h : (Stream.ofText source).items = ts.map Except.ok) (hus : us <:+: ts)
    {stmt : Stmt} (hstmt : Statement anyExpr us stmt) : stmt.Draws (Occurs · source) := by
  have hwords := (wordsAll_occurs h).of_stretch hus
  refine ⟨?_, fun x hx => ?_⟩
  · have hnames := hstmt.own_names hwords
    cases stmt with
    | store s span =>
      have htext := hus.subset hstmt.text_mem
      exact List.forall_mem_cons.2 ⟨hnames _ (List.mem_cons_self ..),
        List.forall_mem_singleton.2 (occurs_of_items h htext rfl)⟩
    | raw code span =>
      obtain ⟨a, ha⟩ := hstmt.raw_mem
      exact List.forall_mem_singleton.2 (occurs_of_items h (hus.subset ha) rfl)
    | _ => exact hnames
  · rcases hstmt.of_mem_exprs x hx with hwithin | ⟨_, _, _, _, _, _, -, rfl⟩
    · exact hwithin.draws h hus
    · exact List.forall_mem_nil _

end Grammar

open Grammar

/-- What an expression takes from its source are stretches of the source. -/
theorem draws_of_parseExpression {source : String} {e : Expr} (h : parseExpression source = .ok e) :
    ∀ x ∈ e.nodes, x.Draws (Occurs · source) := by
  obtain ⟨o, ts, hitems, hexpr⟩ := expression_of_parseExpression h
  intro x hx
  exact (Derives.of_mem_nodes ⟨o, hexpr⟩ hexpr.of_mem_inner x hx).draws hitems List.infix_rfl

end Resin
