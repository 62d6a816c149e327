import Resin.Proofs.Grammar.Basic

/-!
# Heads of lambdas that break off

The head of a lambda is tried before it is read: if it cannot be read, it is taken for an expression
in brackets. This also happens when the tokens break off inside the head with an error behind them.
That error is dropped with the attempt, and the tokens of the head are blamed.

* `Error.behind` is the error behind some tokens as it is reported.
* `Misread` tells which tokens break off inside a head so that it is taken for an expression, and
  with which errors; `Derails` says at which token.
* `Expression.settled`: the comma behind an expression is never the first one of a head.
-/

namespace Resin

open Grammar

/-! ## Errors behind a token -/

/-- The hint that goes with the failure to pass a token. -/
def hintAt : Token → Option Hint
  | .keyword .in_ | .keyword .to => some .loop
  | .symbol .colon | .symbol .dot => some .method
  | _ => none

/-- Whether a token has no hint and never ends the readable part of a head of a lambda. -/
def Token.isPlain (token : Token) : Bool :=
  (hintAt token).isNone && token != .symbol .comma && token != .symbol .arrow

/-- The error as it is reported behind the tokens: with the hint of the last one, if it has one. -/
def Error.behind (ts : List (Located Token)) (e : Error) : Error :=
  { e with hint := (ts.getLast?.bind fun t => hintAt t.value).or e.hint }

/-! ## Heads of lambdas that are read as something else -/

/-- The stretch does not end in a name. A bracket behind a name begins arguments or parameters. -/
def Unnamed (ts : List (Located Token)) : Prop :=
  ∀ w a, ¬[word w a] <:+ ts

/-- The stretch ends in a bracket that begins neither arguments nor parameters. -/
def Opened (ts : List (Located Token)) : Prop :=
  ∃ us a, Unnamed us ∧ ts = us ++ [sym .openBracket a]

/-- The stretch is not empty, and it does not end in an opening bracket and a name. -/
def Settled (ts : List (Located Token)) : Prop :=
  ts ≠ [] ∧ ∀ a w b, ¬[sym .openBracket a, word w b] <:+ ts

/-- The error at an arrow where another token is expected. -/
def arrowError (expected : Token) (span : Span) : Error :=
  ⟨.expectedToken expected (.symbol .arrow), span,
    if expected = .keyword .to then some .loop else none⟩

/-- The tokens `before`, `current` and `after` end inside the head of a lambda, and a parse that
takes the head for an expression in brackets fails with the error when it has come to `current`. -/
inductive Derails : List (Located Token) → Located Token → List (Located Token) → Error → Prop
  /-- `[a, …`: a comma where the bracket should close -/
  | comma {us vs ws ps : List (Located Token)} {w : String} {params : List String}
    {a b c d e : Span} : Unnamed us → Names ps params → params ≠ [] →
    vs ++ ws = ps ++ [sym .closeBracket d, sym .arrow e] →
    Derails (us ++ [sym .openBracket a, word w b]) (sym .comma c) vs
      ⟨.expectedToken (.symbol .closeBracket) (.symbol .comma), c, none⟩
  /-- `[a] ->`: an arrow behind the brackets -/
  | arrow {us : List (Located Token)} {w : String} {a b c d : Span} (expected : Token) :
    Unnamed us →
    Derails (us ++ [sym .openBracket a, word w b, sym .closeBracket c]) (sym .arrow d) []
      (arrowError expected d)
  /-- `[] ->`: a closing bracket where an expression should begin -/
  | bare {us : List (Located Token)} {a b c : Span} : Unnamed us →
    Derails (us ++ [sym .openBracket a, sym .closeBracket b]) (sym .arrow c) []
      ⟨.expectedExpression (.symbol .closeBracket), b, none⟩

/-- The tokens end inside the head of a lambda, and an error behind them leads to this one. -/
def Misread (ts : List (Located Token)) (err : Error) : Prop :=
  ∃ before current after, ts = before ++ current :: after ∧ Derails before current after err

theorem unnamed_concat {us : List (Located Token)} {t : Located Token}
    (h : ∀ w, t.value ≠ .name w) : Unnamed (us ++ [t]) := by
  rintro w a ⟨vs, heq⟩
  have ht := List.singleton_inj.1 (List.append_inj' heq rfl).2
  exact h w (by rw [← ht])

theorem not_unnamed_concat {us : List (Located Token)} {w : String} {a : Span} :
    ¬Unnamed (us ++ [word w a]) :=
  fun h => h w a (List.suffix_append _ _)

theorem not_opened_concat {us : List (Located Token)} {t : Located Token}
    (h : t.value ≠ .symbol .openBracket) : ¬Opened (us ++ [t]) := by
  rintro ⟨vs, a, -, heq⟩
  have ht := List.singleton_inj.1 (List.append_inj' heq rfl).2
  exact h (by rw [ht])

/-- A head breaks off at a comma or an arrow. -/
theorem Derails.current_eq {us vs : List (Located Token)} {t : Located Token} {err : Error}
    (h : Derails us t vs err) : t.value = .symbol .comma ∨ t.value = .symbol .arrow := by
  cases h with
  | comma => exact .inl rfl
  | arrow => exact .inr rfl
  | bare => exact .inr rfl

theorem Derails.before_of_comma {us vs : List (Located Token)} {t : Located Token} {err : Error}
    (h : Derails us t vs err) (hcomma : t.value = .symbol .comma) :
    ∃ ts a w b, Unnamed ts ∧ us = ts ++ [sym .openBracket a, word w b] := by
  cases h with
  | comma hts => exact ⟨_, _, _, _, hts, rfl⟩
  | arrow => cases hcomma
  | bare => cases hcomma

theorem Derails.before_of_arrow {us vs : List (Located Token)} {t : Located Token} {err : Error}
    (h : Derails us t vs err) (harrow : t.value = .symbol .arrow) :
    ∃ ts a, us = ts ++ [sym .closeBracket a] := by
  cases h with
  | comma => cases harrow
  | @arrow us w a b c => exact ⟨us ++ [sym .openBracket a, word w b], c, by simp⟩
  | @bare us a b => exact ⟨us ++ [sym .openBracket a], b, by simp⟩

/-- Behind the comma of a head there are only names, commas and the bracket in front of the
arrow. -/
theorem Grammar.Names.mem_cases {ps : List (Located Token)} {params : List String}
    (h : Names ps params) {t : Located Token} (ht : t ∈ ps) :
    (∃ w, t.value = .name w) ∨ t.value = .symbol .comma := by
  induction h with
  | nil => simp at ht
  | one =>
    rw [List.mem_singleton] at ht
    exact .inl ⟨_, by rw [ht]⟩
  | more _ _ ih =>
    rcases List.mem_cons.1 ht with rfl | ht
    · exact .inl ⟨_, rfl⟩
    · rcases List.mem_cons.1 ht with rfl | ht
      · exact .inr rfl
      · exact ih ht

/-- A head ends at its arrow. -/
theorem Grammar.Names.arrow_last {ps us vs : List (Located Token)} {params : List String}
    {a b c : Span} (h : Names ps params)
    (heq : ps ++ [sym .closeBracket a, sym .arrow b] = us ++ sym .arrow c :: vs) : vs = [] := by
  obtain rfl | ⟨init, last, rfl⟩ := List.eq_nil_or_concat vs
  · rfl
  -- an arrow before the last token would be one of the names, the commas and the bracket
  have hinit : (ps ++ [sym .closeBracket a]) ++ [sym .arrow b] =
      (us ++ sym .arrow c :: init) ++ [last] := by
    simpa using heq
  have hmem : sym .arrow c ∈ ps ++ [sym .closeBracket a] := by
    rw [(List.append_inj' hinit rfl).1]
    simp
  rcases List.mem_append.1 hmem with hmem | hmem
  · rcases h.mem_cases hmem with ⟨w, hw⟩ | hw <;> cases hw
  · simp at hmem

/-- In a head that breaks off, an arrow is the last token. -/
theorem Derails.arrow_last {before after us vs : List (Located Token)} {current : Located Token}
    {err : Error} {c : Span} (h : Derails before current after err)
    (heq : current :: after = us ++ sym .arrow c :: vs) : vs = [] := by
  cases h with
  | @comma _ _ ws _ _ _ _ _ _ _ _ _ hnames _ hafter =>
    cases us with
    | nil => simp at heq
    | cons u us =>
      have htail : after = us ++ sym .arrow c :: vs := (List.cons.inj heq).2
      rw [htail, List.append_assoc, List.cons_append] at hafter
      exact (List.append_eq_nil_iff.1 (hnames.arrow_last hafter.symm)).1
  | arrow | bare =>
    cases us with
    | nil => exact (List.cons.inj heq).2.symm
    | cons u us => simp at heq

/-! ## The last tokens of an expression -/

section Settled

variable {us vs : List (Located Token)} {t : Located Token}

theorem settled_singleton : Settled [t] := by
  refine ⟨by simp, fun a w b h => ?_⟩
  have hle := h.length_le
  simp at hle

theorem Settled.cons (h : Settled us) (ht : t.value ≠ .symbol .openBracket) :
    Settled (t :: us) := by
  refine ⟨by simp, fun a w b hsuffix => ?_⟩
  rcases List.suffix_cons_iff.1 hsuffix with heq | hsuffix
  · exact ht (by rw [← (List.cons.inj heq).1])
  · exact h.2 a w b hsuffix

theorem settled_concat (ht : ∀ w, t.value ≠ .name w) : Settled (us ++ [t]) := by
  refine ⟨by simp, fun a w b hsuffix => ?_⟩
  have hlast : [word w b] <:+ us ++ [t] := (List.suffix_cons _ _).trans hsuffix
  exact unnamed_concat ht w b hlast

theorem Settled.append (h : Settled us) (ht : t.value ≠ .symbol .openBracket) :
    Settled (vs ++ t :: us) := by
  refine ⟨by simp, fun a w b hsuffix => (h.cons ht).2 a w b ?_⟩
  have hpos := List.length_pos_iff.2 h.1
  refine List.suffix_of_suffix_length_le hsuffix (List.suffix_append _ _) ?_
  simp only [List.length_cons, List.length_nil]
  omega

end Settled

mutual

/-- No expression ends in an opening bracket and a name. -/
theorem Grammar.Expression.settled {o : Bool} {level : Nat} {ts : List (Located Token)} {e : Expr} :
    Expression o level ts e → Settled ts
  | .operand h => h.settled
  | @Expression.binary _ _ op _ _ _ _ _ _ _ _ hr hts =>
    hts ▸ hr.settled.append (by cases op <;> simp [BinaryOp.token])

/-- No operand ends in an opening bracket and a name. -/
theorem Grammar.Operand.settled {o : Bool} {ts : List (Located Token)} {e : Expr} :
    Operand o ts e → Settled ts
  | .number | .text | .bool | .null _ | .undefined _ | .input | .name => settled_singleton
  | .index _ hts | .call _ hts | .array _ hts | .method _ hts | .parenthesized _ hts
  | .bracketed _ hts => hts ▸ settled_concat (by simp)
  | .lambda _ hbody hts => by
    rw [hts, List.append_cons]
    exact hbody.settled.append (by simp)
  | .nameLambda hbody hts => hts ▸ (hbody.settled.cons (by simp)).cons (by simp)
  | .signed hsign he hts => by
    refine hts ▸ he.settled.cons ?_
    rintro rfl
    cases hsign

end

end Resin
