import Resin.Proofs.Grammar.ExprSound
import Resin.Proofs.Tree.Nodes

/-!
# Writing expressions

`Expr.tokens` gives the tokens that write an expression. An operand that is an operation, a signed
expression or a lambda stands in parentheses, and the parameters of a lambda stand in brackets. The
tokens determine no spans, so whatever the places they are written at, they write a tree that equals
the expression up to spans (`Expr.derivable`).
-/

namespace Resin

/-! ## Spans apart -/

/-- The expression without its spans. -/
def Expr.erase (e : Expr) : Expr :=
  e.mapSpans fun _ => default

namespace Expr

@[simp] theorem erase_withSpan (span : Span) (e : Expr) : (e.withSpan span).erase = e.erase := by
  cases e <;> rfl

@[simp] theorem erase_name (w : String) (span : Span) :
    (name w span).erase = .name w default := rfl

@[simp] theorem erase_index (t i : Expr) (span : Span) :
    (index t i span).erase = .index t.erase i.erase default := rfl

@[simp] theorem erase_call (f : String) (args : List Expr) (span : Span) :
    (call f args span).erase = .call f (args.map erase) default := by
  simp only [erase, mapSpans, mapSpansList_eq_map]
  rfl

@[simp] theorem erase_array (es : List Expr) (span : Span) :
    (array es span).erase = .array (es.map erase) default := by
  simp only [erase, mapSpans, mapSpansList_eq_map]
  rfl

@[simp] theorem erase_lambda (ps : List String) (b : Expr) (span : Span) :
    (lambda ps b span).erase = .lambda ps b.erase default := rfl

@[simp] theorem erase_method (t : Located TypeName) (x : String) (m : Located String)
    (args : List Expr) (span : Span) : (method t x m args span).erase =
      .method ⟨t.value, default⟩ x ⟨m.value, default⟩ (args.map erase) default := by
  simp only [erase, mapSpans, mapSpansList_eq_map]
  rfl

@[simp] theorem erase_binary (op : BinaryOp) (l r : Expr) (span : Span) :
    (binary op l r span).erase = .binary op l.erase r.erase default := rfl

@[simp] theorem erase_signed (sign : Sign) (e : Expr) (span : Span) :
    (signed sign e span).erase = .signed sign e.erase default := rfl

end Expr

/-! ## Tokens -/

/-- The token of a sign. -/
def Sign.token : Sign → Token
  | .plus => .symbol .plus
  | .minus => .symbol .minus

@[simp] theorem Sign.ofToken?_token (sign : Sign) : Sign.ofToken? sign.token = some sign := by
  cases sign <;> rfl

/-- The tokens of names with a comma between each two. -/
def nameTokens : List String → List Token
  | [] => []
  | [w] => [.name w]
  | w :: v :: ws => .name w :: .symbol .comma :: nameTokens (v :: ws)

namespace Expr

/-- Whether an expression stands in parentheses where it is an operand. -/
def isCompound : Expr → Bool
  | .binary _ _ _ _ | .signed _ _ _ | .lambda _ _ _ => true
  | _ => false

/-- The tokens of an expression as an operand. -/
def grouped (e : Expr) (tokens : List Token) : List Token :=
  if e.isCompound then .symbol .openParen :: tokens ++ [.symbol .closeParen] else tokens

mutual

/-- The tokens of an expression. -/
def tokens : Expr → List Token
  | .number v _ => [.number v]
  | .text c q _ => [.text c q]
  | .bool v _ => [.bool v]
  | .null _ => [.type .null]
  | .undefined _ => [.type .undefined]
  | .input _ => [.input]
  | .name n _ => [.name n]
  | .index t i _ => tokens t ++ .symbol .openBrace :: tokens i ++ [.symbol .closeBrace]
  | .call f args _ =>
    .keyword .call :: .name f :: .symbol .openBracket :: listTokens args ++ [.symbol .closeBracket]
  | .array es _ => .symbol .openBrace :: listTokens es ++ [.symbol .closeBrace]
  | .lambda ps b _ =>
    .symbol .openBracket :: nameTokens ps ++ .symbol .closeBracket :: .symbol .arrow :: tokens b
  | .method t x m args _ =>
    .keyword .method :: .symbol .colon :: .type t.value :: .name x :: .symbol .dot ::
      .name m.value :: .symbol .openBracket :: listTokens args ++ [.symbol .closeBracket]
  | .binary op l r _ => grouped l (tokens l) ++ op.token :: grouped r (tokens r)
  | .signed sign e _ => sign.token :: grouped e (tokens e)

/-- The tokens of expressions with a comma between each two. -/
def listTokens : List Expr → List Token
  | [] => []
  | [e] => tokens e
  | e :: f :: es => tokens e ++ .symbol .comma :: listTokens (f :: es)

end

/-- Only names are indexed. -/
def IndexesName : Expr → Prop
  | .index t _ _ => ∃ w span, t = .name w span
  | _ => True

end Expr

/-! ## Derivations -/

/-- The located tokens have these values. -/
abbrev Writes (ts : List (Located Token)) (tokens : List Token) : Prop :=
  ts.map Located.value = tokens

namespace Writes

variable {ts : List (Located Token)} {token : Token} {tokens tokens' : List Token}

theorem uncons (h : Writes ts (token :: tokens)) :
    ∃ a us, ts = ⟨token, a⟩ :: us ∧ Writes us tokens := by
  obtain ⟨⟨v, a⟩, us, rfl, rfl, hus⟩ := List.map_eq_cons_iff.1 h
  exact ⟨a, us, rfl, hus⟩

theorem unappend (h : Writes ts (tokens ++ tokens')) :
    ∃ us vs, ts = us ++ vs ∧ Writes us tokens ∧ Writes vs tokens' := by
  obtain ⟨us, vs, rfl, hus, hvs⟩ := List.map_eq_append_iff.1 h
  exact ⟨us, vs, rfl, hus, hvs⟩

theorem single (h : Writes ts [token]) : ∃ a, ts = [⟨token, a⟩] := by
  obtain ⟨a, us, rfl, hus⟩ := h.uncons
  obtain rfl := List.map_eq_nil_iff.1 hus
  exact ⟨a, rfl⟩

end Writes

open Grammar

theorem nameTokens_derivable {params : List String} {ts : List (Located Token)}
    (h : Writes ts (nameTokens params)) : Names ts params := by
  induction params using nameTokens.induct generalizing ts with
  | case1 =>
    obtain rfl := List.map_eq_nil_iff.1 h
    exact .nil
  | case2 w =>
    obtain ⟨a, rfl⟩ := h.single
    exact .one
  | case3 w v ws ih =>
    obtain ⟨a, us, rfl, hus⟩ := h.uncons
    obtain ⟨b, vs, rfl, hvs⟩ := hus.uncons
    exact .more (by simp) (ih hvs)

/-- From wherever the tokens of an expression stand, they write it up to spans, and they write an
operand if it stands in no parentheses. -/
def Derivable (e : Expr) : Prop :=
  ∀ ⦃ts : List (Located Token)⦄, Writes ts e.tokens → ∃ o q, q.erase = e.erase ∧
    Expression o 1 ts q ∧ (e.isCompound = false → Operand false ts q)

/-- From wherever the tokens of expressions stand, they write them up to spans. -/
def ListDerivable (es : List Expr) : Prop :=
  ∀ ⦃ts : List (Located Token)⦄, Writes ts (Expr.listTokens es) → ∃ qs,
    qs.map Expr.erase = es.map Expr.erase ∧ Arguments ts qs

/-- An operand of its own, written by one token. -/
theorem derivable_of_token {e : Expr} {token : Token} (htokens : e.tokens = [token])
    (h : ∀ a, ∃ q, Operand false [⟨token, a⟩] q ∧ q.erase = e.erase) : Derivable e := by
  intro ts hts
  rw [htokens] at hts
  obtain ⟨a, rfl⟩ := hts.single
  obtain ⟨q, hop, hq⟩ := h a
  exact ⟨false, q, hq, .operand hop, fun _ => hop⟩

/-- An operand is derived in parentheses if it needs them. -/
theorem Derivable.operand {e : Expr} (h : Derivable e) {ts : List (Located Token)}
    (hts : Writes ts (e.grouped e.tokens)) : ∃ q, q.erase = e.erase ∧ Operand false ts q := by
  unfold Expr.grouped at hts
  split at hts
  · obtain ⟨us, close, rfl, hus, hclose⟩ := hts.unappend
    obtain ⟨a, es, rfl, hes⟩ := hus.uncons
    obtain ⟨b, rfl⟩ := hclose.single
    obtain ⟨o, q, hq, hexpr, -⟩ := h hes
    exact ⟨q.withSpan _, by simp [hq], .parenthesized hexpr rfl⟩
  · next hcompound =>
    obtain ⟨o, q, hq, -, hop⟩ := h hts
    exact ⟨q, hq, hop (by simpa using hcompound)⟩

namespace Derivable

variable {e : Expr} {args : List Expr} {span : Span}

/-- What is derived as an operand that is not open is derived as an expression. -/
theorem of_operand {ts : List (Located Token)} {q : Expr} (hq : q.erase = e.erase)
    (h : Operand false ts q) : ∃ o q, q.erase = e.erase ∧ Expression o 1 ts q ∧
      (e.isCompound = false → Operand false ts q) :=
  ⟨false, q, hq, .operand h, fun _ => h⟩

theorem index {w : String} {a : Span} (h : Derivable e) :
    Derivable (.index (.name w a) e span) := by
  intro ts hts
  obtain ⟨us, close, rfl, hus, hclose⟩ := hts.unappend
  obtain ⟨b, vs, rfl, hvs⟩ := hus.uncons
  obtain ⟨c, es, rfl, hes⟩ := hvs.uncons
  obtain ⟨d, rfl⟩ := hclose.single
  obtain ⟨o, q, hq, he, -⟩ := h hes
  exact of_operand (by simp [hq]) (.index he rfl)

theorem call {f : String} (h : ListDerivable args) : Derivable (.call f args span) := by
  intro ts hts
  obtain ⟨us, close, rfl, hus, hclose⟩ := hts.unappend
  obtain ⟨a, us, rfl, hf⟩ := hus.uncons
  obtain ⟨b, us, rfl, hopen⟩ := hf.uncons
  obtain ⟨c, as, rfl, has⟩ := hopen.uncons
  obtain ⟨d, rfl⟩ := hclose.single
  obtain ⟨qs, hqs, hargs⟩ := h has
  exact of_operand (by simp [hqs]) (.call hargs rfl)

theorem array (h : ListDerivable args) : Derivable (.array args span) := by
  intro ts hts
  obtain ⟨us, close, rfl, hus, hclose⟩ := hts.unappend
  obtain ⟨a, as, rfl, has⟩ := hus.uncons
  obtain ⟨b, rfl⟩ := hclose.single
  obtain ⟨qs, hqs, hargs⟩ := h has
  exact of_operand (by simp [hqs]) (.array hargs rfl)

theorem lambda {params : List String} (h : Derivable e) : Derivable (.lambda params e span) := by
  intro ts hts
  obtain ⟨us, vs, rfl, hus, hvs⟩ := hts.unappend
  obtain ⟨a, ps, rfl, hps⟩ := hus.uncons
  obtain ⟨b, ws, rfl, hws⟩ := hvs.uncons
  obtain ⟨c, bs, rfl, hbs⟩ := hws.uncons
  obtain ⟨o, q, hq, he, -⟩ := h hbs
  exact ⟨true, .lambda params q _, by simp [hq],
    .operand (.lambda (nameTokens_derivable hps) he rfl), fun hsimple => by cases hsimple⟩

theorem method {type : Located TypeName} {x : String} {m : Located String}
    (h : ListDerivable args) : Derivable (.method type x m args span) := by
  intro ts hts
  obtain ⟨us, close, rfl, hus, hclose⟩ := hts.unappend
  obtain ⟨a, us, rfl, h₁⟩ := hus.uncons
  obtain ⟨b, us, rfl, h₂⟩ := h₁.uncons
  obtain ⟨c, us, rfl, h₃⟩ := h₂.uncons
  obtain ⟨d, us, rfl, h₄⟩ := h₃.uncons
  obtain ⟨e, us, rfl, h₅⟩ := h₄.uncons
  obtain ⟨f, us, rfl, h₆⟩ := h₅.uncons
  obtain ⟨g, as, rfl, has⟩ := h₆.uncons
  obtain ⟨i, rfl⟩ := hclose.single
  obtain ⟨qs, hqs, hargs⟩ := h has
  exact of_operand (by simp [hqs]) (.method hargs rfl)

theorem binary {op : BinaryOp} {l r : Expr} (hl : Derivable l) (hr : Derivable r) :
    Derivable (.binary op l r span) := by
  intro ts hts
  obtain ⟨ls, vs, rfl, hls, hvs⟩ := hts.unappend
  obtain ⟨a, rs, rfl, hrs⟩ := hvs.uncons
  obtain ⟨l', hl', hleft⟩ := hl.operand hls
  obtain ⟨r', hr', hright⟩ := hr.operand hrs
  exact ⟨false, .binary op l' r' _, by simp [hl', hr'],
    .operation op.one_le_level (.operand hleft) (.operand hright) rfl,
    fun hsimple => by cases hsimple⟩

theorem signed {sign : Sign} (h : Derivable e) : Derivable (.signed sign e span) := by
  intro ts hts
  obtain ⟨a, es, rfl, hes⟩ := Writes.uncons hts
  obtain ⟨q, hq, hop⟩ := h.operand hes
  exact of_operand (by simp [hq]) (.signed sign.ofToken?_token hop rfl)

end Derivable

theorem ListDerivable.nil : ListDerivable [] := by
  intro ts hts
  obtain rfl := List.map_eq_nil_iff.1 hts
  exact ⟨[], rfl, .nil⟩

theorem ListDerivable.cons {e : Expr} {es : List Expr} (h : Derivable e) (hes : ListDerivable es) :
    ListDerivable (e :: es) := by
  intro ts hts
  cases es with
  | nil =>
    obtain ⟨o, q, hq, he, -⟩ := h hts
    exact ⟨[q], by simp [hq], .one he⟩
  | cons f es =>
    obtain ⟨us, vs, rfl, hus, hvs⟩ := Writes.unappend hts
    obtain ⟨a, as, rfl, has⟩ := hvs.uncons
    obtain ⟨o, q, hq, he, -⟩ := h hus
    obtain ⟨qs, hqs, hargs⟩ := hes has
    have hne : qs ≠ [] := by
      rintro rfl
      cases hqs
    exact ⟨q :: qs, by simp [hq, hqs], .more he hne hargs⟩

mutual

/-- An expression that indexes only names is derived from its tokens, up to spans. -/
theorem Expr.derivable : ∀ e : Expr, (∀ x ∈ e.nodes, x.IndexesName) → Derivable e
  | .number _ _, _ => derivable_of_token rfl fun a => ⟨_, .number, rfl⟩
  | .text _ _ _, _ => derivable_of_token rfl fun a => ⟨_, .text, rfl⟩
  | .bool _ _, _ => derivable_of_token rfl fun a => ⟨_, .bool, rfl⟩
  | .null _, _ => derivable_of_token rfl fun a => ⟨_, .null (.inr rfl), rfl⟩
  | .undefined _, _ => derivable_of_token rfl fun a => ⟨_, .undefined (.inr rfl), rfl⟩
  | .input _, _ => derivable_of_token rfl fun a => ⟨_, .input, rfl⟩
  | .name _ _, _ => derivable_of_token rfl fun a => ⟨_, .name, rfl⟩
  | .index t i s, h => by
    obtain ⟨w, a, rfl⟩ := h _ (List.mem_cons_self ..)
    exact .index (i.derivable (List.forall_mem_append.1 (List.forall_mem_cons.1 h).2).2)
  | .call f args s, h => .call (Expr.listDerivable args (List.forall_mem_cons.1 h).2)
  | .array es s, h => .array (Expr.listDerivable es (List.forall_mem_cons.1 h).2)
  | .lambda ps b s, h => .lambda (b.derivable (List.forall_mem_cons.1 h).2)
  | .method t x m args s, h => .method (Expr.listDerivable args (List.forall_mem_cons.1 h).2)
  | .binary op l r s, h =>
    have h' := List.forall_mem_append.1 (List.forall_mem_cons.1 h).2
    .binary (l.derivable h'.1) (r.derivable h'.2)
  | .signed sign e s, h => .signed (e.derivable (List.forall_mem_cons.1 h).2)

theorem Expr.listDerivable : ∀ es : List Expr, (∀ x ∈ Expr.nodesList es, x.IndexesName) →
    ListDerivable es
  | [], _ => .nil
  | e :: es, h =>
    have h' := List.forall_mem_append.1 h
    .cons (e.derivable h'.1) (Expr.listDerivable es h'.2)

end

end Resin
