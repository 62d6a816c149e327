import Resin.Proofs.Grammar.Names
import Resin.Proofs.JavaScript.Reader
import Resin.Script.Expr

/-!
# The structure of a script

Every operation of a script stands in parentheses, so how tightly the operators of the host language
bind does not matter: the script of an expression is an operand (`Expr.exists_represents`), and it
is read back as the expression, whatever the expression is part of (`read_script`). What is lost are
the spans and the kind of quotes around a text.

The words and the numbers of an expression are those of its source. So names have the letters of a
name in the host language too, and numbers are finite or out of the range of the host language.
-/

namespace Resin

open JavaScript (Tree Punctuator Breaks Operand separated)

/-! ## Trees as expressions -/

/-- The punctuator that writes an operator in a script. -/
def BinaryOp.punctuator : BinaryOp → Punctuator
  | .add => .plus
  | .sub => .minus
  | .mul => .star
  | .div => .slash
  | .mod => .percent
  | .power => .power
  | .equal => .equal
  | .strictEqual => .strictEqual
  | .notEqual => .notEqual
  | .strictNotEqual => .strictNotEqual
  | .less => .less
  | .greater => .greater
  | .lessEqual => .lessEqual
  | .greaterEqual => .greaterEqual
  | .and => .and
  | .or => .or

/-- The punctuator that writes a sign in a script. -/
def Sign.punctuator : Sign → Punctuator
  | .plus => .plus
  | .minus => .minus

namespace JavaScript.Tree

mutual

/-- The expression of the language with the structure of a tree, if there is one. It stands nowhere
and quotes its texts with double quotes. -/
def expr? : Tree → Option Expr
  | .number v => some (.number v default)
  | .text c => some (.text c .double default)
  | .bool v => some (.bool v default)
  | .null => some (.null default)
  | .name w => some (if w = "undefined" then .undefined default else .name w default)
  | .array elements => (exprs? elements).map (Expr.array · default)
  | .member target place =>
    match expr? target, expr? place with
    | some target, some place => some (.index target place default)
    | _, _ => none
  | .call (.name "__epx_input") [] => some (.input default)
  | .call (.name callee) args => (exprs? args).map (Expr.call callee · default)
  | .unary .plus operand => (expr? operand).map (Expr.signed .plus · default)
  | .unary .minus operand => (expr? operand).map (Expr.signed .minus · default)
  | .binary p left right =>
    match BinaryOp.list.find? (·.punctuator == p), expr? left, expr? right with
    | some op, some left, some right => some (.binary op left right default)
    | _, _, _ => none
  | .arrow params body => (expr? body).map (Expr.lambda params · default)
  | _ => none

/-- The expressions with the structure of some trees, if all of them have one. -/
def exprs? : List Tree → Option (List Expr)
  | [] => some []
  | t :: ts =>
    match expr? t, exprs? ts with
    | some e, some es => some (e :: es)
    | _, _ => none

end

end JavaScript.Tree

namespace Expr

mutual

/-- An expression without its spans, with double quotes around its texts. -/
def plain : Expr → Expr
  | .number v _ => .number v default
  | .text c _ _ => .text c .double default
  | .bool v _ => .bool v default
  | .null _ => .null default
  | .undefined _ => .undefined default
  | .input _ => .input default
  | .name w _ => .name w default
  | .index t i _ => .index (plain t) (plain i) default
  | .call f args _ => .call f (plainList args) default
  | .array es _ => .array (plainList es) default
  | .lambda ps b _ => .lambda ps (plain b) default
  | .method t x m args _ => .method ⟨t.value, default⟩ x ⟨m.value, default⟩ (plainList args) default
  | .binary op l r _ => .binary op (plain l) (plain r) default
  | .signed sign e _ => .signed sign (plain e) default

/-- `plain` on each expression of a list. -/
def plainList : List Expr → List Expr
  | [] => []
  | e :: es => plain e :: plainList es

end

end Expr

/-! ## Tokens of a script -/

namespace JavaScript

/-- The text is read as the tokens wherever no word and no number goes on behind it. -/
def TokensOf (text : String) (ts : List Token) : Prop :=
  ∀ rest, Breaks rest → Lexes text.toList ts rest

theorem Breaks.of_head {c : Char} (h : isWordPart c = false ∧ c ≠ '.') (rest : List Char) :
    Breaks (c :: rest) := by
  intro d hd
  obtain rfl := Option.some.inj hd
  exact h

theorem isWordStart_of_isWordChar {c : Char} (h : Lexeme.isWordChar c = true) :
    isWordStart c = true := by
  have hchar : (c.isAlpha || c == '_') = true := h
  rw [isWordStart, hchar, Bool.true_or]

theorem isWordPart_of_isWordChar {c : Char} (h : Lexeme.isWordChar c = true) :
    isWordPart c = true := by
  rw [isWordPart, isWordStart_of_isWordChar h, Bool.true_or]

theorem tokensOf_word {w : String} (hne : w.toList ≠ [])
    (h : ∀ c ∈ w.toList, Lexeme.isWordChar c = true) : TokensOf w [.word w] := by
  intro rest hrest
  obtain ⟨first, more, hw⟩ := List.exists_cons_of_ne_nil hne
  rw [hw, List.forall_mem_cons] at h
  have hlexes := Lexes.word (isWordStart_of_isWordChar h.1)
    (fun c hc => isWordPart_of_isWordChar (h.2 c hc)) hrest
  rwa [← hw, String.ofList_toList] at hlexes

/-- Texts with commas between them. -/
theorem tokensOf_intercalate {texts : List String} {tss : List (List Token)}
    (h : List.Forall₂ TokensOf texts tss) : TokensOf (", ".intercalate texts) (separated tss) := by
  induction h with
  | nil => exact fun rest _ => Lexes.nil rest
  | @cons text ts texts tss h htexts ih =>
    intro rest hrest
    cases htexts with
    | nil =>
      rw [String.intercalate_singleton, separated_singleton]
      exact h rest hrest
    | @cons text' ts' texts tss h' htexts =>
      have hmore := (ih rest hrest).spaced.mark .comma rfl (by decide)
      have hlexes := (h _ (.of_head (by decide) _)).append hmore
      rw [String.intercalate_cons_cons, separated_cons_cons]
      simpa using hlexes

/-- A punctuator in front of the fragment remains what it is. -/
def Opens (f : Fragment) : Prop :=
  ∃ first more, f.code.toList = first :: more ∧ ∀ q ∈ Punctuator.list, first ∉ q.spelling.tail

theorem Opens.append {f : Fragment} (h : Opens f) (g : Fragment) : Opens (f ++ g) := by
  obtain ⟨first, more, hcode, hfirst⟩ := h
  exact ⟨first, more ++ g.code.toList, by simp [hcode], hfirst⟩

theorem opens_paren : Opens "(" := ⟨'(', [], rfl, by decide⟩

theorem opens_bracket : Opens "[" := ⟨'[', [], rfl, by decide⟩

theorem opens_of_isWordPart {f : Fragment} {first : Char} {more : List Char}
    (hcode : f.code.toList = first :: more) (hfirst : isWordPart first = true) : Opens f := by
  refine ⟨first, more, hcode, fun q hq hmem => ?_⟩
  have htails : Punctuator.list.all
      (fun q => q.spelling.tail.all fun c => !isWordPart c) = true := by decide
  have hpart := List.all_eq_true.1 (List.all_eq_true.1 htails q hq) first hmem
  rw [hfirst] at hpart
  cases hpart

/-- A word that is a name in programs and in scripts. -/
structure IsHostName (w : String) : Prop where
  isName : IsName w
  not_reserved : w ∉ reserved
  ne_input : w ≠ "__epx_input"

theorem IsHostName.wordTree?_eq {w : String} (h : IsHostName w) :
    wordTree? w = some (.name w) := by
  have hne : ∀ v ∈ reserved, w ≠ v := fun v hv heq => h.not_reserved (heq ▸ hv)
  rw [wordTree?, if_neg (hne _ (by decide)), if_neg (hne _ (by decide)), if_neg (hne _ (by decide)),
    if_neg h.not_reserved]

theorem IsHostName.tokensOf {w : String} (h : IsHostName w) : TokensOf w [.word w] :=
  tokensOf_word h.isName.1 h.isName.2.1

theorem opens_word {f : Fragment} (hne : f.code.toList ≠ [])
    (h : ∀ c ∈ f.code.toList, Lexeme.isWordChar c = true) : Opens f := by
  obtain ⟨first, more, hcode⟩ := List.exists_cons_of_ne_nil hne
  rw [hcode, List.forall_mem_cons] at h
  exact opens_of_isWordPart hcode (isWordPart_of_isWordChar h.1)

/-- The closing bracket at the end of a script. -/
theorem lexes_closeParen (rest : List Char) : Lexes [')'] [.punct .closeParen] rest :=
  (Lexes.nil rest).mark .closeParen rfl (by decide)

theorem lexes_closeBracket (rest : List Char) : Lexes [']'] [.punct .closeBracket] rest :=
  (Lexes.nil rest).mark .closeBracket rfl (by decide)

end JavaScript

theorem BinaryOp.spelling_punctuator (op : BinaryOp) :
    op.punctuator.spelling = op.script.toList := by
  cases op <;> rfl

theorem BinaryOp.find?_punctuator (op : BinaryOp) :
    BinaryOp.list.find? (·.punctuator == op.punctuator) = some op := by
  cases op <;> rfl

theorem BinaryOp.joins_punctuator (op : BinaryOp) : op.punctuator.joins = true := by
  cases op <;> rfl

theorem Sign.spelling_punctuator (sign : Sign) :
    sign.punctuator.spelling = sign.spelling.toList := by
  cases sign <;> rfl

theorem Sign.isSign_punctuator (sign : Sign) : sign.punctuator.isSign = true := by
  cases sign <;> rfl

namespace Expr

open JavaScript

/-! ## Scripts and their trees -/

/-- An expression has a script that is read as the expression, be it as an operand or by itself. -/
structure Represents (e : Expr) (f : Fragment) (ts : List JavaScript.Token) (t : Tree) : Prop where
  script : e.script = .ok f
  tokens : TokensOf f.code ts
  opens : Opens f
  operand : Operand ts t
  expr : t.expr? = some e.plain

/-- Expressions have scripts that are read as the expressions. -/
structure ListRepresents (es : List Expr) (fs : List Fragment)
    (tss : List (List JavaScript.Token)) (trees : List Tree) : Prop where
  scripts : scripts es = .ok fs
  tokens : List.Forall₂ TokensOf (fs.map Fragment.code) tss
  operands : List.Forall₂ Operand tss trees
  exprs : Tree.exprs? trees = some (plainList es)

variable {span : Span} {e left right : Expr} {f g : Fragment} {ts us : List JavaScript.Token}
  {t u : Tree} {es : List Expr} {fs : List Fragment} {tss : List (List JavaScript.Token)}
  {trees : List Tree}

theorem Represents.binary {op : BinaryOp} (hl : left.Represents f ts t)
    (hr : right.Represents g us u) : (Expr.binary op left right span).Represents
      ("(" ++ f ++ " " ++ op.script ++ " " ++ g ++ ")")
      (.punct .openParen :: (ts ++ .punct op.punctuator :: us) ++ [.punct .closeParen])
      (.binary op.punctuator t u) where
  script := by
    rw [Expr.script, hl.script, hr.script]
    rfl
  tokens rest hrest := by
    have hcode : ("(" ++ f ++ " " ++ op.script ++ " " ++ g ++ ")" : Fragment).code.toList =
        '(' :: (f.code.toList ++ ' ' :: (op.punctuator.spelling ++
          ' ' :: (g.code.toList ++ [')']))) := by
      simp [Fragment.text, BinaryOp.spelling_punctuator]
    have hright := (hr.tokens _ (.of_head (by decide) rest)).append (lexes_closeParen rest)
    have hoperation := (hl.tokens _ (.of_head (by decide) _)).append
      (hright.spaced.operator op.punctuator).spaced
    have hlexes := hoperation.mark .openParen rfl (by decide)
    rw [hcode]
    simpa using hlexes
  opens := opens_paren.append _ |>.append _ |>.append _ |>.append _ |>.append _ |>.append _
  operand := by
    refine .paren (.binary op.joins_punctuator hl.operand hr.operand) fun rest => ?_
    obtain ⟨first, more, rfl, hstart⟩ := hl.operand.start
    rw [List.append_assoc]
    exact hstart.params?_eq_none (.inr ⟨_, _, rfl, op.joins_punctuator⟩)
  expr := by
    rw [Tree.expr?, BinaryOp.find?_punctuator, hl.expr, hr.expr]
    rfl

theorem Represents.signed {sign : Sign} (h : e.Represents f ts t) :
    (Expr.signed sign e span).Represents ("(" ++ sign.spelling ++ f ++ ")")
      (.punct .openParen :: (.punct sign.punctuator :: ts) ++ [.punct .closeParen])
      (.unary sign.punctuator t) where
  script := by
    rw [Expr.script, h.script]
    rfl
  tokens rest hrest := by
    have hcode : ("(" ++ sign.spelling ++ f ++ ")" : Fragment).code.toList =
        '(' :: (sign.punctuator.spelling ++ (f.code.toList ++ [')'])) := by
      simp [Fragment.text, Sign.spelling_punctuator]
    have hoperand := (h.tokens _ (.of_head (by decide) rest)).append (lexes_closeParen rest)
    have hsign : JavaScript.Lexes sign.punctuator.spelling [.punct sign.punctuator]
        (f.code.toList ++ [')'] ++ rest) := by
      obtain ⟨first, more, hfirst, hclear⟩ := h.opens
      refine .punct (Punctuator.clear_of_not_mem ?_) (by cases sign <;> rintro ⟨⟩)
      rw [hfirst]
      rintro c hc
      obtain rfl := Option.some.inj hc
      exact hclear
    have hlexes := (hsign.append hoperand).mark .openParen rfl (by decide)
    rw [hcode]
    simpa using hlexes
  opens := opens_paren.append _ |>.append _ |>.append _
  operand := by
    refine .paren (.signed sign.isSign_punctuator h.operand) fun rest => ?_
    cases sign <;> rfl
  expr := by
    cases sign <;> simp [Sign.punctuator, Tree.expr?, h.expr, plain]

theorem Represents.lambda {params : List String} (hparams : ∀ w ∈ params, IsHostName w)
    (h : e.Represents f ts t) : (Expr.lambda params e span).Represents
      ("((" ++ ", ".intercalate params ++ ") => " ++ f ++ ")")
      (.punct .openParen :: (.punct .openParen :: separated (params.map fun w => [.word w]) ++
        .punct .closeParen :: .punct .arrow :: ts) ++ [.punct .closeParen])
      (.arrow params t) where
  script := by
    rw [Expr.script, h.script]
    rfl
  tokens rest hrest := by
    have hcode : ("((" ++ ", ".intercalate params ++ ") => " ++ f ++ ")" : Fragment).code.toList =
        '(' :: '(' :: ((", ".intercalate params).toList ++
          ')' :: ' ' :: (Punctuator.arrow.spelling ++ ' ' :: (f.code.toList ++ [')']))) := by
      simp [Fragment.text, Punctuator.spelling]
    have hnames : List.Forall₂ TokensOf params (params.map fun w => [.word w]) := by
      rw [List.forall₂_map_right_iff, List.forall₂_same]
      exact fun w hw => (hparams w hw).tokensOf
    have hbody := (h.tokens _ (.of_head (by decide) rest)).append (lexes_closeParen rest)
    have harrow := (hbody.spaced.operator .arrow).spaced.mark .closeParen rfl (by decide)
    have hhead := (tokensOf_intercalate hnames _ (.of_head (by decide) _)).append harrow
    have hlexes := (hhead.mark .openParen rfl (by decide)).mark .openParen rfl (by decide)
    rw [hcode]
    simpa using hlexes
  opens := by
    have hopen : Opens "((" := ⟨'(', ['('], rfl, by decide⟩
    exact hopen.append _ |>.append _ |>.append _ |>.append _
  operand := by
    have harrow := h.operand.argument.arrow fun w hw => (hparams w hw).not_reserved
    exact .paren harrow fun rest => rfl
  expr := by
    simp [Tree.expr?, h.expr, plain]

/-- The tokens of scripts with commas between them. -/
theorem ListRepresents.tokens_join (h : ListRepresents es fs tss trees) :
    TokensOf (Fragment.join ", " fs).code (separated tss) :=
  tokensOf_intercalate h.tokens

theorem Represents.index {target place : Expr} (h : target.Represents f ts t)
    (h' : place.Represents g us u) : (Expr.index target place span).Represents
      (f ++ "[" ++ g ++ "]") (ts ++ .punct .openBracket :: us ++ [.punct .closeBracket])
      (.member t u) where
  script := by
    rw [Expr.script, h.script, h'.script]
    rfl
  tokens rest hrest := by
    have hcode : (f ++ "[" ++ g ++ "]" : Fragment).code.toList =
        f.code.toList ++ '[' :: (g.code.toList ++ [']']) := by
      simp [Fragment.text]
    have hplace := (h'.tokens _ (.of_head (by decide) rest)).append (lexes_closeBracket rest)
    have hlexes := (h.tokens _ (.of_head (by decide) _)).append
      (hplace.mark .openBracket rfl (by decide))
    rw [hcode]
    simpa using hlexes
  opens := h.opens.append _ |>.append _ |>.append _
  operand := h.operand.member h'.operand
  expr := by
    rw [Tree.expr?, h.expr, h'.expr]
    rfl

theorem Represents.call {callee : String} (hcallee : IsHostName callee)
    (h : ListRepresents es fs tss trees) : (Expr.call callee es span).Represents
      (callee ++ "(" ++ Fragment.join ", " fs ++ ")")
      ([.word callee] ++ .punct .openParen :: separated tss ++ [.punct .closeParen])
      (.call (.name callee) trees) where
  script := by
    rw [Expr.script, h.scripts]
    rfl
  tokens rest hrest := by
    have hcode : (callee ++ "(" ++ Fragment.join ", " fs ++ ")" : Fragment).code.toList =
        callee.toList ++ '(' :: ((Fragment.join ", " fs).code.toList ++ [')']) := by
      simp [Fragment.text]
    have hargs := (h.tokens_join _ (.of_head (by decide) rest)).append (lexes_closeParen rest)
    have hlexes := (hcallee.tokensOf _ (.of_head (by decide) _)).append
      (hargs.mark .openParen rfl (by decide))
    rw [hcode]
    simpa using hlexes
  opens := by
    have hfirst : Opens callee := opens_word hcallee.isName.1 hcallee.isName.2.1
    exact hfirst.append _ |>.append _ |>.append _
  operand := (Operand.word hcallee.wordTree?_eq).call h.operands
  expr := by
    simp [Tree.expr?, hcallee.ne_input, h.exprs, plain]

theorem Represents.array (h : ListRepresents es fs tss trees) :
    (Expr.array es span).Represents ("[" ++ Fragment.join ", " fs ++ "]")
      (.punct .openBracket :: separated tss ++ [.punct .closeBracket]) (.array trees) where
  script := by
    rw [Expr.script, h.scripts]
    rfl
  tokens rest hrest := by
    have hcode : ("[" ++ Fragment.join ", " fs ++ "]" : Fragment).code.toList =
        '[' :: ((Fragment.join ", " fs).code.toList ++ [']']) := by
      simp [Fragment.text]
    have helements := (h.tokens_join _ (.of_head (by decide) rest)).append (lexes_closeBracket rest)
    have hlexes := helements.mark .openBracket rfl (by decide)
    rw [hcode]
    simpa using hlexes
  opens := opens_bracket.append _ |>.append _
  operand := .array h.operands
  expr := by
    simp [Tree.expr?, h.exprs, plain]

theorem Represents.number {v : Number} (hv : v.Numeral v.text.toList) :
    (Expr.number v span).Represents v.text [.number v] (.number v) where
  script := rfl
  tokens _ hrest := .number hv hrest
  opens := by
    obtain ⟨first, whole, hdigit, -, -, ⟨htext, -⟩ | ⟨fraction, -, htext, -⟩⟩ := hv
    · exact opens_of_isWordPart htext (by rw [isWordPart, hdigit, Bool.or_true])
    · exact opens_of_isWordPart htext (by rw [isWordPart, hdigit, Bool.or_true])
  operand := .number v
  expr := rfl

theorem Represents.text {content : String} {quote : Quote} :
    (Expr.text content quote span).Represents (Literal.quoted content) [.text content]
      (.text content) where
  script := rfl
  tokens rest _ := by
    have hlexes := Lexes.quoted content rest
    rwa [← String.toList_ofList (l := Literal.quotedChars content.toList)] at hlexes
  opens := ⟨_, _, String.toList_ofList, by decide⟩
  operand := .text content
  expr := rfl

/-- Literals and names that are one word of a script. -/
theorem Represents.word {w : String} (hne : w.toList ≠ [])
    (hw : ∀ c ∈ w.toList, Lexeme.isWordChar c = true) (hscript : e.script = .ok (w : Fragment))
    (htree : wordTree? w = some t) (hexpr : t.expr? = some e.plain) :
    e.Represents w [.word w] t where
  script := hscript
  tokens := tokensOf_word hne hw
  opens := opens_word hne hw
  operand := .word htree
  expr := hexpr

theorem Represents.input : (Expr.input span).Represents (.reading "__epx_input()")
    ([.word "__epx_input"] ++ .punct .openParen :: separated [] ++ [.punct .closeParen])
    (.call (.name "__epx_input") []) where
  script := rfl
  tokens rest _ := by
    have hname : TokensOf "__epx_input" [.word "__epx_input"] :=
      tokensOf_word (by decide) (List.all_eq_true.1 (by decide))
    exact (hname _ (.of_head (by decide) _)).append
      ((lexes_closeParen rest).mark .openParen rfl (by decide))
  opens := ⟨'_', _, rfl, by decide⟩
  operand := (Operand.word rfl).call .nil
  expr := rfl

/-- What an expression has to be for its script to be read as the expression, apart from the
expressions inside it: no method call, with names and numbers that the host language reads. -/
def Portable : Expr → Prop
  | .number v _ => v.Numeral v.text.toList
  | .name w _ | .call w _ _ => IsHostName w
  | .lambda params _ _ => ∀ w ∈ params, IsHostName w
  | .method _ _ _ _ _ => False
  | _ => True

mutual

theorem exists_represents : (e : Expr) → (∀ x ∈ e.nodes, x.Portable) →
    ∃ f ts t, e.Represents f ts t
  | .number v _, h => ⟨_, _, _, .number (h _ (List.mem_cons_self ..))⟩
  | .text _ _ _, _ => ⟨_, _, _, .text⟩
  | .bool v _, _ => by
    cases v
    · exact ⟨_, _, _, .word (by decide) (List.all_eq_true.1 (by decide)) rfl rfl rfl⟩
    · exact ⟨_, _, _, .word (by decide) (List.all_eq_true.1 (by decide)) rfl rfl rfl⟩
  | .null _, _ | .undefined _, _ =>
    ⟨_, _, _, .word (by decide) (List.all_eq_true.1 (by decide)) rfl rfl rfl⟩
  | .input _, _ => ⟨_, _, _, .input⟩
  | .name w _, h => by
    have hw : IsHostName w := h _ (List.mem_cons_self ..)
    have hundefined : w ≠ "undefined" := hw.isName.2.2.2.1 .undefined
    refine ⟨_, _, _, .word hw.isName.1 hw.isName.2.1 rfl hw.wordTree?_eq ?_⟩
    simp [Tree.expr?, hundefined, plain]
  | .index target place _, h => by
    rw [forall_mem_nodes, inner_index, List.forall_mem_append] at h
    obtain ⟨f, ts, t, htarget⟩ := exists_represents target h.2.1
    obtain ⟨g, us, u, hplace⟩ := exists_represents place h.2.2
    exact ⟨_, _, _, htarget.index hplace⟩
  | .call callee args _, h => by
    rw [forall_mem_nodes] at h
    obtain ⟨fs, tss, trees, hargs⟩ := exists_listRepresents args h.2
    exact ⟨_, _, _, .call h.1 hargs⟩
  | .array elements _, h => by
    rw [forall_mem_nodes] at h
    obtain ⟨fs, tss, trees, helements⟩ := exists_listRepresents elements h.2
    exact ⟨_, _, _, .array helements⟩
  | .lambda params body _, h => by
    rw [forall_mem_nodes] at h
    obtain ⟨f, ts, t, hbody⟩ := exists_represents body h.2
    exact ⟨_, _, _, .lambda h.1 hbody⟩
  | .method _ _ _ _ _, h => (h _ (List.mem_cons_self ..)).elim
  | .binary _ left right _, h => by
    rw [forall_mem_nodes, inner_binary, List.forall_mem_append] at h
    obtain ⟨f, ts, t, hleft⟩ := exists_represents left h.2.1
    obtain ⟨g, us, u, hright⟩ := exists_represents right h.2.2
    exact ⟨_, _, _, hleft.binary hright⟩
  | .signed _ operand _, h => by
    rw [forall_mem_nodes] at h
    obtain ⟨f, ts, t, hoperand⟩ := exists_represents operand h.2
    exact ⟨_, _, _, hoperand.signed⟩

theorem exists_listRepresents : (es : List Expr) → (∀ x ∈ nodesList es, x.Portable) →
    ∃ fs tss trees, ListRepresents es fs tss trees
  | [], _ => ⟨[], [], [], rfl, .nil, .nil, rfl⟩
  | e :: es, h => by
    rw [nodesList_cons, List.forall_mem_append] at h
    obtain ⟨f, ts, t, he⟩ := exists_represents e h.1
    obtain ⟨fs, tss, trees, hes⟩ := exists_listRepresents es h.2
    refine ⟨f :: fs, ts :: tss, t :: trees, ?_, .cons he.tokens hes.tokens,
      .cons he.operand hes.operands, ?_⟩
    · rw [scripts, he.script, hes.scripts]
      rfl
    · rw [Tree.exprs?, he.expr, hes.exprs]
      rfl

end

end Expr

/-! ## Expressions of sources -/

/-- The expression is read from a source, by itself, in another one or in a program. -/
def Expr.Built (e : Expr) : Prop :=
  (∃ source x, parseExpression source = .ok x ∧ e ∈ x.nodes) ∨
    ∃ source p, parseProgram source = .ok p ∧
      ∃ stmt ∈ Stmt.nodesList p, e ∈ Expr.nodesList stmt.exprs

/-- The tokens of a source write the expression, or it is the step that a range has by default. -/
theorem Expr.Built.derives {e : Expr} (h : e.Built) :
    (∃ source ts, (Stream.ofText source).items = ts.map Except.ok ∧
      Grammar.Within Grammar.Derives ts e) ∨ ∃ span, e = .number .one span := by
  rcases h with ⟨source, x, hx, he⟩ | ⟨source, p, hp, stmt, hstmt, he⟩
  · obtain ⟨o, ts, hitems, hexpr⟩ := expression_of_parseExpression hx
    have hderives : Grammar.Derives ts x := ⟨o, hexpr⟩
    exact .inl ⟨source, ts, hitems, hderives.of_mem_nodes hexpr.of_mem_inner e he⟩
  · obtain ⟨ts, hitems, hstatements⟩ := statements_of_parseProgram hp
    obtain ⟨us, hus, hderived⟩ := hstatements.of_mem_nodes stmt hstmt
    rcases hderived.of_mem_exprs e he with hderives | ⟨_, _, _, _, _, _, _, rfl⟩
    · exact .inl ⟨source, ts, hitems, hderives.mono hus⟩
    · exact .inr ⟨_, rfl⟩

/-- The names in an expression of a source are names, and its numbers are written in digits. -/
theorem Expr.Built.literals {e : Expr} (h : e.Built) : e.NamesAll IsName ∧
    ∀ v span, .number v span ∈ e.nodes → ∃ whole fraction, v = .ofParts whole fraction := by
  rcases h.derives with ⟨source, ts, hitems, us, hus, hderives⟩ | ⟨span, rfl⟩
  · have htokens : ∀ token ∈ us, .ok token ∈ (Stream.ofText source).items := by
      intro token htoken
      rw [hitems]
      exact List.mem_map_of_mem (hus.subset htoken)
    constructor
    · obtain ⟨o, hexpr⟩ := hderives
      exact hexpr.names fun token htoken w hvalue =>
        isName_of_mem_items (htokens token htoken) hvalue
    · intro v span hv
      obtain ⟨a, ha⟩ := hderives.number_mem hv
      obtain ⟨first, rest, hfront⟩ := Stream.exists_front_of_mem (htokens _ ha)
      obtain ⟨w, -, -, h⟩ | ⟨whole, fraction, h⟩ | ⟨_, _, h⟩ | ⟨_, h⟩ | h | ⟨_, h⟩ :=
        Lexeme.front_ok_cases hfront
      · exact absurd h.symm (Token.ofWord_ne_number _ v)
      · exact ⟨whole, fraction, Token.number.inj h⟩
      all_goals cases h
  · refine ⟨by simp [Expr.NamesAll, Expr.nodes, Expr.inner, Expr.names], fun v span hv => ?_⟩
    cases List.mem_singleton.1 hv
    exact ⟨['1'], [], rfl⟩

/-- The script of an expression keeps its structure: the host language reads the text back as the
expression, up to spans and the kind of quotes. -/
theorem read_script {e : Expr} (hbuilt : e.Built)
    (hmethod : ∀ type target called args span, .method type target called args span ∉ e.nodes)
    (hnames : e.NamesAll fun w => w ∉ JavaScript.reserved ∧ ¬ "__epx_".toList <+: w.toList)
    (hfinite : ∀ negative span, .number (.infinite negative) span ∉ e.nodes) :
    ∃ f t, e.script = .ok f ∧ JavaScript.read f.code = some t ∧ t.expr? = some e.plain := by
  obtain ⟨hword, hnumber⟩ := hbuilt.literals
  have hname : e.NamesAll JavaScript.IsHostName := by
    intro x hx w hw
    obtain ⟨hreserved, hepx⟩ := hnames x hx w hw
    refine ⟨hword x hx w hw, hreserved, ?_⟩
    rintro rfl
    exact hepx (by decide)
  have hnode : ∀ x ∈ e.nodes, x.Portable := by
    intro x hx
    cases x with
    | number v span =>
      obtain ⟨whole, fraction, hv⟩ := hnumber v span hx
      refine Number.numeral_of_ofParts hv ?_
      rintro negative rfl
      exact hfinite negative span hx
    | name w | call w => exact hname _ hx w (List.mem_singleton_self w)
    | lambda params => exact hname _ hx
    | method type target called args span => exact absurd hx (hmethod type target called args span)
    | _ => trivial
  obtain ⟨f, ts, t, h⟩ := e.exists_represents hnode
  have htokens := h.tokens [] (by simp [Breaks])
  exact ⟨f, t, h.script, JavaScript.read_eq htokens.tokens_eq h.operand, h.expr⟩

/-- A sign at the base of a power, two signs in a row, an index and a lambda among arguments. -/
theorem read_script_power : ∃ e,
    parseExpression "-a ** 1.5 - - b or call f[x\x7b2\x7d, [x, y] -> x ** y]" = .ok e ∧
    ∃ f t, e.script = .ok f ∧ JavaScript.read f.code = some t ∧ t.expr? = some e.plain := by
  have hparse : (parseExpression
      "-a ** 1.5 - - b or call f[x\x7b2\x7d, [x, y] -> x ** y]").toOption = some
      (.binary .or
        (.binary .sub
          (.binary .power (.signed .minus (.name "a" ⟨1, 2⟩) ⟨0, 2⟩)
            (.number (.finite false 6755399441055744 (-52)) ⟨6, 9⟩) ⟨0, 9⟩)
          (.signed .minus (.name "b" ⟨14, 15⟩) ⟨12, 15⟩) ⟨0, 15⟩)
        (.call "f"
          [.index (.name "x" ⟨26, 27⟩) (.number (.finite false 4503599627370496 (-51)) ⟨28, 29⟩)
              ⟨26, 30⟩,
            .lambda ["x", "y"]
              (.binary .power (.name "x" ⟨42, 43⟩) (.name "y" ⟨47, 48⟩) ⟨42, 48⟩) ⟨32, 48⟩]
          ⟨19, 49⟩) ⟨0, 49⟩) := by decide +kernel
  have hok := eq_ok_of_toOption hparse
  refine ⟨_, hok, read_script (.inl ⟨_, _, hok, List.mem_cons_self ..⟩) ?_ ?_ ?_⟩
  · simp [Expr.nodes, Expr.inner, Expr.nodesList]
  · unfold Expr.NamesAll
    decide
  · simp [Expr.nodes, Expr.inner, Expr.nodesList]

end Resin
