import Resin.Proofs.Grammar.Nodes
import Resin.Proofs.Print.Spelling

/-!
# The names in a tree

Every name in a derivable tree is a word among the tokens that it is derived from
(`Grammar.Expression.names`, `Grammar.Statement.names`). The words among the tokens of a source are
made of letters and underscores, so this holds of all names in its tree.
-/

namespace Resin

/-- Every name in an expression has a property. -/
def Expr.NamesAll (P : String → Prop) (e : Expr) : Prop :=
  ∀ x ∈ e.nodes, ∀ n ∈ x.names, P n

/-- Every name in some expressions has a property. -/
def Expr.ListNamesAll (P : String → Prop) (es : List Expr) : Prop :=
  ∀ x ∈ Expr.nodesList es, ∀ n ∈ x.names, P n

namespace Expr

variable {P : String → Prop}

theorem namesAll_iff {e : Expr} :
    e.NamesAll P ↔ (∀ n ∈ e.names, P n) ∧ ∀ x ∈ e.inner, ∀ n ∈ x.names, P n :=
  forall_mem_nodes

theorem listNamesAll_nil : ListNamesAll P [] := by
  simp [ListNamesAll, nodesList]

theorem listNamesAll_append {es es' : List Expr} :
    ListNamesAll P (es ++ es') ↔ ListNamesAll P es ∧ ListNamesAll P es' := by
  rw [ListNamesAll, nodesList_append, List.forall_mem_append]
  rfl

theorem listNamesAll_cons {e : Expr} {es : List Expr} :
    ListNamesAll P (e :: es) ↔ e.NamesAll P ∧ ListNamesAll P es := by
  rw [ListNamesAll, nodesList_cons, List.forall_mem_append]
  rfl

theorem listNamesAll_singleton {e : Expr} : ListNamesAll P [e] ↔ e.NamesAll P := by
  rw [listNamesAll_cons, and_iff_left listNamesAll_nil]

end Expr

namespace Grammar

variable {P : String → Prop}

/-- Every word among the tokens has a property. -/
def WordsAll (P : String → Prop) (ts : List (Located Token)) : Prop :=
  ∀ t ∈ ts, ∀ w, t.value = .name w → P w

@[simp] theorem wordsAll_nil : WordsAll P [] := by
  simp [WordsAll]

@[simp] theorem wordsAll_append {ts us : List (Located Token)} :
    WordsAll P (ts ++ us) ↔ WordsAll P ts ∧ WordsAll P us :=
  List.forall_mem_append

theorem wordsAll_cons {t : Located Token} {ts : List (Located Token)} :
    WordsAll P (t :: ts) ↔ (∀ w, t.value = .name w → P w) ∧ WordsAll P ts :=
  List.forall_mem_cons

@[simp] theorem wordsAll_word {w : String} {a : Span} {ts : List (Located Token)} :
    WordsAll P (word w a :: ts) ↔ P w ∧ WordsAll P ts := by
  simp [wordsAll_cons]

@[simp] theorem wordsAll_kw {k : Keyword} {a : Span} {ts : List (Located Token)} :
    WordsAll P (kw k a :: ts) ↔ WordsAll P ts := by
  simp [wordsAll_cons]

@[simp] theorem wordsAll_sym {s : Symbol} {a : Span} {ts : List (Located Token)} :
    WordsAll P (sym s a :: ts) ↔ WordsAll P ts := by
  simp [wordsAll_cons]

@[simp] theorem wordsAll_type {t : TypeName} {a : Span} {ts : List (Located Token)} :
    WordsAll P (⟨.type t, a⟩ :: ts) ↔ WordsAll P ts := by
  simp [wordsAll_cons]

/-! ## Expressions -/

theorem Names.all {ts : List (Located Token)} {ws : List String} (h : Names ts ws)
    (hw : WordsAll P ts) : ∀ w ∈ ws, P w := by
  induction h with
  | nil => simp
  | one => simpa using hw
  | more _ _ ih =>
    rw [wordsAll_word, wordsAll_sym] at hw
    rw [List.forall_mem_cons]
    exact ⟨hw.1, ih hw.2⟩

mutual

/-- The names that an expression writes itself are words of its tokens. -/
theorem Expression.own_names {o : Bool} {level : Nat} {ts : List (Located Token)} {e : Expr} :
    Expression o level ts e → WordsAll P ts → ∀ n ∈ e.names, P n
  | .operand h, hw => h.own_names hw
  | .binary _ _ _ _, _ => by simp [Expr.names]

theorem Operand.own_names {o : Bool} {ts : List (Located Token)} {e : Expr} :
    Operand o ts e → WordsAll P ts → ∀ n ∈ e.names, P n
  | .number, _ | .text, _ | .bool, _ | .null _, _ | .undefined _, _ | .input, _ | .index _ _, _
  | .array _ _, _ | .signed _ _ _, _ => by simp [Expr.names]
  | .name, hw => by
    rw [wordsAll_word] at hw
    simpa [Expr.names] using hw.1
  | .call _ hts, hw => by
    simp only [hts, wordsAll_word, wordsAll_kw, List.cons_append] at hw
    simpa [Expr.names] using hw.1
  | .lambda hp _ hts, hw => by
    simp only [hts, wordsAll_append, wordsAll_sym, List.cons_append] at hw
    exact hp.all hw.1
  | .nameLambda _ hts, hw => by
    rw [hts, wordsAll_word] at hw
    simpa [Expr.names] using hw.1
  | .method _ hts, hw => by
    simp only [hts, wordsAll_word, wordsAll_sym, wordsAll_kw, wordsAll_type, List.cons_append] at hw
    simpa [Expr.names] using hw.1
  | .parenthesized h hts, hw | .bracketed h hts, hw => by
    simp only [hts, wordsAll_append, wordsAll_sym, List.cons_append] at hw
    rw [Expr.names_withSpan]
    exact h.own_names hw.1

end

theorem WordsAll.of_stretch {ts us : List (Located Token)} (h : WordsAll P ts) (hus : us <:+: ts) :
    WordsAll P us :=
  fun token htoken => h token (hus.subset htoken)

/-- The names that an expression inside a stretch of tokens writes itself are words of it. -/
theorem Within.own_names {ts : List (Located Token)} {e : Expr} (h : Within Derives ts e)
    (hw : WordsAll P ts) : ∀ n ∈ e.names, P n := by
  obtain ⟨us, hus, o, hexpr⟩ := h
  exact hexpr.own_names (hw.of_stretch hus)

/-- The names in an expression are words of its tokens. -/
theorem Expression.names {o : Bool} {ts : List (Located Token)} {e : Expr}
    (h : Expression o 1 ts e) (hw : WordsAll P ts) : e.NamesAll P :=
  fun x hx => (Derives.of_mem_nodes ⟨o, h⟩ h.of_mem_inner x hx).own_names hw

/-! ## Statements -/

theorem Declares.names {ts : List (Located Token)} {d : Declaration} (h : Declares ts d)
    (hw : WordsAll P ts) : P d.name := by
  obtain ⟨-, -, -, -, rfl⟩ := h
  simp only [wordsAll_append, wordsAll_kw, wordsAll_word] at hw
  exact hw.1.2.1

theorem Mutates.names {ts : List (Located Token)} {m : Mutation} (h : Mutates ts m)
    (hw : WordsAll P ts) : P m.target := by
  obtain ⟨-, -, rfl⟩ := h
  simp only [wordsAll_append, wordsAll_kw, wordsAll_word, List.cons_append] at hw
  exact hw.1

theorem Starts.names {ts : List (Located Token)} {start : LoopStart} (h : Starts ts start)
    (hw : WordsAll P ts) : ∀ n ∈ start.names, P n := by
  cases h with
  | declare hd => simpa [LoopStart.names] using hd.names hw
  | update hm => simpa [LoopStart.names] using hm.names hw
  | name =>
    rw [wordsAll_word] at hw
    simpa [LoopStart.names] using hw.1

/-- The names that a statement writes itself are words of its tokens. -/
theorem Statement.own_names {alone : Expr → Prop} {ts : List (Located Token)} {stmt : Stmt}
    (h : Statement alone ts stmt) (hw : WordsAll P ts) : ∀ n ∈ stmt.names, P n := by
  cases h with
  | declare hd hts =>
    rw [hts, wordsAll_append] at hw
    simpa [Stmt.names] using hd.names hw.1
  | store _ hts =>
    simp only [hts, wordsAll_append, wordsAll_kw, wordsAll_word] at hw
    simpa [Stmt.names] using hw.2.1
  | update hm hts =>
    rw [hts, wordsAll_append] at hw
    simpa [Stmt.names] using hm.names hw.1
  | repeatRange _ _ _ _ hts =>
    simp only [hts, wordsAll_append, wordsAll_kw, wordsAll_sym, wordsAll_word,
      List.cons_append] at hw
    simpa [Stmt.names] using hw.1
  | repeatEach _ hts =>
    simp only [hts, wordsAll_kw, wordsAll_sym, wordsAll_word] at hw
    simp [Stmt.names, hw]
  | forLoop hs _ hi _ hts =>
    simp only [hts, wordsAll_append, wordsAll_kw, wordsAll_sym, List.cons_append] at hw
    obtain ⟨⟨⟨hss, -⟩, his⟩, -⟩ := hw
    exact List.forall_mem_append.2 ⟨hs.names hss, by simpa using hi.names his⟩
  | function hp _ _ hts =>
    simp only [hts, wordsAll_append, wordsAll_kw, wordsAll_sym, wordsAll_word,
      List.cons_append] at hw
    exact List.forall_mem_cons.2 ⟨hw.1, hp.all hw.2.1.1⟩
  | check | repeatUntil | give | display | error | panic | expr | skip | halt | raw | rawEnded =>
    simp [Stmt.names]

/-- The names in a statement, apart from those in the statements inside it, are words of its
tokens. -/
theorem Statement.names {alone : Expr → Prop} {ts : List (Located Token)} {stmt : Stmt}
    (h : Statement alone ts stmt) (hw : WordsAll P ts) :
    (∀ n ∈ stmt.names, P n) ∧ Expr.ListNamesAll P stmt.exprs := by
  refine ⟨h.own_names hw, fun x hx => ?_⟩
  rcases h.of_mem_exprs x hx with hderives | ⟨_, _, _, _, _, _, _, rfl⟩
  · exact hderives.own_names hw
  · simp [Expr.names]

theorem Statement.raw_mem {alone : Expr → Prop} {ts : List (Located Token)} {code : String}
    {span : Span} (h : Statement alone ts (.raw code span)) : ∃ a, ⟨.raw code, a⟩ ∈ ts := by
  cases h with
  | raw hts => exact ⟨_, by rw [hts]; exact List.mem_cons_self ..⟩
  | rawEnded hts => exact ⟨_, by rw [hts]; exact List.mem_cons_self ..⟩

end Grammar

/-! ## Sources -/

/-- A text made of letters and underscores. -/
def IsWord (text : String) : Prop :=
  ∀ c ∈ text.toList, Lexeme.isWordChar c = true

theorem Token.eq_of_ofWord_eq_name {text w : String} (h : Token.ofWord text = .name w) :
    w = text := by
  unfold Token.ofWord at h
  repeat' split at h
  all_goals cases h
  rfl

theorem IsName.isWord {w : String} (h : IsName w) : IsWord w :=
  h.2.1

/-- The words among the tokens of a source are names. -/
theorem isName_of_mem_items {source : String} {token : Located Token} {w : String}
    (h : .ok token ∈ (Stream.ofText source).items) (hvalue : token.value = .name w) : IsName w := by
  obtain ⟨first, rest, hfront⟩ := Stream.exists_front_of_mem h
  rw [hvalue] at hfront
  obtain ⟨cs, hne, hcs, hword⟩ | ⟨_, _, h⟩ | ⟨_, _, h⟩ | ⟨_, h⟩ | h | ⟨_, h⟩ :=
    Lexeme.front_ok_cases hfront
  · obtain rfl := Token.eq_of_ofWord_eq_name hword.symm
    rw [isName_iff, String.toList_ofList, List.all_eq_true]
    exact ⟨hne, hcs, hword.symm⟩
  all_goals cases h

/-- The words among the tokens of a source are made of letters and underscores. -/
theorem isWord_of_mem_items {source : String} {token : Located Token} {w : String}
    (h : .ok token ∈ (Stream.ofText source).items) (hvalue : token.value = .name w) : IsWord w :=
  (isName_of_mem_items h hvalue).isWord

theorem wordsAll_of_items {source : String} {ts : List (Located Token)}
    (h : (Stream.ofText source).items = ts.map Except.ok) : Grammar.WordsAll IsName ts := by
  intro token htoken w hvalue
  exact isName_of_mem_items (h ▸ List.mem_map_of_mem htoken) hvalue

/-- The names in a source that is one expression are made of letters and underscores. -/
theorem namesAll_of_parseExpression {source : String} {e : Expr}
    (h : parseExpression source = .ok e) : e.NamesAll IsWord := by
  obtain ⟨o, ts, hitems, hexpr⟩ := expression_of_parseExpression h
  exact hexpr.names fun token htoken w hvalue =>
    (wordsAll_of_items hitems token htoken w hvalue).isWord

/-- A raw block in a program is a token of its source. -/
theorem raw_mem_items_of_parseProgram {source : String} {p : List Stmt} {code : String}
    {span : Span} (h : parseProgram source = .ok p) (hraw : .raw code span ∈ Stmt.nodesList p) :
    ∃ a, .ok ⟨.raw code, a⟩ ∈ (Stream.ofText source).items := by
  obtain ⟨ts, hitems, hp⟩ := statements_of_parseProgram h
  obtain ⟨us, hus, hderived⟩ := hp.of_mem_nodes _ hraw
  obtain ⟨a, ha⟩ := hderived.raw_mem
  exact ⟨a, hitems ▸ List.mem_map_of_mem (hus.subset ha)⟩

end Resin
