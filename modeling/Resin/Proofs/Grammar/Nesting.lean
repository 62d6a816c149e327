import Resin.Proofs.Grammar.Slices
import Resin.Proofs.Token.Order
import Resin.Proofs.Tree.Spans

/-!
# Spans are nested

The parts of a tree are written by stretches of its tokens. The parts that a part is made of are
written by stretches of its own tokens, one behind the other (`Grammar.Writes.spread`). Tokens stand
in a source one behind the other, so the spans of a program lie inside each other as its parts do,
and those of one part stand in order.
-/

namespace Resin

namespace Grammar

/-! ## Parts of a tree and tokens -/

/-- The tokens write the part of a tree. -/
def Writes (ts : List (Located Token)) : Node → Prop
  | .stmt s => Statement anyExpr ts s
  | .expr e => Derives ts e
  | .type t => ts = [⟨.type t.value, t.span⟩]
  | .method m => ts = [word m.value m.span]
  | .text s => ts = [⟨.text s.content s.quote, s.contentSpan⟩]
  | .start s => Starts ts s.value ∧ s.span = extent ts
  | .increment m => Mutates ts m.value ∧ m.span = extent ts

/-- The span of a part is the extent of its tokens, and there are some. -/
theorem Writes.span_eq {ts : List (Located Token)} {n : Node} (h : Writes ts n) :
    ts ≠ [] ∧ n.span = extent ts := by
  cases n with
  | stmt s => exact Statement.span_eq h
  | expr e =>
    obtain ⟨o, h⟩ := h
    exact h.span_eq
  | type t => exact ⟨by rw [h]; simp, by rw [h]; rfl⟩
  | method m => exact ⟨by rw [h]; simp, by rw [h]; rfl⟩
  | text s => exact ⟨by rw [h]; simp, by rw [h]; rfl⟩
  | start s => exact ⟨h.1.ne_nil, h.2⟩
  | increment m => exact ⟨h.1.ne_nil, h.2⟩

/-- The second part belongs to the first one and is written nowhere: it is the step of a range. -/
def Omitted (n m : Node) : Prop :=
  ∃ stmt e, n = .stmt stmt ∧ m = .expr e ∧ IsOmittedStep stmt e

/-- Stretches of the tokens, one behind the other, write the parts. A part of which `gap` holds may
be written nowhere; its span is then empty and stands in front of a token. -/
inductive Spread (gap : Node → Prop) : List (Located Token) → List Node → Prop
  | nil {ts} : Spread gap ts []
  | skip {token ts ns} : Spread gap ts ns → Spread gap (token :: ts) ns
  | cons {ts us n ns} : Writes ts n → Spread gap us ns → Spread gap (ts ++ us) (n :: ns)
  | omitted {token ts n ns} : gap n → n.span = .point token.span.start →
    Spread gap (token :: ts) ns → Spread gap (token :: ts) (n :: ns)

namespace Spread

variable {gap : Node → Prop} {ts us : List (Located Token)} {ns ms : List Node} {n : Node}

theorem append (h : Spread gap ts ns) (h' : Spread gap us ms) :
    Spread gap (ts ++ us) (ns ++ ms) := by
  induction h with
  | @nil ts =>
    induction ts with
    | nil => exact h'
    | cons token ts ih => exact .skip ih
  | skip _ ih => exact .skip ih
  | cons hn _ ih =>
    rw [List.append_assoc]
    exact .cons hn ih
  | omitted hgap hspan _ ih => exact .omitted hgap hspan ih

theorem single (h : Writes ts n) : Spread gap ts [n] := by
  have hcons : Spread gap (ts ++ []) [n] := .cons h .nil
  rwa [List.append_nil] at hcons

theorem inLeft (h : Spread gap ts ns) : Spread gap (ts ++ us) ns := by
  have happend : Spread gap (ts ++ us) (ns ++ []) := h.append .nil
  rwa [List.append_nil] at happend

theorem inRight (h : Spread gap us ns) : Spread gap (ts ++ us) ns :=
  Spread.nil.append h

end Spread

/-! ## The parts of a part -/

section Parts

variable {gap : Node → Prop} {ts : List (Located Token)}

theorem Derives.spread_single {e : Expr} (h : Derives ts e) : Spread gap ts [.expr e] :=
  .single h

theorem Expression.spread_single {o : Bool} {e : Expr} (h : Expression o 1 ts e) :
    Spread gap ts [.expr e] :=
  (h.derives (Nat.le_refl 1)).spread_single

theorem Starts.spread_single {start : LoopStart} (h : Starts ts start) :
    Spread gap ts [.start ⟨start, extent ts⟩] :=
  .single ⟨h, rfl⟩

theorem Mutates.spread_single {m : Mutation} (h : Mutates ts m) :
    Spread gap ts [.increment ⟨m, extent ts⟩] :=
  .single ⟨h, rfl⟩

theorem spread_type (type : TypeName) (a : Span) :
    Spread gap [⟨.type type, a⟩] [.type ⟨type, a⟩] :=
  .single rfl

theorem spread_method (m : String) (a : Span) : Spread gap [word m a] [.method ⟨m, a⟩] :=
  .single rfl

theorem Arguments.spread : ∀ {ts : List (Located Token)} {es : List Expr}, Arguments ts es →
    Spread gap ts (es.map .expr)
  | _, _, .nil => .nil
  | _, _, .one he => he.spread_single
  | _, _, .more he _ hs => .append he.spread_single (.skip hs.spread)

mutual

/-- The expressions that an expression is made of are spread over its tokens. -/
theorem Expression.spread {o : Bool} {level : Nat} {ts : List (Located Token)} {e : Expr} :
    Expression o level ts e → Spread gap ts e.parts
  | .operand h => h.spread
  | @Expression.binary _ _ op _ _ _ _ _ _ _ hl hr hts =>
    hts ▸ .append (hl.derives (one_le_rank op)).spread_single
      (.skip (hr.derives (Nat.le_add_left 1 _)).spread_single)

theorem Operand.spread {o : Bool} {ts : List (Located Token)} {e : Expr} :
    Operand o ts e → Spread gap ts e.parts
  | .number | .text | .bool | .null _ | .undefined _ | .input | .name => .nil
  | .index hi hts =>
    hts ▸ .inLeft (.append Operand.name.derives.spread_single (.skip hi.spread_single))
  | .call ha hts => hts ▸ .inLeft (.skip (.skip (.skip ha.spread)))
  | .array ha hts => hts ▸ .inLeft (.skip ha.spread)
  | .lambda _ hb hts => hts ▸ .inRight (.skip (.skip hb.spread_single))
  | .nameLambda hb hts => hts ▸ .skip (.skip hb.spread_single)
  | .method ha hts => by
    rw [hts]
    refine .inLeft (.skip (.skip (.append (spread_type _ _) (.skip (.skip ?_)))))
    exact .append (spread_method _ _) (.skip ha.spread)
  | .parenthesized h hts | .bracketed h hts => by
    rw [Expr.parts_withSpan, hts]
    exact .inLeft (.skip h.spread)
  | .signed _ h hts => hts ▸ .skip h.derives.spread_single

end

theorem Annotation.spread {type : Option (Located TypeName)} (h : Annotation ts type) :
    Spread gap ts (type.toList.map .type) := by
  cases h with
  | none => exact .nil
  | some => exact .skip (spread_type _ _)

theorem Initial.spread {value : Option Expr} (h : Initial ts value) :
    Spread gap ts (value.toList.map .expr) := by
  cases h with
  | none => exact .nil
  | some he => exact .skip he.spread_single

theorem Declares.spread {d : Declaration} (h : Declares ts d) : Spread gap ts d.parts := by
  obtain ⟨-, htype, hvalue, -, rfl⟩ := h
  exact .append (.inRight (.skip (.skip htype.spread))) hvalue.spread

theorem Indices.spread {indices : List Expr} (h : Indices ts indices) :
    Spread gap ts (indices.map .expr) := by
  induction h with
  | nil => exact .nil
  | cons hi _ ih => exact .append (.skip hi.spread_single) (.skip ih)

theorem Mutates.spread {m : Mutation} (h : Mutates ts m) :
    Spread gap ts (m.exprs.map .expr) := by
  obtain ⟨hindices, hvalue, rfl⟩ := h
  rw [Mutation.exprs, List.map_append]
  exact .append (.skip (.skip hindices.spread)) (.skip hvalue.spread_single)

theorem Starts.spread {start : LoopStart} (h : Starts ts start) : Spread gap ts start.parts := by
  cases h with
  | declare hd => exact hd.spread
  | update hm => exact hm.spread
  | name => exact .nil

/-- A step that is not written stands in front of the bracket. -/
theorem Step.spread {close : Span} {step : Expr} {ds : List (Located Token)} {ns : List Node}
    (h : Step close ts step)
    (hgap : ∀ offset, step = .number .one (.point offset) → gap (.expr step))
    (hds : Spread gap ds ns) :
    Spread gap (ts ++ sym .closeBracket close :: ds) (.expr step :: ns) := by
  cases h with
  | written he => exact .append (.skip he.spread_single) (.skip hds)
  | omitted => exact .omitted (hgap _ rfl) rfl (.skip hds)

theorem Statements.spread : ∀ {ts : List (Located Token)} {body : List Stmt},
    Statements anyExpr ts body → Spread gap ts (body.map .stmt)
  | _, _, .nil => .nil
  | _, _, .cons hs hss => .cons hs hss.spread

theorem Block.spread {body : List Stmt} (h : Block anyExpr ts body) :
    Spread gap ts (body.map .stmt) := by
  obtain ⟨hbody, rfl⟩ := h
  exact .inLeft (.skip hbody.spread)

theorem Alternatives.spread : ∀ {ts : List (Located Token)} {other : Otherwise},
    Alternatives anyExpr ts other → Spread gap ts other.parts
  | _, _, .nothing => .nil
  | _, _, .check he hb hn hts =>
    hts ▸ .append (.append (.skip (.skip (.skip he.spread_single))) (.skip hb.spread)) hn.spread
  | _, _, .block hb hts => hts ▸ .skip hb.spread

end Parts

/-- The parts of a statement are spread over its tokens. -/
theorem Statement.spread {ts : List (Located Token)} {stmt : Stmt}
    (h : Statement anyExpr ts stmt) : Spread (Omitted (.stmt stmt)) ts stmt.parts := by
  cases h with
  | declare hd hts => exact hts ▸ .inLeft hd.spread
  | @store binding _ n c q _ _ _ _ e _ _ hts =>
    have htext : Writes [⟨.text c q, e⟩] (.text ⟨binding, n, c, q, e⟩) := rfl
    exact hts ▸ .inRight (.skip (.skip (.skip (.cons htext .nil))))
  | update hm hts => exact hts ▸ .inLeft hm.spread
  | check he hb ho hts =>
    exact hts ▸ .append (.append (.skip (.skip he.spread_single)) (.skip hb.spread)) ho.spread
  | repeatRange hf hl hs hb hts =>
    rw [hts, List.append_assoc]
    refine .append
      (.append (.skip (.skip (.skip (.skip hf.spread_single)))) (.skip hl.spread_single))
      (hs.spread (fun offset hstep => ?_) hb.spread)
    exact ⟨_, _, rfl, rfl, _, _, _, _, _, offset, rfl, hstep⟩
  | repeatEach hb hts => exact hts ▸ .skip (.skip (.skip (.skip (.skip (.skip hb.spread)))))
  | repeatUntil he hb hts =>
    exact hts ▸ .append (.skip (.skip (.skip he.spread_single))) (.skip hb.spread)
  | forLoop hs he hi hb hts =>
    rw [hts]
    exact .append (.append (.append (.skip (.skip hs.spread_single)) (.skip he.spread_single))
      (.skip hi.spread_single)) (.skip hb.spread)
  | function _ ha hb hts => exact hts ▸ .append (.inRight (.skip ha.spread)) hb.spread
  | give he hts | display he hts | error he hts | panic he hts =>
    exact hts ▸ .inLeft (.skip he.spread_single)
  | expr _ he _ hts => exact hts ▸ .inLeft he.spread_single
  | skip | halt | raw | rawEnded => exact .nil

/-- The parts that a part is made of are spread over its tokens. -/
theorem Writes.spread {ts : List (Located Token)} {n : Node} (h : Writes ts n) :
    Spread (Omitted n) ts n.children := by
  cases n with
  | stmt s => exact Statement.spread h
  | expr e =>
    obtain ⟨o, h⟩ := h
    exact h.spread
  | start s => exact h.1.spread
  | increment m => exact h.1.spread
  | type t | method m | text s => exact .nil

/-! ## Places -/

namespace Spread

variable {gap : Node → Prop} {ts : List (Located Token)} {ns : List Node}

/-- A part is written by a stretch of the tokens, or it stands in front of one of them. -/
theorem of_mem (h : Spread gap ts ns) : ∀ n ∈ ns, Within Writes ts n ∨
    gap n ∧ ∃ token ∈ ts, n.span = .point token.span.start := by
  induction h with
  | nil => simp
  | skip _ ih =>
    intro n hn
    rcases ih n hn with hwritten | ⟨hgap, token, htoken, hspan⟩
    · exact .inl hwritten.cons
    · exact .inr ⟨hgap, token, List.mem_cons_of_mem _ htoken, hspan⟩
  | cons hfirst _ ih =>
    refine List.forall_mem_cons.2 ⟨.inl (Within.self hfirst).inLeft, fun n hn => ?_⟩
    rcases ih n hn with hwritten | ⟨hgap, token, htoken, hspan⟩
    · exact .inl hwritten.inRight
    · exact .inr ⟨hgap, token, List.mem_append_right _ htoken, hspan⟩
  | omitted hgap hspan _ ih =>
    exact List.forall_mem_cons.2 ⟨.inr ⟨hgap, _, List.mem_cons_self .., hspan⟩, ih⟩

/-- The parts lie between the bounds of the tokens. -/
theorem bounds (h : Spread gap ts ns) (hts : Ordered ts) {lo hi : Nat}
    (hlo : ∀ t ∈ ts, lo ≤ t.span.start) (hhi : ∀ t ∈ ts, t.span.stop ≤ hi) :
    ∀ n ∈ ns, lo ≤ n.span.start ∧ n.span.stop ≤ hi := by
  intro n hn
  rcases h.of_mem n hn with ⟨us, hus, hwritten⟩ | ⟨-, token, htoken, hspan⟩
  · obtain ⟨hne, hspan⟩ := hwritten.span_eq
    obtain ⟨t, ht, hstart⟩ := exists_extent_start hne
    obtain ⟨u, hu, hstop⟩ := exists_extent_stop hne
    rw [hspan, hstart, hstop]
    exact ⟨hlo t (hus.subset ht), hhi u (hus.subset hu)⟩
  · rw [hspan]
    have hlt := hts.start_lt_stop token htoken
    have hle := hhi token htoken
    exact ⟨hlo token htoken, show token.span.start ≤ hi by omega⟩

/-- The parts do not overlap. -/
theorem apart (h : Spread gap ts ns) (hts : Ordered ts) :
    ns.Pairwise fun n m => n.span.stop ≤ m.span.start := by
  induction h with
  | nil => exact .nil
  | @skip token ts ns _ ih => exact ih (hts.of_stretch (List.suffix_cons token ts).isInfix)
  | @cons ts us n ns hn hns ih =>
    have hus : Ordered us := hts.of_stretch (List.suffix_append ts us).isInfix
    refine .cons (fun m hm => ?_) (ih hus)
    obtain ⟨hne, hspan⟩ := hn.span_eq
    obtain ⟨t, ht, hstop⟩ := exists_extent_stop hne
    have hlo := (List.pairwise_append.1 hts.apart).2.2 t ht
    rw [hspan, hstop]
    exact (hns.bounds hus hlo (fun u hu => hus.le_extent_stop hu) m hm).1
  | @omitted token ts n ns _ hspan hns ih =>
    refine .cons (fun m hm => ?_) (ih hts)
    rw [hspan]
    exact (hns.bounds hts (fun t ht => hts.extent_start_le ht)
      (fun t ht => hts.le_extent_stop ht) m hm).1

end Spread

/-- Each part of a program is written by a stretch of its tokens, or it is a step that is not
written and stands in front of one of them. -/
theorem Statements.of_inTree {ts : List (Located Token)} {p : List Stmt} {n : Node}
    (hp : Statements anyExpr ts p) (h : InTree p n) : Within Writes ts n ∨
      ∃ stmt e, InTree p (.stmt stmt) ∧ n = .expr e ∧ IsOmittedStep stmt e ∧
        ∃ token ∈ ts, n.span = .point token.span.start := by
  induction h with
  | @root stmt hstmt =>
    have hspread : Spread (fun _ => False) ts (p.map .stmt) := hp.spread
    rcases hspread.of_mem _ (List.mem_map_of_mem hstmt) with hwritten | ⟨hgap, -⟩
    · exact .inl hwritten
    · exact hgap.elim
  | @child n m hn hm ih =>
    rcases ih with ⟨us, hus, hwritten⟩ | ⟨stmt, e, -, rfl, ⟨_, _, _, _, _, _, -, rfl⟩, -⟩
    · rcases hwritten.spread.of_mem m hm with
        hm | ⟨⟨stmt, e, rfl, rfl, hstep⟩, token, htoken, hspan⟩
      · exact .inl (hm.mono hus)
      · exact .inr ⟨stmt, e, hn, rfl, hstep, token, hus.subset htoken, hspan⟩
    · cases hm

end Grammar

/-! ## The spans of a program -/

/-- A span has its ends in order, in a source and between characters. -/
structure Span.LiesIn (span : Span) (source : String) : Prop where
  start_le_stop : span.start ≤ span.stop
  stop_le : span.stop ≤ Text.byteLength source.toList
  isBoundary_start : IsBoundary source span.start
  isBoundary_stop : IsBoundary source span.stop

/-- A span lies in another one. -/
def Span.Inside (inner outer : Span) : Prop :=
  outer.start ≤ inner.start ∧ inner.stop ≤ outer.stop

/-- A span ends no later than another one begins. -/
def Span.Before (s t : Span) : Prop :=
  s.stop ≤ t.start

open Grammar

section Tokens

variable {source : String} {ts us : List (Located Token)} {n : Node}

theorem Grammar.Writes.liesIn (hitems : (Stream.ofText source).items = ts.map Except.ok)
    (hus : us <:+: ts) (h : Writes us n) : n.span.LiesIn source ∧ n.span.start < n.span.stop := by
  obtain ⟨hne, hspan⟩ := h.span_eq
  obtain ⟨t, ht, hstart⟩ := exists_extent_start hne
  obtain ⟨u, hu, hstop⟩ := exists_extent_stop hne
  obtain ⟨_, _, _, _, hfirst⟩ := exists_lexeme_of_items hitems t (hus.subset ht)
  obtain ⟨_, _, _, _, hlast⟩ := exists_lexeme_of_items hitems u (hus.subset hu)
  have hlt := ((ordered_of_items hitems).of_stretch hus).extent_start_lt_stop hne
  have hend : IsBoundary source n.span.stop := by
    rw [hspan, hstop]
    exact hlast.isBoundary.2
  have hbegin : IsBoundary source n.span.start := by
    rw [hspan, hstart]
    exact hfirst.isBoundary.1
  rw [← hspan] at hlt
  exact ⟨⟨Nat.le_of_lt hlt, hend.le, hbegin, hend⟩, hlt⟩

theorem liesIn_point (hitems : (Stream.ofText source).items = ts.map Except.ok)
    {token : Located Token} (htoken : token ∈ ts) :
    (Span.point token.span.start).LiesIn source := by
  obtain ⟨_, _, _, _, hread⟩ := exists_lexeme_of_items hitems token htoken
  have hbegin := hread.isBoundary.1
  exact ⟨Nat.le_refl _, hbegin.le, hbegin, hbegin⟩

end Tokens

/-- The spans of a program lie in its source and between characters, each inside that of the part
it belongs to; those of one part, and those of the statements of the program, stand in order and do
not overlap. Only a step that is not written has an empty span. The last part says that no span of
the program is passed over here. -/
theorem parseProgram_nested {source : String} {p : List Stmt} (h : parseProgram source = .ok p) :
    (p.Pairwise fun s t => s.span.Before t.span) ∧
    (∀ n, InTree p n → n.span.LiesIn source ∧
      (∀ m ∈ n.children, m.span.Inside n.span) ∧
      (n.children.Pairwise fun m m' => m.span.Before m'.span) ∧
      (n.span.start < n.span.stop ∨
        ∃ stmt e, InTree p (.stmt stmt) ∧ n = .expr e ∧ IsOmittedStep stmt e)) ∧
    ∀ f g, (∀ n, InTree p n → f n.span = g n.span) →
      p.map (Stmt.mapSpans f) = p.map (Stmt.mapSpans g) := by
  obtain ⟨ts, hitems, hp⟩ := statements_of_parseProgram h
  have hordered := ordered_of_items hitems
  refine ⟨?_, fun n hn => ?_, fun f g => mapSpans_eq_of_inTree⟩
  · have hspread : Spread (fun _ => False) ts (p.map .stmt) := hp.spread
    have hapart := hspread.apart hordered
    rw [List.pairwise_map] at hapart
    exact hapart
  · rcases hp.of_inTree hn with ⟨us, hus, hwritten⟩ | ⟨stmt, e, hstmt, rfl, hstep, token, ht, hspan⟩
    · obtain ⟨hlies, hlt⟩ := hwritten.liesIn hitems hus
      have husordered := hordered.of_stretch hus
      refine ⟨hlies, ?_, hwritten.spread.apart husordered, .inl hlt⟩
      show ∀ m ∈ n.children, n.span.start ≤ m.span.start ∧ m.span.stop ≤ n.span.stop
      rw [hwritten.span_eq.2]
      exact hwritten.spread.bounds husordered (fun t ht => husordered.extent_start_le ht)
        fun t ht => husordered.le_extent_stop ht
    · have hchildren : (Node.expr e).children = [] := by
        obtain ⟨_, _, _, _, _, _, -, rfl⟩ := hstep
        rfl
      rw [hchildren]
      refine ⟨?_, by simp, .nil, .inr ⟨stmt, e, hstmt, rfl, hstep⟩⟩
      rw [hspan]
      exact liesIn_point hitems ht

/-- A range without a step behind a comment of more bytes than characters, with a typed declaration
in its body, and a statement whose expression stands in brackets. -/
theorem parseProgram_nested_range : ∃ p,
    parseProgram "$ é\nrepeat [i in 0 to n] \x7b assign x as int = i; \x7d\nshow (x);" = .ok p ∧
    (p.Pairwise fun s t => s.span.Before t.span) ∧
    (∀ n, InTree p n →
      n.span.LiesIn "$ é\nrepeat [i in 0 to n] \x7b assign x as int = i; \x7d\nshow (x);" ∧
      (∀ m ∈ n.children, m.span.Inside n.span) ∧
      (n.children.Pairwise fun m m' => m.span.Before m'.span) ∧
      (n.span.start < n.span.stop ∨
        ∃ stmt e, InTree p (.stmt stmt) ∧ n = .expr e ∧ IsOmittedStep stmt e)) ∧
    ∀ f g, (∀ n, InTree p n → f n.span = g n.span) →
      p.map (Stmt.mapSpans f) = p.map (Stmt.mapSpans g) := by
  have hparse : (parseProgram
      "$ é\nrepeat [i in 0 to n] \x7b assign x as int = i; \x7d\nshow (x);").toOption = some
      [.repeatRange "i" (.number (.ofParts ['0'] []) ⟨18, 19⟩) (.name "n" ⟨23, 24⟩)
        (.number .one ⟨24, 24⟩)
        [.declare ⟨.plain, "x", some ⟨.int, ⟨40, 43⟩⟩, some (.name "i" ⟨46, 47⟩)⟩ ⟨28, 48⟩] ⟨5, 50⟩,
      .display (.name "x" ⟨56, 59⟩) ⟨51, 60⟩] := by decide +kernel
  have hok := eq_ok_of_toOption hparse
  exact ⟨_, hok, parseProgram_nested hok⟩

end Resin
