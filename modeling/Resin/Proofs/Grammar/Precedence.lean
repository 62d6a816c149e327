import Resin.Proofs.Grammar.Slices
import Resin.Proofs.Print.Expr

/-!
# Chains of operators

A chain is a row of operands with a binary operator between each two, and an operand is a name or a
number with signs in front of it. There is just one tree that has the operands and operators of a
chain in their order and is `Grouped` as the levels say: the operator of a left operand binds at
least as tightly as the one behind it, that of a right operand binds more tightly than the one in
front of it (`Grouped.erase_eq`). A chain has such a tree, since an operator and an operand can be
put behind one (`Climbs.extend`), and it is the tree that the chain is read as (`standalone_chain`).
-/

namespace Resin

/-! ## Chains -/

/-- A name or a number. -/
inductive Atom where
  | name (word : String)
  | number (value : Number)
deriving DecidableEq, Repr, Inhabited

/-- The token of a name or a number. -/
def Atom.token : Atom → Token
  | .name w => .name w
  | .number v => .number v

/-- A name or a number as an expression, at no place. -/
def Atom.tree : Atom → Expr
  | .name w => .name w default
  | .number v => .number v default

/-- A name or a number with signs in front of it, the first sign first. -/
structure Signed where
  signs : List Sign
  atom : Atom
deriving DecidableEq, Repr, Inhabited

namespace Signed

def tokens (u : Signed) : List Token :=
  u.signs.map Sign.token ++ [u.atom.token]

/-- Each sign is applied to what follows it, and the last one to the name or the number. -/
def tree (u : Signed) : Expr :=
  u.signs.foldr (fun sign e => .signed sign e default) u.atom.tree

end Signed

/-- An operand, and then operators, each with an operand behind it. -/
structure Chain where
  first : Signed
  rest : List (BinaryOp × Signed)
deriving DecidableEq, Repr, Inhabited

def Chain.tokens (c : Chain) : List Token :=
  c.first.tokens ++ c.rest.flatMap fun next => next.1.token :: next.2.tokens

/-- The operands of a chain as trees, with the operators between them. -/
def Chain.trees (c : Chain) : Expr × List (BinaryOp × Expr) :=
  (c.first.tree, c.rest.map fun next => (next.1, next.2.tree))

/-! ## Trees of operators -/

namespace Expr

/-- The operator at the root of an expression, if it is an operation. -/
def operator? : Expr → Option BinaryOp
  | .binary op _ _ _ => some op
  | _ => none

/-- What is no operation in an expression, from left to right and up to spans, with the operators in
between. -/
def inOrder : Expr → Expr × List (BinaryOp × Expr)
  | .binary op left right _ =>
    (left.inOrder.1, left.inOrder.2 ++ (op, right.inOrder.1) :: right.inOrder.2)
  | e => (e.erase, [])

/-- The operator of a left operand binds at least as tightly as the one it is an operand of, and the
operator of a right operand binds more tightly. -/
def Grouped : Expr → Prop
  | .binary op left right _ =>
    (∀ l, left.operator? = some l → op.level ≤ l.level) ∧
      (∀ r, right.operator? = some r → op.level < r.level) ∧ left.Grouped ∧ right.Grouped
  | _ => True

theorem inOrder_of_operator? {e : Expr} (h : e.operator? = none) : e.inOrder = (e.erase, []) := by
  cases e with
  | binary => cases h
  | _ => rfl

theorem operator?_of_inOrder {e : Expr} (h : e.inOrder.2 = []) : e.operator? = none := by
  cases e with
  | binary => simp [inOrder] at h
  | _ => rfl

/-- No operator in a grouped tree binds less tightly than the one at its root. -/
theorem Grouped.le_level {e : Expr} (he : e.Grouped) {k : Nat}
    (hk : ∀ op, e.operator? = some op → k ≤ op.level) : ∀ next ∈ e.inOrder.2, k ≤ next.1.level := by
  fun_induction inOrder e generalizing k with
  | case1 op left right span ihleft ihright =>
    obtain ⟨hl, hr, hleft, hright⟩ := he
    have hop := hk op rfl
    intro next hnext
    rcases List.mem_append.1 hnext with hnext | hnext
    · exact ihleft hleft (fun l h => Nat.le_trans hop (hl l h)) next hnext
    · rcases List.mem_cons.1 hnext with rfl | hnext
      · exact hop
      · exact ihright hright (fun r h => Nat.le_trans hop (Nat.le_of_lt (hr r h))) next hnext
  | case2 e hleaf => simp

end Expr

/-- Between two operators where a row can be cut there is nothing. -/
theorem eq_nil_of_cut {mid ys ys' : List (BinaryOp × Expr)} {x x' : BinaryOp × Expr}
    (h : x :: ys = mid ++ x' :: ys') (hys : ∀ y ∈ ys, x.1.level < y.1.level)
    (hmid : ∀ y ∈ mid, x'.1.level ≤ y.1.level) : mid = [] := by
  cases mid with
  | nil => rfl
  | cons z mid =>
    -- the first operator stands in front of the second, which stands behind it
    obtain ⟨rfl, hys_eq⟩ := List.cons.inj h
    have hle := hmid x (List.mem_cons_self ..)
    have hlt := hys x' (by rw [hys_eq]; simp)
    omega

/-- A row of operators is cut in one way only at an operator that binds no more tightly than those in
front of it and less tightly than those behind it. -/
theorem cut_unique {xs ys xs' ys' : List (BinaryOp × Expr)} {x x' : BinaryOp × Expr}
    (h : xs ++ x :: ys = xs' ++ x' :: ys') (hxs : ∀ y ∈ xs, x.1.level ≤ y.1.level)
    (hys : ∀ y ∈ ys, x.1.level < y.1.level) (hxs' : ∀ y ∈ xs', x'.1.level ≤ y.1.level)
    (hys' : ∀ y ∈ ys', x'.1.level < y.1.level) : xs = xs' ∧ x = x' ∧ ys = ys' := by
  rcases List.append_eq_append_iff.1 h with ⟨mid, rfl, hmid⟩ | ⟨mid, rfl, hmid⟩
  · obtain rfl := eq_nil_of_cut hmid hys fun y hy => hxs' y (List.mem_append_right _ hy)
    obtain ⟨rfl, rfl⟩ := List.cons.inj hmid
    exact ⟨(List.append_nil xs).symm, rfl, rfl⟩
  · obtain rfl := eq_nil_of_cut hmid hys' fun y hy => hxs y (List.mem_append_right _ hy)
    obtain ⟨rfl, rfl⟩ := List.cons.inj hmid
    exact ⟨List.append_nil xs', rfl, rfl⟩

/-- The operands and operators of a grouped tree determine it up to spans. -/
theorem Expr.Grouped.erase_eq {e e' : Expr} (he : e.Grouped) (he' : e'.Grouped)
    (h : e.inOrder = e'.inOrder) : e.erase = e'.erase := by
  fun_induction inOrder e generalizing e' with
  | case1 op left right span ihleft ihright =>
    cases e' with
    | binary op' left' right' span' =>
      obtain ⟨hl, hr, hleft, hright⟩ := he
      obtain ⟨hl', hr', hleft', hright'⟩ := he'
      obtain ⟨hfirst, hrest⟩ := Prod.mk.inj h
      -- both trees have their root where the row is cut
      obtain ⟨hbefore, hnext, hafter⟩ := cut_unique hrest (hleft.le_level hl)
        (hright.le_level hr) (hleft'.le_level hl') (hright'.le_level hr')
      obtain ⟨rfl, hhead⟩ := Prod.mk.inj hnext
      rw [erase_binary, erase_binary, ihleft hleft hleft' (Prod.ext hfirst hbefore),
        ihright hright hright' (Prod.ext hhead hafter)]
    | _ => simp [inOrder] at h
  | case2 e hleaf =>
    have hnone : e'.operator? = none := operator?_of_inOrder (by rw [← h])
    rw [inOrder_of_operator? hnone] at h
    exact (Prod.mk.inj h).1

/-! ## Building the tree -/

namespace Grammar

/-- The tokens write an operation of the level, or an operand, without brackets around operations. -/
inductive Climbs : Nat → List (Located Token) → Expr → Prop
  | operand {k ts e} : Operand false ts e → e.operator? = none → Climbs k ts e
  | binary {k op left right ls rs ts a} : k ≤ rank op → Climbs (rank op) ls left →
    Climbs (rank op + 1) rs right → ts = ls ++ ⟨op.token, a⟩ :: rs →
    Climbs k ts (.binary op left right (extent ts))

namespace Climbs

variable {k : Nat} {op : BinaryOp} {ts us : List (Located Token)} {e u : Expr} {a : Span}

theorem expression (h : Climbs k ts e) : Expression false k ts e := by
  induction h with
  | operand h _ => exact .operand h
  | binary hk _ _ hts ihleft ihright => exact .binary hk ihleft ihright hts

theorem le_level_of_operator? (h : Climbs k ts e) : ∀ op, e.operator? = some op → k ≤ op.level := by
  intro op hop
  cases h with
  | operand _ hnone =>
    rw [hnone] at hop
    cases hop
  | binary hk =>
    obtain rfl := Option.some.inj hop
    rwa [level_eq_rank]

theorem grouped (h : Climbs k ts e) : e.Grouped := by
  induction h with
  | @operand k ts e _ hnone =>
    cases e with
    | binary => cases hnone
    | _ => trivial
  | @binary k op left right ls rs ts a _ hleft hright _ ihleft ihright =>
    rw [← level_eq_rank] at hleft hright
    exact ⟨hleft.le_level_of_operator?, hright.le_level_of_operator?, ihleft, ihright⟩

/-- Behind an operation, an operator of its level or a tighter one and an operand belong to it: to
its right side if they bind more tightly than it does, and otherwise they take all of it as their
left side. -/
theorem extend (h : Climbs k ts e) (hk : k ≤ rank op) (hu : Operand false us u)
    (hnone : u.operator? = none) :
    ∃ e', Climbs k (ts ++ ⟨op.token, a⟩ :: us) e' ∧
      e'.inOrder = (e.inOrder.1, e.inOrder.2 ++ [(op, u.erase)]) := by
  have hright : Climbs (rank op + 1) us u := .operand hu hnone
  have hend := Expr.inOrder_of_operator? hnone
  induction h with
  | @operand k ts e he hnone' =>
    refine ⟨_, .binary hk (.operand he hnone') hright rfl, ?_⟩
    rw [Expr.inOrder, hend]
  | @binary k op' left right ls rs ts b hk' hl hr hts _ ih =>
    by_cases hop : rank op ≤ rank op'
    · -- also at the same level: operators of one level are taken from left to right
      refine ⟨_, .binary hk (.binary hop hl hr hts) hright rfl, ?_⟩
      rw [Expr.inOrder, hend]
    · -- the operator goes down the right side, to where it is no tighter than what it meets
      obtain ⟨right', hr', horder⟩ := ih (by omega)
      refine ⟨_, .binary (a := b) hk' hl hr' ?_, ?_⟩
      · rw [hts, List.append_assoc, List.cons_append]
      · rw [Expr.inOrder, horder, Expr.inOrder]
        simp

end Climbs

end Grammar

open Grammar (Operand Climbs rank level_eq_rank)

/-- The tokens of an operand of a chain write its tree. -/
theorem Signed.exists_operand {u : Signed} {ts : List (Located Token)} (h : Writes ts u.tokens) :
    ∃ e, Operand false ts e ∧ e.operator? = none ∧ e.erase = u.tree := by
  obtain ⟨signs, atom⟩ := u
  induction signs generalizing ts with
  | nil =>
    obtain ⟨a, rfl⟩ := Writes.single h
    cases atom with
    | name w => exact ⟨_, .name, rfl, rfl⟩
    | number v => exact ⟨_, .number, rfl, rfl⟩
  | cons sign signs ih =>
    obtain ⟨a, ts, rfl, hts⟩ := Writes.uncons h
    obtain ⟨e, he, -, herase⟩ := ih hts
    refine ⟨_, .signed (Sign.ofToken?_token sign) he rfl, rfl, ?_⟩
    rw [Expr.erase_signed, herase]
    rfl

/-- Operators and operands behind an operation belong to one operation with it. -/
theorem Chain.exists_climbs_behind {ts us : List (Located Token)} {e : Expr} (h : Climbs 1 ts e)
    {rest : List (BinaryOp × Signed)}
    (hus : Writes us (rest.flatMap fun next => next.1.token :: next.2.tokens)) :
    ∃ e', Climbs 1 (ts ++ us) e' ∧
      e'.inOrder = (e.inOrder.1, e.inOrder.2 ++ rest.map fun next => (next.1, next.2.tree)) := by
  induction rest generalizing ts us e with
  | nil =>
    obtain rfl := List.map_eq_nil_iff.1 hus
    exact ⟨e, by rwa [List.append_nil], by simp⟩
  | cons next rest ih =>
    obtain ⟨op, u⟩ := next
    obtain ⟨_, vs, rfl, hnext, hvs⟩ := Writes.unappend hus
    obtain ⟨a, operands, rfl, hoperands⟩ := Writes.uncons hnext
    obtain ⟨operand, hoperand, hnone, herase⟩ := Signed.exists_operand hoperands
    have hlevel : 1 ≤ rank op := level_eq_rank op ▸ op.one_le_level
    obtain ⟨left, hleft, horder⟩ := h.extend hlevel hoperand hnone
    obtain ⟨e', he', horder'⟩ := ih hleft hvs
    refine ⟨e', by simpa using he', ?_⟩
    rw [horder', horder, herase]
    simp

/-- The tokens of a chain write a tree with the operands and operators of the chain. -/
theorem Chain.exists_climbs {c : Chain} {ts : List (Located Token)} (h : Writes ts c.tokens) :
    ∃ e, Climbs 1 ts e ∧ e.inOrder = c.trees := by
  obtain ⟨us, vs, rfl, hus, hvs⟩ := Writes.unappend h
  obtain ⟨first, hfirst, hnone, herase⟩ := Signed.exists_operand hus
  obtain ⟨e, he, horder⟩ := Chain.exists_climbs_behind (.operand hfirst hnone) hvs
  refine ⟨e, he, ?_⟩
  rw [horder, Expr.inOrder_of_operator? hnone, herase]
  rfl

/-! ## Reading a chain -/

theorem Chain.ne_endOfFile {c : Chain} {token : Token} (h : token ∈ c.tokens) :
    token ≠ .endOfFile := by
  have hsigned : ∀ {u : Signed}, token ∈ u.tokens → token ≠ .endOfFile := by
    rintro ⟨signs, atom⟩ hmem rfl
    rcases List.mem_append.1 hmem with hmem | hmem
    · obtain ⟨sign, -, hsign⟩ := List.mem_map.1 hmem
      cases sign <;> cases hsign
    · cases atom <;> simp [Atom.token] at hmem
  rcases List.mem_append.1 h with hmem | hmem
  · exact hsigned hmem
  · obtain ⟨⟨op, u⟩, -, hmem⟩ := List.mem_flatMap.1 hmem
    rcases List.mem_cons.1 hmem with rfl | hmem
    · cases op <;> simp [BinaryOp.token]
    · exact hsigned hmem

/-- A source that is a chain is read as an expression, and the expression is the one tree that has
the operands and operators of the chain in their order and is grouped by their levels. Each sign is
in the operand that it stands in front of. -/
theorem standalone_chain (c : Chain) {stream : Stream} {ts : List (Located Token)}
    (hitems : stream.items = ts.map Except.ok) (hchain : ts.map Located.value = c.tokens) :
    ∃ s e, ParseState.start stream = .ok s ∧ Parse.standalone.run s = .ok e ∧
      e.inOrder = c.trees ∧ e.Grouped ∧
      ∀ e' : Expr, e'.inOrder = c.trees → e'.Grouped → e'.erase = e.erase := by
  obtain ⟨e, hclimbs, horder⟩ := Chain.exists_climbs hchain
  have hne : ∀ token ∈ ts, token.value ≠ .endOfFile := fun token htoken =>
    Chain.ne_endOfFile (hchain ▸ List.mem_map_of_mem htoken)
  obtain ⟨first, rest, rfl⟩ := List.exists_cons_of_ne_nil hclimbs.expression.span_eq.1
  let s : ParseState := ⟨first, { stream with items := rest.map Except.ok }, 0⟩
  have hstart : ParseState.start stream = .ok s := by
    simp only [ParseState.start, Stream.next, hitems, List.map_cons]
    rfl
  obtain ⟨t, hpasses, hend⟩ := exists_passes (s := s) (hne first (List.mem_cons_self ..))
    (fun token htoken => hne token (List.mem_cons_of_mem _ htoken)) rfl
  have hread : Parse.standalone s = .done e t :=
    Grammar.Derives.read ⟨false, hclimbs.expression⟩ hpasses hend
  refine ⟨s, e, hstart, by rw [Parse.run, hread], horder, hclimbs.grouped, fun e' horder' he' => ?_⟩
  exact he'.erase_eq hclimbs.grouped (horder'.trans horder.symm)

/-- Two levels that meet twice, and signs behind an operator and in front of another. -/
theorem standalone_chain_levels : ∃ (source : String) (ts : List (Located Token)) (c : Chain)
    (s : ParseState) (e tree : Expr), source = "a - -+b * 1 - c or d" ∧
    (Stream.ofText source).items = ts.map Except.ok ∧ ts.map Located.value = c.tokens ∧
    ParseState.start (Stream.ofText source) = .ok s ∧ Parse.standalone.run s = .ok e ∧
    e.inOrder = c.trees ∧ e.Grouped ∧
    (∀ e' : Expr, e'.inOrder = c.trees → e'.Grouped → e'.erase = e.erase) ∧
    tree = .binary .or
      (.binary .sub
        (.binary .sub (.name "a" default)
          (.binary .mul (.signed .minus (.signed .plus (.name "b" default) default) default)
            (.number .one default) default) default)
        (.name "c" default) default)
      (.name "d" default) default ∧
    tree.erase = e.erase := by
  let ts : List (Located Token) := [
    word "a" ⟨0, 1⟩, sym .minus ⟨2, 3⟩, sym .minus ⟨4, 5⟩, sym .plus ⟨5, 6⟩, word "b" ⟨6, 7⟩,
    sym .star ⟨8, 9⟩, ⟨.number .one, ⟨10, 11⟩⟩, sym .minus ⟨12, 13⟩, word "c" ⟨14, 15⟩,
    kw .or ⟨16, 18⟩, word "d" ⟨19, 20⟩]
  let c : Chain := ⟨⟨[], .name "a"⟩, [(.sub, ⟨[.minus, .plus], .name "b"⟩),
    (.mul, ⟨[], .number .one⟩), (.sub, ⟨[], .name "c"⟩), (.or, ⟨[], .name "d"⟩)]⟩
  have hitems : (Stream.ofText "a - -+b * 1 - c or d").items = ts.map Except.ok := rfl
  obtain ⟨s, e, hstart, hrun, horder, hgrouped, hunique⟩ := standalone_chain c hitems rfl
  refine ⟨_, ts, c, s, e, _, rfl, hitems, rfl, hstart, hrun, horder, hgrouped, hunique, rfl, ?_⟩
  refine hunique _ rfl ?_
  simp [Expr.Grouped, Expr.operator?, BinaryOp.level]

end Resin
