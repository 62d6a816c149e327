import Resin.Tree.Stmt

/-!
# Equality of trees

Whether two trees are equal, spans included, can be decided. `Expr.same` and `Stmt.same` compare
them node by node.
-/

namespace Resin

namespace Expr

mutual

/-- Whether two expressions are equal. -/
def same : Expr → Expr → Bool
  | .number v s, .number w t => v == w && s == t
  | .text c q s, .text d r t => c == d && q == r && s == t
  | .bool v s, .bool w t => v == w && s == t
  | .null s, .null t => s == t
  | .undefined s, .undefined t => s == t
  | .input s, .input t => s == t
  | .name n s, .name m t => n == m && s == t
  | .index a i s, .index b j t => same a b && same i j && s == t
  | .call f xs s, .call g ys t => f == g && sameList xs ys && s == t
  | .array xs s, .array ys t => sameList xs ys && s == t
  | .lambda ps a s, .lambda qs b t => ps == qs && same a b && s == t
  | .method u x m xs s, .method v y n ys t =>
    u == v && x == y && m == n && sameList xs ys && s == t
  | .binary o a b s, .binary p c d t => o == p && same a c && same b d && s == t
  | .signed o a s, .signed p b t => o == p && same a b && s == t
  | _, _ => false

/-- Whether two lists of expressions are equal. -/
def sameList : List Expr → List Expr → Bool
  | [], [] => true
  | x :: xs, y :: ys => same x y && sameList xs ys
  | _, _ => false

end

mutual

theorem same_iff : ∀ a b : Expr, same a b = true ↔ a = b
  | .number v s, b => by cases b <;> simp [same]
  | .text c q s, b => by cases b <;> simp [same, and_assoc]
  | .bool v s, b => by cases b <;> simp [same]
  | .null s, b => by cases b <;> simp [same]
  | .undefined s, b => by cases b <;> simp [same]
  | .input s, b => by cases b <;> simp [same]
  | .name n s, b => by cases b <;> simp [same]
  | .index a i s, b => by cases b <;> simp [same, same_iff a, same_iff i, and_assoc]
  | .call f xs s, b => by cases b <;> simp [same, sameList_iff xs, and_assoc]
  | .array xs s, b => by cases b <;> simp [same, sameList_iff xs]
  | .lambda ps a s, b => by cases b <;> simp [same, same_iff a, and_assoc]
  | .method u x m xs s, b => by cases b <;> simp [same, sameList_iff xs, and_assoc]
  | .binary o a c s, b => by cases b <;> simp [same, same_iff a, same_iff c, and_assoc]
  | .signed o a s, b => by cases b <;> simp [same, same_iff a, and_assoc]

theorem sameList_iff : ∀ xs ys : List Expr, sameList xs ys = true ↔ xs = ys
  | [], ys => by cases ys <;> simp [sameList]
  | x :: xs, ys => by cases ys <;> simp [sameList, same_iff x, sameList_iff xs]

end

instance : DecidableEq Expr := fun a b => decidable_of_iff _ (same_iff a b)

end Expr

deriving instance DecidableEq for Declaration
deriving instance DecidableEq for Mutation
deriving instance DecidableEq for LoopStart

namespace Stmt

mutual

/-- Whether two statements are equal. -/
def same : Stmt → Stmt → Bool
  | .declare d s, .declare e t => d == e && s == t
  | .store a s, .store b t => a == b && s == t
  | .update m s, .update n t => m == n && s == t
  | .check c xs o s, .check d ys p t =>
    c == d && sameList xs ys && sameOtherwise o p && s == t
  | .repeatRange x a b c xs s, .repeatRange y d e f ys t =>
    x == y && a == d && b == e && c == f && sameList xs ys && s == t
  | .repeatEach x c xs s, .repeatEach y d ys t => x == y && c == d && sameList xs ys && s == t
  | .repeatUntil c xs s, .repeatUntil d ys t => c == d && sameList xs ys && s == t
  | .forLoop a c i xs s, .forLoop b d j ys t =>
    a == b && c == d && i == j && sameList xs ys && s == t
  | .function f ps r xs s, .function g qs q ys t =>
    f == g && ps == qs && r == q && sameList xs ys && s == t
  | .give a s, .give b t => a == b && s == t
  | .display a s, .display b t => a == b && s == t
  | .error a s, .error b t => a == b && s == t
  | .panic a s, .panic b t => a == b && s == t
  | .skip s, .skip t => s == t
  | .halt s, .halt t => s == t
  | .raw c s, .raw d t => c == d && s == t
  | .expr a s, .expr b t => a == b && s == t
  | _, _ => false

/-- Whether two blocks are equal. -/
def sameList : List Stmt → List Stmt → Bool
  | [], [] => true
  | x :: xs, y :: ys => same x y && sameList xs ys
  | _, _ => false

/-- Whether the rests of two checks are equal. -/
def sameOtherwise : Otherwise → Otherwise → Bool
  | .nothing, .nothing => true
  | .check c xs o, .check d ys p => c == d && sameList xs ys && sameOtherwise o p
  | .block xs, .block ys => sameList xs ys
  | _, _ => false

end

mutual

theorem same_iff : ∀ a b : Stmt, same a b = true ↔ a = b
  | .declare d s, b => by cases b <;> simp [same]
  | .store a s, b => by cases b <;> simp [same]
  | .update m s, b => by cases b <;> simp [same]
  | .check c xs o s, b => by
    cases b <;> simp [same, sameList_iff xs, sameOtherwise_iff o, and_assoc]
  | .repeatRange x a b c xs s, e => by cases e <;> simp [same, sameList_iff xs, and_assoc]
  | .repeatEach x c xs s, b => by cases b <;> simp [same, sameList_iff xs, and_assoc]
  | .repeatUntil c xs s, b => by cases b <;> simp [same, sameList_iff xs, and_assoc]
  | .forLoop a c i xs s, b => by cases b <;> simp [same, sameList_iff xs, and_assoc]
  | .function f ps r xs s, b => by cases b <;> simp [same, sameList_iff xs, and_assoc]
  | .give a s, b => by cases b <;> simp [same]
  | .display a s, b => by cases b <;> simp [same]
  | .error a s, b => by cases b <;> simp [same]
  | .panic a s, b => by cases b <;> simp [same]
  | .skip s, b => by cases b <;> simp [same]
  | .halt s, b => by cases b <;> simp [same]
  | .raw c s, b => by cases b <;> simp [same]
  | .expr a s, b => by cases b <;> simp [same]

theorem sameList_iff : ∀ xs ys : List Stmt, sameList xs ys = true ↔ xs = ys
  | [], ys => by cases ys <;> simp [sameList]
  | x :: xs, ys => by cases ys <;> simp [sameList, same_iff x, sameList_iff xs]

theorem sameOtherwise_iff : ∀ o p : Otherwise, sameOtherwise o p = true ↔ o = p
  | .nothing, p => by cases p <;> simp [sameOtherwise]
  | .check c xs o, p => by
    cases p <;> simp [sameOtherwise, sameList_iff xs, sameOtherwise_iff o, and_assoc]
  | .block xs, p => by cases p <;> simp [sameOtherwise, sameList_iff xs]

end

instance : DecidableEq Stmt := fun a b => decidable_of_iff _ (same_iff a b)

end Stmt

end Resin
