import Resin.Text.Bytes

/-!
# Positions in a source

Spans are half-open ranges of byte offsets into the UTF-8 form of a source.
-/

namespace Resin

/-- A range of bytes, from `start` up to and without `stop`. -/
structure Span where
  start : Nat
  stop : Nat
deriving DecidableEq, Repr, Inhabited

namespace Span

/-- The empty span at an offset. -/
def point (offset : Nat) : Span := ⟨offset, offset⟩

/-- The span moved `offset` bytes to the right. -/
def shift (offset : Nat) (span : Span) : Span :=
  ⟨span.start + offset, span.stop + offset⟩

@[simp] theorem shift_zero (span : Span) : span.shift 0 = span := rfl

@[simp] theorem shift_shift (m n : Nat) (span : Span) :
    (span.shift m).shift n = span.shift (m + n) := by
  simp [shift, Nat.add_assoc]

end Span

/-- A value and the place where it is written. -/
structure Located (α : Type) where
  value : α
  span : Span
deriving DecidableEq, Repr, Inhabited

/-- The same place with another value. -/
def Located.map {α β : Type} (f : α → β) (x : Located α) : Located β :=
  ⟨f x.value, x.span⟩

end Resin
