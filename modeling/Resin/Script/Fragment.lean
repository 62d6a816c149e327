/-!
# Fragments of a script

A fragment is a piece of script text together with the preambles that it relies on. Fragments are
put together like texts, and what they rely on adds up.
-/

namespace Resin

/-- The preambles that a script relies on: the bookkeeping of declared types, and the reading of
input lines. -/
structure Features where
  types : Bool
  input : Bool
deriving DecidableEq, Repr, Inhabited

namespace Features

/-- No preamble. -/
def none : Features := ⟨false, false⟩

/-- The preambles of two pieces of a script. -/
def union (a b : Features) : Features :=
  ⟨a.types || b.types, a.input || b.input⟩

@[simp] theorem none_union (a : Features) : none.union a = a := by
  cases a; rfl

@[simp] theorem union_none (a : Features) : a.union none = a := by
  simp [union, none]

theorem union_assoc (a b c : Features) : (a.union b).union c = a.union (b.union c) := by
  simp [union, Bool.or_assoc]

end Features

/-- A piece of script text and the preambles it relies on. -/
structure Fragment where
  code : String
  features : Features
deriving DecidableEq, Repr, Inhabited

namespace Fragment

/-- Text that relies on no preamble. -/
def text (code : String) : Fragment := ⟨code, .none⟩

/-- Text that relies on the bookkeeping of declared types. -/
def typed (code : String) : Fragment := ⟨code, ⟨true, false⟩⟩

/-- Text that relies on the reading of input lines. -/
def reading (code : String) : Fragment := ⟨code, ⟨false, true⟩⟩

instance : Coe String Fragment := ⟨text⟩

instance : Append Fragment where
  append a b := ⟨a.code ++ b.code, a.features.union b.features⟩

@[simp] theorem code_append (a b : Fragment) : (a ++ b).code = a.code ++ b.code := rfl

@[simp] theorem features_append (a b : Fragment) :
    (a ++ b).features = a.features.union b.features := rfl

theorem append_assoc (f g h : Fragment) : f ++ g ++ h = f ++ (g ++ h) := by
  show Fragment.mk _ _ = Fragment.mk _ _
  rw [code_append, code_append, features_append, features_append, String.append_assoc,
    Features.union_assoc]

theorem append_empty (f : Fragment) : f ++ text "" = f := by
  show Fragment.mk (f.code ++ "") (f.features.union .none) = f
  rw [String.append_empty, Features.union_none]

theorem text_append (a b : String) : text (a ++ b) = text a ++ text b := rfl

theorem typed_append (a b : String) : typed (a ++ b) = typed a ++ text b := rfl

/-- The features of a list of fragments. -/
def allFeatures (fragments : List Fragment) : Features :=
  fragments.foldr (fun f rest => f.features.union rest) .none

/-- Fragments with a text between them. -/
def join (separator : String) (fragments : List Fragment) : Fragment :=
  ⟨separator.intercalate (fragments.map code), allFeatures fragments⟩

theorem join_singleton (separator : String) (f : Fragment) : join separator [f] = f := by
  show Fragment.mk (separator.intercalate [f.code]) (f.features.union .none) = f
  rw [String.intercalate_singleton, Features.union_none]

theorem join_cons_cons (separator : String) (f g : Fragment) (fs : List Fragment) :
    join separator (f :: g :: fs) = f ++ text separator ++ join separator (g :: fs) := by
  show Fragment.mk (separator.intercalate (f.code :: g.code :: fs.map code)) _ = Fragment.mk _ _
  rw [String.intercalate_cons_cons, features_append,
    show (text separator).features = .none from rfl, Features.union_none]
  rfl

/-- Without a separator, a first fragment stands directly in front of the others. -/
theorem join_empty_cons (f : Fragment) (fs : List Fragment) :
    join "" (f :: fs) = f ++ join "" fs := by
  cases fs with
  | nil =>
    rw [join_singleton]
    exact (append_empty f).symm
  | cons g fs => rw [join_cons_cons, append_empty]

end Fragment

end Resin
