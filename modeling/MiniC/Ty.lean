/-!
# Value types

Four base types and one level of pointer to each. There is no pointer to a pointer, so `Ty.pointerTo` and `Ty.valueAt`
are partial; each undoes the other where it is defined (`valueAt_pointerTo`, `pointerTo_valueAt`).
-/

namespace MiniC

/-- The types that are not pointers. -/
inductive Base where
  | void
  | char
  | int
  | long
  deriving DecidableEq

/-- A value type: a base type, or a pointer to one. -/
inductive Ty where
  | plain (base : Base)
  | pointer (base : Base)
  deriving DecidableEq

namespace Base

/-- Bytes of a value. -/
def size : Base → Nat
  | void => 0
  | char => 1
  | int => 4
  | long => 8

/-- The type's spelling in source text. -/
def name : Base → String
  | void => "void"
  | char => "char"
  | int => "int"
  | long => "long"

end Base

namespace Ty

/-- The type without values. -/
@[match_pattern] abbrev void : Ty := plain .void

@[match_pattern] abbrev char : Ty := plain .char

@[match_pattern] abbrev int : Ty := plain .int

@[match_pattern] abbrev long : Ty := plain .long

/-- Bytes of a value; every pointer takes eight. -/
def size : Ty → Nat
  | plain base => base.size
  | pointer _ => 8

def isInteger : Ty → Bool
  | plain .void => false
  | plain _ => true
  | pointer _ => false

def isPointer : Ty → Bool
  | plain _ => false
  | pointer _ => true

/-- Whether a value of the type can be tested against zero. -/
def hasTruth (ty : Ty) : Bool := ty.isInteger || ty.isPointer

/-- The type of a pointer to a value of this type. -/
def pointerTo : Ty → Option Ty
  | plain base => some (pointer base)
  | pointer _ => none

/-- The type that a pointer of this type points to. -/
def valueAt : Ty → Option Ty
  | plain _ => none
  | pointer base => some (plain base)

/-- Bytes of the value pointed to, `0` for a type that is no pointer. -/
def pointeeSize (ty : Ty) : Nat := (ty.valueAt.map size).getD 0

/-- The type that a dereference or an index yields; `void` cannot be read. -/
def element? (ty : Ty) : Option Ty := ty.valueAt.filter (· ≠ void)

/-- The type as diagnostics write it. -/
def name : Ty → String
  | plain base => base.name
  | pointer base => base.name ++ "*"

theorem valueAt_pointerTo {ty ptr : Ty} (h : ty.pointerTo = some ptr) : ptr.valueAt = some ty := by
  cases ty <;> simp_all [pointerTo, valueAt]
  subst h; rfl

theorem pointerTo_valueAt {ty val : Ty} (h : ty.valueAt = some val) : val.pointerTo = some ty := by
  cases ty <;> simp_all [pointerTo, valueAt]
  subst h; rfl

/-- Only `void` has neither an integer nor a pointer value. -/
theorem hasTruth_eq_false_iff {ty : Ty} : ty.hasTruth = false ↔ ty = void := by
  rcases ty with (_ | _ | _ | _) | _ <;> simp [hasTruth, isInteger, isPointer]

end Ty

end MiniC
