import MiniC.Ty
import MiniC.Operator

/-!
# Implicit conversions

Which value types may stand where another is wanted. Integers widen and never narrow; an integer added to or subtracted
from a pointer is scaled by the size of what the pointer points to.
-/

namespace MiniC

/-- What happens to a value that is converted. -/
inductive Change where
  /-- A narrower integer is used at a wider type. -/
  | widen
  /-- An offset is multiplied by the size of a pointee. -/
  | scale (factor : Int)
  deriving DecidableEq

inductive Conversion where
  | identical
  | change (change : Change)
  | incompatible
  deriving DecidableEq

/-- How a value of type `source` becomes one of type `target` as an operand of `op`. -/
def Ty.conversion (source target : Ty) (op : Option BinaryOp) : Conversion :=
  if source = target then .identical
  else if source.isInteger && target.isInteger then
    if source.size < target.size then .change .widen else .incompatible
  else if source.isInteger && target.isPointer && op.any (·.isAdditive) then
    match target.pointeeSize with
    | 0 => .incompatible
    | 1 => .change .widen
    | size => .change (.scale size)
  else .incompatible

@[simp] theorem Ty.conversion_self (ty : Ty) (op : Option BinaryOp) : ty.conversion ty op = .identical := by
  simp [Ty.conversion]

end MiniC
