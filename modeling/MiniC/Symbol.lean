import MiniC.Ty

/-!
# Symbols

What a declared name stands for: a variable, an array or a function, in the global scope or in that of a function.
-/

namespace MiniC

inductive Scope where
  | global
  | local
  | parameter
  deriving DecidableEq

inductive SymbolKind where
  | variable
  | function
  | array
  deriving DecidableEq

structure Symbol where
  name : String
  scope : Scope
  kind : SymbolKind
  /-- The type of a variable, the type an array decays to, or the type a function returns. -/
  ty : Ty
  /-- The label of a function's epilogue. -/
  label : Option Nat := none
  /-- The number of elements of an array, `1` for anything else. -/
  count : Int := 1
  /-- The offset from the frame pointer, once the frame has been laid out. -/
  position : Option Int := none
  /-- Whether a function has been given a body. -/
  defined : Bool := false
  deriving DecidableEq

namespace Scope

def name : Scope → String
  | .global => "Global"
  | .local => "Local"
  | .parameter => "Parameter"

end Scope

namespace Symbol

/-- Bytes of storage that the symbol takes. -/
def storage (s : Symbol) : Int :=
  match s.kind with
  | .array => s.ty.pointeeSize * s.count
  | _ => s.ty.size

def isArray (s : Symbol) : Bool := s.kind == .array

end Symbol

end MiniC
