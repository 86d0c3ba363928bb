import MiniC.SymbolTable

/-!
# Stack frames

Every parameter and local of a function gets a slot below the frame pointer, in the order of declaration. A scalar takes
four or eight bytes; an array takes its storage, rounded up to eight.
-/

namespace MiniC.Frame

/-- The next multiple of `align`, by a division that cuts towards zero. -/
def roundUp (value align : Int) : Int := (value + align - 1).tdiv align * align

/-- Bytes of the slot of a symbol. -/
def slotWidth (s : Symbol) : Int :=
  if s.isArray then roundUp s.storage 8 else if 4 < s.ty.size then 8 else 4

def slotAlign (s : Symbol) : Int := if s.isArray ∨ 4 < s.ty.size then 8 else 4

/-- Place symbols below the `offset` bytes that are taken; gives how many bytes are taken then. -/
def place (offset : Int) : List Symbol → List Symbol × Int
  | [] => ([], offset)
  | s :: symbols =>
    let next := roundUp (offset + slotWidth s) (slotAlign s)
    let (placed, last) := place next symbols
    ({ s with position := some (-next) } :: placed, last)

/-- Lay the frame of `function` out; gives its size, a multiple of sixteen. -/
def layout (table : SymbolTable) (function : String) : SymbolTable × Int :=
  match table.namespace? function with
  | none => (table, 0)
  | some symbols =>
    let (placed, last) := place 0 symbols
    (table.setNamespace function placed, roundUp last 16)

end MiniC.Frame
