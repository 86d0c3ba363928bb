import MiniC.Lower.Code

/-!
# Listings of programs

The items of a program in order, then its string literals, then a closing note.
-/

namespace MiniC

namespace Lower

/-- The bytes of a string literal under its label, closed by a zero. -/
def stringData (label : Nat) (bytes : List UInt8) : LowerM Unit := do
  MiniC.Lower.label label
  (bytes ++ [0]).forM fun byte => directive (.byte byte)

/-- The string literals of a program, if there are any. -/
def strings : LowerM Unit := do
  let strings := (← get).strings.toList
  if !strings.isEmpty then
    directive .rodata
    strings.forM fun (label, bytes) => stringData label bytes

def program (program : Program) : LowerM Unit := do
  stmtList program
  strings
  directive .stackNote

end Lower

/-- The listing of a program whose symbols are in the context. -/
def generate (program : Program) : CompileM Listing := fun context =>
  match Lower.program program { context } with
  | .ok _ state => .ok state.lines state.context
  | .error fault state => .error fault state.context

end MiniC
