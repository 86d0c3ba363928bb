import MiniC.SymbolTable

/-!
# Compilation contexts

What the stages of a run share: the symbol table and the label counter. A label is drawn once and never again, so
labels of different stages cannot collide.
-/

namespace MiniC

structure Context where
  symbols : SymbolTable := {}
  nextLabel : Nat := 0

namespace Context

/-- A label that no one has, and the context in which it is taken. -/
def drawLabel (context : Context) : Nat × Context :=
  (context.nextLabel, { context with nextLabel := context.nextLabel + 1 })

end Context

/-- Work on a context that can fail; a fault leaves the context as it was when the fault was met. -/
abbrev CompileM := EStateM Fault Context

namespace CompileM

/-- Draw a fresh label. -/
def drawLabel : CompileM Nat := modifyGet Context.drawLabel

/-- Go on with what a rule allows, or fail on `line`. -/
def require {α : Type} (line : Nat) : Except SemanticFault α → CompileM α
  | .ok a => pure a
  | .error cause => throw (.semantic line cause)

/-- Change the symbol table as a declaration on `line` asks. -/
def declare (line : Nat) (change : SymbolTable → Except SemanticFault SymbolTable) : CompileM Unit := do
  let symbols ← require line (change (← get).symbols)
  modify fun context => { context with symbols }

end CompileM

end MiniC
