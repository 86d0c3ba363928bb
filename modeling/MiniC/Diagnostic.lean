import MiniC.Fault

/-!
# Diagnostics

What a user is told: the class of the problem, the line or file it belongs to, and a message.
-/

namespace MiniC

/-- The stage whose rules a source breaks. -/
inductive Stage where
  | lexical
  | grammar
  | semantic
  | resource
  deriving DecidableEq

/-- A problem as it is reported. -/
inductive Diagnostic where
  /-- A problem on a line of the source. -/
  | located (stage : Stage) (line : Nat) (message : String)
  /-- A tree or a symbol table that cannot be lowered; it belongs to no line. -/
  | internal (message : String)
  /-- A file that cannot be read or written. -/
  | file (path message : String)
  deriving DecidableEq

namespace Diagnostic

def line? : Diagnostic → Option Nat
  | located _ line _ => some line
  | internal _ => none
  | file _ _ => none

/-- The line of text that reports the problem. -/
def text : Diagnostic → String
  | located _ line message => s!"[line {line}] {message}"
  | internal message => s!"internal compiler error: {message}"
  | file path message => s!"{path}: {message}"

end Diagnostic

/-- The report of a fault. -/
def Fault.diagnostic (fault : Fault) : Diagnostic :=
  match fault with
  | lexical line _ => .located .lexical line fault.message
  | grammar line _ => .located .grammar line fault.message
  | semantic line _ => .located .semantic line fault.message
  | outOfRegisters line => .located .resource line fault.message
  | internal _ => .internal fault.message

theorem Fault.line?_diagnostic (fault : Fault) : fault.diagnostic.line? = fault.line? := by cases fault <;> rfl

end MiniC
