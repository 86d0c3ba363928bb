import MiniC.Assembly.Listing
import MiniC.Context
import MiniC.Frame
import MiniC.RegisterPool
import MiniC.Tree

/-!
# The state of lowering

Lowering appends lines to a listing. Beside the context it knows the register pool, the segment that the last line
belongs to, the function whose body is being lowered, the values pushed below its frame, and the string literals met so
far.
-/

namespace MiniC

/-- Where code and global variables go. -/
inductive Segment where
  | text
  | data
  deriving DecidableEq

def Segment.directive : Segment → Directive
  | text => .text
  | data => .data

namespace Lower

structure State where
  context : Context
  pool : RegisterPool := {}
  segment : Option Segment := none
  /-- The function whose body is being lowered. -/
  function : Option String := none
  /-- The values pushed below the frame. -/
  pushed : Nat := 0
  /-- The labels and bytes of string literals, which follow all code. -/
  strings : Array (Nat × List UInt8) := #[]
  lines : Listing := #[]

end Lower

/-- Work that appends lines; a fault keeps the state in which it was met. -/
abbrev LowerM := EStateM Fault Lower.State

namespace Lower

/-! ## Lines -/

def append (line : Line) : LowerM Unit := modify fun s => { s with lines := s.lines.push line }

def emit (i : Instr) : LowerM Unit := append (.instr i)

def directive (d : Directive) : LowerM Unit := append (.directive d)

def label (n : Nat) : LowerM Unit := append (.label n)

/-- Switch to a segment, unless the last line belongs to it. -/
def enter (segment : Segment) : LowerM Unit := do
  if (← get).segment ≠ some segment then
    directive segment.directive
    modify fun s => { s with segment := some segment }

/-! ## Faults and the context -/

def semantic {α : Type} (line : Nat) (cause : SemanticFault) : LowerM α := throw (.semantic line cause)

def internal {α : Type} (cause : InternalFault) : LowerM α := throw (.internal cause)

def drawLabel : LowerM Nat :=
  modifyGet fun s =>
    let (label, context) := s.context.drawLabel
    (label, { s with context })

/-- The value that an expression on `line` must have. -/
def value (line : Nat) (code : LowerM (Option Scratch)) : LowerM Scratch := do
  match ← code with
  | some r => return r
  | none => semantic line .noValue

/-! ## Registers and the stack -/

/-- Take the lowest free register for an expression on `line`. -/
def alloc (line : Nat) : LowerM Scratch := do
  match (← get).pool.alloc line with
  | .ok (r, pool) =>
    modify fun s => { s with pool }
    return r
  | .error fault => throw fault

/-- Give a register back; it must hold a value. -/
def free (r : Scratch) : LowerM Unit := do
  if (← get).pool.isLive r then modify fun s => { s with pool := s.pool.free r }
  else internal (.doubleFree (r.reg.name .quad))

/-- Give all registers back. -/
def freeAll : LowerM Unit := modify fun s => { s with pool := {} }

def push (r : Reg) : LowerM Unit := do
  emit (.push r)
  modify fun s => { s with pushed := s.pushed + 1 }

/-- Pop a value; one must have been pushed. -/
def pop (r : Reg) : LowerM Unit := do
  emit (.pop r)
  match (← get).pushed with
  | 0 => internal .nothingPushed
  | pushed + 1 => modify fun s => { s with pushed }

/-! ## Variables -/

/-- The symbol that a name of the given scope stands for here. -/
def symbol? (s : State) (name : String) : Scope → Option Symbol
  | .global => s.context.symbols.global? name
  | _ => s.function.bind (s.context.symbols.local? · name)

/-- Where a variable is stored. -/
def location (name : String) (scope : Scope) (line : Nat) : LowerM Location := do
  if scope = .global then return .global name
  match (symbol? (← get) name scope).bind (·.position) with
  | some position => return .frame position
  | none => semantic line (.noSlot name)

end Lower

end MiniC
