import MiniC.Fault
import MiniC.Assembly.Register

/-!
# The pool of scratch registers

Intermediate values live in four registers. The lowest free one is taken first; there is no spilling, so an expression
that needs a fifth value at a time cannot be lowered.
-/

namespace MiniC

inductive Scratch where
  | r10
  | r11
  | r12
  | r13
  deriving DecidableEq

namespace Scratch

def all : List Scratch := [r10, r11, r12, r13]

theorem mem_all (r : Scratch) : r ∈ all := by cases r <;> decide

def reg : Scratch → Reg
  | r10 => .r10
  | r11 => .r11
  | r12 => .r12
  | r13 => .r13

end Scratch

/-- Which scratch registers hold a value. -/
structure RegisterPool where
  r10 : Bool := false
  r11 : Bool := false
  r12 : Bool := false
  r13 : Bool := false
  deriving DecidableEq

namespace RegisterPool

def isLive (pool : RegisterPool) : Scratch → Bool
  | .r10 => pool.r10
  | .r11 => pool.r11
  | .r12 => pool.r12
  | .r13 => pool.r13

def set (pool : RegisterPool) (live : Bool) : Scratch → RegisterPool
  | .r10 => { pool with r10 := live }
  | .r11 => { pool with r11 := live }
  | .r12 => { pool with r12 := live }
  | .r13 => { pool with r13 := live }

/-- The registers that hold a value, lowest first. -/
def live (pool : RegisterPool) : List Scratch := Scratch.all.filter pool.isLive

/-- Take the lowest free register. -/
def alloc? (pool : RegisterPool) : Option (Scratch × RegisterPool) :=
  (Scratch.all.find? (!pool.isLive ·)).map fun r => (r, pool.set true r)

/-- Take the lowest free register for a value of an expression on `line`. -/
def alloc (pool : RegisterPool) (line : Nat) : Except Fault (Scratch × RegisterPool) :=
  match pool.alloc? with
  | some taken => .ok taken
  | none => .error (.outOfRegisters line)

/-- Give a register back. -/
def free (pool : RegisterPool) (r : Scratch) : RegisterPool := pool.set false r

@[simp] theorem isLive_set (pool : RegisterPool) (live : Bool) (r q : Scratch) :
    (pool.set live r).isLive q = if q = r then live else pool.isLive q := by
  cases r <;> cases q <;> rfl

theorem mem_live {pool : RegisterPool} {r : Scratch} : r ∈ pool.live ↔ pool.isLive r = true := by
  simp [live, Scratch.mem_all]

end RegisterPool

end MiniC
