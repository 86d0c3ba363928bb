import Mathlib.Data.Option.Basic
import MiniC.Proofs.Machine
import MiniC.Proofs.Typed

/-!
# The value of an expression

`World.eval` is what an expression means: a 64-bit word and what becomes of the store. It knows nothing of registers or
of the stack. A variable is the bytes at its address; a pointer can reach every byte that is not reserved, and an
expression that would read or write a reserved byte through a pointer has no value. A division that traps has none
either.

Operands are evaluated from left to right. In an assignment the right side comes first, then the address that is
written to; its value is the word of the right side.
-/

namespace MiniC

/-! ## Values in memory -/

namespace Ty

/-- Bytes that a value of the type takes in memory. -/
def stored : Ty → Nat
  | char => 1
  | int => 4
  | _ => 8

/-- The word that low bytes stand for: a `char` is unsigned, an `int` is signed, anything else is the whole word. -/
def word : Ty → Word → Word
  | char, v => (v.setWidth 8).setWidth 64
  | int, v => (v.setWidth 32).signExtend 64
  | _, v => v

def load (ty : Ty) (m : Memory) (a : Word) : Word := ty.word (m.read a ty.stored)

def save (ty : Ty) (m : Memory) (a v : Word) : Memory := m.write a ty.stored v

end Ty

/-- Another memory, with nothing changed outside. -/
def Store.withMemory {Ω : Type} (σ : Store Ω) (m : Memory) : Store Ω := { σ with memory := m }

/-! ## Operators -/

/-- The word of a truth value. -/
def truth (b : Bool) : Word := if b then 1 else 0

/-- What an operator other than assignment makes of two words; a division may trap. -/
def BinaryOp.apply : BinaryOp → Word → Word → Option Word
  | add, x, y => some (x + y)
  | sub, x, y => some (x - y)
  | mul, x, y => some (x * y)
  | bitAnd, x, y => some (x &&& y)
  | bitOr, x, y => some (x ||| y)
  | bitXor, x, y => some (x ^^^ y)
  | div, x, y => if y = 0 ∨ (x = .intMin 64 ∧ y = -1) then none else some (x.sdiv y)
  | mod, x, y => if y = 0 ∨ (x = .intMin 64 ∧ y = -1) then none else some (x.srem y)
  | shl, x, y => some (x <<< (y.toNat % 64))
  | shr, x, y => some (x.sshiftRight (y.toNat % 64))
  | eq, x, y => some (truth (x == y))
  | ne, x, y => some (truth (x != y))
  | lt, x, y => some (truth (x.slt y))
  | le, x, y => some (truth (x.sle y))
  | gt, x, y => some (truth (y.slt x))
  | ge, x, y => some (truth (y.sle x))
  | assign, _, _ => none

/-- The value of a step that changes a variable: before or after the value is read. -/
def Moment.value : Moment → (changed unchanged : Word) → Word
  | before, changed, _ => changed
  | after, _, unchanged => unchanged

/-! ## Expressions -/

/-- What an expression in the body of a function finds around it. -/
structure World (Ω : Type) extends Linkage where
  symbols : SymbolTable
  /-- The function whose body it is. -/
  function : String
  /-- The address that positions of parameters and locals count from. -/
  frame : Word
  /-- The bytes that pointers must not reach: those that the code keeps for itself. -/
  reserved : Word → Bool
  /-- What a function makes of its arguments: the word it returns, and the store after it. -/
  call : String → List Word → Store Ω → Option (Word × Store Ω)

namespace World

variable {Ω : Type} (w : World Ω)

/-- The address of a name. -/
def address (name : String) : Scope → Option Word
  | .global => some (w.globalAt name)
  | _ => ((w.symbols.local? w.function name).bind (·.position)).map fun p => w.frame + BitVec.ofInt 64 p

def isArray (name : String) (scope : Scope) : Bool := (w.symbols.scoped? w.function name scope).any (·.isArray)

/-- None of the `n` bytes from `a` on is reserved. -/
def Clear (a : Word) (n : Nat) : Prop := ∀ i, i < n → w.reserved (a + BitVec.ofNat 64 i) = false

instance (a : Word) (n : Nat) : Decidable (w.Clear a n) := inferInstanceAs (Decidable (∀ i, i < n → _))

mutual

/-- The value of an expression in a store, and the store after it. -/
def eval : Expr → Store Ω → Option (Word × Store Ω)
  | .number _ value, σ => some (.ofInt 64 value, σ)
  | .string _ label _, σ => some (w.literalAt label, σ)
  | .ident info name scope, σ => do
    let a ← w.address name scope
    return (if w.isArray name scope then a else info.ty.load σ.memory a, σ)
  | .unary _ .addressOf (.ident _ name scope), σ => do
    let a ← w.address name scope
    return (a, σ)
  | .unary _ .addressOf _, _ => none
  | .unary _ (.step moment direction) (.ident operand name scope), σ => do
    let a ← w.address name scope
    let before := operand.ty.load σ.memory a
    let m := operand.ty.save σ.memory a (direction.move before (.ofNat 64 operand.ty.stride))
    return (moment.value (operand.ty.load m a) before, σ.withMemory m)
  | .unary _ (.step _ _) _, _ => none
  | .unary info .deref operand, σ => do
    let (a, σ) ← eval operand σ
    guard (w.Clear a info.ty.stored)
    return (info.ty.load σ.memory a, σ)
  | .unary _ .negate operand, σ => do
    let (v, σ) ← eval operand σ
    return (-v, σ)
  | .unary _ .not operand, σ => do
    let (v, σ) ← eval operand σ
    return (truth (v == 0), σ)
  | .binary _ .assign (.ident left name scope) right, σ => do
    let (v, σ) ← eval right σ
    let a ← w.address name scope
    return (v, σ.withMemory (left.ty.save σ.memory a v))
  | .binary _ .assign (.unary left .deref address) right, σ => do
    let (v, σ) ← eval right σ
    let (a, σ) ← eval address σ
    guard (w.Clear a left.ty.stored)
    return (v, σ.withMemory (left.ty.save σ.memory a v))
  | .binary _ op left right, σ => do
    let (x, σ) ← eval left σ
    let (y, σ) ← eval right σ
    let v ← op.apply x y
    return (v, σ)
  | .convert _ .widen operand, σ => eval operand σ
  | .convert _ (.scale factor) operand, σ => do
    let (v, σ) ← eval operand σ
    return (v * .ofInt 64 factor, σ)
  | .call info name args, σ => do
    let (vs, σ) ← evalAll args σ
    let (v, σ) ← w.call name vs σ
    return (info.ty.word v, σ)
  | .ifElse .., _ => none
  | .whileLoop .., _ => none
  | .forLoop .., _ => none

/-- The values of arguments, the first one first. -/
def evalAll : List Expr → Store Ω → Option (List Word × Store Ω)
  | [], σ => some ([], σ)
  | arg :: args, σ => do
    let (v, σ) ← eval arg σ
    let (vs, σ) ← evalAll args σ
    return (v :: vs, σ)

end

/-! ## What a value says of the parts of an expression -/

section Inversion

variable {w} {info operand left : Info} {name : String} {scope : Scope} {e address right : Expr} {v : Word}
  {σ σ' : Store Ω}

theorem eval_ident (h : w.eval (.ident info name scope) σ = some (v, σ')) :
    ∃ a, w.address name scope = some a ∧ v = (if w.isArray name scope then a else info.ty.load σ.memory a) ∧ σ' = σ := by
  obtain ⟨a, ha, h⟩ := Option.bind_eq_some_iff.1 h
  cases h
  exact ⟨a, ha, rfl, rfl⟩

theorem eval_addressOf (h : w.eval (.unary info .addressOf (.ident operand name scope)) σ = some (v, σ')) :
    w.address name scope = some v ∧ σ' = σ := by
  obtain ⟨a, ha, h⟩ := Option.bind_eq_some_iff.1 h
  cases h
  exact ⟨ha, rfl⟩

theorem eval_step {moment : Moment} {direction : Direction}
    (h : w.eval (.unary info (.step moment direction) (.ident operand name scope)) σ = some (v, σ')) :
    ∃ a m, w.address name scope = some a ∧
      m = operand.ty.save σ.memory a (direction.move (operand.ty.load σ.memory a) (.ofNat 64 operand.ty.stride)) ∧
      v = moment.value (operand.ty.load m a) (operand.ty.load σ.memory a) ∧ σ' = σ.withMemory m := by
  obtain ⟨a, ha, h⟩ := Option.bind_eq_some_iff.1 h
  cases h
  exact ⟨a, _, ha, rfl, rfl, rfl⟩

theorem eval_deref (h : w.eval (.unary info .deref e) σ = some (v, σ')) :
    ∃ a, w.eval e σ = some (a, σ') ∧ w.Clear a info.ty.stored ∧ v = info.ty.load σ'.memory a := by
  obtain ⟨⟨a, σ₁⟩, ha, h⟩ := Option.bind_eq_some_iff.1 h
  obtain ⟨_, hclear, h⟩ := Option.bind_eq_some_iff.1 h
  cases h
  exact ⟨a, ha, (Option.guard_eq_some' _).1 hclear, rfl⟩

theorem eval_negate (h : w.eval (.unary info .negate e) σ = some (v, σ')) : ∃ x, w.eval e σ = some (x, σ') ∧ v = -x := by
  obtain ⟨⟨x, σ₁⟩, hx, h⟩ := Option.bind_eq_some_iff.1 h
  cases h
  exact ⟨x, hx, rfl⟩

theorem eval_not (h : w.eval (.unary info .not e) σ = some (v, σ')) :
    ∃ x, w.eval e σ = some (x, σ') ∧ v = truth (x == 0) := by
  obtain ⟨⟨x, σ₁⟩, hx, h⟩ := Option.bind_eq_some_iff.1 h
  cases h
  exact ⟨x, hx, rfl⟩

theorem eval_assignName (h : w.eval (.binary info .assign (.ident left name scope) right) σ = some (v, σ')) :
    ∃ σ₁ a, w.eval right σ = some (v, σ₁) ∧ w.address name scope = some a ∧
      σ' = σ₁.withMemory (left.ty.save σ₁.memory a v) := by
  obtain ⟨⟨x, σ₁⟩, hx, h⟩ := Option.bind_eq_some_iff.1 h
  obtain ⟨a, ha, h⟩ := Option.bind_eq_some_iff.1 h
  cases h
  exact ⟨σ₁, a, hx, ha, rfl⟩

theorem eval_assignAt (h : w.eval (.binary info .assign (.unary left .deref address) right) σ = some (v, σ')) :
    ∃ σ₁ a σ₂, w.eval right σ = some (v, σ₁) ∧ w.eval address σ₁ = some (a, σ₂) ∧ w.Clear a left.ty.stored ∧
      σ' = σ₂.withMemory (left.ty.save σ₂.memory a v) := by
  obtain ⟨⟨x, σ₁⟩, hx, h⟩ := Option.bind_eq_some_iff.1 h
  obtain ⟨⟨a, σ₂⟩, ha, h⟩ := Option.bind_eq_some_iff.1 h
  obtain ⟨_, hclear, h⟩ := Option.bind_eq_some_iff.1 h
  cases h
  exact ⟨σ₁, a, σ₂, hx, ha, (Option.guard_eq_some' _).1 hclear, rfl⟩

theorem eval_arithmetic {op : BinaryOp} (hop : op ≠ .assign) (h : w.eval (.binary info op e right) σ = some (v, σ')) :
    ∃ x σ₁ y, w.eval e σ = some (x, σ₁) ∧ w.eval right σ₁ = some (y, σ') ∧ op.apply x y = some v := by
  rw [eval] at h
  · obtain ⟨⟨x, σ₁⟩, hx, h⟩ := Option.bind_eq_some_iff.1 h
    obtain ⟨⟨y, σ₂⟩, hy, h⟩ := Option.bind_eq_some_iff.1 h
    obtain ⟨z, hz, h⟩ := Option.bind_eq_some_iff.1 h
    cases h
    exact ⟨x, σ₁, y, hx, hy, hz⟩
  · exact fun _ _ _ heq _ => hop heq
  · exact fun _ _ heq _ => hop heq

theorem eval_scale {factor : Int} (h : w.eval (.convert info (.scale factor) e) σ = some (v, σ')) :
    ∃ x, w.eval e σ = some (x, σ') ∧ v = x * .ofInt 64 factor := by
  obtain ⟨⟨x, σ₁⟩, hx, h⟩ := Option.bind_eq_some_iff.1 h
  cases h
  exact ⟨x, hx, rfl⟩

theorem eval_call {args : List Expr} (h : w.eval (.call info name args) σ = some (v, σ')) :
    ∃ vs σ₁ x, w.evalAll args σ = some (vs, σ₁) ∧ w.call name vs σ₁ = some (x, σ') ∧ v = info.ty.word x := by
  obtain ⟨⟨vs, σ₁⟩, hvs, h⟩ := Option.bind_eq_some_iff.1 h
  obtain ⟨⟨x, σ₂⟩, hx, h⟩ := Option.bind_eq_some_iff.1 h
  cases h
  exact ⟨vs, σ₁, x, hvs, hx, rfl⟩

theorem evalAll_cons {args : List Expr} {vs : List Word} (h : w.evalAll (e :: args) σ = some (vs, σ')) :
    ∃ x σ₁ us, w.eval e σ = some (x, σ₁) ∧ w.evalAll args σ₁ = some (us, σ') ∧ vs = x :: us := by
  obtain ⟨⟨x, σ₁⟩, hx, h⟩ := Option.bind_eq_some_iff.1 h
  obtain ⟨⟨us, σ₂⟩, hus, h⟩ := Option.bind_eq_some_iff.1 h
  cases h
  exact ⟨x, σ₁, us, hx, hus, rfl⟩

end Inversion

end World

end MiniC
