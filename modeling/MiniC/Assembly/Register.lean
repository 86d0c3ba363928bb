import MiniC.Ty
import MiniC.Operator

/-!
# Widths, registers and conditions of the machine
-/

namespace MiniC

/-- The width of an operand: one, four or eight bytes. -/
inductive Width where
  | byte
  | long
  | quad
  deriving DecidableEq

namespace Width

def bytes : Width → Nat
  | byte => 1
  | long => 4
  | quad => 8

/-- The letter that ends a mnemonic. -/
def suffix : Width → String
  | byte => "b"
  | long => "l"
  | quad => "q"

/-- The directive that reserves a value. -/
def directive : Width → String
  | byte => ".byte"
  | long => ".long"
  | quad => ".quad"

end Width

/-- The width at which values of a type are moved; `void` is moved like a pointer. -/
def Ty.width (ty : Ty) : Width :=
  match ty.size with
  | 1 => .byte
  | 4 => .long
  | _ => .quad

inductive Reg where
  | rax
  | rcx
  | rdx
  | rsi
  | rdi
  | rbp
  | rsp
  | r8
  | r9
  | r10
  | r11
  | r12
  | r13
  deriving DecidableEq

namespace Reg

/-- The name of the low part of a register. -/
def name : Width → Reg → String
  | .byte, rax => "%al"
  | .byte, rcx => "%cl"
  | .byte, rdx => "%dl"
  | .byte, rsi => "%sil"
  | .byte, rdi => "%dil"
  | .byte, rbp => "%bpl"
  | .byte, rsp => "%spl"
  | .byte, r8 => "%r8b"
  | .byte, r9 => "%r9b"
  | .byte, r10 => "%r10b"
  | .byte, r11 => "%r11b"
  | .byte, r12 => "%r12b"
  | .byte, r13 => "%r13b"
  | .long, rax => "%eax"
  | .long, rcx => "%ecx"
  | .long, rdx => "%edx"
  | .long, rsi => "%esi"
  | .long, rdi => "%edi"
  | .long, rbp => "%ebp"
  | .long, rsp => "%esp"
  | .long, r8 => "%r8d"
  | .long, r9 => "%r9d"
  | .long, r10 => "%r10d"
  | .long, r11 => "%r11d"
  | .long, r12 => "%r12d"
  | .long, r13 => "%r13d"
  | .quad, rax => "%rax"
  | .quad, rcx => "%rcx"
  | .quad, rdx => "%rdx"
  | .quad, rsi => "%rsi"
  | .quad, rdi => "%rdi"
  | .quad, rbp => "%rbp"
  | .quad, rsp => "%rsp"
  | .quad, r8 => "%r8"
  | .quad, r9 => "%r9"
  | .quad, r10 => "%r10"
  | .quad, r11 => "%r11"
  | .quad, r12 => "%r12"
  | .quad, r13 => "%r13"

/-- The registers that pass arguments, in order. -/
def arguments : List Reg := [rdi, rsi, rdx, rcx, r8, r9]

end Reg

/-- The conditions that a signed comparison sets. -/
inductive Cond where
  | eq
  | ne
  | lt
  | le
  | gt
  | ge
  deriving DecidableEq

namespace Cond

/-- The letters that end a mnemonic. -/
def suffix : Cond → String
  | eq => "e"
  | ne => "ne"
  | lt => "l"
  | le => "le"
  | gt => "g"
  | ge => "ge"

/-- The condition that holds when this one does not. -/
def negated : Cond → Cond
  | eq => ne
  | ne => eq
  | lt => ge
  | le => gt
  | gt => le
  | ge => lt

@[simp] theorem negated_negated (c : Cond) : c.negated.negated = c := by cases c <;> rfl

end Cond

/-- The condition that a comparison operator tests. -/
def BinaryOp.cond? : BinaryOp → Option Cond
  | .eq => some .eq
  | .ne => some .ne
  | .lt => some .lt
  | .le => some .le
  | .gt => some .gt
  | .ge => some .ge
  | _ => none

theorem BinaryOp.isSome_cond? (op : BinaryOp) : op.cond?.isSome = op.isComparison := by cases op <;> rfl

end MiniC
