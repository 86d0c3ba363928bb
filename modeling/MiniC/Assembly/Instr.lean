import MiniC.Assembly.Register

/-!
# Instructions

The instructions that lowered code uses, each with the operands it can have, and their text in AT&T form. Where a
mnemonic has several shapes each shape is an instruction of its own.
-/

namespace MiniC

/-- A place in memory. -/
inductive Location where
  /-- A global variable. -/
  | global (name : String)
  /-- The bytes of a string literal. -/
  | literal (label : Nat)
  /-- A place in the current frame. -/
  | frame (offset : Int)
  /-- Where a register points to. -/
  | pointed (reg : Reg)
  deriving DecidableEq

/-- Operators of two registers that leave the result in the second. -/
inductive AluOp where
  | add
  | sub
  | imul
  | and
  | or
  | xor
  deriving DecidableEq

inductive Shift where
  | left
  /-- Copies of the sign come in from the left. -/
  | right
  deriving DecidableEq

inductive Instr where
  | push (src : Reg)
  | pop (dst : Reg)
  | mov (src dst : Reg)
  /-- The low four bytes; the high four of the target become zero. -/
  | movLong (src dst : Reg)
  /-- The low byte, extended with zeros to four bytes; the high four of the target become zero. -/
  | zeroExtendLong (src dst : Reg)
  /-- The low byte, extended with zeros to eight. -/
  | zeroExtend (src dst : Reg)
  /-- The low four bytes, extended with copies of their sign to eight. -/
  | signExtend (src dst : Reg)
  | movImm (value : Int) (dst : Reg)
  /-- The address of a place. -/
  | lea (src : Location) (dst : Reg)
  /-- A value from memory, extended to eight bytes: a byte with zeros, four bytes with copies of their sign. -/
  | load (width : Width) (src : Location) (dst : Reg)
  | store (width : Width) (src : Reg) (dst : Location)
  | alu (op : AluOp) (src dst : Reg)
  | aluImm (op : AluOp) (value : Int) (dst : Reg)
  /-- Add to or subtract from a value in memory. -/
  | update (direction : Direction) (width : Width) (value : Nat) (dst : Location)
  | neg (dst : Reg)
  /-- Shift left by a constant. -/
  | shiftImm (count : Nat) (dst : Reg)
  /-- Shift by the low byte of `rcx`. -/
  | shift (op : Shift) (dst : Reg)
  /-- Extend the sign of `rax` into `rdx`. -/
  | cqo
  /-- Divide `rdx:rax`; the quotient goes to `rax`, the remainder to `rdx`. -/
  | idiv (divisor : Reg)
  /-- Compare the second register with the first. -/
  | cmp (src dst : Reg)
  | cmpZero (dst : Reg)
  /-- Set the low byte to one if the condition holds, else to zero. -/
  | set (cond : Cond) (dst : Reg)
  | jump (label : Nat)
  | jumpIf (cond : Cond) (label : Nat)
  | call (name : String)
  | ret
  deriving DecidableEq

namespace Location

def text : Location → String
  | global name => name ++ "(%rip)"
  | literal label => s!".L{label}(%rip)"
  | frame offset => s!"{offset}(%rbp)"
  | pointed reg => "(" ++ reg.name .quad ++ ")"

end Location

namespace AluOp

def mnemonic : AluOp → String
  | add => "addq"
  | sub => "subq"
  | imul => "imulq"
  | and => "andq"
  | or => "orq"
  | xor => "xorq"

end AluOp

namespace Instr

/-- Copy a value of the given width out of a register, extended to eight bytes as `load` would extend it. -/
def widen : Width → Reg → Reg → Instr
  | .byte => zeroExtend
  | .long => signExtend
  | .quad => mov

/-- Copy the low bytes of a register, with zeros above them. -/
def narrow : Width → Reg → Reg → Instr
  | .byte => zeroExtendLong
  | .long => movLong
  | .quad => mov

/-- A mnemonic and its operands. -/
def write (mnemonic : String) (operands : List String) : String := mnemonic ++ "\t" ++ ", ".intercalate operands

/-- A constant operand. -/
def imm (value : Int) : String := s!"${value}"

/-- A label as an operand of a jump. -/
def target (label : Nat) : String := s!".L{label}"

def text : Instr → String
  | push src => write "pushq" [src.name .quad]
  | pop dst => write "popq" [dst.name .quad]
  | mov src dst => write "movq" [src.name .quad, dst.name .quad]
  | movLong src dst => write "movl" [src.name .long, dst.name .long]
  | zeroExtendLong src dst => write "movzbl" [src.name .byte, dst.name .long]
  | zeroExtend src dst => write "movzbq" [src.name .byte, dst.name .quad]
  | signExtend src dst => write "movslq" [src.name .long, dst.name .quad]
  | movImm value dst => write "movq" [imm value, dst.name .quad]
  | lea src dst => write "leaq" [src.text, dst.name .quad]
  | load .byte src dst => write "movzbq" [src.text, dst.name .quad]
  | load .long src dst => write "movslq" [src.text, dst.name .quad]
  | load .quad src dst => write "movq" [src.text, dst.name .quad]
  | store width src dst => write ("mov" ++ width.suffix) [src.name width, dst.text]
  | alu op src dst => write op.mnemonic [src.name .quad, dst.name .quad]
  | aluImm op value dst => write op.mnemonic [imm value, dst.name .quad]
  | update .up width value dst => write ("add" ++ width.suffix) [imm value, dst.text]
  | update .down width value dst => write ("sub" ++ width.suffix) [imm value, dst.text]
  | neg dst => write "negq" [dst.name .quad]
  | shiftImm count dst => write "salq" [imm count, dst.name .quad]
  | shift .left dst => write "salq" ["%cl", dst.name .quad]
  | shift .right dst => write "sarq" ["%cl", dst.name .quad]
  | cqo => "cqo"
  | idiv divisor => write "idivq" [divisor.name .quad]
  | cmp src dst => write "cmpq" [src.name .quad, dst.name .quad]
  | cmpZero dst => write "cmpq" [imm 0, dst.name .quad]
  | set cond dst => write ("set" ++ cond.suffix) [dst.name .byte]
  | jump label => write "jmp" [target label]
  | jumpIf cond label => write ("j" ++ cond.suffix) [target label]
  | call name => write "call" [name]
  | ret => "ret"

end Instr

end MiniC
