import Mathlib.Algebra.Group.Int.Defs
import Mathlib.Algebra.Group.Nat.Defs
import MiniC.Assembly.Instr

/-!
# The machine

What the instructions of a listing do, on 64-bit words and a memory of bytes. Only the flags of a comparison are known;
an instruction that sets flags in another way leaves them unknown, and code that reads them then has no run. A division
that traps has no run either. What a call does is given from outside, as is what is in reach of calls beside memory
(`Ω`).

`Instr.exec` is one instruction, `run` a list of them without jumps.
-/

namespace MiniC

abbrev Word := BitVec 64

/-! ## Memory -/

abbrev Memory := Word → BitVec 8

namespace Memory

/-- The `n` bytes from `a` on, the first one lowest. -/
def read (m : Memory) (a : Word) : Nat → Word
  | 0 => 0
  | n + 1 => (m a).setWidth 64 ||| (read m (a + 1) n <<< 8)

/-- The low `n` bytes of `v` written from `a` on, the lowest one first. -/
def write (m : Memory) (a : Word) (n : Nat) (v : Word) : Memory := fun b =>
  if (b - a).toNat < n then (v >>> (8 * (b - a).toNat)).setWidth 8 else m b

end Memory

/-- What a program can change: memory, and what only calls reach. -/
structure Store (Ω : Type) where
  memory : Memory
  outside : Ω

namespace Width

/-- The low bytes, with zeros above them. -/
def low : Width → Word → Word
  | byte, v => (v.setWidth 8).setWidth 64
  | long, v => (v.setWidth 32).setWidth 64
  | quad, v => v

/-- The low bytes, extended: a byte with zeros, four bytes with copies of their sign. -/
def extend : Width → Word → Word
  | byte, v => (v.setWidth 8).setWidth 64
  | long, v => (v.setWidth 32).signExtend 64
  | quad, v => v

theorem low_low (w : Width) (v : Word) : w.low (w.low v) = w.low v := by cases w <;> simp [low]

end Width

/-! ## Flags -/

/-- The flags that a comparison sets. -/
structure Flags where
  zero : Bool
  sign : Bool
  overflow : Bool

/-- The flags of `dst - src`. -/
def Flags.compare (dst src : Word) : Flags :=
  { zero := dst - src == 0, sign := (dst - src).msb, overflow := dst.ssubOverflow src }

/-- Whether a condition holds for the flags of a comparison. -/
def Cond.holds : Cond → Flags → Bool
  | eq, flags => flags.zero
  | ne, flags => !flags.zero
  | lt, flags => flags.sign != flags.overflow
  | le, flags => flags.zero || flags.sign != flags.overflow
  | gt, flags => !flags.zero && flags.sign == flags.overflow
  | ge, flags => flags.sign == flags.overflow

/-! ## States -/

structure Machine (Ω : Type) where
  regs : Reg → Word
  store : Store Ω
  /-- The flags of the last comparison, unless they have been lost. -/
  flags : Option Flags

/-- Where the names of a listing end up. -/
structure Linkage where
  globalAt : String → Word
  literalAt : Nat → Word

/-- What the machine does from a call up to the instruction after it. -/
abbrev Callees (Ω : Type) := String → Machine Ω → Option (Machine Ω)

namespace Machine

variable {Ω : Type}

def set (s : Machine Ω) (r : Reg) (v : Word) : Machine Ω := { s with regs := fun q => if q = r then v else s.regs q }

/-- Write the low `n` bytes of `v` from `a` on. -/
def write (s : Machine Ω) (a : Word) (n : Nat) (v : Word) : Machine Ω :=
  { s with store := { s.store with memory := s.store.memory.write a n v } }

def read (s : Machine Ω) (a : Word) (n : Nat) : Word := s.store.memory.read a n

/-- The flags are not those of a comparison any more. -/
def lose (s : Machine Ω) : Machine Ω := { s with flags := none }

/-- Compare `dst` with `src`. -/
def compare (s : Machine Ω) (dst src : Word) : Machine Ω := { s with flags := some (.compare dst src) }

@[simp] theorem regs_set (s : Machine Ω) (r q : Reg) (v : Word) :
    (s.set r v).regs q = if q = r then v else s.regs q := rfl

@[simp] theorem store_set (s : Machine Ω) (r : Reg) (v : Word) : (s.set r v).store = s.store := rfl

@[simp] theorem flags_set (s : Machine Ω) (r : Reg) (v : Word) : (s.set r v).flags = s.flags := rfl

@[simp] theorem regs_write (s : Machine Ω) (a : Word) (n : Nat) (v : Word) : (s.write a n v).regs = s.regs := rfl

@[simp] theorem memory_write (s : Machine Ω) (a : Word) (n : Nat) (v : Word) :
    (s.write a n v).store.memory = s.store.memory.write a n v := rfl

@[simp] theorem outside_write (s : Machine Ω) (a : Word) (n : Nat) (v : Word) :
    (s.write a n v).store.outside = s.store.outside := rfl

@[simp] theorem regs_lose (s : Machine Ω) : s.lose.regs = s.regs := rfl

@[simp] theorem store_lose (s : Machine Ω) : s.lose.store = s.store := rfl

@[simp] theorem regs_compare (s : Machine Ω) (x y : Word) : (s.compare x y).regs = s.regs := rfl

@[simp] theorem store_compare (s : Machine Ω) (x y : Word) : (s.compare x y).store = s.store := rfl

@[simp] theorem flags_compare (s : Machine Ω) (x y : Word) : (s.compare x y).flags = some (.compare x y) := rfl

end Machine

/-- The address of a place. -/
def Location.address {Ω : Type} (link : Linkage) (s : Machine Ω) : Location → Word
  | global name => link.globalAt name
  | literal label => link.literalAt label
  | frame offset => s.regs .rbp + BitVec.ofInt 64 offset
  | pointed r => s.regs r

/-! ## Instructions -/

/-- The second operand after an operation. -/
def AluOp.apply : AluOp → Word → Word → Word
  | add, src, dst => dst + src
  | sub, src, dst => dst - src
  | imul, src, dst => dst * src
  | and, src, dst => dst &&& src
  | or, src, dst => dst ||| src
  | xor, src, dst => dst ^^^ src

/-- A shift by the low six bits of `count`. -/
def Shift.apply : Shift → Word → Word → Word
  | left, count, dst => dst <<< (count.toNat % 64)
  | right, count, dst => dst.sshiftRight (count.toNat % 64)

/-- A value moved up or down. -/
def Direction.move : Direction → Word → Word → Word
  | up, v, step => v + step
  | down, v, step => v - step

section Exec

variable {Ω : Type} (link : Linkage) (callees : Callees Ω)

/-- The quotient and the remainder of `rdx:rax` by `divisor`, unless the division traps. -/
def divide? (s : Machine Ω) (divisor : Word) : Option (Machine Ω) :=
  let dividend := (s.regs .rdx ++ s.regs .rax).toInt
  let quotient := dividend.tdiv divisor.toInt
  if divisor = 0 then none
  else if -2 ^ 63 ≤ quotient ∧ quotient < 2 ^ 63 then
    some (((s.set .rax (.ofInt 64 quotient)).set .rdx (.ofInt 64 (dividend.tmod divisor.toInt))).lose)
  else none

/-- One instruction that is not a jump. -/
def Instr.exec (s : Machine Ω) : Instr → Option (Machine Ω)
  | push src => some ((s.write (s.regs .rsp - 8) 8 (s.regs src)).set .rsp (s.regs .rsp - 8))
  | pop dst => some ((s.set .rsp (s.regs .rsp + 8)).set dst (s.read (s.regs .rsp) 8))
  | mov src dst => some (s.set dst (s.regs src))
  | movLong src dst => some (s.set dst (Width.long.low (s.regs src)))
  | zeroExtendLong src dst => some (s.set dst (Width.byte.low (s.regs src)))
  | zeroExtend src dst => some (s.set dst (Width.byte.extend (s.regs src)))
  | signExtend src dst => some (s.set dst (Width.long.extend (s.regs src)))
  | movImm value dst => some (s.set dst (.ofInt 64 value))
  | lea src dst => some (s.set dst (src.address link s))
  | load width src dst => some (s.set dst (width.extend (s.read (src.address link s) width.bytes)))
  | store width src dst => some (s.write (dst.address link s) width.bytes (s.regs src))
  | alu op src dst => some ((s.set dst (op.apply (s.regs src) (s.regs dst))).lose)
  | aluImm op value dst => some ((s.set dst (op.apply (.ofInt 64 value) (s.regs dst))).lose)
  | update direction width value dst =>
    let a := dst.address link s
    some ((s.write a width.bytes (direction.move (s.read a width.bytes) (.ofNat 64 value))).lose)
  | neg dst => some ((s.set dst (-s.regs dst)).lose)
  | shiftImm count dst => some ((s.set dst (s.regs dst <<< count)).lose)
  | shift op dst => some ((s.set dst (op.apply (s.regs .rcx) (s.regs dst))).lose)
  | cqo => some (s.set .rdx ((s.regs .rax).sshiftRight 63))
  | idiv divisor => divide? s (s.regs divisor)
  | cmp src dst => some (s.compare (s.regs dst) (s.regs src))
  | cmpZero dst => some (s.compare (s.regs dst) 0)
  -- Only the low byte of the register is written.
  | set cond dst => s.flags.map fun flags =>
    s.set dst ((s.regs dst &&& 0xffffffffffffff00) ||| if cond.holds flags then 1 else 0)
  | call name => callees name s
  | jump _ => none
  | jumpIf _ _ => none
  | ret => none

/-- Instructions one after another. -/
def run : List Instr → Machine Ω → Option (Machine Ω)
  | [], s => some s
  | i :: code, s => (i.exec link callees s).bind (run code)

theorem run_append (code code' : List Instr) (s : Machine Ω) :
    run link callees (code ++ code') s = (run link callees code s).bind (run link callees code') := by
  induction code generalizing s with
  | nil => rfl
  | cons i code ih =>
    rw [List.cons_append, run, run, Option.bind_assoc]
    congr 1
    funext s'
    exact ih s'

end Exec

/-! ## Bytes of memory -/

namespace Memory

theorem getLsbD_read (m : Memory) : ∀ (n : Nat) (a : Word) (i : Nat), i < 64 →
    (read m a n).getLsbD i = (decide (i < 8 * n) && (m (a + BitVec.ofNat 64 (i / 8))).getLsbD (i % 8))
  | 0, a, i, h => by simp [read]
  | n + 1, a, i, h => by
    rw [read, BitVec.getLsbD_or, BitVec.getLsbD_setWidth, BitVec.getLsbD_shiftLeft]
    by_cases hi : i < 8
    · have hdiv : i / 8 = 0 := by omega
      have hmod : i % 8 = i := by omega
      simp [hi, h, hdiv, hmod]
      omega
    · have hdiv : i / 8 = (i - 8) / 8 + 1 := by omega
      have hmod : (i - 8) % 8 = i % 8 := by omega
      have hbyte : (m a).getLsbD i = false := BitVec.getLsbD_of_ge _ _ (by omega)
      have haddr : a + BitVec.ofNat 64 (i / 8) = a + 1 + BitVec.ofNat 64 ((i - 8) / 8) := by
        rw [hdiv, Nat.add_comm, BitVec.ofNat_add, BitVec.add_assoc]
        rfl
      rw [getLsbD_read m n (a + 1) (i - 8) (by omega), hbyte, hmod, haddr]
      have hlt : (i - 8 < 8 * n) ↔ (i < 8 * (n + 1)) := by omega
      simp [h, hi, hlt]

/-- Reading looks at the bytes from `a` on only. -/
theorem read_congr {m m' : Memory} {a : Word} {n : Nat}
    (h : ∀ i, i < n → m (a + BitVec.ofNat 64 i) = m' (a + BitVec.ofNat 64 i)) : m.read a n = m'.read a n := by
  apply BitVec.eq_of_getLsbD_eq
  intro i hi
  rw [getLsbD_read m n a i hi, getLsbD_read m' n a i hi]
  by_cases hlt : i < 8 * n
  · rw [h (i / 8) (by omega)]
  · simp [hlt]

theorem write_of_ge {m : Memory} {a b v : Word} {n : Nat} (h : n ≤ (b - a).toNat) : m.write a n v b = m b := by
  unfold write
  rw [if_neg (by omega)]

/-- What was written is read back. -/
theorem getLsbD_read_write (m : Memory) (a v : Word) {n i : Nat} (hi : i < 64) :
    ((m.write a n v).read a n).getLsbD i = (decide (i < 8 * n) && v.getLsbD i) := by
  rw [getLsbD_read _ n a i hi]
  by_cases hlt : i < 8 * n
  · have hoffset : (a + BitVec.ofNat 64 (i / 8) - a).toNat = i / 8 := by
      rw [BitVec.add_comm, BitVec.add_sub_cancel, BitVec.toNat_ofNat]
      omega
    unfold write
    rw [hoffset, if_pos (by omega), BitVec.getLsbD_setWidth, BitVec.getLsbD_ushiftRight]
    have hbit : 8 * (i / 8) + i % 8 = i := by omega
    have hmod : i % 8 < 8 := by omega
    simp [hlt, hbit, hmod]
  · simp [hlt]

theorem read_write (m : Memory) (a v : Word) (w : Width) : (m.write a w.bytes v).read a w.bytes = w.low v := by
  apply BitVec.eq_of_getLsbD_eq
  intro i hi
  rw [getLsbD_read_write m a v hi]
  cases w with
  | quad => simp [Width.bytes, Width.low, hi]
  | _ =>
    simp only [Width.bytes, Width.low, BitVec.getLsbD_setWidth]
    grind

/-- Only the low bytes of what is written matter. -/
theorem write_congr {m : Memory} {a v v' : Word} {w : Width} (h : w.low v = w.low v') :
    m.write a w.bytes v = m.write a w.bytes v' := by
  have hbits : ∀ i, i < 8 * w.bytes → v.getLsbD i = v'.getLsbD i := by
    intro i hi
    have := congrArg (·.getLsbD i) h
    cases w <;> simp [Width.low, Width.bytes, BitVec.getLsbD_setWidth] at this hi ⊢ <;> grind
  funext b
  unfold write
  split
  · next hlt =>
    apply BitVec.eq_of_getLsbD_eq
    intro i hi
    rw [BitVec.getLsbD_setWidth, BitVec.getLsbD_setWidth, BitVec.getLsbD_ushiftRight, BitVec.getLsbD_ushiftRight,
      hbits _ (by omega)]
  · rfl
end Memory

/-! ## Comparisons -/

namespace Cond

/-- The sign of a difference, corrected by its overflow, is the order of the signed values. -/
theorem lt_holds_compare (x y : Word) : Cond.lt.holds (.compare x y) = x.slt y := by
  have hx := BitVec.toInt_lt (x := x)
  have hx' := BitVec.le_toInt (x := x)
  have hy := BitVec.toInt_lt (x := y)
  have hy' := BitVec.le_toInt (x := y)
  have hsub : (x - y).toInt = (x.toInt - y.toInt).bmod (2 ^ 64) := BitVec.toInt_sub
  rw [Int.bmod_def] at hsub
  simp only [Cond.holds, Flags.compare, BitVec.slt, BitVec.ssubOverflow, BitVec.msb_eq_toInt]
  rw [Bool.eq_iff_iff]
  simp only [bne_iff_ne, ne_eq, Bool.or_eq_decide]
  simp only [decide_eq_decide, decide_eq_true_eq]
  split at hsub <;> omega

theorem eq_holds_compare (x y : Word) : Cond.eq.holds (.compare x y) = (x == y) := by
  have h : x - y = 0 ↔ x = y := by
    constructor
    · intro h
      bv_omega
    · rintro rfl
      exact BitVec.sub_self x
  simp only [Cond.holds, Flags.compare]
  rw [Bool.eq_iff_iff]
  simpa using h

/-- The signed comparison that a condition stands for. -/
def test : Cond → Word → Word → Bool
  | eq, x, y => x == y
  | ne, x, y => x != y
  | lt, x, y => x.slt y
  | le, x, y => x.sle y
  | gt, x, y => y.slt x
  | ge, x, y => y.sle x

/-- **Comparisons.** A condition read off the flags is the signed comparison. -/
theorem holds_compare (c : Cond) (x y : Word) : c.holds (.compare x y) = c.test x y := by
  have hlt := lt_holds_compare x y
  have heq := eq_holds_compare x y
  have hle : x.sle y = (x == y || x.slt y) := by
    rw [Bool.eq_iff_iff]
    simp only [BitVec.sle, BitVec.slt, Bool.or_eq_true, decide_eq_true_eq, beq_iff_eq]
    rw [← BitVec.toInt_inj]
    omega
  have hge : y.sle x = !x.slt y := by
    rw [Bool.eq_iff_iff]
    simp [BitVec.sle, BitVec.slt]
  have hgt : y.slt x = !(x == y || x.slt y) := by
    rw [Bool.eq_iff_iff]
    simp only [BitVec.slt, Bool.not_eq_true', Bool.or_eq_false_iff, decide_eq_true_eq, beq_eq_false_iff_ne, ne_eq,
      decide_eq_false_iff_not]
    rw [← BitVec.toInt_inj]
    omega
  simp only [Cond.holds] at hlt heq
  cases c with
  | eq => exact heq
  | ne => simp only [Cond.holds, heq, Cond.test]; rfl
  | lt => exact hlt
  | le => simp only [Cond.holds, hlt, heq, Cond.test, hle]
  | gt =>
    simp only [Cond.holds, heq, Cond.test, hgt, ← hlt]
    cases (Flags.compare x y).sign <;> cases (Flags.compare x y).overflow <;> simp
  | ge =>
    simp only [Cond.holds, Cond.test, hge, ← hlt]
    cases (Flags.compare x y).sign <;> cases (Flags.compare x y).overflow <;> simp

end Cond

/-! ## Division -/

/-- Two words with copies of the sign in the upper one. -/
theorem toInt_sign_append (x : Word) : (x.sshiftRight 63 ++ x).toInt = x.toInt := by
  have hlt := x.isLt
  have hint := BitVec.toInt_eq_toNat_cond x
  rw [BitVec.toInt_append, BitVec.toInt_sshiftRight, Int.shiftRight_eq_div_pow]
  simp only [Nat.reduceBEq, Bool.false_eq_true, ↓reduceIte]
  split at hint <;> rw [hint] <;> omega

/-- **Division.** After the sign of the dividend has been extended, a division that does not trap gives the signed
quotient and remainder. -/
theorem divide?_eq {Ω : Type} {s : Machine Ω} {x y : Word} (hrax : s.regs .rax = x) (hrdx : s.regs .rdx = x.sshiftRight 63)
    (hy : y ≠ 0) (htrap : x ≠ .intMin 64 ∨ y ≠ -1) :
    divide? s y = some (((s.set .rax (x.sdiv y)).set .rdx (x.srem y)).lose) := by
  have hdiv : x.toInt.tdiv y.toInt = (x.sdiv y).toInt := (BitVec.toInt_sdiv_of_ne_or_ne x y htrap).symm
  have hrem : x.toInt.tmod y.toInt = (x.srem y).toInt := (BitVec.toInt_srem x y).symm
  have hlow := BitVec.le_toInt (x := x.sdiv y)
  have hhigh := BitVec.toInt_lt (x := x.sdiv y)
  unfold divide?
  rw [hrax, hrdx, toInt_sign_append]
  simp only [hdiv, hrem, BitVec.ofInt_toInt]
  rw [if_neg hy, if_pos ⟨by simpa using hlow, by simpa using hhigh⟩]

end MiniC
