import MiniC.Proofs.ExpressionCode
import MiniC.Proofs.Stack

/-!
# The code of expressions is correct

Code for an expression, run in the midst of a body, leaves the expression's value in its register and the expression's
store in memory; it leaves alone the live registers, the stack and frame pointers, and what is on the stack
(`Code.realizes`). The proof follows the shape of the code; one lemma per construct says what its last instructions do
after the code of its operands.

A call is assumed to honour the calling convention (`Honours`): with the arguments in their registers and a stack pointer
that is a multiple of sixteen, it does what the evaluator says, returns a word in `rax`, and gives the stack and frame
pointers back. Everything else it may clobber.
-/

namespace MiniC

/-! ## How much stack code needs -/

mutual

/-- Bytes that the code of an expression may push, without what is below a call. -/
def Expr.stackUse : Expr → Nat
  | .unary _ _ operand => operand.stackUse
  | .binary _ _ left right => max left.stackUse right.stackUse
  | .convert _ _ operand => operand.stackUse
  -- Four registers, the arguments, and eight bytes of padding.
  | .call _ _ args => 40 + stackUseAll args
  | .ifElse _ cond yes no => max cond.stackUse (max yes.stackUse (stackUseElse no))
  | .whileLoop _ cond body => max cond.stackUse body.stackUse
  | .forLoop _ init cond post body =>
    max (stackUseOption init) (max (stackUseOption cond) (max (stackUseOption post) body.stackUse))
  | _ => 0

def stackUseAll : List Expr → Nat
  | [] => 0
  | arg :: args => max arg.stackUse (8 + stackUseAll args)

def stackUseOption : Option Expr → Nat
  | none => 0
  | some e => e.stackUse

/-- Bytes that the code of a statement may push. -/
def Stmt.stackUse : Stmt → Nat
  | .ret value => stackUseOption value
  | .expr e => e.stackUse
  | .block stmts => stackUseBlock stmts
  | _ => 0

def stackUseElse : Option Stmt → Nat
  | none => 0
  | some s => s.stackUse

def stackUseBlock : List Stmt → Nat
  | [] => 0
  | s :: rest => max s.stackUse (stackUseBlock rest)

end

section Correct

variable {Ω : Type} {w : World Ω} {callees : Callees Ω} {callRoom : Nat} {pool : RegisterPool} {pushed room : Nat}
  {σ σ' : Store Ω} {s s' s'' : Machine Ω}

/-! ## What code has to do -/

/-- Calls do what the evaluator says, in at most `callRoom` bytes of stack. -/
def Honours (w : World Ω) (callees : Callees Ω) (callRoom : Nat) : Prop :=
  ∀ name args σ v σ' s, w.call name args σ = some (v, σ') → args = (Reg.arguments.take args.length).map s.regs →
    Running w 0 callRoom σ s →
    ∃ s', callees name s = some s' ∧ s'.regs .rax = v ∧ Keeps w {} callRoom s s' ∧ Running w 0 callRoom σ' s'

/-- No variable that the body can name lies in reserved bytes. -/
def World.VariablesClear (w : World Ω) : Prop :=
  ∀ name scope ty s a, Denotes w.symbols w.function name scope ty s → s.kind = .variable →
    w.address name scope = some a → w.Clear a ty.stored

/-- The machine has got from `s` to `s'`, with the value `v` in `r?` and the store `σ'`. -/
structure Arrived (w : World Ω) (pool : RegisterPool) (pushed room : Nat) (r? : Option Scratch) (v : Word) (σ' : Store Ω)
    (s s' : Machine Ω) : Prop where
  value : ∀ r, r? = some r → s'.regs r.reg = v
  keeps : Keeps w pool room s s'
  running : Running w pushed room σ' s'

/-- The machine has got from `s` to `s'`, with `vs` pushed and the store `σ'`. -/
structure Laid (w : World Ω) (pool : RegisterPool) (pushed room : Nat) (vs us : List Word) (σ' : Store Ω)
    (s s' : Machine Ω) : Prop where
  running : Running w (pushed + vs.length) (room - 8 * vs.length) σ' s'
  held : Held w (room - 8 * vs.length) (vs.reverse ++ us) s'
  rsp : s'.regs .rsp = s.regs .rsp - BitVec.ofNat 64 (8 * vs.length)
  regs : ∀ q, pool.Kept q → q ≠ .rsp → s'.regs q = s.regs q
  stack : ∀ a, w.reserved a = true → ¬ Below (s.regs .rsp) room a → s'.store.memory a = s.store.memory a

/-- `code` does what the evaluator says of a task. -/
def Realizes (w : World Ω) (callees : Callees Ω) (callRoom : Nat) (pool : RegisterPool) (pushed : Nat) :
    Task → Option Scratch → List Instr → Prop
  | .value e, r?, code => ∀ {room σ v σ' s}, e.stackUse + callRoom ≤ room → w.eval e σ = some (v, σ') →
    Running w pushed room σ s →
    ∃ s', run w.toLinkage callees code s = some s' ∧ Arrived w pool pushed room r? v σ' s s'
  | .push args, _, code => ∀ {room σ vs σ' s us}, stackUseAll args + callRoom ≤ room →
    w.evalAll args σ = some (vs, σ') → Running w pushed room σ s → Held w room us s →
    ∃ s', run w.toLinkage callees code s = some s' ∧ vs.length = args.length ∧ Laid w pool pushed room vs us σ' s s'

/-! ## Going on after code -/

/-- Registers that need not be kept have changed since. -/
theorem Arrived.after {r? : Option Scratch} {v v' : Word} {r : Scratch} (h : Arrived w pool pushed room r? v σ' s s')
    (hregs : ∀ q, pool.Kept q → s''.regs q = s'.regs q) (hstore : s''.store = s'.store) (hvalue : s''.regs r.reg = v') :
    Arrived w pool pushed room (some r) v' σ' s s'' := by
  have hk : Keeps w pool room s' s'' := .of_regs hregs hstore
  refine ⟨?_, h.keeps.trans hk fun _ h => h, h.running.of_store hk hstore⟩
  rintro q ⟨⟩
  exact hvalue

/-- The machine has not done anything yet. -/
theorem Running.start (h : Running w pushed room σ s) (pool : RegisterPool) : Arrived w pool pushed room none 0 σ s s :=
  ⟨fun _ hr => (by cases hr), .refl s, h⟩

/-- Nothing but a free register has changed since the start. -/
theorem Running.arrived (h : Running w pushed room σ s) {r : Scratch} {v : Word} (hfree : pool.isLive r = false) :
    Arrived w pool pushed room (some r) v σ s (s.set r.reg v) :=
  (h.start pool).after (fun _ hq => if_neg (hq.ne_reg hfree)) rfl (if_pos rfl)

/-- The program writes to memory. -/
theorem Arrived.write {r? : Option Scratch} {v : Word} (h : Arrived w pool pushed room r? v σ' s s') {a x : Word} {n : Nat}
    (hc : w.Clear a n) :
    Arrived w pool pushed room r? v (σ'.withMemory (σ'.memory.write a n x)) s (s'.write a n x) := by
  have hwrite : Keeps w pool room s' (s'.write a n x) ∧ _ := h.running.write hc x
  obtain ⟨hk, hrunning⟩ := hwrite
  exact ⟨h.value, h.keeps.trans hk fun _ h => h, hrunning⟩

/-! ## Types and places -/

theorem Ty.bytes_width (ty : Ty) : ty.width.bytes = ty.stored := by
  rcases ty with (_ | _ | _ | _) | _ <;> rfl

theorem Ty.extend_width (ty : Ty) (v : Word) : ty.width.extend v = ty.word v := by
  rcases ty with (_ | _ | _ | _) | _ <;> rfl

/-- The place of a name is its address. -/
theorem address_of_place {name : String} {scope : Scope} {place : Location} (hframe : s.regs .rbp = w.frame)
    (h : w.symbols.place? w.function name scope = some place) :
    w.address name scope = some (place.address w.toLinkage s) := by
  cases scope with
  | global =>
    cases h
    rfl
  | «local» | parameter =>
    obtain ⟨p, hp, rfl⟩ := Option.map_eq_some_iff.1 h
    simp only [World.address, hp, Option.map_some, Location.address, hframe]

end Correct

/-! ## Operators -/

section Operators

variable {Ω : Type} (link : Linkage) (callees : Callees Ω) {s : Machine Ω}

/-- `code` leaves `v` in `r` and changes no register but those of `touched`. -/
def Computes (s : Machine Ω) (code : List Instr) (touched : List Reg) (r : Reg) (v : Word) : Prop :=
  ∃ s', run link callees code s = some s' ∧ s'.regs r = v ∧ s'.store = s.store ∧ ∀ q, q ∉ touched → s'.regs q = s.regs q

variable {link callees}

theorem Computes.mono {code : List Instr} {touched touched' : List Reg} {r : Reg} {v : Word}
    (h : Computes link callees s code touched r v) (hsub : ∀ q ∈ touched, q ∈ touched') :
    Computes link callees s code touched' r v := by
  obtain ⟨s', hrun, hvalue, hstore, hregs⟩ := h
  exact ⟨s', hrun, hvalue, hstore, fun q hq => hregs q fun hmem => hq (hsub q hmem)⟩

/-- One instruction that changes one register and the flags. -/
theorem computes_lose {i : Instr} {r : Reg} {v : Word} (h : i.exec link callees s = some (s.set r v).lose) :
    Computes link callees s [i] [r] r v := by
  refine ⟨(s.set r v).lose, by rw [run, h]; rfl, by simp, rfl, fun q hq => ?_⟩
  exact if_neg (List.ne_of_not_mem_cons hq)

/-- A byte set to a truth value, extended with zeros. -/
theorem extend_set_byte (x : Word) (b : Bool) :
    Width.byte.extend ((x &&& 0xffffffffffffff00) ||| if b then 1 else 0) = truth b := by
  have hmask : (0xffffffffffffff00 : Word).setWidth 8 = 0#8 := by decide
  show (BitVec.setWidth 8 _).setWidth 64 = truth b
  rw [BitVec.setWidth_or, BitVec.setWidth_and, hmask, BitVec.and_zero, BitVec.zero_or]
  cases b <;> rfl

/-- What the last comparison says of a condition, as a word. -/
theorem computes_truth (cond : Cond) {r : Reg} {x y : Word} (hflags : s.flags = some (.compare x y)) :
    Computes link callees s [.set cond r, .zeroExtend r r] [r] r (truth (cond.test x y)) := by
  let byte := (s.regs r &&& 0xffffffffffffff00) ||| if cond.test x y then 1 else 0
  have hset : Instr.exec link callees s (.set cond r) = some (s.set r byte) := by
    simp only [Instr.exec, hflags, Option.map_some, Cond.holds_compare, byte]
  refine ⟨(s.set r byte).set r (Width.byte.extend ((s.set r byte).regs r)), ?_, ?_, rfl, fun q hq => ?_⟩
  · rw [run, hset]
    rfl
  · simp only [Machine.regs_set, ↓reduceIte]
    exact extend_set_byte _ _
  · simp only [Machine.regs_set, List.ne_of_not_mem_cons hq, ↓reduceIte]

/-- A comparison of two registers leaves its truth value in the first one. -/
theorem computes_comparing (cond : Cond) {l r : Reg} {x y : Word} (hx : s.regs l = x) (hy : s.regs r = y) :
    Computes link callees s (BinaryOp.instrs.comparing l r cond) [l] l (truth (cond.test x y)) := by
  have h : Computes link callees (s.compare (s.regs l) (s.regs r)) [.set cond l, .zeroExtend l l] [l] l _ :=
    computes_truth cond (by rw [hx, hy]; rfl)
  exact h

/-- A comparison with zero. -/
theorem computes_not {r : Reg} {v : Word} (hv : s.regs r = v) :
    Computes link callees s [.cmpZero r, .set .eq r, .zeroExtend r r] [r] r (truth (v == 0)) := by
  have h : Computes link callees (s.compare (s.regs r) 0) [.set .eq r, .zeroExtend r r] [r] r _ :=
    computes_truth .eq (by rw [hv]; rfl)
  exact h

/-- The quotient or the remainder, out of the register that a division leaves it in. -/
theorem computes_dividing {l r q : Reg} {x y v : Word} (hr : r ∉ Reg.volatile) (hx : s.regs l = x) (hy : s.regs r = y)
    (htrap : ¬ (y = 0 ∨ (x = .intMin 64 ∧ y = -1))) (hq : (q = .rax ∧ v = x.sdiv y) ∨ (q = .rdx ∧ v = x.srem y)) :
    Computes link callees s [.mov l .rax, .cqo, .idiv r, .mov q l] [l, .rax, .rdx] l v := by
  have hrax : r ≠ .rax := fun h => hr (h ▸ by decide)
  have hrdx : r ≠ .rdx := fun h => hr (h ▸ by decide)
  simp only [not_or, not_and] at htrap
  have hsafe : x ≠ .intMin 64 ∨ y ≠ -1 := by
    by_cases hmin : x = .intMin 64
    · exact .inr (htrap.2 hmin)
    · exact .inl hmin
  let extended := (s.set .rax x).set .rdx (x.sshiftRight 63)
  let divided := ((extended.set .rax (x.sdiv y)).set .rdx (x.srem y)).lose
  have hdivide : divide? extended y = some divided := divide?_eq (by simp [extended]) (by simp [extended]) htrap.1 hsafe
  refine ⟨divided.set l (divided.regs q), ?_, ?_, rfl, ?_⟩
  · simp only [run, Instr.exec, Option.bind_some, Machine.regs_set, hx, hy, hrax, hrdx, ↓reduceIte]
    rw [hdivide]
    rfl
  · rcases hq with ⟨rfl, rfl⟩ | ⟨rfl, rfl⟩ <;> simp [divided]
  · intro p hp
    simp only [List.mem_cons, List.not_mem_nil, or_false, not_or] at hp
    simp [divided, extended, hp]

theorem computes_shifting (shift : Shift) {l r : Reg} {x y : Word} (hl : l ∉ Reg.volatile) (hx : s.regs l = x)
    (hy : s.regs r = y) :
    Computes link callees s [.mov r .rcx, .shift shift l] [l, .rcx] l (shift.apply y x) := by
  have hrcx : l ≠ .rcx := fun h => hl (h ▸ by decide)
  refine ⟨_, rfl, ?_, rfl, fun q hq => ?_⟩
  · simp [hx, hy, hrcx]
  · simp only [List.mem_cons, List.not_mem_nil, or_false, not_or] at hq
    simp [hq]

/-- **Operators.** An operator applied to two registers leaves its value in one of them. -/
theorem BinaryOp.computes {op : BinaryOp} {l r : Scratch} {x y v : Word} (hx : s.regs l.reg = x) (hy : s.regs r.reg = y)
    (happly : op.apply x y = some v) :
    Computes link callees s (op.instrs l.reg r.reg) (l.reg :: r.reg :: Reg.volatile) (op.result l r).reg v := by
  have hl := l.reg_not_volatile
  have hr := r.reg_not_volatile
  have hcompare : ∀ cond : Cond, some (truth (cond.test x y)) = some v →
      Computes link callees s (instrs.comparing l.reg r.reg cond) (l.reg :: r.reg :: Reg.volatile) l.reg v := by
    rintro cond ⟨⟩
    exact (computes_comparing cond hx hy).mono (by simp)
  have hright : ∀ alu : AluOp, some (alu.apply x y) = some v →
      Computes link callees s [.alu alu l.reg r.reg] (l.reg :: r.reg :: Reg.volatile) r.reg v := by
    rintro alu ⟨⟩
    exact (computes_lose (by rw [Instr.exec, hx, hy])).mono (by simp)
  have hdivide : ∀ result : Reg, ¬ (y = 0 ∨ (x = .intMin 64 ∧ y = -1)) →
      ((result = .rax ∧ v = x.sdiv y) ∨ (result = .rdx ∧ v = x.srem y)) →
      Computes link callees s [.mov l.reg .rax, .cqo, .idiv r.reg, .mov result l.reg] (l.reg :: r.reg :: Reg.volatile)
        l.reg v :=
    fun result htrap hresult => (computes_dividing hr hx hy htrap hresult).mono (by simp [Reg.volatile])
  have hshift : ∀ shift : Shift, some (shift.apply y x) = some v →
      Computes link callees s [.mov r.reg .rcx, .shift shift l.reg] (l.reg :: r.reg :: Reg.volatile) l.reg v := by
    rintro shift ⟨⟩
    exact (computes_shifting shift hl hx hy).mono (by simp [Reg.volatile])
  cases op with
  | eq => exact hcompare .eq happly
  | ne => exact hcompare .ne happly
  | lt => exact hcompare .lt happly
  | le => exact hcompare .le happly
  | gt => exact hcompare .gt happly
  | ge => exact hcompare .ge happly
  | add => exact hright .add (by rw [AluOp.apply, BitVec.add_comm]; exact happly)
  | mul => exact hright .imul (by rw [AluOp.apply, BitVec.mul_comm]; exact happly)
  | bitAnd => exact hright .and (by rw [AluOp.apply, BitVec.and_comm]; exact happly)
  | bitOr => exact hright .or (by rw [AluOp.apply, BitVec.or_comm]; exact happly)
  | bitXor => exact hright .xor (by rw [AluOp.apply, BitVec.xor_comm]; exact happly)
  | sub =>
    cases happly
    have h : Computes link callees s [.alu .sub r.reg l.reg] [l.reg] l.reg (x - y) :=
      computes_lose (by rw [Instr.exec, hx, hy]; rfl)
    exact h.mono (by simp)
  | div =>
    simp only [BinaryOp.apply] at happly
    split at happly
    · cases happly
    · next htrap => exact hdivide .rax htrap (.inl ⟨rfl, (Option.some.inj happly).symm⟩)
  | mod =>
    simp only [BinaryOp.apply] at happly
    split at happly
    · cases happly
    · next htrap => exact hdivide .rdx htrap (.inr ⟨rfl, (Option.some.inj happly).symm⟩)
  | shl => exact hshift .left happly
  | shr => exact hshift .right happly
  | assign => cases happly

/-- Multiplication by a constant, a shift where it is a small power of two. -/
theorem computes_scaling (factor : Int) {r : Reg} {v : Word} (hv : s.regs r = v) :
    Computes link callees s (scaling factor r) [r] r (v * .ofInt 64 factor) := by
  have hshift : ∀ k : Nat, Computes link callees s [.shiftImm k r] [r] r (v * .ofInt 64 (2 ^ k : Nat)) := by
    intro k
    refine computes_lose ?_
    have hmul : v * .ofInt 64 (2 ^ k : Nat) = v <<< k := by
      apply BitVec.eq_of_toNat_eq
      rw [BitVec.ofInt_natCast, BitVec.toNat_mul, BitVec.toNat_ofNat, BitVec.toNat_shiftLeft, Nat.mul_mod_mod,
        Nat.shiftLeft_eq]
    rw [Instr.exec, hv, hmul]
  unfold scaling
  split
  · refine ⟨s, rfl, ?_, rfl, fun _ _ => rfl⟩
    rw [hv]
    exact (BitVec.mul_one v).symm
  · exact hshift 1
  · exact hshift 2
  · exact hshift 3
  · exact computes_lose (by rw [Instr.exec, hv]; rfl)

end Operators

/-! ## Constructs without calls -/

section Constructs

variable {Ω : Type} {w : World Ω} {callees : Callees Ω} {callRoom : Nat} {pool : RegisterPool} {pushed room : Nat}
  {σ σ' : Store Ω} {s s' s'' : Machine Ω} {code code' : List Instr} {r : Scratch}

theorem run_then {link : Linkage} (h : run link callees code s = some s') (h' : run link callees code' s' = some s'') :
    run link callees (code ++ code') s = some s'' := by
  rw [run_append, h]
  exact h'

/-- Code that computes in registers follows. -/
theorem Arrived.computes {r? : Option Scratch} {v v' : Word} {touched : List Reg}
    (h : Arrived w pool pushed room r? v σ' s s') (hc : Computes w.toLinkage callees s' code touched r.reg v')
    (htouched : ∀ q, pool.Kept q → q ∉ touched) :
    ∃ s'', run w.toLinkage callees code s' = some s'' ∧ Arrived w pool pushed room (some r) v' σ' s s'' := by
  obtain ⟨s'', hrun, hvalue, hstore, hregs⟩ := hc
  exact ⟨s'', hrun, h.after (fun q hq => hregs q (htouched q hq)) hstore hvalue⟩

/-- A free register may be changed. -/
theorem RegisterPool.Kept.not_mem_singleton {q : Reg} (h : pool.Kept q) (hr : pool.isLive r = false) : q ∉ [r.reg] := by
  rw [List.mem_singleton]
  exact h.ne_reg hr

/-- What a load leaves in its register is the value of the evaluator. -/
theorem Running.load (h : Running w pushed room σ s) {ty : Ty} {a : Word} (hc : w.Clear a ty.stored) :
    ty.width.extend (s.read a ty.width.bytes) = ty.load σ.memory a := by
  rw [Ty.extend_width, Ty.bytes_width, h.read hc]
  rfl

/-- The low bytes of a word that was extended are its low bytes. -/
theorem setWidth_extend_long (x : Word) : (Width.long.extend x).setWidth 32 = x.setWidth 32 := by
  apply BitVec.eq_of_getLsbD_eq
  intro i hi
  have hlt : i < 64 := by omega
  rw [Width.extend, BitVec.getLsbD_setWidth, BitVec.getLsbD_signExtend]
  simp only [hi, hlt, decide_true, Bool.true_and, ↓reduceIte]

/-- The low bytes of a sum or difference depend on the low bytes of the operands only. -/
theorem low_move (width : Width) (direction : Direction) (x y : Word) :
    width.low (direction.move (width.extend x) y) = width.low (direction.move x y) := by
  have hsub : ∀ {k : Nat} (x y : Word), k ≤ 64 → (x - y).setWidth k = x.setWidth k + -y.setWidth k := by
    intro k x y hk
    rw [BitVec.sub_eq_add_neg, BitVec.setWidth_add _ _ hk, BitVec.setWidth_neg_of_le hk]
  have hbyte : (Width.byte.extend x).setWidth 8 = x.setWidth 8 := by simp [Width.extend]
  cases width with
  | quad => rfl
  | byte => cases direction <;> simp [Width.low, Direction.move, BitVec.setWidth_add, hsub, hbyte]
  | long => cases direction <;> simp [Width.low, Direction.move, BitVec.setWidth_add, hsub, setWidth_extend_long]

/-- An update of a variable writes what the evaluator saves. -/
theorem Arrived.update {r? : Option Scratch} {v : Word} (h : Arrived w pool pushed room r? v σ s s')
    (callees : Callees Ω) {ty : Ty} (direction : Direction) (n : Nat) {place : Location}
    (hc : w.Clear (place.address w.toLinkage s') ty.stored) :
    let a := place.address w.toLinkage s'
    ∃ s'', Instr.exec w.toLinkage callees s' (.update direction ty.width n place) = some s'' ∧
      Arrived w pool pushed room r? v
        (σ.withMemory (ty.save σ.memory a (direction.move (ty.load σ.memory a) (.ofNat 64 n)))) s s'' := by
  intro a
  let written := s'.write a ty.width.bytes (direction.move (s'.read a ty.width.bytes) (.ofNat 64 n))
  have hsame : written = s'.write a ty.stored (direction.move (ty.load σ.memory a) (.ofNat 64 n)) := by
    have hlow := low_move ty.width direction (s'.read a ty.width.bytes) (.ofNat 64 n)
    rw [h.running.load hc] at hlow
    have hwrite := Memory.write_congr (m := s'.store.memory) (a := a) hlow
    rw [Machine.write, ← Ty.bytes_width, hwrite]
    rfl
  have hwritten : Arrived w pool pushed room r? v _ s written := hsame ▸ h.write hc
  have hk : Keeps w pool room written written.lose := .of_regs (fun _ _ => rfl) rfl
  exact ⟨written.lose, rfl, hwritten.value, ⟨hwritten.keeps.regs, hwritten.keeps.stack⟩, hwritten.running.of_store hk rfl⟩

end Constructs

/-! ## Calls -/

section Calls

variable {Ω : Type} {w : World Ω} {callees : Callees Ω} {callRoom : Nat} {pool : RegisterPool} {pushed room : Nat}
  {σ σ' : Store Ω} {s s' : Machine Ω} {vs : List Word} {v : Word}

theorem RegisterPool.nodup_live (pool : RegisterPool) : (pool.live.map Scratch.reg).Nodup := by
  rcases pool with ⟨_ | _, _ | _, _ | _, _ | _⟩ <;> decide

theorem RegisterPool.length_live_le (pool : RegisterPool) : pool.live.length ≤ 4 :=
  List.length_filter_le _ _

theorem RegisterPool.rsp_not_mem_live (pool : RegisterPool) : .rsp ∉ pool.live.map Scratch.reg := by
  intro hmem
  obtain ⟨r, -, hr⟩ := List.mem_map.1 hmem
  exact r.reg_ne_rsp hr

/-- The arguments come off the stack into their registers. -/
theorem Laid.popped (callees : Callees Ω) (h : Laid w pool pushed room vs [] σ' s s') (hrunning : Running w pushed room σ s)
    (hlength : vs.length ≤ Reg.arguments.length) :
    ∃ s'', run w.toLinkage callees ((Reg.arguments.take vs.length).reverse.map .pop) s' = some s'' ∧
      vs = (Reg.arguments.take vs.length).map s''.regs ∧ Keeps w pool room s s'' ∧ Running w pushed room σ' s'' := by
  have hcount : (Reg.arguments.take vs.length).length = vs.length := by rw [List.length_take]; omega
  have hnodup : (Reg.arguments.take vs.length).reverse.Nodup :=
    List.pairwise_reverse.2 ((List.Pairwise.sublist (List.take_sublist _ _) (by decide)).imp Ne.symm)
  have hvolatile : ∀ q ∈ (Reg.arguments.take vs.length).reverse, q ∈ Reg.volatile := by
    intro q hq
    have harguments : ∀ q ∈ Reg.arguments, q ∈ Reg.volatile := by decide
    exact harguments q (List.mem_of_mem_take (List.mem_reverse.1 hq))
  have hrsp : .rsp ∉ (Reg.arguments.take vs.length).reverse := fun hmem => absurd (hvolatile _ hmem) (by decide)
  have hstacked := h.held.values
  rw [List.append_nil] at hstacked
  obtain ⟨s'', hrun, hstore, hsp, hvalues, hregs⟩ :=
    popAll_runs w.toLinkage callees hnodup hrsp (by simp [hcount]) hstacked
  have hback : s''.regs .rsp = s.regs .rsp := by
    rw [hsp, h.rsp, List.length_reverse, hcount]
    exact BitVec.sub_add_cancel _ _
  have hk : Keeps w pool room s s'' := by
    refine ⟨fun q hq => ?_, fun a ha hb => ?_⟩
    · by_cases hqsp : q = .rsp
      · rw [hqsp, hback]
      · rw [hregs q hqsp fun hmem => hq.not_volatile (hvolatile q hmem), h.regs q hq hqsp]
    · rw [hstore]
      exact h.stack a ha hb
  refine ⟨s'', hrun, ?_, hk, hrunning.of_keeps hk ?_ ?_⟩
  · rw [List.map_reverse] at hvalues
    exact (List.reverse_inj.1 hvalues).symm
  · rw [hstore]
    exact h.running.memory
  · rw [hstore]
    exact h.running.outside

/-- A stack pointer that is a multiple of sixteen after a number of pushes, before a call without padding. -/
theorem Running.unpadded (h : Running w pushed room σ s) (heven : pushed % 2 = 0) (hroom : callRoom ≤ room) :
    Running w 0 callRoom σ s := by
  have haligned := h.aligned
  have hfits := h.fits
  exact ⟨h.frame, h.memory, h.outside, by omega, by omega, fun a ha => h.room a (ha.mono hroom)⟩

/-- When no register is live, code keeps the stack and frame pointers only. -/
theorem RegisterPool.kept_empty {q : Reg} (h : RegisterPool.Kept {} q) : q = .rsp ∨ q = .rbp := by
  rcases h with rfl | rfl | ⟨r, hr, -⟩
  · exact .inl rfl
  · exact .inr rfl
  · cases r <;> cases hr

/-- **Calls.** Whatever has been pushed, the stack is padded so that the callee finds it as it must. -/
theorem padded_runs (hh : Honours w callees callRoom) {name : String}
    (hcall : w.call name vs σ = some (v, σ')) (hargs : vs = (Reg.arguments.take vs.length).map s.regs)
    (h : Running w pushed room σ s) (hroom : 8 + callRoom ≤ room) :
    ∃ s', run w.toLinkage callees (padded pushed name) s = some s' ∧ s'.regs .rax = v ∧ Keeps w {} room s s' ∧
      Running w pushed room σ' s' := by
  have hfits := h.fits
  unfold padded
  split
  · next hodd =>
    let lowered := (s.set .rsp (s.regs .rsp - 8)).lose
    have hlowered : Running w (pushed + 1) (room - 8) σ lowered :=
      h.lowered (by omega) rfl rfl (fun _ _ => rfl) rfl
    have hregs : (Reg.arguments.take vs.length).map lowered.regs = (Reg.arguments.take vs.length).map s.regs := by
      refine List.map_congr_left fun q hq => if_neg fun heq => ?_
      exact absurd (List.mem_of_mem_take hq) (by rw [heq]; decide)
    obtain ⟨s', hexec, hrax, hk, hrunning⟩ := hh name vs σ v σ' lowered hcall (hargs.trans hregs.symm)
      (hlowered.unpadded (by omega) (by omega))
    let raised := (s'.set .rsp (s'.regs .rsp + 8)).lose
    have hkeeps : Keeps w {} room s raised := by
      refine ⟨fun q hq => ?_, fun a ha hb => ?_⟩
      · rcases RegisterPool.kept_empty hq with rfl | rfl
        · show s'.regs .rsp + 8 = s.regs .rsp
          rw [hk.regs .rsp (.inl rfl)]
          exact BitVec.sub_add_cancel _ _
        · exact hk.regs .rbp (.inr (.inl rfl))
      · exact hk.stack a ha fun hbelow => hb (Below.of_lowered (hbelow.mono (by omega)) (by omega) hfits)
    refine ⟨raised, ?_, hrax, hkeeps, h.of_keeps hkeeps hrunning.memory hrunning.outside⟩
    have hpad : Instr.exec w.toLinkage callees s (.aluImm .sub 8 .rsp) = some lowered := rfl
    have hcalled : Instr.exec w.toLinkage callees lowered (.call name) = some s' := hexec
    rw [run, hpad, Option.bind_some, run, hcalled]
    rfl
  · next heven =>
    obtain ⟨s', hexec, hrax, hk, hrunning⟩ :=
      hh name vs σ v σ' s hcall hargs (h.unpadded (by omega) (by omega))
    have hkeeps : Keeps w {} room s s' := hk.mono (by omega)
    refine ⟨s', ?_, hrax, hkeeps, h.of_keeps hkeeps hrunning.memory hrunning.outside⟩
    have hcalled : Instr.exec w.toLinkage callees s (.call name) = some s' := hexec
    rw [run, hcalled]
    rfl

/-- **Saving registers.** Code between pushes and pops of the live registers may clobber them. -/
theorem saved_runs (pool : RegisterPool) {code : List Instr} (h : Running w pushed room σ s) (hroom : 8 * pool.live.length ≤ room)
    (hcode : ∀ s₁, Running w (pushed + pool.live.length) (room - 8 * pool.live.length) σ s₁ →
      ∃ s₂, run w.toLinkage callees code s₁ = some s₂ ∧ s₂.regs .rax = v ∧
        Keeps w {} (room - 8 * pool.live.length) s₁ s₂ ∧
        Running w (pushed + pool.live.length) (room - 8 * pool.live.length) σ' s₂) :
    ∃ s', run w.toLinkage callees (pool.live.map (.push ·.reg) ++ (code ++ pool.live.reverse.map (.pop ·.reg))) s = some s' ∧
      s'.regs .rax = v ∧ Keeps w pool room s s' ∧ Running w pushed room σ' s' := by
  have hfits := h.fits
  let regs := pool.live.map Scratch.reg
  have hlength : regs.length = pool.live.length := List.length_map _
  have hpushes : pool.live.map (.push ·.reg) = regs.map Instr.push := List.map_map.symm
  have hpops : pool.live.reverse.map (.pop ·.reg) = regs.reverse.map Instr.pop := by simp [regs]
  obtain ⟨s₁, hrun₁, hrunning₁, hsp₁, hregs₁, hheld₁, hmem₁⟩ :=
    pushAll_runs w.toLinkage callees pool.rsp_not_mem_live h h.held (hlength ▸ hroom)
  rw [hlength] at hrunning₁ hheld₁ hsp₁
  obtain ⟨s₂, hrun₂, hrax, hk, hrunning₂⟩ := hcode s₁ hrunning₁
  have hheld₂ := (hheld₁.keeps hk).values
  rw [List.append_nil] at hheld₂
  have hnodup : regs.reverse.Nodup := List.pairwise_reverse.2 (pool.nodup_live.imp Ne.symm)
  have hrsp : .rsp ∉ regs.reverse := fun hmem => pool.rsp_not_mem_live (List.mem_reverse.1 hmem)
  obtain ⟨s', hrun', hstore, hsp', hvalues, hregs'⟩ :=
    popAll_runs w.toLinkage callees hnodup hrsp (by simp [regs]) hheld₂
  have hback : s'.regs .rsp = s.regs .rsp := by
    rw [hsp', hk.regs .rsp (.inl rfl), hsp₁, List.length_reverse, hlength]
    exact BitVec.sub_add_cancel _ _
  have hkeeps : Keeps w pool room s s' := by
    refine ⟨fun q hq => ?_, fun a ha hb => ?_⟩
    · by_cases hlive : q ∈ regs.reverse
      · exact List.map_inj_left.1 hvalues q hlive
      · rcases hq with rfl | rfl | ⟨r, hr, rfl⟩
        · exact hback
        · rw [hregs' .rbp (by decide) hlive, hk.regs .rbp (.inr (.inl rfl)), hregs₁ .rbp (by decide)]
        · exact absurd (List.mem_reverse.2 (List.mem_map.2 ⟨r, RegisterPool.mem_live.2 hr, rfl⟩)) hlive
    · rw [hstore, hk.stack a ha fun hbelow => hb ?_, hmem₁ a hb]
      rw [hsp₁] at hbelow
      have hup := hbelow.lift (by omega)
      rwa [Nat.sub_add_cancel hroom] at hup
  have hrax' : s'.regs .rax = v := by
    rw [hregs' .rax (by decide) fun hmem => ?_, hrax]
    obtain ⟨r, -, hr⟩ := List.mem_map.1 (List.mem_reverse.1 hmem)
    exact r.reg_not_volatile (by rw [hr]; decide)
  refine ⟨s', ?_, hrax', hkeeps, h.of_keeps hkeeps ?_ ?_⟩
  · rw [hpushes, hpops]
    exact run_then hrun₁ (run_then hrun₂ hrun')
  · rw [hstore]
    exact hrunning₂.memory
  · rw [hstore]
    exact hrunning₂.outside

/-- What a call returned is taken out of `rax`. -/
theorem taking_runs (callees : Callees Ω) (ty : Ty) {r? : Option Scratch} (hk : Keeps w pool room s s')
    (hrunning : Running w pushed room σ' s') (hrax : s'.regs .rax = v) (hfree : ∀ r, r? = some r → pool.isLive r = false) :
    ∃ s'', run w.toLinkage callees (taking ty r?) s' = some s'' ∧ Arrived w pool pushed room r? (ty.word v) σ' s s'' := by
  have harrived : Arrived w pool pushed room none 0 σ' s s' := ⟨fun _ hr => (by cases hr), hk, hrunning⟩
  cases r? with
  | none => exact ⟨s', rfl, fun _ hr => (by cases hr), hk, hrunning⟩
  | some r =>
    have hexec : Instr.exec w.toLinkage callees s' (.widen ty.width .rax r.reg) = some (s'.set r.reg (ty.word v)) := by
      rw [← hrax, ← Ty.extend_width]
      cases ty.width <;> rfl
    refine ⟨s'.set r.reg (ty.word v), by rw [taking, run, hexec]; rfl, harrived.after (fun q hq => ?_) rfl (if_pos rfl)⟩
    exact if_neg (hq.ne_reg (hfree r rfl))

/-- The arguments are computed, put into their registers, and the function is called. -/
theorem arguments_run (hh : Honours w callees callRoom) {name : String} {args : List Expr} {code : List Instr}
    {σ₁ : Store Ω} (hlimit : args.length ≤ Typing.maxParams)
    (hcode : Realizes w callees callRoom pool pushed (.push args) none code) (hvs : w.evalAll args σ = some (vs, σ₁))
    (hcall : w.call name vs σ₁ = some (v, σ')) (hs : Running w pushed room σ s)
    (hroom : 8 + stackUseAll args + callRoom ≤ room) :
    ∃ s', run w.toLinkage callees (code ++ ((Reg.arguments.take args.length).reverse.map .pop ++ padded pushed name)) s
        = some s' ∧ s'.regs .rax = v ∧ Keeps w {} room s s' ∧ Running w pushed room σ' s' := by
  obtain ⟨s₁, hrun₁, hlength, hlaid⟩ := hcode (by omega) hvs hs hs.held
  obtain ⟨s₂, hrun₂, hvalues, hk₂, hs₂⟩ := hlaid.popped callees hs (hlength ▸ hlimit)
  rw [hlength] at hrun₂
  obtain ⟨s₃, hrun₃, hrax, hk₃, hs₃⟩ := padded_runs hh hcall hvalues hs₂ (by omega)
  have hpool : ∀ q, RegisterPool.Kept {} q → pool.Kept q := by
    intro q hq
    rcases RegisterPool.kept_empty hq with rfl | rfl
    · exact .inl rfl
    · exact .inr (.inl rfl)
  have hk : Keeps w {} room s s₂ := (Keeps.refl s).trans hk₂ hpool
  exact ⟨s₃, run_then hrun₁ (run_then hrun₂ hrun₃), hrax, hk.trans hk₃ fun _ h => h, hs₃⟩

/-- A call, from the pushes of the live registers to the value in its register. -/
theorem call_realizes (hh : Honours w callees callRoom) {info : Info} {name : String} {args : List Expr}
    {r? : Option Scratch} {code : List Instr} (hlimit : args.length ≤ Typing.maxParams)
    (hargs : Realizes w callees callRoom pool (pushed + pool.live.length) (.push args) none code)
    (hfree : ∀ r, r? = some r → pool.isLive r = false) :
    Realizes w callees callRoom pool pushed (.value (.call info name args)) r?
      (pool.live.map (.push ·.reg) ++ (code ++ ((Reg.arguments.take args.length).reverse.map .pop ++
        (padded (pushed + pool.live.length) name ++ (pool.live.reverse.map (.pop ·.reg) ++ taking info.ty r?))))) := by
  intro room σ v σ' s hroom heval hs
  obtain ⟨vs, σ₁, x, hvs, hcall, rfl⟩ := World.eval_call heval
  have hfour := pool.length_live_le
  rw [Expr.stackUse] at hroom
  obtain ⟨s', hrun, hrax, hk, hrunning⟩ := saved_runs pool hs (by omega) fun s₁ hs₁ =>
    arguments_run hh hlimit hargs hvs hcall hs₁ (by omega)
  obtain ⟨s'', hrun', harrived⟩ := taking_runs callees info.ty hk hrunning hrax hfree
  refine ⟨s'', ?_, harrived⟩
  simpa only [List.append_assoc] using run_then hrun hrun'

/-- One argument after another is pushed. -/
theorem pushMore_realizes {arg : Expr} {args : List Expr} {r : Scratch} {code code' : List Instr}
    (hvalue : Realizes w callees callRoom pool pushed (.value arg) (some r) code)
    (hrest : Realizes w callees callRoom pool (pushed + 1) (.push args) none code') :
    Realizes w callees callRoom pool pushed (.push (arg :: args)) none (code ++ (.push r.reg :: code')) := by
  intro room σ vs σ' s us hroom heval hs hus
  obtain ⟨x, σ₁, xs, hx, hxs, rfl⟩ := World.evalAll_cons heval
  rw [stackUseAll] at hroom
  obtain ⟨s₁, hrun₁, hs₁⟩ := hvalue (by omega) hx hs
  have hfits := hs.fits
  have hsp₁ : s₁.regs .rsp = s.regs .rsp := hs₁.keeps.regs .rsp (.inl rfl)
  have hexec : Instr.exec w.toLinkage callees s₁ (.push r.reg) = some (s₁.push x) := by
    rw [← hs₁.value r rfl]
    rfl
  obtain ⟨s₂, hrun₂, hlength, hlaid⟩ :=
    hrest (by omega) hxs (hs₁.running.push x (by omega)) ((hus.keeps hs₁.keeps).push hs₁.running x (by omega))
  have hcount : room - 8 - 8 * xs.length = room - 8 * (x :: xs).length := by rw [List.length_cons]; omega
  refine ⟨s₂, run_then hrun₁ (by rw [run, hexec]; exact hrun₂), congrArg (· + 1) hlength, ?_, ?_, ?_, ?_, ?_⟩
  · rw [← hcount, List.length_cons, Nat.add_comm xs.length, ← Nat.add_assoc]
    exact hlaid.running
  · rw [← hcount, List.reverse_cons, List.append_assoc]
    exact hlaid.held
  · rw [hlaid.rsp, Machine.rsp_push, hsp₁, List.length_cons]
    bv_omega
  · intro q hq hne
    rw [hlaid.regs q hq hne, s₁.regs_push x hne, hs₁.keeps.regs q hq]
  · intro a ha hb
    have hb₁ : ¬ Below (s₁.regs .rsp) room a := by rwa [hsp₁]
    rw [hlaid.stack a ha fun hbelow => hb₁ (hbelow.of_lowered (by omega) hfits),
      s₁.memory_push x fun hbelow => hb₁ (hbelow.mono (by omega)), hs₁.keeps.stack a ha hb]

end Calls

/-! ## All constructs -/

section Realizes

variable {Ω : Type} {w : World Ω} {callees : Callees Ω} {callRoom : Nat} {pool : RegisterPool} {pushed room : Nat}
  {σ : Store Ω} {s : Machine Ω} {info operand left : Info} {name : String} {scope : Scope} {symbol : Symbol}
  {place : Location} {r p l : Scratch} {e address right : Expr} {code code' : List Instr}

theorem isArray_of_denotes {ty : Ty} (h : Denotes w.symbols w.function name scope ty symbol) :
    w.isArray name scope = symbol.isArray := by
  rw [World.isArray, h.found]
  rfl

/-- The value of a variable is loaded. -/
theorem scalar_realizes (hv : w.VariablesClear) (hnames : Denotes w.symbols w.function name scope info.ty symbol)
    (hkind : symbol.kind = .variable) (hplace : w.symbols.place? w.function name scope = some place)
    (hfree : pool.isLive r = false) :
    Realizes w callees callRoom pool pushed (.value (.ident info name scope)) (some r)
      [.load info.ty.width place r.reg] := by
  intro room σ v σ' s hroom heval hs
  obtain ⟨a, ha, hvalue, rfl⟩ := World.eval_ident heval
  have hclear := hv _ _ _ _ _ hnames hkind ha
  have hscalar : w.isArray name scope = false := by
    rw [isArray_of_denotes hnames, Symbol.isArray, hkind]
    rfl
  rw [hscalar, if_neg Bool.false_ne_true] at hvalue
  cases (address_of_place hs.frame hplace).symm.trans ha
  refine ⟨s.set r.reg v, ?_, hs.arrived hfree⟩
  rw [hvalue, ← hs.load hclear]
  rfl

/-- A variable is changed, then its value is loaded. -/
theorem stepBefore_realizes (hv : w.VariablesClear) {direction : Direction}
    (hnames : Denotes w.symbols w.function name scope operand.ty symbol) (hkind : symbol.kind = .variable)
    (hplace : w.symbols.place? w.function name scope = some place) (hfree : pool.isLive r = false) :
    Realizes w callees callRoom pool pushed (.value (.unary info (.step .before direction) (.ident operand name scope)))
      (some r) [.update direction operand.ty.width operand.ty.stride place, .load operand.ty.width place r.reg] := by
  intro room σ v σ' s hroom heval hs
  obtain ⟨a, m, ha, hm, hvalue, rfl⟩ := World.eval_step heval
  have hclear := hv _ _ _ _ _ hnames hkind ha
  cases (address_of_place hs.frame hplace).symm.trans ha
  obtain ⟨s₁, hexec, hs₁⟩ := (hs.start pool).update callees direction operand.ty.stride hclear
  rw [← hm] at hs₁
  have haddress : place.address w.toLinkage s₁ = place.address w.toLinkage s := by
    rw [← Option.some_inj, ← address_of_place hs₁.running.frame hplace, ha]
  have hload : operand.ty.width.extend (s₁.read (place.address w.toLinkage s₁) operand.ty.width.bytes) = v := by
    rw [haddress, hs₁.running.load hclear, hvalue]
    rfl
  refine ⟨s₁.set r.reg v, ?_, hs₁.after (fun q hq => if_neg (hq.ne_reg hfree)) rfl (if_pos rfl)⟩
  rw [run, hexec, ← hload]
  rfl

/-- The value of a variable is loaded before the variable is changed. -/
theorem stepAfter_realizes (hv : w.VariablesClear) {direction : Direction}
    (hnames : Denotes w.symbols w.function name scope operand.ty symbol) (hkind : symbol.kind = .variable)
    (hplace : w.symbols.place? w.function name scope = some place) (hfree : pool.isLive r = false) :
    Realizes w callees callRoom pool pushed (.value (.unary info (.step .after direction) (.ident operand name scope)))
      (some r) [.load operand.ty.width place r.reg, .update direction operand.ty.width operand.ty.stride place] := by
  intro room σ v σ' s hroom heval hs
  obtain ⟨a, m, ha, hm, hvalue, rfl⟩ := World.eval_step heval
  have hclear := hv _ _ _ _ _ hnames hkind ha
  have hload : operand.ty.width.extend (s.read (place.address w.toLinkage s) operand.ty.width.bytes) = v := by
    cases (address_of_place hs.frame hplace).symm.trans ha
    rw [hs.load hclear, hvalue]
    rfl
  have hs₁ : Arrived w pool pushed room (some r) v σ s (s.set r.reg v) := hs.arrived hfree
  cases (address_of_place hs₁.running.frame hplace).symm.trans ha
  obtain ⟨s₂, hexec, hs₂⟩ := hs₁.update callees direction operand.ty.stride hclear
  rw [← hm] at hs₂
  refine ⟨s₂, ?_, hs₂⟩
  have hloaded : Instr.exec w.toLinkage callees s (.load operand.ty.width place r.reg) = some (s.set r.reg v) := by
    rw [← hload]
    rfl
  rw [run, hloaded, Option.bind_some, run, hexec]
  rfl

/-- A value in a register is changed there. -/
theorem Realizes.computing {e' : Expr} {g : Word → Word}
    (h : Realizes w callees callRoom pool pushed (.value e) (some r) code) (hfree : pool.isLive r = false)
    (hcode : ∀ s v, s.regs r.reg = v → Computes w.toLinkage callees s code' [r.reg] r.reg (g v))
    (heval : ∀ σ v σ', w.eval e' σ = some (v, σ') → ∃ x, w.eval e σ = some (x, σ') ∧ v = g x)
    (huse : e.stackUse ≤ e'.stackUse) :
    Realizes w callees callRoom pool pushed (.value e') (some r) (code ++ code') := by
  intro room σ v σ' s hroom hv hs
  obtain ⟨x, hx, rfl⟩ := heval σ v σ' hv
  obtain ⟨s₁, hrun₁, hs₁⟩ := h (by omega) hx hs
  obtain ⟨s₂, hrun₂, hs₂⟩ := hs₁.computes (hcode s₁ x (hs₁.value r rfl)) fun q hq => hq.not_mem_singleton hfree
  exact ⟨s₂, run_then hrun₁ hrun₂, hs₂⟩

/-- A value is loaded from where a register points to. -/
theorem deref_realizes (h : Realizes w callees callRoom pool pushed (.value e) (some r) code)
    (hfree : pool.isLive r = false) :
    Realizes w callees callRoom pool pushed (.value (.unary info .deref e)) (some r)
      (code ++ [.load info.ty.width (.pointed r.reg) r.reg]) := by
  intro room σ v σ' s hroom heval hs
  obtain ⟨a, ha, hclear, hvalue⟩ := World.eval_deref heval
  rw [Expr.stackUse] at hroom
  obtain ⟨s₁, hrun₁, hs₁⟩ := h hroom ha hs
  have hexec : Instr.exec w.toLinkage callees s₁ (.load info.ty.width (.pointed r.reg) r.reg) = some (s₁.set r.reg v) := by
    rw [hvalue, ← hs₁.running.load hclear, ← hs₁.value r rfl]
    rfl
  refine ⟨s₁.set r.reg v, run_then hrun₁ (by rw [run, hexec]; rfl), ?_⟩
  exact hs₁.after (fun q hq => if_neg (hq.ne_reg hfree)) rfl (if_pos rfl)

theorem assignName_realizes (hv : w.VariablesClear)
    (hnames : Denotes w.symbols w.function name scope left.ty symbol) (hkind : symbol.kind = .variable)
    (hplace : w.symbols.place? w.function name scope = some place)
    (h : Realizes w callees callRoom pool pushed (.value right) (some r) code) :
    Realizes w callees callRoom pool pushed (.value (.binary info .assign (.ident left name scope) right)) (some r)
      (code ++ [.store left.ty.width r.reg place]) := by
  intro room σ v σ' s hroom heval hs
  obtain ⟨σ₁, a, hright, ha, rfl⟩ := World.eval_assignName heval
  have hclear := hv _ _ _ _ _ hnames hkind ha
  rw [Expr.stackUse] at hroom
  obtain ⟨s₁, hrun₁, hs₁⟩ := h (by omega) hright hs
  cases (address_of_place hs₁.running.frame hplace).symm.trans ha
  refine ⟨_, run_then hrun₁ ?_, hs₁.write hclear⟩
  rw [← hs₁.value r rfl, ← Ty.bytes_width]
  rfl

/-- Two operands one after another: the first one stays in its register while the second one is computed. -/
theorem operands_run {x y : Word} {σ₁ σ' : Store Ω}
    (hleft : Realizes w callees callRoom pool pushed (.value e) (some l) code)
    (hright : Realizes w callees callRoom (pool.set true l) pushed (.value right) (some r) code')
    (hx : w.eval e σ = some (x, σ₁)) (hy : w.eval right σ₁ = some (y, σ'))
    (hroom : max e.stackUse right.stackUse + callRoom ≤ room) (hs : Running w pushed room σ s) :
    ∃ s', run w.toLinkage callees (code ++ code') s = some s' ∧ s'.regs l.reg = x ∧ s'.regs r.reg = y ∧
      Keeps w pool room s s' ∧ Running w pushed room σ' s' := by
  obtain ⟨s₁, hrun₁, hs₁⟩ := hleft (by omega) hx hs
  obtain ⟨s₂, hrun₂, hs₂⟩ := hright (by omega) hy hs₁.running
  refine ⟨s₂, run_then hrun₁ hrun₂, ?_, hs₂.value r rfl, hs₁.keeps.trans hs₂.keeps fun _ h => h.set, hs₂.running⟩
  rw [hs₂.keeps.regs _ (pool.kept_set l), hs₁.value l rfl]

/-- The value stays in its register while the address is computed. -/
theorem assignAt_realizes (hvalue : Realizes w callees callRoom pool pushed (.value right) (some r) code)
    (hpointer : Realizes w callees callRoom (pool.set true r) pushed (.value address) (some p) code') :
    Realizes w callees callRoom pool pushed (.value (.binary info .assign (.unary left .deref address) right)) (some r)
      (code ++ (code' ++ [.store left.ty.width r.reg (.pointed p.reg)])) := by
  intro room σ v σ' s hroom heval hs
  obtain ⟨σ₁, a, σ₂, hright, haddress, hclear, rfl⟩ := World.eval_assignAt heval
  rw [Expr.stackUse, Expr.stackUse, Nat.max_comm] at hroom
  obtain ⟨s₁, hrun, hv, ha, hk, hrunning⟩ := operands_run hvalue hpointer hright haddress hroom hs
  have harrived : Arrived w pool pushed room (some r) v σ₂ s s₁ := by
    refine ⟨?_, hk, hrunning⟩
    rintro q ⟨⟩
    exact hv
  rw [← List.append_assoc]
  refine ⟨_, run_then hrun ?_, harrived.write hclear⟩
  rw [← hv, ← ha, ← Ty.bytes_width]
  rfl

theorem arithmetic_realizes {op : BinaryOp} (hop : op ≠ .assign) (hl : pool.isLive l = false)
    (hr : (pool.set true l).isLive r = false)
    (hleft : Realizes w callees callRoom pool pushed (.value e) (some l) code)
    (hright : Realizes w callees callRoom (pool.set true l) pushed (.value right) (some r) code') :
    Realizes w callees callRoom pool pushed (.value (.binary info op e right)) (some (op.result l r))
      (code ++ (code' ++ op.instrs l.reg r.reg)) := by
  intro room σ v σ' s hroom heval hs
  obtain ⟨x, σ₁, y, hx, hy, happly⟩ := World.eval_arithmetic hop heval
  rw [Expr.stackUse] at hroom
  obtain ⟨s₁, hrun, hx₁, hy₁, hk, hrunning⟩ := operands_run hleft hright hx hy hroom hs
  have harrived : Arrived w pool pushed room none 0 σ' s s₁ := ⟨fun _ hr => (by cases hr), hk, hrunning⟩
  obtain ⟨s₂, hrun', hs₂⟩ := harrived.computes (BinaryOp.computes hx₁ hy₁ happly) fun q hq hmem => by
    rcases List.mem_cons.1 hmem with rfl | hmem
    · exact hq.ne_reg hl rfl
    rcases List.mem_cons.1 hmem with rfl | hmem
    · exact hq.set.ne_reg hr rfl
    · exact hq.not_volatile hmem
  rw [← List.append_assoc]
  exact ⟨s₂, run_then hrun hrun', hs₂⟩

/-- **Code for expressions.** Code does what the evaluator says. -/
theorem Code.realizes (hh : Honours w callees callRoom) (hv : w.VariablesClear) {task : Task} {r? : Option Scratch}
    (h : Code w.symbols w.function pool pushed task r? code) :
    Realizes w callees callRoom pool pushed task r? code := by
  induction h with
  | number free =>
    intro room σ v σ' s hroom heval hs
    cases heval
    exact ⟨_, rfl, hs.arrived free⟩
  | string free =>
    intro room σ v σ' s hroom heval hs
    cases heval
    exact ⟨_, rfl, hs.arrived free⟩
  | array names array placed free =>
    intro room σ v σ' s hroom heval hs
    obtain ⟨a, ha, hvalue, rfl⟩ := World.eval_ident heval
    rw [isArray_of_denotes names, Symbol.isArray, array] at hvalue
    cases (address_of_place hs.frame placed).symm.trans ha
    cases hvalue
    exact ⟨_, rfl, hs.arrived free⟩
  | scalar names scalar placed free => exact scalar_realizes hv names scalar placed free
  | addressOf placed free =>
    intro room σ v σ' s hroom heval hs
    obtain ⟨ha, rfl⟩ := World.eval_addressOf heval
    cases (address_of_place hs.frame placed).symm.trans ha
    exact ⟨_, rfl, hs.arrived free⟩
  | stepBefore names scalar placed free => exact stepBefore_realizes hv names scalar placed free
  | stepAfter names scalar placed free => exact stepAfter_realizes hv names scalar placed free
  | deref address ih => exact deref_realizes ih (address.fresh _ rfl)
  | negate value ih =>
    refine ih.computing (value.fresh _ rfl) (fun s v hs => computes_lose ?_) (fun _ _ _ => World.eval_negate) (Nat.le_refl _)
    rw [Instr.exec, hs]
  | not value ih =>
    exact ih.computing (value.fresh _ rfl) (fun s v hs => computes_not hs) (fun _ _ _ => World.eval_not) (Nat.le_refl _)
  | widen value ih =>
    intro room σ v σ' s hroom heval hs
    rw [World.eval] at heval
    exact ih hroom heval hs
  | scale value ih =>
    exact ih.computing (value.fresh _ rfl) (fun s v hs => computes_scaling _ hs) (fun _ _ _ => World.eval_scale)
      (Nat.le_refl _)
  | assignName names scalar placed value ih => exact assignName_realizes hv names scalar placed ih
  | assignAt value pointer ihValue ihPointer => exact assignAt_realizes ihValue ihPointer
  | arithmetic operator first second ihFirst ihSecond =>
    exact arithmetic_realizes operator (first.fresh _ rfl) (second.fresh _ rfl) ihFirst ihSecond
  | call limit values free ih => exact call_realizes hh limit ih free
  | pushNone =>
    intro room σ vs σ' s us hroom heval hs hus
    cases heval
    exact ⟨s, rfl, rfl, hs, hus, by simp, fun _ _ _ => rfl, fun _ _ _ => rfl⟩
  | pushMore value rest ihValue ihRest => exact pushMore_realizes ihValue ihRest

end Realizes

end MiniC
