import MiniC.Proofs.Expressions

/-!
# The value of an assignment

The code of an assignment leaves the word of the right side in its register, as it stands; the store keeps the low bytes
of it only. So what a load gives right after the store is the register's word cut down to the type of the target. The two
are the same exactly if the word is in the range of the type (`Ty.InRange`). Arithmetic is done on whole words, so a sum of
two `char`s may be none, and then the value of the assignment is not what was stored (`assigned_value_overflows`).

* `assigned_value`: what a load of the target gives after an assignment, on every machine.
* `Typed.inRange`: the values of expressions whose operators cannot leave the range of their type (`Expr.settled`).
-/

namespace MiniC

/-! ## Ranges of types -/

namespace Ty

/-- The words that are values of a type: a `char` is unsigned, an `int` is signed, and of eight bytes every word is one. -/
def InRange : Ty → Word → Prop
  | char, v => 0 ≤ v.toInt ∧ v.toInt < 256
  | int, v => -2147483648 ≤ v.toInt ∧ v.toInt < 2147483648
  | _, _ => True

variable {ty : Ty} {v : Word}

/-- A word stays as it is, cut down to a type, exactly if it is in its range. -/
theorem word_eq_self_iff (ty : Ty) (v : Word) : ty.word v = v ↔ ty.InRange v := by
  have hcond := BitVec.toInt_eq_toNat_cond v
  have hlt := v.isLt
  rcases ty with (_ | _ | _ | _) | base
  · exact ⟨fun _ => trivial, fun _ => rfl⟩
  · simp only [word, InRange, ← BitVec.toNat_inj, BitVec.toNat_setWidth]
    split at hcond <;> omega
  · simp only [word, InRange, ← BitVec.toInt_inj]
    rw [BitVec.toInt_signExtend_of_le (by decide), BitVec.toInt_setWidth, Int.bmod_def]
    split at hcond <;> split <;> omega
  · exact ⟨fun _ => trivial, fun _ => rfl⟩
  · exact ⟨fun _ => trivial, fun _ => rfl⟩

theorem inRange_word (ty : Ty) (v : Word) : ty.InRange (ty.word v) := by
  rw [← word_eq_self_iff]
  rcases ty with (_ | _ | _ | _) | base
  · rfl
  · simp [word]
  · exact congrArg (BitVec.signExtend 64) (setWidth_extend_long v)
  · rfl
  · rfl

/-- What a load gives is a value of the type. -/
theorem inRange_load (ty : Ty) (m : Memory) (a : Word) : ty.InRange (ty.load m a) := ty.inRange_word _

theorem inRange_of_size (h : ty.size = 8) : ty.InRange v := by
  rcases ty with (_ | _ | _ | _) | base
  · cases h
  · cases h
  · cases h
  · trivial
  · trivial

theorem size_of_pointerTo {operand : Ty} (h : operand.pointerTo = some ty) : ty.size = 8 := by
  cases operand with
  | plain base =>
    cases h
    rfl
  | pointer base => cases h

theorem InRange.wider {ty' : Ty} (h : ty.InRange v) (hint : ty.isInteger = true) (hle : ty.size ≤ ty'.size) :
    ty'.InRange v := by
  rcases ty with (_ | _ | _ | _) | _ <;> rcases ty' with (_ | _ | _ | _) | _ <;>
    first | trivial | exact h | exact absurd hint (by decide) | exact absurd hle (by decide) |
      exact ⟨Int.le_trans (by decide) h.1, Int.lt_trans h.2 (by decide)⟩

theorem inRange_truth (b : Bool) (h : ty ≠ .void) : ty.InRange (truth b) := by
  rcases ty with (_ | _ | _ | _) | _ <;> cases b <;> simp [InRange, truth] at h ⊢

theorem inRange_literal (value : Int) : (literalTy value).InRange (.ofInt 64 value) := by
  unfold literalTy
  split
  · simp only [InRange, BitVec.toInt_ofInt]
    rw [Int.bmod_eq_of_le (by omega) (by omega)]
    omega
  split
  · simp only [InRange, BitVec.toInt_ofInt]
    rw [Int.bmod_eq_of_le (by omega) (by omega)]
    omega
  · trivial

/-- Between zero and a value of a type there are only values of the type. -/
theorem InRange.between {x : Word} (h : ty.InRange x)
    (hv : (0 ≤ v.toInt ∧ v.toInt ≤ x.toInt) ∨ (x.toInt ≤ v.toInt ∧ v.toInt ≤ 0)) : ty.InRange v := by
  rcases ty with (_ | _ | _ | _) | base
  · trivial
  · simp only [InRange] at h ⊢
    omega
  · simp only [InRange] at h ⊢
    omega
  · trivial
  · trivial

theorem InRange.bitwise {x y : Word} (hx : ty.InRange x) (hy : ty.InRange y) :
    ty.InRange (x &&& y) ∧ ty.InRange (x ||| y) ∧ ty.InRange (x ^^^ y) := by
  rw [← word_eq_self_iff] at hx hy
  simp only [← word_eq_self_iff]
  have hword : ty.word (x &&& y) = ty.word x &&& ty.word y ∧ ty.word (x ||| y) = ty.word x ||| ty.word y ∧
      ty.word (x ^^^ y) = ty.word x ^^^ ty.word y := by
    rcases ty with (_ | _ | _ | _) | base
    · exact ⟨rfl, rfl, rfl⟩
    · simp [word]
    · simp [word, BitVec.signExtend_and, BitVec.signExtend_or, BitVec.signExtend_xor]
    · exact ⟨rfl, rfl, rfl⟩
    · exact ⟨rfl, rfl, rfl⟩
  rwa [hx, hy] at hword

end Ty

/-! ## Operators that stay in range -/

/-- A remainder lies between zero and the dividend. -/
theorem tmod_between (a b : Int) : (0 ≤ a.tmod b ∧ a.tmod b ≤ a) ∨ (a ≤ a.tmod b ∧ a.tmod b ≤ 0) := by
  have hnat : ∀ n m : Nat, 0 ≤ (n : Int).tmod m ∧ (n : Int).tmod m ≤ n := by
    intro n m
    rw [← Int.ofNat_tmod]
    have hle := Nat.mod_le n m
    omega
  have habs := hnat a.natAbs b.natAbs
  have hsign : a.tmod b = a.tmod b.natAbs := by
    rcases Int.natAbs_eq b with hb | hb <;> rw [hb]
    · simp
    · simp
  rw [hsign]
  rcases Int.natAbs_eq a with ha | ha
  · rw [← ha] at habs
    exact .inl habs
  · rw [ha, Int.neg_tmod]
    omega

theorem Ty.InRange.srem {ty : Ty} {x : Word} (h : ty.InRange x) (y : Word) : ty.InRange (x.srem y) := by
  refine h.between ?_
  rw [BitVec.toInt_srem]
  exact tmod_between _ _

theorem Ty.InRange.sshiftRight {ty : Ty} {x : Word} (h : ty.InRange x) (n : Nat) : ty.InRange (x.sshiftRight n) := by
  refine h.between ?_
  rw [BitVec.toInt_sshiftRight]
  rcases Int.le_total 0 x.toInt with hx | hx
  · exact .inl ⟨Int.le_shiftRight_of_nonneg hx, Int.shiftRight_le_of_nonneg hx⟩
  · exact .inr ⟨Int.le_shiftRight_of_nonpos hx, Int.shiftRight_le_of_nonpos hx⟩

/-- A quotient of numbers that are not negative is at most the dividend. -/
theorem Ty.inRange_sdiv {x y : Word} (hx : char.InRange x) (hy : char.InRange y) : char.InRange (x.sdiv y) := by
  refine hx.between (.inl ?_)
  have hdiv : (x.sdiv y).toInt = x.toInt.tdiv y.toInt := by
    refine BitVec.toInt_sdiv_of_ne_or_ne x y (.inl ?_)
    rintro rfl
    exact absurd hx.1 (by decide)
  rw [hdiv]
  exact ⟨Int.tdiv_nonneg hx.1 hy.1, Int.tdiv_le_self _ hx.1⟩

/-! ## Expressions that stay in range -/

/-- Whether an operator gives a value of type `ty`, if the operands are values of their types as far as `left` and `right`
say. Sums, differences, products and shifts to the left may leave the range; so may the quotient of two `int`s. -/
def BinaryOp.settles (op : BinaryOp) (ty : Ty) (left right : Bool) : Bool :=
  match op with
  | .eq | .ne | .lt | .le | .gt | .ge => true
  | .assign => right
  | .bitAnd | .bitOr | .bitXor => left && right
  | .mod | .shr => left
  | .div => ty == .char && left && right
  | .add | .sub | .mul | .shl => false

/-- Nothing in the expression that its value depends on leaves the range of its type. Eight bytes hold every word. -/
def Expr.settled : Expr → Bool
  | .unary info .negate operand => info.ty.size == 8 || (operand.ty == .char && operand.settled)
  | .binary info op left right => info.ty.size == 8 || op.settles info.ty left.settled right.settled
  | .convert info _ operand => info.ty.size == 8 || operand.settled
  | _ => true

section Settled

variable {Ω : Type} {w : World Ω} {e : Expr} {σ σ' : Store Ω} {v : Word}

/-- Operators other than assignment. -/
theorem BinaryOp.settles_apply {op : BinaryOp} {operand ty : Ty} {left right : Bool} {x y : Word}
    (hsettles : op.settles ty left right = true) (operator : op ≠ .assign)
    (hty : ty = if op.isComparison then .int else operand) (hleft : left = true → operand.InRange x)
    (hright : right = true → operand.InRange y) (happly : op.apply x y = some v) : ty.InRange v := by
  cases op with
  | assign => exact absurd rfl operator
  | eq | ne | lt | le | gt | ge =>
    cases happly
    exact Ty.inRange_truth _ (by rw [show ty = .int from hty]; decide)
  | add | sub | mul | shl => cases hsettles
  | bitAnd | bitOr | bitXor =>
    obtain ⟨hl, hr⟩ := Bool.and_eq_true_iff.1 hsettles
    obtain ⟨hand, hor, hxor⟩ := (hleft hl).bitwise (hright hr)
    cases happly
    rw [hty]
    first | exact hand | exact hor | exact hxor
  | mod =>
    simp only [apply] at happly
    split at happly
    · cases happly
    · cases happly
      rw [hty]
      exact (hleft hsettles).srem y
  | shr =>
    cases happly
    rw [hty]
    exact (hleft hsettles).sshiftRight _
  | div =>
    obtain ⟨hl, hr⟩ := Bool.and_eq_true_iff.1 hsettles
    obtain ⟨hchar, hl⟩ := Bool.and_eq_true_iff.1 hl
    have hchar : ty = .char := eq_of_beq hchar
    have hoperand : operand = .char := (show ty = operand from hty).symm.trans hchar
    rw [hoperand] at hleft hright
    simp only [apply] at happly
    split at happly
    · cases happly
    · cases happly
      rw [hchar]
      exact Ty.inRange_sdiv (hleft hl) (hright hr)

/-- **Values in range.** The value of an expression that fits and is settled is in the range of its type. -/
theorem Typed.inRange (h : Typed w.symbols w.function e)
    (harrays : ∀ name scope s, w.symbols.scoped? w.function name scope = some s → s.ArrayOk) (hsettled : e.settled = true)
    (heval : w.eval e σ = some (v, σ')) : e.ty.InRange v := by
  induction h generalizing σ v σ' with
  | @ident info name scope s names =>
    obtain ⟨a, -, rfl, -⟩ := World.eval_ident heval
    by_cases harray : s.kind = .array
    · -- The type of an array is a pointer.
      obtain ⟨-, base, -, hbase⟩ := harrays name scope s names.found harray
      show info.ty.InRange _
      rw [names.ty, hbase]
      trivial
    · have hscalar : w.isArray name scope = false := by
        rw [isArray_of_denotes names]
        exact beq_false_of_ne harray
      rw [hscalar, if_neg Bool.false_ne_true]
      exact Ty.inRange_load ..
  | @number info value ty =>
    cases heval
    show info.ty.InRange _
    rw [ty]
    exact Ty.inRange_literal value
  | @string info label bytes ty =>
    show info.ty.InRange _
    rw [ty]
    trivial
  | @addressOf info operand name scope s names ty =>
    show info.ty.InRange _
    split at ty
    · next harray =>
      obtain ⟨-, base, -, hbase⟩ := harrays name scope s names.found harray
      rw [ty, names.ty, hbase]
      trivial
    · exact Ty.inRange_of_size (Ty.size_of_pointerTo ty)
  | @step info operand moment direction name scope s names scalar sized ty =>
    obtain ⟨a, m, -, -, rfl, -⟩ := World.eval_step heval
    show info.ty.InRange _
    rw [ty]
    cases moment <;> exact Ty.inRange_load ..
  | deref typed ty nonvoid =>
    obtain ⟨a, -, -, rfl⟩ := World.eval_deref heval
    exact Ty.inRange_load ..
  | @negate info operand typed integer ty ih =>
    simp only [Expr.settled, Bool.or_eq_true, Bool.and_eq_true, beq_iff_eq] at hsettled
    rcases hsettled with hsize | ⟨hchar, hoperand⟩
    · exact Ty.inRange_of_size hsize
    obtain ⟨x, hx, rfl⟩ := World.eval_negate heval
    have hrange := ih hoperand hx
    show info.ty.InRange _
    rw [ty, if_pos hchar]
    rw [hchar] at hrange
    simp only [Ty.InRange] at hrange ⊢
    rw [BitVec.toInt_neg, Int.bmod_eq_of_le (by omega) (by omega)]
    omega
  | @not info operand typed nonvoid ty =>
    obtain ⟨x, -, rfl⟩ := World.eval_not heval
    exact Ty.inRange_truth _ (by rw [show Expr.ty _ = info.ty from rfl, ty]; decide)
  | @assignName info left name scope s right names scalar marked typed same ty ih =>
    simp only [Expr.settled, BinaryOp.settles, Bool.or_eq_true, beq_iff_eq] at hsettled
    rcases hsettled with hsize | hright
    · exact Ty.inRange_of_size hsize
    obtain ⟨σ₁, a, hvalue, -⟩ := World.eval_assignName heval
    have hrange := ih hright hvalue
    rwa [same, ← ty] at hrange
  | @assignAt info left address right pointer pointee nonvoid marked typed same ty ihAddress ih =>
    simp only [Expr.settled, BinaryOp.settles, Bool.or_eq_true, beq_iff_eq] at hsettled
    rcases hsettled with hsize | hright
    · exact Ty.inRange_of_size hsize
    obtain ⟨σ₁, a, σ₂, hvalue, -⟩ := World.eval_assignAt heval
    have hrange := ih hright hvalue
    rwa [same, ← ty] at hrange
  | arithmetic operator typedLeft typedRight same nonvoid pointers ty ihLeft ihRight =>
    obtain ⟨x, σ₁, y, hx, hy, happly⟩ := World.eval_arithmetic operator heval
    simp only [Expr.settled, Bool.or_eq_true, beq_iff_eq] at hsettled
    rcases hsettled with hsize | hsettles
    · exact Ty.inRange_of_size hsize
    rw [← same] at ihRight
    exact BinaryOp.settles_apply hsettles operator ty (fun h => ihLeft h hx) (fun h => ihRight h hy) happly
  | @widen info operand typed integer wider ih =>
    simp only [Expr.settled, Bool.or_eq_true, beq_iff_eq] at hsettled
    rcases hsettled with hsize | hoperand
    · exact Ty.inRange_of_size hsize
    rw [World.eval] at heval
    rcases wider with ⟨-, hlt⟩ | hpointer
    · exact (ih hoperand heval).wider integer (Nat.le_of_lt hlt)
    · show info.ty.InRange _
      rw [hpointer]
      trivial
  | @scale info factor base operand typed integer ty =>
    show info.ty.InRange _
    rw [ty]
    trivial
  | call =>
    obtain ⟨vs, σ₁, x, -, -, rfl⟩ := World.eval_call heval
    exact Ty.inRange_word ..

end Settled

/-! ## Stores -/

/-- The code of an assignment up to the store: the value of `right` is left in `r`, to be written to `place`. -/
inductive AssignCode (t : SymbolTable) (f : String) (pool : RegisterPool) (pushed : Nat) (right : Expr) (r : Scratch) :
    Expr → List Instr → Location → Prop where
  | name {info : Info} {name : String} {scope : Scope} {place : Location} {code : List Instr}
      (placed : t.place? f name scope = some place) (value : Code t f pool pushed (.value right) (some r) code) :
      AssignCode t f pool pushed right r (.ident info name scope) code place
  | pointed {info : Info} {address : Expr} {p : Scratch} {code code' : List Instr}
      (value : Code t f pool pushed (.value right) (some r) code)
      (pointer : Code t f (pool.set true r) pushed (.value address) (some p) code') :
      AssignCode t f pool pushed right r (.unary info .deref address) (code ++ code') (.pointed p.reg)

section Stores

variable {t : SymbolTable} {f : String} {pool : RegisterPool} {pushed : Nat} {info : Info} {left right : Expr}
  {r? : Option Scratch} {code : List Instr}

/-- An assignment ends with its store. -/
theorem Code.assigns (h : Code t f pool pushed (.value (.binary info .assign left right)) r? code) :
    ∃ r before place, r? = some r ∧ AssignCode t f pool pushed right r left before place ∧
      code = before ++ [.store left.ty.width r.reg place] := by
  cases h with
  | assignName names scalar placed value => exact ⟨_, _, _, rfl, .name placed value, rfl⟩
  | assignAt value pointer => exact ⟨_, _, _, rfl, .pointed value pointer, (List.append_assoc ..).symm⟩
  | arithmetic operator => exact absurd rfl operator

variable {Ω : Type} {link : Linkage} {callees : Callees Ω} {s s' : Machine Ω}

/-- A load right after a store gives the word of the register, cut down to the type. -/
theorem load_after_store (ty : Ty) (r q : Reg) {place : Location}
    (h : run link callees (code ++ [.store ty.width r place]) s = some s') :
    run link callees [.load ty.width place q] s' = some (s'.set q (ty.word (s'.regs r))) := by
  rw [run_append] at h
  obtain ⟨s₁, -, h⟩ := Option.bind_eq_some_iff.1 h
  cases h
  have haddress : place.address link (s₁.write (place.address link s₁) ty.width.bytes (s₁.regs r)) =
      place.address link s₁ := by cases place <;> rfl
  have hextend : ty.width.extend (ty.width.low (s₁.regs r)) = ty.word (s₁.regs r) := by
    rw [← Ty.extend_width]
    cases ty.width <;> simp [Width.extend, Width.low]
  rw [run, Instr.exec, haddress, Machine.read, Machine.memory_write, Memory.read_write, hextend]
  rfl

end Stores

/-! ## The theorem -/

section Accepted

variable {earlier : List String} {source : String} {program : Program} {context : Context} {f : String} {body : Stmt}
  {info : Info} {left right : Expr} {st st' : Lower.State} {r? : Option Scratch}

/-- Every array that a body can name has elements of a type with values. -/
theorem Context.Sound.arrayOk {c : Context} (hc : c.Sound) {name : String} {scope : Scope} {s : Symbol}
    (hs : c.symbols.scoped? f name scope = some s) : s.ArrayOk := by
  have hlocal : c.symbols.local? f name = some s → s.ArrayOk := fun hs => by
    obtain ⟨symbols, hsome, hmem⟩ := SymbolTable.mem_members (SymbolTable.mem_of_local? hs)
    exact ((hc.namespaces f symbols hsome).members s hmem).array
  cases scope with
  | global => exact (hc.globals name s hs).array
  | «local» | parameter => exact hlocal hs

/-- **The value of an assignment.** Take an assignment in a body, the frame of its function laid out, any registers live
and any values pushed. Its code leaves the value of the right side in a register and ends with a store of it. On every
machine, what a load of the target gives right after that store is the register's word cut down to the type of the target,
which is the register's word exactly if that is in the range of the type. It is, whenever the assignment has a value and
nothing in its right side can leave the range of its type. -/
theorem assigned_value
    (hparse : parseSource source (buildSources earlier {}).2 = .ok program context) (hf : .function f body ∈ program)
    (he : body.Contains (.binary info .assign left right)) (laid : List String)
    (hst : st.context.symbols = (Frame.layout (Frame.layouts context.symbols laid) f).1) (hfunction : st.function = some f)
    (hlower : Lower.expr (.binary info .assign left right) st = .ok r? st') :
    ∃ r code place, r? = some r ∧ AssignCode st.context.symbols f st.pool st.pushed right r left code place ∧
      st'.lines.toList = st.lines.toList ++ instrLines (code ++ [.store left.ty.width r.reg place]) ∧
      (∀ {Ω : Type} (link : Linkage) (callees : Callees Ω) (s s₁ : Machine Ω) (q : Reg),
        run link callees (code ++ [.store left.ty.width r.reg place]) s = some s₁ →
        ∃ s₂, run link callees [.load left.ty.width place q] s₁ = some s₂ ∧
          s₂.regs q = left.ty.word (s₁.regs r.reg) ∧
          (s₂.regs q = s₁.regs r.reg ↔ left.ty.InRange (s₁.regs r.reg))) ∧
      (right.settled = true → ∀ {Ω : Type} (w : World Ω) (σ σ' : Store Ω) (v : Word),
        w.symbols = st.context.symbols → w.function = f →
        w.eval (.binary info .assign left right) σ = some (v, σ') → left.ty.InRange v) := by
  have hread := ends_of_ok (parseSource_read source (sound_session earlier)) hparse
  obtain ⟨hready, htyped⟩ := function_ready hparse hf laid hst hfunction
  have htyped : Typed st.context.symbols f (.binary info .assign left right) := htyped.contained he
  obtain ⟨⟨code, hcode, hemits⟩, -⟩ := ends_of_ok (Lower.expr_emits htyped st hready) hlower
  obtain ⟨r, before, place, rfl, hassigns, rfl⟩ := hcode.assigns
  refine ⟨r, before, place, rfl, hassigns, hemits.lines, fun link callees s s₁ q hrun => ?_, ?_⟩
  · refine ⟨_, load_after_store left.ty r.reg q hrun, if_pos rfl, ?_⟩
    rw [Machine.regs_set, if_pos rfl]
    exact left.ty.word_eq_self_iff _
  · intro hsettled Ω w σ σ' v hsymbols hname heval
    subst hname
    rw [← hsymbols] at htyped
    have hty : (Expr.binary info .assign left right).ty = left.ty := by
      cases htyped with
      | assignName _ _ _ _ _ ty | assignAt _ _ _ _ _ _ ty => exact ty
      | arithmetic operator => exact absurd rfl operator
    rw [← hty]
    refine htyped.inRange (fun name scope symbol hsymbol => ?_) ?_ heval
    · rw [hsymbols, hst] at hsymbol
      exact ((hread.sound.layouts laid).layout w.function).arrayOk hsymbol
    · rw [Expr.settled, BinaryOp.settles, hsettled, Bool.or_true]

/-! ### A masked value behind a pointer -/

/-- The first statement of `f` is an assignment that can be lowered, and nothing in it leaves the range of its type. -/
def masks : EStateM.Result Fault Context Program → Bool
  | .ok [.function name (.block [.expr (.binary info .assign left right), _])] context =>
    name == "f" && (ended (Lower.expr (.binary info .assign left right) (bodyState context "f"))).isSome && right.settled
  | _ => false

theorem masks_cases {result : EStateM.Result Fault Context Program} (h : masks result = true) :
    ∃ info left right last context r? st',
      result = .ok [.function "f" (.block [.expr (.binary info .assign left right), last])] context ∧
      Lower.expr (.binary info .assign left right) (bodyState context "f") = .ok r? st' ∧ right.settled = true := by
  unfold masks at h
  split at h
  · next name info left right last context =>
    simp only [Bool.and_eq_true, beq_iff_eq] at h
    obtain ⟨⟨rfl, hlower⟩, hsettled⟩ := h
    obtain ⟨r?, st', hok⟩ := exists_of_ended hlower
    exact ⟨info, left, right, last, context, r?, st', rfl, hok, hsettled⟩
  · cases h

theorem assigned_value_masked :
    ∃ program context info left right r st' code place,
      parseSource "func f(char *p, char c) -> char \x7b *p = c & 15; return *p; \x7d" (buildSources [] {}).2 =
        .ok program context ∧
      Lower.expr (.binary info .assign left right) (bodyState context "f") = .ok (some r) st' ∧
      st'.lines.toList = instrLines (code ++ [.store left.ty.width r.reg place]) ∧
      (∀ (s s₁ : Machine Unit) (q : Reg),
        run ⟨fun _ => 0, fun _ => 0⟩ (fun _ _ => none) (code ++ [.store left.ty.width r.reg place]) s = some s₁ →
        ∃ s₂, run ⟨fun _ => 0, fun _ => 0⟩ (fun _ _ => none) [.load left.ty.width place q] s₁ = some s₂ ∧
          s₂.regs q = left.ty.word (s₁.regs r.reg)) ∧
      ∀ (w : World Unit) (σ σ' : Store Unit) (v : Word), w.symbols = (Frame.layout context.symbols "f").1 →
        w.function = "f" → w.eval (.binary info .assign left right) σ = some (v, σ') → left.ty.InRange v := by
  have hchecked : masks (parseSource "func f(char *p, char c) -> char \x7b *p = c & 15; return *p; \x7d"
      (buildSources [] {}).2) = true := by decide +kernel
  obtain ⟨info, left, right, last, context, r?, st', hparse, hok, hsettled⟩ := masks_cases hchecked
  have hin : Stmt.Contains (.binary info .assign left right) (.block [.expr (.binary info .assign left right), last]) :=
    .block List.mem_cons_self (.expr (.self rfl))
  obtain ⟨r, code, place, rfl, -, hlines, hload, hrange⟩ :=
    assigned_value hparse (List.mem_singleton_self _) hin [] rfl rfl hok
  refine ⟨_, context, info, left, right, r, st', code, place, hparse, hok, hlines, fun s s₁ q hrun => ?_, hrange hsettled⟩
  obtain ⟨s₂, hrun₂, hvalue, -⟩ := hload _ _ s s₁ q hrun
  exact ⟨s₂, hrun₂, hvalue⟩

/-! ### A sum of `char`s that is none -/

/-- Assigns 200 + 100 to a `char`, and the value of that assignment to a `long`. -/
def overflowingSource : String := "func main() -> long \x7b var char c; var long x; x = c = 200 + 100; return x; \x7d"

/-- The code of the assignment to the `char`. -/
def overflowingCode : List Instr :=
  [.movImm 200 .r10, .movImm 100 .r11, .alu .add .r10 .r11, .store .byte .r11 (.frame (-4))]

/-- The right side of the third statement of `main` is an assignment to a `char`, and this is its code. -/
def overflows : EStateM.Result Fault Context Program → Bool
  | .ok [.function name (.block [_, _, .expr (.binary _ .assign _ (.convert _ .widen (.binary info .assign left right))),
      _])] context =>
    name == "main" && left.ty == .char &&
      (ended (Lower.expr (.binary info .assign left right) (bodyState context "main"))).any fun (r?, st') =>
        r? == some .r11 && st'.lines.toList == instrLines overflowingCode
  | _ => false

theorem overflows_cases {result : EStateM.Result Fault Context Program} (h : overflows result = true) :
    ∃ context body info left right st', result = .ok [.function "main" body] context ∧
      body.Contains (.binary info .assign left right) ∧ left.ty = .char ∧
      Lower.expr (.binary info .assign left right) (bodyState context "main") = .ok (some .r11) st' ∧
      st'.lines.toList = instrLines overflowingCode := by
  unfold overflows at h
  split at h
  · next name first second outer target change info left right last context =>
    simp only [Bool.and_eq_true, beq_iff_eq, Option.any_eq_true] at h
    obtain ⟨⟨rfl, hchar⟩, ⟨r?, st'⟩, hended, rfl, hlines⟩ := h
    refine ⟨context, _, info, left, right, st', rfl, ?_, hchar, eq_ok_of_ended hended, hlines⟩
    exact .block (List.mem_cons_of_mem _ (List.mem_cons_of_mem _ List.mem_cons_self))
      (.expr (.right (.converted (.self rfl))))
  · cases h

/-- A machine with its frame pointer at `0x8000` and zeros everywhere else. -/
def idleMachine : Machine Unit where
  regs r := if r = .rbp then 0x8000 else 0
  store := { memory := fun _ => 0, outside := () }
  flags := none

/-- The value of an assignment is not always what was stored: the register holds 300, and the `char` is 44. -/
theorem assigned_value_overflows :
    ∃ program context body info left right st' s₁ s₂,
      parseSource overflowingSource {} = .ok program context ∧ .function "main" body ∈ program ∧
      body.Contains (.binary info .assign left right) ∧ left.ty = .char ∧
      Lower.expr (.binary info .assign left right) (bodyState context "main") = .ok (some .r11) st' ∧
      st'.lines.toList = instrLines overflowingCode ∧
      run ⟨fun _ => 0, fun _ => 0⟩ (fun _ _ => none) overflowingCode idleMachine = some s₁ ∧
      run ⟨fun _ => 0, fun _ => 0⟩ (fun _ _ => none) [.load .byte (.frame (-4)) .rax] s₁ = some s₂ ∧
      s₁.regs .r11 = 300 ∧ s₂.regs .rax = 44 := by
  have hchecked : overflows (parseSource overflowingSource {}) = true := by decide +kernel
  obtain ⟨context, body, info, left, right, st', hparse, hin, hchar, hlower, hlines⟩ := overflows_cases hchecked
  exact ⟨_, context, body, info, left, right, st', _, _, hparse, List.mem_singleton_self _, hin, hchar, hlower, hlines,
    rfl, rfl, by decide +kernel, by decide +kernel⟩

end Accepted

end MiniC
