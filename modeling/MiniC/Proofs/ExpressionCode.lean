import MiniC.Lower.Code
import MiniC.Proofs.Typed

/-!
# The code of expressions

`Code t f pool pushed task r? code` says which instructions do a task in the body of `f`, when the registers of `pool`
are live and `pushed` values are on the stack: code that leaves the value of an expression in the register `r?`, or code
that pushes the values of arguments. It forgets lines, faults and the listing, and it leaves open which of the free
registers is taken.

* `Lower.expr_emits`: an expression that fits is lowered to such code, unless the registers run out. Nothing else can go
  wrong: every place is known, every operand has a value, every register that is given back holds one.
* `Code.fresh`: the value is left in a register that was free.
-/

namespace MiniC

/-! ## Shapes of code -/

/-- What a piece of straight code is for. -/
inductive Task where
  /-- Leave the value of an expression in a register. -/
  | value (e : Expr)
  /-- Push the values of arguments, the first one first. -/
  | push (args : List Expr)

/-- Where a name of the given scope is stored when `f` runs. -/
def SymbolTable.place? (t : SymbolTable) (f name : String) : Scope → Option Location
  | .global => some (.global name)
  | _ => ((t.local? f name).bind (·.position)).map .frame

/-- The pool when a value is held. -/
def RegisterPool.holding (pool : RegisterPool) : Option Scratch → RegisterPool
  | none => pool
  | some r => pool.set true r

/-- Instructions that multiply a register by a constant. -/
def scaling (factor : Int) (r : Reg) : List Instr :=
  match factor with
  | 1 => []
  | 2 => [.shiftImm 1 r]
  | 4 => [.shiftImm 2 r]
  | 8 => [.shiftImm 3 r]
  | _ => [.aluImm .imul factor r]

/-- The register that an operator leaves its value in, given those of its operands. -/
def BinaryOp.result (op : BinaryOp) (left right : Scratch) : Scratch :=
  match op with
  | .add | .mul | .bitAnd | .bitOr | .bitXor | .assign => right
  | _ => left

/-- Instructions that apply an operator to two registers. -/
def BinaryOp.instrs (op : BinaryOp) (left right : Reg) : List Instr :=
  match op with
  | .eq => comparing .eq
  | .ne => comparing .ne
  | .lt => comparing .lt
  | .le => comparing .le
  | .gt => comparing .gt
  | .ge => comparing .ge
  | .add => [.alu .add left right]
  | .mul => [.alu .imul left right]
  | .bitAnd => [.alu .and left right]
  | .bitOr => [.alu .or left right]
  | .bitXor => [.alu .xor left right]
  | .sub => [.alu .sub right left]
  | .div => [.mov left .rax, .cqo, .idiv right, .mov .rax left]
  | .mod => [.mov left .rax, .cqo, .idiv right, .mov .rdx left]
  | .shl => [.mov right .rcx, .shift .left left]
  | .shr => [.mov right .rcx, .shift .right left]
  | .assign => []
where
  comparing (cond : Cond) : List Instr := [.cmp right left, .set cond left, .zeroExtend left left]

/-- A call when `pushed` values are on the stack, which is padded to a multiple of sixteen bytes. -/
def padded (pushed : Nat) (name : String) : List Instr :=
  if pushed % 2 = 1 then [.aluImm .sub 8 .rsp, .call name, .aluImm .add 8 .rsp] else [.call name]

/-- Instructions that take the value a function returned out of `rax`. -/
def taking (ty : Ty) : Option Scratch → List Instr
  | none => []
  | some r => [.widen ty.width .rax r.reg]

/-- `code` does `task` in the body of `f` and leaves the value in `r?`. -/
inductive Code (t : SymbolTable) (f : String) : RegisterPool → Nat → Task → Option Scratch → List Instr → Prop where
  | number {pool : RegisterPool} {pushed : Nat} {info : Info} {value : Int} {r : Scratch}
      (free : pool.isLive r = false) : Code t f pool pushed (.value (.number info value)) (some r) [.movImm value r.reg]
  | string {pool : RegisterPool} {pushed : Nat} {info : Info} {label : Nat} {bytes : List UInt8} {r : Scratch}
      (free : pool.isLive r = false) :
      Code t f pool pushed (.value (.string info label bytes)) (some r) [.lea (.literal label) r.reg]
  | array {pool : RegisterPool} {pushed : Nat} {info : Info} {name : String} {scope : Scope} {s : Symbol}
      {place : Location} {r : Scratch} (names : Denotes t f name scope info.ty s) (array : s.kind = .array)
      (placed : t.place? f name scope = some place) (free : pool.isLive r = false) :
      Code t f pool pushed (.value (.ident info name scope)) (some r) [.lea place r.reg]
  | scalar {pool : RegisterPool} {pushed : Nat} {info : Info} {name : String} {scope : Scope} {s : Symbol}
      {place : Location} {r : Scratch} (names : Denotes t f name scope info.ty s) (scalar : s.kind = .variable)
      (placed : t.place? f name scope = some place) (free : pool.isLive r = false) :
      Code t f pool pushed (.value (.ident info name scope)) (some r) [.load info.ty.width place r.reg]
  | addressOf {pool : RegisterPool} {pushed : Nat} {info operand : Info} {name : String} {scope : Scope}
      {place : Location} {r : Scratch} (placed : t.place? f name scope = some place) (free : pool.isLive r = false) :
      Code t f pool pushed (.value (.unary info .addressOf (.ident operand name scope))) (some r) [.lea place r.reg]
  | stepBefore {pool : RegisterPool} {pushed : Nat} {info operand : Info} {direction : Direction} {name : String}
      {scope : Scope} {s : Symbol} {place : Location} {r : Scratch} (names : Denotes t f name scope operand.ty s)
      (scalar : s.kind = .variable) (placed : t.place? f name scope = some place) (free : pool.isLive r = false) :
      Code t f pool pushed (.value (.unary info (.step .before direction) (.ident operand name scope))) (some r)
        [.update direction operand.ty.width operand.ty.stride place, .load operand.ty.width place r.reg]
  | stepAfter {pool : RegisterPool} {pushed : Nat} {info operand : Info} {direction : Direction} {name : String}
      {scope : Scope} {s : Symbol} {place : Location} {r : Scratch} (names : Denotes t f name scope operand.ty s)
      (scalar : s.kind = .variable) (placed : t.place? f name scope = some place) (free : pool.isLive r = false) :
      Code t f pool pushed (.value (.unary info (.step .after direction) (.ident operand name scope))) (some r)
        [.load operand.ty.width place r.reg, .update direction operand.ty.width operand.ty.stride place]
  | deref {pool : RegisterPool} {pushed : Nat} {info : Info} {operand : Expr} {r : Scratch} {code : List Instr}
      (address : Code t f pool pushed (.value operand) (some r) code) :
      Code t f pool pushed (.value (.unary info .deref operand)) (some r)
        (code ++ [.load info.ty.width (.pointed r.reg) r.reg])
  | negate {pool : RegisterPool} {pushed : Nat} {info : Info} {operand : Expr} {r : Scratch} {code : List Instr}
      (value : Code t f pool pushed (.value operand) (some r) code) :
      Code t f pool pushed (.value (.unary info .negate operand)) (some r) (code ++ [.neg r.reg])
  | not {pool : RegisterPool} {pushed : Nat} {info : Info} {operand : Expr} {r : Scratch} {code : List Instr}
      (value : Code t f pool pushed (.value operand) (some r) code) :
      Code t f pool pushed (.value (.unary info .not operand)) (some r)
        (code ++ [.cmpZero r.reg, .set .eq r.reg, .zeroExtend r.reg r.reg])
  | widen {pool : RegisterPool} {pushed : Nat} {info : Info} {operand : Expr} {r : Scratch} {code : List Instr}
      (value : Code t f pool pushed (.value operand) (some r) code) :
      Code t f pool pushed (.value (.convert info .widen operand)) (some r) code
  | scale {pool : RegisterPool} {pushed : Nat} {info : Info} {factor : Int} {operand : Expr} {r : Scratch}
      {code : List Instr} (value : Code t f pool pushed (.value operand) (some r) code) :
      Code t f pool pushed (.value (.convert info (.scale factor) operand)) (some r) (code ++ scaling factor r.reg)
  | assignName {pool : RegisterPool} {pushed : Nat} {info left : Info} {name : String} {scope : Scope} {s : Symbol}
      {right : Expr} {place : Location} {r : Scratch} {code : List Instr} (names : Denotes t f name scope left.ty s)
      (scalar : s.kind = .variable) (placed : t.place? f name scope = some place)
      (value : Code t f pool pushed (.value right) (some r) code) :
      Code t f pool pushed (.value (.binary info .assign (.ident left name scope) right)) (some r)
        (code ++ [.store left.ty.width r.reg place])
  /-- The value comes before the address. -/
  | assignAt {pool : RegisterPool} {pushed : Nat} {info left : Info} {address right : Expr} {r p : Scratch}
      {code code' : List Instr} (value : Code t f pool pushed (.value right) (some r) code)
      (pointer : Code t f (pool.set true r) pushed (.value address) (some p) code') :
      Code t f pool pushed (.value (.binary info .assign (.unary left .deref address) right)) (some r)
        (code ++ (code' ++ [.store left.ty.width r.reg (.pointed p.reg)]))
  | arithmetic {pool : RegisterPool} {pushed : Nat} {info : Info} {op : BinaryOp} {left right : Expr} {l r : Scratch}
      {code code' : List Instr} (operator : op ≠ .assign) (first : Code t f pool pushed (.value left) (some l) code)
      (second : Code t f (pool.set true l) pushed (.value right) (some r) code') :
      Code t f pool pushed (.value (.binary info op left right)) (some (op.result l r))
        (code ++ (code' ++ op.instrs l.reg r.reg))
  /-- The live registers are saved around a call. -/
  | call {pool : RegisterPool} {pushed : Nat} {info : Info} {name : String} {args : List Expr} {r? : Option Scratch}
      {code : List Instr} (limit : args.length ≤ Typing.maxParams)
      (values : Code t f pool (pushed + pool.live.length) (.push args) none code)
      (free : ∀ r, r? = some r → pool.isLive r = false) :
      Code t f pool pushed (.value (.call info name args)) r?
        (pool.live.map (.push ·.reg) ++ (code ++ ((Reg.arguments.take args.length).reverse.map .pop ++
          (padded (pushed + pool.live.length) name ++ (pool.live.reverse.map (.pop ·.reg) ++ taking info.ty r?)))))
  | pushNone {pool : RegisterPool} {pushed : Nat} : Code t f pool pushed (.push []) none []
  | pushMore {pool : RegisterPool} {pushed : Nat} {arg : Expr} {args : List Expr} {r : Scratch}
      {code code' : List Instr} (value : Code t f pool pushed (.value arg) (some r) code)
      (rest : Code t f pool (pushed + 1) (.push args) none code') :
      Code t f pool pushed (.push (arg :: args)) none (code ++ (.push r.reg :: code'))

/-- A value is left in a register that was free. -/
theorem Code.fresh {t : SymbolTable} {f : String} {pool : RegisterPool} {pushed : Nat} {task : Task} {r? : Option Scratch}
    {code : List Instr} (h : Code t f pool pushed task r? code) : ∀ r, r? = some r → pool.isLive r = false := by
  induction h with
  | number free | string free | array _ _ _ free | scalar _ _ _ free | addressOf _ free | stepBefore _ _ _ free
  | stepAfter _ _ _ free => rintro r ⟨⟩; exact free
  | deref _ ih | negate _ ih | not _ ih | widen _ ih | scale _ ih | assignName _ _ _ _ ih => exact ih
  | assignAt _ _ ih => exact ih
  | @arithmetic pool pushed info op left right l r code code' operator _ _ ihLeft ihRight =>
    rintro q ⟨⟩
    have hl := ihLeft l rfl
    have hr := ihRight r rfl
    rw [RegisterPool.isLive_set] at hr
    split at hr
    · cases hr
    · cases op <;> first | exact hl | exact hr
  | call _ _ free => exact free
  | pushNone => rintro r ⟨⟩
  | pushMore => rintro r ⟨⟩

/-! ## Pools -/

namespace RegisterPool

variable {pool : RegisterPool} {r q : Scratch}

@[ext] theorem ext_isLive {pool pool' : RegisterPool} (h : ∀ r, pool.isLive r = pool'.isLive r) : pool = pool' := by
  cases pool
  cases pool'
  simp only [mk.injEq]
  exact ⟨h .r10, h .r11, h .r12, h .r13⟩

/-- Giving back a register that was taken before another one. -/
theorem free_first (hr : pool.isLive r = false) (hq : (pool.set true r).isLive q = false) :
    ((pool.set true r).set true q).free r = pool.set true q := by
  ext x
  rw [isLive_set] at hq
  simp only [free, isLive_set]
  grind

/-- Giving back the register that was taken last. -/
theorem free_last (hr : pool.isLive r = false) : (pool.set true r).free r = pool := by
  ext x
  simp only [free, isLive_set]
  grind

end RegisterPool

namespace Lower

variable {t : SymbolTable} {f : String} {st st₁ st₂ : State} {code code' : List Instr} {pool pool' : RegisterPool}
  {pushed pushed' : Nat} {E : Fault → State → Prop}

/-! ## What lowering an expression does to the state -/

/-- Between `st` and `st'` the instructions `code` were appended; `pool` is live then and `pushed` values are pushed. -/
structure Emits (st : State) (code : List Instr) (pool : RegisterPool) (pushed : Nat) (st' : State) : Prop where
  context : st'.context = st.context
  function : st'.function = st.function
  segment : st'.segment = st.segment
  lines : st'.lines.toList = st.lines.toList ++ code.map .instr
  pool : st'.pool = pool
  pushed : st'.pushed = pushed

theorem Emits.refl (st : State) : Emits st [] st.pool st.pushed st := ⟨rfl, rfl, rfl, by simp, rfl, rfl⟩

theorem Emits.trans (h : Emits st code pool pushed st₁) (h' : Emits st₁ code' pool' pushed' st₂) :
    Emits st (code ++ code') pool' pushed' st₂ :=
  ⟨h'.context.trans h.context, h'.function.trans h.function, h'.segment.trans h.segment,
    by rw [h'.lines, h.lines, List.map_append, List.append_assoc], h'.pool, h'.pushed⟩

/-- The registers ran out; the context is still `c`. -/
def Exhausted (c : Context) (fault : Fault) (st : State) : Prop := (∃ line, fault = .outOfRegisters line) ∧ st.context = c

/-- The body of `f` is being lowered, with the symbols of `t`, and its frame has been laid out. -/
structure Ready (t : SymbolTable) (f : String) (st : State) : Prop where
  symbols : st.context.symbols = t
  function : st.function = some f
  placed : ∀ name s, t.local? f name = some s → ∃ position, s.position = some position

theorem Ready.after (hst : Ready t f st) (h : Emits st code pool pushed st₁) : Ready t f st₁ :=
  ⟨h.context ▸ hst.symbols, h.function.trans hst.function, hst.placed⟩

theorem Ready.symbol? (hst : Ready t f st) (name : String) (scope : Scope) :
    symbol? st name scope = t.scoped? f name scope := by
  cases scope <;> simp [Lower.symbol?, SymbolTable.scoped?, hst.symbols, hst.function]

/-! ## One lemma per operation -/

theorem emit_emits {i : Instr} (h : Emits st code pool pushed st₁) :
    Ends (emit i) st₁ (fun _ st' => Emits st (code ++ [i]) pool pushed st') E :=
  ⟨h.context, h.function, h.segment, by simp [h.lines], h.pool, h.pushed⟩

theorem emitAll_emits : ∀ {code : List Instr} (is : List Instr) {st₁ : State}, Emits st code pool pushed st₁ →
    Ends (is.forM emit) st₁ (fun _ st' => Emits st (code ++ is) pool pushed st') E
  | code, [], _, h => by rw [List.append_nil]; exact h
  | code, i :: is, st₁, h => by
    show Ends (emit i >>= fun _ => is.forM emit) st₁ _ E
    refine ends_bind (emit_emits h) fun _ st₂ h₂ => ?_
    have := emitAll_emits is h₂
    rwa [List.append_assoc] at this

theorem alloc_emits {line : Nat} (h : Emits st code pool pushed st₁) :
    Ends (alloc line) st₁ (fun r st' => pool.isLive r = false ∧ Emits st code (pool.set true r) pushed st')
      (Exhausted st.context) := by
  unfold alloc
  refine ends_get_bind ?_
  rw [h.pool]
  unfold RegisterPool.alloc RegisterPool.alloc?
  cases hfind : Scratch.all.find? (!pool.isLive ·) with
  | none => exact ⟨⟨line, rfl⟩, h.context⟩
  | some r => exact ⟨by simpa using List.find?_some hfind, h.context, h.function, h.segment, h.lines, rfl, h.pushed⟩

theorem free_emits {r : Scratch} (h : Emits st code pool pushed st₁) (hr : pool.isLive r = true) :
    Ends (free r) st₁ (fun _ st' => Emits st code (pool.free r) pushed st') E := by
  unfold free
  refine ends_get_bind ?_
  rw [h.pool, if_pos hr]
  exact ⟨h.context, h.function, h.segment, h.lines, congrArg (·.free r) h.pool, h.pushed⟩

theorem push_emits {r : Reg} (h : Emits st code pool pushed st₁) :
    Ends (push r) st₁ (fun _ st' => Emits st (code ++ [.push r]) pool (pushed + 1) st') E := by
  unfold push
  refine ends_bind (emit_emits h) fun _ st₂ h₂ => ?_
  exact ⟨h₂.context, h₂.function, h₂.segment, h₂.lines, h₂.pool, congrArg (· + 1) h₂.pushed⟩

theorem pop_emits {r : Reg} (h : Emits st code pool (pushed + 1) st₁) :
    Ends (pop r) st₁ (fun _ st' => Emits st (code ++ [.pop r]) pool pushed st') E := by
  unfold pop
  refine ends_bind (emit_emits h) fun _ st₂ h₂ => ends_get_bind ?_
  rw [h₂.pushed]
  exact ⟨h₂.context, h₂.function, h₂.segment, h₂.lines, h₂.pool, rfl⟩

theorem pushAll_emits : ∀ {code : List Instr} {pushed : Nat} (rs : List Scratch) {st₁ : State},
    Emits st code pool pushed st₁ →
    Ends (rs.forM fun r => push r.reg) st₁
      (fun _ st' => Emits st (code ++ rs.map (.push ·.reg)) pool (pushed + rs.length) st') E
  | code, pushed, [], _, h => by rw [List.map_nil, List.append_nil]; exact h
  | code, pushed, r :: rs, st₁, h => by
    show Ends (push r.reg >>= fun _ => rs.forM fun r => push r.reg) st₁ _ E
    refine ends_bind (push_emits h) fun _ st₂ h₂ => ?_
    have := pushAll_emits rs h₂
    rwa [List.append_assoc, Nat.add_assoc, Nat.add_comm 1] at this

theorem popAll_emits {α : Type} (reg : α → Reg) : ∀ {code : List Instr} (rs : List α) {st₁ : State},
    Emits st code pool (pushed + rs.length) st₁ →
    Ends (rs.forM fun r => pop (reg r)) st₁ (fun _ st' => Emits st (code ++ rs.map (.pop <| reg ·)) pool pushed st') E
  | code, [], _, h => by rw [List.map_nil, List.append_nil]; exact h
  | code, r :: rs, st₁, h => by
    show Ends (pop (reg r) >>= fun _ => rs.forM fun r => pop (reg r)) st₁ _ E
    rw [List.length_cons, ← Nat.add_assoc] at h
    refine ends_bind (pop_emits h) fun _ st₂ h₂ => ?_
    have := popAll_emits reg rs h₂
    rwa [List.append_assoc] at this

theorem location_emits {name : String} {scope : Scope} {ty : Ty} {s : Symbol} {line : Nat} (hst : Ready t f st₁)
    (hs : Denotes t f name scope ty s) :
    Ends (location name scope line) st₁ (fun place st' => t.place? f name scope = some place ∧ st₁ = st') E := by
  unfold location
  by_cases hglobal : scope = .global
  · subst hglobal
    exact ⟨rfl, rfl⟩
  · have hlocal : t.local? f name = some s := by
      cases scope with
      | global => exact absurd rfl hglobal
      | _ => exact hs.found
    -- The frame has been laid out, so a parameter or local has a position.
    obtain ⟨position, hp⟩ := hst.placed name s hlocal
    have hsymbol : (symbol? st₁ name scope).bind (·.position) = some position := by
      rw [hst.symbol?, hs.found]
      exact hp
    have hplace : t.place? f name scope = some (.frame position) := by
      cases scope with
      | global => exact absurd rfl hglobal
      | _ => simp only [SymbolTable.place?, Option.bind_some, hlocal, hp, Option.map_some]
    simp only [hglobal, ↓reduceIte]
    refine ends_get_bind ?_
    simp only [hsymbol]
    exact ⟨hplace, rfl⟩

/-! ## Expressions -/

/-- The code of `e` was appended and left its value in `r?`. -/
def Leaves (t : SymbolTable) (f : String) (e : Expr) (st : State) (r? : Option Scratch) (st' : State) : Prop :=
  ∃ code, Code t f st.pool st.pushed (.value e) r? code ∧ Emits st code (st.pool.holding r?) st.pushed st'

/-- In the body of `f`, lowering `e` appends its code or runs out of registers; only a `void` call leaves no value. -/
def EmitsValue (t : SymbolTable) (f : String) (e : Expr) : Prop :=
  ∀ st, Ready t f st →
    Ends (expr e) st (fun r? st' => Leaves t f e st r? st' ∧ (r? = none → e.ty = .void)) (Exhausted st.context)

variable {e : Expr}

/-- An expression whose code ends with a register. -/
theorem leaves_some {x : LowerM Scratch} (h : Ends x st₁ (fun r st' => Leaves t f e st (some r) st') E) :
    Ends (some <$> x) st₁ (fun r? st' => Leaves t f e st r? st' ∧ (r? = none → e.ty = .void)) E :=
  ends_map (ends_mono h (fun _ _ hr => ⟨hr, fun hnone => by cases hnone⟩) fun _ _ h => h)

/-- An operand with a value. -/
theorem value_emits {line : Nat} (he : EmitsValue t f e) (hv : e.ty ≠ .void) (hst : Ready t f st) :
    Ends (value line (expr e)) st (fun r st' => Leaves t f e st (some r) st') (Exhausted st.context) := by
  unfold value
  refine ends_bind (he st hst) fun r? st₁ h => ?_
  cases r? with
  | none => exact absurd (h.2 rfl) hv
  | some r => exact h.1

/-- An operand with a value, lowered after other code. -/
theorem value_emits_after {line : Nat} (he : EmitsValue t f e) (hv : e.ty ≠ .void) (hst : Ready t f st)
    (h : Emits st code pool pushed st₁) :
    Ends (value line (expr e)) st₁ (fun r st' => ∃ code', Code t f pool pushed (.value e) (some r) code' ∧
      Emits st (code ++ code') (pool.set true r) pushed st') (Exhausted st.context) := by
  have hvalue : Ends (value line (expr e)) st₁ _ _ := value_emits he hv (hst.after h)
  rw [h.context] at hvalue
  refine ends_mono hvalue (fun r st' hr => ?_) fun _ _ h => h
  obtain ⟨code', hcode, hemits⟩ := hr
  rw [h.pool, h.pushed] at hcode hemits
  exact ⟨code', hcode, h.trans hemits⟩

theorem nameCode_emits {info : Info} {name : String} {scope : Scope} {s : Symbol} (hst : Ready t f st)
    (hs : Denotes t f name scope info.ty s) :
    Ends (nameCode info name scope) st (fun r st' => Leaves t f (.ident info name scope) st (some r) st')
      (Exhausted st.context) := by
  unfold nameCode
  refine ends_bind (location_emits hst hs) ?_
  rintro place _ ⟨hplace, rfl⟩
  refine ends_bind (alloc_emits (.refl st)) ?_
  rintro r st₁ ⟨hfree, h₁⟩
  refine ends_get_bind ?_
  have hsymbol : symbol? st₁ name scope = some s := ((hst.after h₁).symbol? name scope).trans hs.found
  simp only [hsymbol, Option.any_some, Symbol.isArray]
  by_cases harray : s.kind = .array
  · simp only [harray, beq_self_eq_true, ↓reduceIte]
    exact ends_bind (emit_emits h₁) fun _ st₂ h₂ => ⟨_, .array hs harray hplace hfree, h₂⟩
  · simp only [beq_false_of_ne harray, Bool.false_eq_true, ↓reduceIte]
    exact ends_bind (emit_emits h₁) fun _ st₂ h₂ => ⟨_, .scalar hs (SymbolKind.eq_variable hs.value harray) hplace hfree, h₂⟩

theorem stepCode_emits {info operand : Info} {moment : Moment} {direction : Direction} {name : String} {scope : Scope}
    {s : Symbol} (hst : Ready t f st) (hs : Denotes t f name scope operand.ty s) (hscalar : s.kind = .variable) :
    Ends (stepCode info moment direction (.ident operand name scope)) st
      (fun r st' => Leaves t f (.unary info (.step moment direction) (.ident operand name scope)) st (some r) st')
      (Exhausted st.context) := by
  unfold stepCode
  refine ends_bind (location_emits hst hs) ?_
  rintro place _ ⟨hplace, rfl⟩
  refine ends_bind (alloc_emits (.refl st)) ?_
  rintro r st₁ ⟨hfree, h₁⟩
  cases moment with
  | before =>
    refine ends_bind (emit_emits h₁) fun _ st₂ h₂ => ends_bind (emit_emits h₂) fun _ st₃ h₃ => ?_
    exact ⟨_, .stepBefore hs hscalar hplace hfree, h₃⟩
  | after =>
    refine ends_bind (emit_emits h₁) fun _ st₂ h₂ => ends_bind (emit_emits h₂) fun _ st₃ h₃ => ?_
    exact ⟨_, .stepAfter hs hscalar hplace hfree, h₃⟩

theorem addressCode_emits {info operand : Info} {name : String} {scope : Scope} {s : Symbol} (hst : Ready t f st)
    (hs : Denotes t f name scope operand.ty s) :
    Ends (addressCode info (.ident operand name scope)) st
      (fun r st' => Leaves t f (.unary info .addressOf (.ident operand name scope)) st (some r) st')
      (Exhausted st.context) := by
  unfold addressCode
  refine ends_bind (location_emits hst hs) ?_
  rintro place _ ⟨hplace, rfl⟩
  refine ends_bind (alloc_emits (.refl st)) ?_
  rintro r st₁ ⟨hfree, h₁⟩
  exact ends_bind (emit_emits h₁) fun _ st₂ h₂ => ⟨_, .addressOf hplace hfree, h₂⟩

theorem scaleCode_emits {factor : Int} {r : Scratch} (h : Emits st code pool pushed st₁) :
    Ends (scaleCode factor r) st₁ (fun _ st' => Emits st (code ++ scaling factor r.reg) pool pushed st') E := by
  have hcode : scaleCode factor r = (scaling factor r.reg).forM emit := by
    unfold scaleCode
    split
    case h_5 =>
      rw [scaling]
      · rfl
      all_goals assumption
    all_goals rfl
  rw [hcode]
  exact emitAll_emits _ h

theorem intoLeft_emits {is : List Instr} {l r : Scratch} (h : Emits st code ((pool.set true l).set true r) pushed st₁)
    (hr : (pool.set true l).isLive r = false) :
    Ends (intoLeft is l r) st₁ (fun q st' => q = l ∧ Emits st (code ++ is) (pool.set true l) pushed st') E := by
  unfold intoLeft
  refine ends_bind (emitAll_emits is h) fun _ st₂ h₂ => ?_
  refine ends_bind (free_emits h₂ (by simp)) fun _ st₃ h₃ => ?_
  rw [RegisterPool.free_last hr] at h₃
  exact ⟨rfl, h₃⟩

theorem intoRight_emits {op : AluOp} {l r : Scratch} (h : Emits st code ((pool.set true l).set true r) pushed st₁)
    (hl : pool.isLive l = false) (hr : (pool.set true l).isLive r = false) :
    Ends (intoRight op l r) st₁
      (fun q st' => q = r ∧ Emits st (code ++ [.alu op l.reg r.reg]) (pool.set true r) pushed st') E := by
  unfold intoRight
  refine ends_bind (emit_emits h) fun _ st₂ h₂ => ?_
  refine ends_bind (free_emits h₂ (by simp)) fun _ st₃ h₃ => ?_
  rw [RegisterPool.free_first hl hr] at h₃
  exact ⟨rfl, h₃⟩

theorem arithmetic_emits {op : BinaryOp} {l r : Scratch} (hop : op ≠ .assign)
    (h : Emits st code ((pool.set true l).set true r) pushed st₁) (hl : pool.isLive l = false)
    (hr : (pool.set true l).isLive r = false) :
    Ends (arithmetic op l r) st₁ (fun q st' => q = op.result l r ∧
      Emits st (code ++ op.instrs l.reg r.reg) (pool.set true (op.result l r)) pushed st') E := by
  cases op with
  | assign => exact absurd rfl hop
  | add | mul | bitAnd | bitOr | bitXor => exact intoRight_emits h hl hr
  | _ => exact intoLeft_emits h hr

/-- Arguments are lowered from left to right, each with what the ones before it have pushed. -/
theorem arguments_emits : ∀ {args : List Expr} {code : List Instr} {pushed : Nat} {st₁ : State},
    (∀ arg ∈ args, EmitsValue t f arg) → (∀ arg ∈ args, arg.ty ≠ .void) → Ready t f st → Emits st code pool pushed st₁ →
    Ends (arguments args) st₁ (fun _ st' => ∃ code', Code t f pool pushed (.push args) none code' ∧
      Emits st (code ++ code') pool (pushed + args.length) st') (Exhausted st.context)
  | [], code, pushed, st₁, _, _, _, h => by
    rw [arguments]
    exact ⟨[], .pushNone, by rw [List.append_nil]; exact h⟩
  | arg :: args, code, pushed, st₁, he, hv, hst, h => by
    rw [arguments]
    refine ends_bind (value_emits_after (he arg List.mem_cons_self) (hv arg List.mem_cons_self) hst h) fun r st₂ hr => ?_
    obtain ⟨code', hcode, h₂⟩ := hr
    refine ends_bind (push_emits h₂) fun _ st₃ h₃ => ?_
    refine ends_bind (free_emits h₃ (by simp)) fun _ st₄ h₄ => ?_
    rw [RegisterPool.free_last (hcode.fresh r rfl)] at h₄
    refine ends_mono (arguments_emits (fun a ha => he a (List.mem_cons_of_mem _ ha))
      (fun a ha => hv a (List.mem_cons_of_mem _ ha)) hst h₄) (fun _ st' hrest => ?_) fun _ _ h => h
    obtain ⟨code'', hcode'', h'⟩ := hrest
    refine ⟨_, .pushMore hcode hcode'', ?_⟩
    rw [List.append_assoc, List.append_assoc, Nat.add_assoc, Nat.add_comm 1] at h'
    exact h'

theorem paddedCall_emits {name : String} (h : Emits st code pool pushed st₁) :
    Ends (paddedCall name) st₁ (fun _ st' => Emits st (code ++ padded pushed name) pool pushed st') E := by
  unfold paddedCall padded
  refine ends_get_bind ?_
  rw [h.pushed]
  split
  · refine ends_bind (emit_emits h) fun _ st₂ h₂ => ends_bind (emit_emits h₂) fun _ st₃ h₃ => ?_
    refine ends_mono (emit_emits h₃) (fun _ st' h' => ?_) fun _ _ h => h
    rw [List.append_assoc, List.append_assoc] at h'
    exact h'
  · exact emit_emits h

theorem takeResult_emits {info : Info} (h : Emits st code pool pushed st₁) :
    Ends (takeResult info) st₁ (fun r? st' => (∀ r, r? = some r → pool.isLive r = false) ∧
      Emits st (code ++ taking info.ty r?) (pool.holding r?) pushed st' ∧ (r? = none → info.ty = .void))
      (Exhausted st.context) := by
  unfold takeResult
  by_cases hvoid : info.ty = .void
  · simp only [hvoid, ↓reduceIte]
    refine ⟨fun r hr => (by cases hr), ?_, fun _ => trivial⟩
    rw [taking, List.append_nil]
    exact h
  · simp only [hvoid, ↓reduceIte]
    refine ends_bind (alloc_emits h) ?_
    rintro r st₂ ⟨hfree, h₂⟩
    refine ends_bind (emit_emits h₂) fun _ st₃ h₃ => ⟨?_, h₃, fun hnone => by cases hnone⟩
    rintro q ⟨⟩
    exact hfree

theorem callCode_emits {info : Info} {name : String} {args : List Expr} (hlimit : args.length ≤ Typing.maxParams)
    (he : ∀ arg ∈ args, EmitsValue t f arg) (hv : ∀ arg ∈ args, arg.ty ≠ .void) (hst : Ready t f st) :
    Ends (callCode info name args.length (arguments args)) st (fun r? st' => Leaves t f (.call info name args) st r? st' ∧
      (r? = none → info.ty = .void)) (Exhausted st.context) := by
  unfold callCode
  refine ends_get_bind (ends_bind (pushAll_emits st.pool.live (.refl st)) fun _ st₁ h₁ => ?_)
  refine ends_bind (arguments_emits he hv hst h₁) ?_
  rintro _ st₂ ⟨code, hcode, h₂⟩
  refine ends_bind (P := fun regs st' => regs = Reg.arguments.take args.length ∧ st₂ = st') ?_ ?_
  · unfold argumentRegisters
    rw [if_pos (show args.length ≤ Reg.arguments.length from hlimit)]
    exact ⟨rfl, rfl⟩
  rintro _ _ ⟨rfl, rfl⟩
  have hlength : (Reg.arguments.take args.length).reverse.length = args.length := by
    rw [List.length_reverse, List.length_take]
    exact Nat.min_eq_left hlimit
  refine ends_bind (popAll_emits id _ (by rw [hlength]; exact h₂)) fun _ st₃ h₃ => ?_
  refine ends_bind (paddedCall_emits h₃) fun _ st₄ h₄ => ?_
  refine ends_bind (popAll_emits Scratch.reg _ (by rw [List.length_reverse]; exact h₄)) fun _ st₅ h₅ => ?_
  refine ends_mono (takeResult_emits h₅) (fun r? st₆ h₆ => ?_) fun _ _ h => h
  obtain ⟨hfree, hemits, hvoid⟩ := h₆
  refine ⟨⟨_, .call hlimit hcode hfree, ?_⟩, hvoid⟩
  simp only [List.nil_append, List.append_assoc] at hemits
  exact hemits

/-! ### Forms of expressions -/

section Constructs

variable {info left : Info} {right : Expr}

theorem numberExpr_emits (value : Int) : EmitsValue t f (.number info value) := by
  intro st _
  rw [expr]
  refine leaves_some (ends_bind (alloc_emits (.refl st)) ?_)
  rintro r st₁ ⟨hfree, h₁⟩
  exact ends_bind (emit_emits h₁) fun _ st₂ h₂ => ⟨_, .number hfree, h₂⟩

theorem stringExpr_emits (label : Nat) (bytes : List UInt8) : EmitsValue t f (.string info label bytes) := by
  intro st _
  rw [expr]
  refine leaves_some (ends_bind (P := fun _ st' => Emits st [] st.pool st.pushed st')
    (ends_modify ⟨rfl, rfl, rfl, by simp, rfl, rfl⟩) fun _ st₁ h₁ => ends_bind (alloc_emits h₁) ?_)
  rintro r st₂ ⟨hfree, h₂⟩
  exact ends_bind (emit_emits h₂) fun _ st₃ h₃ => ⟨_, .string hfree, h₃⟩

theorem notExpr_emits (nonvoid : e.ty ≠ .void) (he : EmitsValue t f e) : EmitsValue t f (.unary info .not e) := by
  intro st hst
  rw [expr]
  refine leaves_some (ends_bind (value_emits he nonvoid hst) ?_)
  rintro r st₁ ⟨code, hcode, h₁⟩
  refine ends_bind (emit_emits h₁) fun _ st₂ h₂ => ends_bind (ends_bind (emit_emits h₂) fun _ st₃ h₃ => emit_emits h₃)
    fun _ st₄ h₄ => ⟨_, .not hcode, ?_⟩
  rw [List.append_assoc, List.append_assoc] at h₄
  exact h₄

/-- An assignment to a variable stores what its right side has left. -/
theorem assignName_emits {name : String} {scope : Scope} {s : Symbol} (names : Denotes t f name scope left.ty s)
    (scalar : s.kind = .variable) (marked : left.rvalue = false) (same : right.ty = left.ty)
    (hright : EmitsValue t f right) : EmitsValue t f (.binary info .assign (.ident left name scope) right) := by
  intro st hst
  rw [expr]
  simp only [Expr.info, marked, Bool.false_eq_true, ↓reduceIte]
  refine ends_bind (value_emits hright (by rw [same, names.ty]; exact names.nonvoid) hst) ?_
  rintro r st₁ ⟨code, hcode, h₁⟩
  rw [store]
  refine ends_bind (P := fun _ st' => Leaves t f _ st (some r) st') ?_ fun _ st' h' => ⟨h', fun hnone => by cases hnone⟩
  refine ends_bind (location_emits (hst.after h₁) names) ?_
  rintro place _ ⟨hplace, rfl⟩
  exact ends_mono (emit_emits h₁) (fun _ st₂ h₂ => ⟨_, .assignName names scalar hplace hcode, h₂⟩) fun _ _ h => h

/-- An assignment through a pointer computes the address after the right side, and frees its register. -/
theorem assignAt_emits {address : Expr} (pointee : address.ty.valueAt = some left.ty) (nonvoid : left.ty ≠ .void)
    (marked : left.rvalue = false) (same : right.ty = left.ty) (haddress : EmitsValue t f address)
    (hright : EmitsValue t f right) : EmitsValue t f (.binary info .assign (.unary left .deref address) right) := by
  intro st hst
  rw [expr]
  simp only [Expr.info, marked, Bool.false_eq_true, ↓reduceIte]
  refine ends_bind (value_emits hright (by rw [same]; exact nonvoid) hst) ?_
  rintro r st₁ ⟨code, hcode, h₁⟩
  rw [store]
  refine ends_bind (P := fun _ st' => Leaves t f _ st (some r) st') ?_ fun _ st' h' => ⟨h', fun hnone => by cases hnone⟩
  refine ends_bind (value_emits_after haddress (Ty.ne_void_of_valueAt pointee) hst h₁) ?_
  rintro p st₂ ⟨code', hcode', h₂⟩
  refine ends_bind (emit_emits h₂) fun _ st₃ h₃ => ?_
  refine ends_mono (free_emits h₃ (by simp)) (fun _ st₄ h₄ => ⟨_, .assignAt hcode hcode', ?_⟩) fun _ _ h => h
  rw [List.append_assoc, RegisterPool.free_last (hcode'.fresh p rfl)] at h₄
  exact h₄

theorem binaryExpr_emits {op : BinaryOp} (operator : op ≠ .assign) (same : e.ty = right.ty) (nonvoid : e.ty ≠ .void)
    (hleft : EmitsValue t f e) (hright : EmitsValue t f right) : EmitsValue t f (.binary info op e right) := by
  intro st hst
  rw [expr]
  case x_1 => exact operator
  refine ends_bind (value_emits hleft nonvoid hst) ?_
  rintro l st₁ ⟨code, hcode, h₁⟩
  refine ends_bind (value_emits_after hright (same ▸ nonvoid) hst h₁) ?_
  rintro r st₂ ⟨code', hcode', h₂⟩
  refine leaves_some (ends_mono (arithmetic_emits operator h₂ (hcode.fresh l rfl) (hcode'.fresh r rfl))
    (fun q st₃ h₃ => ?_) fun _ _ h => h)
  obtain ⟨hq, h₃⟩ := h₃
  subst hq
  rw [List.append_assoc] at h₃
  exact ⟨_, .arithmetic operator hcode hcode', h₃⟩

end Constructs

/-- **Expressions.** An expression that fits is lowered to its code, unless the registers run out. -/
theorem expr_emits (he : Typed t f e) : EmitsValue t f e := by
  induction he with
  | ident names => exact fun st hst => by rw [expr]; exact leaves_some (nameCode_emits hst names)
  | number ty => exact numberExpr_emits _
  | string ty => exact stringExpr_emits _ _
  | addressOf names ty => exact fun st hst => by rw [expr]; exact leaves_some (addressCode_emits hst names)
  | step names scalar sized ty => exact fun st hst => by rw [expr]; exact leaves_some (stepCode_emits hst names scalar)
  | deref typed ty nonvoid ih =>
    intro st hst
    rw [expr]
    refine leaves_some (ends_bind (value_emits ih (Ty.ne_void_of_valueAt ty) hst) ?_)
    rintro r st₁ ⟨code, hcode, h₁⟩
    exact ends_bind (emit_emits h₁) fun _ st₂ h₂ => ⟨_, .deref hcode, h₂⟩
  | negate typed integer ty ih =>
    intro st hst
    rw [expr]
    refine leaves_some (ends_bind (value_emits ih (Ty.ne_void_of_isInteger integer) hst) ?_)
    rintro r st₁ ⟨code, hcode, h₁⟩
    exact ends_bind (emit_emits h₁) fun _ st₂ h₂ => ⟨_, .negate hcode, h₂⟩
  | not typed nonvoid ty ih => exact notExpr_emits nonvoid ih
  | widen typed integer wider ih =>
    intro st hst
    rw [expr]
    refine leaves_some (ends_bind (value_emits ih (Ty.ne_void_of_isInteger integer) hst) ?_)
    rintro r st₁ ⟨code, hcode, h₁⟩
    exact ⟨_, .widen hcode, h₁⟩
  | scale typed integer ty size large ih =>
    intro st hst
    rw [expr]
    refine leaves_some (ends_bind (value_emits ih (Ty.ne_void_of_isInteger integer) hst) ?_)
    rintro r st₁ ⟨code, hcode, h₁⟩
    exact ends_bind (scaleCode_emits h₁) fun _ st₂ h₂ => ⟨_, .scale hcode, h₂⟩
  | assignName names scalar marked typed same ty ih => exact assignName_emits names scalar marked same ih
  | assignAt pointer pointee nonvoid marked typed same ty ihAddress ih =>
    exact assignAt_emits pointee nonvoid marked same ihAddress ih
  | arithmetic operator typedLeft typedRight same nonvoid pointers ty ihLeft ihRight =>
    exact binaryExpr_emits operator same nonvoid ihLeft ihRight
  | call found function ty arity limit typed nonvoid ih =>
    intro st hst
    rw [expr]
    exact callCode_emits limit ih nonvoid hst

end Lower

end MiniC
