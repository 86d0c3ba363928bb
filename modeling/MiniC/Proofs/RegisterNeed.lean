import MiniC.Proofs.ExpressionCorrect
import MiniC.Proofs.ProgramCode

/-!
# How many registers an expression needs

`Expr.need` reads off the shape of an expression how many scratch registers its code holds at a time. The number is exact:
when some registers are live, lowering the expression succeeds only if its need fits into the others, and it runs out of
registers only if it does not.

* `Lower.expr_takes`: what lowering an expression does to the pool, for any tree without control structures and whatever
  is live before.
* `Lower.stmt_fits`: statements start from an empty pool and leave it empty, so they can be lowered only if every
  expression that they evaluate needs at most four registers.
* `register_need_exact`: both, and so an accepted source compiles exactly when every expression that its statements
  evaluate needs at most four registers.
-/

namespace MiniC

/-! ## Expressions and what they need -/

mutual

/-- How many scratch registers the code of an expression holds at a time, the one of its value included. -/
def Expr.need : Expr → Nat
  | .number .. | .string .. | .ident .. => 1
  | .unary _ op operand =>
    match op with
    | .addressOf | .step .. => 1
    | .deref | .negate | .not => operand.need
  -- The value is held while the address is computed.
  | .binary _ .assign (.unary _ .deref address) right => max right.need (1 + address.need)
  | .binary _ .assign _ right => right.need
  | .binary _ _ left right => max left.need (1 + right.need)
  | .convert _ _ operand => operand.need
  | .call info _ args => max (needAll args) (if info.ty = .void then 0 else 1)
  | .ifElse .. | .whileLoop .. | .forLoop .. => 0

/-- What arguments need: each is pushed and its register given back before the next one. -/
def needAll : List Expr → Nat
  | [] => 0
  | arg :: args => max arg.need (needAll args)

end

/-- No part of the expression is a control structure. -/
inductive Expr.Straight : Expr → Prop where
  | number {info : Info} {value : Int} : Straight (.number info value)
  | string {info : Info} {label : Nat} {bytes : List UInt8} : Straight (.string info label bytes)
  | ident {info : Info} {name : String} {scope : Scope} : Straight (.ident info name scope)
  | unary {info : Info} {op : UnaryOp} {operand : Expr} (inner : Straight operand) : Straight (.unary info op operand)
  | binary {info : Info} {op : BinaryOp} {left right : Expr} (first : Straight left) (second : Straight right) :
      Straight (.binary info op left right)
  | convert {info : Info} {change : Change} {operand : Expr} (inner : Straight operand) :
      Straight (.convert info change operand)
  | call {info : Info} {name : String} {args : List Expr} (inner : ∀ arg ∈ args, Straight arg) :
      Straight (.call info name args)

mutual

/-- The expressions that a statement evaluates on their own, in the order of their code. -/
def Stmt.evaluated : Stmt → List Expr
  | .ret none => []
  | .ret (some e) => [e]
  | .expr e => e.evaluated
  | .block stmts => allEvaluated stmts
  | .function _ body => body.evaluated
  | .varDecl _ | .globalDecl _ | .prototype _ => []

/-- What an expression evaluates as a statement: itself, or the parts of a control structure. -/
def Expr.evaluated : Expr → List Expr
  | .ifElse _ cond yes no => [cond] ++ (yes.evaluated ++ optionalEvaluated no)
  | .whileLoop _ cond body => [cond] ++ body.evaluated
  | .forLoop _ init cond post body => init.toList ++ (cond.toList ++ (body.evaluated ++ post.toList))
  | e => [e]

def optionalEvaluated : Option Stmt → List Expr
  | none => []
  | some stmt => stmt.evaluated

def allEvaluated : List Stmt → List Expr
  | [] => []
  | stmt :: stmts => stmt.evaluated ++ allEvaluated stmts

end

/-- The expressions that the statements of a program evaluate. -/
def Program.evaluated (program : Program) : List Expr := allEvaluated program

theorem allEvaluated_eq_flatMap (stmts : List Stmt) : allEvaluated stmts = stmts.flatMap Stmt.evaluated := by
  induction stmts with
  | nil => rfl
  | cons s stmts ih => rw [allEvaluated, ih, List.flatMap_cons]

theorem Expr.Straight.evaluated {e : Expr} (h : e.Straight) : e.evaluated = [e] := by
  cases h <;> rfl

/-! ## Pools -/

namespace RegisterPool

variable {pool : RegisterPool} {r : Scratch}

theorem length_live_set (h : pool.isLive r = false) : (pool.set true r).live.length = pool.live.length + 1 := by
  rcases pool with ⟨_ | _, _ | _, _ | _, _ | _⟩ <;> cases r <;> revert h <;> decide

/-- A register is free unless four are live. -/
theorem length_live_of_full (h : ∀ r, pool.isLive r = true) : pool.live.length = 4 := by
  have hall : pool.live = Scratch.all := List.filter_eq_self.2 fun r _ => h r
  rw [hall]
  rfl

end RegisterPool

namespace Lower

variable {α β : Type} {st st₁ : State} {pool : RegisterPool} {n m : Nat} {fault : Fault} {r : Scratch} {e : Expr}

/-! ## Code that takes no register -/

/-- The fault says neither that the registers ran out nor that one was given back twice. -/
def Harmless (fault : Fault) : Prop := (∀ line, fault ≠ .outOfRegisters line) ∧ ∀ r, fault ≠ .internal (.doubleFree r)

/-- `x` leaves the pool as it is. -/
def Quiet (x : LowerM α) : Prop := ∀ st, Ends x st (fun _ st' => st'.pool = st.pool) fun fault _ => Harmless fault

theorem quiet_pure (a : α) : Quiet (pure a : LowerM α) := fun _ => rfl

theorem quiet_throw (h : Harmless fault) : Quiet (throw fault : LowerM α) := fun _ => h

theorem quiet_bind {x : LowerM α} {k : α → LowerM β} (hx : Quiet x) (hk : ∀ a, Quiet (k a)) : Quiet (x >>= k) :=
  fun st => ends_bind (hx st) fun a st₁ h₁ => ends_mono (hk a st₁) (fun _ _ h => h.trans h₁) fun _ _ h => h

theorem quiet_get {k : State → LowerM β} (hk : ∀ st, Quiet (k st)) : Quiet (get >>= k) := fun st => hk st st

theorem quiet_forM {g : α → LowerM PUnit} (hg : ∀ a, Quiet (g a)) : ∀ as : List α, Quiet (as.forM g)
  | [] => quiet_pure _
  | a :: as => quiet_bind (hg a) fun _ => quiet_forM hg as

theorem harmless_semantic (line : Nat) (cause : SemanticFault) : Harmless (.semantic line cause) := by simp [Harmless]

theorem quiet_append (line : Line) : Quiet (append line) := fun _ => rfl

theorem quiet_emit (i : Instr) : Quiet (emit i) := quiet_append _

theorem quiet_drawLabel : Quiet drawLabel := fun _ => rfl

theorem quiet_enter (segment : Segment) : Quiet (enter segment) := by
  refine quiet_get fun st => ?_
  split
  · exact quiet_bind (quiet_append _) fun _ _ => rfl
  · exact quiet_pure _

theorem quiet_push (r : Reg) : Quiet (push r) := quiet_bind (quiet_emit _) fun _ _ => rfl

theorem quiet_pop (r : Reg) : Quiet (pop r) := by
  refine quiet_bind (quiet_emit _) fun _ => quiet_get fun st => ?_
  split
  · exact quiet_throw (by simp [Harmless])
  · exact fun _ => rfl

theorem quiet_location (name : String) (scope : Scope) (line : Nat) : Quiet (location name scope line) := by
  unfold location
  split
  · exact quiet_pure _
  · refine quiet_get fun st => ?_
    split
    · exact quiet_pure _
    · exact quiet_throw (harmless_semantic _ _)

theorem quiet_argumentRegisters (count : Nat) : Quiet (argumentRegisters count) := by
  unfold argumentRegisters
  split
  · exact quiet_pure _
  · exact quiet_throw (by simp [Harmless])

theorem quiet_paddedCall (name : String) : Quiet (paddedCall name) := by
  refine quiet_get fun st => ?_
  split
  · exact quiet_bind (quiet_emit _) fun _ => quiet_bind (quiet_emit _) fun _ => quiet_emit _
  · exact quiet_emit _

theorem quiet_scaleCode (factor : Int) (r : Scratch) : Quiet (scaleCode factor r) := by
  unfold scaleCode
  split
  · exact quiet_pure _
  all_goals exact quiet_emit _

/-! ## Code that takes registers -/

/-- While the registers of `pool` were live, `n` more sufficed for a value in `r?`, and only `r?` is still taken. -/
structure Sufficed (pool : RegisterPool) (n : Nat) (r? : Option Scratch) (st : State) : Prop where
  held : st.pool = pool.holding r?
  enough : pool.live.length + n ≤ 4
  fresh : ∀ r, r? = some r → pool.isLive r = false

/-- If the registers ran out, then because `n` are too many besides those of `pool`; none was given back twice. -/
def Lacking (pool : RegisterPool) (n : Nat) (fault : Fault) : Prop :=
  (∀ line, fault = .outOfRegisters line → 4 < pool.live.length + n) ∧ ∀ r, fault ≠ .internal (.doubleFree r)

/-- `x` needs `n` registers; the value that `x` gives is held in `held` of it. -/
def TakesAs (held : α → Option Scratch) (n : Nat) (x : LowerM α) : Prop :=
  ∀ st, Ends x st (fun a st' => Sufficed st.pool n (held a) st') fun fault _ => Lacking st.pool n fault

/-- `x` needs `n` registers. -/
abbrev Takes (n : Nat) (x : LowerM (Option Scratch)) : Prop := TakesAs id n x

/-- `x` needs `n` registers and leaves a value in one of them. -/
abbrev TakesValue (n : Nat) (x : LowerM Scratch) : Prop := TakesAs some n x

theorem Harmless.lacking (h : Harmless fault) : Lacking pool n fault := ⟨fun line hline => absurd hline (h.1 line), h.2⟩

theorem Lacking.mono (h : Lacking pool n fault) (hle : n ≤ m) : Lacking pool m fault :=
  ⟨fun line hline => Nat.lt_of_lt_of_le (h.1 line hline) (Nat.add_le_add_left hle _), h.2⟩

/-- What is lacking while one more register is live is lacking besides it before. -/
theorem Lacking.before (h : Lacking (pool.set true r) n fault) (hr : pool.isLive r = false) : Lacking pool (1 + n) fault := by
  refine ⟨fun line hline => ?_, h.2⟩
  have := h.1 line hline
  rw [RegisterPool.length_live_set hr] at this
  omega

theorem takes_some {x : LowerM Scratch} (hx : TakesValue n x) : Takes n (some <$> x) := fun st => ends_map (hx st)

theorem value_takes {line : Nat} {x : LowerM (Option Scratch)} (hx : Takes n x) : TakesValue n (value line x) := by
  refine fun st => ends_bind (hx st) fun r? st₁ h₁ => ?_
  cases r? with
  | some r => exact h₁
  | none => exact (harmless_semantic _ _).lacking

theorem takesValue_throw (h : Harmless fault) : TakesValue n (throw fault) := fun _ => h.lacking

/-- Code that takes no register may come before. -/
theorem Quiet.takes {held : β → Option Scratch} {x : LowerM α} {k : α → LowerM β} (hx : Quiet x)
    (hk : ∀ a, TakesAs held n (k a)) : TakesAs held n (x >>= k) := by
  refine fun st => ends_bind (ends_mono (hx st) (fun _ _ h => h) fun _ _ h => h.lacking) fun a st₁ h₁ => ?_
  have hrest := hk a st₁
  rwa [h₁] at hrest

/-- `x` gives `r` and leaves the pool as it is. -/
def Returns (r : Scratch) (x : LowerM Scratch) : Prop :=
  ∀ st, Ends x st (fun q st' => q = r ∧ st'.pool = st.pool) fun fault _ => Harmless fault

theorem returns_pure (r : Scratch) : Returns r (pure r) := fun _ => ⟨rfl, rfl⟩

theorem Quiet.returns {x : LowerM α} {k : LowerM Scratch} (hx : Quiet x) (hk : Returns r k) :
    Returns r (x >>= fun _ => k) :=
  fun st => ends_bind (hx st) fun _ st₁ h₁ => ends_mono (hk st₁) (fun _ _ h => ⟨h.1, h.2.trans h₁⟩) fun _ _ h => h

/-- Code that takes no register may follow. -/
theorem TakesValue.followed {x : LowerM Scratch} {k : Scratch → LowerM Scratch} (hx : TakesValue n x)
    (hk : ∀ r, Returns r (k r)) : TakesValue n (x >>= k) := by
  refine fun st => ends_bind (hx st) fun r st₁ h₁ => ?_
  refine ends_mono (hk r st₁) ?_ fun _ _ h => h.lacking
  rintro _ st₂ ⟨rfl, h₂⟩
  exact ⟨h₂.trans h₁.held, h₁.enough, h₁.fresh⟩

theorem alloc_takes (line : Nat) : TakesValue 1 (alloc line) := by
  intro st
  unfold alloc
  refine ends_get_bind ?_
  unfold RegisterPool.alloc RegisterPool.alloc?
  cases hfind : Scratch.all.find? (!st.pool.isLive ·) with
  | none =>
    have hfull : ∀ r, st.pool.isLive r = true := fun r => by simpa using List.find?_eq_none.1 hfind r r.mem_all
    refine ⟨fun _ _ => ?_, by simp⟩
    rw [RegisterPool.length_live_of_full hfull]
    decide
  | some r =>
    have hfree : st.pool.isLive r = false := by simpa using List.find?_some hfind
    refine ⟨rfl, ?_, ?_⟩
    · rw [← RegisterPool.length_live_set hfree]
      exact RegisterPool.length_live_le _
    · rintro _ ⟨⟩
      exact hfree

/-- Giving back the register that was taken last. -/
theorem free_returns (hr : pool.isLive r = false) (hst : st.pool = pool.set true r) :
    Ends (free r) st (fun _ st' => st'.pool = pool) fun fault _ => Harmless fault := by
  unfold free
  refine ends_get_bind ?_
  rw [if_pos (by rw [hst]; simp)]
  show st.pool.free r = pool
  rw [hst]
  exact RegisterPool.free_last hr

theorem stringCode_takes (info : Info) (label : Nat) (bytes : List UInt8) : TakesValue 1 (stringCode info label bytes) := by
  unfold stringCode
  refine Quiet.takes (fun _ => rfl) fun _ => (alloc_takes _).followed fun r => ?_
  exact (quiet_emit _).returns (returns_pure r)

theorem nameCode_takes (info : Info) (name : String) (scope : Scope) : TakesValue 1 (nameCode info name scope) := by
  refine (quiet_location _ _ _).takes fun place => (alloc_takes _).followed fun r st => ends_get_bind ?_
  dsimp only
  split
  · exact (quiet_emit _).returns (returns_pure r) st
  · exact (quiet_emit _).returns (returns_pure r) st

theorem addressCode_takes (info : Info) (operand : Expr) : TakesValue 1 (addressCode info operand) := by
  unfold addressCode
  split
  · exact (quiet_location _ _ _).takes fun place => (alloc_takes _).followed fun r =>
      (quiet_emit _).returns (returns_pure r)
  · exact takesValue_throw (harmless_semantic _ _)

theorem stepCode_takes (info : Info) (moment : Moment) (direction : Direction) (operand : Expr) :
    TakesValue 1 (stepCode info moment direction operand) := by
  unfold stepCode
  split
  · refine (quiet_location _ _ _).takes fun place => (alloc_takes _).followed fun r => ?_
    cases moment with
    | before => exact (quiet_emit _).returns ((quiet_emit _).returns (returns_pure r))
    | after => exact (quiet_emit _).returns ((quiet_emit _).returns (returns_pure r))
  · exact takesValue_throw (harmless_semantic _ _)

theorem unaryCode_takes {info : Info} {op : UnaryOp} {operand : Expr} {code : LowerM Scratch}
    (hcode : TakesValue operand.need code) : TakesValue (Expr.unary info op operand).need (unaryCode info op operand code) := by
  cases op with
  | addressOf =>
    rw [Expr.need]
    exact addressCode_takes info operand
  | step moment direction =>
    rw [Expr.need]
    exact stepCode_takes info moment direction operand
  | deref =>
    rw [Expr.need]
    exact hcode.followed fun r => (quiet_emit _).returns (returns_pure r)
  | negate =>
    rw [Expr.need]
    exact hcode.followed fun r => (quiet_emit _).returns (returns_pure r)
  | not =>
    rw [Expr.need]
    exact hcode.followed fun r => (quiet_emit _).returns
      ((quiet_bind (quiet_emit _) fun _ => quiet_emit _).returns (returns_pure r))

theorem changeCode_takes {change : Change} {code : LowerM Scratch} (hcode : TakesValue n code) :
    TakesValue n (changeCode change code) := by
  refine hcode.followed fun r => ?_
  cases change with
  | widen => exact returns_pure r
  | scale factor => exact (quiet_scaleCode factor r).returns (returns_pure r)

/-- The register of one operand is given back, that of the other holds the result. -/
theorem arithmetic_frees {op : BinaryOp} {l r : Scratch} (hop : op ≠ .assign) (hl : pool.isLive l = false)
    (hr : (pool.set true l).isLive r = false) (hst : st.pool = (pool.set true l).set true r) :
    Ends (arithmetic op l r) st (fun q st' => pool.isLive q = false ∧ st'.pool = pool.set true q)
      fun fault _ => Harmless fault := by
  have hemits := Emits.refl st
  rw [hst] at hemits
  refine ends_mono (arithmetic_emits hop hemits hl hr) ?_ fun _ _ h => h
  rintro _ st' ⟨rfl, h'⟩
  refine ⟨?_, h'.pool⟩
  rw [RegisterPool.isLive_set] at hr
  split at hr
  · cases hr
  · cases op <;> first | exact hl | exact hr

/-- The value of the left operand is held while the right one is computed. -/
theorem operands_end {left right : LowerM Scratch} {k : Scratch → Scratch → LowerM β} {Q : β → State → Prop}
    (hleft : TakesValue n left) (hright : TakesValue m right)
    (hk : ∀ l r st₂, st.pool.isLive l = false → (st.pool.set true l).isLive r = false →
      st₂.pool = (st.pool.set true l).set true r → st.pool.live.length + max n (1 + m) ≤ 4 →
      Ends (k l r) st₂ Q fun fault _ => Lacking st.pool (max n (1 + m)) fault) :
    Ends (do let l ← left; let r ← right; k l r) st Q fun fault _ => Lacking st.pool (max n (1 + m)) fault := by
  refine ends_bind (ends_mono (hleft st) (fun _ _ h => h) fun _ _ h => h.mono (Nat.le_max_left _ _)) fun l st₁ h₁ => ?_
  have hl := h₁.fresh l rfl
  have hn := h₁.enough
  have hsecond := hright st₁
  rw [h₁.held] at hsecond
  refine ends_bind (ends_mono hsecond (fun _ _ h => h) fun _ _ h => (h.before hl).mono (Nat.le_max_right _ _))
    fun r st₂ h₂ => ?_
  have hm := h₂.enough
  rw [RegisterPool.holding, RegisterPool.length_live_set hl] at hm
  exact hk l r st₂ hl (h₂.fresh r rfl) h₂.held (by omega)

theorem operands_take {op : BinaryOp} {left right : LowerM Scratch} (hop : op ≠ .assign) (hleft : TakesValue n left)
    (hright : TakesValue m right) :
    Takes (max n (1 + m)) (do let l ← left; let r ← right; some <$> arithmetic op l r) := by
  refine fun st => operands_end hleft hright fun l r st₂ hl hr h₂ hle => ?_
  refine ends_map (ends_mono (arithmetic_frees hop hl hr h₂) ?_ fun _ _ h => h.lacking)
  rintro q st₃ ⟨hq, h₃⟩
  refine ⟨h₃, hle, ?_⟩
  rintro _ ⟨⟩
  exact hq

/-- Storing through a pointer takes a register for the address besides the one of the value. -/
theorem storeAt_takes {info : Info} {address : Expr} (haddress : TakesValue n (value address.line (expr address)))
    (hr : pool.isLive r = false) (hst : st.pool = pool.set true r) :
    Ends (store (.unary info .deref address) r) st
      (fun _ st' => st'.pool = pool.set true r ∧ pool.live.length + (1 + n) ≤ 4) fun fault _ => Lacking pool (1 + n) fault := by
  rw [store]
  have hpointer := haddress st
  rw [hst] at hpointer
  refine ends_bind (ends_mono hpointer (fun _ _ h => h) fun _ _ h => h.before hr) fun p st₁ h₁ => ?_
  have hn := h₁.enough
  rw [RegisterPool.length_live_set hr] at hn
  refine ends_bind (ends_mono (quiet_emit _ st₁) (fun _ _ h => h) fun _ _ h => h.lacking) fun _ st₂ h₂ => ?_
  refine ends_mono (free_returns (h₁.fresh p rfl) (h₂.trans h₁.held)) (fun _ st₃ h₃ => ⟨h₃, by omega⟩) fun _ _ h => h.lacking

/-- Storing anywhere else takes no register. -/
theorem store_quiet {left : Expr} (hleft : ∀ info address, left ≠ .unary info .deref address) (r : Scratch) :
    Quiet (store left r) := by
  cases left with
  | ident info name scope =>
    rw [store]
    exact quiet_bind (quiet_location _ _ _) fun _ => quiet_emit _
  | unary info op operand =>
    rw [store]
    · exact quiet_throw (harmless_semantic _ _)
    · simp
    · rintro _ _ ⟨⟩
      exact hleft _ _ rfl
  | _ =>
    rw [store]
    · exact quiet_throw (harmless_semantic _ _)
    all_goals simp

/-- The value comes first; only an address on the left takes another register. -/
theorem assign_takes {info : Info} {left right : Expr} (hright : TakesValue right.need (value right.line (expr right)))
    (hleft : ∀ info address, left = .unary info .deref address →
      TakesValue address.need (value address.line (expr address))) :
    Takes (Expr.binary info .assign left right).need (expr (.binary info .assign left right)) := by
  rw [expr]
  split
  · exact fun _ => (harmless_semantic _ _).lacking
  intro st
  by_cases hat : ∃ info address, left = .unary info .deref address
  · obtain ⟨info, address, rfl⟩ := hat
    rw [Expr.need]
    refine ends_bind (ends_mono (hright st) (fun _ _ h => h) fun _ _ h => h.mono (Nat.le_max_left _ _)) fun r st₁ h₁ => ?_
    refine ends_bind (ends_mono (storeAt_takes (hleft info address rfl) (h₁.fresh r rfl) h₁.held) (fun _ _ h => h)
      fun _ _ h => h.mono (Nat.le_max_right _ _)) fun _ st₂ h₂ => ⟨h₂.1, ?_, h₁.fresh⟩
    have := h₁.enough
    have := h₂.2
    omega
  · have hother : ∀ info address, left ≠ .unary info .deref address := fun info address h => hat ⟨info, address, h⟩
    rw [Expr.need]
    · refine ends_bind (hright st) fun r st₁ h₁ => ?_
      refine ends_bind (ends_mono (store_quiet hother r st₁) (fun _ _ h => h) fun _ _ h => h.lacking) fun _ st₂ h₂ => ?_
      exact ⟨h₂.trans h₁.held, h₁.enough, h₁.fresh⟩
    · exact hother

/-- Arguments are computed one by one, none while another holds a register. -/
theorem arguments_take : ∀ {args : List Expr}, (∀ arg ∈ args, Takes arg.need (expr arg)) → ∀ st : State,
    Ends (arguments args) st (fun _ st' => st'.pool = st.pool ∧ st.pool.live.length + needAll args ≤ 4)
      fun fault _ => Lacking st.pool (needAll args) fault
  | [], _, st => by
    rw [arguments, needAll]
    exact ⟨rfl, RegisterPool.length_live_le _⟩
  | arg :: args, hargs, st => by
    rw [arguments, needAll]
    have harg : TakesValue arg.need (value arg.line (expr arg)) := value_takes (hargs arg List.mem_cons_self)
    refine ends_bind (ends_mono (harg st) (fun _ _ h => h) fun _ _ h => h.mono (Nat.le_max_left _ _)) fun r st₁ h₁ => ?_
    refine ends_bind (ends_mono (quiet_push _ st₁) (fun _ _ h => h) fun _ _ h => h.lacking) fun _ st₂ h₂ => ?_
    refine ends_bind (ends_mono (free_returns (h₁.fresh r rfl) (h₂.trans h₁.held)) (fun _ _ h => h) fun _ _ h => h.lacking)
      fun _ st₃ h₃ => ?_
    have hrest := arguments_take (fun a ha => hargs a (List.mem_cons_of_mem _ ha)) st₃
    rw [h₃] at hrest
    refine ends_mono hrest (fun _ st₄ h₄ => ⟨h₄.1, ?_⟩) fun _ _ h => h.mono (Nat.le_max_right _ _)
    have := h₁.enough
    have := h₄.2
    omega

theorem takeResult_takes (info : Info) : Takes (if info.ty = .void then 0 else 1) (takeResult info) := by
  unfold takeResult
  split
  · exact fun st => ⟨rfl, RegisterPool.length_live_le _, fun r hr => by cases hr⟩
  · refine fun st => ends_bind (alloc_takes info.line st) fun r st₁ h₁ => ?_
    exact ends_bind (ends_mono (quiet_emit _ st₁) (fun _ _ h => h) fun _ _ h => h.lacking) fun _ st₂ h₂ =>
      ⟨h₂.trans h₁.held, h₁.enough, h₁.fresh⟩

/-- The live registers are saved around a call and stay taken. -/
theorem callCode_takes {info : Info} {name : String} {args : List Expr} (hargs : ∀ arg ∈ args, Takes arg.need (expr arg)) :
    Takes (Expr.call info name args).need (callCode info name args.length (arguments args)) := by
  intro st
  rw [Expr.need]
  refine ends_get_bind ?_
  have hpush := quiet_forM (fun r : Scratch => quiet_push r.reg) st.pool.live st
  refine ends_bind (ends_mono hpush (fun _ _ h => h) fun _ _ h => h.lacking) fun _ st₁ h₁ => ?_
  have harguments := arguments_take hargs st₁
  rw [h₁] at harguments
  refine ends_bind (ends_mono harguments (fun _ _ h => h) fun _ _ h => h.mono (Nat.le_max_left _ _)) fun _ st₂ h₂ => ?_
  have hrest := (quiet_argumentRegisters args.length).takes (n := if info.ty = .void then 0 else 1) fun regs =>
    (quiet_forM quiet_pop regs.reverse).takes fun _ => (quiet_paddedCall name).takes fun _ =>
    (quiet_forM (fun r : Scratch => quiet_pop r.reg) st.pool.live.reverse).takes fun _ => takeResult_takes info
  have hlast := hrest st₂
  rw [h₂.1] at hlast
  refine ends_mono hlast (fun r? st₃ h₃ => ⟨h₃.held, ?_, h₃.fresh⟩) fun _ _ h => h.mono (Nat.le_max_right _ _)
  have := h₂.2
  have := h₃.enough
  omega

/-- **Expressions.** A tree without control structures needs as many registers as its shape says, whatever else is
live. -/
theorem expr_takes (he : e.Straight) : Takes e.need (expr e) := by
  -- A target is lowered through the address in it, so the induction carries that address along.
  suffices h : Takes e.need (expr e) ∧ ∀ info address, e = .unary info .deref address → Takes address.need (expr address) from h.1
  induction he with
  | number =>
    rw [expr, Expr.need]
    exact ⟨takes_some ((alloc_takes _).followed fun r => (quiet_emit _).returns (returns_pure r)), by simp⟩
  | string =>
    rw [expr, Expr.need]
    exact ⟨takes_some (stringCode_takes _ _ _), by simp⟩
  | ident =>
    rw [expr, Expr.need]
    exact ⟨takes_some (nameCode_takes _ _ _), by simp⟩
  | unary _ ih =>
    rw [expr]
    refine ⟨takes_some (unaryCode_takes (value_takes ih.1)), ?_⟩
    rintro _ _ ⟨⟩
    exact ih.1
  | convert _ ih =>
    rw [expr, Expr.need]
    exact ⟨takes_some (changeCode_takes (value_takes ih.1)), by simp⟩
  | call _ ih =>
    rw [expr]
    exact ⟨callCode_takes fun arg harg => (ih arg harg).1, by simp⟩
  | @binary info op left right _ _ ihLeft ihRight =>
    refine ⟨?_, by simp⟩
    by_cases hop : op = .assign
    · subst hop
      exact assign_takes (value_takes ihRight.1) fun info address h => value_takes (ihLeft.2 info address h)
    · rw [expr, Expr.need]
      · exact operands_take hop (value_takes ihLeft.1) (value_takes ihRight.1)
      all_goals simp [hop]

/-! ## Statements -/

variable {es es' : List Expr}

/-- From an empty pool `x` ends with an empty one, and then each of `es` needs at most four registers; the registers run
out only if one of them needs more. -/
def Fits (es : List Expr) (x : LowerM α) : Prop :=
  ∀ st, st.pool = {} → Ends x st (fun _ st' => st'.pool = {} ∧ ∀ e ∈ es, e.need ≤ 4)
    fun fault _ => ∀ line, fault = .outOfRegisters line → ∃ e ∈ es, 4 < e.need

theorem fits_bind {x : LowerM α} {k : α → LowerM β} (hx : Fits es x) (hk : ∀ a, Fits es' (k a)) :
    Fits (es ++ es') (x >>= k) := by
  intro st hst
  refine ends_bind (ends_mono (hx st hst) (fun _ _ h => h) fun _ _ h line hline => ?_) fun a st₁ h₁ => ?_
  · obtain ⟨e, he, hneed⟩ := h line hline
    exact ⟨e, List.mem_append_left _ he, hneed⟩
  · refine ends_mono (hk a st₁ h₁.1) (fun _ _ h => ⟨h.1, fun e he => ?_⟩) fun _ _ h line hline => ?_
    · exact (List.mem_append.1 he).elim (h₁.2 e) (h.2 e)
    · obtain ⟨e, he, hneed⟩ := h line hline
      exact ⟨e, List.mem_append_right _ he, hneed⟩

theorem fits_get {k : State → LowerM β} (hk : ∀ st, Fits es (k st)) : Fits es (get >>= k) := fun st hst => hk st st hst

theorem Quiet.fits {x : LowerM α} (hx : Quiet x) : Fits [] x := fun st hst =>
  ends_mono (hx st) (fun _ _ h => ⟨h.trans hst, by simp⟩) fun _ _ h line hline => absurd hline (h.1 line)

theorem fits_throw (h : Harmless fault) : Fits es (throw fault : LowerM α) := fun _ _ line hline => absurd hline (h.1 line)

theorem fits_freeAll : Fits [] freeAll := fun _ _ => ⟨rfl, by simp⟩

/-- Code that evaluates nothing may come before. -/
theorem Fits.then {x : LowerM α} {k : α → LowerM β} (hx : Fits [] x) (hk : ∀ a, Fits es (k a)) : Fits es (x >>= k) :=
  fits_bind hx hk

/-- Code that evaluates nothing may follow. -/
theorem Fits.followed {x : LowerM α} {k : α → LowerM β} (hx : Fits es x) (hk : ∀ a, Fits [] (k a)) : Fits es (x >>= k) := by
  have := fits_bind hx hk
  rwa [List.append_nil] at this

/-- Code that evaluates `e` and gives all registers back. -/
theorem fits_single {x : LowerM α} (hx : ∀ st, st.pool = {} → Ends x st (fun _ st' => st'.pool = {} ∧ e.need ≤ 4)
    fun fault _ => Lacking {} e.need fault) : Fits [e] x := by
  have hempty : (RegisterPool.live {}).length = 0 := rfl
  intro st hst
  refine ends_mono (hx st hst) (fun _ _ h => ⟨h.1, by simpa using h.2⟩) fun _ _ h line hline => ?_
  have hlack := h.1 line hline
  exact ⟨e, List.mem_singleton_self e, by omega⟩

/-- A value is computed and used, and then all registers are given back. -/
theorem TakesAs.fits {held : α → Option Scratch} {x : LowerM α} {k : α → LowerM β} (hx : TakesAs held e.need x)
    (hk : ∀ a st, Ends (k a) st (fun _ st' => st'.pool = {}) fun fault _ => Harmless fault) : Fits [e] (x >>= k) := by
  refine fits_single fun st hst => ?_
  have hvalue := hx st
  rw [hst] at hvalue
  refine ends_bind hvalue fun a st₁ h₁ => ends_mono (hk a st₁) (fun _ _ h => ⟨h, ?_⟩) fun _ _ h => h.lacking
  have := h₁.enough
  omega

/-- Instructions use what was computed, and all registers are given back. -/
theorem released (code : List Instr) (st : State) :
    Ends (do code.forM emit; freeAll) st (fun _ st' => st'.pool = {}) fun fault _ => Harmless fault :=
  ends_bind (quiet_forM quiet_emit code st) fun _ _ _ => rfl

/-- A test holds the registers of its operands as the operator would. -/
theorem branchCode_fits {cond : Expr} (hc : cond.Straight) (target : Nat) :
    Fits [cond] (branchCode (comparison cond) (value cond.line (expr cond)) target) := by
  unfold branchCode
  cases hcmp : comparison cond with
  | none => exact (value_takes (expr_takes hc)).fits fun r st => released [.cmpZero r.reg, .jumpIf .eq target] st
  | some parts =>
    cases hc with
    | @binary info op left right first second =>
      rw [comparison] at hcmp
      obtain ⟨c, hop, rfl⟩ := Option.map_eq_some_iff.1 hcmp
      have hassign : op ≠ .assign := by rintro rfl; cases hop
      have hneed : (Expr.binary info op left right).need = max left.need (1 + right.need) := by
        rw [Expr.need] <;> simp [hassign]
      refine fits_single fun st hst => ?_
      rw [hneed, ← hst]
      refine operands_end (value_takes (expr_takes first)) (value_takes (expr_takes second))
        fun l r st₂ _ _ _ hle => ?_
      exact ends_mono (released [.cmp r.reg l.reg, .jumpIf c.negated target] st₂)
        (fun _ _ h => ⟨h.trans hst.symm, by omega⟩) fun _ _ h => h.lacking
    | _ => simp [comparison] at hcmp

theorem discarded_fits : ∀ {e? : Option Expr}, (∀ e ∈ e?.toList, e.Straight) → Fits e?.toList (discarded e?)
  | none, _ => by
    rw [discarded]
    exact (quiet_pure _).fits
  | some e, he => by
    rw [discarded]
    exact (expr_takes (he e (List.mem_singleton_self e))).fits fun _ st => released [] st

theorem quiet_epilogueOf (name : String) : Quiet (epilogueOf name) := by
  refine quiet_get fun st => ?_
  split
  · exact quiet_pure _
  · exact quiet_throw (by simp [Harmless])

theorem returnCode_fits (e? : Option Expr) (he : ∀ e ∈ e?.toList, e.Straight) :
    Fits e?.toList (returnCode (e?.map fun e => value e.line (expr e))) := by
  refine fits_get fun st => ?_
  split
  · exact fits_throw (by simp [Harmless])
  · refine (quiet_epilogueOf _).fits.then fun (ty, label) => ?_
    cases e? with
    | none => exact (quiet_emit _).fits.then fun _ => fits_freeAll
    | some e =>
      exact (value_takes (expr_takes (he e (List.mem_singleton_self e)))).fits fun r st =>
        released [.narrow ty.width r.reg .rax, .jump label] st

theorem quiet_globalCode (name : String) : Quiet (globalCode name) := by
  refine quiet_get fun st => ?_
  split
  · exact quiet_throw (by simp [Harmless])
  · refine quiet_bind (quiet_enter _) fun _ => quiet_bind (quiet_forM quiet_append _) fun _ => quiet_get fun _ => ?_
    split
    · exact quiet_enter _
    · exact quiet_pure _

theorem quiet_storeParams : ∀ (params : List Symbol) (regs : List Reg), Quiet (storeParams params regs)
  | [], _ => quiet_pure _
  | _ :: _, [] => quiet_throw (by simp [Harmless])
  | _ :: params, _ :: regs => quiet_bind (quiet_emit _) fun _ => quiet_storeParams params regs

theorem openFunction_fits (name : String) (symbols : SymbolTable) : Fits [] (openFunction name symbols) := by
  have hreset : Fits [] (modify fun s : State =>
      { s with context := { s.context with symbols }, function := some name, pool := {}, pushed := 0 } : LowerM Unit) :=
    fun _ _ => ⟨rfl, by simp⟩
  exact hreset.then fun _ => (quiet_bind (quiet_enter _) fun _ => quiet_forM quiet_append
    [.directive (.globl name), .directive (.function name), .name name]).fits

/-- A function starts with an empty pool and adds nothing to what its body evaluates. -/
theorem functionCode_fits {name : String} {body : LowerM Unit} (hbody : Fits es body) :
    Fits es (functionCode name body) := by
  refine (quiet_epilogueOf name).fits.then fun (_, label) => fits_get fun st => ?_
  refine (openFunction_fits _ _).then fun _ => (quiet_forM quiet_emit _).fits.then fun _ => ?_
  refine (quiet_storeParams _ _).fits.then fun _ => hbody.followed fun _ => ?_
  have hleave : Quiet (modify fun s : State => { s with function := none } : LowerM Unit) := fun _ => rfl
  exact (quiet_bind (quiet_append _) fun _ => quiet_bind (quiet_forM quiet_emit _) fun _ => hleave).fits

mutual

/-- **Statements.** A statement is lowered only if every expression that it evaluates needs at most four registers. -/
theorem stmt_fits : ∀ {s : Stmt}, (∀ e ∈ s.evaluated, e.Straight) → Fits s.evaluated (stmt s)
  | .ret none, h => by
    rw [stmt]
    exact returnCode_fits none h
  | .ret (some e), h => by
    rw [stmt]
    exact returnCode_fits (some e) h
  | .expr e, h => by
    rw [stmt]
    exact effect_fits h
  | .varDecl _, _ => by
    rw [stmt]
    exact (quiet_pure _).fits
  | .globalDecl name, _ => by
    rw [stmt]
    exact (quiet_globalCode name).fits
  | .block stmts, h => by
    rw [stmt]
    exact stmtList_fits h
  | .prototype _, _ => by
    rw [stmt]
    exact (quiet_pure _).fits
  | .function name body, h => by
    rw [stmt]
    exact functionCode_fits (stmt_fits h)

/-- An expression as a statement. -/
theorem effect_fits : ∀ {e : Expr}, (∀ e' ∈ e.evaluated, e'.Straight) →
    Fits e.evaluated (do let _ ← expr e; freeAll)
  | .ifElse _ cond yes none, h => by
    rw [Expr.evaluated, optionalEvaluated, List.append_nil] at h ⊢
    obtain ⟨hcond, hyes⟩ := List.forall_mem_append.1 h
    rw [expr]
    refine Fits.followed (quiet_drawLabel.fits.then fun falseLabel => ?_) fun _ => fits_freeAll
    refine fits_bind (branchCode_fits (List.forall_mem_singleton.1 hcond) falseLabel) fun _ => ?_
    exact (stmt_fits hyes).followed fun _ => (quiet_bind (quiet_append _) fun _ => quiet_pure _).fits
  | .ifElse _ cond yes (some no), h => by
    rw [Expr.evaluated, optionalEvaluated] at h ⊢
    obtain ⟨hcond, hboth⟩ := List.forall_mem_append.1 h
    obtain ⟨hyes, hno⟩ := List.forall_mem_append.1 hboth
    rw [expr]
    refine Fits.followed (quiet_drawLabel.fits.then fun falseLabel => ?_) fun _ => fits_freeAll
    refine quiet_drawLabel.fits.then fun endLabel => ?_
    refine fits_bind (branchCode_fits (List.forall_mem_singleton.1 hcond) falseLabel) fun _ => fits_bind (stmt_fits hyes) fun _ => ?_
    refine (quiet_emit _).fits.then fun _ => (quiet_append _).fits.then fun _ => ?_
    exact (stmt_fits hno).followed fun _ => (quiet_bind (quiet_append _) fun _ => quiet_pure _).fits
  | .whileLoop _ cond body, h => by
    rw [Expr.evaluated] at h ⊢
    obtain ⟨hcond, hbody⟩ := List.forall_mem_append.1 h
    rw [expr]
    refine Fits.followed (quiet_drawLabel.fits.then fun start => ?_) fun _ => fits_freeAll
    refine quiet_drawLabel.fits.then fun finish => (quiet_append _).fits.then fun _ => ?_
    refine fits_bind (branchCode_fits (List.forall_mem_singleton.1 hcond) finish) fun _ => (stmt_fits hbody).followed fun _ => ?_
    exact (quiet_bind (quiet_emit _) fun _ => quiet_bind (quiet_append _) fun _ => quiet_pure _).fits
  | .forLoop _ init cond post body, h => by
    rw [Expr.evaluated] at h ⊢
    obtain ⟨hinit, hrest⟩ := List.forall_mem_append.1 h
    obtain ⟨hcond, hrest⟩ := List.forall_mem_append.1 hrest
    obtain ⟨hbody, hpost⟩ := List.forall_mem_append.1 hrest
    rw [expr]
    refine Fits.followed (quiet_drawLabel.fits.then fun start => ?_) fun _ => fits_freeAll
    refine quiet_drawLabel.fits.then fun finish => fits_bind (discarded_fits hinit) fun _ => ?_
    refine (quiet_append _).fits.then fun _ => ?_
    have hround : Fits (body.evaluated ++ post.toList) (do
        stmt body
        discarded post
        emit (.jump start)
        label finish
        return none : LowerM (Option Scratch)) :=
      fits_bind (stmt_fits hbody) fun _ => (discarded_fits hpost).followed fun _ =>
        (quiet_bind (quiet_emit _) fun _ => quiet_bind (quiet_append _) fun _ => quiet_pure _).fits
    cases cond with
    | none => exact hround
    | some cond => exact fits_bind (branchCode_fits (List.forall_mem_singleton.1 hcond) finish) fun _ => hround
  | .number .., h | .string .., h | .ident .., h | .unary .., h | .binary .., h | .convert .., h | .call .., h => by
    rw [Expr.evaluated] at h ⊢
    · exact (expr_takes (h _ (List.mem_singleton_self _))).fits fun _ st => released [] st
    all_goals simp

theorem stmtList_fits : ∀ {stmts : List Stmt}, (∀ e ∈ allEvaluated stmts, e.Straight) →
    Fits (allEvaluated stmts) (stmtList stmts)
  | [], _ => by
    rw [stmtList]
    exact (quiet_pure _).fits
  | s :: stmts, h => by
    rw [stmtList]
    exact fits_bind (stmt_fits fun e he => h e (List.mem_append_left _ he)) fun _ =>
      stmtList_fits fun e he => h e (List.mem_append_right _ he)

end

end Lower

/-! ## Accepted sources -/

section Accepted

variable {t : SymbolTable} {f : String}

/-- An expression that fits a table has no control structure in it. -/
theorem Typed.straight {e : Expr} (h : Typed t f e) : e.Straight := by
  induction h with
  | ident => exact .ident
  | number => exact .number
  | string => exact .string
  | addressOf => exact .unary .ident
  | step => exact .unary .ident
  | deref _ _ _ ih | negate _ _ _ ih | not _ _ _ ih => exact .unary ih
  | assignName _ _ _ _ _ _ ih => exact .binary .ident ih
  | assignAt _ _ _ _ _ _ _ ihAddress ih => exact .binary (.unary ihAddress) ih
  | arithmetic _ _ _ _ _ _ _ ihLeft ihRight => exact .binary ihLeft ihRight
  | widen _ _ _ ih | scale _ _ _ _ _ ih => exact .convert ih
  | call _ _ _ _ _ _ _ ih => exact .call ih

/-- A statement that fits a table has control structures as statements only, not in the expressions it evaluates. -/
theorem TypedStmt.straight {s : Stmt} (h : TypedStmt t f s) : ∀ e ∈ s.evaluated, e.Straight := by
  induction h with
  | retNone | varDecl | globalDecl => exact fun e he => absurd he (List.not_mem_nil)
  | retValue _ _ typed _ =>
    rw [Stmt.evaluated]
    exact List.forall_mem_singleton.2 typed.straight
  | expr typed =>
    rw [Stmt.evaluated, typed.straight.evaluated]
    exact List.forall_mem_singleton.2 typed.straight
  | block _ ih =>
    rw [Stmt.evaluated, allEvaluated_eq_flatMap]
    intro e he
    obtain ⟨s, hs, he⟩ := List.mem_flatMap.1 he
    exact ih s hs e he
  | @ifElse _ _ _ no typed _ _ _ ihYes ihNo =>
    rw [Stmt.evaluated, Expr.evaluated]
    refine List.forall_mem_append.2 ⟨List.forall_mem_singleton.2 typed.straight, List.forall_mem_append.2 ⟨ihYes, ?_⟩⟩
    cases no with
    | none => exact fun e he => absurd he List.not_mem_nil
    | some s => exact ihNo s rfl
  | whileLoop typed _ _ ih =>
    rw [Stmt.evaluated, Expr.evaluated]
    exact List.forall_mem_append.2 ⟨List.forall_mem_singleton.2 typed.straight, ih⟩
  | forLoop typedInit typed _ typedPost _ ih =>
    rw [Stmt.evaluated, Expr.evaluated]
    simp only [List.forall_mem_append, Option.mem_toList]
    exact ⟨fun e he => (typedInit e he).straight, fun e he => (typed e he).straight, ih,
      fun e he => (typedPost e he).straight⟩

theorem TypedItem.straight {item : Stmt} (h : TypedItem t item) : ∀ e ∈ item.evaluated, e.Straight := by
  cases h with
  | globalDecl | prototype => exact fun e he => absurd he List.not_mem_nil
  | function _ _ typed =>
    rw [Stmt.evaluated]
    exact typed.straight

end Accepted

end MiniC
