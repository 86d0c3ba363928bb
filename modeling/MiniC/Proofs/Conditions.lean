import MiniC.Proofs.Effects
import MiniC.Proofs.Expressions
import MiniC.Proofs.StatementCorrect

/-!
# Conditions as jumps and as values

A condition is lowered in two ways: as a value, zero or not, or as a jump that is taken when the condition is false. A
comparison as a value sets a byte by its flags; as a jump it is followed by the inverted jump at once. Everything else is
compared with zero before the jump.

* `Lower.condition_twinned`: from one state both ways meet the same fault, or both succeed with code that has the same operands
  in front (`Twins`).
* `Twins.jumpsOnZero`: such code does the same to memory, and the jump is taken exactly if the value is zero.
* `branch_agrees_with_value`: both, for the conditions of accepted programs.
-/

namespace MiniC

/-! ## Conditions in a body -/

/-- `cond` is the condition of a control structure somewhere in a statement. -/
inductive Stmt.Tests (cond : Expr) : Stmt → Prop where
  | block {stmts : List Stmt} {stmt : Stmt} (mem : stmt ∈ stmts) (inside : Tests cond stmt) : Tests cond (.block stmts)
  | ifCond {info : Info} {yes : Stmt} {no : Option Stmt} : Tests cond (.expr (.ifElse info cond yes no))
  | ifYes {info : Info} {e : Expr} {yes : Stmt} {no : Option Stmt} (inside : Tests cond yes) :
      Tests cond (.expr (.ifElse info e yes no))
  | ifNo {info : Info} {e : Expr} {yes no : Stmt} (inside : Tests cond no) :
      Tests cond (.expr (.ifElse info e yes (some no)))
  | whileCond {info : Info} {body : Stmt} : Tests cond (.expr (.whileLoop info cond body))
  | whileBody {info : Info} {e : Expr} {body : Stmt} (inside : Tests cond body) :
      Tests cond (.expr (.whileLoop info e body))
  | forCond {info : Info} {init post : Option Expr} {body : Stmt} :
      Tests cond (.expr (.forLoop info init (some cond) post body))
  | forBody {info : Info} {init e post : Option Expr} {body : Stmt} (inside : Tests cond body) :
      Tests cond (.expr (.forLoop info init e post body))

/-- Every condition in a statement that fits is an expression that fits, with a value. -/
theorem TypedStmt.tests {t : SymbolTable} {f : String} {cond : Expr} {s : Stmt} (hin : s.Tests cond)
    (h : TypedStmt t f s) : Typed t f cond ∧ cond.ty ≠ .void := by
  induction hin with
  | block mem _ ih =>
    cases h with
    | block typed => exact ih (typed _ mem)
  | ifCond =>
    cases h with
    | expr typed => cases typed
    | ifElse typed nonvoid => exact ⟨typed, nonvoid⟩
  | ifYes _ ih =>
    cases h with
    | expr typed => cases typed
    | ifElse _ _ typedYes => exact ih typedYes
  | ifNo _ ih =>
    cases h with
    | expr typed => cases typed
    | ifElse _ _ _ typedNo => exact ih (typedNo _ rfl)
  | whileCond =>
    cases h with
    | expr typed => cases typed
    | whileLoop typed nonvoid => exact ⟨typed, nonvoid⟩
  | whileBody _ ih =>
    cases h with
    | expr typed => cases typed
    | whileLoop _ _ typedBody => exact ih typedBody
  | forCond =>
    cases h with
    | expr typed => cases typed
    | forLoop _ typed nonvoid => exact ⟨typed _ rfl, nonvoid _ rfl⟩
  | forBody _ ih =>
    cases h with
    | expr typed => cases typed
    | forLoop _ _ _ _ typedBody => exact ih typedBody

/-! ## The two ways of lowering -/

/-- `value` leaves a condition in `r`; `test` is to be followed by a jump on `taken`. Both start with the same operands. -/
inductive Twins : (value test : List Instr) → Scratch → Cond → Prop where
  | comparison {code : List Instr} {op : BinaryOp} {cond : Cond} {l r : Scratch} (operator : op.cond? = some cond) :
      Twins (code ++ op.instrs l.reg r.reg) (code ++ [.cmp r.reg l.reg]) l cond.negated
  | whole {code : List Instr} {r : Scratch} : Twins code (code ++ [.cmpZero r.reg]) r .eq

namespace Lower

variable {t : SymbolTable} {f : String} {st : State} {cond : Expr}

/-- The code that both ways of lowering a condition have appended. -/
def Twinned (st : State) (target : Nat) (r? : Option Scratch) (stv : State) (_ : Unit) (stb : State) : Prop :=
  ∃ value test r taken, r? = some r ∧ Twins value test r taken ∧
    Emits st value (st.pool.set true r) st.pushed stv ∧ Emits st (test ++ [.jumpIf taken target]) {} st.pushed stb

theorem freeAll_emits {E : Fault → State → Prop} {st₁ : State} {code : List Instr} {pool : RegisterPool} {pushed : Nat}
    (h : Emits st code pool pushed st₁) : Ends freeAll st₁ (fun _ st' => Emits st code {} pushed st') E :=
  ends_modify ⟨h.context, h.function, h.segment, h.lines, rfl, h.pushed⟩

/-- A value that is compared with zero. -/
theorem whole_twinned (typed : Typed t f cond) (nonvoid : cond.ty ≠ .void) (hst : Ready t f st) (target : Nat) :
    Alike (expr cond) (branchCode none (value cond.line (expr cond)) target) st (Twinned st target) := by
  have hbranch : branchCode none (value cond.line (expr cond)) target = (expr cond >>= fun r? =>
      value cond.line (pure r?) >>= fun r => emit (.cmpZero r.reg) >>= fun _ => emit (.jumpIf .eq target) >>= fun _ =>
        freeAll) := by
    simp only [branchCode, value, bind_assoc, pure_bind]
  have hexpr : expr cond >>= pure = expr cond := bind_pure _
  rw [hbranch, ← hexpr, bind_assoc]
  refine alike_bind (expr_emits typed st hst) fun r? st₁ h₁ => ?_
  obtain ⟨⟨code, -, hemits⟩, hvoid⟩ := h₁
  obtain ⟨r, rfl⟩ := Option.ne_none_iff_exists'.1 fun hnone => nonvoid (hvoid hnone)
  have htest : Ends (emit (.cmpZero r.reg) >>= fun _ => emit (.jumpIf .eq target) >>= fun _ => freeAll) st₁
      (fun _ stb => Emits st (code ++ [.cmpZero r.reg] ++ [.jumpIf .eq target]) {} st.pushed stb) fun _ _ => False :=
    ends_bind (emit_emits hemits) fun _ _ h₂ => ends_bind (emit_emits h₂) fun _ _ h₃ => freeAll_emits h₃
  refine alike_of_ends (P := fun r' stv => r' = some r ∧ stv = st₁) ⟨rfl, rfl⟩ htest ?_
  rintro _ _ _ stb ⟨rfl, rfl⟩ hstb
  exact ⟨code, _, r, .eq, rfl, .whole, hemits, hstb⟩

/-- **Lowering conditions.** As a value and as a jump, a condition meets the same fault or gets code with the same
operands. -/
theorem condition_twinned (typed : Typed t f cond) (nonvoid : cond.ty ≠ .void) (hst : Ready t f st) (target : Nat) :
    Alike (expr cond) (branchCode (comparison cond) (value cond.line (expr cond)) target) st (Twinned st target) := by
  cases hcmp : comparison cond with
  | none => exact whole_twinned typed nonvoid hst target
  | some parts =>
    cases typed with
    | @arithmetic info op left right operator typedLeft typedRight same nonvoidLeft pointers ty =>
      rw [comparison] at hcmp
      obtain ⟨c, hc, rfl⟩ := Option.map_eq_some_iff.1 hcmp
      rw [expr]
      case x_1 => exact operator
      refine alike_bind (value_emits (expr_emits typedLeft) nonvoidLeft hst) ?_
      rintro l st₁ ⟨code, hcode, h₁⟩
      refine alike_bind (value_emits_after (expr_emits typedRight) (same ▸ nonvoidLeft) hst h₁) ?_
      rintro r st₂ ⟨code', hcode', h₂⟩
      have hresult : op.result l r = l := by cases op <;> first | rfl | cases hc
      have hvalue : Ends (some <$> arithmetic op l r) st₂ (fun q? stv => q? = some l ∧
          Emits st (code ++ code' ++ op.instrs l.reg r.reg) (st.pool.set true l) st.pushed stv) fun _ _ => False := by
        refine ends_map (ends_mono (arithmetic_emits operator h₂ (hcode.fresh l rfl) (hcode'.fresh r rfl)) ?_ fun _ _ h => h)
        rintro q stv ⟨rfl, hstv⟩
        rw [hresult] at hstv ⊢
        exact ⟨rfl, hstv⟩
      have htest : Ends (emit (.cmp r.reg l.reg) >>= fun _ => emit (.jumpIf c.negated target) >>= fun _ => freeAll) st₂
          (fun _ stb => Emits st (code ++ code' ++ [.cmp r.reg l.reg] ++ [.jumpIf c.negated target]) {} st.pushed stb)
          fun _ _ => False :=
        ends_bind (emit_emits h₂) fun _ _ h₃ => ends_bind (emit_emits h₃) fun _ _ h₄ => freeAll_emits h₄
      refine alike_of_ends hvalue htest ?_
      rintro _ stv _ stb ⟨rfl, hstv⟩ hstb
      exact ⟨_, _, l, c.negated, rfl, .comparison hc, hstv, hstb⟩
    | _ => simp [comparison, BinaryOp.cond?] at hcmp

end Lower

/-! ## Running both -/

/-- `test` does the same to memory as `value` and gets stuck exactly if `value` does; a jump on `taken` after `test` is
taken exactly if `value` leaves zero in `r`. -/
structure JumpsOnZero (value test : List Instr) (r : Reg) (taken : Cond) : Prop where
  memory : ∀ {Ω : Type} (link : Linkage) (callees : Callees Ω) (s : Machine Ω),
    effects link callees test s = effects link callees value s
  stuck : ∀ {Ω : Type} (link : Linkage) (callees : Callees Ω) (s : Machine Ω),
    run link callees test s = none ↔ run link callees value s = none
  jump : ∀ {Ω : Type} (link : Linkage) (callees : Callees Ω) (s s₁ : Machine Ω), run link callees value s = some s₁ →
    ∃ s₂, run link callees test s = some s₂ ∧ s₂.store = s₁.store ∧ (∀ q, q ≠ r → s₂.regs q = s₁.regs q) ∧
      ∀ (text rest : List Line) (target : Nat),
        step link callees text ⟨.instr (.jumpIf taken target) :: rest, s₂⟩ =
          if s₁.regs r = 0 then (linesFrom (.label target) text).map (⟨·, s₂⟩) else some ⟨rest, s₂⟩

section Running

variable {Ω : Type} {link : Linkage} {callees : Callees Ω} {s : Machine Ω}

/-- What the ends of both codes do after the same operands. -/
theorem JumpsOnZero.after {code value test : List Instr} {r : Reg} {taken : Cond}
    (hends : ∀ {Ω : Type} (link : Linkage) (callees : Callees Ω) (s : Machine Ω),
      effects link callees value s = [] ∧ effects link callees test s = [] ∧
      ∃ s₁ s₂ x y, run link callees value s = some s₁ ∧ run link callees test s = some s₂ ∧
        (∀ q, q ≠ r → s₂.regs q = s₁.regs q) ∧ s₂.flags = some (.compare x y) ∧ taken.test x y = (s₁.regs r == 0)) :
    JumpsOnZero (code ++ value) (code ++ test) r taken := by
  have heffects : ∀ {Ω : Type} (link : Linkage) (callees : Callees Ω) (s : Machine Ω),
      effects link callees (code ++ test) s = effects link callees (code ++ value) s := by
    intro Ω link callees s
    rw [effects_append, effects_append]
    cases run link callees code s with
    | none => rfl
    | some s₀ => rw [Option.map_some, Option.map_some, (hends link callees s₀).1, (hends link callees s₀).2.1]
  refine ⟨heffects, fun link callees s => ?_, fun link callees s s₁ h => ?_⟩
  · rw [run_append, run_append]
    cases run link callees code s with
    | none => exact Iff.rfl
    | some s₀ =>
      obtain ⟨-, -, s₁, s₂, x, y, hvalue, htest, -⟩ := hends link callees s₀
      simp [hvalue, htest]
  · have hstore := run_effects h
    rw [run_append] at h
    obtain ⟨s₀, hcode, hvalue'⟩ := Option.bind_eq_some_iff.1 h
    obtain ⟨-, -, s₁', s₂, x, y, hvalue, htest, hregs, hflags, htaken⟩ := hends link callees s₀
    cases hvalue.symm.trans hvalue'
    have hrun : run link callees (code ++ test) s = some s₂ := by rw [run_append, hcode]; exact htest
    refine ⟨s₂, hrun, ?_, hregs, fun text rest target => ?_⟩
    · rw [← heffects, run_effects hrun] at hstore
      exact Option.some.inj hstore
    · rw [step, hflags, Option.bind_some, Cond.holds_compare, htaken]
      simp only [beq_iff_eq]

/-- **Both ways of lowering.** The jump is taken exactly if the value is zero. -/
theorem Twins.jumpsOnZero {value test : List Instr} {r : Scratch} {taken : Cond} (h : Twins value test r taken) :
    JumpsOnZero value test r.reg taken := by
  cases h with
  | comparison operator =>
    rename_i code op cond right
    have hinstrs : op.instrs r.reg right.reg = BinaryOp.instrs.comparing r.reg right.reg cond := by
      cases op <;> cases operator <;> rfl
    rw [hinstrs]
    refine .after fun link callees s => ⟨?_, rfl, ?_⟩
    · rfl
    have hcomputes : Computes link callees s (BinaryOp.instrs.comparing r.reg right.reg cond) [r.reg] r.reg _ :=
      computes_comparing cond rfl rfl
    obtain ⟨s₁, hrun, hvalue, -, hregs⟩ := hcomputes
    refine ⟨s₁, _, s.regs r.reg, s.regs right.reg, hrun, rfl, fun q hq => ?_, rfl, ?_⟩
    · exact (hregs q (by simpa using hq)).symm
    · rw [hvalue, Cond.test_negated]
      cases cond.test (s.regs r.reg) (s.regs right.reg) <;> rfl
  | whole =>
    have hnil : JumpsOnZero (value ++ []) (value ++ [.cmpZero r.reg]) r.reg .eq :=
      .after fun link callees s => ⟨rfl, rfl, s, _, s.regs r.reg, 0, rfl, rfl, fun _ _ => rfl, rfl, rfl⟩
    rwa [List.append_nil] at hnil

end Running

/-! ## The theorem -/

section Accepted

variable {earlier : List String} {source : String} {program : Program} {context : Context} {f : String} {body : Stmt}
  {cond : Expr} {st : Lower.State}

/-- **Branches agree with values.** Take a condition in a body, the frame of its function laid out, no register live and
any values pushed, and any label. Lowered as a value and as a jump, the condition meets the same fault, or both succeed.
Then no register is live after the jump, and on every machine the two codes do the same to memory in the same order, get
stuck together, and the jump is taken exactly if the value is zero. -/
theorem branch_agrees_with_value
    (hparse : parseSource source (buildSources earlier {}).2 = .ok program context) (hf : .function f body ∈ program)
    (hcond : body.Tests cond) (laid : List String)
    (hst : st.context.symbols = (Frame.layout (Frame.layouts context.symbols laid) f).1) (hfunction : st.function = some f)
    (hpool : st.pool = {}) (target : Nat) :
    let branch := Lower.branchCode (Lower.comparison cond) (Lower.value cond.line (Lower.expr cond)) target
    (∃ r stv stb value test taken, Lower.expr cond st = .ok (some r) stv ∧ branch st = .ok () stb ∧
      stv.lines.toList = st.lines.toList ++ instrLines value ∧
      stb.lines.toList = st.lines.toList ++ instrLines (test ++ [.jumpIf taken target]) ∧
      stv.pool = ({} : RegisterPool).set true r ∧ stb.pool = {} ∧ JumpsOnZero value test r.reg taken) ∨
    ∃ fault stv stb, Lower.expr cond st = .error fault stv ∧ branch st = .error fault stb := by
  intro branch
  obtain ⟨hready, htyped⟩ := function_ready hparse hf laid hst hfunction
  obtain ⟨typed, nonvoid⟩ := htyped.tests hcond
  rcases alike_cases (Lower.condition_twinned typed nonvoid hready target) with
    ⟨r?, stv, ⟨⟩, stb, hvalue, htest, value, test, r, taken, rfl, htwins, hstv, hstb⟩ | hfault
  · rw [hpool] at hstv
    exact .inl ⟨r, stv, stb, value, test, taken, hvalue, htest, hstv.lines, hstb.lines, hstv.pool, hstb.pool,
      htwins.jumpsOnZero⟩
  · exact .inr hfault

/-! ### A comparison with a call -/

/-- The first statement of `f` is a choice, and its condition can be lowered. -/
def chooses : EStateM.Result Fault Context Program → Bool
  | .ok [.function name (.block [.expr (.ifElse _ cond _ none), _])] context =>
    name == "f" && (ended (Lower.expr cond (bodyState context "f"))).isSome
  | _ => false

theorem chooses_cases {result : EStateM.Result Fault Context Program} (h : chooses result = true) :
    ∃ info cond yes last context r? st',
      result = .ok [.function "f" (.block [.expr (.ifElse info cond yes none), last])] context ∧
      Lower.expr cond (bodyState context "f") = .ok r? st' := by
  unfold chooses at h
  split at h
  · next name info cond yes last context =>
    simp only [Bool.and_eq_true, beq_iff_eq] at h
    obtain ⟨rfl, hlower⟩ := h
    obtain ⟨r?, st', hok⟩ := exists_of_ended hlower
    exact ⟨info, cond, yes, last, context, r?, st', rfl, hok⟩
  · cases h

theorem branch_agrees_with_value_call :
    ∃ program context cond r stv stb value test taken,
      parseSource "func f(int a, int b) -> int \x7b if (f(b, a) <= a * b++) return a; return b; \x7d"
        (buildSources [] {}).2 = .ok program context ∧
      Lower.expr cond (bodyState context "f") = .ok (some r) stv ∧
      Lower.branchCode (Lower.comparison cond) (Lower.value cond.line (Lower.expr cond)) 7 (bodyState context "f") =
        .ok () stb ∧
      stv.lines.toList = instrLines value ∧ stb.lines.toList = instrLines (test ++ [.jumpIf taken 7]) ∧ stb.pool = {} ∧
      JumpsOnZero value test r.reg taken := by
  have hchecked : chooses (parseSource
      "func f(int a, int b) -> int \x7b if (f(b, a) <= a * b++) return a; return b; \x7d" (buildSources [] {}).2) = true := by
    decide +kernel
  obtain ⟨info, cond, yes, last, context, r?, st', hparse, hok⟩ := chooses_cases hchecked
  have hsymbols : (bodyState context "f").context.symbols = (Frame.layout (Frame.layouts context.symbols []) "f").1 := rfl
  rcases branch_agrees_with_value hparse (List.mem_singleton_self _) (.block List.mem_cons_self .ifCond) [] hsymbols rfl
      rfl 7 with
    ⟨r, stv, stb, value, test, taken, hvalue, hbranch, hlines, hlines', -, hpool, hjumps⟩ | ⟨_, _, _, hfault, -⟩
  · exact ⟨_, context, cond, r, stv, stb, value, test, taken, hparse, hvalue, hbranch, hlines, hlines', hpool, hjumps⟩
  · rw [hok] at hfault
    cases hfault

end Accepted

end MiniC
