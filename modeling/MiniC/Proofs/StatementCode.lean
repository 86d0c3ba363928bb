import MiniC.Proofs.ExpressionCode

/-!
# The code of statements

`StmtCode t f ret exit n stmt lines n'` says which lines a statement in the body of `f` is lowered to, when labels are
drawn from `n` up to `n'`, the function returns `ret`, and its epilogue stands under the label `exit`. Between two
statements no register is live and nothing is pushed, so the code of every expression starts from an empty pool.

* `Lower.stmt_emits`: a statement that fits is lowered to such lines, unless the registers run out.
* `StmtCode.le`: labels are drawn upwards.
-/

namespace MiniC

/-! ## Shapes of code -/

/-- Instructions as lines. -/
def instrLines (code : List Instr) : List Line := code.map .instr

@[simp] theorem instrLines_append (code code' : List Instr) :
    instrLines (code ++ code') = instrLines code ++ instrLines code' := List.map_append

/-- `code` jumps to `target` when a condition is false. -/
inductive TestCode (t : SymbolTable) (f : String) (target : Nat) : Expr → List Instr → Prop where
  | comparison {info : Info} {op : BinaryOp} {cond : Cond} {left right : Expr} {l r : Scratch} {code code' : List Instr}
      (operator : op.cond? = some cond) (first : Code t f {} 0 (.value left) (some l) code)
      (second : Code t f (.set {} true l) 0 (.value right) (some r) code') :
      TestCode t f target (.binary info op left right)
        (code ++ (code' ++ [.cmp r.reg l.reg, .jumpIf cond.negated target]))
  | value {e : Expr} {r : Scratch} {code : List Instr} (value : Code t f {} 0 (.value e) (some r) code) :
      TestCode t f target e (code ++ [.cmpZero r.reg, .jumpIf .eq target])

/-- `code` computes an expression, if there is one, whose value is not used. -/
inductive AsideCode (t : SymbolTable) (f : String) : Option Expr → List Instr → Prop where
  | none : AsideCode t f none []
  | some {e : Expr} {r? : Option Scratch} {code : List Instr} (value : Code t f {} 0 (.value e) r? code) :
      AsideCode t f (some e) code

/-- `code` jumps to `target` when a condition, if there is one, is false. -/
inductive GuardCode (t : SymbolTable) (f : String) (target : Nat) : Option Expr → List Instr → Prop where
  | none : GuardCode t f target none []
  | some {e : Expr} {code : List Instr} (test : TestCode t f target e code) : GuardCode t f target (some e) code

/-- `lines` is what a statement in the body of `f` is lowered to. -/
inductive StmtCode (t : SymbolTable) (f : String) (ret : Ty) (exit : Nat) : Nat → Stmt → List Line → Nat → Prop where
  | retNone {n : Nat} : StmtCode t f ret exit n (.ret none) [.instr (.jump exit)] n
  | retValue {n : Nat} {e : Expr} {r : Scratch} {code : List Instr} (value : Code t f {} 0 (.value e) (some r) code) :
      StmtCode t f ret exit n (.ret (some e)) (instrLines (code ++ [.narrow ret.width r.reg .rax, .jump exit])) n
  | expr {n : Nat} {e : Expr} {r? : Option Scratch} {code : List Instr} (value : Code t f {} 0 (.value e) r? code) :
      StmtCode t f ret exit n (.expr e) (instrLines code) n
  | varDecl {n : Nat} {name : String} : StmtCode t f ret exit n (.varDecl name) [] n
  | globalDecl {n : Nat} {name : String} {s : Symbol} (found : t.global? name = some s) :
      StmtCode t f ret exit n (.globalDecl name) (.directive .data :: (Lower.zeros name s ++ [.directive .text])) n
  | blockNil {n : Nat} : StmtCode t f ret exit n (.block []) [] n
  | blockCons {n n₁ n₂ : Nat} {s : Stmt} {rest : List Stmt} {lines lines' : List Line}
      (first : StmtCode t f ret exit n s lines n₁) (others : StmtCode t f ret exit n₁ (.block rest) lines' n₂) :
      StmtCode t f ret exit n (.block (s :: rest)) (lines ++ lines') n₂
  | ifThen {n n₁ : Nat} {info : Info} {cond : Expr} {yes : Stmt} {code : List Instr} {lines : List Line}
      (test : TestCode t f n cond code) (body : StmtCode t f ret exit (n + 1) yes lines n₁) :
      StmtCode t f ret exit n (.expr (.ifElse info cond yes none)) (instrLines code ++ (lines ++ [.label n])) n₁
  | ifElse {n n₁ n₂ : Nat} {info : Info} {cond : Expr} {yes no : Stmt} {code : List Instr} {lines lines' : List Line}
      (test : TestCode t f n cond code) (body : StmtCode t f ret exit (n + 2) yes lines n₁)
      (other : StmtCode t f ret exit n₁ no lines' n₂) :
      StmtCode t f ret exit n (.expr (.ifElse info cond yes (some no)))
        (instrLines code ++ (lines ++ ([.instr (.jump (n + 1)), .label n] ++ (lines' ++ [.label (n + 1)])))) n₂
  | whileLoop {n n₁ : Nat} {info : Info} {cond : Expr} {body : Stmt} {code : List Instr} {lines : List Line}
      (test : TestCode t f (n + 1) cond code) (rounds : StmtCode t f ret exit (n + 2) body lines n₁) :
      StmtCode t f ret exit n (.expr (.whileLoop info cond body))
        (.label n :: (instrLines code ++ (lines ++ [.instr (.jump n), .label (n + 1)]))) n₁
  | forLoop {n n₁ : Nat} {info : Info} {init cond post : Option Expr} {body : Stmt} {first code last : List Instr}
      {lines : List Line} (start : AsideCode t f init first) (test : GuardCode t f (n + 1) cond code)
      (rounds : StmtCode t f ret exit (n + 2) body lines n₁) (next : AsideCode t f post last) :
      StmtCode t f ret exit n (.expr (.forLoop info init cond post body))
        (instrLines first ++ (.label n :: (instrLines code ++
          (lines ++ (instrLines last ++ [.instr (.jump n), .label (n + 1)]))))) n₁

/-- Labels are drawn upwards. -/
theorem StmtCode.le {t : SymbolTable} {f : String} {ret : Ty} {exit n n' : Nat} {stmt : Stmt} {lines : List Line}
    (h : StmtCode t f ret exit n stmt lines n') : n ≤ n' := by
  induction h <;> omega

namespace Lower

variable {t : SymbolTable} {f : String} {ret : Ty} {exit low next : Nat} {st st₁ : State} {lines : List Line}
  {E : Fault → State → Prop}

/-! ## The state between two statements -/

/-- The body of `f` is being lowered; `lines` is the listing so far, and `next` the next label, not below `low`. -/
structure Body (t : SymbolTable) (f : String) (low : Nat) (lines : List Line) (next : Nat) (st : State) : Prop where
  symbols : st.context.symbols = t
  labels : st.context.nextLabel = next
  above : low ≤ next
  function : st.function = some f
  segment : st.segment = some .text
  placed : ∀ name s, t.local? f name = some s → ∃ position, s.position = some position
  lines : st.lines.toList = lines
  pool : st.pool = {}
  pushed : st.pushed = 0

/-- The registers ran out; the symbols are still those of `t`, and no label below `low` is drawn again. -/
def RanOut (t : SymbolTable) (low : Nat) (fault : Fault) (st : State) : Prop :=
  (∃ line, fault = .outOfRegisters line) ∧ st.context.symbols = t ∧ low ≤ st.context.nextLabel

namespace Body

theorem ready (h : Body t f low lines next st) : Ready t f st := ⟨h.symbols, h.function, h.placed⟩

theorem ranOut (h : Body t f low lines next st) {fault : Fault} {st' : State} (h' : Exhausted st.context fault st') :
    RanOut t low fault st' := by
  refine ⟨h'.1, ?_, ?_⟩ <;> rw [h'.2]
  · exact h.symbols
  · rw [h.labels]
    exact h.above

/-- Straight code that leaves no register live. -/
theorem after (h : Body t f low lines next st) {code : List Instr} (h' : Emits st code {} 0 st₁) :
    Body t f low (lines ++ instrLines code) next st₁ :=
  ⟨h'.context ▸ h.symbols, h'.context ▸ h.labels, h.above, h'.function.trans h.function, h'.segment.trans h.segment,
    h.placed, by rw [h'.lines, h.lines]; rfl, h'.pool, h'.pushed⟩

/-- After straight code all registers are given back. -/
theorem freeAll (h : Body t f low lines next st) {code : List Instr} {pool : RegisterPool}
    (h' : Emits st code pool 0 st₁) :
    Ends freeAll st₁ (fun _ st' => Body t f low (lines ++ instrLines code) next st') E := by
  have hfree : Emits st code {} 0 { st₁ with pool := {} } :=
    ⟨h'.context, h'.function, h'.segment, h'.lines, rfl, h'.pushed⟩
  exact h.after hfree

theorem release (h : Body t f low lines next st) :
    Ends Lower.freeAll st (fun _ st' => Body t f low lines next st') E :=
  ⟨h.symbols, h.labels, h.above, h.function, h.segment, h.placed, h.lines, rfl, h.pushed⟩

theorem append (h : Body t f low lines next st) (line : Line) :
    Ends (append line) st (fun _ st' => Body t f low (lines ++ [line]) next st') E :=
  ⟨h.symbols, h.labels, h.above, h.function, h.segment, h.placed, by simp [h.lines], h.pool, h.pushed⟩

theorem drawLabel (h : Body t f low lines next st) :
    Ends drawLabel st (fun n st' => n = next ∧ Body t f low lines (next + 1) st') E :=
  ⟨h.labels, h.symbols, congrArg (· + 1) h.labels, Nat.le_succ_of_le h.above, h.function, h.segment, h.placed, h.lines,
    h.pool, h.pushed⟩

/-- The code of an expression, up to giving the registers back. -/
theorem operand (h : Body t f low lines next st) {e : Expr} {line : Nat} (he : Typed t f e) (hv : e.ty ≠ .void) :
    Ends (value line (expr e)) st (fun r st' => ∃ code, Code t f {} 0 (.value e) (some r) code ∧
      Emits st code (.set {} true r) 0 st') (RanOut t low) := by
  refine ends_mono (value_emits (expr_emits he) hv h.ready) (fun r st' hr => ?_) fun _ _ => h.ranOut
  obtain ⟨code, hcode, hemits⟩ := hr
  rw [h.pool, h.pushed] at hcode hemits
  exact ⟨code, hcode, hemits⟩

/-- The code of an expression, up to giving the registers back, after other code. -/
theorem operand_after (h : Body t f low lines next st) {e : Expr} {line : Nat} {code : List Instr} {pool : RegisterPool}
    (he : Typed t f e) (hv : e.ty ≠ .void) (h' : Emits st code pool 0 st₁) :
    Ends (value line (expr e)) st₁ (fun r st' => ∃ code', Code t f pool 0 (.value e) (some r) code' ∧
      Emits st (code ++ code') (pool.set true r) 0 st') (RanOut t low) :=
  ends_mono (value_emits_after (expr_emits he) hv h.ready h') (fun _ _ hr => hr) fun _ _ => h.ranOut

/-- An expression as a statement. -/
theorem aside (h : Body t f low lines next st) {e : Expr} (he : Typed t f e) :
    Ends (do let _ ← expr e; Lower.freeAll) st (fun _ st' => ∃ r? code, Code t f {} 0 (.value e) r? code ∧
      Body t f low (lines ++ instrLines code) next st') (RanOut t low) := by
  refine ends_bind (ends_mono (expr_emits he st h.ready) (fun _ _ hr => hr) fun _ _ => h.ranOut) fun r? st₁ hr => ?_
  obtain ⟨⟨code, hcode, hemits⟩, -⟩ := hr
  rw [h.pushed] at hemits
  rw [h.pool, h.pushed] at hcode
  exact ends_mono (h.freeAll hemits) (fun _ st' h' => ⟨r?, code, hcode, h'⟩) fun _ _ h => h

end Body

/-! ## Parts of statements -/

/-- A conditional jump tests a comparison, or any other value against zero. -/
theorem branchCode_emits (h : Body t f low lines next st) {cond : Expr} {target : Nat} (he : Typed t f cond)
    (hv : cond.ty ≠ .void) :
    Ends (branchCode (comparison cond) (value cond.line (expr cond)) target) st
      (fun _ st' => ∃ code, TestCode t f target cond code ∧ Body t f low (lines ++ instrLines code) next st')
      (RanOut t low) := by
  unfold branchCode
  have hwhole : Ends (do
      let r ← value cond.line (expr cond)
      emit (.cmpZero r.reg)
      emit (.jumpIf .eq target)
      freeAll) st
      (fun _ st' => ∃ code, TestCode t f target cond code ∧ Body t f low (lines ++ instrLines code) next st')
      (RanOut t low) := by
    refine ends_bind (h.operand he hv) ?_
    rintro r st₁ ⟨code, hcode, h₁⟩
    refine ends_bind (emit_emits h₁) fun _ st₂ h₂ => ends_bind (emit_emits h₂) fun _ st₃ h₃ => ?_
    rw [List.append_assoc] at h₃
    exact ends_mono (h.freeAll h₃) (fun _ _ h' => ⟨_, .value hcode, h'⟩) fun _ _ h => h
  cases hcmp : comparison cond with
  | none => exact hwhole
  | some parts =>
    cases he with
    | @arithmetic info op left right operator typedLeft typedRight same nonvoid pointers ty =>
      rw [comparison] at hcmp
      obtain ⟨c, hc, rfl⟩ := Option.map_eq_some_iff.1 hcmp
      refine ends_bind (h.operand typedLeft nonvoid) ?_
      rintro l st₁ ⟨code, hcode, h₁⟩
      refine ends_bind (h.operand_after typedRight (same ▸ nonvoid) h₁) ?_
      rintro r st₂ ⟨code', hcode', h₂⟩
      refine ends_bind (emit_emits h₂) fun _ st₃ h₃ => ends_bind (emit_emits h₃) fun _ st₄ h₄ => ?_
      rw [List.append_assoc, List.append_assoc] at h₄
      exact ends_mono (h.freeAll h₄) (fun _ _ h' => ⟨_, .comparison hc hcode hcode', h'⟩) fun _ _ h => h
    | _ => simp [comparison, BinaryOp.cond?] at hcmp

theorem discarded_emits (h : Body t f low lines next st) {e? : Option Expr} (he : ∀ e, e? = some e → Typed t f e) :
    Ends (discarded e?) st (fun _ st' => ∃ code, AsideCode t f e? code ∧ Body t f low (lines ++ instrLines code) next st')
      (RanOut t low) := by
  cases e? with
  | none =>
    rw [discarded]
    refine ⟨[], .none, ?_⟩
    rw [instrLines, List.map_nil, List.append_nil]
    exact h
  | some e =>
    rw [discarded]
    refine ends_mono (h.aside (he e rfl)) (fun _ st' h' => ?_) fun _ _ h => h
    obtain ⟨r?, code, hcode, h'⟩ := h'
    exact ⟨code, .some hcode, h'⟩

theorem appendAll_ends : ∀ (new : List Line) (st : State),
    Ends (new.forM append) st (fun _ st' => st' = { st with lines := st.lines ++ new.toArray }) E
  | [], st => by simp; exact rfl
  | line :: new, st => by
    show Ends (append line >>= fun _ => new.forM append) st _ E
    refine ends_bind (P := fun _ st' => st' = { st with lines := st.lines.push line }) rfl ?_
    rintro _ _ rfl
    refine ends_mono (appendAll_ends new _) ?_ fun _ _ h => h
    rintro _ _ rfl
    simp

/-- The directive that switches from one segment to another, if they differ. -/
def switching (current : Option Segment) (segment : Segment) : List Line :=
  if current = some segment then [] else [.directive segment.directive]

theorem enter_ends (segment : Segment) (st : State) : Ends (enter segment) st
    (fun _ st' => st' = { st with
      segment := some segment, lines := st.lines ++ (switching st.segment segment).toArray }) E := by
  unfold enter switching
  refine ends_get_bind ?_
  by_cases hseg : st.segment = some segment
  · simp only [hseg, ne_eq, not_true_eq_false, ↓reduceIte]
    show st = _
    rw [← hseg]
    simp
  · simp only [hseg, ne_eq, not_false_eq_true, ↓reduceIte]
    show _ = _
    simp

/-- A global variable, in the middle of code or between functions. -/
theorem globalCode_ends {name : String} {s : Symbol} (h : st.context.symbols.global? name = some s) :
    Ends (globalCode name) st (fun _ st' => st' = { st with
      segment := some (if st.function.isSome then .text else .data)
      lines := st.lines ++ (switching st.segment .data ++ (zeros name s ++
        (if st.function.isSome then [Line.directive .text] else []))).toArray }) E := by
  unfold globalCode
  refine ends_get_bind ?_
  simp only [h]
  refine ends_bind (enter_ends .data st) ?_
  rintro _ _ rfl
  refine ends_bind (appendAll_ends _ _) ?_
  rintro _ _ rfl
  refine ends_get_bind ?_
  cases st.function with
  | none => exact ends_pure (by simp)
  | some f =>
    refine ends_mono (enter_ends .text _) ?_ fun _ _ h => h
    rintro _ _ rfl
    simp [switching, Segment.directive]

/-! ## Statements -/

/-- The code of `s` was appended to `lines`. -/
def Appended (t : SymbolTable) (f : String) (ret : Ty) (exit low : Nat) (lines : List Line) (next : Nat) (s : Stmt)
    (st' : State) : Prop :=
  ∃ new next', StmtCode t f ret exit next s new next' ∧ Body t f low (lines ++ new) next' st'

/-- Lowering `s` in the body of `f` appends its code or runs out of registers. -/
def EmitsStmt (t : SymbolTable) (f : String) (ret : Ty) (exit : Nat) (s : Stmt) : Prop :=
  ∀ {low next : Nat} {lines : List Line} {st : State}, Body t f low lines next st →
    Ends (stmt s) st (fun _ st' => Appended t f ret exit low lines next s st') (RanOut t low)

/-- Control structures are expressions without a value, so no register is held after them. -/
theorem control_emits {e : Expr}
    (h : Ends (expr e) st (fun _ st' => Appended t f ret exit low lines next (.expr e) st') (RanOut t low)) :
    Ends (stmt (.expr e)) st (fun _ st' => Appended t f ret exit low lines next (.expr e) st') (RanOut t low) := by
  rw [stmt]
  refine ends_bind h ?_
  rintro _ st₁ ⟨new, next', hcode, h₁⟩
  exact ends_mono h₁.release (fun _ _ h' => ⟨_, _, hcode, h'⟩) fun _ _ h => h

theorem ifElse_emits {info : Info} {cond : Expr} {yes : Stmt} {no : Option Stmt} (typed : Typed t f cond)
    (nonvoid : cond.ty ≠ .void) (hyes : EmitsStmt t f ret exit yes) (hno : ∀ s, no = some s → EmitsStmt t f ret exit s) :
    EmitsStmt t f ret exit (.expr (.ifElse info cond yes no)) := by
  intro low next lines st h
  refine control_emits ?_
  rw [expr]
  refine ends_bind h.drawLabel ?_
  rintro _ st₁ ⟨rfl, h₁⟩
  cases no with
  | none =>
    refine ends_bind (branchCode_emits h₁ typed nonvoid) ?_
    rintro _ st₂ ⟨code, htest, h₂⟩
    refine ends_bind (hyes h₂) ?_
    rintro _ st₃ ⟨new, next₁, hbody, h₃⟩
    refine ends_bind (h₃.append _) fun _ st₄ h₄ => ⟨_, _, .ifThen htest hbody, ?_⟩
    simpa only [List.append_assoc] using h₄
  | some no =>
    refine ends_bind h₁.drawLabel ?_
    rintro _ st₂ ⟨rfl, h₂⟩
    refine ends_bind (branchCode_emits h₂ typed nonvoid) ?_
    rintro _ st₃ ⟨code, htest, h₃⟩
    refine ends_bind (hyes h₃) ?_
    rintro _ st₄ ⟨new, next₁, hbody, h₄⟩
    refine ends_bind (h₄.append _) fun _ st₅ h₅ => ends_bind (h₅.append _) fun _ st₆ h₆ => ?_
    refine ends_bind (hno no rfl h₆) ?_
    rintro _ st₇ ⟨new', next₂, hother, h₇⟩
    refine ends_bind (h₇.append _) fun _ st₈ h₈ => ⟨_, _, .ifElse htest hbody hother, ?_⟩
    simpa only [List.append_assoc, List.cons_append, List.nil_append] using h₈

theorem whileLoop_emits {info : Info} {cond : Expr} {body : Stmt} (typed : Typed t f cond) (nonvoid : cond.ty ≠ .void)
    (hbody : EmitsStmt t f ret exit body) : EmitsStmt t f ret exit (.expr (.whileLoop info cond body)) := by
  intro low next lines st h
  refine control_emits ?_
  rw [expr]
  refine ends_bind h.drawLabel ?_
  rintro _ st₁ ⟨rfl, h₁⟩
  refine ends_bind h₁.drawLabel ?_
  rintro _ st₂ ⟨rfl, h₂⟩
  refine ends_bind (h₂.append _) fun _ st₃ h₃ => ?_
  refine ends_bind (branchCode_emits h₃ typed nonvoid) ?_
  rintro _ st₄ ⟨code, htest, h₄⟩
  refine ends_bind (hbody h₄) ?_
  rintro _ st₅ ⟨new, next₁, hrounds, h₅⟩
  refine ends_bind (h₅.append _) fun _ st₆ h₆ => ends_bind (h₆.append _) fun _ st₇ h₇ =>
    ⟨_, _, .whileLoop htest hrounds, ?_⟩
  simpa only [List.append_assoc, List.cons_append, List.nil_append] using h₇

theorem forLoop_emits {info : Info} {init cond post : Option Expr} {body : Stmt}
    (typedInit : ∀ e, init = some e → Typed t f e) (typed : ∀ e, cond = some e → Typed t f e)
    (nonvoid : ∀ e, cond = some e → e.ty ≠ .void) (typedPost : ∀ e, post = some e → Typed t f e)
    (hbody : EmitsStmt t f ret exit body) : EmitsStmt t f ret exit (.expr (.forLoop info init cond post body)) := by
  intro low next lines st h
  refine control_emits ?_
  rw [expr]
  refine ends_bind h.drawLabel ?_
  rintro start st₁ ⟨rfl, h₁⟩
  refine ends_bind h₁.drawLabel ?_
  rintro _ st₂ ⟨rfl, h₂⟩
  refine ends_bind (discarded_emits h₂ typedInit) ?_
  rintro _ st₃ ⟨first, hfirst, h₃⟩
  refine ends_bind (h₃.append _) fun _ st₄ h₄ => ?_
  -- What follows the test is the same whether or not there is a condition.
  have hrest : ∀ {code : List Instr} {st₅ : State}, GuardCode t f (start + 1) cond code →
      Body t f low (lines ++ instrLines first ++ [.label start] ++ instrLines code) (start + 1 + 1) st₅ →
      Ends (do
        stmt body
        discarded post
        emit (.jump start)
        label (start + 1)
        pure none) st₅ (fun (_ : Option Scratch) st' =>
          Appended t f ret exit low lines start (.expr (.forLoop info init cond post body)) st') (RanOut t low) := by
    intro code st₅ htest h₅
    refine ends_bind (hbody h₅) ?_
    rintro _ st₆ ⟨new, next₁, hrounds, h₆⟩
    refine ends_bind (discarded_emits h₆ typedPost) ?_
    rintro _ st₇ ⟨last, hlast, h₇⟩
    refine ends_bind (h₇.append _) fun _ st₈ h₈ => ends_bind (h₈.append _) fun _ st₉ h₉ =>
      ⟨_, _, .forLoop hfirst htest hrounds hlast, ?_⟩
    simpa only [List.append_assoc, List.cons_append, List.nil_append] using h₉
  cases cond with
  | none => exact hrest .none (by simpa [instrLines] using h₄)
  | some cond =>
    refine ends_bind (branchCode_emits h₄ (typed cond rfl) (nonvoid cond rfl)) ?_
    rintro _ st₅ ⟨code, htest, h₅⟩
    exact hrest (.some htest) h₅

theorem block_emits : ∀ {stmts : List Stmt}, (∀ s ∈ stmts, EmitsStmt t f ret exit s) →
    EmitsStmt t f ret exit (.block stmts)
  | [], _, low, next, lines, st, h => by
    rw [stmt, stmtList]
    exact ⟨[], next, .blockNil, by rw [List.append_nil]; exact h⟩
  | s :: rest, hs, low, next, lines, st, h => by
    rw [stmt, stmtList]
    refine ends_bind (hs s List.mem_cons_self h) ?_
    rintro _ st₁ ⟨new, next₁, hcode, h₁⟩
    have hrest := block_emits (fun s' hs' => hs s' (List.mem_cons_of_mem _ hs')) h₁
    rw [stmt] at hrest
    refine ends_mono hrest ?_ fun _ _ h => h
    rintro _ st₂ ⟨new', next₂, hcode', h₂⟩
    rw [List.append_assoc] at h₂
    exact ⟨_, _, .blockCons hcode hcode', h₂⟩

section Function

variable (hf : ∃ s, t.global? f = some s ∧ s.ty = ret ∧ s.label = some exit)

include hf

theorem epilogueOf_ends (h : st.context.symbols.global? f = t.global? f) :
    Ends (epilogueOf f) st (fun found st' => found = (ret, exit) ∧ st = st') E := by
  obtain ⟨s, hs, rfl, hl⟩ := hf
  unfold epilogueOf
  refine ends_get_bind ?_
  rw [h, hs]
  obtain ⟨name, scope, kind, ty, label, count, position, defined⟩ := s
  cases hl
  exact ⟨rfl, rfl⟩

/-- A `return` with or without a value; `code` computes the value. -/
theorem returnCode_emits (h : Body t f low lines next st) {value? : Option (LowerM Scratch)} {s : Stmt}
    (hnone : value? = none → s = .ret none)
    (hsome : ∀ code, value? = some code → ∃ e, s = .ret (some e) ∧ Ends code st (fun r st' => ∃ code,
      Code t f {} 0 (.value e) (some r) code ∧ Emits st code (.set {} true r) 0 st') (RanOut t low)) :
    Ends (returnCode value?) st (fun _ st' => Appended t f ret exit low lines next s st') (RanOut t low) := by
  unfold returnCode
  refine ends_get_bind ?_
  simp only [h.function]
  refine ends_bind (epilogueOf_ends hf (by rw [h.symbols])) ?_
  rintro _ _ ⟨rfl, rfl⟩
  cases value? with
  | none =>
    refine ends_bind (h.append _) fun _ st₁ h₁ => ?_
    exact ends_mono h₁.release (fun _ _ h' => ⟨_, _, hnone rfl ▸ .retNone, h'⟩) fun _ _ h => h
  | some code =>
    obtain ⟨e, rfl, hcode⟩ := hsome code rfl
    refine ends_bind hcode ?_
    rintro r st₁ ⟨code, hcode, h₁⟩
    refine ends_bind (emit_emits h₁) fun _ st₂ h₂ => ends_bind (emit_emits h₂) fun _ st₃ h₃ => ?_
    rw [List.append_assoc] at h₃
    exact ends_mono (h.freeAll h₃) (fun _ _ h' => ⟨_, _, .retValue hcode, h'⟩) fun _ _ h => h

/-- **Statements.** A statement that fits is lowered to its lines, unless the registers run out. -/
theorem stmt_emits {s : Stmt} (hs : TypedStmt t f s) : EmitsStmt t f ret exit s := by
  induction hs with
  | retNone found void =>
    intro low next lines st h
    rw [stmt]
    exact returnCode_emits hf h (fun _ => rfl) fun _ hcode => by cases hcode
  | retValue found nonvoid typed same =>
    intro low next lines st h
    rw [stmt]
    refine returnCode_emits hf h (fun hnone => by cases hnone) ?_
    rintro _ ⟨⟩
    exact ⟨_, rfl, h.operand typed (same ▸ nonvoid)⟩
  | expr typed =>
    intro low next lines st h
    rw [stmt]
    refine ends_mono (h.aside typed) ?_ fun _ _ h => h
    rintro _ st' ⟨r?, code, hcode, h'⟩
    exact ⟨_, _, .expr hcode, h'⟩
  | varDecl found =>
    intro low next lines st h
    rw [stmt]
    exact ⟨[], next, .varDecl, by rw [List.append_nil]; exact h⟩
  | globalDecl found value =>
    intro low next lines st h
    rw [stmt]
    refine ends_mono (globalCode_ends (h.symbols ▸ found)) ?_ fun _ _ h => h
    rintro _ _ rfl
    refine ⟨_, next, .globalDecl found, ?_⟩
    simp only [h.function, h.segment, Option.isSome_some, ↓reduceIte, switching]
    exact ⟨h.symbols, h.labels, h.above, rfl, rfl, h.placed, by simp [h.lines, Segment.directive], h.pool, h.pushed⟩
  | block _ ih => exact block_emits ih
  | ifElse typed nonvoid _ _ ihYes ihNo => exact ifElse_emits typed nonvoid ihYes ihNo
  | whileLoop typed nonvoid _ ih => exact whileLoop_emits typed nonvoid ih
  | forLoop typedInit typed nonvoid typedPost _ ih => exact forLoop_emits typedInit typed nonvoid typedPost ih

end Function

end Lower

end MiniC
