import MiniC.Lower.Program
import MiniC.Proofs.Marks

/-!
# Lowering and lines

The lines of a tree go nowhere but into faults: a tree with its lines moved is lowered to the same code, or with the same
fault on the moved line (`generate_relined`).
-/

namespace MiniC

variable {ℓ : Nat → Nat}

namespace Lower

/-! ## Operations -/

section Operations

variable {α : Type}

@[simp] theorem relining_append (line : Line) : relining ℓ (append line) = append line := rfl

@[simp] theorem relining_emit (i : Instr) : relining ℓ (emit i) = emit i := rfl

@[simp] theorem relining_directive (d : Directive) : relining ℓ (directive d) = directive d := rfl

@[simp] theorem relining_label (n : Nat) : relining ℓ (label n) = label n := rfl

@[simp] theorem relining_drawLabel : relining ℓ drawLabel = drawLabel := rfl

@[simp] theorem relining_freeAll : relining ℓ freeAll = freeAll := rfl

@[simp] theorem relining_internal (cause : InternalFault) : relining ℓ (internal cause : LowerM α) = internal cause := rfl

@[simp] theorem relining_semantic (line : Nat) (cause : SemanticFault) :
    relining ℓ (semantic line cause : LowerM α) = semantic (ℓ line) cause := rfl

@[simp] theorem relining_enter (segment : Segment) : relining ℓ (enter segment) = enter segment := by
  simp [enter]

@[simp] theorem relining_value (line : Nat) (code : LowerM (Option Scratch)) :
    relining ℓ (value line code) = value (ℓ line) (relining ℓ code) := by
  unfold value
  rw [relining_bind]
  refine congrArg (relining ℓ code >>= ·) (funext fun r => ?_)
  cases r <;> rfl

@[simp] theorem relining_alloc (line : Nat) : relining ℓ (alloc line) = alloc (ℓ line) := by
  unfold alloc
  rw [relining_bind]
  refine congrArg (get >>= ·) (funext fun st => ?_)
  unfold RegisterPool.alloc
  cases st.pool.alloc? <;> rfl

@[simp] theorem relining_free (r : Scratch) : relining ℓ (free r) = free r := by
  simp [free]

@[simp] theorem relining_push (r : Reg) : relining ℓ (push r) = push r := by
  simp [push]

@[simp] theorem relining_pop (r : Reg) : relining ℓ (pop r) = pop r := by
  unfold pop
  rw [relining_bind, relining_emit]
  refine congrArg (emit _ >>= ·) (funext fun _ => ?_)
  rw [relining_bind]
  refine congrArg (get >>= ·) (funext fun st => ?_)
  split <;> rfl

@[simp] theorem relining_location (name : String) (scope : Scope) (line : Nat) :
    relining ℓ (location name scope line) = location name scope (ℓ line) := by
  unfold location
  rw [relining_ite]
  split
  · rfl
  · rw [relining_bind]
    refine congrArg (get >>= ·) (funext fun st => ?_)
    split <;> rfl

end Operations

/-! ## Code without subexpressions -/

theorem numberCode_relined (info : Info) (value : Int) : numberCode (info.relined ℓ) value = relining ℓ (numberCode info value) := by
  simp [numberCode, Info.relined]

theorem stringCode_relined (info : Info) (label : Nat) (bytes : List UInt8) :
    stringCode (info.relined ℓ) label bytes = relining ℓ (stringCode info label bytes) := by
  simp [stringCode, Info.relined]

theorem nameCode_relined (info : Info) (name : String) (scope : Scope) :
    nameCode (info.relined ℓ) name scope = relining ℓ (nameCode info name scope) := by
  simp [nameCode, Info.relined]

theorem addressCode_relined (info : Info) (operand : Expr) :
    addressCode (info.relined ℓ) (operand.marked ℓ id) = relining ℓ (addressCode info operand) := by
  cases operand <;> simp [addressCode, Expr.marked, Info.relined]

theorem stepCode_relined (info : Info) (moment : Moment) (direction : Direction) (operand : Expr) :
    stepCode (info.relined ℓ) moment direction (operand.marked ℓ id) = relining ℓ (stepCode info moment direction operand) := by
  cases operand <;> cases moment <;> simp [stepCode, Expr.marked, Info.relined]

theorem unaryCode_relined (info : Info) (op : UnaryOp) (operand : Expr) (code : LowerM Scratch) :
    unaryCode (info.relined ℓ) op (operand.marked ℓ id) (relining ℓ code) = relining ℓ (unaryCode info op operand code) := by
  cases op with
  | addressOf => exact addressCode_relined info operand
  | step moment direction => exact stepCode_relined info moment direction operand
  | _ => simp [unaryCode, truthCode, Info.relined]

theorem changeCode_relined (change : Change) (code : LowerM Scratch) :
    changeCode change (relining ℓ code) = relining ℓ (changeCode change code) := by
  unfold changeCode
  rw [relining_bind]
  refine congrArg (relining ℓ code >>= ·) (funext fun r => ?_)
  cases change with
  | widen => rfl
  | scale factor =>
    rw [relining_bind]
    refine congrArg (· >>= fun _ => pure r) ?_
    unfold scaleCode
    split <;> rfl

theorem relining_arithmetic (op : BinaryOp) (left right : Scratch) :
    relining ℓ (arithmetic op left right) = arithmetic op left right := by
  cases op <;> simp [arithmetic, compare, intoRight, intoLeft, divide, shiftBy]

theorem callCode_relined (info : Info) (name : String) (count : Nat) (args : LowerM Unit) :
    callCode (info.relined ℓ) name count (relining ℓ args) = relining ℓ (callCode info name count args) := by
  simp [callCode, argumentRegisters, paddedCall, takeResult, Info.relined]

/-- A comparison whose operands are computed with their lines moved. -/
def reliningParts (ℓ : Nat → Nat) : Cond × LowerM Scratch × LowerM Scratch → Cond × LowerM Scratch × LowerM Scratch
  | (cond, left, right) => (cond, relining ℓ left, relining ℓ right)

theorem branchCode_relined (parts : Option (Cond × LowerM Scratch × LowerM Scratch)) (whole : LowerM Scratch) (target : Nat) :
    branchCode (parts.map (reliningParts ℓ)) (relining ℓ whole) target = relining ℓ (branchCode parts whole target) := by
  cases parts with
  | none => simp [branchCode]
  | some parts =>
    obtain ⟨cond, left, right⟩ := parts
    simp [branchCode, reliningParts]

theorem relining_globalCode (name : String) : relining ℓ (globalCode name) = globalCode name := by
  unfold globalCode
  rw [relining_bind]
  refine congrArg (get >>= ·) (funext fun st => ?_)
  split
  · rfl
  · simp

theorem relining_epilogueOf (name : String) : relining ℓ (epilogueOf name) = epilogueOf name := by
  unfold epilogueOf
  rw [relining_bind]
  refine congrArg (get >>= ·) (funext fun st => ?_)
  split <;> rfl

theorem returnCode_relined (value : Option (LowerM Scratch)) :
    returnCode (value.map (relining ℓ)) = relining ℓ (returnCode value) := by
  unfold returnCode
  rw [relining_bind]
  refine congrArg (get >>= ·) (funext fun st => ?_)
  split
  · rfl
  · cases value <;> simp [relining_epilogueOf]

theorem relining_storeParams : ∀ (params : List Symbol) (regs : List Reg),
    relining ℓ (storeParams params regs) = storeParams params regs
  | [], _ => rfl
  | _ :: _, [] => rfl
  | param :: params, r :: regs => by
    rw [storeParams, relining_bind, relining_emit, relining_storeParams params regs]

theorem functionCode_relined (name : String) (body : LowerM Unit) :
    functionCode name (relining ℓ body) = relining ℓ (functionCode name body) := by
  simp [functionCode, openFunction, relining_epilogueOf, relining_storeParams]

/-! ## Trees -/

theorem trees_relined :
    (∀ e : Expr, expr (e.marked ℓ id) = relining ℓ (expr e)) ∧
    (∀ e, discarded (Expr.marked? ℓ id e) = relining ℓ (discarded e)) ∧
    (∀ s : Stmt, stmt (s.marked ℓ id) = relining ℓ (stmt s)) ∧
    (∀ ss, stmtList (Stmt.markedAll ℓ id ss) = relining ℓ (stmtList ss)) ∧
    (∀ e : Expr, comparison (e.marked ℓ id) = (comparison e).map (reliningParts ℓ)) ∧
    (∀ es, arguments (Expr.markedAll ℓ id es) = relining ℓ (arguments es)) ∧
    (∀ (e : Expr) r, store (e.marked ℓ id) r = relining ℓ (store e r)) := by
  refine expr.mutual_induct _ _ _ _ _ _ _
    ?number ?string ?ident ?unary ?assignRead ?assign ?binary ?convert ?call ?ifElse ?whileLoop ?forLoop ?comparison
    ?noComparison ?storeName ?storeAt ?storeOther ?retNone ?ret ?stmtExpr ?varDecl ?globalDecl ?block ?prototype ?function
    ?noneDiscarded ?discarded ?noArguments ?arguments ?noStmts ?stmts
  case number =>
    intro info value
    rw [Expr.marked, expr, expr, relining_map, numberCode_relined]
  case string =>
    intro info label bytes
    rw [Expr.marked, expr, expr, relining_map, stringCode_relined]
    rfl
  case ident =>
    intro info name scope
    rw [Expr.marked, expr, expr, relining_map, nameCode_relined]
  case unary =>
    intro info op operand ih
    rw [Expr.marked, expr, expr, relining_map, ← unaryCode_relined, relining_value, Expr.line_marked, ih]
  case assignRead =>
    intro info left right hread ihRight ihStore
    rw [Expr.marked, expr, expr]
    simp only [Expr.info_marked, Info.relined, Expr.line_marked, hread, ihRight, ihStore, ↓reduceIte, relining_bind,
      relining_semantic, relining_value, relining_pure]
  case assign =>
    intro info left right hread ihRight ihStore
    rw [Expr.marked, expr, expr]
    simp only [Expr.info_marked, Info.relined, Expr.line_marked, hread, ihRight, ihStore, ↓reduceIte, relining_bind,
      relining_value, relining_pure, Bool.false_eq_true]
  case binary =>
    intro info op left right hop ihLeft ihRight
    rw [Expr.marked, expr, expr]
    · simp only [Expr.line_marked, ihLeft, ihRight, relining_bind, relining_value, relining_map, relining_arithmetic]
    · exact hop
    · exact hop
  case convert =>
    intro info change operand ih
    rw [Expr.marked, expr, expr, relining_map, ← changeCode_relined, relining_value, Expr.line_marked, ih]
  case call =>
    intro info name args ih
    rw [Expr.marked, expr, expr, ← callCode_relined, ih, Expr.markedAll_eq_map, List.length_map]
  case ifElse =>
    intro info cond yes no ih
    rw [Expr.marked, expr, expr, relining_bind, relining_drawLabel]
    refine congrArg (drawLabel >>= ·) (funext fun n => ?_)
    cases no with
    | none =>
      obtain ⟨ihParts, ihCond, ihYes⟩ := ih
      simp only [Stmt.marked?, Expr.line_marked, ihParts, ihCond, ihYes, ← relining_value cond.line,
        branchCode_relined, relining_bind, relining_label, relining_pure]
    | some no =>
      obtain ⟨ihParts, ihCond, ihYes, ihNo⟩ := ih
      simp only [Stmt.marked?, Expr.line_marked, ihParts, ihCond, ihYes, ihNo, ← relining_value cond.line,
        branchCode_relined, relining_bind, relining_drawLabel, relining_emit, relining_label, relining_pure]
  case whileLoop =>
    intro info cond body ihParts ihCond ihBody
    rw [Expr.marked, expr, expr]
    simp only [Expr.line_marked, ihParts, ihCond, ihBody, ← relining_value cond.line, branchCode_relined,
      relining_bind, relining_drawLabel, relining_emit, relining_label, relining_pure]
  case forLoop =>
    intro info init cond post body ihInit ihBody ihPost ihCond
    rw [Expr.marked, expr, expr]
    cases cond with
    | none =>
      simp only [Expr.marked?, ihInit, ihBody, ihPost, relining_bind, relining_drawLabel, relining_emit,
        relining_label, relining_pure]
    | some cond =>
      obtain ⟨ihParts, ihCond⟩ := ihCond
      simp only [Expr.marked?, Expr.line_marked, ihInit, ihBody, ihPost, ihParts, ihCond, ← relining_value cond.line,
        branchCode_relined, relining_bind, relining_drawLabel, relining_emit, relining_label, relining_pure]
  case comparison =>
    intro info op left right ihLeft ihRight
    rw [Expr.marked, comparison, comparison, Option.map_map]
    simp only [Expr.line_marked, ihLeft, ihRight]
    refine congrArg (op.cond?.map ·) (funext fun cond => ?_)
    simp only [Function.comp, reliningParts, relining_value]
  case noComparison =>
    intro e hother
    cases e with
    | binary info op left right => exact absurd rfl (hother info op left right)
    | _ => simp [Expr.marked, comparison]
  case storeName =>
    intro info name scope r
    rw [Expr.marked, store, store]
    simp [Info.relined]
  case storeAt =>
    intro info address r ih
    rw [Expr.marked, store, store]
    simp [Info.relined, ih]
  case storeOther =>
    intro e r hname hderef
    cases e with
    | ident info name scope => exact absurd rfl (hname info name scope)
    | unary info op operand =>
      cases op with
      | deref => exact absurd rfl (hderef info operand)
      | _ => simp [Expr.marked, store, Expr.line, Expr.info, Info.relined]
    | _ => simp [Expr.marked, store, Expr.line, Expr.info, Info.relined]
  case retNone => rw [Stmt.marked, Expr.marked?, stmt]; exact returnCode_relined none
  case ret =>
    intro e ih
    rw [Stmt.marked, Expr.marked?, stmt, stmt, ← returnCode_relined, Option.map_some, relining_value,
      Expr.line_marked, ih]
  case stmtExpr =>
    intro e ih
    rw [Stmt.marked, stmt, stmt, ih]
    simp
  case varDecl => intro name; rw [Stmt.marked, stmt]; rfl
  case globalDecl => intro name; rw [Stmt.marked, stmt, relining_globalCode]
  case block => intro stmts ih; rw [Stmt.marked, stmt, stmt, ih]
  case prototype => intro name; rw [Stmt.marked, stmt]; rfl
  case function => intro name body ih; rw [Stmt.marked, stmt, stmt, ih, functionCode_relined]
  case noneDiscarded => rw [Expr.marked?, discarded]; rfl
  case discarded =>
    intro e ih
    rw [Expr.marked?, discarded, discarded, ih]
    simp
  case noArguments => rw [Expr.markedAll, arguments]; rfl
  case arguments =>
    intro arg args ihArg ihArgs
    rw [Expr.markedAll, arguments, arguments, ihArg, ihArgs]
    simp
  case noStmts => rw [Stmt.markedAll, stmtList]; rfl
  case stmts =>
    intro s rest ih ihRest
    rw [Stmt.markedAll, stmtList, stmtList, ih, ihRest, relining_bind]

theorem relining_strings : relining ℓ strings = strings := by
  simp [strings, stringData]

theorem program_relined (program : Program) :
    Lower.program (Stmt.markedAll ℓ id program) = relining ℓ (Lower.program program) := by
  unfold Lower.program
  rw [trees_relined.2.2.2.1, relining_bind, relining_bind, relining_strings]
  rfl

end Lower

/-- **Lowering reads no lines.** A program with its lines moved has the same listing, or fails alike on the moved line. -/
theorem generate_relined (program : Program) : generate (Stmt.markedAll ℓ id program) = relining ℓ (generate program) := by
  funext c
  unfold relining generate
  rw [Lower.program_relined]
  unfold relining
  cases Lower.program program { context := c } <;> rfl

end MiniC
