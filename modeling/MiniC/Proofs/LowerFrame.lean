import MiniC.Lower.Program
import MiniC.Proofs.Outcome

/-!
# What lowering leaves of a state

A fact about states that survives each single thing that lowering does to one survives lowering as a whole, for any tree
(`Stable.items`). The single things are few: a line is appended, the context is laid out anew for a function, a label
is drawn, a string literal is noted together with the instruction that loads its address, and the rest of the state is
used as a scratch pad.
-/

namespace MiniC

/-! ## Labels that are used -/

/-- The label of a string literal in memory. -/
def Location.literal? : Location → Option Nat
  | literal label => some label
  | _ => none

/-- The string literal that an instruction refers to. -/
def Instr.literal? : Instr → Option Nat
  | lea place _ | load _ place _ | store _ _ place | update _ _ _ place => place.literal?
  | _ => none

/-- Where an instruction jumps to. -/
def Instr.jump? : Instr → Option Nat
  | jump label | jumpIf _ label => some label
  | _ => none

def Line.literal? : Line → Option Nat
  | instr i => i.literal?
  | _ => none

namespace Lower

variable {I J : State → Prop} {α β : Type}

/-- `I` survives what lowering does to a state but for pushing values and going into functions, and `J` holds where
lowering fails. -/
structure Steady (I J : State → Prop) : Prop where
  fails : ∀ {st : State}, I st → J st
  lines : ∀ {st : State} {line : Line}, line.literal? = none → I st → I { st with lines := st.lines.push line }
  pad : ∀ {st : State} (pool : RegisterPool) (segment : Option Segment), I st → I { st with pool, segment }
  draw : ∀ {st : State}, I st → I { st with context := st.context.drawLabel.2 }
  literal : ∀ {st : State} (label : Nat) (bytes : List UInt8) (r : Reg), I st →
    I { st with
      strings := st.strings.push (label, bytes), lines := st.lines.push (.instr (.lea (.literal label) r)) }
  literalFails : ∀ {st : State} (label : Nat) (bytes : List UInt8), I st →
    J { st with strings := st.strings.push (label, bytes) }

/-- `I` survives all that lowering does to a state, and `J` holds where lowering fails. -/
structure Stable (I J : State → Prop) : Prop extends Steady I J where
  inside : ∀ {st : State} (function : Option String) (pushed : Nat), I st → I { st with function, pushed }
  layout : ∀ {st : State} (f : String), I st →
    I { st with context := { st.context with symbols := (Frame.layout st.context.symbols f).1 } }

/-- `x` keeps `I`, and where it fails `J` holds. -/
def Maintains (I J : State → Prop) (x : LowerM α) : Prop :=
  ∀ st, I st → Ends x st (fun _ st' => I st') (fun _ st' => J st')

theorem maintains_bind {x : LowerM α} {k : α → LowerM β} (hx : Maintains I J x) (hk : ∀ a, Maintains I J (k a)) :
    Maintains I J (x >>= k) := fun st hst => ends_bind (hx st hst) fun a st' hst' => hk a st' hst'

theorem maintains_map {x : LowerM α} {g : α → β} (hx : Maintains I J x) : Maintains I J (g <$> x) :=
  fun st hst => ends_map (hx st hst)

theorem maintains_pure (a : α) : Maintains I J (pure a) := fun _ hst => hst

theorem maintains_get {k : State → LowerM β} (hk : ∀ st, Maintains I J (k st)) : Maintains I J (get >>= k) :=
  fun st hst => hk st st hst

theorem maintains_forM {g : α → LowerM PUnit} : ∀ {as : List α}, (∀ a ∈ as, Maintains I J (g a)) →
    Maintains I J (as.forM g)
  | [], _ => maintains_pure _
  | a :: _, h => maintains_bind (h a List.mem_cons_self) fun _ =>
      maintains_forM fun b hb => h b (List.mem_cons_of_mem _ hb)

namespace Steady

section Operations

variable (h : Steady I J)

include h

theorem throw (fault : Fault) : Maintains I J (throw fault : LowerM α) := fun _ => h.fails

theorem line {line : Line} (hline : line.literal? = none) : Maintains I J (append line) := fun _ => h.lines hline

theorem emit {i : Instr} (hi : i.literal? = none) : Maintains I J (emit i) := h.line hi

theorem emitAll {code : List Instr} (hcode : ∀ i ∈ code, i.literal? = none) : Maintains I J (code.forM Lower.emit) :=
  maintains_forM fun i hi => h.emit (hcode i hi)

theorem directive (d : Directive) : Maintains I J (directive d) := h.line rfl

theorem label (n : Nat) : Maintains I J (label n) := h.line rfl

theorem drawLabel : Maintains I J drawLabel := fun _ => h.draw

theorem enter (segment : Segment) : Maintains I J (enter segment) := by
  refine maintains_get fun st => ?_
  split
  · exact maintains_bind (h.directive _) fun _ st hst => h.pad st.pool (some segment) hst
  · exact maintains_pure _

theorem value {line : Nat} {code : LowerM (Option Scratch)} (hcode : Maintains I J code) :
    Maintains I J (value line code) := by
  refine maintains_bind hcode fun r => ?_
  cases r with
  | some r => exact maintains_pure r
  | none => exact h.throw _

theorem alloc (line : Nat) : Maintains I J (alloc line) := by
  refine maintains_get fun st => ?_
  split
  · next pool _ =>
    refine maintains_bind (fun st hst => ?_) fun _ => maintains_pure _
    exact h.pad pool st.segment hst
  · exact h.throw _

theorem free (r : Scratch) : Maintains I J (free r) := by
  refine maintains_get fun st => ?_
  split
  · exact fun st hst => h.pad (st.pool.free r) st.segment hst
  · exact h.throw _

theorem freeAll : Maintains I J freeAll := fun st hst => h.pad {} st.segment hst

/-- A variable is no string literal. -/
theorem location {name : String} {scope : Scope} {line : Nat} {k : Location → LowerM β}
    (hk : ∀ place, place.literal? = none → Maintains I J (k place)) : Maintains I J (location name scope line >>= k) := by
  refine fun st hst => ends_bind (P := fun place st' => place.literal? = none ∧ I st') ?_ fun place st' hp => hk place hp.1 st' hp.2
  unfold Lower.location
  split
  · exact ⟨rfl, hst⟩
  · refine ends_get_bind ?_
    split
    · exact ⟨rfl, hst⟩
    · exact h.fails hst

end Operations

/-! ## Code without subexpressions -/

section Pieces

variable (h : Steady I J)

include h

theorem numberCode (info : Info) (value : Int) : Maintains I J (numberCode info value) :=
  maintains_bind (h.alloc _) fun _ => maintains_bind (h.emit rfl) fun _ => maintains_pure _

theorem stringCode (info : Info) (label : Nat) (bytes : List UInt8) : Maintains I J (stringCode info label bytes) := by
  intro st hst
  unfold Lower.stringCode
  refine ends_bind (P := fun _ st' => st' = { st with strings := st.strings.push (label, bytes) }) (ends_modify rfl) ?_
  rintro _ _ rfl
  refine ends_bind (P := fun r st' => ∃ pool, st' = { st with strings := st.strings.push (label, bytes), pool }) ?_ ?_
  · refine ends_get_bind ?_
    split
    · exact ⟨_, rfl⟩
    · exact h.literalFails label bytes hst
  · rintro r _ ⟨pool, rfl⟩
    exact h.pad pool st.segment (h.literal label bytes r.reg hst)

theorem nameCode (info : Info) (name : String) (scope : Scope) : Maintains I J (nameCode info name scope) := by
  refine h.location fun place hplace => maintains_bind (h.alloc _) fun r => maintains_get fun st => ?_
  dsimp only
  split
  · exact maintains_bind (h.emit hplace) fun _ => maintains_pure _
  · exact maintains_bind (h.emit hplace) fun _ => maintains_pure _

theorem addressCode (info : Info) (operand : Expr) : Maintains I J (addressCode info operand) := by
  unfold Lower.addressCode
  split
  · exact h.location fun place hplace => maintains_bind (h.alloc _) fun r =>
      maintains_bind (h.emit hplace) fun _ => maintains_pure _
  · exact h.throw _

theorem stepCode (info : Info) (moment : Moment) (direction : Direction) (operand : Expr) :
    Maintains I J (stepCode info moment direction operand) := by
  unfold Lower.stepCode
  split
  · refine h.location fun place hplace => maintains_bind (h.alloc _) fun r => ?_
    cases moment with
    | before => exact maintains_bind (h.emit hplace) fun _ => maintains_bind (h.emit hplace) fun _ => maintains_pure _
    | after => exact maintains_bind (h.emit hplace) fun _ => maintains_bind (h.emit hplace) fun _ => maintains_pure _
  · exact h.throw _

theorem unaryCode {info : Info} {op : UnaryOp} {operand : Expr} {code : LowerM Scratch} (hcode : Maintains I J code) :
    Maintains I J (unaryCode info op operand code) := by
  cases op with
  | addressOf => exact h.addressCode info operand
  | step moment direction => exact h.stepCode info moment direction operand
  | deref => exact maintains_bind hcode fun r => maintains_bind (h.emit rfl) fun _ => maintains_pure _
  | negate => exact maintains_bind hcode fun r => maintains_bind (h.emit rfl) fun _ => maintains_pure _
  | not =>
    refine maintains_bind hcode fun r => maintains_bind (h.emit rfl) fun _ => maintains_bind ?_ fun _ => maintains_pure _
    exact maintains_bind (h.emit rfl) fun _ => h.emit rfl

theorem scaleCode (factor : Int) (r : Scratch) : Maintains I J (scaleCode factor r) := by
  unfold Lower.scaleCode
  split
  · exact maintains_pure _
  all_goals exact h.emit rfl

theorem changeCode {change : Change} {code : LowerM Scratch} (hcode : Maintains I J code) :
    Maintains I J (changeCode change code) := by
  refine maintains_bind hcode fun r => ?_
  cases change with
  | widen => exact maintains_pure r
  | scale factor => exact maintains_bind (h.scaleCode factor r) fun _ => maintains_pure r

theorem arithmetic (op : BinaryOp) (left right : Scratch) : Maintains I J (arithmetic op left right) := by
  have hright : ∀ op, Maintains I J (intoRight op left right) := fun op =>
    maintains_bind (h.emit rfl) fun _ => maintains_bind (h.free left) fun _ => maintains_pure right
  have hleft : ∀ code : List Instr, (∀ i ∈ code, i.literal? = none) → Maintains I J (intoLeft code left right) :=
    fun code hcode => maintains_bind (h.emitAll hcode) fun _ => maintains_bind (h.free right) fun _ => maintains_pure left
  cases op with
  | add | mul | bitAnd | bitOr | bitXor => exact hright _
  | assign => exact maintains_pure right
  | _ => exact hleft _ (by simp [Instr.literal?])

theorem argumentRegisters (count : Nat) : Maintains I J (argumentRegisters count) := by
  unfold Lower.argumentRegisters
  split
  · exact maintains_pure _
  · exact h.throw _

theorem paddedCall (name : String) : Maintains I J (paddedCall name) := by
  refine maintains_get fun st => ?_
  split
  · exact maintains_bind (h.emit rfl) fun _ => maintains_bind (h.emit rfl) fun _ => h.emit rfl
  · exact h.emit rfl

theorem takeResult (info : Info) : Maintains I J (takeResult info) := by
  unfold Lower.takeResult
  split
  · exact maintains_pure _
  · refine maintains_bind (h.alloc _) fun r => maintains_bind (h.emit ?_) fun _ => maintains_pure _
    cases info.ty.width <;> rfl

theorem branchCode {parts : Option (Cond × LowerM Scratch × LowerM Scratch)} {whole : LowerM Scratch} {target : Nat}
    (hparts : ∀ cond left right, parts = some (cond, left, right) → Maintains I J left ∧ Maintains I J right)
    (hwhole : Maintains I J whole) : Maintains I J (branchCode parts whole target) := by
  unfold Lower.branchCode
  split
  · next cond left right =>
    obtain ⟨hleft, hright⟩ := hparts cond left right rfl
    exact maintains_bind hleft fun l => maintains_bind hright fun r => maintains_bind (h.emit rfl) fun _ =>
      maintains_bind (h.emit rfl) fun _ => h.freeAll
  · exact maintains_bind hwhole fun r => maintains_bind (h.emit rfl) fun _ => maintains_bind (h.emit rfl) fun _ => h.freeAll

theorem globalCode (name : String) : Maintains I J (globalCode name) := by
  refine maintains_get fun st => ?_
  split
  · exact h.throw _
  · next symbol _ =>
    refine maintains_bind (h.enter .data) fun _ => maintains_bind (maintains_forM fun line hline => h.line ?_) fun _ => ?_
    · unfold zeros at hline
      rcases List.mem_append.1 hline with hline | hline
      · simp only [List.mem_cons, List.not_mem_nil, or_false] at hline
        rcases hline with rfl | rfl | rfl <;> rfl
      · rw [List.eq_of_mem_replicate hline]
        rfl
    · refine maintains_get fun st => ?_
      split
      · exact h.enter .text
      · exact maintains_pure _

theorem epilogueOf (name : String) : Maintains I J (epilogueOf name) := by
  refine maintains_get fun st => ?_
  split
  · exact maintains_pure _
  · exact h.throw _

theorem returnCode {value : Option (LowerM Scratch)} (hvalue : ∀ code, value = some code → Maintains I J code) :
    Maintains I J (returnCode value) := by
  refine maintains_get fun st => ?_
  split
  · exact h.throw _
  · refine maintains_bind (h.epilogueOf _) fun p => ?_
    cases value with
    | none => exact maintains_bind (h.emit rfl) fun _ => h.freeAll
    | some code =>
      refine maintains_bind (hvalue code rfl) fun r => maintains_bind (h.emit ?_) fun _ => ?_
      · cases p.1.width <;> rfl
      · exact maintains_bind (h.emit rfl) fun _ => h.freeAll

theorem storeParams : ∀ (params : List Symbol) (regs : List Reg), Maintains I J (storeParams params regs)
  | [], _ => maintains_pure _
  | _ :: _, [] => h.throw _
  | _ :: params, _ :: regs => maintains_bind (h.emit rfl) fun _ => storeParams params regs

/-- The lines above the code of a function. -/
theorem heading (name : String) : Maintains I J (do
    Lower.enter .text
    Lower.directive (.globl name)
    Lower.directive (.function name)
    append (.name name)) :=
  maintains_bind (h.enter .text) fun _ => maintains_bind (h.directive _) fun _ => maintains_bind (h.directive _) fun _ =>
    h.line rfl

theorem prologue (size : Int) : Maintains I J ((prologue size).forM Lower.emit) := by
  refine h.emitAll fun i hi => ?_
  unfold Lower.prologue at hi
  split at hi <;> simp only [List.mem_append, List.mem_cons, List.not_mem_nil, or_false] at hi <;> grind [Instr.literal?]

end Pieces

/-! ## Control structures -/

section Control

variable (h : Steady I J) {info : Info} {cond : Expr}

include h

theorem branch {target : Nat} (hparts : ∀ op left right, comparison cond = some (op, left, right) →
      Maintains I J left ∧ Maintains I J right) (hcond : Maintains I J (expr cond)) :
    Maintains I J (Lower.branchCode (comparison cond) (Lower.value cond.line (expr cond)) target) :=
  h.branchCode hparts (h.value hcond)

theorem ifElse {yes : Stmt} {no : Option Stmt}
    (hcond : ∀ target, Maintains I J (Lower.branchCode (comparison cond) (Lower.value cond.line (expr cond)) target))
    (hyes : Maintains I J (stmt yes)) (hno : ∀ no', no = some no' → Maintains I J (stmt no')) :
    Maintains I J (expr (.ifElse info cond yes no)) := by
  rw [expr]
  refine maintains_bind h.drawLabel fun n => ?_
  cases no with
  | none =>
    exact maintains_bind (hcond n) fun _ => maintains_bind hyes fun _ => maintains_bind (h.label _) fun _ =>
      maintains_pure _
  | some no =>
    exact maintains_bind h.drawLabel fun m => maintains_bind (hcond n) fun _ => maintains_bind hyes fun _ =>
      maintains_bind (h.emit rfl) fun _ => maintains_bind (h.label _) fun _ => maintains_bind (hno no rfl) fun _ =>
      maintains_bind (h.label _) fun _ => maintains_pure _

theorem whileLoop {body : Stmt}
    (hcond : ∀ target, Maintains I J (Lower.branchCode (comparison cond) (Lower.value cond.line (expr cond)) target))
    (hbody : Maintains I J (stmt body)) : Maintains I J (expr (.whileLoop info cond body)) := by
  rw [expr]
  exact maintains_bind h.drawLabel fun n => maintains_bind h.drawLabel fun m => maintains_bind (h.label _) fun _ =>
    maintains_bind (hcond m) fun _ => maintains_bind hbody fun _ => maintains_bind (h.emit rfl) fun _ =>
    maintains_bind (h.label _) fun _ => maintains_pure _

theorem forLoop {init cond post : Option Expr} {body : Stmt} (hinit : Maintains I J (discarded init))
    (hcond : ∀ cond', cond = some cond' → ∀ target,
      Maintains I J (Lower.branchCode (comparison cond') (Lower.value cond'.line (expr cond')) target))
    (hbody : Maintains I J (stmt body)) (hpost : Maintains I J (discarded post)) :
    Maintains I J (expr (.forLoop info init cond post body)) := by
  rw [expr]
  refine maintains_bind h.drawLabel fun n => maintains_bind h.drawLabel fun m => maintains_bind hinit fun _ =>
    maintains_bind (h.label _) fun _ => ?_
  have hrest : Maintains I J (do stmt body; discarded post; Lower.emit (.jump n); Lower.label m; pure none :
      LowerM (Option Scratch)) :=
    maintains_bind hbody fun _ => maintains_bind hpost fun _ => maintains_bind (h.emit rfl) fun _ =>
      maintains_bind (h.label _) fun _ => maintains_pure _
  cases cond with
  | none => exact hrest
  | some cond => exact maintains_bind (hcond cond rfl m) fun _ => hrest

end Control

end Steady

/-! ## Calls and functions -/

namespace Stable

section Pieces

variable (h : Stable I J)

include h

theorem push (r : Reg) : Maintains I J (push r) :=
  maintains_bind (h.emit rfl) fun _ st hst => h.inside st.function (st.pushed + 1) hst

theorem pop (r : Reg) : Maintains I J (pop r) := by
  refine maintains_bind (h.emit rfl) fun _ => maintains_get fun st => ?_
  split
  · exact h.throw _
  · next pushed _ => exact fun st hst => h.inside st.function pushed hst

/-- What a call does after its arguments have been pushed. -/
theorem afterArguments (info : Info) (name : String) (count : Nat) (live : List Scratch) : Maintains I J (do
    (← Lower.argumentRegisters count).reverse.forM Lower.pop
    Lower.paddedCall name
    live.reverse.forM fun r => Lower.pop r.reg
    Lower.takeResult info) :=
  maintains_bind (h.argumentRegisters count) fun _ => maintains_bind (maintains_forM fun r _ => h.pop r) fun _ =>
    maintains_bind (h.paddedCall name) fun _ => maintains_bind (maintains_forM fun r _ => h.pop r.reg) fun _ =>
      h.takeResult info

theorem callCode {info : Info} {name : String} {count : Nat} {args : LowerM Unit} (hargs : Maintains I J args) :
    Maintains I J (callCode info name count args) :=
  maintains_get fun st => maintains_bind (maintains_forM fun r _ => h.push r.reg) fun _ =>
    maintains_bind hargs fun _ => h.afterArguments info name count st.pool.live

/-- What follows the body of a function. -/
theorem afterBody (exit : Nat) : Maintains I J (do
    Lower.label exit
    epilogue.forM Lower.emit
    modify fun st => { st with function := none }) := by
  refine maintains_bind (h.label _) fun _ => maintains_bind (h.emitAll ?_) fun _ st hst => ?_
  · simp [epilogue, Instr.literal?]
  · exact h.inside none st.pushed hst

/-- A function is opened with the frame that is laid out for it. -/
theorem openFunction (name : String) {st : State} (hst : I st) :
    Ends (openFunction name (Frame.layout st.context.symbols name).1) st (fun _ st' => I st') fun _ st' => J st' :=
  ends_bind (P := fun _ st' => I st') (ends_modify (h.pad {} st.segment (h.inside (some name) 0 (h.layout name hst))))
    fun _ st' hst' => h.heading name st' hst'

theorem functionCode {name : String} {body : LowerM Unit} (hbody : Maintains I J body) :
    Maintains I J (functionCode name body) := by
  refine maintains_bind (h.epilogueOf name) fun p st hst => ends_get_bind ?_
  refine ends_bind (h.openFunction name hst) fun _ st₁ hst₁ => ?_
  exact maintains_bind (h.prologue _) (fun _ => maintains_bind (h.storeParams _ _) fun _ => maintains_bind hbody fun _ =>
    h.afterBody p.2) st₁ hst₁

end Pieces

/-! ## Trees -/

theorem trees (h : Stable I J) :
    (∀ e, Maintains I J (expr e)) ∧ (∀ e, Maintains I J (discarded e)) ∧ (∀ s, Maintains I J (stmt s)) ∧
    (∀ ss, Maintains I J (stmtList ss)) ∧
    (∀ e cond left right, comparison e = some (cond, left, right) → Maintains I J left ∧ Maintains I J right) ∧
    (∀ es, Maintains I J (arguments es)) ∧ (∀ e r, Maintains I J (store e r)) := by
  refine expr.mutual_induct _ _ _ _ _ _ _
    ?number ?string ?ident ?unary ?assignRead ?assign ?binary ?convert ?call ?ifElse ?whileLoop ?forLoop ?comparison
    ?noComparison ?storeName ?storeAt ?storeOther ?retNone ?ret ?stmtExpr ?varDecl ?globalDecl ?block ?prototype ?function
    ?noneDiscarded ?discarded ?noArguments ?arguments ?noStmts ?stmts
  case number => intro info value; rw [expr]; exact maintains_map (h.numberCode info value)
  case string => intro info label bytes; rw [expr]; exact maintains_map (h.stringCode info label bytes)
  case ident => intro info name scope; rw [expr]; exact maintains_map (h.nameCode info name scope)
  case unary => intro info op operand ih; rw [expr]; exact maintains_map (h.unaryCode (h.value ih))
  case assignRead =>
    intro info left right hread ihRight ihStore
    rw [expr, if_pos hread]
    exact maintains_bind (h.throw _) fun _ => maintains_bind (h.value ihRight) fun r =>
      maintains_bind (ihStore r) fun _ => maintains_pure _
  case assign =>
    intro info left right hread ihRight ihStore
    rw [expr, if_neg hread]
    exact maintains_bind (h.value ihRight) fun r => maintains_bind (ihStore r) fun _ => maintains_pure _
  case binary =>
    intro info op left right hop ihLeft ihRight
    rw [expr]
    · exact maintains_bind (h.value ihLeft) fun l => maintains_bind (h.value ihRight) fun r =>
        maintains_map (h.arithmetic op l r)
    · exact hop
  case convert => intro info change operand ih; rw [expr]; exact maintains_map (h.changeCode (h.value ih))
  case call => intro info name args ih; rw [expr]; exact h.callCode ih
  case ifElse =>
    intro info cond yes no ih
    cases no with
    | none =>
      obtain ⟨ihParts, ihCond, ihYes⟩ := ih
      exact h.ifElse (fun _ => h.branch ihParts ihCond) ihYes (by rintro _ ⟨⟩)
    | some no =>
      obtain ⟨ihParts, ihCond, ihYes, ihNo⟩ := ih
      refine h.ifElse (fun _ => h.branch ihParts ihCond) ihYes ?_
      rintro _ ⟨⟩
      exact ihNo
  case whileLoop =>
    intro info cond body ihParts ihCond ihBody
    exact h.whileLoop (fun _ => h.branch ihParts ihCond) ihBody
  case forLoop =>
    intro info init cond post body ihInit ihBody ihPost ihCond
    refine h.forLoop ihInit ?_ ihBody ihPost
    rintro cond rfl _
    exact h.branch ihCond.1 ihCond.2
  case comparison =>
    intro info op left right ihLeft ihRight cond l r hparts
    rw [comparison] at hparts
    obtain ⟨_, -, heq⟩ := Option.map_eq_some_iff.1 hparts
    cases heq
    exact ⟨h.value ihLeft, h.value ihRight⟩
  case noComparison =>
    intro e hother cond l r hparts
    rw [comparison] at hparts
    · cases hparts
    · exact hother
  case storeName =>
    intro info name scope r
    rw [store]
    exact h.location fun place hplace => h.emit hplace
  case storeAt =>
    intro info address r ih
    rw [store]
    exact maintains_bind (h.value ih) fun p => maintains_bind (h.emit rfl) fun _ => h.free p
  case storeOther =>
    intro e r hname hderef
    rw [store]
    · exact h.throw _
    · exact hname
    · exact hderef
  case retNone => rw [stmt]; exact h.returnCode (by rintro _ ⟨⟩)
  case ret =>
    intro e ih
    rw [stmt]
    refine h.returnCode fun code hcode => ?_
    cases hcode
    exact h.value ih
  case stmtExpr => intro e ih; rw [stmt]; exact maintains_bind ih fun _ => h.freeAll
  case varDecl => intro name; rw [stmt]; exact maintains_pure _
  case globalDecl => intro name; rw [stmt]; exact h.globalCode name
  case block => intro stmts ih; rw [stmt]; exact ih
  case prototype => intro name; rw [stmt]; exact maintains_pure _
  case function => intro name body ih; rw [stmt]; exact h.functionCode ih
  case noneDiscarded => rw [discarded]; exact maintains_pure _
  case discarded => intro e ih; rw [discarded]; exact maintains_bind ih fun _ => h.freeAll
  case noArguments => rw [arguments]; exact maintains_pure _
  case arguments =>
    intro arg args ihArg ihArgs
    rw [arguments]
    exact maintains_bind (h.value ihArg) fun r => maintains_bind (h.push _) fun _ => maintains_bind (h.free r) fun _ => ihArgs
  case noStmts => rw [stmtList]; exact maintains_pure _
  case stmts => intro s rest ih ihRest; rw [stmtList]; exact maintains_bind ih fun _ => ihRest

/-- **Lowering.** What survives single steps survives the lowering of the items of a program. -/
theorem items (h : Stable I J) (program : Program) : Maintains I J (stmtList program) := h.trees.2.2.2.1 program

end Stable

end Lower

end MiniC
