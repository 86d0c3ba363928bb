import MiniC.Compile
import MiniC.Diagnostic
import MiniC.Proofs.Outcome
import MiniC.Proofs.Renaming

/-!
# Lowering does not depend on the names of parameters and locals

Two runs side by side: one lowers a program, the other one the same program with other names for the parameters and locals
of a function. `Mirrors` says that the second run does what the first one does, on a state with the other names; only the
names in faults differ. Every way of putting computations together keeps it, and so does every step of lowering
(`trees_mirror`).

* `generate_renamed`: the listing, or the class and the line of the fault, stay the same, and so does what lowering leaves
  in the context.
-/

namespace MiniC

/-- The class of a problem and its line, without the message; an internal problem has neither. -/
def Diagnostic.place : Diagnostic → Option (Stage × Nat)
  | located stage line _ => some (stage, line)
  | internal _ | file .. => none

def Fault.place (fault : Fault) : Option (Stage × Nat) := fault.diagnostic.place

namespace Lower

/-- The state in which the other names are used. -/
def State.renamed (r : Renaming) (st : State) : State := { st with context := r.context st.context }

variable {r : Renaming} {α β : Type} {current mid last : Option String}

/-! The other names show in no field but the context, and there in no global. -/

section Fields

variable (st : State)

theorem State.pool_renamed : (st.renamed r).pool = st.pool := rfl

theorem State.segment_renamed : (st.renamed r).segment = st.segment := rfl

theorem State.function_renamed : (st.renamed r).function = st.function := rfl

theorem State.pushed_renamed : (st.renamed r).pushed = st.pushed := rfl

theorem State.strings_renamed : (st.renamed r).strings = st.strings := rfl

theorem State.global?_renamed (name : String) :
    (st.renamed r).context.symbols.global? name = st.context.symbols.global? name := rfl

end Fields

/-- The second outcome is the first one with the other names; `last` is the function whose body is lowered then. -/
inductive Mirrored (r : Renaming) (last : Option String) : EStateM.Result Fault State α → EStateM.Result Fault State α →
    Prop where
  | ok {a : α} {st : State} (function : st.function = last) : Mirrored r last (.ok a st) (.ok a (st.renamed r))
  | error {fault fault' : Fault} {st : State} (place : fault'.place = fault.place) :
      Mirrored r last (.error fault st) (.error fault' (st.renamed r))

/-- In the body of `current` the second computation does what the first one does, on a state with the other names. -/
def Mirrors (r : Renaming) (current last : Option String) (x x' : LowerM α) : Prop :=
  ∀ st, st.function = current → Mirrored r last (x st) (x' (st.renamed r))

/-! ## Ways of putting computations together -/

theorem mirrors_pure (a : α) : Mirrors r current current (pure a) (pure a) := fun _ hst => .ok hst

theorem mirrors_bind {x x' : LowerM α} {k k' : α → LowerM β} (hx : Mirrors r current mid x x')
    (hk : ∀ a, Mirrors r mid last (k a) (k' a)) : Mirrors r current last (x >>= k) (x' >>= k') := by
  intro st hst
  have h := hx st hst
  show Mirrored r last (EStateM.bind x k st) (EStateM.bind x' k' (st.renamed r))
  unfold EStateM.bind
  generalize x st = result at h ⊢
  generalize x' (st.renamed r) = result' at h ⊢
  cases h with
  | ok function => exact hk _ _ function
  | error place => exact .error place

theorem mirrors_map {x x' : LowerM α} {g : α → β} (hx : Mirrors r current last x x') :
    Mirrors r current last (g <$> x) (g <$> x') := by
  intro st hst
  have h := hx st hst
  show Mirrored r last (EStateM.map g x st) (EStateM.map g x' (st.renamed r))
  unfold EStateM.map
  generalize x st = result at h ⊢
  generalize x' (st.renamed r) = result' at h ⊢
  cases h with
  | ok function => exact .ok function
  | error place => exact .error place

theorem mirrors_get {k k' : State → LowerM β}
    (hk : ∀ st, st.function = current → Mirrors r current last (k st) (k' (st.renamed r))) :
    Mirrors r current last (get >>= k) (get >>= k') := fun st hst => hk st hst st hst

theorem mirrors_modify {g g' : State → State}
    (h : ∀ st, st.function = current → g' (st.renamed r) = (g st).renamed r ∧ (g st).function = last) :
    Mirrors r current last (modify g) (modify g') := by
  intro st hst
  obtain ⟨hstate, hfunction⟩ := h st hst
  show Mirrored r last (.ok PUnit.unit (g st)) (.ok PUnit.unit (g' (st.renamed r)))
  rw [hstate]
  exact .ok hfunction

theorem mirrors_throw {fault fault' : Fault} (h : fault'.place = fault.place) :
    Mirrors r current last (throw fault : LowerM α) (throw fault') := fun _ _ => .error h

theorem mirrors_forM {g g' : α → LowerM PUnit} (h : ∀ a, Mirrors r current current (g a) (g' a)) :
    ∀ as : List α, Mirrors r current current (as.forM g) (as.forM g')
  | [] => mirrors_pure _
  | a :: as => mirrors_bind (h a) fun _ => mirrors_forM h as

/-! ## Operations -/

section Operations

theorem append_mirrors (line : Line) : Mirrors r current current (append line) (append line) :=
  mirrors_modify fun _ hst => ⟨rfl, hst⟩

theorem emit_mirrors (i : Instr) : Mirrors r current current (emit i) (emit i) := append_mirrors _

theorem label_mirrors (n : Nat) : Mirrors r current current (label n) (label n) := append_mirrors _

theorem enter_mirrors (segment : Segment) : Mirrors r current current (enter segment) (enter segment) := by
  refine mirrors_get fun st _ => ?_
  rw [st.segment_renamed]
  split
  · exact mirrors_bind (append_mirrors _) fun _ => mirrors_modify fun _ hst => ⟨rfl, hst⟩
  · exact mirrors_pure _

theorem semantic_mirrors (line : Nat) (cause cause' : SemanticFault) :
    Mirrors r current last (semantic line cause : LowerM α) (semantic line cause') := mirrors_throw rfl

theorem internal_mirrors (cause : InternalFault) :
    Mirrors r current last (internal cause : LowerM α) (internal cause) := mirrors_throw rfl

theorem drawLabel_mirrors : Mirrors r current current drawLabel drawLabel := fun _ hst => .ok hst

theorem freeAll_mirrors : Mirrors r current current freeAll freeAll := mirrors_modify fun _ hst => ⟨rfl, hst⟩

theorem value_mirrors (line : Nat) {code code' : LowerM (Option Scratch)} (h : Mirrors r current last code code') :
    Mirrors r current last (value line code) (value line code') := by
  refine mirrors_bind h fun r? => ?_
  cases r? with
  | some _ => exact mirrors_pure _
  | none => exact semantic_mirrors _ _ _

theorem alloc_mirrors (line : Nat) : Mirrors r current current (alloc line) (alloc line) := by
  refine mirrors_get fun st _ => ?_
  rw [st.pool_renamed]
  split
  · exact mirrors_bind (mirrors_modify fun _ hst => ⟨rfl, hst⟩) fun _ => mirrors_pure _
  · exact mirrors_throw rfl

theorem free_mirrors (reg : Scratch) : Mirrors r current current (free reg) (free reg) := by
  refine mirrors_get fun st _ => ?_
  rw [st.pool_renamed]
  split
  · exact mirrors_modify fun _ hst => ⟨rfl, hst⟩
  · exact internal_mirrors _

theorem push_mirrors (reg : Reg) : Mirrors r current current (push reg) (push reg) :=
  mirrors_bind (emit_mirrors _) fun _ => mirrors_modify fun _ hst => ⟨rfl, hst⟩

theorem pop_mirrors (reg : Reg) : Mirrors r current current (pop reg) (pop reg) := by
  refine mirrors_bind (emit_mirrors _) fun _ => mirrors_get fun st _ => ?_
  rw [st.pushed_renamed]
  split
  · exact internal_mirrors _
  · exact mirrors_modify fun _ hst => ⟨rfl, hst⟩

/-- What a name of the function stands for is the renamed symbol. -/
theorem local?_renamed (t : SymbolTable) (current : Option String) (name : String) {scope : Scope} (hscope : scope ≠ .global) :
    current.bind ((r.table t).local? · (r.name current scope name)) = current.bind (t.local? · name) ∨
      current.bind ((r.table t).local? · (r.name current scope name)) = (current.bind (t.local? · name)).map r.symbol := by
  cases current with
  | none => exact .inl rfl
  | some f =>
    unfold Renaming.name
    rw [Option.bind_some, Option.bind_some]
    by_cases hf : f = r.function
    · subst hf
      rw [if_pos ⟨hscope, rfl⟩]
      exact .inr (r.local?_table t name)
    · rw [if_neg fun h => hf (Option.some.inj h.2)]
      exact .inl (r.local?_table_of_ne t hf name)

theorem symbol?_renamed {st : State} (hst : st.function = current) (name : String) (scope : Scope) :
    symbol? (st.renamed r) (r.name current scope name) scope = symbol? st name scope ∨
      symbol? (st.renamed r) (r.name current scope name) scope = (symbol? st name scope).map r.symbol := by
  subst hst
  cases scope with
  | global =>
    refine .inl ?_
    unfold Renaming.name
    rw [if_neg fun h => h.1 rfl]
    rfl
  | «local» => exact local?_renamed st.context.symbols st.function name (by decide)
  | parameter => exact local?_renamed st.context.symbols st.function name (by decide)

theorem position_renamed {st : State} (hst : st.function = current) (name : String) (scope : Scope) :
    (symbol? (st.renamed r) (r.name current scope name) scope).bind (·.position) =
      (symbol? st name scope).bind (·.position) := by
  rcases symbol?_renamed (r := r) hst name scope with h | h <;> rw [h]
  cases symbol? st name scope <;> rfl

theorem isArray_renamed {st : State} (hst : st.function = current) (name : String) (scope : Scope) :
    (symbol? (st.renamed r) (r.name current scope name) scope).any (·.isArray) =
      (symbol? st name scope).any (·.isArray) := by
  rcases symbol?_renamed (r := r) hst name scope with h | h <;> rw [h]
  cases symbol? st name scope <;> rfl

theorem location_mirrors (name : String) (scope : Scope) (line : Nat) :
    Mirrors r current current (location name scope line) (location (r.name current scope name) scope line) := by
  unfold location
  by_cases hscope : scope = .global
  · have hname : r.name current scope name = name := if_neg fun h => h.1 hscope
    rw [if_pos hscope, if_pos hscope, hname]
    exact mirrors_pure _
  · rw [if_neg hscope, if_neg hscope]
    refine mirrors_get fun st hst => ?_
    rw [position_renamed hst]
    split
    · exact mirrors_pure _
    · exact semantic_mirrors _ _ _

end Operations

/-! ## Code without subexpressions -/

theorem numberCode_mirrors (info : Info) (value : Int) :
    Mirrors r current current (numberCode info value) (numberCode info value) :=
  mirrors_bind (alloc_mirrors _) fun _ => mirrors_bind (emit_mirrors _) fun _ => mirrors_pure _

theorem stringCode_mirrors (info : Info) (label : Nat) (bytes : List UInt8) :
    Mirrors r current current (stringCode info label bytes) (stringCode info label bytes) :=
  mirrors_bind (mirrors_modify fun _ hst => ⟨rfl, hst⟩) fun _ =>
    mirrors_bind (alloc_mirrors _) fun _ => mirrors_bind (emit_mirrors _) fun _ => mirrors_pure _

theorem nameCode_mirrors (info : Info) (name : String) (scope : Scope) :
    Mirrors r current current (nameCode info name scope) (nameCode info (r.name current scope name) scope) := by
  refine mirrors_bind (location_mirrors name scope info.line) fun place => mirrors_bind (alloc_mirrors _) fun reg =>
    mirrors_get fun st hst => ?_
  rw [isArray_renamed hst]
  split
  · exact mirrors_bind (emit_mirrors _) fun _ => mirrors_pure _
  · exact mirrors_bind (emit_mirrors _) fun _ => mirrors_pure _

theorem addressCode_mirrors (info : Info) (operand : Expr) :
    Mirrors r current (operand.after current) (addressCode info operand) (addressCode info (operand.renamed r current)) := by
  cases operand with
  | ident info' name scope =>
    rw [Expr.renamed, Expr.after]
    exact mirrors_bind (location_mirrors name scope info.line) fun place => mirrors_bind (alloc_mirrors _) fun _ =>
      mirrors_bind (emit_mirrors _) fun _ => mirrors_pure _
  | _ =>
    rw [Expr.renamed]
    exact semantic_mirrors _ _ _

theorem stepCode_mirrors (info : Info) (moment : Moment) (direction : Direction) (operand : Expr) :
    Mirrors r current (operand.after current) (stepCode info moment direction operand)
      (stepCode info moment direction (operand.renamed r current)) := by
  cases operand with
  | ident info' name scope =>
    rw [Expr.renamed, Expr.after]
    refine mirrors_bind (location_mirrors name scope info.line) fun place => mirrors_bind (alloc_mirrors _) fun _ => ?_
    cases moment <;> exact mirrors_bind (emit_mirrors _) fun _ => mirrors_bind (emit_mirrors _) fun _ => mirrors_pure _
  | _ =>
    rw [Expr.renamed]
    exact semantic_mirrors _ _ _

theorem unaryCode_mirrors (info : Info) (op : UnaryOp) (operand : Expr) {code code' : LowerM Scratch}
    (h : Mirrors r current (operand.after current) code code') :
    Mirrors r current (operand.after current) (unaryCode info op operand code)
      (unaryCode info op (operand.renamed r current) code') := by
  cases op with
  | addressOf => exact addressCode_mirrors info operand
  | step moment direction => exact stepCode_mirrors info moment direction operand
  | deref => exact mirrors_bind h fun _ => mirrors_bind (emit_mirrors _) fun _ => mirrors_pure _
  | negate => exact mirrors_bind h fun _ => mirrors_bind (emit_mirrors _) fun _ => mirrors_pure _
  | not =>
    refine mirrors_bind h fun _ => mirrors_bind (emit_mirrors _) fun _ => mirrors_bind ?_ fun _ => mirrors_pure _
    exact mirrors_bind (emit_mirrors _) fun _ => emit_mirrors _

theorem changeCode_mirrors (change : Change) {code code' : LowerM Scratch} (h : Mirrors r current last code code') :
    Mirrors r current last (changeCode change code) (changeCode change code') := by
  refine mirrors_bind h fun reg => ?_
  cases change with
  | widen => exact mirrors_pure _
  | scale factor =>
    refine mirrors_bind ?_ fun _ => mirrors_pure _
    unfold scaleCode
    split <;> first | exact mirrors_pure _ | exact emit_mirrors _

theorem arithmetic_mirrors (op : BinaryOp) (left right : Scratch) :
    Mirrors r current current (arithmetic op left right) (arithmetic op left right) := by
  have hright : ∀ op, Mirrors r current current (intoRight op left right) (intoRight op left right) := fun op =>
    mirrors_bind (emit_mirrors _) fun _ => mirrors_bind (free_mirrors _) fun _ => mirrors_pure _
  have hleft : ∀ code, Mirrors r current current (intoLeft code left right) (intoLeft code left right) := fun code =>
    mirrors_bind (mirrors_forM emit_mirrors _) fun _ => mirrors_bind (free_mirrors _) fun _ => mirrors_pure _
  cases op <;> first | exact hright _ | exact hleft _ | exact mirrors_pure _

theorem argumentRegisters_mirrors (count : Nat) :
    Mirrors r current current (argumentRegisters count) (argumentRegisters count) := by
  unfold argumentRegisters
  split
  · exact mirrors_pure _
  · exact internal_mirrors _

theorem paddedCall_mirrors (name : String) : Mirrors r current current (paddedCall name) (paddedCall name) := by
  refine mirrors_get fun st _ => ?_
  rw [st.pushed_renamed]
  split
  · exact mirrors_bind (emit_mirrors _) fun _ => mirrors_bind (emit_mirrors _) fun _ => emit_mirrors _
  · exact emit_mirrors _

theorem takeResult_mirrors (info : Info) : Mirrors r current current (takeResult info) (takeResult info) := by
  unfold takeResult
  split
  · exact mirrors_pure _
  · exact mirrors_bind (alloc_mirrors _) fun _ => mirrors_bind (emit_mirrors _) fun _ => mirrors_pure _

theorem callCode_mirrors (info : Info) (name : String) (count : Nat) {args args' : LowerM Unit}
    (h : Mirrors r current last args args') :
    Mirrors r current last (callCode info name count args) (callCode info name count args') :=
  mirrors_get fun _ _ => mirrors_bind (mirrors_forM (fun _ => push_mirrors _) _) fun _ => mirrors_bind h fun _ =>
    mirrors_bind (argumentRegisters_mirrors count) fun _ => mirrors_bind (mirrors_forM pop_mirrors _) fun _ =>
      mirrors_bind (paddedCall_mirrors name) fun _ => mirrors_bind (mirrors_forM (fun _ => pop_mirrors _) _) fun _ =>
        takeResult_mirrors info

/-- The same condition, with code for its operands that mirrors the other. -/
inductive MirrorsParts (r : Renaming) (current last : Option String) :
    Option (Cond × LowerM Scratch × LowerM Scratch) → Option (Cond × LowerM Scratch × LowerM Scratch) → Prop where
  | none : MirrorsParts r current last none none
  | some {mid : Option String} {cond : Cond} {left right left' right' : LowerM Scratch}
      (first : Mirrors r current mid left left') (second : Mirrors r mid last right right') :
      MirrorsParts r current last (some (cond, left, right)) (some (cond, left', right'))

theorem branchCode_mirrors {parts parts' : Option (Cond × LowerM Scratch × LowerM Scratch)} {whole whole' : LowerM Scratch}
    (target : Nat) (hparts : MirrorsParts r current last parts parts') (hwhole : Mirrors r current last whole whole') :
    Mirrors r current last (branchCode parts whole target) (branchCode parts' whole' target) := by
  cases hparts with
  | none =>
    exact mirrors_bind hwhole fun _ => mirrors_bind (emit_mirrors _) fun _ => mirrors_bind (emit_mirrors _) fun _ =>
      freeAll_mirrors
  | some first second =>
    exact mirrors_bind first fun _ => mirrors_bind second fun _ => mirrors_bind (emit_mirrors _) fun _ =>
      mirrors_bind (emit_mirrors _) fun _ => freeAll_mirrors

theorem globalCode_mirrors (name : String) : Mirrors r current current (globalCode name) (globalCode name) := by
  refine mirrors_get fun st _ => ?_
  rw [st.global?_renamed]
  split
  · exact internal_mirrors _
  · refine mirrors_bind (enter_mirrors _) fun _ => mirrors_bind (mirrors_forM append_mirrors _) fun _ =>
      mirrors_get fun st' _ => ?_
    rw [st'.function_renamed]
    split
    · exact enter_mirrors _
    · exact mirrors_pure _

theorem epilogueOf_mirrors (name : String) : Mirrors r current current (epilogueOf name) (epilogueOf name) := by
  refine mirrors_get fun st _ => ?_
  rw [st.global?_renamed]
  split
  · exact mirrors_pure _
  · exact internal_mirrors _

theorem returnNone_mirrors : Mirrors r current current (returnCode none) (returnCode none) := by
  refine mirrors_get fun st _ => ?_
  rw [st.function_renamed]
  split
  · exact internal_mirrors _
  · exact mirrors_bind (epilogueOf_mirrors _) fun _ => mirrors_bind (emit_mirrors _) fun _ => freeAll_mirrors

theorem returnSome_mirrors {code code' : LowerM Scratch} (h : Mirrors r current last code code') :
    Mirrors r current last (returnCode (some code)) (returnCode (some code')) := by
  refine mirrors_get fun st _ => ?_
  rw [st.function_renamed]
  split
  · exact internal_mirrors _
  · exact mirrors_bind (epilogueOf_mirrors _) fun _ => mirrors_bind h fun _ => mirrors_bind (emit_mirrors _) fun _ =>
      mirrors_bind (emit_mirrors _) fun _ => freeAll_mirrors

/-- The slots of parameters do not depend on their names. -/
theorem storeParams_symbol : ∀ (params : List Symbol) (regs : List Reg),
    storeParams (params.map r.symbol) regs = storeParams params regs
  | [], _ => rfl
  | _ :: _, [] => rfl
  | param :: params, reg :: regs => by
    rw [List.map_cons, storeParams, storeParams, storeParams_symbol params regs]
    rfl

theorem storeParams_mirrors : ∀ (params : List Symbol) (regs : List Reg),
    Mirrors r current current (storeParams params regs) (storeParams params regs)
  | [], _ => mirrors_pure _
  | _ :: _, [] => internal_mirrors _
  | _ :: params, _ :: regs => mirrors_bind (emit_mirrors _) fun _ => storeParams_mirrors params regs

theorem openFunction_mirrors (name : String) (t : SymbolTable) :
    Mirrors r current (some name) (openFunction name t) (openFunction name (r.table t)) :=
  mirrors_bind (mirrors_modify fun _ _ => ⟨rfl, rfl⟩) fun _ => mirrors_bind (enter_mirrors _) fun _ =>
    mirrors_bind (append_mirrors _) fun _ => mirrors_bind (append_mirrors _) fun _ => append_mirrors _

/-- A function is lowered in its own body, and nothing is lowered in a body after it. -/
theorem functionCode_mirrors (name : String) {body body' : LowerM Unit} (h : Mirrors r (some name) last body body') :
    Mirrors r current none (functionCode name body) (functionCode name body') := by
  refine mirrors_bind (epilogueOf_mirrors name) fun exit => mirrors_get fun st _ => ?_
  have hlayout : Frame.layout (st.renamed r).context.symbols name =
      (r.table (Frame.layout st.context.symbols name).1, (Frame.layout st.context.symbols name).2) :=
    r.layout_table st.context.symbols name
  have hparams : storeParams ((r.table (Frame.layout st.context.symbols name).1).params name) Reg.arguments =
      storeParams ((Frame.layout st.context.symbols name).1.params name) Reg.arguments := by
    rw [r.params_table]
    unfold Renaming.members
    split
    · exact storeParams_symbol _ _
    · rfl
  dsimp only
  rw [hlayout, hparams]
  exact mirrors_bind (openFunction_mirrors name _) fun _ => mirrors_bind (mirrors_forM emit_mirrors _) fun _ =>
    mirrors_bind (storeParams_mirrors _ _) fun _ => mirrors_bind h fun _ => mirrors_bind (label_mirrors _) fun _ =>
      mirrors_bind (mirrors_forM emit_mirrors _) fun _ => mirrors_modify fun _ _ => ⟨rfl, rfl⟩

/-! ## Trees -/

/-- The code of an expression is mirrored by its code with the other names. -/
abbrev ExprMirrors (r : Renaming) (current : Option String) (e : Expr) : Prop :=
  Mirrors r current (e.after current) (expr e) (expr (e.renamed r current))

abbrev StmtMirrors (r : Renaming) (current : Option String) (s : Stmt) : Prop :=
  Mirrors r current (s.after current) (stmt s) (stmt (s.renamed r current))

abbrev DiscardedMirrors (r : Renaming) (current : Option String) (e : Option Expr) : Prop :=
  Mirrors r current (Expr.after? e current) (discarded e) (discarded (Expr.renamed? r e current))

/-- The branch on a condition is mirrored, wherever the branch leads. -/
abbrev BranchMirrors (r : Renaming) (current : Option String) (cond : Expr) : Prop :=
  ∀ target, Mirrors r current (cond.after current) (branchCode (comparison cond) (value cond.line (expr cond)) target)
    (branchCode (comparison (cond.renamed r current)) (value (cond.renamed r current).line (expr (cond.renamed r current)))
      target)

section Trees

variable {left right cond : Expr} {yes body : Stmt} (info : Info)

/-- The right side of an assignment is lowered before the location. -/
theorem assign_mirrors (hright : ExprMirrors r current right)
    (hstore : ∀ reg, Mirrors r (right.after current) (left.after (right.after current)) (store left reg)
      (store (left.renamed r (right.after current)) reg)) : ExprMirrors r current (.binary info .assign left right) := by
  rw [ExprMirrors, Expr.renamed, Expr.after, if_pos rfl, if_pos rfl, if_pos rfl, expr, expr, Expr.info_renamed,
    Expr.line_renamed, Expr.line_renamed]
  have hrest : Mirrors r current (left.after (right.after current))
      (value right.line (expr right) >>= fun reg => store left reg >>= fun _ => pure (some reg))
      (value right.line (expr (right.renamed r current)) >>= fun reg =>
        store (left.renamed r (right.after current)) reg >>= fun _ => pure (some reg)) :=
    mirrors_bind (value_mirrors _ hright) fun reg => mirrors_bind (hstore reg) fun _ => mirrors_pure _
  split
  · exact mirrors_bind (semantic_mirrors _ _ _) fun _ => hrest
  · exact hrest

/-- The left operand of any other operator is lowered first. -/
theorem binary_mirrors {op : BinaryOp} (hop : op ≠ .assign) (hleft : ExprMirrors r current left)
    (hright : ExprMirrors r (left.after current) right) : ExprMirrors r current (.binary info op left right) := by
  rw [ExprMirrors, Expr.renamed, Expr.after, if_neg hop, if_neg hop, if_neg hop, expr, expr]
  · rw [Expr.line_renamed, Expr.line_renamed]
    exact mirrors_bind (value_mirrors _ hleft) fun _ => mirrors_bind (value_mirrors _ hright) fun _ =>
      mirrors_map (arithmetic_mirrors op _ _)
  · exact hop
  · exact hop

/-- A comparison has the code of its operands, in this order. -/
theorem comparison_mirrors (op : BinaryOp) (hleft : ExprMirrors r current left)
    (hright : ExprMirrors r (left.after current) right) :
    MirrorsParts r current ((Expr.binary info op left right).after current) (comparison (.binary info op left right))
      (comparison ((Expr.binary info op left right).renamed r current)) := by
  rw [Expr.renamed, Expr.after, comparison, comparison]
  cases hcond : op.cond? with
  | none => exact .none
  | some cond =>
    have hop : op ≠ .assign := by
      rintro rfl
      cases hcond
    rw [if_neg hop, if_neg hop, if_neg hop, Expr.line_renamed, Expr.line_renamed]
    exact .some (value_mirrors _ hleft) (value_mirrors _ hright)

theorem branch_mirrors
    (hparts : MirrorsParts r current (cond.after current) (comparison cond) (comparison (cond.renamed r current)))
    (hcond : ExprMirrors r current cond) : BranchMirrors r current cond := by
  intro target
  rw [Expr.line_renamed]
  exact branchCode_mirrors target hparts (value_mirrors _ hcond)

theorem ifElse_mirrors {no : Option Stmt} (hcond : BranchMirrors r current cond)
    (hyes : ∀ current, StmtMirrors r current yes)
    (hno : ∀ no', no = some no' → ∀ current, StmtMirrors r current no') :
    ExprMirrors r current (.ifElse info cond yes no) := by
  rw [ExprMirrors, Expr.renamed, Expr.after, expr, expr]
  refine mirrors_bind drawLabel_mirrors fun n => ?_
  cases no with
  | none =>
    rw [Stmt.renamed?, Stmt.after?]
    exact mirrors_bind (hcond n) fun _ => mirrors_bind (hyes _) fun _ => mirrors_bind (label_mirrors _) fun _ =>
      mirrors_pure _
  | some no =>
    rw [Stmt.renamed?, Stmt.after?]
    exact mirrors_bind drawLabel_mirrors fun m => mirrors_bind (hcond n) fun _ => mirrors_bind (hyes _) fun _ =>
      mirrors_bind (emit_mirrors _) fun _ => mirrors_bind (label_mirrors _) fun _ =>
        mirrors_bind (hno no rfl _) fun _ => mirrors_bind (label_mirrors _) fun _ => mirrors_pure _

theorem whileLoop_mirrors (hcond : BranchMirrors r current cond) (hbody : ∀ current, StmtMirrors r current body) :
    ExprMirrors r current (.whileLoop info cond body) := by
  rw [ExprMirrors, Expr.renamed, Expr.after, expr, expr]
  exact mirrors_bind drawLabel_mirrors fun start => mirrors_bind drawLabel_mirrors fun finish =>
    mirrors_bind (label_mirrors _) fun _ => mirrors_bind (hcond finish) fun _ => mirrors_bind (hbody _) fun _ =>
      mirrors_bind (emit_mirrors _) fun _ => mirrors_bind (label_mirrors _) fun _ => mirrors_pure _

/-- The last clause of a `for` is lowered after the body. -/
theorem forLoop_mirrors {init cond post : Option Expr} (hinit : DiscardedMirrors r current init)
    (hcond : ∀ cond', cond = some cond' → ∀ current, BranchMirrors r current cond')
    (hbody : ∀ current, StmtMirrors r current body) (hpost : ∀ current, DiscardedMirrors r current post) :
    ExprMirrors r current (.forLoop info init cond post body) := by
  rw [ExprMirrors, Expr.renamed, Expr.after, expr, expr]
  have hrest : ∀ (start finish : Nat) (current : Option String), Mirrors r current
      (Expr.after? post (body.after current))
      (stmt body >>= fun _ => discarded post >>= fun _ => emit (.jump start) >>= fun _ => label finish >>= fun _ =>
        pure (none : Option Scratch))
      (stmt (body.renamed r current) >>= fun _ => discarded (Expr.renamed? r post (body.after current)) >>= fun _ =>
        emit (.jump start) >>= fun _ => label finish >>= fun _ => pure none) := fun _ _ current =>
    mirrors_bind (hbody current) fun _ => mirrors_bind (hpost _) fun _ => mirrors_bind (emit_mirrors _) fun _ =>
      mirrors_bind (label_mirrors _) fun _ => mirrors_pure _
  refine mirrors_bind drawLabel_mirrors fun start => mirrors_bind drawLabel_mirrors fun finish =>
    mirrors_bind hinit fun _ => mirrors_bind (label_mirrors _) fun _ => ?_
  cases cond with
  | none =>
    rw [Expr.renamed?, Expr.after?]
    exact hrest start finish _
  | some cond =>
    rw [Expr.renamed?, Expr.after?]
    exact mirrors_bind (hcond cond rfl _ finish) fun _ => hrest start finish _

end Trees

/-- **Lowering mirrors.** Whatever function is current, a tree with the other names is lowered as the tree is. -/
theorem trees_mirror (r : Renaming) :
    (∀ (e : Expr) current, Mirrors r current (e.after current) (expr e) (expr (e.renamed r current))) ∧
    (∀ e current, Mirrors r current (Expr.after? e current) (discarded e) (discarded (Expr.renamed? r e current))) ∧
    (∀ (s : Stmt) current, Mirrors r current (s.after current) (stmt s) (stmt (s.renamed r current))) ∧
    (∀ ss current, Mirrors r current (Stmt.afterAll ss current) (stmtList ss) (stmtList (Stmt.renamedAll r ss current))) ∧
    (∀ (e : Expr) current, MirrorsParts r current (e.after current) (comparison e) (comparison (e.renamed r current))) ∧
    (∀ es current, Mirrors r current (Expr.afterAll es current) (arguments es) (arguments (Expr.renamedAll r es current))) ∧
    (∀ (e : Expr) reg current, Mirrors r current (e.after current) (store e reg) (store (e.renamed r current) reg)) := by
  refine expr.mutual_induct _ _ _ _ _ _ _
    ?number ?string ?ident ?unary ?assignRead ?assign ?binary ?convert ?call ?ifElse ?whileLoop ?forLoop ?comparison
    ?noComparison ?storeName ?storeAt ?storeOther ?retNone ?ret ?stmtExpr ?varDecl ?globalDecl ?block ?prototype ?function
    ?noneDiscarded ?discarded ?noArguments ?arguments ?noStmts ?stmts
  case number =>
    intro info value current
    rw [Expr.renamed, Expr.after, expr]
    exact mirrors_map (numberCode_mirrors info value)
  case string =>
    intro info label bytes current
    rw [Expr.renamed, Expr.after, expr]
    exact mirrors_map (stringCode_mirrors info label bytes)
  case ident =>
    intro info name scope current
    rw [Expr.renamed, Expr.after, expr, expr]
    exact mirrors_map (nameCode_mirrors info name scope)
  case unary =>
    intro info op operand ih current
    rw [Expr.renamed, Expr.after, expr, expr, Expr.line_renamed]
    exact mirrors_map (unaryCode_mirrors info op operand (value_mirrors _ (ih current)))
  case assignRead =>
    intro info left right hread ihRight ihStore current
    exact assign_mirrors info (ihRight current) fun reg => ihStore reg _
  case assign =>
    intro info left right hread ihRight ihStore current
    exact assign_mirrors info (ihRight current) fun reg => ihStore reg _
  case binary =>
    intro info op left right hop ihLeft ihRight current
    exact binary_mirrors info hop (ihLeft current) (ihRight _)
  case convert =>
    intro info change operand ih current
    rw [Expr.renamed, Expr.after, expr, expr, Expr.line_renamed]
    exact mirrors_map (changeCode_mirrors change (value_mirrors _ (ih current)))
  case call =>
    intro info name args ih current
    rw [Expr.renamed, Expr.after, expr, expr, Expr.length_renamedAll]
    exact callCode_mirrors info name args.length (ih current)
  case ifElse =>
    intro info cond yes no ih current
    cases no with
    | none =>
      obtain ⟨ihParts, ihCond, ihYes⟩ := ih
      exact ifElse_mirrors info (branch_mirrors (ihParts current) (ihCond current)) ihYes (by rintro _ ⟨⟩)
    | some no =>
      obtain ⟨ihParts, ihCond, ihYes, ihNo⟩ := ih
      refine ifElse_mirrors info (branch_mirrors (ihParts current) (ihCond current)) ihYes ?_
      rintro _ ⟨⟩
      exact ihNo
  case whileLoop =>
    intro info cond body ihParts ihCond ihBody current
    exact whileLoop_mirrors info (branch_mirrors (ihParts current) (ihCond current)) ihBody
  case forLoop =>
    intro info init cond post body ihInit ihBody ihPost ihCond current
    refine forLoop_mirrors info (ihInit current) ?_ ihBody ihPost
    rintro cond rfl current
    exact branch_mirrors (ihCond.1 current) (ihCond.2 current)
  case comparison =>
    intro info op left right ihLeft ihRight current
    exact comparison_mirrors info op (ihLeft current) (ihRight _)
  case noComparison =>
    intro e hother current
    cases e with
    | binary info op left right => exact absurd rfl (hother info op left right)
    | _ =>
      rw [Expr.renamed]
      exact .none
  case storeName =>
    intro info name scope reg current
    rw [Expr.renamed, Expr.after, store, store]
    exact mirrors_bind (location_mirrors name scope info.line) fun _ => emit_mirrors _
  case storeAt =>
    intro info address reg ih current
    rw [Expr.renamed, Expr.after, store, store, Expr.line_renamed]
    exact mirrors_bind (value_mirrors _ (ih current)) fun _ => mirrors_bind (emit_mirrors _) fun _ => free_mirrors _
  case storeOther =>
    intro e reg hname hderef current
    cases e with
    | ident info name scope => exact absurd rfl (hname info name scope)
    | unary info op operand =>
      rw [Expr.renamed]
      cases op with
      | deref => exact absurd rfl (hderef info operand)
      | _ => exact semantic_mirrors _ _ _
    | _ =>
      rw [Expr.renamed]
      exact semantic_mirrors _ _ _
  case retNone =>
    intro current
    rw [Stmt.renamed, Stmt.after, Expr.renamed?, Expr.after?, stmt]
    exact returnNone_mirrors
  case ret =>
    intro e ih current
    rw [Stmt.renamed, Stmt.after, Expr.renamed?, Expr.after?, stmt, stmt, Expr.line_renamed]
    exact returnSome_mirrors (value_mirrors _ (ih current))
  case stmtExpr =>
    intro e ih current
    rw [Stmt.renamed, Stmt.after, stmt, stmt]
    exact mirrors_bind (ih current) fun _ => freeAll_mirrors
  case varDecl =>
    intro name current
    rw [Stmt.renamed, Stmt.after, stmt, stmt]
    exact mirrors_pure _
  case globalDecl =>
    intro name current
    rw [Stmt.renamed, Stmt.after, stmt]
    exact globalCode_mirrors name
  case block =>
    intro stmts ih current
    rw [Stmt.renamed, Stmt.after, stmt, stmt]
    exact ih current
  case prototype =>
    intro name current
    rw [Stmt.renamed, Stmt.after, stmt]
    exact mirrors_pure _
  case function =>
    intro name body ih current
    rw [Stmt.renamed, Stmt.after, stmt, stmt]
    exact functionCode_mirrors name (ih (some name))
  case noneDiscarded =>
    intro current
    rw [Expr.renamed?, Expr.after?, discarded]
    exact mirrors_pure _
  case discarded =>
    intro e ih current
    rw [Expr.renamed?, Expr.after?, discarded, discarded]
    exact mirrors_bind (ih current) fun _ => freeAll_mirrors
  case noArguments =>
    intro current
    rw [Expr.renamedAll, Expr.afterAll, arguments]
    exact mirrors_pure _
  case arguments =>
    intro arg args ihArg ihArgs current
    rw [Expr.renamedAll, Expr.afterAll, arguments, arguments, Expr.line_renamed]
    exact mirrors_bind (value_mirrors _ (ihArg current)) fun _ => mirrors_bind (push_mirrors _) fun _ =>
      mirrors_bind (free_mirrors _) fun _ => ihArgs _
  case noStmts =>
    intro current
    rw [Stmt.renamedAll, Stmt.afterAll, stmtList]
    exact mirrors_pure _
  case stmts =>
    intro s rest ih ihRest current
    rw [Stmt.renamedAll, Stmt.afterAll, stmtList, stmtList]
    exact mirrors_bind (ih current) fun _ => ihRest _

theorem program_mirrors (r : Renaming) (program : Program) : Mirrors r none (Stmt.afterAll program none)
    (Lower.program program) (Lower.program (Stmt.renamedAll r program none)) := by
  have hliterals : ∀ {current}, Mirrors r current current strings strings := by
    intro current
    refine mirrors_get fun st _ => ?_
    rw [st.strings_renamed]
    dsimp only
    split
    · exact mirrors_bind (append_mirrors _) fun _ => mirrors_forM (fun _ => mirrors_bind (label_mirrors _) fun _ =>
        mirrors_forM (fun _ => append_mirrors _) _) _
    · exact mirrors_pure _
  exact mirrors_bind ((trees_mirror r).2.2.2.1 program none) fun _ => mirrors_bind hliterals fun _ => append_mirrors _

end Lower

/-- The program with other names for the parameters and locals of `r.function`. -/
def Program.renamed (r : Renaming) (program : Program) : Program := Stmt.renamedAll r program none

/-- The places of the parameters and locals of a function, in the order of declaration. -/
def SymbolTable.positions (t : SymbolTable) (f : String) : List (Option Int) := (t.members f).map (·.position)

theorem Renaming.positions_table (r : Renaming) (t : SymbolTable) (f : String) :
    (r.table t).positions f = t.positions f := by
  unfold SymbolTable.positions
  rw [members_table]
  unfold members
  split
  · rw [List.map_map]
    rfl
  · rfl

/-- **Names of parameters and locals do not matter.** In any context, a program in which the parameters and locals of a
function have other names is lowered to the same listing, or fails on the same line with a fault of the same class. Either
way the same labels are drawn, and every frame is laid out alike. -/
theorem generate_renamed (r : Renaming) (program : Program) (c : Context) :
    (∀ listing c₁, generate program c = .ok listing c₁ → ∃ c₂,
      generate (program.renamed r) (r.context c) = .ok listing c₂ ∧ c₂.nextLabel = c₁.nextLabel ∧
        ∀ f, c₂.symbols.positions f = c₁.symbols.positions f) ∧
    (∀ fault c₁, generate program c = .error fault c₁ → ∃ fault' c₂,
      generate (program.renamed r) (r.context c) = .error fault' c₂ ∧ fault'.place = fault.place ∧
        c₂.nextLabel = c₁.nextLabel ∧ ∀ f, c₂.symbols.positions f = c₁.symbols.positions f) := by
  have hrun := Lower.program_mirrors r program { context := c } rfl
  have hstart : Lower.State.renamed r { context := c } = { context := r.context c } := rfl
  rw [hstart] at hrun
  unfold generate Program.renamed
  generalize Lower.program program { context := c } = result at hrun ⊢
  generalize Lower.program (Stmt.renamedAll r program none) { context := r.context c } = result' at hrun ⊢
  cases hrun with
  | @ok _ st =>
    refine ⟨fun listing c₁ h => ?_, fun _ _ h => by cases h⟩
    cases h
    exact ⟨_, rfl, rfl, r.positions_table st.context.symbols⟩
  | @error fault fault' st place =>
    refine ⟨fun _ _ h => by (cases h), fun fault c₁ h => ?_⟩
    cases h
    exact ⟨fault', _, rfl, place, rfl, r.positions_table st.context.symbols⟩

/-- In `f`, what was called `a` is called `b`, and the other way round. -/
def Renaming.swapping (f a b : String) : Renaming where
  function := f
  map name := if name = a then b else if name = b then a else name
  injective := by grind

/-- A parameter gets the name of a global that the function reads too. -/
theorem generate_renamed_shadowing :
    ∃ program c listing c₁ c₂, parseSource "global int g; func f(int x) -> int \x7b var int y; y = x + g; return y; \x7d" {} =
        .ok program c ∧ generate program c = .ok listing c₁ ∧
      generate (program.renamed (.swapping "f" "x" "g")) ((Renaming.swapping "f" "x" "g").context c) = .ok listing c₂ ∧
      c₂.nextLabel = c₁.nextLabel ∧ ∀ f, c₂.symbols.positions f = c₁.symbols.positions f := by
  have hends : (ended ((parseSource
      "global int g; func f(int x) -> int \x7b var int y; y = x + g; return y; \x7d" >>= generate) {})).isSome = true := by
    decide +kernel
  obtain ⟨listing, c₁, hrun⟩ := exists_of_ended hends
  obtain ⟨program, c, hparse, hgenerate⟩ := bind_eq_ok.1 hrun
  obtain ⟨c₂, hrenamed⟩ := (generate_renamed (.swapping "f" "x" "g") program c).1 listing c₁ hgenerate
  exact ⟨program, c, listing, c₁, c₂, hparse, hgenerate, hrenamed⟩

end MiniC
