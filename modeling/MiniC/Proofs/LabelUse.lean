import Mathlib.Data.List.Perm.Basic
import MiniC.Proofs.Labels
import MiniC.Proofs.LowerFrame
import MiniC.Proofs.TreeLabels

/-!
# Labels that code uses

The code of an expression jumps nowhere and refers to the string literals of the expression, each as often as it stands
there. A statement jumps to labels of its own and to the epilogue of its function, so no jump leaves its function
(`ItemsCode.jumpsInside`). The labels of the items of a program are all those that lowering draws and those of the
functions that the items define (`ItemsCode.labels_perm`).
-/

namespace MiniC

/-! ## Expressions -/

/-- The string literals that lines refer to. -/
def literalUses (lines : List Line) : List Nat := lines.filterMap Line.literal?

@[simp] theorem literalUses_nil : literalUses [] = [] := rfl

@[simp] theorem literalUses_append (lines lines' : List Line) :
    literalUses (lines ++ lines') = literalUses lines ++ literalUses lines' := List.filterMap_append

@[simp] theorem literalUses_label (n : Nat) (lines : List Line) : literalUses (.label n :: lines) = literalUses lines := rfl

@[simp] theorem literalUses_directive (d : Directive) (lines : List Line) :
    literalUses (.directive d :: lines) = literalUses lines := rfl

@[simp] theorem literalUses_name (name : String) (lines : List Line) :
    literalUses (.name name :: lines) = literalUses lines := rfl

@[simp] theorem literalUses_jump (n : Nat) (lines : List Line) :
    literalUses (.instr (.jump n) :: lines) = literalUses lines := rfl

@[simp] theorem literalUses_instrLines (code : List Instr) :
    literalUses (instrLines code) = code.filterMap Instr.literal? := by
  unfold literalUses instrLines
  rw [List.filterMap_map]
  rfl

/-- The literals of what a piece of code is for. -/
def Task.literals : Task → List Nat
  | value e => e.literals
  | push args => exprLiterals args

section Expressions

variable {t : SymbolTable} {f : String} {pool : RegisterPool} {pushed : Nat} {task : Task} {r? : Option Scratch}
  {code : List Instr} {target : Nat}

theorem literal?_of_place {name : String} {scope : Scope} {place : Location} (h : t.place? f name scope = some place) :
    place.literal? = none := by
  cases scope with
  | global => cases h; rfl
  | «local» => obtain ⟨_, -, rfl⟩ := Option.map_eq_some_iff.1 h; rfl
  | parameter => obtain ⟨_, -, rfl⟩ := Option.map_eq_some_iff.1 h; rfl

/-- Whether an instruction computes in registers other than the stack and frame pointers, and does nothing else. -/
def Instr.computing : Instr → Bool
  | mov _ dst | movLong _ dst | zeroExtendLong _ dst | zeroExtend _ dst | signExtend _ dst | movImm _ dst | alu _ _ dst
  | aluImm _ _ dst | neg dst | shiftImm _ dst | shift _ dst | set _ dst => dst != .rsp && dst != .rbp
  | cqo | idiv _ | cmp _ _ | cmpZero _ => true
  | _ => false

theorem computing_scaling (factor : Int) (r : Scratch) : ∀ i ∈ scaling factor r.reg, i.computing = true := by
  unfold scaling
  split <;> simp [Instr.computing, r.reg_ne_rsp, r.reg_ne_rbp]

theorem computing_instrs (op : BinaryOp) (l r : Scratch) : ∀ i ∈ op.instrs l.reg r.reg, i.computing = true := by
  cases op <;>
    simp [BinaryOp.instrs, BinaryOp.instrs.comparing, Instr.computing, l.reg_ne_rsp, l.reg_ne_rbp, r.reg_ne_rsp,
      r.reg_ne_rbp]

theorem computing_taking (ty : Ty) (r? : Option Scratch) : ∀ i ∈ taking ty r?, i.computing = true := by
  cases r? with
  | none => simp [taking]
  | some r =>
    unfold taking Instr.widen
    cases ty.width <;> simp [Instr.computing, r.reg_ne_rsp, r.reg_ne_rbp]

/-- Instructions that neither jump nor refer to a literal, and do not return. -/
def Instr.Inert (i : Instr) : Prop := i.jump? = none ∧ i.literal? = none ∧ i ≠ .ret

theorem inert_of_computing (h : ∀ i ∈ code, i.computing = true) : ∀ i ∈ code, i.Inert := by
  intro i hi
  have hcomputing := h i hi
  cases i with
  | push | pop | lea | load | store | update | jump | jumpIf | call | ret => cases hcomputing
  | _ => exact ⟨rfl, rfl, by simp⟩

theorem inert_padded (pushed : Nat) (name : String) : ∀ i ∈ padded pushed name, i.Inert := by
  unfold padded
  split <;> simp [Instr.Inert, Instr.jump?, Instr.literal?]

theorem inert_map {α : Type} {g : α → Instr} (h : ∀ a, (g a).Inert) (as : List α) : ∀ i ∈ as.map g, i.Inert :=
  List.forall_mem_map.2 fun a _ => h a

theorem literals_of_inert {code : List Instr} (h : ∀ i ∈ code, i.Inert) : code.filterMap Instr.literal? = [] :=
  List.filterMap_eq_nil_iff.2 fun i hi => (h i hi).2.1

theorem literals_of_computing (h : ∀ i ∈ code, i.computing = true) : code.filterMap Instr.literal? = [] :=
  literals_of_inert (inert_of_computing h)

theorem inert_push (r : Reg) : (Instr.push r).Inert := ⟨rfl, rfl, by simp⟩

theorem inert_pop (r : Reg) : (Instr.pop r).Inert := ⟨rfl, rfl, by simp⟩

/-- Instructions that do not return and jump nowhere but to `target`. -/
def Instr.Aims (target : Nat) (i : Instr) : Prop := i ≠ .ret ∧ ∀ k, i.jump? = some k → k = target

/-- Instructions that neither jump nor return. -/
def Instr.Straight (i : Instr) : Prop := i.jump? = none ∧ i ≠ .ret

theorem Instr.Straight.aims {i : Instr} (h : i.Straight) : i.Aims target :=
  ⟨h.2, fun k hk => by rw [h.1] at hk; cases hk⟩

/-- The code of an expression neither jumps nor returns. -/
theorem Code.straight (h : Code t f pool pushed task r? code) : ∀ i ∈ code, i.Straight := by
  have hinert : ∀ {code : List Instr}, (∀ i ∈ code, i.Inert) → ∀ i ∈ code, i.Straight :=
    fun h i hi => ⟨(h i hi).1, (h i hi).2.2⟩
  induction h with
  | number | string | array | scalar | addressOf | stepBefore | stepAfter | pushNone => simp [Instr.Straight, Instr.jump?]
  | deref _ ih | negate _ ih | not _ ih | assignName _ _ _ _ ih =>
    simp only [List.forall_mem_append]
    exact ⟨ih, by simp [Instr.Straight, Instr.jump?]⟩
  | widen _ ih => exact ih
  | scale _ ih =>
    simp only [List.forall_mem_append]
    exact ⟨ih, hinert (inert_of_computing (computing_scaling _ _))⟩
  | assignAt _ _ ih ih' =>
    simp only [List.forall_mem_append]
    exact ⟨ih, ih', by simp [Instr.Straight, Instr.jump?]⟩
  | arithmetic _ _ _ ih ih' =>
    simp only [List.forall_mem_append]
    exact ⟨ih, ih', hinert (inert_of_computing (computing_instrs _ _ _))⟩
  | call _ _ _ ih =>
    simp only [List.forall_mem_append]
    exact ⟨hinert (inert_map (fun _ => inert_push _) _), ih, hinert (inert_map inert_pop _), hinert (inert_padded _ _),
      hinert (inert_map (fun _ => inert_pop _) _), hinert (inert_of_computing (computing_taking _ _))⟩
  | pushMore _ _ ih ih' =>
    simp only [List.forall_mem_append, List.forall_mem_cons]
    exact ⟨ih, by simp [Instr.Straight, Instr.jump?], ih'⟩

/-- The code of an expression refers to its literals, each as often as it stands there. -/
theorem Code.literals (h : Code t f pool pushed task r? code) :
    (code.filterMap Instr.literal?).Perm task.literals := by
  induction h with
  | number | string | pushNone => simp [Task.literals, Expr.literals, exprLiterals, Instr.literal?, Location.literal?]
  | array _ _ placed | scalar _ _ placed | addressOf placed | stepBefore _ _ placed | stepAfter _ _ placed =>
    simp [Task.literals, Expr.literals, Instr.literal?, literal?_of_place placed]
  | deref _ ih | negate _ ih | not _ ih =>
    simpa [Task.literals, Expr.literals, List.filterMap_cons, Instr.literal?, Location.literal?] using ih
  | widen _ ih => simpa [Task.literals, Expr.literals] using ih
  | scale _ ih => simpa [Task.literals, Expr.literals, literals_of_computing (computing_scaling _ _)] using ih
  | assignName _ _ placed _ ih =>
    simpa [Task.literals, Expr.literals, Instr.literal?, literal?_of_place placed] using ih
  | assignAt _ _ ih ih' =>
    -- the value is computed before the address, which comes first in the tree
    simp only [Task.literals, Expr.literals] at ih ih' ⊢
    have hstore : ∀ w r p, ([.store w r (.pointed p)] : List Instr).filterMap Instr.literal? = [] := fun _ _ _ => rfl
    rw [List.filterMap_append, List.filterMap_append, hstore, List.append_nil]
    exact (ih.append ih').trans List.perm_append_comm
  | arithmetic _ _ _ ih ih' =>
    simp only [Task.literals, Expr.literals] at ih ih' ⊢
    rw [List.filterMap_append, List.filterMap_append, literals_of_computing (computing_instrs _ _ _), List.append_nil]
    exact ih.append ih'
  | call _ _ _ ih =>
    simp only [Task.literals, Expr.literals] at ih ⊢
    simp only [List.filterMap_append, literals_of_inert (inert_map (fun _ => inert_push _) _),
      literals_of_inert (inert_map inert_pop _), literals_of_inert (inert_padded _ _),
      literals_of_inert (inert_map (fun _ => inert_pop _) _), literals_of_computing (computing_taking _ _),
      List.nil_append, List.append_nil]
    exact ih
  | pushMore _ _ ih ih' =>
    simp only [Task.literals, exprLiterals] at ih ih' ⊢
    rw [List.filterMap_append]
    exact ih.append ih'

/-- Only the last instruction of a test jumps. -/
theorem TestCode.aims {cond : Expr} (h : TestCode t f target cond code) : ∀ i ∈ code, i.Aims target := by
  cases h with
  | comparison _ first second =>
    simp only [List.forall_mem_append]
    refine ⟨fun i hi => (first.straight i hi).aims, fun i hi => (second.straight i hi).aims, ?_⟩
    simp [Instr.Aims, Instr.jump?]
  | value value =>
    simp only [List.forall_mem_append]
    exact ⟨fun i hi => (value.straight i hi).aims, by simp [Instr.Aims, Instr.jump?]⟩

theorem TestCode.literals {cond : Expr} (h : TestCode t f target cond code) :
    (code.filterMap Instr.literal?).Perm cond.literals := by
  cases h with
  | comparison _ first second =>
    have hfirst := first.literals
    have hsecond := second.literals
    simp only [Task.literals] at hfirst hsecond
    have hjump : ∀ l r cond, ([.cmp l r, .jumpIf cond target] : List Instr).filterMap Instr.literal? = [] :=
      fun _ _ _ => rfl
    rw [Expr.literals, List.filterMap_append, List.filterMap_append, hjump, List.append_nil]
    exact hfirst.append hsecond
  | value value =>
    have hvalue := value.literals
    have hjump : ∀ r, ([.cmpZero r, .jumpIf .eq target] : List Instr).filterMap Instr.literal? = [] := fun _ => rfl
    rw [List.filterMap_append, hjump, List.append_nil]
    exact hvalue

theorem AsideCode.straight {e : Option Expr} (h : AsideCode t f e code) : ∀ i ∈ code, i.Straight := by
  cases h with
  | none => simp
  | some value => exact value.straight

theorem AsideCode.literals {e : Option Expr} (h : AsideCode t f e code) :
    (code.filterMap Instr.literal?).Perm (optionalLiterals e) := by
  cases h with
  | none => simp [optionalLiterals]
  | some value => rw [optionalLiterals]; exact value.literals

theorem GuardCode.aims {e : Option Expr} (h : GuardCode t f target e code) : ∀ i ∈ code, i.Aims target := by
  cases h with
  | none => simp
  | some test => exact test.aims

theorem GuardCode.literals {e : Option Expr} (h : GuardCode t f target e code) :
    (code.filterMap Instr.literal?).Perm (optionalLiterals e) := by
  cases h with
  | none => simp [optionalLiterals]
  | some test => rw [optionalLiterals]; exact test.literals

end Expressions

/-! ## Statements -/

section Statements

variable {t : SymbolTable} {f : String} {ret : Ty} {exit n n' : Nat} {stmt : Stmt} {lines : List Line}

/-- A line that can stand inside a function. -/
def Line.Inner (line : Line) : Prop := line ≠ .instr .ret ∧ ∀ g, line ≠ .directive (.function g)

theorem inner_label (n : Nat) : (Line.label n).Inner := ⟨by simp, by simp⟩

theorem inner_jump (n : Nat) : (Line.instr (.jump n)).Inner := ⟨by simp, by simp⟩

theorem inner_instrLines {code : List Instr} (h : ∀ i ∈ code, i ≠ .ret) : ∀ line ∈ instrLines code, line.Inner := by
  intro line hline
  obtain ⟨i, hi, rfl⟩ := List.mem_map.1 hline
  exact ⟨by simpa using h i hi, by simp⟩

theorem inner_zeros (name : String) (s : Symbol) : ∀ line ∈ Lower.zeros name s, line.Inner := by
  unfold Lower.zeros
  simp only [List.forall_mem_append]
  refine ⟨by simp [Line.Inner], fun line hline => ?_⟩
  rw [List.eq_of_mem_replicate hline]
  simp [Line.Inner]

/-- No statement returns by itself or holds a function. -/
theorem StmtCode.inner (h : StmtCode t f ret exit n stmt lines n') : ∀ line ∈ lines, line.Inner := by
  induction h with
  | retNone => simpa using inner_jump exit
  | retValue value =>
    refine inner_instrLines ?_
    simp only [List.forall_mem_append]
    refine ⟨fun i hi => (value.straight i hi).2, ?_⟩
    unfold Instr.narrow
    cases ret.width <;> simp
  | expr value => exact inner_instrLines fun i hi => (value.straight i hi).2
  | varDecl | blockNil => simp
  | globalDecl =>
    simp only [List.forall_mem_cons, List.forall_mem_append]
    exact ⟨by simp [Line.Inner], inner_zeros _ _, by simp [Line.Inner]⟩
  | blockCons _ _ ih ih' =>
    simp only [List.forall_mem_append]
    exact ⟨ih, ih'⟩
  | ifThen test _ ih =>
    simp only [List.forall_mem_append]
    exact ⟨inner_instrLines fun i hi => (test.aims i hi).1, ih, by simpa using inner_label _⟩
  | ifElse test _ _ ih ih' =>
    simp only [List.forall_mem_append]
    exact ⟨inner_instrLines fun i hi => (test.aims i hi).1, ih, by simp [inner_label, inner_jump], ih', by simpa using inner_label _⟩
  | whileLoop test _ ih =>
    simp only [List.forall_mem_cons, List.forall_mem_append]
    exact ⟨inner_label _, inner_instrLines fun i hi => (test.aims i hi).1, ih, inner_jump _, inner_label _, by simp⟩
  | forLoop start test _ next ih =>
    simp only [List.forall_mem_cons, List.forall_mem_append]
    exact ⟨inner_instrLines fun i hi => (start.straight i hi).2, inner_label _, inner_instrLines fun i hi => (test.aims i hi).1, ih,
      inner_instrLines fun i hi => (next.straight i hi).2, inner_jump _, inner_label _, by simp⟩

/-- The jumps of lines lead to `targets`. -/
def JumpsTo (targets : List Nat) (lines : List Line) : Prop :=
  ∀ i, .instr i ∈ lines → ∀ k, i.jump? = some k → k ∈ targets

theorem JumpsTo.mono {targets targets' : List Nat} (h : JumpsTo targets lines) (hsub : targets ⊆ targets') :
    JumpsTo targets' lines := fun i hi k hk => hsub (h i hi k hk)

theorem jumpsTo_nil (targets : List Nat) : JumpsTo targets [] := by simp [JumpsTo]

theorem jumpsTo_append {targets : List Nat} {lines lines' : List Line} :
    JumpsTo targets (lines ++ lines') ↔ JumpsTo targets lines ∧ JumpsTo targets lines' := by
  unfold JumpsTo
  simp only [List.mem_append]
  exact ⟨fun h => ⟨fun i hi => h i (.inl hi), fun i hi => h i (.inr hi)⟩, fun h i hi => hi.elim (h.1 i) (h.2 i)⟩

theorem jumpsTo_label {targets : List Nat} {n : Nat} {lines : List Line} :
    JumpsTo targets (.label n :: lines) ↔ JumpsTo targets lines := by simp [JumpsTo]

theorem jumpsTo_directive {targets : List Nat} {d : Directive} {lines : List Line} :
    JumpsTo targets (.directive d :: lines) ↔ JumpsTo targets lines := by simp [JumpsTo]

theorem jumpsTo_jump {targets : List Nat} {n : Nat} {lines : List Line} :
    JumpsTo targets (.instr (.jump n) :: lines) ↔ n ∈ targets ∧ JumpsTo targets lines := by
  simp [JumpsTo, Instr.jump?]

theorem jumpsTo_aiming {targets : List Nat} {code : List Instr} {target : Nat} (h : ∀ i ∈ code, i.Aims target)
    (hmem : target ∈ targets) : JumpsTo targets (instrLines code) := by
  intro i hi k hk
  obtain ⟨j, hj, heq⟩ := List.mem_map.1 hi
  cases heq
  rw [(h i hj).2 k hk]
  exact hmem

theorem jumpsTo_straight {targets : List Nat} {code : List Instr} (h : ∀ i ∈ code, i.Straight) :
    JumpsTo targets (instrLines code) := by
  intro i hi k hk
  obtain ⟨j, hj, heq⟩ := List.mem_map.1 hi
  cases heq
  rw [(h i hj).1] at hk
  cases hk

theorem instr_not_mem_zeros (name : String) (s : Symbol) (i : Instr) : .instr i ∉ Lower.zeros name s := by
  unfold Lower.zeros
  simp [List.mem_replicate]

@[simp] theorem literalUses_zeros (name : String) (s : Symbol) : literalUses (Lower.zeros name s) = [] := by
  refine List.filterMap_eq_nil_iff.2 fun line hline => ?_
  cases line with
  | instr i => exact absurd hline (instr_not_mem_zeros name s i)
  | _ => rfl

theorem jumpsTo_zeros (targets : List Nat) (name : String) (s : Symbol) : JumpsTo targets (Lower.zeros name s) :=
  fun i hi => absurd hi (instr_not_mem_zeros name s i)

/-- A statement jumps to its own labels and to the epilogue. -/
theorem StmtCode.jumps (h : StmtCode t f ret exit n stmt lines n') : JumpsTo (exit :: labels lines) lines := by
  induction h with
  | retNone => exact jumpsTo_jump.2 ⟨List.mem_cons_self, jumpsTo_nil _⟩
  | @retValue n e r code value =>
    rw [instrLines_append, jumpsTo_append]
    refine ⟨jumpsTo_straight value.straight, jumpsTo_aiming ?_ (List.mem_cons_self (a := exit))⟩
    unfold Instr.narrow
    cases ret.width <;> simp [Instr.Aims, Instr.jump?]
  | expr value => exact jumpsTo_straight value.straight
  | varDecl | blockNil => exact jumpsTo_nil _
  | globalDecl =>
    rw [jumpsTo_directive, jumpsTo_append, jumpsTo_directive]
    exact ⟨jumpsTo_zeros _ _ _, jumpsTo_nil _⟩
  | blockCons _ _ ih ih' =>
    rw [jumpsTo_append, labels_append]
    exact ⟨ih.mono (by grind), ih'.mono (by grind)⟩
  | ifThen test _ ih =>
    simp only [jumpsTo_append, labels_append, labels_instrLines, labels_label, labels_nil, List.nil_append]
    exact ⟨jumpsTo_aiming test.aims (by simp), ih.mono (by grind), jumpsTo_label.2 (jumpsTo_nil _)⟩
  | ifElse test _ _ ih ih' =>
    simp only [jumpsTo_append, labels_append, labels_instrLines, labels_label, labels_instr, labels_nil, List.nil_append,
      List.cons_append, jumpsTo_jump, jumpsTo_label]
    exact ⟨jumpsTo_aiming test.aims (by simp), ih.mono (by grind), by simp, ih'.mono (by grind), jumpsTo_nil _⟩
  | whileLoop test _ ih =>
    simp only [jumpsTo_append, labels_append, labels_instrLines, labels_label, labels_instr, labels_nil, List.nil_append,
      jumpsTo_jump, jumpsTo_label]
    exact ⟨jumpsTo_aiming test.aims (by simp), ih.mono (by grind), by simp, jumpsTo_nil _⟩
  | forLoop start test _ next ih =>
    simp only [jumpsTo_append, labels_append, labels_instrLines, labels_label, labels_instr, labels_nil, List.nil_append,
      jumpsTo_jump, jumpsTo_label]
    exact ⟨jumpsTo_straight start.straight, jumpsTo_aiming test.aims (by simp), ih.mono (by grind),
      jumpsTo_straight next.straight, by simp, jumpsTo_nil _⟩

/-- The code of a statement refers to its literals, each as often as it stands there. -/
theorem StmtCode.literals (h : StmtCode t f ret exit n stmt lines n') : (literalUses lines).Perm stmt.literals := by
  induction h with
  | retNone => simp [Stmt.literals, optionalLiterals]
  | retValue value =>
    have hjump : ∀ w r, ([.narrow w r .rax, .jump exit] : List Instr).filterMap Instr.literal? = [] := by
      intro w r
      cases w <;> rfl
    rw [literalUses_instrLines, List.filterMap_append, hjump, List.append_nil, Stmt.literals, optionalLiterals]
    exact value.literals
  | expr value =>
    rw [literalUses_instrLines, Stmt.literals]
    exact value.literals
  | varDecl | blockNil => simp [Stmt.literals, stmtLiterals]
  | globalDecl => simp [Stmt.literals]
  | blockCons _ _ ih ih' =>
    rw [literalUses_append, Stmt.literals, stmtLiterals]
    rw [Stmt.literals] at ih'
    exact ih.append ih'
  | ifThen test _ ih =>
    rw [Stmt.literals, Expr.literals, optionalStmtLiterals]
    simp only [literalUses_append, literalUses_instrLines, literalUses_label, literalUses_nil, List.append_nil]
    exact test.literals.append ih
  | ifElse test _ _ ih ih' =>
    rw [Stmt.literals, Expr.literals, optionalStmtLiterals]
    simp only [literalUses_append, literalUses_instrLines, literalUses_label, literalUses_jump, literalUses_nil,
      List.append_nil, List.nil_append]
    exact test.literals.append (ih.append ih')
  | whileLoop test _ ih =>
    rw [Stmt.literals, Expr.literals]
    simp only [literalUses_append, literalUses_instrLines, literalUses_label, literalUses_jump, literalUses_nil,
      List.append_nil]
    exact test.literals.append ih
  | forLoop start test _ next ih =>
    -- the last clause is written before the body and lowered after it
    rw [Stmt.literals, Expr.literals]
    simp only [literalUses_append, literalUses_instrLines, literalUses_label, literalUses_jump, literalUses_nil,
      List.append_nil]
    exact start.literals.append (test.literals.append ((ih.append next.literals).trans List.perm_append_comm))

/-- As many labels stand in a statement as are drawn for it. -/
theorem StmtCode.length_labels (h : StmtCode t f ret exit n stmt lines n') : (labels lines).length = n' - n := by
  induction h with
  | retNone | retValue | expr | varDecl | globalDecl | blockNil => simp
  | blockCons first others ih ih' =>
    have hle := first.le
    have hle' := others.le
    simp only [labels_append, List.length_append, ih, ih']
    omega
  | ifThen test body ih =>
    have hle := body.le
    simp only [labels_append, labels_instrLines, labels_label, labels_nil, List.length_append, List.length_cons,
      List.length_nil, ih]
    omega
  | ifElse test body other ih ih' =>
    have hle := body.le
    have hle' := other.le
    simp only [labels_append, labels_instrLines, labels_label, labels_instr, labels_nil, List.length_append,
      List.length_cons, List.length_nil, List.cons_append, List.nil_append, ih, ih']
    omega
  | whileLoop test rounds ih | forLoop _ test rounds _ ih =>
    have hle := rounds.le
    simp only [labels_append, labels_instrLines, labels_label, labels_instr, labels_nil, List.length_append,
      List.length_cons, List.length_nil, ih]
    omega

/-- The labels of a statement are all that are drawn for it. -/
theorem StmtCode.labels_perm (h : StmtCode t f ret exit n stmt lines n') :
    (labels lines).Perm (List.range' n (n' - n)) := by
  obtain ⟨hdrawn, hnodup⟩ := h.labels_drawn
  have hsub : labels lines ⊆ List.range' n (n' - n) := by
    intro k hk
    have := hdrawn k hk
    rw [List.mem_range'_1]
    omega
  exact (List.subperm_of_subset hnodup hsub).perm_of_length_le
    (Nat.le_of_eq (by rw [List.length_range', h.length_labels]))

end Statements

/-! ## Functions and items -/

/-- Every jump stands between the name of a function and its return, with no other function between them, and so does the
label that it leads to. -/
def JumpsInside (lines : List Line) : Prop :=
  ∀ before i after k, lines = before ++ .instr i :: after → i.jump? = some k →
    ∃ f outer start rest more, before = outer ++ (headLines f ++ start) ∧ after = rest ++ .instr .ret :: more ∧
      (∀ line ∈ start ++ rest, line.Inner) ∧ .label k ∈ start ++ rest

section Inside

variable {lines lines' : List Line}

theorem jumpsInside_plain (h : ∀ i, .instr i ∈ lines → i.jump? = none) : JumpsInside lines := by
  rintro before i after k rfl hk
  rw [h i (List.mem_append_right _ List.mem_cons_self)] at hk
  cases hk

theorem JumpsInside.append (h : JumpsInside lines) (h' : JumpsInside lines') : JumpsInside (lines ++ lines') := by
  intro before i after k heq hk
  rcases List.append_eq_append_iff.1 heq with ⟨outer', rfl, hlines'⟩ | ⟨inner, hlines, hafter⟩
  · obtain ⟨f, outer, start, rest, more, rfl, hrest, hinner, hlabel⟩ := h' outer' i after k hlines' hk
    exact ⟨f, lines ++ outer, start, rest, more, by simp, hrest, hinner, hlabel⟩
  · cases inner with
    | nil =>
      obtain ⟨f, outer, start, rest, more, hbefore, hrest, hinner, hlabel⟩ := h' [] i after k hafter.symm hk
      simp [headLines] at hbefore
    | cons line inner =>
      obtain ⟨rfl, rfl⟩ := List.cons.inj hafter
      obtain ⟨f, outer, start, rest, more, hbefore, rfl, hinner, hlabel⟩ := h before _ inner k hlines hk
      exact ⟨f, outer, start, rest, more ++ lines', hbefore, by simp, hinner, hlabel⟩

/-- A function whose jumps lead to its own labels. -/
theorem jumpsInside_function {f : String} (hinner : ∀ line ∈ lines, line.Inner) (hjumps : JumpsTo (labels lines) lines) :
    JumpsInside (headLines f ++ (lines ++ [.instr .ret])) := by
  intro before i after k heq hk
  -- the jump is neither in the head nor the return
  rcases List.append_eq_append_iff.1 heq with ⟨start, rfl, hbody⟩ | ⟨inner, hhead, hafter⟩
  · rcases List.append_eq_append_iff.1 hbody with ⟨outer, rfl, hret⟩ | ⟨inner, hlines, hafter⟩
    · cases outer with
      | nil => cases hret; cases hk
      | cons line outer => simp at hret
    · cases inner with
      | nil => cases hafter; cases hk
      | cons line rest =>
        obtain ⟨rfl, rfl⟩ := List.cons.inj hafter
        have hlabel : .label k ∈ lines := mem_labels.1 (hjumps i (by rw [hlines]; simp) k hk)
        rw [hlines] at hinner hlabel
        refine ⟨f, [], start, rest, [], rfl, rfl, fun line hline => hinner line ?_, ?_⟩
        · rcases List.mem_append.1 hline with hline | hline
          · exact List.mem_append_left _ hline
          · exact List.mem_append_right _ (List.mem_cons_of_mem _ hline)
        · simpa using hlabel
  · cases inner with
    | nil =>
      cases lines with
      | nil => cases hafter; cases hk
      | cons line lines =>
        have hlabel : .label k ∈ line :: lines :=
          mem_labels.1 (hjumps i (by rw [(List.cons.inj hafter).1]; exact List.mem_cons_self) k hk)
        obtain ⟨rfl, rfl⟩ := List.cons.inj hafter
        rw [List.append_nil] at hhead
        refine ⟨f, [], [], lines, [], by simpa using hhead.symm, by simp, fun line hline => hinner line ?_, ?_⟩
        · exact List.mem_cons_of_mem _ hline
        · simpa using hlabel
    | cons line inner =>
      have hmem : .instr i ∈ headLines f := by
        rw [hhead, ← (List.cons.inj hafter).1]
        simp
      simp [headLines] at hmem

end Inside

section Items

variable {t t' : SymbolTable} {segment segment' : Option Segment} {n n' : Nat} {items : Program} {lines : List Line}

/-- The end of a function, up to its return. -/
def closing : List Instr := [.pop .r13, .pop .r12, .mov .rbp .rsp, .pop .rbp]

theorem inert_closing : ∀ i ∈ closing, i.Inert := by
  simp [closing, Instr.Inert, Instr.jump?, Instr.literal?]

theorem inert_entry (size : Int) (params : List Symbol) (regs : List Reg) :
    ∀ i ∈ Lower.prologue size ++ paramStores params regs, i.Inert := by
  simp only [List.forall_mem_append]
  constructor
  · unfold Lower.prologue
    split <;> simp [Instr.Inert, Instr.jump?, Instr.literal?]
  · exact inert_map (fun p => ⟨rfl, rfl, by simp⟩) _

theorem FunctionCode.cases {f : String} {ret : Ty} {exit : Nat} {size : Int} {body : Stmt}
    (h : FunctionCode t f ret exit size n body lines n') :
    ∃ entry inner, (∀ i ∈ entry, i.Inert) ∧ StmtCode t f ret exit n body inner n' ∧
      lines = headLines f ++ (instrLines entry ++ (inner ++ (.label exit :: instrLines closing)) ++ [.instr .ret]) := by
  cases h with
  | mk code =>
    refine ⟨_, _, inert_entry size (t.params f) Reg.arguments, code, ?_⟩
    simp [Lower.epilogue, closing, instrLines]

theorem FunctionCode.jumpsInside {f : String} {ret : Ty} {exit : Nat} {size : Int} {body : Stmt}
    (h : FunctionCode t f ret exit size n body lines n') : JumpsInside lines := by
  obtain ⟨entry, inner, hentry, hcode, rfl⟩ := h.cases
  have hinert : ∀ {code : List Instr}, (∀ i ∈ code, i.Inert) → ∀ i ∈ code, i ≠ .ret := fun h i hi => (h i hi).2.2
  have hstraight : ∀ {code : List Instr}, (∀ i ∈ code, i.Inert) → ∀ i ∈ code, i.Straight :=
    fun h i hi => ⟨(h i hi).1, (h i hi).2.2⟩
  refine jumpsInside_function ?_ ?_
  · simp only [List.forall_mem_append, List.forall_mem_cons]
    exact ⟨inner_instrLines (hinert hentry), hcode.inner, inner_label _, inner_instrLines (hinert inert_closing)⟩
  · simp only [jumpsTo_append, jumpsTo_label, labels_append, labels_label, labels_instrLines, List.nil_append]
    exact ⟨jumpsTo_straight (hstraight hentry), hcode.jumps.mono (by grind), jumpsTo_straight (hstraight inert_closing)⟩

theorem FunctionCode.literals {f : String} {ret : Ty} {exit : Nat} {size : Int} {body : Stmt}
    (h : FunctionCode t f ret exit size n body lines n') : (literalUses lines).Perm body.literals := by
  obtain ⟨entry, inner, hentry, hcode, rfl⟩ := h.cases
  have hret : literalUses [.instr .ret] = [] := rfl
  simp only [headLines, literalUses_append, literalUses_directive, literalUses_name, literalUses_label, literalUses_nil,
    literalUses_instrLines, literals_of_inert hentry, literals_of_inert inert_closing, hret, List.nil_append, List.append_nil]
  exact hcode.literals

theorem FunctionCode.labels_perm {f : String} {ret : Ty} {exit : Nat} {size : Int} {body : Stmt}
    (h : FunctionCode t f ret exit size n body lines n') :
    n ≤ n' ∧ (labels lines).Perm (List.range' n (n' - n) ++ [exit]) := by
  obtain ⟨entry, inner, -, hcode, rfl⟩ := h.cases
  refine ⟨hcode.le, ?_⟩
  simp only [headLines, labels_append, labels_directive, labels_name, labels_label, labels_instr, labels_nil,
    labels_instrLines, List.nil_append, List.append_nil]
  exact hcode.labels_perm.append_right _

theorem switching_cases (segment : Option Segment) (target : Segment) :
    Lower.switching segment target = [] ∨ Lower.switching segment target = [.directive target.directive] := by
  unfold Lower.switching
  split
  · exact .inl rfl
  · exact .inr rfl

theorem jumpsInside_switching (segment : Option Segment) (target : Segment) :
    JumpsInside (Lower.switching segment target) := by
  refine jumpsInside_plain fun i hi => ?_
  rcases switching_cases segment target with h | h <;> simp [h] at hi

@[simp] theorem labels_switching (segment : Option Segment) (target : Segment) :
    labels (Lower.switching segment target) = [] := by
  rcases switching_cases segment target with h | h <;> rw [h] <;> rfl

@[simp] theorem literalUses_switching (segment : Option Segment) (target : Segment) :
    literalUses (Lower.switching segment target) = [] := by
  rcases switching_cases segment target with h | h <;> rw [h] <;> rfl

/-- No jump leaves its function. -/
theorem ItemsCode.jumpsInside (h : ItemsCode t segment n items lines t' segment' n') : JumpsInside lines := by
  induction h with
  | nil => exact jumpsInside_plain (by simp)
  | @globalDecl _ _ _ _ _ _ name s _ _ _ _ ih =>
    refine (jumpsInside_switching _ _).append (JumpsInside.append (jumpsInside_plain fun i hi => ?_) ih)
    exact absurd hi (instr_not_mem_zeros name s i)
  | prototype _ ih => exact ih
  | function _ code _ ih => exact (jumpsInside_switching _ _).append (code.jumpsInside.append ih)

/-- The items refer to their literals, each as often as it stands there. -/
theorem ItemsCode.literals (h : ItemsCode t segment n items lines t' segment' n') :
    (literalUses lines).Perm (stmtLiterals items) := by
  induction h with
  | nil => rw [stmtLiterals, literalUses_nil]
  | globalDecl _ _ ih =>
    rw [stmtLiterals, Stmt.literals, literalUses_append, literalUses_append, literalUses_switching, literalUses_zeros]
    exact ih
  | prototype _ ih =>
    rw [stmtLiterals, Stmt.literals]
    exact ih
  | function _ code _ ih =>
    rw [stmtLiterals, Stmt.literals, literalUses_append, literalUses_append, literalUses_switching]
    exact code.literals.append ih

/-- The label that the function `f` has. -/
def SymbolTable.label? (t : SymbolTable) (f : String) : Option Nat := (t.global? f).bind (·.label)

/-- The labels of the functions that items define. -/
def exits (t : SymbolTable) (items : Program) : List Nat := (items.filterMap Parse.defines?).filterMap t.label?

/-- The labels of items are all that are drawn for them and those of the functions that they define. -/
theorem ItemsCode.labels_perm (h : ItemsCode t segment n items lines t' segment' n') :
    (labels lines).Perm (List.range' n (n' - n) ++ exits t items) := by
  induction h with
  | nil => simp [exits]
  | globalDecl _ _ ih =>
    simp only [labels_append, labels_switching, labels_zeros, List.nil_append]
    exact ih
  | prototype _ ih => exact ih
  | @function t t' segment segment' n n₁ n' f ret exit body items lines lines' found code rest ih =>
    obtain ⟨hle, hcode⟩ := code.labels_perm
    have hle' := rest.labels_drawn.1
    have hlabel : t.label? f = some exit := by
      obtain ⟨s, hs, -, hlabel⟩ := found
      exact Option.bind_eq_some_iff.2 ⟨s, hs, hlabel⟩
    have hexits : exits t (.function f body :: items) = exit :: exits t items := by
      show (f :: items.filterMap Parse.defines?).filterMap t.label? = _
      rw [List.filterMap_cons_some hlabel]
      rfl
    have hlaid : exits (Frame.layout t f).1 items = exits t items := by
      unfold exits SymbolTable.label?
      simp only [Frame.global?_layout]
    have hrange : List.range' n (n' - n) = List.range' n (n₁ - n) ++ List.range' n₁ (n' - n₁) := by
      have happend := List.range'_append_1 (s := n) (m := n₁ - n) (n := n' - n₁)
      rw [show n + (n₁ - n) = n₁ by omega, show n₁ - n + (n' - n₁) = n' - n by omega] at happend
      exact happend.symm
    simp only [labels_append, labels_switching, List.nil_append]
    rw [hexits, hrange]
    rw [hlaid] at ih
    refine (hcode.append ih).trans ?_
    -- the epilogue stands between the labels of the body and those of the items that follow
    rw [List.append_assoc, List.append_assoc, List.singleton_append]
    exact List.Perm.append_left _ List.perm_middle.symm

end Items

end MiniC
