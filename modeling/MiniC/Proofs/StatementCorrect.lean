import MiniC.Proofs.Execution
import MiniC.Proofs.ExpressionCorrect
import MiniC.Proofs.StatementCode
import MiniC.Proofs.Stepping

/-!
# The code of statements is correct

On a listing in which the labels of a statement lead to where they stand (`Placed`), its code does what the statement
does: it gets to the line after it, or, after a return, to the epilogue with the value in `rax` (`StmtCode.simulates`). The
proof follows the execution of the statement; a loop that goes round once more is at its first label again.
-/

namespace MiniC

/-! ## Places of labels -/

/-- Every label of `lines`, which `more` follows, leads to where it stands. -/
def Placed (text lines more : List Line) : Prop :=
  ∀ n before after, lines = before ++ .label n :: after →
    linesFrom (.label n) text = some (.label n :: (after ++ more))

section Placed

variable {text lines lines' more : List Line} {n : Nat}

theorem Placed.left (h : Placed text (lines ++ lines') more) : Placed text lines (lines' ++ more) := by
  rintro n before after rfl
  have hn := h n before (after ++ lines') (by simp)
  rwa [List.append_assoc] at hn

theorem Placed.right (h : Placed text (lines ++ lines') more) : Placed text lines' more := by
  rintro n before after rfl
  exact h n (lines ++ before) after (by simp)

theorem Placed.head (h : Placed text (.label n :: lines) more) :
    linesFrom (.label n) text = some (.label n :: (lines ++ more)) := h n [] lines rfl

theorem Placed.tail {line : Line} (h : Placed text (line :: lines) more) : Placed text lines more := by
  have hcons : Placed text ([line] ++ lines) more := h
  exact hcons.right

end Placed

/-! ## The text section of a statement -/

@[simp] theorem textLines_nil (inside : Bool) : textLines inside [] = [] := rfl

@[simp] theorem textLines_label (n : Nat) (lines : List Line) :
    textLines true (.label n :: lines) = .label n :: textLines true lines := rfl

@[simp] theorem textLines_instr (i : Instr) (lines : List Line) :
    textLines true (.instr i :: lines) = .instr i :: textLines true lines := rfl

theorem switches?_instrLines {code : List Instr} : ∀ line ∈ instrLines code, line.switches? = none := by
  intro line hline
  obtain ⟨i, -, rfl⟩ := List.mem_map.1 hline
  rfl

theorem textAfter_instrLines (code : List Instr) : textAfter true (instrLines code) = true :=
  (textLines_of_plain switches?_instrLines true).2

theorem textLines_instrLines (code : List Instr) (lines : List Line) :
    textLines true (instrLines code ++ lines) = instrLines code ++ textLines true lines := by
  rw [textLines_append, textAfter_instrLines, (textLines_of_plain switches?_instrLines true).1]
  rfl

theorem switches?_zeros {name : String} {s : Symbol} : ∀ line ∈ Lower.zeros name s, line.switches? = none := by
  intro line hline
  rcases List.mem_append.1 hline with hhead | hzeros
  · simp only [List.mem_cons, List.not_mem_nil, or_false] at hhead
    rcases hhead with rfl | rfl | rfl <;> rfl
  · rw [List.eq_of_mem_replicate hzeros]
    rfl

/-- A global variable leaves nothing in the text section. -/
theorem textLines_globalDecl (name : String) (s : Symbol) :
    textLines true (.directive .data :: (Lower.zeros name s ++ [.directive .text])) = [] := by
  show textLines false (Lower.zeros name s ++ [.directive .text]) = []
  rw [textLines_append, (textLines_of_plain switches?_zeros false).1]
  rfl

/-- The code of a statement begins and ends in the text section. -/
theorem StmtCode.ends_in_text {t : SymbolTable} {f : String} {ret : Ty} {exit n n' : Nat} {stmt : Stmt} {lines : List Line}
    (h : StmtCode t f ret exit n stmt lines n') : textAfter true lines = true := by
  induction h with
  | retNone | varDecl | blockNil => rfl
  | retValue | expr => exact textAfter_instrLines _
  | globalDecl =>
    show textAfter false (Lower.zeros _ _ ++ [.directive .text]) = true
    rw [textAfter_append]
    rfl
  | blockCons _ _ ih ih' => rw [textAfter_append, ih, ih']
  | ifThen _ _ ih =>
    rw [textAfter_append, textAfter_instrLines, textAfter_append, ih]
    rfl
  | ifElse _ _ _ ih ih' =>
    rw [textAfter_append, textAfter_instrLines, textAfter_append, ih, textAfter_append, textAfter_append]
    exact (congrArg (textAfter · _) ih').trans rfl
  | whileLoop _ _ ih =>
    show textAfter true (instrLines _ ++ _) = true
    rw [textAfter_append, textAfter_instrLines, textAfter_append, ih]
    rfl
  | forLoop _ _ _ _ ih =>
    rw [textAfter_append, textAfter_instrLines]
    show textAfter true (instrLines _ ++ _) = true
    rw [textAfter_append, textAfter_instrLines, textAfter_append, ih, textAfter_append, textAfter_instrLines]
    rfl

theorem StmtCode.text_append {t : SymbolTable} {f : String} {ret : Ty} {exit n n' : Nat} {stmt : Stmt} {lines : List Line}
    (h : StmtCode t f ret exit n stmt lines n') (more : List Line) :
    textLines true (lines ++ more) = textLines true lines ++ textLines true more := by
  rw [textLines_append, h.ends_in_text]

/-! ## Getting on between statements -/

/-- A body whose code is being run. -/
structure Setting (Ω : Type) where
  world : World Ω
  callees : Callees Ω
  /-- The bytes of stack that a call needs. -/
  callRoom : Nat
  /-- The bytes below the stack pointer between two statements. -/
  room : Nat
  /-- The text section of the listing. -/
  text : List Line
  /-- The type that the function returns. -/
  ret : Ty
  /-- The label of the epilogue. -/
  exit : Nat
  /-- The lines from the epilogue on. -/
  exits : List Line
  honours : Honours world callees callRoom
  clear : world.VariablesClear
  found : linesFrom (.label exit) text = some exits

section Simulation

variable {Ω : Type} {p : Setting Ω} {lines lines' target : List Line} {σ σ' : Store Ω} {s s' : Machine Ω}

/-- The machine is between two statements, in the store `σ`. -/
def Setting.At (p : Setting Ω) (σ : Store Ω) (s : Machine Ω) : Prop := Running p.world 0 p.room σ s

/-- From `lines` the machine has got to `lines'`, and the store is `σ'`. -/
structure Moved (p : Setting Ω) (lines : List Line) (s : Machine Ω) (lines' : List Line) (σ' : Store Ω)
    (s' : Machine Ω) : Prop where
  reaches : Reaches p.world.toLinkage p.callees p.text ⟨lines, s⟩ ⟨lines', s'⟩
  keeps : Keeps p.world {} p.room s s'
  running : p.At σ' s'

theorem Moved.trans {lines'' : List Line} {σ'' : Store Ω} {s'' : Machine Ω} (h : Moved p lines s lines' σ s')
    (h' : Moved p lines' s' lines'' σ'' s'') : Moved p lines s lines'' σ'' s'' :=
  ⟨h.reaches.trans h'.reaches, h.keeps.trans h'.keeps fun _ h => h, h'.running⟩

/-- The machine gets on without doing anything. -/
theorem Setting.At.moved (h : p.At σ s)
    (hreaches : Reaches p.world.toLinkage p.callees p.text ⟨lines, s⟩ ⟨lines', s⟩) : Moved p lines s lines' σ s :=
  ⟨hreaches, .refl s, h⟩

/-- The code of an expression that stands before other lines. -/
theorem code_moves {e : Expr} {r? : Option Scratch} {v : Word} {code : List Instr}
    (h : Code p.world.symbols p.world.function {} 0 (.value e) r? code) (heval : p.world.eval e σ = some (v, σ'))
    (hroom : e.stackUse + p.callRoom ≤ p.room) (hs : p.At σ s) (rest : List Line) :
    ∃ s', Moved p (instrLines code ++ rest) s rest σ' s' ∧ ∀ r, r? = some r → s'.regs r.reg = v := by
  obtain ⟨s', hrun, hs'⟩ := h.realizes p.honours p.clear hroom heval hs
  exact ⟨s', ⟨reaches_run hrun, hs'.keeps, hs'.running⟩, hs'.value⟩

/-! ## Conditions -/

theorem BinaryOp.apply_of_cond? {op : BinaryOp} {cond : Cond} (h : op.cond? = some cond) (x y : Word) :
    op.apply x y = some (truth (cond.test x y)) := by
  cases op <;> cases h <;> rfl

theorem Cond.test_negated (cond : Cond) (x y : Word) : cond.negated.test x y = !cond.test x y := by
  cases cond with
  | eq => rfl
  | ne => simp [Cond.test, Cond.negated, bne]
  | lt => exact BitVec.sle_eq_not_slt
  | le => simp [Cond.test, Cond.negated, BitVec.sle_eq_not_slt]
  | gt => exact BitVec.sle_eq_not_slt
  | ge => simp [Cond.test, Cond.negated, BitVec.sle_eq_not_slt]

theorem truth_ne_zero (b : Bool) : (truth b != 0) = b := by cases b <;> rfl

/-- A comparison and a conditional jump. -/
theorem compared_moved {i : Instr} (cond : Cond) {n : Nat} {x y : Word} (hs : p.At σ s)
    (hexec : i.exec p.world.toLinkage p.callees s = some (s.compare x y))
    (htarget : linesFrom (.label n) p.text = some target) (rest : List Line) :
    Moved p (instrLines [i, .jumpIf cond n] ++ rest) s (if cond.test x y then target else rest) σ (s.compare x y) := by
  have hk : Keeps p.world {} p.room s (s.compare x y) := .of_regs (fun _ _ => rfl) rfl
  exact ⟨(reaches_step (step_instr hexec)).trans (reaches_jumpIf rfl htarget), hk, hs.of_store hk rfl⟩

/-- **Conditions.** Code for a condition goes on after it when the condition holds, and jumps when it does not. -/
theorem testCode_moves {e : Expr} {n : Nat} {code : List Instr} {b : Bool}
    (h : TestCode p.world.symbols p.world.function n e code) (htest : p.world.test e σ = some (b, σ'))
    (htarget : linesFrom (.label n) p.text = some target) (hroom : e.stackUse + p.callRoom ≤ p.room) (hs : p.At σ s)
    (rest : List Line) : ∃ s', Moved p (instrLines code ++ rest) s (if b then rest else target) σ' s' := by
  obtain ⟨⟨v, σ₁⟩, heval, hb⟩ := Option.map_eq_some_iff.1 htest
  cases hb
  cases h with
  | @comparison info op cond left right l r code code' operator first second =>
    have hop : op ≠ .assign := by
      rintro rfl
      cases operator
    obtain ⟨x, σ₁, y, hx, hy, happly⟩ := World.eval_arithmetic hop heval
    obtain rfl : truth (cond.test x y) = v := Option.some.inj ((op.apply_of_cond? operator x y).symm.trans happly)
    rw [Expr.stackUse] at hroom
    obtain ⟨s₁, hrun, hx₁, hy₁, hk, hs₁⟩ :=
      operands_run (first.realizes p.honours p.clear) (second.realizes p.honours p.clear) hx hy hroom hs
    have hmoved := compared_moved cond.negated (i := .cmp r.reg l.reg) hs₁ rfl htarget rest
    rw [hx₁, hy₁, Cond.test_negated] at hmoved
    rw [truth_ne_zero, ← List.append_assoc, instrLines_append, List.append_assoc]
    refine ⟨s₁.compare x y, Moved.trans ⟨reaches_run hrun, hk, hs₁⟩ ?_⟩
    cases htested : cond.test x y <;> rw [htested] at hmoved <;> exact hmoved
  | @value _ r code value =>
    rw [instrLines_append, List.append_assoc]
    obtain ⟨s₁, hmoved₁, hr⟩ := code_moves value heval hroom hs (instrLines [.cmpZero r.reg, .jumpIf .eq n] ++ rest)
    have hmoved := compared_moved .eq (i := .cmpZero r.reg) hmoved₁.running rfl htarget rest
    rw [hr r rfl] at hmoved
    refine ⟨s₁.compare v 0, hmoved₁.trans ?_⟩
    cases hzero : v == 0 <;> simp only [Cond.test, hzero, bne] at hmoved ⊢ <;> exact hmoved

theorem guardCode_moves {e? : Option Expr} {n : Nat} {code : List Instr} {b : Bool}
    (h : GuardCode p.world.symbols p.world.function n e? code) (htest : p.world.testOption e? σ = some (b, σ'))
    (htarget : linesFrom (.label n) p.text = some target) (hroom : stackUseOption e? + p.callRoom ≤ p.room)
    (hs : p.At σ s) (rest : List Line) :
    ∃ s', Moved p (instrLines code ++ rest) s (if b then rest else target) σ' s' := by
  cases h with
  | none =>
    cases htest
    exact ⟨s, hs.moved (.refl _)⟩
  | some test =>
    rw [stackUseOption] at hroom
    exact testCode_moves test htest htarget hroom hs rest

/-- An expression whose value is not used. -/
theorem asideCode_moves {e? : Option Expr} {code : List Instr} (h : AsideCode p.world.symbols p.world.function e? code)
    (haside : p.world.aside e? σ = some σ') (hroom : stackUseOption e? + p.callRoom ≤ p.room) (hs : p.At σ s)
    (rest : List Line) : ∃ s', Moved p (instrLines code ++ rest) s rest σ' s' := by
  cases h with
  | none =>
    cases haside
    exact ⟨s, hs.moved (.refl _)⟩
  | some value =>
    obtain ⟨⟨v, σ₁⟩, heval, hσ⟩ := Option.map_eq_some_iff.1 haside
    cases hσ
    rw [stackUseOption] at hroom
    obtain ⟨s₁, hmoved, -⟩ := code_moves value heval hroom hs rest
    exact ⟨s₁, hmoved⟩

/-! ## Statements -/

/-- Where a statement leads: to what follows it, or to the epilogue. -/
def Ending.leads (o : Ending) (more exits : List Line) : List Line :=
  match o with
  | normal => more
  | returned _ => exits

/-- A value that was returned is in `rax`. -/
def Ending.Leaves (ret : Ty) (s : Machine Ω) : Ending → Prop
  | returned (some v) => s.regs .rax = ret.width.low v
  | _ => True

theorem Ending.Leaves.congr {ret : Ty} : ∀ {o : Ending}, o.Leaves ret s → s'.regs .rax = s.regs .rax → o.Leaves ret s'
  | normal, _, _ => trivial
  | returned none, _, _ => trivial
  | returned (some _), h, hrax => hrax.trans h

/-- The code of `stmt` does what the statement does. -/
def Simulates (p : Setting Ω) (stmt : Stmt) (σ : Store Ω) (o : Ending) (σ' : Store Ω) : Prop :=
  ∀ {n n' : Nat} {lines more : List Line} {s : Machine Ω},
    StmtCode p.world.symbols p.world.function p.ret p.exit n stmt lines n' → Placed p.text (textLines true lines) more →
    stmt.stackUse + p.callRoom ≤ p.room → p.At σ s →
    ∃ s', Moved p (textLines true lines ++ more) s (o.leads more p.exits) σ' s' ∧ o.Leaves p.ret s'

variable {o : Ending} {more : List Line} {n : Nat}

/-- A label after a statement is passed over. -/
theorem Moved.label (h : Moved p lines s (o.leads (.label n :: more) p.exits) σ' s') :
    Moved p lines s (o.leads more p.exits) σ' s' := by
  cases o with
  | normal => exact h.trans (h.running.moved (reaches_label n))
  | returned value => exact h

/-- A jump after a statement leads to its label. -/
theorem Moved.jump (hn : linesFrom (.label n) p.text = some lines')
    (h : Moved p lines s (o.leads (.instr (.jump n) :: more) p.exits) σ' s') :
    Moved p lines s (o.leads lines' p.exits) σ' s' := by
  cases o with
  | normal => exact h.trans (h.running.moved (reaches_jump hn))
  | returned value => exact h

/-- A return puts the low bytes of its value into `rax`. -/
theorem retValue_simulates {e : Expr} {v : Word} (heval : p.world.eval e σ = some (v, σ')) :
    Simulates p (.ret (some e)) σ (.returned (some v)) σ' := by
  intro n n' lines more s h _ hroom hs
  cases h with
  | @retValue _ _ r code value =>
    rw [Stmt.stackUse, stackUseOption] at hroom
    have htext : textLines true (instrLines (code ++ [.narrow p.ret.width r.reg .rax, .jump p.exit])) ++ more =
        instrLines code ++ (.instr (.narrow p.ret.width r.reg .rax) :: .instr (.jump p.exit) :: more) := by
      rw [(textLines_of_plain switches?_instrLines true).1]
      simp [instrLines]
    rw [htext]
    obtain ⟨s₁, hmoved, hr⟩ := code_moves value heval hroom hs _
    let narrowed := s₁.set .rax (p.ret.width.low v)
    have hexec : (Instr.narrow p.ret.width r.reg .rax).exec p.world.toLinkage p.callees s₁ = some narrowed := by
      simp only [narrowed, ← hr r rfl]
      cases p.ret.width <;> rfl
    have hk : Keeps p.world {} p.room s₁ narrowed := by
      refine .of_regs (fun q hq => if_neg fun heq => hq.not_volatile ?_) rfl
      rw [heq]
      decide
    have hrax : narrowed.regs .rax = p.ret.width.low v := by simp [narrowed]
    exact ⟨narrowed, hmoved.trans ⟨(reaches_step (step_instr hexec)).trans (reaches_jump p.found), hk,
      hmoved.running.of_store hk rfl⟩, hrax⟩

/-- An expression as a statement is no control structure, as those have no value. -/
theorem expr_simulates {e : Expr} {v : Word} (heval : p.world.eval e σ = some (v, σ')) :
    Simulates p (.expr e) σ .normal σ' := by
  intro n n' lines more s h _ hroom hs
  cases h with
  | expr value =>
    rw [Stmt.stackUse] at hroom
    rw [(textLines_of_plain switches?_instrLines true).1]
    obtain ⟨s₁, hmoved, -⟩ := code_moves value heval hroom hs more
    exact ⟨s₁, hmoved, trivial⟩
  | ifThen | ifElse | whileLoop | forLoop =>
    rw [World.eval] at heval
    cases heval

theorem blockCons_simulates {stmt : Stmt} {rest : List Stmt} {σ₁ : Store Ω} (hfirst : Simulates p stmt σ .normal σ₁)
    (hothers : Simulates p (.block rest) σ₁ o σ') : Simulates p (.block (stmt :: rest)) σ o σ' := by
  intro n n' lines more s h hplaced hroom hs
  cases h with
  | blockCons first others =>
    rw [Stmt.stackUse, stackUseBlock] at hroom
    rw [first.text_append] at hplaced ⊢
    rw [List.append_assoc]
    obtain ⟨s₁, hmoved₁, -⟩ := hfirst first hplaced.left (by omega) hs
    obtain ⟨s₂, hmoved₂, hleaves⟩ := hothers others hplaced.right (by rw [Stmt.stackUse]; omega) hmoved₁.running
    exact ⟨s₂, hmoved₁.trans hmoved₂, hleaves⟩

theorem blockReturn_simulates {stmt : Stmt} {rest : List Stmt} {value : Option Word}
    (hfirst : Simulates p stmt σ (.returned value) σ') : Simulates p (.block (stmt :: rest)) σ (.returned value) σ' := by
  intro n n' lines more s h hplaced hroom hs
  cases h with
  | blockCons first others =>
    rw [Stmt.stackUse, stackUseBlock] at hroom
    rw [first.text_append] at hplaced ⊢
    rw [List.append_assoc]
    exact hfirst first hplaced.left (by omega) hs

variable {info : Info} {cond : Expr} {σ₁ : Store Ω}

/-- The text section of a choice between two statements. -/
theorem textLines_ifElse {code : List Instr} {m : Nat} (h : textAfter true lines = true) (h' : textAfter true lines' = true) :
    textLines true (instrLines code ++ (lines ++ ([.instr (.jump m), .label n] ++ (lines' ++ [.label m])))) =
      instrLines code ++ (textLines true lines ++
        (.instr (.jump m) :: .label n :: (textLines true lines' ++ [.label m]))) := by
  rw [textLines_instrLines, textLines_append, h, List.cons_append, List.cons_append, List.nil_append, textLines_instr,
    textLines_label, textLines_append, h']
  rfl

theorem ifTrue_simulates {yes : Stmt} {no : Option Stmt} (htest : p.world.test cond σ = some (true, σ₁))
    (hyes : Simulates p yes σ₁ o σ') : Simulates p (.expr (.ifElse info cond yes no)) σ o σ' := by
  intro n n' lines more s h hplaced hroom hs
  rw [Stmt.stackUse, Expr.stackUse] at hroom
  cases h with
  | expr value => cases value
  | ifThen test body =>
    rw [textLines_instrLines, body.text_append] at hplaced ⊢
    simp only [List.append_assoc]
    obtain ⟨s₁, hmoved₁⟩ := testCode_moves test htest hplaced.right.right.head (by omega) hs _
    obtain ⟨s₂, hmoved₂, hleaves⟩ := hyes body hplaced.right.left (by omega) hmoved₁.running
    exact ⟨s₂, (hmoved₁.trans hmoved₂).label, hleaves⟩
  | ifElse test body other =>
    rw [textLines_ifElse body.ends_in_text other.ends_in_text] at hplaced ⊢
    simp only [List.append_assoc]
    have hno := hplaced.right.right.tail
    obtain ⟨s₁, hmoved₁⟩ := testCode_moves test htest hno.head (by omega) hs _
    obtain ⟨s₂, hmoved₂, hleaves⟩ := hyes body hplaced.right.left (by omega) hmoved₁.running
    exact ⟨s₂, ((hmoved₁.trans hmoved₂).jump hno.tail.right.head).label, hleaves⟩

theorem ifFalse_simulates {yes : Stmt} (htest : p.world.test cond σ = some (false, σ')) :
    Simulates p (.expr (.ifElse info cond yes none)) σ .normal σ' := by
  intro n n' lines more s h hplaced hroom hs
  rw [Stmt.stackUse, Expr.stackUse] at hroom
  cases h with
  | expr value => cases value
  | ifThen test body =>
    rw [textLines_instrLines, body.text_append] at hplaced ⊢
    simp only [List.append_assoc]
    obtain ⟨s₁, hmoved₁⟩ := testCode_moves test htest hplaced.right.right.head (by omega) hs _
    exact ⟨s₁, Moved.label (o := .normal) hmoved₁, trivial⟩

theorem ifElse_simulates {yes no : Stmt} (htest : p.world.test cond σ = some (false, σ₁))
    (hno : Simulates p no σ₁ o σ') : Simulates p (.expr (.ifElse info cond yes (some no))) σ o σ' := by
  intro n n' lines more s h hplaced hroom hs
  rw [Stmt.stackUse, Expr.stackUse, stackUseElse] at hroom
  cases h with
  | expr value => cases value
  | ifElse test body other =>
    rw [textLines_ifElse body.ends_in_text other.ends_in_text] at hplaced ⊢
    simp only [List.append_assoc]
    have hother := hplaced.right.right.tail
    obtain ⟨s₁, hmoved₁⟩ := testCode_moves test htest hother.head (by omega) hs _
    obtain ⟨s₂, hmoved₂, hleaves⟩ := hno other hother.tail.left (by omega) hmoved₁.running
    rw [← List.append_assoc] at hmoved₂
    exact ⟨s₂, (hmoved₁.trans ((hmoved₁.running.moved (reaches_label n)).trans hmoved₂)).label, hleaves⟩

theorem whileDone_simulates {body : Stmt} (htest : p.world.test cond σ = some (false, σ')) :
    Simulates p (.expr (.whileLoop info cond body)) σ .normal σ' := by
  intro n n' lines more s h hplaced hroom hs
  rw [Stmt.stackUse, Expr.stackUse] at hroom
  cases h with
  | expr value => cases value
  | whileLoop test rounds =>
    rw [textLines_label, textLines_instrLines, rounds.text_append] at hplaced ⊢
    simp only [List.append_assoc, List.cons_append]
    have hend := hplaced.tail.right.right.tail.head
    obtain ⟨s₁, hmoved₁⟩ := testCode_moves test htest hend (by omega) hs _
    exact ⟨s₁, Moved.label (o := .normal) ((hs.moved (reaches_label n)).trans hmoved₁), trivial⟩

/-- One round of a loop leads to its start, unless it returns. -/
theorem whileLoop_round {body : Stmt} {lines : List Line} {n' : Nat} (htest : p.world.test cond σ = some (true, σ₁))
    (hround : Simulates p body σ₁ o σ')
    (h : StmtCode p.world.symbols p.world.function p.ret p.exit n (.expr (.whileLoop info cond body)) lines n')
    (hplaced : Placed p.text (textLines true lines) more)
    (hroom : (Stmt.expr (.whileLoop info cond body)).stackUse + p.callRoom ≤ p.room) (hs : p.At σ s) :
    ∃ s', Moved p (textLines true lines ++ more) s (o.leads (textLines true lines ++ more) p.exits) σ' s' ∧
      o.Leaves p.ret s' := by
  rw [Stmt.stackUse, Expr.stackUse] at hroom
  cases h with
  | expr value => cases value
  | whileLoop test rounds =>
    rw [textLines_label, textLines_instrLines, rounds.text_append] at hplaced ⊢
    have hstart := hplaced.head
    simp only [List.append_assoc, List.cons_append] at hstart ⊢
    have hend := hplaced.tail.right.right.tail.head
    obtain ⟨s₁, hmoved₁⟩ := testCode_moves test htest hend (by omega) hs _
    obtain ⟨s₂, hmoved₂, hleaves⟩ := hround rounds hplaced.tail.right.left (by omega) hmoved₁.running
    exact ⟨s₂, ((hs.moved (reaches_label n)).trans (hmoved₁.trans hmoved₂)).jump hstart, hleaves⟩

theorem whileNext_simulates {body : Stmt} {σ₂ : Store Ω} (htest : p.world.test cond σ = some (true, σ₁))
    (hround : Simulates p body σ₁ .normal σ₂) (hagain : Simulates p (.expr (.whileLoop info cond body)) σ₂ o σ') :
    Simulates p (.expr (.whileLoop info cond body)) σ o σ' := by
  intro n n' lines more s h hplaced hroom hs
  obtain ⟨s₁, hmoved₁, -⟩ := whileLoop_round htest hround h hplaced hroom hs
  obtain ⟨s₂, hmoved₂, hleaves⟩ := hagain h hplaced hroom hmoved₁.running
  exact ⟨s₂, hmoved₁.trans hmoved₂, hleaves⟩

theorem whileReturn_simulates {body : Stmt} {value : Option Word} (htest : p.world.test cond σ = some (true, σ₁))
    (hround : Simulates p body σ₁ (.returned value) σ') :
    Simulates p (.expr (.whileLoop info cond body)) σ (.returned value) σ' := by
  intro n n' lines more s h hplaced hroom hs
  exact whileLoop_round htest hround h hplaced hroom hs

/-! ### Loops with three expressions -/

variable {init : Expr} {cond? post : Option Expr} {body : Stmt}

theorem forInit_simulates (hstart : p.world.aside (some init) σ = some σ₁)
    (hrounds : Simulates p (.expr (.forLoop info none cond? post body)) σ₁ o σ') :
    Simulates p (.expr (.forLoop info (some init) cond? post body)) σ o σ' := by
  intro n n' lines more s h hplaced hroom hs
  rw [Stmt.stackUse, Expr.stackUse] at hroom
  cases h with
  | expr value => cases value
  | forLoop start test rounds next =>
    rw [textLines_instrLines] at hplaced ⊢
    rw [List.append_assoc]
    obtain ⟨s₁, hmoved₁⟩ := asideCode_moves start hstart (by omega) hs _
    have hroom' : (Stmt.expr (.forLoop info none cond? post body)).stackUse + p.callRoom ≤ p.room := by
      rw [Stmt.stackUse, Expr.stackUse, stackUseOption]
      omega
    obtain ⟨s₂, hmoved₂, hleaves⟩ := hrounds (.forLoop .none test rounds next) hplaced.right hroom' hmoved₁.running
    exact ⟨s₂, hmoved₁.trans hmoved₂, hleaves⟩

/-- The text section of a loop that has no first expression. -/
theorem textLines_forLoop {code last : List Instr} (h : textAfter true lines = true) :
    textLines true (instrLines [] ++ (.label n :: (instrLines code ++
      (lines ++ (instrLines last ++ [.instr (.jump n), .label (n + 1)]))))) =
      .label n :: (instrLines code ++ (textLines true lines ++ (instrLines last ++ [.instr (.jump n), .label (n + 1)]))) := by
  rw [textLines_instrLines, textLines_label, textLines_instrLines, textLines_append, h, textLines_instrLines]
  rfl

theorem forDone_simulates (htest : p.world.testOption cond? σ = some (false, σ')) :
    Simulates p (.expr (.forLoop info none cond? post body)) σ .normal σ' := by
  intro n n' lines more s h hplaced hroom hs
  rw [Stmt.stackUse, Expr.stackUse] at hroom
  cases h with
  | expr value => cases value
  | forLoop start test rounds next =>
    cases start
    rw [textLines_forLoop rounds.ends_in_text] at hplaced ⊢
    simp only [List.append_assoc, List.cons_append]
    have hend := hplaced.tail.right.right.right.tail.head
    obtain ⟨s₁, hmoved₁⟩ := guardCode_moves test htest hend (by omega) hs _
    exact ⟨s₁, Moved.label (o := .normal) ((hs.moved (reaches_label n)).trans hmoved₁), trivial⟩

/-- The test and the body of a loop lead to its last expression, unless they return. -/
theorem forLoop_round {lines : List Line} {n' : Nat} (htest : p.world.testOption cond? σ = some (true, σ₁))
    (hround : Simulates p body σ₁ o σ')
    (h : StmtCode p.world.symbols p.world.function p.ret p.exit n (.expr (.forLoop info none cond? post body)) lines n')
    (hplaced : Placed p.text (textLines true lines) more)
    (hroom : (Stmt.expr (.forLoop info none cond? post body)).stackUse + p.callRoom ≤ p.room) (hs : p.At σ s) :
    ∃ last s', AsideCode p.world.symbols p.world.function post last ∧
      linesFrom (.label n) p.text = some (textLines true lines ++ more) ∧
      Moved p (textLines true lines ++ more) s
        (o.leads (instrLines last ++ (.instr (.jump n) :: .label (n + 1) :: more)) p.exits) σ' s' ∧ o.Leaves p.ret s' := by
  rw [Stmt.stackUse, Expr.stackUse] at hroom
  cases h with
  | expr value => cases value
  | forLoop start test rounds next =>
    cases start
    rw [textLines_forLoop rounds.ends_in_text] at hplaced ⊢
    have hstart := hplaced.head
    simp only [List.append_assoc, List.cons_append] at hstart ⊢
    have hend := hplaced.tail.right.right.right.tail.head
    obtain ⟨s₁, hmoved₁⟩ := guardCode_moves test htest hend (by omega) hs _
    obtain ⟨s₂, hmoved₂, hleaves⟩ := hround rounds hplaced.tail.right.left (by omega) hmoved₁.running
    simp only [List.append_assoc] at hmoved₂
    exact ⟨_, s₂, next, hstart, (hs.moved (reaches_label n)).trans (hmoved₁.trans hmoved₂), hleaves⟩

theorem forNext_simulates {σ₂ σ₃ : Store Ω} (htest : p.world.testOption cond? σ = some (true, σ₁))
    (hround : Simulates p body σ₁ .normal σ₂) (hnext : p.world.aside post σ₂ = some σ₃)
    (hagain : Simulates p (.expr (.forLoop info none cond? post body)) σ₃ o σ') :
    Simulates p (.expr (.forLoop info none cond? post body)) σ o σ' := by
  intro n n' lines more s h hplaced hroom hs
  obtain ⟨last, s₁, next, hstart, hmoved₁, -⟩ := forLoop_round htest hround h hplaced hroom hs
  have hpost : stackUseOption post + p.callRoom ≤ p.room := by
    rw [Stmt.stackUse, Expr.stackUse] at hroom
    omega
  obtain ⟨s₂, hmoved₂⟩ := asideCode_moves next hnext hpost hmoved₁.running _
  obtain ⟨s₃, hmoved₃, hleaves⟩ := hagain h hplaced hroom hmoved₂.running
  exact ⟨s₃, (hmoved₁.trans (Moved.jump (o := .normal) hstart hmoved₂)).trans hmoved₃, hleaves⟩

theorem forReturn_simulates {value : Option Word} (htest : p.world.testOption cond? σ = some (true, σ₁))
    (hround : Simulates p body σ₁ (.returned value) σ') :
    Simulates p (.expr (.forLoop info none cond? post body)) σ (.returned value) σ' := by
  intro n n' lines more s h hplaced hroom hs
  obtain ⟨_, s₁, _, _, hmoved₁, hleaves⟩ := forLoop_round htest hround h hplaced hroom hs
  exact ⟨s₁, hmoved₁, hleaves⟩

/-- **Code for statements.** Code does what the statement does, whatever way the statement ends. -/
theorem Exec.simulates {stmt : Stmt} (h : Exec p.world stmt σ o σ') : Simulates p stmt σ o σ' := by
  induction h with
  | retNone =>
    intro n n' lines more s h _ _ hs
    cases h
    exact ⟨s, hs.moved (reaches_jump p.found), trivial⟩
  | retValue value => exact retValue_simulates value
  | expr value => exact expr_simulates value
  | varDecl =>
    intro n n' lines more s h _ _ hs
    cases h
    exact ⟨s, hs.moved (.refl _), trivial⟩
  | globalDecl =>
    intro n n' lines more s h _ _ hs
    cases h
    rw [textLines_globalDecl]
    exact ⟨s, hs.moved (.refl _), trivial⟩
  | blockNil =>
    intro n n' lines more s h _ _ hs
    cases h
    exact ⟨s, hs.moved (.refl _), trivial⟩
  | blockCons _ _ ihFirst ihOthers => exact blockCons_simulates ihFirst ihOthers
  | blockReturn _ ih => exact blockReturn_simulates ih
  | ifTrue test _ ih => exact ifTrue_simulates test ih
  | ifFalse test => exact ifFalse_simulates test
  | ifElse test _ ih => exact ifElse_simulates test ih
  | whileDone test => exact whileDone_simulates test
  | whileNext test _ _ ihRound ihAgain => exact whileNext_simulates test ihRound ihAgain
  | whileReturn test _ ih => exact whileReturn_simulates test ih
  | forInit start _ ih => exact forInit_simulates start ih
  | forDone test => exact forDone_simulates test
  | forNext test _ next _ ihRound ihAgain => exact forNext_simulates test ihRound next ihAgain
  | forReturn test _ ih => exact forReturn_simulates test ih

end Simulation

end MiniC
