import MiniC.Proofs.StackShadow

/-!
# What is saved around a call

The registers that are saved for a call come back after it, in reverse order, and nothing else is popped there. Between
the pushes and the call the stack goes up and down again: arguments are pushed and passed in registers. For padding the
room is made directly before the call and given back directly after it.

* `Code.bracketed`, `StmtCode.bracketed`: so it is for every call in the code of an expression or a statement, in
  arguments and operands of whatever depth.
-/

namespace MiniC

/-! ## Calls in their places -/

/-- Whatever is on the stack, the instructions leave it as it is. -/
def Balanced (code : List Instr) : Prop := ∀ σ, shadowAfter (instrLines code) σ = some σ

/-- Around a call `before` ends by saving registers, with balanced code after that, and `after` begins by restoring them;
it does not go on with a pop. -/
def Brackets (before after : List Line) : Prop :=
  ∃ (start : List Line) (saved : List Scratch) (inner : List Instr) (padding : Bool) (rest : List Line),
    before = start ++ instrLines (saved.map (.push ·.reg) ++
      (inner ++ if padding then [.aluImm .sub 8 .rsp] else [])) ∧
    after = instrLines ((if padding then [.aluImm .add 8 .rsp] else []) ++ saved.reverse.map (.pop ·.reg)) ++ rest ∧
    Balanced inner ∧ ∀ r, rest.head? ≠ some (.instr (.pop r))

/-- Every call in `lines`, which stand between `start` and `tail`, is bracketed. -/
def Bracketed (start lines tail : List Line) : Prop :=
  ∀ before name after, lines = before ++ .instr (.call name) :: after → Brackets (start ++ before) (after ++ tail)

/-- The lines do not begin with a pop. -/
def Unpopped (lines : List Line) : Prop := ∀ r, lines.head? ≠ some (.instr (.pop r))

section Lines

variable {start lines lines' tail : List Line} {code : List Instr}

theorem Bracketed.append (h : Bracketed start lines (lines' ++ tail)) (h' : Bracketed (start ++ lines) lines' tail) :
    Bracketed start (lines ++ lines') tail := by
  intro before name after heq
  rcases List.append_eq_append_iff.1 heq with ⟨more, rfl, hright⟩ | ⟨more, rfl, hleft⟩
  · rw [← List.append_assoc]
    exact h' more name after hright
  · cases more with
    | nil =>
      -- The call is the first line of the second part.
      have hright := h' [] name after hleft.symm
      simpa using hright
    | cons line more =>
      obtain ⟨rfl, rfl⟩ := List.cons.inj hleft
      show Brackets _ ((more ++ lines') ++ tail)
      rw [List.append_assoc]
      exact h before name more rfl

theorem bracketed_of_no_call (h : ∀ name, .instr (.call name) ∉ lines) : Bracketed start lines tail := by
  rintro before name after rfl
  exact absurd (by simp) (h name)

theorem bracketed_quiet (h : ∀ i ∈ code, ∀ name, i ≠ .call name) : Bracketed start (instrLines code) tail := by
  refine bracketed_of_no_call fun name hcall => ?_
  obtain ⟨i, hi, heq⟩ := List.mem_map.1 hcall
  cases heq
  exact h _ hi name rfl

theorem bracketed_map {α : Type} {g : α → Instr} (h : ∀ a name, g a ≠ .call name) (as : List α) :
    Bracketed start (instrLines (as.map g)) tail := by
  refine bracketed_quiet fun i hi name hcall => ?_
  obtain ⟨a, -, rfl⟩ := List.mem_map.1 hi
  exact h a name hcall

theorem bracketed_calm (h : ∀ i ∈ code, i.calm = true) : Bracketed start (instrLines code) tail :=
  bracketed_quiet fun i hi name hcall => calm_ne_call (h i hi) name (congrArg Line.instr hcall)

theorem Unpopped.append (h : Unpopped lines) (h' : Unpopped lines') : Unpopped (lines ++ lines') := by
  cases lines with
  | nil => exact h'
  | cons => exact h

end Lines

/-! ## Expressions -/

/-- The code begins with an instruction that is no pop. -/
def Opens (code : List Instr) : Prop := ∃ i rest, code = i :: rest ∧ ∀ r, i ≠ .pop r

/-- How code for a task begins; for no arguments there is none. -/
def Task.Opens (code : List Instr) : Task → Prop
  | value _ => MiniC.Opens code
  | push args => (args = [] ∧ code = []) ∨ MiniC.Opens code

section Expressions

variable {t : SymbolTable} {f : String} {pool : RegisterPool} {pushed target : Nat} {task : Task} {r? : Option Scratch}
  {code : List Instr} {e : Expr} {start tail : List Line}

theorem Opens.append (h : Opens code) (code' : List Instr) : Opens (code ++ code') := by
  obtain ⟨i, rest, rfl, hi⟩ := h
  exact ⟨i, rest ++ code', rfl, hi⟩

theorem Opens.unpopped (h : Opens code) (tail : List Line) : Unpopped (instrLines code ++ tail) := by
  obtain ⟨i, rest, rfl, hi⟩ := h
  intro r heq
  injection heq with hline
  injection hline with hpop
  exact hi r hpop

theorem opens_padded (pushed : Nat) (name : String) : Opens (padded pushed name) := by
  unfold padded
  split
  · exact ⟨_, _, rfl, by simp⟩
  · exact ⟨_, _, rfl, by simp⟩

/-- The code of an expression does not begin with a pop. -/
theorem Code.opens (h : Code t f pool pushed task r? code) : task.Opens code := by
  induction h with
  | number | string | array | scalar | addressOf | stepBefore | stepAfter => exact ⟨_, _, rfl, by simp⟩
  | deref _ ih | negate _ ih | not _ ih | scale _ ih | assignName _ _ _ _ ih => exact Opens.append ih _
  | assignAt _ _ ih => exact Opens.append ih _
  | arithmetic _ _ _ ih => exact Opens.append ih _
  | widen _ ih => exact ih
  | @call pool pushed info name args r? code limit _ _ ih =>
    cases pool.live with
    | cons r live => exact ⟨_, _, rfl, by simp⟩
    | nil =>
      rcases ih with ⟨rfl, rfl⟩ | ih
      · exact (opens_padded _ _).append _
      · exact ih.append _
  | pushNone => exact .inl ⟨rfl, rfl⟩
  | pushMore _ _ ih => exact .inr (Opens.append ih _)

/-- The call itself, with its padding. -/
theorem bracketed_padded {saved : List Scratch} {inner : List Instr} (pushed : Nat) (name : String)
    (hinner : Balanced inner) (htail : Unpopped tail) :
    Bracketed (start ++ instrLines (saved.map (.push ·.reg) ++ inner)) (instrLines (padded pushed name))
      (instrLines (saved.reverse.map (.pop ·.reg)) ++ tail) := by
  intro before callee after heq
  unfold padded at heq
  split at heq
  · -- The call stands between the two instructions of the padding.
    obtain ⟨rfl, rfl⟩ : before = instrLines [.aluImm .sub 8 .rsp] ∧ after = instrLines [.aluImm .add 8 .rsp] := by
      rcases before with _ | ⟨_, _ | ⟨_, _ | ⟨_, before⟩⟩⟩ <;> simp [instrLines] at heq ⊢
      exact ⟨heq.1.symm, heq.2.2.symm⟩
    exact ⟨start, saved, inner, true, tail, by simp, by simp [instrLines], hinner, htail⟩
  · obtain ⟨rfl, rfl⟩ : before = [] ∧ after = [] := by
      rcases before with _ | ⟨_, before⟩ <;> simp [instrLines] at heq ⊢
      exact heq.2
    exact ⟨start, saved, inner, false, tail, by simp, by simp, hinner, htail⟩

/-- **Expressions.** Every call in the code of an expression is bracketed, if what follows a call without a value is no
pop. -/
theorem Code.bracketed (h : Code t f pool pushed task r? code) {start tail : List Line}
    (htail : ∀ e, task = .value e → r? = none → Unpopped tail) : Bracketed start (instrLines code) tail := by
  induction h generalizing start tail with
  | number | string | array | scalar | addressOf | stepBefore | stepAfter => exact bracketed_quiet (by simp)
  | pushNone => exact bracketed_quiet (by simp)
  | deref _ ih | negate _ ih | not _ ih | assignName _ _ _ _ ih =>
    rw [instrLines_append]
    exact (ih fun _ _ hnone => by cases hnone).append (bracketed_quiet (by simp))
  | widen _ ih => exact ih fun _ _ hnone => by cases hnone
  | scale _ ih =>
    rw [instrLines_append]
    exact (ih fun _ _ hnone => by cases hnone).append (bracketed_calm (calm_of_computing (computing_scaling _ _)))
  | assignAt _ _ ih ih' =>
    rw [instrLines_append, instrLines_append]
    exact (ih fun _ _ hnone => by cases hnone).append
      ((ih' fun _ _ hnone => by cases hnone).append (bracketed_quiet (by simp)))
  | arithmetic _ _ _ ih ih' =>
    rw [instrLines_append, instrLines_append]
    exact (ih fun _ _ hnone => by cases hnone).append
      ((ih' fun _ _ hnone => by cases hnone).append (bracketed_calm (calm_of_computing (computing_instrs _ _ _))))
  | pushMore _ _ ih ih' =>
    rw [instrLines_append, ← List.singleton_append, instrLines_append]
    exact (ih fun _ _ hnone => by cases hnone).append
      ((bracketed_quiet (by simp)).append (ih' fun _ hvalue => by cases hvalue))
  | @call pool pushed info name args r? code limit values free ih =>
    let passing : List Instr := (Reg.arguments.take args.length).reverse.map .pop
    have hbalanced : Balanced (code ++ passing) := fun σ => (scans_arguments limit (values.scans σ)).after
    have hrest : ∀ r, (instrLines (taking info.ty r?) ++ tail).head? ≠ some (.instr (.pop r)) := by
      intro r
      cases hr : r? with
      | none => exact htail _ rfl hr r
      | some q =>
        unfold taking Instr.widen
        cases info.ty.width <;> simp [instrLines]
    have hcall : Bracketed (start ++ instrLines (pool.live.map (.push ·.reg) ++ (code ++ passing)))
        (instrLines (padded (pushed + pool.live.length) name))
        (instrLines (pool.live.reverse.map (.pop ·.reg)) ++ (instrLines (taking info.ty r?) ++ tail)) :=
      bracketed_padded _ _ hbalanced hrest
    simp only [instrLines_append, passing] at hcall ⊢
    refine (bracketed_map (by simp) _).append ((ih fun _ hvalue => by cases hvalue).append
      ((bracketed_map (by simp) _).append (Bracketed.append ?_
        ((bracketed_map (by simp) _).append (bracketed_calm (calm_of_computing (computing_taking _ _)))))))
    simpa only [List.append_assoc] using hcall

theorem TestCode.bracketed {cond : Expr} (h : TestCode t f target cond code) : Bracketed start (instrLines code) tail := by
  cases h with
  | comparison _ first second =>
    rw [instrLines_append, instrLines_append]
    exact (first.bracketed fun _ _ hnone => by cases hnone).append
      ((second.bracketed fun _ _ hnone => by cases hnone).append (bracketed_quiet (by simp)))
  | value value =>
    rw [instrLines_append]
    exact (value.bracketed fun _ _ hnone => by cases hnone).append (bracketed_quiet (by simp))

theorem TestCode.opens {cond : Expr} (h : TestCode t f target cond code) : Opens code := by
  cases h with
  | comparison _ first => exact Opens.append first.opens _
  | value value => exact Opens.append value.opens _

theorem AsideCode.bracketed {e : Option Expr} (h : AsideCode t f e code) (htail : Unpopped tail) :
    Bracketed start (instrLines code) tail := by
  cases h with
  | none => exact bracketed_quiet (by simp)
  | some value => exact value.bracketed fun _ _ _ => htail

theorem AsideCode.unpopped {e : Option Expr} (h : AsideCode t f e code) (htail : Unpopped tail) :
    Unpopped (instrLines code ++ tail) := by
  cases h with
  | none => exact htail
  | some value => exact Opens.unpopped value.opens tail

theorem GuardCode.bracketed {e : Option Expr} (h : GuardCode t f target e code) :
    Bracketed start (instrLines code) tail := by
  cases h with
  | none => exact bracketed_quiet (by simp)
  | some test => exact test.bracketed

end Expressions

/-! ## Statements -/

section Statements

variable {t : SymbolTable} {f : String} {ret : Ty} {exit n n' : Nat} {stmt : Stmt} {lines : List Line}

theorem unpopped_label (n : Nat) (lines : List Line) : Unpopped (.label n :: lines) := by simp [Unpopped]

theorem unpopped_jump (n : Nat) (lines : List Line) : Unpopped (.instr (.jump n) :: lines) := by simp [Unpopped]

/-- The code of a statement does not begin with a pop. -/
theorem StmtCode.unpopped (h : StmtCode t f ret exit n stmt lines n') : Unpopped (textLines true lines) := by
  have hcode : ∀ {code : List Instr}, Opens code → Unpopped (instrLines code) := fun h =>
    List.append_nil (instrLines _) ▸ h.unpopped []
  induction h with
  | retNone => exact unpopped_jump _ _
  | varDecl | blockNil => exact nofun
  | retValue value =>
    rw [(textLines_of_plain switches?_instrLines true).1]
    exact hcode (Opens.append value.opens _)
  | expr value =>
    rw [(textLines_of_plain switches?_instrLines true).1]
    exact hcode value.opens
  | globalDecl =>
    rw [textLines_globalDecl]
    exact nofun
  | blockCons first _ ih ih' =>
    rw [first.text_append]
    exact ih.append ih'
  | ifThen test =>
    rw [textLines_instrLines]
    exact test.opens.unpopped _
  | ifElse test body other =>
    rw [textLines_ifElse body.ends_in_text other.ends_in_text]
    exact test.opens.unpopped _
  | whileLoop => exact unpopped_label _ _
  | forLoop start =>
    rw [textLines_instrLines]
    exact start.unpopped (unpopped_label _ _)

/-- **Statements.** Every call in the code of a statement is bracketed, if what follows the statement is no pop. -/
theorem StmtCode.bracketed (h : StmtCode t f ret exit n stmt lines n') {start tail : List Line} (htail : Unpopped tail) :
    Bracketed start (textLines true lines) tail := by
  have hlabel : ∀ {start tail : List Line} (n : Nat), Bracketed start [.label n] tail := fun _ =>
    bracketed_of_no_call (by simp)
  have hjump : ∀ {start tail : List Line} (n : Nat), Bracketed start [.instr (.jump n)] tail := fun _ =>
    bracketed_of_no_call (by simp)
  induction h generalizing start tail with
  | retNone => exact hjump exit
  | varDecl | blockNil => exact bracketed_of_no_call (by simp)
  | retValue value =>
    rw [(textLines_of_plain switches?_instrLines true).1, if_pos rfl, instrLines_append]
    refine (value.bracketed fun _ _ hnone => by cases hnone).append (bracketed_quiet ?_)
    unfold Instr.narrow
    cases ret.width <;> simp
  | expr value =>
    rw [(textLines_of_plain switches?_instrLines true).1, if_pos rfl]
    exact value.bracketed fun _ _ _ => htail
  | globalDecl =>
    rw [textLines_globalDecl]
    exact bracketed_of_no_call (by simp)
  | blockCons first others ih ih' =>
    rw [first.text_append]
    exact (ih (others.unpopped.append htail)).append (ih' htail)
  | ifThen test body ih =>
    rw [textLines_instrLines, body.text_append]
    exact test.bracketed.append ((ih (unpopped_label _ _)).append (hlabel _))
  | ifElse test body other ih ih' =>
    rw [textLines_ifElse body.ends_in_text other.ends_in_text]
    exact test.bracketed.append ((ih (unpopped_jump _ _)).append
      ((hjump _).append ((hlabel _).append ((ih' (unpopped_label _ _)).append (hlabel _)))))
  | whileLoop test rounds ih =>
    rw [textLines_label, textLines_instrLines, rounds.text_append]
    exact (hlabel _).append (test.bracketed.append ((ih (unpopped_jump _ _)).append ((hjump _).append (hlabel _))))
  | forLoop init test rounds next ih =>
    rw [textLines_instrLines, textLines_label, textLines_instrLines, rounds.text_append, textLines_instrLines]
    refine (init.bracketed (unpopped_label _ _)).append ((hlabel _).append (test.bracketed.append
      ((ih ?_).append ((next.bracketed (unpopped_jump _ _)).append ((hjump _).append (hlabel _))))))
    rw [List.append_assoc]
    exact next.unpopped (unpopped_jump _ _)

end Statements

end MiniC
