import MiniC.Proofs.Definitions
import MiniC.Proofs.LowerFrame
import MiniC.Proofs.Typed

/-!
# The count of pushed values

Lowering counts what is pushed below the frame, for the padding of calls. Whatever an expression pushes it pops again, so
its lowering leaves the count as it found it, in any state. Only the definition of a function starts a count of its own,
and there is none inside a statement that fits (`TypedStmt.functionless`).

* `Lower.pushed_trees`: expressions and statements in which no function is defined.
-/

namespace MiniC

/-- No function is defined among `definitions`. -/
def Functionless (definitions : List Global) : Prop := ∀ f, .function f ∉ definitions

theorem functionless_append {ds ds' : List Global} :
    Functionless (ds ++ ds') ↔ Functionless ds ∧ Functionless ds' := by
  unfold Functionless
  simp only [List.mem_append, not_or]
  exact forall_and

section Typed

variable {t : SymbolTable} {f : String}

theorem Typed.definitions {e : Expr} (h : Typed t f e) : e.definitions = [] := by
  induction h with
  | ident | number | string => rw [Expr.definitions]
  | addressOf | step => rw [Expr.definitions, Expr.definitions]
  | deref _ _ _ ih | negate _ _ _ ih | not _ _ _ ih | widen _ _ _ ih | scale _ _ _ _ _ ih =>
    rw [Expr.definitions]
    exact ih
  | assignName _ _ _ _ _ _ ih =>
    rw [Expr.definitions, Expr.definitions]
    exact ih
  | assignAt _ _ _ _ _ _ _ ihAddress ih =>
    rw [Expr.definitions, Expr.definitions, ihAddress]
    exact ih
  | arithmetic _ _ _ _ _ _ _ ihLeft ihRight =>
    rw [Expr.definitions, ihLeft]
    exact ihRight
  | call _ _ _ _ _ _ _ ih =>
    rw [Expr.definitions, exprDefinitions_eq, List.flatten_eq_nil_iff]
    simpa using ih

theorem Typed.functionless {e : Expr} (h : Typed t f e) : Functionless e.definitions := by
  rw [h.definitions]
  exact fun _ => List.not_mem_nil

theorem functionless_optional {e : Option Expr} (h : ∀ e', e = some e' → Typed t f e') :
    Functionless (optionalDefinitions e) := by
  cases e with
  | none => exact fun _ => List.not_mem_nil
  | some e =>
    rw [optionalDefinitions]
    exact (h e rfl).functionless

/-- Functions are defined at the outermost level only. -/
theorem TypedStmt.functionless {s : Stmt} (h : TypedStmt t f s) : Functionless s.definitions := by
  induction h with
  | retNone => exact fun _ => List.not_mem_nil
  | retValue _ _ typed =>
    rw [Stmt.definitions, optionalDefinitions]
    exact typed.functionless
  | expr typed =>
    rw [Stmt.definitions]
    exact typed.functionless
  | varDecl =>
    rw [Stmt.definitions]
    exact fun _ => List.not_mem_nil
  | globalDecl =>
    rw [Stmt.definitions]
    simp [Functionless]
  | @block stmts typed ih =>
    rw [Stmt.definitions]
    induction stmts with
    | nil =>
      rw [stmtDefinitions]
      exact fun _ => List.not_mem_nil
    | cons s rest ihRest =>
      rw [stmtDefinitions, functionless_append]
      exact ⟨ih s List.mem_cons_self, ihRest (fun s hs => typed s (List.mem_cons_of_mem _ hs)) fun s hs =>
        ih s (List.mem_cons_of_mem _ hs)⟩
  | @ifElse info cond yes no typed _ _ _ ihYes ihNo =>
    rw [Stmt.definitions, Expr.definitions, functionless_append, functionless_append]
    refine ⟨typed.functionless, ihYes, ?_⟩
    cases no with
    | none => exact fun _ => List.not_mem_nil
    | some no =>
      rw [optionalStmtDefinitions]
      exact ihNo no rfl
  | whileLoop typed _ _ ih =>
    rw [Stmt.definitions, Expr.definitions, functionless_append]
    exact ⟨typed.functionless, ih⟩
  | forLoop typedInit typed _ typedPost _ ih =>
    rw [Stmt.definitions, Expr.definitions, functionless_append, functionless_append, functionless_append]
    exact ⟨functionless_optional typedInit, functionless_optional typed, functionless_optional typedPost, ih⟩

end Typed

namespace Lower

variable {α : Type}

/-! ## Code that leaves the count as it is -/

/-- Where `x` does not fail the count is as before. -/
def Level (x : LowerM α) : Prop := ∀ k, Maintains (fun st => st.pushed = k) (fun _ => True) x

/-- Only pushing, popping and the beginning of a function change the count. -/
theorem steady_pushed (k : Nat) : Steady (fun st => st.pushed = k) fun _ => True where
  fails _ := trivial
  lines _ h := h
  pad _ _ h := h
  draw h := h
  literal _ _ _ h := h
  literalFails _ _ _ := trivial

/-! ## Calls -/

/-- Where `x` does not fail the count is higher by `n`. -/
def Raises (n : Nat) (x : LowerM α) : Prop :=
  ∀ k, ∀ st, st.pushed = k → Ends x st (fun _ st' => st'.pushed = k + n) fun _ _ => True

theorem raises_push (r : Reg) : Raises 1 (push r) := fun k st hst =>
  ends_bind ((steady_pushed k).emit rfl st hst) fun _ _ h => congrArg (· + 1) h

theorem raises_pushes {g : α → Reg} : ∀ rs : List α, Raises rs.length (rs.forM fun r => push (g r))
  | [] => fun _ _ h => h
  | r :: rs => by
    intro k st hst
    refine ends_bind (raises_push (g r) k st hst) fun _ st₁ h₁ => ?_
    refine ends_mono (raises_pushes rs (k + 1) st₁ h₁) (fun _ st₂ h₂ => ?_) fun _ _ h => h
    rw [h₂, List.length_cons]
    omega

/-- A value is popped only where one was pushed. -/
theorem pop_pushed {r : Reg} {k : Nat} (st : State) (h : st.pushed = k + 1) :
    Ends (pop r) st (fun _ st' => st'.pushed = k) fun _ _ => True := by
  refine ends_bind ((steady_pushed (k + 1)).emit rfl st h) fun _ st₁ h₁ => ends_get_bind ?_
  rw [h₁]
  rfl

theorem pops_pushed {g : α → Reg} {k : Nat} : ∀ (rs : List α) (st : State), st.pushed = k + rs.length →
    Ends (rs.forM fun r => pop (g r)) st (fun _ st' => st'.pushed = k) fun _ _ => True
  | [], _, h => h
  | _ :: rs, st, h => ends_bind (pop_pushed st h) fun _ st₁ h₁ => pops_pushed rs st₁ h₁

/-- What is pushed for a call is popped again. -/
theorem level_callCode {info : Info} {name : String} {count : Nat} {args : LowerM Unit} (hargs : Raises count args) :
    Level (callCode info name count args) := by
  rintro k st hst
  refine ends_get_bind (ends_bind (raises_pushes st.pool.live k st hst) fun _ st₁ h₁ => ?_)
  refine ends_bind (hargs _ st₁ h₁) fun _ st₂ h₂ => ?_
  refine ends_bind (P := fun regs st' => regs.length = count ∧ st'.pushed = st₂.pushed) ?_ ?_
  · unfold argumentRegisters
    split
    · next hle => exact ⟨by rw [List.length_take]; exact Nat.min_eq_left hle, rfl⟩
    · trivial
  rintro regs st₃ ⟨hregs, h₃⟩
  refine ends_bind (pops_pushed (g := id) regs.reverse st₃ (by rw [h₃, h₂, List.length_reverse, hregs])) fun _ st₄ h₄ => ?_
  refine ends_bind ((steady_pushed _).paddedCall name st₄ h₄) fun _ st₅ h₅ => ?_
  refine ends_bind (pops_pushed st.pool.live.reverse st₅ (by rw [h₅, List.length_reverse])) fun _ st₆ h₆ => ?_
  exact (steady_pushed k).takeResult info st₆ h₆

/-- Each of the arguments is pushed when it has been computed. -/
theorem raises_arguments {arg : LowerM Scratch} {args : LowerM Unit} {n : Nat} (harg : Level arg) (hargs : Raises n args) :
    Raises (n + 1) (do let r ← arg; push r.reg; free r; args) := by
  intro k st hst
  refine ends_bind (harg k st hst) fun r st₁ h₁ => ends_bind (raises_push r.reg k st₁ h₁) fun _ st₂ h₂ => ?_
  refine ends_bind ((steady_pushed (k + 1)).free r st₂ h₂) fun _ st₃ h₃ => ?_
  refine ends_mono (hargs _ st₃ h₃) (fun _ st₄ h₄ => ?_) fun _ _ h => h
  rw [h₄]
  omega

/-! ## Trees -/

/-- **The count.** The lowering of an expression or a statement in which no function is defined leaves the count as it
found it; that of arguments adds one for each. -/
theorem pushed_trees :
    (∀ e, Functionless e.definitions → Level (expr e)) ∧
    (∀ e, Functionless (optionalDefinitions e) → Level (discarded e)) ∧
    (∀ s, Functionless s.definitions → Level (stmt s)) ∧
    (∀ ss, Functionless (stmtDefinitions ss) → Level (stmtList ss)) ∧
    (∀ e, Functionless e.definitions → ∀ k cond left right, comparison e = some (cond, left, right) →
      Maintains (fun st => st.pushed = k) (fun _ => True) left ∧ Maintains (fun st => st.pushed = k) (fun _ => True) right) ∧
    (∀ es, Functionless (exprDefinitions es) → Raises es.length (arguments es)) ∧
    (∀ e r, Functionless e.definitions → Level (store e r)) := by
  refine expr.mutual_induct _ _ _ _ _ _ _
    ?number ?string ?ident ?unary ?assignRead ?assign ?binary ?convert ?call ?ifElse ?whileLoop ?forLoop ?comparison
    ?noComparison ?storeName ?storeAt ?storeOther ?retNone ?ret ?stmtExpr ?varDecl ?globalDecl ?block ?prototype ?function
    ?noneDiscarded ?discarded ?noArguments ?arguments ?noStmts ?stmts
  case number =>
    intro info value _ k
    rw [expr]
    exact maintains_map ((steady_pushed k).numberCode info value)
  case string =>
    intro info label bytes _ k
    rw [expr]
    exact maintains_map ((steady_pushed k).stringCode info label bytes)
  case ident =>
    intro info name scope _ k
    rw [expr]
    exact maintains_map ((steady_pushed k).nameCode info name scope)
  case unary =>
    intro info op operand ih hfree k
    rw [Expr.definitions] at hfree
    rw [expr]
    exact maintains_map ((steady_pushed k).unaryCode ((steady_pushed k).value (ih hfree k)))
  case assignRead =>
    intro info left right hread _ _ _ _
    rw [expr, if_pos hread]
    exact fun _ _ => trivial
  case assign =>
    intro info left right hread ihRight ihStore hfree k
    rw [Expr.definitions, functionless_append] at hfree
    rw [expr, if_neg hread]
    exact maintains_bind ((steady_pushed k).value (ihRight hfree.2 k)) fun r =>
      maintains_bind (ihStore r hfree.1 k) fun _ => maintains_pure _
  case binary =>
    intro info op left right hop ihLeft ihRight hfree k
    have h := steady_pushed k
    rw [Expr.definitions, functionless_append] at hfree
    rw [expr]
    · exact maintains_bind (h.value (ihLeft hfree.1 k)) fun l => maintains_bind (h.value (ihRight hfree.2 k)) fun r =>
        maintains_map (h.arithmetic op l r)
    · exact hop
  case convert =>
    intro info change operand ih hfree k
    rw [Expr.definitions] at hfree
    rw [expr]
    exact maintains_map ((steady_pushed k).changeCode ((steady_pushed k).value (ih hfree k)))
  case call =>
    intro info name args ih hfree
    rw [Expr.definitions] at hfree
    rw [expr]
    exact level_callCode (ih hfree)
  case ifElse =>
    intro info cond yes no ih hfree k
    have h := steady_pushed k
    rw [Expr.definitions, functionless_append, functionless_append] at hfree
    obtain ⟨hcond, hyes, hno⟩ := hfree
    cases no with
    | none =>
      obtain ⟨ihParts, ihCond, ihYes⟩ := ih
      exact h.ifElse (fun _ => h.branch (ihParts hcond k) (ihCond hcond k)) (ihYes hyes k) (by rintro _ ⟨⟩)
    | some no =>
      obtain ⟨ihParts, ihCond, ihYes, ihNo⟩ := ih
      refine h.ifElse (fun _ => h.branch (ihParts hcond k) (ihCond hcond k)) (ihYes hyes k) ?_
      rintro _ ⟨⟩
      exact ihNo hno k
  case whileLoop =>
    intro info cond body ihParts ihCond ihBody hfree k
    have h := steady_pushed k
    rw [Expr.definitions, functionless_append] at hfree
    exact h.whileLoop (fun _ => h.branch (ihParts hfree.1 k) (ihCond hfree.1 k)) (ihBody hfree.2 k)
  case forLoop =>
    intro info init cond post body ihInit ihBody ihPost ihCond hfree k
    have h := steady_pushed k
    rw [Expr.definitions, functionless_append, functionless_append, functionless_append] at hfree
    obtain ⟨hinit, hcond, hpost, hbody⟩ := hfree
    refine h.forLoop (ihInit hinit k) ?_ (ihBody hbody k) (ihPost hpost k)
    rintro cond rfl _
    exact h.branch (ihCond.1 hcond k) (ihCond.2 hcond k)
  case comparison =>
    intro info op left right ihLeft ihRight hfree k cond l r hparts
    rw [Expr.definitions, functionless_append] at hfree
    rw [comparison] at hparts
    obtain ⟨_, -, heq⟩ := Option.map_eq_some_iff.1 hparts
    cases heq
    exact ⟨(steady_pushed k).value (ihLeft hfree.1 k), (steady_pushed k).value (ihRight hfree.2 k)⟩
  case noComparison =>
    intro e hother _ _ cond l r hparts
    rw [comparison] at hparts
    · cases hparts
    · exact hother
  case storeName =>
    intro info name scope r _ k
    rw [store]
    exact (steady_pushed k).location fun place hplace => (steady_pushed k).emit hplace
  case storeAt =>
    intro info address r ih hfree k
    have h := steady_pushed k
    rw [Expr.definitions] at hfree
    rw [store]
    exact maintains_bind (h.value (ih hfree k)) fun p => maintains_bind (h.emit rfl) fun _ => h.free p
  case storeOther =>
    intro e r hname hderef _ k
    rw [store]
    · exact (steady_pushed k).throw _
    · exact hname
    · exact hderef
  case retNone =>
    intro _ k
    rw [stmt]
    exact (steady_pushed k).returnCode (by rintro _ ⟨⟩)
  case ret =>
    intro e ih hfree k
    rw [Stmt.definitions, optionalDefinitions] at hfree
    rw [stmt]
    refine (steady_pushed k).returnCode ?_
    rintro _ ⟨⟩
    exact (steady_pushed k).value (ih hfree k)
  case stmtExpr =>
    intro e ih hfree k
    rw [Stmt.definitions] at hfree
    rw [stmt]
    exact maintains_bind (ih hfree k) fun _ => (steady_pushed k).freeAll
  case varDecl => intro name _ k; rw [stmt]; exact maintains_pure _
  case globalDecl => intro name _ k; rw [stmt]; exact (steady_pushed k).globalCode name
  case block =>
    intro stmts ih hfree
    rw [Stmt.definitions] at hfree
    rw [stmt]
    exact ih hfree
  case prototype => intro name _ k; rw [stmt]; exact maintains_pure _
  case function =>
    intro name body ih hfree
    rw [Stmt.definitions] at hfree
    exact absurd List.mem_cons_self (hfree name)
  case noneDiscarded => intro _ k; rw [discarded]; exact maintains_pure _
  case discarded =>
    intro e ih hfree k
    rw [optionalDefinitions] at hfree
    rw [discarded]
    exact maintains_bind (ih hfree k) fun _ => (steady_pushed k).freeAll
  case noArguments => intro _; rw [arguments]; exact fun _ _ h => h
  case arguments =>
    intro arg args ihArg ihArgs hfree
    rw [exprDefinitions, functionless_append] at hfree
    rw [arguments]
    exact raises_arguments (fun k => (steady_pushed k).value (ihArg hfree.1 k)) (ihArgs hfree.2)
  case noStmts => intro _ k; rw [stmtList]; exact maintains_pure _
  case stmts =>
    intro s rest ih ihRest hfree k
    rw [stmtDefinitions, functionless_append] at hfree
    rw [stmtList]
    exact maintains_bind (ih hfree.1 k) fun _ => ihRest hfree.2 k

end Lower

end MiniC
