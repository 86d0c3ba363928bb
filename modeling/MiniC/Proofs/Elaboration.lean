import MiniC.Proofs.ParseFrame
import MiniC.Proofs.ProgramGrammar

/-!
# How trees come about

`Builds f c e c'` lists the ways in which the rules of `Typing` build an expression `e` in the body of `f`: the context
is `c` before and `c'` after, so the rules see the symbols of the moment and every string takes the label of the moment.
`BuildsStmt` and `BuildsItems` do the same for statements and programs, where contexts also grow by declarations. Only
the tokens are left out.

The parser gives nothing but such trees: `expression_builds`, `statements_build`, `items_build`. What holds of all trees
of programs is proved by induction on how they come about, and not on the parser.
-/

namespace MiniC

/-! ## Expressions -/

mutual

/-- The expression comes about in the body of `f`. -/
inductive Builds (f : String) : Context → Expr → Context → Prop where
  | number {c : Context} (value : Int) (line : Nat) : Builds f c (.ofInt value line) c
  | string {c : Context} (line : Nat) (bytes : List UInt8) :
      Builds f c (.string { ty := .pointer .char, line } c.nextLabel bytes) c.drawLabel.2
  | name {c : Context} {name : String} {line : Nat} {e : Expr} (rule : Typing.name ⟨c.symbols, f⟩ name line = .ok e) :
      Builds f c e c
  | index {c c' : Context} {name : String} {line : Nat} {base index e : Expr}
      (named : Typing.name ⟨c.symbols, f⟩ name line = .ok base) (inner : Builds f c index c')
      (rule : Typing.index base name index = .ok e) : Builds f c e c'
  | call {c c' : Context} {name : String} {line : Nat} {ret : Ty} {params : List Ty} {args : List Expr} {e : Expr}
      (callee : Typing.callee ⟨c.symbols, f⟩ name = .ok (ret, params)) (inner : BuildsAll f c args c')
      (rule : Typing.call name ret params args line = .ok e) : Builds f c e c'
  | unary {c c' : Context} {op : UnaryOp} {operand e : Expr} (inner : Builds f c operand c')
      (rule : Typing.unary ⟨c'.symbols, f⟩ op operand = .ok e) : Builds f c e c'
  | binary {c c₁ c' : Context} {op : BinaryOp} {left right e : Expr} {line : Nat} (first : Builds f c left c₁)
      (second : Builds f c₁ right c') (rule : Typing.binary ⟨c'.symbols, f⟩ op left right line = .ok e) : Builds f c e c'

/-- The expressions come about one after another. -/
inductive BuildsAll (f : String) : Context → List Expr → Context → Prop where
  | nil {c : Context} : BuildsAll f c [] c
  | cons {c c₁ c' : Context} {e : Expr} {es : List Expr} (first : Builds f c e c₁) (rest : BuildsAll f c₁ es c') :
      BuildsAll f c (e :: es) c'

end

/-- The expression comes about and has a truth value. -/
structure BuildsTest (f : String) (c : Context) (e : Expr) (c' : Context) : Prop where
  built : Builds f c e c'
  rule : Typing.condition e = .ok e

/-- There is nothing, or it comes about as `B` says. -/
inductive Optionally (B : Context → Expr → Context → Prop) : Context → Option Expr → Context → Prop where
  | none {c : Context} : Optionally B c none c
  | some {c c' : Context} {e : Expr} (built : B c e c') : Optionally B c (some e) c'

/-! ## Statements -/

/-- The declaration of a local of `owner`, or of a global. -/
inductive BuildsDecl : Option String → Context → Stmt → Context → Prop where
  | varDecl {c : Context} {f name : String} {ty ty' : Ty} {size : Option Int} {kind : SymbolKind} {count : Int}
      {t : SymbolTable} (rule : Typing.declared name ty size = .ok (kind, ty', count))
      (typed : Typing.variableType name ty' = .ok ()) (entered : c.symbols.declareLocal f name kind ty' count = .ok t) :
      BuildsDecl (some f) c (.varDecl name) { c with symbols := t }
  | globalDecl {c : Context} {name : String} {ty ty' : Ty} {size : Option Int} {kind : SymbolKind} {count : Int}
      {t : SymbolTable} (rule : Typing.declared name ty size = .ok (kind, ty', count))
      (typed : Typing.variableType name ty' = .ok ()) (entered : c.symbols.declareGlobal name kind ty' none count = .ok t) :
      BuildsDecl none c (.globalDecl name) { c with symbols := t }

mutual

/-- The statement comes about in the body of `f`. -/
inductive BuildsStmt (f : String) : Context → Stmt → Context → Prop where
  | retNone {c : Context} {ty : Ty} {stmt : Stmt} (type : Typing.returnType ⟨c.symbols, f⟩ = .ok ty)
      (rule : Typing.returnNothing f ty = .ok stmt) : BuildsStmt f c stmt c
  | ret {c c' : Context} {ty : Ty} {value : Expr} {stmt : Stmt} (type : Typing.returnType ⟨c.symbols, f⟩ = .ok ty)
      (inner : Builds f c value c') (rule : Typing.returnValue f ty value = .ok stmt) : BuildsStmt f c stmt c'
  | expr {c c' : Context} {e : Expr} (inner : Builds f c e c') : BuildsStmt f c (.expr e) c'
  | declaration {c c' : Context} {owner : Option String} {stmt : Stmt} (own : ∀ g, owner = some g → g = f)
      (entered : BuildsDecl owner c stmt c') : BuildsStmt f c stmt c'
  | block {c c' : Context} {stmts : List Stmt} (inner : BuildsStmts f c stmts c') : BuildsStmt f c (.block stmts) c'
  | ifThen {c c₁ c' : Context} {info : Info} {cond : Expr} {yes : Stmt} (test : BuildsTest f c cond c₁)
      (first : BuildsStmt f c₁ yes c') : BuildsStmt f c (.expr (.ifElse info cond yes none)) c'
  | ifElse {c c₁ c₂ c' : Context} {info : Info} {cond : Expr} {yes no : Stmt} (test : BuildsTest f c cond c₁)
      (first : BuildsStmt f c₁ yes c₂) (second : BuildsStmt f c₂ no c') :
      BuildsStmt f c (.expr (.ifElse info cond yes (some no))) c'
  | whileLoop {c c₁ c' : Context} {info : Info} {cond : Expr} {body : Stmt} (test : BuildsTest f c cond c₁)
      (inner : BuildsStmt f c₁ body c') : BuildsStmt f c (.expr (.whileLoop info cond body)) c'
  | forLoop {c c₁ c₂ c₃ c' : Context} {info : Info} {init cond post : Option Expr} {body : Stmt}
      (start : Optionally (Builds f) c init c₁) (test : Optionally (BuildsTest f) c₁ cond c₂)
      (next : Optionally (Builds f) c₂ post c₃) (inner : BuildsStmt f c₃ body c') :
      BuildsStmt f c (.expr (.forLoop info init cond post body)) c'

/-- The statements come about one after another. -/
inductive BuildsStmts (f : String) : Context → List Stmt → Context → Prop where
  | nil {c : Context} : BuildsStmts f c [] c
  | cons {c c₁ c' : Context} {stmt : Stmt} {stmts : List Stmt} (first : BuildsStmt f c stmt c₁)
      (rest : BuildsStmts f c₁ stmts c') : BuildsStmts f c (stmt :: stmts) c'

end

/-! ## Items -/

/-- The item comes about; the heads of functions are those that `H` allows. -/
inductive BuildsItem (H : Head → Prop) : Context → Stmt → Context → Prop where
  | declaration {c c' : Context} {stmt : Stmt} (entered : BuildsDecl none c stmt c') : BuildsItem H c stmt c'
  | prototype {c c' : Context} {head : Head} (allowed : H head) (entered : head.declare false c = .ok () c') :
      BuildsItem H c (.prototype head.name) c'
  | function {c c₁ c' : Context} {head : Head} {body : Stmt} (allowed : H head)
      (entered : head.declare true c = .ok () c₁) (inner : BuildsStmt head.name c₁ body c') :
      BuildsItem H c (.function head.name body) c'

/-- The items come about one after another. -/
inductive BuildsItems (H : Head → Prop) : Context → List Stmt → Context → Prop where
  | nil {c : Context} : BuildsItems H c [] c
  | cons {c c₁ c' : Context} {item : Stmt} {items : List Stmt} (first : BuildsItem H c item c₁)
      (rest : BuildsItems H c₁ items c') : BuildsItems H c (item :: items) c'

namespace Parse

variable {f : String}

/-- A success has built its value as `B` says, from the context of `s` on. -/
def Built {n : Nat} {α : Type} (B : Context → α → Context → Prop) (s : State) (r : Result n α) : Prop :=
  r.Ends (fun a s' => B s.context a s'.context) fun _ _ => True

section Chaining

variable {m n : Nat} {α β : Type} {s : State} {B : Context → α → Context → Prop} {Q : β → State → Prop}

/-- Go on from what has been built. -/
theorem built_bind {r : Result m α} {k : α → (s : State) → s.size < m → Result (s.size + 1) β} (hr : Built B s r)
    (hk : ∀ a s₁ h, B s.context a s₁.context → (k a s₁ h).Ends Q fun _ _ => True) :
    (r.bind k).Ends Q fun _ _ => True := Result.ends_bind hr hk

theorem built_andThen {r : Result m α} {k : α → (s : State) → s.size < m → Result (s.size + 1) β} (hr : Built B s r)
    (hk : ∀ a s₁ h, B s.context a s₁.context → (k a s₁ h).Ends Q fun _ _ => True) :
    (r.andThen k).Ends Q fun _ _ => True := Result.ends_andThen hr hk

/-- A token builds nothing. -/
theorem built_need {read : Token → Option α} {cause : String → GrammarFault} :
    Built (fun c _ c' => c' = c) s (s.need read cause) :=
  ends_need (fun _ _ _ _ _ h => h) fun _ => trivial

theorem built_expect {terminal : Terminal} : Built (fun c _ c' => c' = c) s (s.expect terminal) := built_need

theorem built_demand {line : Nat} {verdict : Except SemanticFault α} {k : α → Result n β}
    (hk : ∀ a, verdict = .ok a → (k a).Ends Q fun _ _ => True) : (s.demand line verdict k).Ends Q fun _ _ => True :=
  ends_demand hk fun _ => trivial

theorem built_perform {work : CompileM α} : Built (fun c a c' => work c = .ok a c') s (s.perform work) := by
  unfold Built State.perform
  cases hwork : work s.context with
  | ok a c => exact hwork
  | error fault c => exact trivial

theorem built_drawLabel : Built (fun c label c' => label = c.nextLabel ∧ c' = c.drawLabel.2) s
    (s.perform CompileM.drawLabel) := ⟨rfl, rfl⟩

end Chaining

/-! ## The parser builds expressions -/

theorem stringLiteral_builds (s : State) : Built (Builds f) s (stringLiteral s) := by
  unfold stringLiteral
  refine built_bind built_need fun t s₁ _ h₁ => ?_
  split
  · next bytes _ =>
    refine built_bind built_drawLabel fun label s₂ _ h₂ => ?_
    rw [h₁] at h₂
    show Builds f s.context _ s₂.context
    rw [h₂.1, h₂.2]
    exact .string t.line bytes
  · exact trivial

/-- **Expressions.** What the expression grammar gives comes about by the typing rules. -/
theorem grammar_builds (f : String) :
    (∀ floor s, Built (Builds f) s (binary f floor s)) ∧
    (∀ floor left s, ∀ c, Builds f c left s.context →
      (operators f floor left s).Ends (fun e s' => Builds f c e s'.context) fun _ _ => True) ∧
    (∀ s, Built (Builds f) s (unary f s)) ∧ (∀ s, Built (Builds f) s (primary f s)) ∧
    (∀ name line s, Built (Builds f) s (named f name line s)) ∧ (∀ s, Built (BuildsAll f) s (arguments f s)) ∧
    (∀ s, Built (BuildsAll f) s (moreArguments f s)) := by
  refine binary.mutual_induct _ _ _ _ _ _ _
    ?binary ?operator ?noOperator ?unaryOp ?noUnaryOp ?parens ?number ?string ?name ?noPrimary ?call ?notCall ?noArgs
    ?someArgs ?moreArgs
  case binary =>
    intro floor s ihUnary ihOperators
    rw [binary]
    exact built_bind ihUnary fun left s₁ h₁ hleft => ihOperators left s₁ h₁ s.context hleft
  case operator =>
    intro floor left s t ht ihRight ihRest c hleft
    rw [operators, ht]
    rw [← context_of_take ht] at hleft
    refine Taken.ends_andThen (built_andThen (ihRight t.value t.next t.shorter) fun right s₂ h₂ hright => ?_)
    exact built_demand fun e he => ihRest t.next t.shorter s₂ h₂ e c (.binary hleft hright he)
  case noOperator =>
    intro floor left s ht c hleft
    rw [operators, ht]
    exact hleft
  case unaryOp =>
    intro s t ht ihOperand
    rw [unary, ht]
    refine Taken.ends_bind (built_andThen (ihOperand t.next t.shorter) fun operand s₂ _ hoperand => ?_)
    rw [context_of_take ht] at hoperand
    exact built_demand fun e he => .unary hoperand he
  case noUnaryOp =>
    intro s ht ihPrimary
    rw [unary, ht]
    exact ihPrimary
  case parens =>
    intro s t ht ihInner
    rw [primary, ht]
    refine Taken.ends_bind (built_andThen (ihInner t.next t.shorter) fun e s₂ _ he => ?_)
    rw [context_of_accept ht] at he
    exact built_andThen built_expect fun _ s₃ _ h₃ => (h₃ ▸ he : Builds f s.context e s₃.context)
  case number =>
    intro s hparens hkind
    rw [primary, hparens, hkind]
    exact built_bind built_need fun value s₁ _ h₁ => (h₁ ▸ .number value s.line : Builds f s.context _ s₁.context)
  case string =>
    intro s hparens hkind
    rw [primary, hparens, hkind]
    exact stringLiteral_builds s
  case name =>
    intro s hparens hkind ihNamed
    rw [primary, hparens, hkind]
    refine built_bind built_need fun p s₁ h₁ hcontext => ?_
    rw [← hcontext]
    exact ihNamed s₁ h₁ p.1 p.2
  case noPrimary =>
    intro s hparens hnumber hstring hident
    rw [primary, hparens]
    simp only
    exact trivial
  case call =>
    intro name line s hsees ihArgs
    rw [named, if_pos hsees]
    refine built_demand ?_
    rintro ⟨ret, params⟩ hcallee
    refine built_andThen built_expect fun _ s₁ h₁ hcontext => ?_
    refine built_andThen (ihArgs s₁ h₁) fun args s₂ _ hargs => ?_
    rw [hcontext] at hargs
    exact built_demand fun e he => .call hcallee hargs he
  case notCall =>
    intro name line s hsees ihIndex
    rw [named, if_neg hsees]
    refine built_demand fun base hbase => ?_
    cases hbracket : s.accept? (.punct "[") with
    | some t =>
      refine Taken.ends_andThen (built_andThen (ihIndex t.next t.shorter) fun index s₂ _ hindex => ?_)
      rw [context_of_accept hbracket] at hindex
      refine built_andThen built_expect fun _ s₃ _ h₃ => built_demand fun e he => ?_
      exact (h₃ ▸ .index hbase hindex he : Builds f s.context e s₃.context)
    | none =>
      cases hstep : s.take? trailingStep? with
      | some t =>
        refine Taken.ends_andThen (built_demand fun e he => ?_)
        have he : Typing.unary ⟨t.next.context.symbols, f⟩ (.step .after t.value) base = .ok e := he
        have hcontext := context_of_take hstep
        have hnamed : Builds f s.context base t.next.context := by
          rw [hcontext]
          exact .name hbase
        exact .unary hnamed he
      | none => exact .name hbase
  case noArgs =>
    intro s t ht
    rw [arguments, ht]
    exact Taken.ends_bind (context_of_accept ht ▸ .nil)
  case someArgs =>
    intro s ht ihMore
    rw [arguments, ht]
    exact ihMore
  case moreArgs =>
    intro s ihArg ihMore
    rw [moreArguments]
    refine built_bind ihArg fun arg s₁ h₁ harg => ?_
    cases hcomma : s₁.accept? (.punct ",") with
    | some t =>
      refine Taken.ends_andThen (built_andThen (ihMore s₁ h₁ t.next t.shorter) fun args s₃ _ hargs => ?_)
      rw [context_of_accept hcomma] at hargs
      exact .cons harg hargs
    | none =>
      exact built_andThen built_expect fun _ s₂ _ h₂ => (h₂ ▸ .cons harg .nil : BuildsAll f s.context [arg] s₂.context)

theorem expression_builds (f : String) (s : State) : Built (Builds f) s (expression f s) := (grammar_builds f).1 0 s

theorem condition_builds (f : String) (s : State) : Built (BuildsTest f) s (condition f s) := by
  refine built_bind (expression_builds f s) fun e s₁ _ he => built_demand fun e' he' => ?_
  obtain rfl := condition_node he'
  exact ⟨he, he'⟩

/-! ## The parser builds statements -/

theorem type_builds (s : State) : Built (fun c _ c' => c' = c) s (type s) := by
  unfold type
  refine built_bind built_need fun base s₁ _ h₁ => ?_
  cases hstar : s₁.accept? (.punct "*") with
  | some t => exact Taken.ends_andThen ((context_of_accept hstar).trans h₁)
  | none => exact h₁

theorem arraySize_builds (s : State) : Built (fun c _ c' => c' = c) s (arraySize s) := by
  unfold arraySize
  cases hbracket : s.accept? (.punct "[") with
  | some t =>
    refine Taken.ends_andThen (built_andThen built_need fun count s₂ _ h₂ => ?_)
    exact built_andThen built_expect fun _ s₃ _ h₃ => (h₃.trans h₂).trans (context_of_accept hbracket)
  | none => exact rfl

theorem declare_eq {line : Nat} {change : SymbolTable → Except SemanticFault SymbolTable} {c c' : Context} {u : Unit}
    (h : CompileM.declare line change c = .ok u c') : ∃ t, change c.symbols = .ok t ∧ c' = { c with symbols := t } := by
  have hends : Ends (CompileM.declare line change) c (fun _ c' => ∃ t, change c.symbols = .ok t ∧
      c' = { c with symbols := t }) fun _ _ => True := ends_declare (fun t ht => ⟨t, ht, rfl⟩) fun _ => trivial
  exact ends_of_ok hends h

theorem declaration_builds (owner : Option String) (s : State) : Built (BuildsDecl owner) s (declaration owner s) := by
  unfold declaration
  refine built_bind (type_builds s) fun ty s₁ _ h₁ => built_andThen built_need fun p s₂ _ h₂ => ?_
  refine built_bind (arraySize_builds s₂) fun size s₃ _ h₃ => built_demand ?_
  rintro ⟨kind, ty', count⟩ hdeclared
  refine built_andThen built_expect fun _ s₄ _ h₄ => built_demand fun _ hvariable => ?_
  have hcontext : s₄.context = s.context := ((h₄.trans h₃).trans h₂).trans h₁
  cases owner with
  | some f =>
    refine built_bind built_perform fun _ s₅ _ h₅ => ?_
    obtain ⟨t, ht, hs₅⟩ := declare_eq h₅
    rw [hcontext] at ht hs₅
    show BuildsDecl (some f) s.context _ s₅.context
    rw [hs₅]
    exact .varDecl hdeclared hvariable ht
  | none =>
    refine built_bind built_perform fun _ s₅ _ h₅ => ?_
    obtain ⟨t, ht, hs₅⟩ := declare_eq h₅
    rw [hcontext] at ht hs₅
    show BuildsDecl none s.context _ s₅.context
    rw [hs₅]
    exact .globalDecl hdeclared hvariable ht

theorem returned_builds (f : String) (s : State) : Built (BuildsStmt f) s (returned f s) := by
  unfold returned
  refine built_demand fun ty hty => ?_
  cases hclose : s.accept? (.punct ";") with
  | some t =>
    refine Taken.ends_bind (built_demand fun stmt hstmt => ?_)
    show BuildsStmt f s.context stmt t.next.context
    rw [context_of_accept hclose]
    exact .retNone hty hstmt
  | none =>
    refine built_bind (expression_builds f s) fun value s₁ _ hvalue => built_andThen built_expect fun _ s₂ _ h₂ => ?_
    exact built_demand fun stmt hstmt => (h₂ ▸ .ret hty hvalue hstmt : BuildsStmt f s.context stmt s₂.context)

theorem parenthesised_builds (f : String) (s : State) : Built (BuildsTest f) s (parenthesised f s) := by
  refine built_bind built_expect fun _ s₁ _ h₁ => built_andThen (condition_builds f s₁) fun cond s₂ _ hcond => ?_
  rw [h₁] at hcond
  exact built_andThen built_expect fun _ s₃ _ h₃ => (h₃ ▸ hcond : BuildsTest f s.context cond s₃.context)

theorem clause_builds {B : Context → Expr → Context → Prop} {close : Terminal} {s : State}
    {parse : (s : State) → Result s.size Expr} (hparse : Built B s (parse s)) :
    Built (Optionally B) s (clause close parse s) := by
  unfold clause
  cases hclose : s.accept? close with
  | some t => exact Taken.ends_bind (context_of_accept hclose ▸ .none)
  | none =>
    refine built_bind hparse fun e s₁ _ he => built_andThen built_expect fun _ s₂ _ h₂ => ?_
    exact (h₂ ▸ .some he : Optionally B s.context (some e) s₂.context)

/-- The clauses of a loop come about one after another. -/
def BuildsClauses (f : String) (c : Context) (clauses : Option Expr × Option Expr × Option Expr) (c' : Context) : Prop :=
  ∃ c₁ c₂, Optionally (Builds f) c clauses.1 c₁ ∧ Optionally (BuildsTest f) c₁ clauses.2.1 c₂ ∧
    Optionally (Builds f) c₂ clauses.2.2 c'

theorem clauses_build (f : String) (s : State) : Built (BuildsClauses f) s (clauses f s) := by
  refine built_bind built_expect fun _ s₁ _ h₁ => ?_
  refine built_andThen (clause_builds (expression_builds f s₁)) fun init s₂ _ hinit => ?_
  refine built_andThen (clause_builds (condition_builds f s₂)) fun cond s₃ _ hcond => ?_
  refine built_andThen (clause_builds (expression_builds f s₃)) fun post s₄ _ hpost => ?_
  rw [h₁] at hinit
  exact ⟨_, _, hinit, hcond, hpost⟩

/-- **Statements.** What the statement grammar gives comes about by the rules for statements. -/
theorem statements_build (f : String) :
    (∀ s, Built (BuildsStmt f) s (statement f s)) ∧ (∀ s, Built (BuildsStmts f) s (statements f s)) := by
  refine statement.mutual_induct _ _ ?lead ?noLead ?close ?atEnd ?more
  case lead =>
    intro s t ht ihFirst ihSecond ihBlock
    rw [statement, ht]
    refine Taken.ends_bind ?_
    rw [← context_of_take ht]
    split
    · exact trivial
    · exact Result.ends_relax (returned_builds f t.next)
    · next isGlobal _ =>
      refine Result.ends_relax (Result.ends_mono (declaration_builds _ t.next) (fun stmt s' h => ?_) fun _ _ h => h)
      refine .declaration (fun g hg => ?_) h
      cases isGlobal <;> cases hg
      rfl
    · refine built_andThen (parenthesised_builds f t.next) fun cond s₂ h₂ hcond => ?_
      refine built_andThen (ihFirst t.next t.shorter s₂ h₂) fun yes s₃ h₃ hyes => ?_
      cases helse : s₃.accept? (.keyword "else") with
      | none => exact .ifThen hcond hyes
      | some u =>
        rw [← context_of_accept helse] at hyes
        refine Taken.ends_andThen ?_
        exact built_andThen (ihSecond t.next t.shorter s₂ h₂ s₃ h₃ u.next u.shorter) fun no s₅ _ hno => .ifElse hcond hyes hno
    · refine built_andThen (parenthesised_builds f t.next) fun cond s₂ h₂ hcond => ?_
      exact built_andThen (ihFirst t.next t.shorter s₂ h₂) fun body s₃ _ hbody => .whileLoop hcond hbody
    · refine built_andThen (clauses_build f t.next) fun clauses s₂ h₂ hclauses => ?_
      obtain ⟨c₁, c₂, hinit, hcond, hpost⟩ := hclauses
      exact built_andThen (ihFirst t.next t.shorter s₂ h₂) fun body s₃ _ hbody => .forLoop hinit hcond hpost hbody
    · exact built_andThen (ihBlock t.next t.shorter) fun stmts s₂ _ hstmts => .block hstmts
  case noLead =>
    intro s ht
    rw [statement, ht]
    refine built_bind (expression_builds f s) fun e s₁ _ he => built_andThen built_expect fun _ s₂ _ h₂ => ?_
    show BuildsStmt f s.context _ s₂.context
    rw [h₂]
    exact .expr he
  case close =>
    intro s t ht
    rw [statements, ht]
    exact Taken.ends_bind (context_of_accept ht ▸ .nil)
  case atEnd =>
    intro s ht hend
    rw [statements, ht, if_pos hend]
    exact trivial
  case more =>
    intro s ht hend ihStmt ihRest
    rw [statements, ht, if_neg hend]
    refine built_bind ihStmt fun stmt s₁ h₁ hstmt => ?_
    exact built_andThen (ihRest s₁ h₁) fun stmts s₂ _ hstmts => .cons hstmt hstmts

theorem block_builds (f : String) (s : State) : Built (BuildsStmt f) s (block f s) := by
  refine built_bind built_expect fun _ s₁ _ h₁ => ?_
  rw [← h₁]
  exact built_andThen ((statements_build f).2 s₁) fun stmts s₂ _ hstmts => .block hstmts

/-! ## The parser builds programs -/

open Grammar

/-- The head of a function stands among the tokens, after `func`. -/
def HeadAt (tokens : List Token) (head : Signature) : Prop :=
  ∃ u t w v, tokens = u ++ t :: (w ++ v) ∧ t.is (.keyword "func") ∧ Heading w head

theorem moreParams_build (s : State) : Built (fun c _ c' => c' = c) s (moreParams s) := by
  induction s using moreParams.induct with
  | case1 s ih =>
    rw [moreParams]
    refine built_bind (type_builds s) fun ty s₁ h₁ hty => built_andThen built_need fun p s₂ h₂ hname => ?_
    refine built_demand fun _ _ => ?_
    cases hcomma : s₂.accept? (.punct ",") with
    | some t =>
      refine Taken.ends_andThen (built_andThen (ih s₁ h₁ s₂ h₂ t.next t.shorter) fun params s₄ _ hparams => ?_)
      exact ((hparams.trans (context_of_accept hcomma)).trans hname).trans hty
    | none => exact built_andThen built_expect fun _ s₃ _ h₃ => (h₃.trans hname).trans hty

theorem params_build (s : State) : Built (fun c _ c' => c' = c) s (params s) := by
  unfold params
  cases hclose : s.accept? (.punct ")") with
  | some t => exact Taken.ends_bind (context_of_accept hclose)
  | none => exact moreParams_build s

/-- A head builds nothing and stands where it was read. -/
theorem head_builds {tokens u : List Token} {t : Token} {s : State} (htokens : tokens = u ++ t :: s.tokens)
    (ht : t.is (.keyword "func")) :
    (head s).Ends (fun head s' => s'.context = s.context ∧ HeadAt tokens head.signature) fun _ _ => True := by
  have hcontext : Built (fun c _ c' => c' = c) s (head s) := by
    refine built_bind built_need fun p s₁ _ h₁ => built_andThen built_expect fun _ s₂ _ h₂ => ?_
    refine built_andThen (params_build s₂) fun params s₃ _ h₃ => built_demand fun _ _ => ?_
    refine built_andThen built_expect fun _ s₄ _ h₄ => built_andThen (type_builds s₄) fun ret s₅ _ h₅ => ?_
    exact (((h₅.trans h₄).trans h₃).trans h₂).trans h₁
  have hat : (head s).Ends (fun head _ => HeadAt tokens head.signature) fun _ _ => True := by
    refine Result.ends_mono (reads_head s) (fun head s' h => ?_) fun _ _ _ => trivial
    obtain ⟨w, hw⟩ := h
    exact ⟨u, t, w, s'.tokens, by rw [htokens, hw.consumed.split], ht, hw.derived⟩
  exact Result.ends_and hcontext hat

theorem function_builds {tokens u : List Token} {t : Token} {s : State} (htokens : tokens = u ++ t :: s.tokens)
    (ht : t.is (.keyword "func")) :
    Built (BuildsItem fun head => HeadAt tokens head.signature) s (function s) := by
  unfold function
  refine Result.ends_bind (head_builds htokens ht) fun head s₁ _ h₁ => ?_
  obtain ⟨hcontext, hat⟩ := h₁
  cases hclose : s₁.accept? (.punct ";") with
  | some t =>
    refine Taken.ends_andThen (built_bind built_perform fun _ s₃ _ h₃ => ?_)
    rw [context_of_accept hclose, hcontext] at h₃
    exact .prototype hat h₃
  | none =>
    refine built_bind built_perform fun _ s₂ _ h₂ => ?_
    rw [hcontext] at h₂
    exact built_andThen (block_builds head.name s₂) fun body s₃ _ hbody => .function hat h₂ hbody

theorem item_builds {tokens : List Token} {s : State} (hs : s.tokens <:+ tokens) :
    Built (BuildsItem fun head => HeadAt tokens head.signature) s (item s) := by
  unfold item
  cases hfunc : s.accept? (.keyword "func") with
  | some t =>
    obtain ⟨token, htokens, htoken⟩ := tokens_of_accept hfunc
    obtain ⟨u, rfl⟩ := hs
    rw [htokens]
    refine Taken.ends_bind (Result.ends_relax ?_)
    rw [← context_of_accept hfunc]
    exact function_builds rfl htoken
  | none =>
    cases hkeyword : (s.accept? (.keyword "global")).or (s.accept? (.keyword "var")) with
    | some t =>
      have ht : t.next.context = s.context := by
        rcases Option.or_eq_some_iff.1 hkeyword with h | ⟨-, h⟩ <;> exact context_of_accept h
      refine Taken.ends_bind (Result.ends_relax ?_)
      rw [← ht]
      exact Result.ends_mono (declaration_builds none t.next) (fun _ _ h => .declaration h) fun _ _ h => h
    | none => exact trivial

theorem item_suffix (s : State) : (item s).Ends (fun _ s' => s'.tokens <:+ s.tokens) fun _ _ => True := by
  refine Result.ends_mono (reads_item s) (fun _ s' h => ?_) fun _ _ _ => trivial
  obtain ⟨w, hw⟩ := h
  rw [hw.consumed.split]
  exact List.suffix_append _ _

/-- **Programs.** What the parser gives comes about item by item, with heads that stand among the tokens. -/
theorem items_build {tokens : List Token} (s : State) (hs : s.tokens <:+ tokens) :
    Built (BuildsItems fun head => HeadAt tokens head.signature) s (items s) := by
  induction s using items.induct with
  | case1 s hend =>
    rw [items, if_pos hend]
    exact .nil
  | case2 s hend ih =>
    rw [items, if_neg hend]
    refine Result.ends_andThen (Result.ends_and (item_builds hs) (item_suffix s)) fun item s₁ h₁ hitem => ?_
    exact built_bind (ih s₁ h₁ (hitem.2.trans hs)) fun rest s₂ _ hrest => .cons hitem.1 hrest

end Parse

/-! ## Heads of functions -/

section Heads

variable {head : Head} {hasBody : Bool} {c : Context}

/-- A head that is entered agrees with an earlier one, or takes the next label. -/
theorem enter_ends : Ends (head.enter hasBody) c
    (fun isNew c' =>
      (isNew = false ∧ c' = c ∧ ∃ earlier, c.symbols.global? head.name = some earlier ∧
        Typing.agreement c.symbols earlier head.ret head.params.length hasBody = .ok ()) ∨
      (isNew = true ∧ ∃ t, c.symbols.declareGlobal head.name .function head.ret (some c.nextLabel) 1 = .ok t ∧
        c' = { symbols := t, nextLabel := c.nextLabel + 1 }))
    (fun _ c' => c' = c ∨ c' = c.drawLabel.2) := by
  unfold Head.enter
  refine ends_get_bind ?_
  cases hg : c.symbols.global? head.name with
  | some earlier =>
    simp only [hg]
    cases hagree : Typing.agreement c.symbols earlier head.ret head.params.length hasBody with
    | error cause => exact .inl rfl
    | ok _ => exact .inl ⟨rfl, rfl, earlier, rfl, hagree⟩
  | none =>
    simp only [hg]
    refine ends_bind (P := fun label c' => label = c.nextLabel ∧ c' = c.drawLabel.2) ⟨rfl, rfl⟩ ?_
    rintro _ _ ⟨rfl, rfl⟩
    refine ends_bind (ends_declare (Q := fun _ c' => ∃ t, c.symbols.declareGlobal head.name .function head.ret
      (some c.nextLabel) 1 = .ok t ∧ c' = { symbols := t, nextLabel := c.nextLabel + 1 }) (fun t ht => ⟨t, ht, rfl⟩)
      fun _ => .inr rfl) ?_
    rintro _ _ ⟨t, ht, rfl⟩
    exact .inr ⟨rfl, t, ht, rfl⟩

/-- The symbol of a parameter. -/
def Param.symbol (param : Param) : Symbol :=
  { name := param.name, scope := .parameter, kind := .variable, ty := param.ty }

/-- `c'` is `c` with nothing but `symbols` in the namespace of `name`. -/
structure Restarted (name : String) (c : Context) (symbols : List Symbol) (c' : Context) : Prop where
  globals : c'.symbols.globals = c.symbols.globals
  labels : c'.nextLabel = c.nextLabel
  others : ∀ g, g ≠ name → c'.symbols.namespace? g = c.symbols.namespace? g
  own : c'.symbols.namespace? name = some symbols

/-- The parameters of a head fill a namespace that was started over. -/
theorem params_restarted (name : String) (params : List Param) (c : Context) :
    Ends (params.forM fun param => CompileM.declare param.line (·.declareParameter name param.name param.ty))
      { c with symbols := c.symbols.openNamespace name }
      (fun _ c' => Restarted name c (params.map Param.symbol) c') (fun _ c' => ∃ symbols, Restarted name c symbols c') := by
  -- What is declared so far and what is left make up the whole list.
  let I : List Param → Context → Prop := fun rest c' =>
    ∃ before, params = before ++ rest ∧ Restarted name c (before.map Param.symbol) c'
  have hstart : I params { c with symbols := c.symbols.openNamespace name } :=
    ⟨[], rfl, rfl, rfl, fun g hg => by simp [SymbolTable.openNamespace, hg], by simp [SymbolTable.openNamespace]⟩
  refine ends_mono (ends_forM (I := I) (fun p rest c' hI => ?_) params _ hstart) (fun _ c' hI => ?_) fun _ _ h => h
  · obtain ⟨before, hparams, h⟩ := hI
    refine ends_declare (fun t ht => ?_) fun _ => ⟨_, h⟩
    obtain ⟨symbols, hn, -, rfl⟩ := SymbolTable.addMember_cases ht
    rw [h.own] at hn
    cases hn
    refine ⟨before ++ [p], by simp [hparams], h.globals, h.labels, fun g hg => ?_, ?_⟩
    · simp [hg, h.others g hg]
    · simp [Param.symbol]
  · obtain ⟨before, hparams, h⟩ := hI
    rw [List.append_nil] at hparams
    exact hparams ▸ h

end Heads

/-! ## What building leaves of a context -/

section Within

variable {R : Context → Context → Prop} {f : String}

mutual

/-- What holds across drawing labels holds across the building of an expression. -/
theorem Builds.within (h : Parse.Drawing R) : ∀ {c c' : Context} {e : Expr}, Builds f c e c' → R c c'
  | _, _, _, .number .. => h.refl _
  | _, _, _, .string .. => h.draw _
  | _, _, _, .name _ => h.refl _
  | _, _, _, .index _ inner _ => inner.within h
  | _, _, _, .call _ inner _ => inner.within h
  | _, _, _, .unary inner _ => inner.within h
  | _, _, _, .binary first second _ => h.trans (first.within h) (second.within h)

theorem BuildsAll.within (h : Parse.Drawing R) : ∀ {c c' : Context} {es : List Expr}, BuildsAll f c es c' → R c c'
  | _, _, _, .nil => h.refl _
  | _, _, _, .cons first rest => h.trans (first.within h) (rest.within h)

end

theorem Optionally.within (h : Parse.Drawing R) {B : Context → Expr → Context → Prop} {c c' : Context} {e : Option Expr}
    (hB : ∀ c e c', B c e c' → R c c') : Optionally B c e c' → R c c'
  | .none => h.refl _
  | .some built => hB _ _ _ built

theorem BuildsDecl.within (h : Parse.Declaring R) {owner : Option String} {c c' : Context} {stmt : Stmt} :
    BuildsDecl owner c stmt c' → R c c'
  | .varDecl _ _ entered => h.declareLocal entered
  | .globalDecl rule _ entered =>
    h.declareGlobal (by rcases declared_cases rule with ⟨rfl, -⟩ | ⟨rfl, -⟩ <;> decide) entered

mutual

/-- What holds across declaring variables holds across the building of a statement. -/
theorem BuildsStmt.within (h : Parse.Declaring R) : ∀ {c c' : Context} {stmt : Stmt}, BuildsStmt f c stmt c' → R c c'
  | _, _, _, .retNone .. => h.refl _
  | _, _, _, .ret _ inner _ => inner.within h.toDrawing
  | _, _, _, .expr inner => inner.within h.toDrawing
  | _, _, _, .declaration _ entered => entered.within h
  | _, _, _, .block inner => inner.within h
  | _, _, _, .ifThen test first => h.trans (test.built.within h.toDrawing) (first.within h)
  | _, _, _, .ifElse test first second =>
    h.trans (test.built.within h.toDrawing) (h.trans (first.within h) (second.within h))
  | _, _, _, .whileLoop test inner => h.trans (test.built.within h.toDrawing) (inner.within h)
  | _, _, _, .forLoop start test next inner =>
    h.trans (start.within h.toDrawing fun _ _ _ b => b.within h.toDrawing)
      (h.trans (test.within h.toDrawing fun _ _ _ b => b.built.within h.toDrawing)
        (h.trans (next.within h.toDrawing fun _ _ _ b => b.within h.toDrawing) (inner.within h)))

theorem BuildsStmts.within (h : Parse.Declaring R) :
    ∀ {c c' : Context} {stmts : List Stmt}, BuildsStmts f c stmts c' → R c c'
  | _, _, _, .nil => h.refl _
  | _, _, _, .cons first rest => h.trans (first.within h) (rest.within h)

end

/-- What holds across declaring functions holds across the building of a program. -/
theorem BuildsItem.within (h : Parse.Defining R) {H : Head → Prop} {c c' : Context} {item : Stmt}
    (hitem : BuildsItem H c item c') : R c c' := by
  cases hitem with
  | declaration entered => exact entered.within h.toDeclaring
  | prototype _ entered =>
    have hhead := ends_of_ok (h.declareHead _ _ _) entered
    exact hhead
  | function _ entered inner =>
    have hhead := ends_of_ok (h.declareHead _ _ _) entered
    exact h.trans hhead (inner.within h.toDeclaring)

theorem BuildsItems.within (h : Parse.Defining R) {H : Head → Prop} {c c' : Context} {items : List Stmt}
    (hitems : BuildsItems H c items c') : R c c' := by
  induction hitems with
  | nil => exact h.refl _
  | cons first rest ih => exact h.trans (first.within h) ih

end Within

end MiniC
