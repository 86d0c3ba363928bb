import MiniC.Proofs.ParseProgram

/-!
# What parsing leaves of a context

A relation between contexts that holds across each single piece of work that parsing does on one holds across parsing
as a whole, whether that succeeds or fails. Expressions only draw labels (`Drawing`), statements also declare variables
(`Declaring`, or `DeclaringIn` for the body of one function), and items declare functions besides (`Defining`).

* `Drawing.expression`, `DeclaringIn.grammar`, `Defining.items`: the relation across each layer of the parser.
-/

namespace MiniC.Parse

/-- `R` holds from the state `s` to wherever the result ends. -/
def Within {n : Nat} {α : Type} (R : Context → Context → Prop) (s : State) (r : Result n α) : Prop :=
  r.Ends (fun _ s' => R s.context s'.context) (fun _ s' => R s.context s'.context)

/-- `R` holds across work that draws labels. -/
structure Drawing (R : Context → Context → Prop) : Prop where
  refl : ∀ c, R c c
  trans : ∀ {a b c}, R a b → R b c → R a c
  draw : ∀ c, R c c.drawLabel.2

/-- `R` holds across work that declares globals and locals of `owner`, if there is one. -/
structure DeclaringIn (owner : Option String) (R : Context → Context → Prop) : Prop extends Drawing R where
  declareLocal : ∀ {c f name kind ty count t}, owner = some f → c.symbols.declareLocal f name kind ty count = .ok t →
    R c { c with symbols := t }
  declareGlobal : ∀ {c name kind ty count t}, kind ≠ .function → c.symbols.declareGlobal name kind ty none count = .ok t →
    R c { c with symbols := t }

/-- `R` holds across work that declares variables. -/
structure Declaring (R : Context → Context → Prop) : Prop extends Drawing R where
  declareLocal : ∀ {c f name kind ty count t}, c.symbols.declareLocal f name kind ty count = .ok t →
    R c { c with symbols := t }
  declareGlobal : ∀ {c name kind ty count t}, kind ≠ .function → c.symbols.declareGlobal name kind ty none count = .ok t →
    R c { c with symbols := t }

/-- `R` holds across work that declares functions. -/
structure Defining (R : Context → Context → Prop) : Prop extends Declaring R where
  declareHead : ∀ (c : Context) (head : Head) (hasBody : Bool),
    Ends (head.declare hasBody) c (fun _ c' => R c c') (fun _ c' => R c c')

theorem Declaring.within {R : Context → Context → Prop} (h : Declaring R) (owner : Option String) : DeclaringIn owner R where
  toDrawing := h.toDrawing
  declareLocal _ := h.declareLocal
  declareGlobal := h.declareGlobal

variable {R : Context → Context → Prop} {m n : Nat} {α β : Type} {s s₁ : State}

/-! ## Putting parsers together -/

namespace Drawing

theorem bind (h : Drawing R) {r : Result m α} {k : α → (s : State) → s.size < m → Result (s.size + 1) β}
    (hr : Within R s r) (hk : ∀ a s₁ h, Within R s₁ (k a s₁ h)) : Within R s (r.bind k) :=
  Result.ends_bind hr fun a s₁ h₁ hr => Result.ends_mono (hk a s₁ h₁) (fun _ _ => h.trans hr) fun _ _ => h.trans hr

theorem andThen (h : Drawing R) {r : Result m α} {k : α → (s : State) → s.size < m → Result (s.size + 1) β}
    (hr : Within R s r) (hk : ∀ a s₁ h, Within R s₁ (k a s₁ h)) : Within R s (r.andThen k) :=
  Result.ends_relax (h.bind hr hk)

theorem taken {t : Taken m α} {k : α → (s : State) → s.size < m → Result (s.size + 1) β}
    (ht : t.next.context = s.context) (hk : Within R t.next (k t.value t.next t.shorter)) : Within R s (t.bind k) := by
  unfold Within at hk ⊢
  rw [ht] at hk
  exact Taken.ends_bind hk

theorem takenThen {t : Taken m α} {k : α → (s : State) → s.size < m → Result (s.size + 1) β}
    (ht : t.next.context = s.context) (hk : Within R t.next (k t.value t.next t.shorter)) : Within R s (t.andThen k) :=
  Result.ends_relax (taken ht hk)

theorem done (h : Drawing R) (a : α) (s : State) : Within R s (.done a s) := h.refl _

theorem need (h : Drawing R) (read : Token → Option α) (cause : String → GrammarFault) : Within R s (s.need read cause) :=
  ends_need (fun _ _ _ _ _ hnext => by rw [hnext]; exact h.refl _) fun _ => h.refl _

theorem expect (h : Drawing R) (terminal : Terminal) : Within R s (s.expect terminal) := h.need _ _

theorem demand (h : Drawing R) {line : Nat} {verdict : Except SemanticFault β} {k : β → Result n α}
    (hk : ∀ b, verdict = .ok b → Within R s (k b)) : Within R s (s.demand line verdict k) :=
  ends_demand hk fun _ => h.refl _

theorem perform {work : CompileM α} (hwork : Ends work s.context (fun _ c' => R s.context c') (fun _ c' => R s.context c')) :
    Within R s (s.perform work) := ends_perform hwork

/-! ## Expressions -/

theorem stringLiteral (h : Drawing R) (s : State) : Within R s (stringLiteral s) := by
  unfold Parse.stringLiteral
  refine Result.ends_bind (h.need string? _) fun t s₁ _ h₁ => ?_
  split
  · exact Result.ends_mono (h.bind (perform (s := s₁) (h.draw _)) fun label s₂ _ => h.done _ s₂)
      (fun _ _ => h.trans h₁) fun _ _ => h.trans h₁
  · exact h.refl _

theorem grammar (h : Drawing R) (f : String) :
    (∀ floor s, Within R s (binary f floor s)) ∧ (∀ floor left s, Within R s (operators f floor left s)) ∧
    (∀ s, Within R s (unary f s)) ∧ (∀ s, Within R s (primary f s)) ∧
    (∀ name line s, Within R s (named f name line s)) ∧ (∀ s, Within R s (arguments f s)) ∧
    (∀ s, Within R s (moreArguments f s)) := by
  refine binary.mutual_induct _ _ _ _ _ _ _
    ?binary ?operator ?noOperator ?unaryOp ?noUnaryOp ?parens ?number ?string ?name ?noPrimary ?call ?notCall ?noArgs
    ?someArgs ?moreArgs
  case binary =>
    intro floor s ihUnary ihOperators
    rw [binary]
    exact h.bind ihUnary ihOperators
  case operator =>
    intro floor left s t ht ihRight ihRest
    rw [operators, ht]
    refine takenThen (context_of_take ht) (h.andThen (ihRight t.value t.next t.shorter) fun right s₂ h₂ => ?_)
    exact h.demand fun e _ => ihRest t.next t.shorter s₂ h₂ e
  case noOperator =>
    intro floor left s ht
    rw [operators, ht]
    exact h.done left s
  case unaryOp =>
    intro s t ht ihOperand
    rw [unary, ht]
    refine taken (context_of_take ht) (h.andThen (ihOperand t.next t.shorter) fun operand s₂ _ => ?_)
    exact h.demand fun e _ => h.done e s₂
  case noUnaryOp =>
    intro s ht ihPrimary
    rw [unary, ht]
    exact ihPrimary
  case parens =>
    intro s t ht ihInner
    rw [primary, ht]
    refine taken (context_of_accept ht) (h.andThen (ihInner t.next t.shorter) fun e s₂ _ => ?_)
    exact h.andThen (h.expect _) fun _ s₃ _ => h.done e s₃
  case number =>
    intro s hparens hkind
    rw [primary, hparens, hkind]
    exact h.bind (h.need _ _) fun value s₁ _ => h.done _ s₁
  case string =>
    intro s hparens hkind
    rw [primary, hparens, hkind]
    exact h.stringLiteral s
  case name =>
    intro s hparens hkind ihNamed
    rw [primary, hparens, hkind]
    exact h.bind (h.need _ _) fun p s₁ h₁ => ihNamed s₁ h₁ p.1 p.2
  case noPrimary =>
    intro s hparens hnumber hstring hident
    rw [primary, hparens]
    simp only
    exact h.refl _
  case call =>
    intro name line s hsees ihArgs
    rw [named, if_pos hsees]
    refine h.demand fun callee _ => h.andThen (h.expect _) fun _ s₁ h₁ => ?_
    exact h.andThen (ihArgs s₁ h₁) fun args s₂ _ => h.demand fun e _ => h.done e s₂
  case notCall =>
    intro name line s hsees ihIndex
    rw [named, if_neg hsees]
    refine h.demand fun base _ => ?_
    cases hbracket : s.accept? (.punct "[") with
    | some t =>
      refine takenThen (context_of_accept hbracket) (h.andThen (ihIndex t.next t.shorter) fun index s₂ _ => ?_)
      exact h.andThen (h.expect _) fun _ s₃ _ => h.demand fun e _ => h.done e s₃
    | none =>
      cases hstep : s.take? trailingStep? with
      | some t => exact takenThen (context_of_take hstep) (h.demand fun e _ => h.done e t.next)
      | none => exact h.done base s
  case noArgs =>
    intro s t ht
    rw [arguments, ht]
    exact taken (context_of_accept ht) (h.done [] t.next)
  case someArgs =>
    intro s ht ihMore
    rw [arguments, ht]
    exact ihMore
  case moreArgs =>
    intro s ihArg ihMore
    rw [moreArguments]
    refine h.bind ihArg fun arg s₁ h₁ => ?_
    cases hcomma : s₁.accept? (.punct ",") with
    | some t =>
      exact takenThen (context_of_accept hcomma) (h.andThen (ihMore s₁ h₁ t.next t.shorter) fun args s₃ _ => h.done _ s₃)
    | none => exact h.andThen (h.expect _) fun _ s₂ _ => h.done [arg] s₂

theorem expression (h : Drawing R) (f : String) (s : State) : Within R s (expression f s) := (h.grammar f).1 0 s

theorem condition (h : Drawing R) (f : String) (s : State) : Within R s (condition f s) :=
  h.bind (h.expression f s) fun _ s₁ _ => h.demand fun e _ => h.done e s₁

/-! ## Types, conditions and clauses -/

theorem type (h : Drawing R) (s : State) : Within R s (type s) := by
  unfold Parse.type
  refine h.bind (h.need _ _) fun base s₁ _ => ?_
  cases hstar : s₁.accept? (.punct "*") with
  | some t => exact takenThen (context_of_accept hstar) (h.done _ t.next)
  | none => exact h.done _ s₁

theorem arraySize (h : Drawing R) (s : State) : Within R s (arraySize s) := by
  unfold Parse.arraySize
  cases hbracket : s.accept? (.punct "[") with
  | some t =>
    refine takenThen (context_of_accept hbracket) (h.andThen (h.need _ _) fun count s₂ _ => ?_)
    exact h.andThen (h.expect _) fun _ s₃ _ => h.done _ s₃
  | none => exact h.done none s

theorem returned (h : Drawing R) (f : String) (s : State) : Within R s (returned f s) := by
  unfold Parse.returned
  refine h.demand fun ty _ => ?_
  cases hclose : s.accept? (.punct ";") with
  | some t => exact taken (context_of_accept hclose) (h.demand fun stmt _ => h.done stmt t.next)
  | none =>
    refine h.bind (h.expression f s) fun value s₁ _ => h.andThen (h.expect _) fun _ s₂ _ => ?_
    exact h.demand fun stmt _ => h.done stmt s₂

theorem parenthesised (h : Drawing R) (f : String) (s : State) : Within R s (parenthesised f s) :=
  h.bind (h.expect _) fun _ s₁ _ => h.andThen (h.condition f s₁) fun cond _ _ =>
    h.andThen (h.expect _) fun _ s₃ _ => h.done cond s₃

theorem clause (h : Drawing R) {close : Terminal} {parse : (s : State) → Result s.size Expr}
    (hparse : Within R s (parse s)) : Within R s (clause close parse s) := by
  unfold Parse.clause
  cases hclose : s.accept? close with
  | some t => exact taken (context_of_accept hclose) (h.done none t.next)
  | none => exact h.bind hparse fun e _ _ => h.andThen (h.expect _) fun _ s₂ _ => h.done _ s₂

theorem clauses (h : Drawing R) (f : String) (s : State) : Within R s (clauses f s) := by
  unfold Parse.clauses
  refine h.bind (h.expect _) fun _ s₁ _ => h.andThen (h.clause (h.expression f s₁)) fun init s₂ _ => ?_
  refine h.andThen (h.clause (h.condition f s₂)) fun cond s₃ _ => ?_
  exact h.andThen (h.clause (h.expression f s₃)) fun post s₄ _ => h.done _ s₄

end Drawing

/-! ## Statements -/

namespace DeclaringIn

variable {f : String}

theorem declaration {owner owner' : Option String} (h : DeclaringIn owner R)
    (own : ∀ g, owner' = some g → owner = some g) (s : State) : Within R s (declaration owner' s) := by
  have hd := h.toDrawing
  unfold Parse.declaration
  refine hd.bind (hd.type s) fun ty s₁ _ => hd.andThen (hd.need _ _) fun p s₂ _ => ?_
  refine hd.bind (hd.arraySize s₂) fun size s₃ _ => hd.demand ?_
  rintro ⟨kind, ty', count⟩ hdeclared
  have hkind : kind ≠ .function := by rcases declared_cases hdeclared with ⟨rfl, -⟩ | ⟨rfl, -⟩ <;> decide
  refine hd.andThen (hd.expect _) fun _ s₄ _ => hd.demand fun _ _ => ?_
  cases owner' with
  | some function =>
    have hown := own function rfl
    refine hd.bind (Drawing.perform (ends_declare (fun t ht => h.declareLocal hown ht) fun _ => h.refl _)) fun _ s₅ _ => ?_
    exact hd.done _ s₅
  | none =>
    refine hd.bind (Drawing.perform (ends_declare (fun t ht => h.declareGlobal hkind ht) fun _ => h.refl _)) fun _ s₅ _ => ?_
    exact hd.done _ s₅

theorem grammar (h : DeclaringIn (some f) R) :
    (∀ s, Within R s (statement f s)) ∧ (∀ s, Within R s (statements f s)) := by
  have hd := h.toDrawing
  refine statement.mutual_induct _ _ ?lead ?noLead ?close ?atEnd ?more
  case lead =>
    intro s t ht ihFirst ihSecond ihBlock
    rw [statement, ht]
    refine Drawing.taken (context_of_take ht) ?_
    split
    · show R t.next.context s.context
      rw [context_of_take ht]
      exact h.refl _
    · exact Result.ends_relax (hd.returned f t.next)
    · next isGlobal _ =>
      refine Result.ends_relax (h.declaration (fun g hg => ?_) t.next)
      cases isGlobal <;> cases hg
      rfl
    · refine hd.andThen (hd.parenthesised f t.next) fun cond s₂ h₂ => ?_
      refine hd.andThen (ihFirst t.next t.shorter s₂ h₂) fun yes s₃ h₃ => ?_
      cases helse : s₃.accept? (.keyword "else") with
      | none => exact hd.done _ s₃
      | some u =>
        refine Drawing.takenThen (context_of_accept helse) ?_
        exact hd.andThen (ihSecond t.next t.shorter s₂ h₂ s₃ h₃ u.next u.shorter) fun no s₅ _ => hd.done _ s₅
    · refine hd.andThen (hd.parenthesised f t.next) fun cond s₂ h₂ => ?_
      exact hd.andThen (ihFirst t.next t.shorter s₂ h₂) fun body s₃ _ => hd.done _ s₃
    · refine hd.andThen (hd.clauses f t.next) fun parts s₂ h₂ => ?_
      exact hd.andThen (ihFirst t.next t.shorter s₂ h₂) fun body s₃ _ => hd.done _ s₃
    · exact hd.andThen (ihBlock t.next t.shorter) fun stmts s₂ _ => hd.done _ s₂
  case noLead =>
    intro s ht
    rw [statement, ht]
    exact hd.bind (hd.expression f s) fun e s₁ _ => hd.andThen (hd.expect _) fun _ s₂ _ => hd.done _ s₂
  case close =>
    intro s t ht
    rw [statements, ht]
    exact Drawing.taken (context_of_accept ht) (hd.done [] t.next)
  case atEnd =>
    intro s ht hend
    rw [statements, ht, if_pos hend]
    exact h.refl _
  case more =>
    intro s ht hend ihStmt ihRest
    rw [statements, ht, if_neg hend]
    exact hd.bind ihStmt fun stmt s₁ h₁ => hd.andThen (ihRest s₁ h₁) fun stmts s₂ _ => hd.done _ s₂

theorem block (h : DeclaringIn (some f) R) (s : State) : Within R s (block f s) := by
  have hd := h.toDrawing
  exact hd.bind (hd.expect _) fun _ s₁ _ => hd.andThen (h.grammar.2 s₁) fun stmts s₂ _ => hd.done _ s₂

end DeclaringIn

/-! ## Functions and programs -/

namespace Drawing

theorem moreParams (h : Drawing R) (s : State) : Within R s (moreParams s) := by
  induction s using Parse.moreParams.induct with
  | case1 s ih =>
    rw [Parse.moreParams]
    refine h.bind (h.type s) fun ty s₁ h₁ => h.andThen (h.need _ _) fun p s₂ h₂ => h.demand fun _ _ => ?_
    cases hcomma : s₂.accept? (.punct ",") with
    | some t =>
      refine takenThen (context_of_accept hcomma) ?_
      exact h.andThen (ih s₁ h₁ s₂ h₂ t.next t.shorter) fun params s₄ _ => h.done _ s₄
    | none => exact h.andThen (h.expect _) fun _ s₃ _ => h.done _ s₃

theorem params (h : Drawing R) (s : State) : Within R s (params s) := by
  unfold Parse.params
  cases hclose : s.accept? (.punct ")") with
  | some t => exact taken (context_of_accept hclose) (h.done [] t.next)
  | none => exact h.moreParams s

theorem head (h : Drawing R) (s : State) : Within R s (head s) := by
  unfold Parse.head
  refine h.bind (h.need _ _) fun p s₁ _ => h.andThen (h.expect _) fun _ s₂ _ => ?_
  refine h.andThen (h.params s₂) fun params s₃ _ => h.demand fun _ _ => h.andThen (h.expect _) fun _ s₄ _ => ?_
  exact h.andThen (h.type s₄) fun ret s₅ _ => h.done _ s₅

end Drawing

namespace Defining

theorem function (h : Defining R) (s : State) : Within R s (function s) := by
  have hd := h.toDrawing
  unfold Parse.function
  refine hd.bind (hd.head s) fun head s₁ _ => ?_
  cases hclose : s₁.accept? (.punct ";") with
  | some t =>
    refine Drawing.takenThen (context_of_accept hclose) ?_
    exact hd.bind (Drawing.perform (h.declareHead _ head false)) fun _ s₃ _ => hd.done _ s₃
  | none =>
    refine hd.bind (Drawing.perform (h.declareHead _ head true)) fun _ s₂ _ => ?_
    exact hd.andThen ((h.within (some head.name)).block s₂) fun body s₃ _ => hd.done _ s₃

theorem item (h : Defining R) (s : State) : Within R s (item s) := by
  unfold Parse.item
  cases hfunc : s.accept? (.keyword "func") with
  | some t => exact Drawing.taken (context_of_accept hfunc) (Result.ends_relax (h.function t.next))
  | none =>
    cases hkeyword : (s.accept? (.keyword "global")).or (s.accept? (.keyword "var")) with
    | some t =>
      have ht : t.next.context = s.context := by
        rcases Option.or_eq_some_iff.1 hkeyword with h | ⟨-, h⟩ <;> exact context_of_accept h
      exact Drawing.taken ht (Result.ends_relax ((h.within none).declaration (fun _ h => h) t.next))
    | none => exact h.refl _

/-- **Programs.** Whatever holds across the work on contexts holds across parsing. -/
theorem items (h : Defining R) (s : State) : Within R s (items s) := by
  have hd := h.toDrawing
  induction s using Parse.items.induct with
  | case1 s hend =>
    rw [Parse.items, if_pos hend]
    exact hd.done [] s
  | case2 s hend ih =>
    rw [Parse.items, if_neg hend]
    exact hd.andThen (h.item s) fun stmt s₁ h₁ => hd.bind (ih s₁ h₁) fun stmts s₂ _ => hd.done _ s₂

/-- A source read in the context `c`. -/
theorem parseSource (h : Defining R) (source : String) (c : Context) :
    Ends (parseSource source) c (fun _ c' => R c c') (fun _ c' => R c c') := by
  unfold MiniC.parseSource
  cases tokenize source with
  | error fault => exact h.refl c
  | ok tokens =>
    have hitems := h.items (.start tokens c)
    show Ends (parse tokens) c _ _
    unfold Ends parse
    unfold Within Result.Ends at hitems
    cases hres : Parse.items (.start tokens c) <;> rw [hres] at hitems <;> exact hitems

end Defining

end MiniC.Parse
