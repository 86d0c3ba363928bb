import MiniC.Proofs.Marks
import MiniC.Proofs.ProgramGrammar

/-!
# Parsing and lines

The parser reads no lines: where the lines of the tokens are moved, those of the tree are moved alike, with the same work
on the context, and so is the line of a fault (`parse_relined`); a grammatical fault stands on the line of the next token
(`Parse.items_blames`). `Relines` says all this of two results of the parser; one lemma for each way of putting parsers
together, as for any other statement about results.
-/

namespace MiniC

variable {ℓ : Nat → Nat}

/-- The token with its line moved; where it starts is forgotten. -/
def Token.relined (ℓ : Nat → Nat) (t : Token) : Token := { t with start := 0, line := ℓ t.line }

namespace Parse

/-! ## States and results -/

section Results

variable {m n : Nat} {α α' β β' : Type} {g : α → α'} {g' : β → β'} {s : State}

def State.relined (ℓ : Nat → Nat) (s : State) : State := ⟨s.tokens.map (Token.relined ℓ), ℓ s.lastLine, s.context⟩

@[simp] theorem State.line_relined (s : State) : (s.relined ℓ).line = ℓ s.line := by
  obtain ⟨tokens, lastLine, context⟩ := s
  cases tokens <;> rfl

@[simp] theorem State.found_relined (s : State) : (s.relined ℓ).found = s.found := by
  obtain ⟨tokens, lastLine, context⟩ := s
  cases tokens <;> rfl

@[simp] theorem State.kind?_relined (s : State) : (s.relined ℓ).kind? = s.kind? := by
  obtain ⟨tokens, lastLine, context⟩ := s
  cases tokens <;> rfl

@[simp] theorem State.atEnd_relined (s : State) : (s.relined ℓ).atEnd = s.atEnd := by
  obtain ⟨tokens, lastLine, context⟩ := s
  cases tokens <;> rfl

@[simp] theorem State.sees_relined (s : State) (terminal : Terminal) : (s.relined ℓ).sees terminal = s.sees terminal := by
  obtain ⟨tokens, lastLine, context⟩ := s
  cases tokens <;> cases terminal <;> rfl

@[simp] theorem State.names_relined (s : State) (f : String) : (s.relined ℓ).names f = s.names f := rfl

/-- A grammatical fault that is met in the state stands on the line of the next token. -/
def State.Blames (s : State) : Fault → Prop
  | .grammar line _ => line = s.line
  | _ => True

/-- The second result is the first one with its lines moved; `g` moves them in the value. -/
def Relines (ℓ : Nat → Nat) (g : α → α') : Result m α → Result n α' → Prop
  | .ok a s _, .ok a' s' _ => a' = g a ∧ s' = (s.relined ℓ)
  | .fail fault s, .fail fault' s' => s.Blames fault ∧ fault' = fault.relined ℓ ∧ s' = (s.relined ℓ)
  | _, _ => False

theorem relines_relax {r : Result m α} {r' : Result n α'} (h : Relines ℓ g r r') : Relines ℓ g r.relax r'.relax := by
  cases r <;> cases r' <;> exact h

theorem relines_bind {r : Result m α} {r' : Result n α'} {k : α → (s : State) → s.size < m → Result (s.size + 1) β}
    {k' : α' → (s : State) → s.size < n → Result (s.size + 1) β'} (hr : Relines ℓ g r r')
    (hk : ∀ a s h h', Relines ℓ g' (k a s h) (k' (g a) (s.relined ℓ) h')) : Relines ℓ g' (r.bind k) (r'.bind k') := by
  cases r with
  | fail fault last =>
    cases r' with
    | fail fault' last' => exact hr
    | ok a' s' h' => exact hr.elim
  | ok a s h =>
    cases r' with
    | fail fault' last' => exact hr.elim
    | ok a' s' h' =>
      obtain ⟨rfl, rfl⟩ := hr
      have hk := hk a s h h'
      unfold Result.bind
      dsimp only
      cases hres : k a s h <;> cases hres' : k' (g a) (s.relined ℓ) h' <;> rw [hres, hres'] at hk <;> exact hk

theorem relines_andThen {r : Result m α} {r' : Result n α'} {k : α → (s : State) → s.size < m → Result (s.size + 1) β}
    {k' : α' → (s : State) → s.size < n → Result (s.size + 1) β'} (hr : Relines ℓ g r r')
    (hk : ∀ a s h h', Relines ℓ g' (k a s h) (k' (g a) (s.relined ℓ) h')) : Relines ℓ g' (r.andThen k) (r'.andThen k') :=
  relines_relax (relines_bind hr hk)

theorem relines_done {a : α} {a' : α'} (h : a' = g a) (s : State) : Relines ℓ g (.done a s) (.done a' (s.relined ℓ)) := ⟨h, rfl⟩

theorem relines_missing (cause : String → GrammarFault) :
    Relines ℓ g (s.missing cause : Result m α) ((s.relined ℓ).missing cause : Result n α') := by
  unfold State.missing
  rw [State.line_relined, State.found_relined]
  exact ⟨rfl, rfl, rfl⟩

theorem relines_demand {line : Nat} {verdict : Except SemanticFault α} {verdict' : Except SemanticFault α'}
    {k : α → Result m β} {k' : α' → Result n β'} (h : verdict' = verdict.map g) (hk : ∀ a, Relines ℓ g' (k a) (k' (g a))) :
    Relines ℓ g' (s.demand line verdict k) ((s.relined ℓ).demand (ℓ line) verdict' k') := by
  subst h
  cases verdict with
  | ok a => exact hk a
  | error cause => exact ⟨trivial, rfl, rfl⟩

theorem relines_check {line : Nat} {verdict : Except SemanticFault α} {k : α → Result m β} {k' : α → Result n β'}
    (hk : ∀ a, Relines ℓ g' (k a) (k' a)) : Relines ℓ g' (s.demand line verdict k) ((s.relined ℓ).demand (ℓ line) verdict k') := by
  refine relines_demand (g := id) ?_ hk
  cases verdict <;> rfl

theorem relines_perform {work work' : CompileM α}
    (hwork : Ends work s.context (fun _ _ => True) (fun fault _ => ∃ line cause, fault = .semantic line cause))
    (h : work' = relining ℓ work) : Relines ℓ id (s.perform work) ((s.relined ℓ).perform work') := by
  have hcontext : (s.relined ℓ).context = s.context := rfl
  subst h
  unfold State.perform
  rw [hcontext]
  unfold relining
  cases hres : work s.context with
  | ok a context => exact ⟨rfl, rfl⟩
  | error fault context =>
    obtain ⟨line, cause, rfl⟩ := ends_of_error hwork hres
    exact ⟨trivial, rfl, rfl⟩

/-! ## Reading one token -/

/-- The second token is the first one with its line moved. -/
def TakenRelines (ℓ : Nat → Nat) (g : α → α') (t : Taken m α) (t' : Taken n α') : Prop := t'.value = g t.value ∧ t'.next = (t.next.relined ℓ)

theorem take?_relined {read : Token → Option α} {read' : Token → Option α'}
    (h : ∀ t, read' (t.relined ℓ) = (read t).map g) :
    (s.take? read = none ∧ (s.relined ℓ).take? read' = none) ∨
      ∃ t t', s.take? read = some t ∧ (s.relined ℓ).take? read' = some t' ∧ TakenRelines ℓ g t t' := by
  obtain ⟨tokens, lastLine, context⟩ := s
  cases tokens with
  | nil => exact .inl ⟨rfl, rfl⟩
  | cons token rest =>
    have hleft : State.take? ⟨token :: rest, lastLine, context⟩ read =
        (read token).map fun a => ⟨a, ⟨rest, lastLine, context⟩, Nat.lt_succ_self _⟩ := rfl
    have hright : State.take? (State.relined ℓ ⟨token :: rest, lastLine, context⟩) read' =
        (read' (token.relined ℓ)).map fun a => ⟨a, State.relined ℓ ⟨rest, lastLine, context⟩, Nat.lt_succ_self _⟩ := rfl
    rw [hleft, hright, h]
    cases read token with
    | none => exact .inl ⟨rfl, rfl⟩
    | some a => exact .inr ⟨_, _, rfl, rfl, rfl, rfl⟩

theorem taken_relined {read : Token → Option α} {read' : Token → Option α'} (h : ∀ t, read' (t.relined ℓ) = (read t).map g)
    {t : Taken s.size α} (ht : s.take? read = some t) : ∃ t', (s.relined ℓ).take? read' = some t' ∧ TakenRelines ℓ g t t' := by
  rcases take?_relined (s := s) h with ⟨hnone, -⟩ | ⟨u, t', hsome, hsome', htaken⟩
  · rw [hnone] at ht
    cases ht
  · rw [hsome] at ht
    cases ht
    exact ⟨t', hsome', htaken⟩

theorem untaken_relined {read : Token → Option α} {read' : Token → Option α'} (h : ∀ t, read' (t.relined ℓ) = (read t).map g)
    (ht : s.take? read = none) : (s.relined ℓ).take? read' = none := by
  rcases take?_relined (s := s) h with ⟨-, hnone'⟩ | ⟨u, t', hsome, -⟩
  · exact hnone'
  · rw [ht] at hsome
    cases hsome

theorem is_relined (terminal : Terminal) (t : Token) :
    (if (t.relined ℓ).is terminal then some () else none) = (if t.is terminal then some () else none).map id := by
  cases terminal <;> simp [Token.relined, Token.is]

theorem accepted_relined {terminal : Terminal} {t : Taken s.size Unit} (ht : s.accept? terminal = some t) :
    ∃ t', (s.relined ℓ).accept? terminal = some t' ∧ TakenRelines ℓ id t t' := taken_relined (is_relined terminal) ht

theorem unaccepted_relined {terminal : Terminal} (ht : s.accept? terminal = none) :
    (s.relined ℓ).accept? terminal = none := untaken_relined (is_relined terminal) ht

theorem relines_taken {t : Taken m α} {t' : Taken n α'} {k : α → (s : State) → s.size < m → Result (s.size + 1) β}
    {k' : α' → (s : State) → s.size < n → Result (s.size + 1) β'} (ht : TakenRelines ℓ g t t')
    (hk : ∀ h', Relines ℓ g' (k t.value t.next t.shorter) (k' (g t.value) (t.next.relined ℓ) h')) :
    Relines ℓ g' (t.bind k) (t'.bind k') := by
  obtain ⟨value, next, shorter⟩ := t'
  obtain ⟨rfl, rfl⟩ := ht
  have hk := hk shorter
  unfold Taken.bind Result.bind
  dsimp only
  cases hres : k t.value t.next t.shorter <;> cases hres' : k' (g t.value) (t.next.relined ℓ) shorter <;>
    rw [hres, hres'] at hk <;> exact hk

theorem relines_takenThen {t : Taken m α} {t' : Taken n α'} {k : α → (s : State) → s.size < m → Result (s.size + 1) β}
    {k' : α' → (s : State) → s.size < n → Result (s.size + 1) β'} (ht : TakenRelines ℓ g t t')
    (hk : ∀ h', Relines ℓ g' (k t.value t.next t.shorter) (k' (g t.value) (t.next.relined ℓ) h')) :
    Relines ℓ g' (t.andThen k) (t'.andThen k') := relines_relax (relines_taken ht hk)

theorem relines_need {read : Token → Option α} {read' : Token → Option α'} (h : ∀ t, read' (t.relined ℓ) = (read t).map g)
    (cause : String → GrammarFault) : Relines ℓ g (s.need read cause) ((s.relined ℓ).need read' cause) := by
  unfold State.need
  rcases take?_relined (s := s) h with ⟨hnone, hnone'⟩ | ⟨t, t', hsome, hsome', ht⟩
  · rw [hnone, hnone']
    exact relines_missing cause
  · rw [hsome, hsome']
    exact ht

theorem relines_expect (terminal : Terminal) : Relines ℓ id (s.expect terminal) ((s.relined ℓ).expect terminal) :=
  relines_need (is_relined terminal) _

end Results

/-! ## Expressions -/

section Expressions

variable {f : String}

/-- A reader that looks at the kind and the text of a token only. -/
theorem reads_relined {α : Type} {read : Token → Option α} (h : ∀ t, read (t.relined ℓ) = read t) (t : Token) :
    read (t.relined ℓ) = (read t).map id := by rw [h, Option.map_id]; rfl

theorem identifier_relined (s : State) :
    Relines ℓ (fun p => (p.1, ℓ p.2)) (identifier s) (identifier (s.relined ℓ)) := by
  refine relines_need (fun t => ?_) _
  unfold identifier? Token.relined
  simp only
  split <;> rfl

theorem number_relined (s : State) : Relines ℓ id (number s) (number (s.relined ℓ)) :=
  relines_need (reads_relined fun _ => rfl) _

theorem stringLiteral_relined (s : State) : Relines ℓ (Expr.marked ℓ id) (stringLiteral s) (stringLiteral (s.relined ℓ)) := by
  unfold stringLiteral
  have hstring : ∀ t, string? (t.relined ℓ) = (string? t).map (Token.relined ℓ) := by
    intro t
    unfold string? Token.relined
    simp only
    split <;> rfl
  refine relines_bind (relines_need hstring _) fun t s₁ _ _ => ?_
  dsimp only [Token.relined]
  cases Literal.stringBytes t.text with
  | error cause => exact ⟨trivial, rfl, rfl⟩
  | ok bytes =>
    have hdraw : Ends CompileM.drawLabel s₁.context (fun _ _ => True)
        (fun fault _ => ∃ line cause, fault = .semantic line cause) := trivial
    refine relines_bind (relines_perform hdraw rfl) fun label s₂ _ _ => relines_done ?_ s₂
    rw [Expr.marked]
    rfl

theorem grammar_relined (f : String) :
    (∀ floor s, Relines ℓ (Expr.marked ℓ id) (binary f floor s) (binary f floor (s.relined ℓ))) ∧
    (∀ floor left s, Relines ℓ (Expr.marked ℓ id) (operators f floor left s) (operators f floor (left.marked ℓ id) (s.relined ℓ))) ∧
    (∀ s, Relines ℓ (Expr.marked ℓ id) (unary f s) (unary f (s.relined ℓ))) ∧
    (∀ s, Relines ℓ (Expr.marked ℓ id) (primary f s) (primary f (s.relined ℓ))) ∧
    (∀ name line s, Relines ℓ (Expr.marked ℓ id) (named f name line s) (named f name (ℓ line) (s.relined ℓ))) ∧
    (∀ s, Relines ℓ (List.map (Expr.marked ℓ id)) (arguments f s) (arguments f (s.relined ℓ))) ∧
    (∀ s, Relines ℓ (List.map (Expr.marked ℓ id)) (moreArguments f s) (moreArguments f (s.relined ℓ))) := by
  refine binary.mutual_induct _ _ _ _ _ _ _
    ?binary ?operator ?noOperator ?unaryOp ?noUnaryOp ?parens ?number ?string ?name ?noPrimary ?call ?notCall ?noArgs
    ?someArgs ?moreArgs
  case binary =>
    intro floor s ihUnary ihOperators
    rw [binary, binary]
    exact relines_bind ihUnary fun left s₁ h₁ _ => ihOperators left s₁ h₁
  case operator =>
    intro floor left s t ht ihRight ihRest
    obtain ⟨t', ht', htaken⟩ := taken_relined (reads_relined fun _ => rfl) ht
    rw [operators, ht, operators, ht']
    refine relines_takenThen htaken fun _ => ?_
    refine relines_andThen (ihRight t.value t.next t.shorter) fun right s₂ h₂ _ => ?_
    rw [State.line_relined]
    exact relines_demand (Typing.binary_marked _ _ _ _ _) fun e => ihRest t.next t.shorter s₂ h₂ e
  case noOperator =>
    intro floor left s ht
    rw [operators, ht, operators, untaken_relined (reads_relined fun _ => rfl) ht]
    exact relines_done rfl s
  case unaryOp =>
    intro s t ht ihOperand
    obtain ⟨t', ht', htaken⟩ := taken_relined (reads_relined fun _ => rfl) ht
    rw [unary, ht, unary, ht']
    refine relines_taken htaken fun _ => relines_andThen (ihOperand t.next t.shorter) fun operand s₂ _ _ => ?_
    rw [State.line_relined]
    exact relines_demand (Typing.unary_marked _ _ _) fun e => relines_done rfl s₂
  case noUnaryOp =>
    intro s ht ihPrimary
    rw [unary, ht, unary, untaken_relined (reads_relined fun _ => rfl) ht]
    exact ihPrimary
  case parens =>
    intro s t ht ihInner
    obtain ⟨t', ht', htaken⟩ := accepted_relined ht
    rw [primary, ht, primary, ht']
    refine relines_taken htaken fun _ => relines_andThen (ihInner t.next t.shorter) fun e s₂ _ _ => ?_
    exact relines_andThen (relines_expect _) fun _ s₃ _ _ => relines_done rfl s₃
  case number =>
    intro s hparens hkind
    rw [primary, hparens, hkind, primary, unaccepted_relined hparens, State.kind?_relined, hkind]
    refine relines_bind (number_relined s) fun value s₁ _ _ => relines_done ?_ s₁
    rw [Expr.ofInt_marked, State.line_relined]
    rfl
  case string =>
    intro s hparens hkind
    rw [primary, hparens, hkind, primary, unaccepted_relined hparens, State.kind?_relined, hkind]
    exact stringLiteral_relined s
  case name =>
    intro s hparens hkind ihNamed
    rw [primary, hparens, hkind, primary, unaccepted_relined hparens, State.kind?_relined, hkind]
    exact relines_bind (identifier_relined s) fun p s₁ h₁ _ => ihNamed s₁ h₁ p.1 p.2
  case noPrimary =>
    intro s hparens hnumber hstring hident
    rw [primary, hparens, primary, unaccepted_relined hparens, State.kind?_relined]
    simp only
    exact relines_missing _
  case call =>
    intro name line s hsees ihArgs
    rw [named, if_pos hsees, named, if_pos (by rw [State.sees_relined]; exact hsees)]
    rw [State.names_relined]
    refine relines_check fun callee => ?_
    refine relines_andThen (relines_expect _) fun _ s₁ h₁ _ => relines_andThen (ihArgs s₁ h₁) fun args s₂ _ _ => ?_
    exact relines_demand (Typing.call_marked _ _ _ _ _) fun e => relines_done rfl s₂
  case notCall =>
    intro name line s hsees ihIndex
    rw [named, if_neg hsees, named, if_neg (by rw [State.sees_relined]; exact hsees)]
    refine relines_demand (g := Expr.marked ℓ id) (Typing.name_marked _ _ _) fun base => ?_
    cases hbracket : s.accept? (.punct "[") with
    | some t =>
      obtain ⟨t', ht', htaken⟩ := accepted_relined hbracket
      rw [ht']
      refine relines_takenThen htaken fun _ => relines_andThen (ihIndex t.next t.shorter) fun index s₂ _ _ => ?_
      refine relines_andThen (relines_expect _) fun _ s₃ _ _ => ?_
      exact relines_demand (Typing.index_marked _ _ _) fun e => relines_done rfl s₃
    | none =>
      rw [unaccepted_relined hbracket]
      cases hstep : s.take? trailingStep? with
      | some t =>
        obtain ⟨t', ht', htaken⟩ := taken_relined (reads_relined fun _ => rfl) hstep
        rw [ht']
        refine relines_takenThen htaken fun _ => ?_
        exact relines_demand (Typing.unary_marked _ (.step .after t.value) _) fun e => relines_done rfl t.next
      | none =>
        rw [untaken_relined (reads_relined fun _ => rfl) hstep]
        exact relines_done rfl s
  case noArgs =>
    intro s t ht
    obtain ⟨t', ht', htaken⟩ := accepted_relined ht
    rw [arguments, ht, arguments, ht']
    exact relines_taken htaken fun _ => relines_done rfl t.next
  case someArgs =>
    intro s ht ihMore
    rw [arguments, ht, arguments, unaccepted_relined ht]
    exact ihMore
  case moreArgs =>
    intro s ihArg ihMore
    rw [moreArguments, moreArguments]
    refine relines_bind ihArg fun arg s₁ h₁ _ => ?_
    cases hcomma : s₁.accept? (.punct ",") with
    | some t =>
      obtain ⟨t', ht', htaken⟩ := accepted_relined hcomma
      rw [ht']
      refine relines_takenThen htaken fun _ => ?_
      exact relines_andThen (ihMore s₁ h₁ t.next t.shorter) fun args s₃ _ _ => relines_done rfl s₃
    | none =>
      rw [unaccepted_relined hcomma]
      exact relines_andThen (relines_expect _) fun _ s₂ _ _ => relines_done rfl s₂

theorem expression_relined (f : String) (s : State) :
    Relines ℓ (Expr.marked ℓ id) (expression f s) (expression f (s.relined ℓ)) := (grammar_relined f).1 0 s

theorem condition_relined (f : String) (s : State) :
    Relines ℓ (Expr.marked ℓ id) (condition f s) (condition f (s.relined ℓ)) := by
  refine relines_bind (expression_relined f s) fun e s₁ _ _ => ?_
  rw [Expr.line_marked]
  exact relines_demand (Typing.condition_marked e) fun e => relines_done rfl s₁

end Expressions

/-! ## Declarations -/

theorem type_relined (s : State) : Relines ℓ id (type s) (type (s.relined ℓ)) := by
  unfold type
  refine relines_bind (relines_need (reads_relined fun _ => rfl) _) fun base s₁ _ _ => ?_
  cases hstar : s₁.accept? (.punct "*") with
  | some t =>
    obtain ⟨t', ht', htaken⟩ := accepted_relined hstar
    rw [ht']
    exact relines_takenThen htaken fun _ => relines_done rfl t.next
  | none =>
    rw [unaccepted_relined hstar]
    exact relines_done rfl s₁

theorem arraySize_relined (s : State) : Relines ℓ id (arraySize s) (arraySize (s.relined ℓ)) := by
  unfold arraySize
  cases hbracket : s.accept? (.punct "[") with
  | some t =>
    obtain ⟨t', ht', htaken⟩ := accepted_relined hbracket
    rw [ht']
    refine relines_takenThen htaken fun _ => relines_andThen (number_relined _) fun count s₂ _ _ => ?_
    exact relines_andThen (relines_expect _) fun _ s₃ _ _ => relines_done rfl s₃
  | none =>
    rw [unaccepted_relined hbracket]
    exact relines_done rfl s

theorem relining_require {α : Type} (line : Nat) (verdict : Except SemanticFault α) :
    relining ℓ (CompileM.require line verdict) = CompileM.require (ℓ line) verdict := by
  cases verdict <;> rfl

theorem relining_declare (line : Nat) (change : SymbolTable → Except SemanticFault SymbolTable) :
    relining ℓ (CompileM.declare line change) = CompileM.declare (ℓ line) change := by
  simp [CompileM.declare, relining_require]

theorem declaration_relined (owner : Option String) (s : State) :
    Relines ℓ (Stmt.marked ℓ id) (declaration owner s) (declaration owner (s.relined ℓ)) := by
  unfold declaration
  refine relines_bind (type_relined s) fun ty s₁ _ _ => relines_andThen (identifier_relined s₁) fun p s₂ _ _ => ?_
  refine relines_bind (arraySize_relined s₂) fun size s₃ _ _ => relines_check fun parts => ?_
  refine relines_andThen (relines_expect _) fun _ s₄ _ _ => relines_check fun _ => ?_
  cases owner with
  | some function =>
    refine relines_bind (relines_perform declare_semantic (relining_declare _ _).symm) fun _ s₅ _ _ => relines_done ?_ s₅
    rw [Stmt.marked]
  | none =>
    refine relines_bind (relines_perform declare_semantic (relining_declare _ _).symm) fun _ s₅ _ _ => relines_done ?_ s₅
    rw [Stmt.marked]

/-! ## Statements -/

section Statements

variable {f : String}

theorem returned_relined (f : String) (s : State) :
    Relines ℓ (Stmt.marked ℓ id) (returned f s) (returned f (s.relined ℓ)) := by
  unfold returned
  rw [State.line_relined, State.names_relined]
  refine relines_check fun ty => ?_
  cases hclose : s.accept? (.punct ";") with
  | some t =>
    obtain ⟨t', ht', htaken⟩ := accepted_relined hclose
    rw [ht']
    refine relines_taken htaken fun _ => ?_
    exact relines_demand (Typing.returnNothing_marked f ty) fun stmt => relines_done rfl t.next
  | none =>
    rw [unaccepted_relined hclose]
    refine relines_bind (expression_relined f s) fun value s₁ _ _ => relines_andThen (relines_expect _) fun _ s₂ _ _ => ?_
    exact relines_demand (Typing.returnValue_marked f ty value) fun stmt => relines_done rfl s₂

theorem parenthesised_relined (f : String) (s : State) :
    Relines ℓ (Expr.marked ℓ id) (parenthesised f s) (parenthesised f (s.relined ℓ)) :=
  relines_bind (relines_expect _) fun _ s₁ _ _ => relines_andThen (condition_relined f s₁) fun _ _ _ _ =>
    relines_andThen (relines_expect _) fun _ s₃ _ _ => relines_done rfl s₃

theorem clause_relined {close : Terminal} {parse : (s : State) → Result s.size Expr} {s : State}
    (h : Relines ℓ (Expr.marked ℓ id) (parse s) (parse (s.relined ℓ))) :
    Relines ℓ (Expr.marked? ℓ id) (clause close parse s) (clause close parse (s.relined ℓ)) := by
  unfold clause
  cases hclose : s.accept? close with
  | some t =>
    obtain ⟨t', ht', htaken⟩ := accepted_relined hclose
    rw [ht']
    exact relines_taken htaken fun _ => relines_done (by rw [Expr.marked?]) t.next
  | none =>
    rw [unaccepted_relined hclose]
    refine relines_bind h fun e s₁ _ _ => relines_andThen (relines_expect _) fun _ s₂ _ _ => relines_done ?_ s₂
    rw [Expr.marked?]

/-- The clauses of a `for` with their lines moved. -/
def relinedClauses (ℓ : Nat → Nat) (p : Option Expr × Option Expr × Option Expr) : Option Expr × Option Expr × Option Expr :=
  (Expr.marked? ℓ id p.1, Expr.marked? ℓ id p.2.1, Expr.marked? ℓ id p.2.2)

theorem clauses_relined (f : String) (s : State) :
    Relines ℓ (relinedClauses ℓ) (clauses f s) (clauses f (s.relined ℓ)) := by
  unfold clauses
  refine relines_bind (relines_expect _) fun _ s₁ _ _ => ?_
  refine relines_andThen (clause_relined (expression_relined f s₁)) fun init s₂ _ _ => ?_
  refine relines_andThen (clause_relined (condition_relined f s₂)) fun cond s₃ _ _ => ?_
  exact relines_andThen (clause_relined (expression_relined f s₃)) fun post s₄ _ _ => relines_done rfl s₄

theorem statements_relined (f : String) :
    (∀ s, Relines ℓ (Stmt.marked ℓ id) (statement f s) (statement f (s.relined ℓ))) ∧
    (∀ s, Relines ℓ (Stmt.markedAll ℓ id) (statements f s) (statements f (s.relined ℓ))) := by
  refine statement.mutual_induct _ _ ?lead ?noLead ?close ?atEnd ?more
  case lead =>
    intro s t ht ihFirst ihSecond ihBlock
    obtain ⟨t', ht', htaken⟩ := taken_relined (reads_relined fun _ => rfl) ht
    rw [statement, ht, statement, ht']
    refine relines_taken htaken fun _ => ?_
    rw [State.line_relined]
    cases hlead : t.value with
    | nestedFunction => exact ⟨rfl, rfl, rfl⟩
    | ret => exact relines_relax (returned_relined f t.next)
    | declaration isGlobal => exact relines_relax (declaration_relined _ t.next)
    | ifElse =>
      refine relines_andThen (parenthesised_relined f t.next) fun cond s₂ h₂ _ => ?_
      refine relines_andThen (ihFirst t.next t.shorter s₂ h₂) fun yes s₃ h₃ _ => ?_
      cases helse : s₃.accept? (.keyword "else") with
      | none =>
        rw [unaccepted_relined helse]
        refine relines_done ?_ s₃
        rw [Stmt.marked, Expr.marked, Stmt.marked?]
        rfl
      | some u =>
        obtain ⟨u', hu', hutaken⟩ := accepted_relined helse
        rw [hu']
        refine relines_takenThen hutaken fun _ => ?_
        refine relines_andThen (ihSecond t.next t.shorter s₂ h₂ s₃ h₃ u.next u.shorter) fun no s₅ _ _ => relines_done ?_ s₅
        rw [Stmt.marked, Expr.marked, Stmt.marked?]
        rfl
    | whileLoop =>
      refine relines_andThen (parenthesised_relined f t.next) fun cond s₂ h₂ _ => ?_
      refine relines_andThen (ihFirst t.next t.shorter s₂ h₂) fun body s₃ _ _ => relines_done ?_ s₃
      rw [Stmt.marked, Expr.marked]
      rfl
    | forLoop =>
      refine relines_andThen (clauses_relined f t.next) fun parts s₂ h₂ _ => ?_
      refine relines_andThen (ihFirst t.next t.shorter s₂ h₂) fun body s₃ _ _ => relines_done ?_ s₃
      rw [Stmt.marked, Expr.marked]
      rfl
    | block =>
      refine relines_andThen (ihBlock t.next t.shorter) fun stmts s₂ _ _ => relines_done ?_ s₂
      rw [Stmt.marked]
  case noLead =>
    intro s ht
    rw [statement, ht, statement, untaken_relined (reads_relined fun _ => rfl) ht]
    refine relines_bind (expression_relined f s) fun e s₁ _ _ => relines_andThen (relines_expect _) fun _ s₂ _ _ => ?_
    exact relines_done (by rw [Stmt.marked]) s₂
  case close =>
    intro s t ht
    obtain ⟨t', ht', htaken⟩ := accepted_relined ht
    rw [statements, ht, statements, ht']
    exact relines_taken htaken fun _ => relines_done (by rw [Stmt.markedAll]) t.next
  case atEnd =>
    intro s ht hend
    rw [statements, ht, if_pos hend, statements, unaccepted_relined ht, if_pos (by rw [State.atEnd_relined]; exact hend)]
    rw [State.line_relined]
    exact ⟨rfl, rfl, rfl⟩
  case more =>
    intro s ht hend ihStmt ihRest
    rw [statements, ht, if_neg hend, statements, unaccepted_relined ht, if_neg (by rw [State.atEnd_relined]; exact hend)]
    refine relines_bind ihStmt fun stmt s₁ h₁ _ => relines_andThen (ihRest s₁ h₁) fun stmts s₂ _ _ => relines_done ?_ s₂
    rw [Stmt.markedAll]

theorem block_relined (f : String) (s : State) : Relines ℓ (Stmt.marked ℓ id) (block f s) (block f (s.relined ℓ)) :=
  relines_bind (relines_expect _) fun _ s₁ _ _ => relines_andThen ((statements_relined f).2 s₁) fun stmts s₂ _ _ =>
    relines_done (by rw [Stmt.marked]) s₂

end Statements

end Parse

/-! ## Functions and programs -/

def Param.relined (ℓ : Nat → Nat) (param : Param) : Param := { param with line := ℓ param.line }

def Head.relined (ℓ : Nat → Nat) (head : Head) : Head :=
  { head with line := ℓ head.line, params := head.params.map (Param.relined ℓ) }

theorem Head.enter_relined (head : Head) (hasBody : Bool) : (head.relined ℓ).enter hasBody = relining ℓ (head.enter hasBody) := by
  unfold Head.enter
  rw [relining_bind]
  refine congrArg (get >>= ·) (funext fun c => ?_)
  dsimp only [Head.relined]
  cases c.symbols.global? head.name with
  | some earlier =>
    simp only [List.length_map, relining_bind, Parse.relining_require, relining_pure]
  | none =>
    simp only [relining_bind, Parse.relining_declare, relining_pure]
    rfl

theorem Head.declare_relined (head : Head) (hasBody : Bool) :
    (head.relined ℓ).declare hasBody = relining ℓ (head.declare hasBody) := by
  have hparams : (forM (head.relined ℓ).params fun param =>
      CompileM.declare param.line (·.declareParameter head.name param.name param.ty)) =
      relining ℓ (forM head.params fun param =>
        CompileM.declare param.line (·.declareParameter head.name param.name param.ty)) := by
    simp only [relining_forM, Parse.relining_declare, Head.relined, List.forM_map]
    rfl
  unfold Head.declare
  simp only [relining_bind, relining_ite, relining_modify, relining_pure, Head.enter_relined, List.forM_eq_forM]
  rw [← hparams]
  rfl

namespace Parse

theorem moreParams_relined (s : State) :
    Relines ℓ (List.map (Param.relined ℓ)) (moreParams s) (moreParams (s.relined ℓ)) := by
  induction s using moreParams.induct with
  | case1 s ih =>
    rw [moreParams, moreParams]
    refine relines_bind (type_relined s) fun ty s₁ h₁ _ => relines_andThen (identifier_relined s₁) fun p s₂ h₂ _ => ?_
    refine relines_check fun _ => ?_
    cases hcomma : s₂.accept? (.punct ",") with
    | some t =>
      obtain ⟨t', ht', htaken⟩ := accepted_relined hcomma
      rw [ht']
      refine relines_takenThen htaken fun _ => ?_
      exact relines_andThen (ih s₁ h₁ s₂ h₂ t.next t.shorter) fun params s₄ _ _ => relines_done rfl s₄
    | none =>
      rw [unaccepted_relined hcomma]
      exact relines_andThen (relines_expect _) fun _ s₃ _ _ => relines_done rfl s₃

theorem params_relined (s : State) : Relines ℓ (List.map (Param.relined ℓ)) (params s) (params (s.relined ℓ)) := by
  unfold params
  cases hclose : s.accept? (.punct ")") with
  | some t =>
    obtain ⟨t', ht', htaken⟩ := accepted_relined hclose
    rw [ht']
    exact relines_taken htaken fun _ => relines_done rfl t.next
  | none =>
    rw [unaccepted_relined hclose]
    exact moreParams_relined s

theorem head_relined (s : State) : Relines ℓ (Head.relined ℓ) (head s) (head (s.relined ℓ)) := by
  unfold head
  refine relines_bind (identifier_relined s) fun p s₁ _ _ => relines_andThen (relines_expect _) fun _ s₂ _ _ => ?_
  refine relines_andThen (params_relined s₂) fun params s₃ _ _ => ?_
  rw [List.length_map]
  refine relines_check fun _ => relines_andThen (relines_expect _) fun _ s₄ _ _ => ?_
  exact relines_andThen (type_relined s₄) fun ret s₅ _ _ => relines_done rfl s₅

theorem function_relined (s : State) : Relines ℓ (Stmt.marked ℓ id) (function s) (function (s.relined ℓ)) := by
  unfold function
  refine relines_bind (head_relined s) fun head s₁ _ _ => ?_
  cases hclose : s₁.accept? (.punct ";") with
  | some t =>
    obtain ⟨t', ht', htaken⟩ := accepted_relined hclose
    rw [ht']
    refine relines_takenThen htaken fun _ => ?_
    refine relines_bind (relines_perform head_declare_semantic (head.declare_relined false)) fun _ s₃ _ _ => relines_done ?_ s₃
    rw [Stmt.marked]
    rfl
  | none =>
    rw [unaccepted_relined hclose]
    refine relines_bind (relines_perform head_declare_semantic (head.declare_relined true)) fun _ s₂ _ _ => ?_
    refine relines_andThen (block_relined head.name s₂) fun body s₃ _ _ => relines_done ?_ s₃
    rw [Stmt.marked]
    rfl

theorem item_relined (s : State) : Relines ℓ (Stmt.marked ℓ id) (item s) (item (s.relined ℓ)) := by
  unfold item
  cases hfunc : s.accept? (.keyword "func") with
  | some t =>
    obtain ⟨t', ht', htaken⟩ := accepted_relined hfunc
    rw [ht']
    exact relines_taken htaken fun _ => relines_relax (function_relined t.next)
  | none =>
    rw [unaccepted_relined hfunc]
    cases hglobal : s.accept? (.keyword "global") with
    | some t =>
      obtain ⟨t', ht', htaken⟩ := accepted_relined hglobal
      rw [ht']
      exact relines_taken htaken fun _ => relines_relax (declaration_relined none t.next)
    | none =>
      rw [unaccepted_relined hglobal]
      cases hvar : s.accept? (.keyword "var") with
      | some t =>
        obtain ⟨t', ht', htaken⟩ := accepted_relined hvar
        rw [ht']
        exact relines_taken htaken fun _ => relines_relax (declaration_relined none t.next)
      | none =>
        rw [unaccepted_relined hvar]
        exact relines_missing _

theorem items_relined (s : State) : Relines ℓ (Stmt.markedAll ℓ id) (items s) (items (s.relined ℓ)) := by
  induction s using items.induct with
  | case1 s hend =>
    rw [items, if_pos hend, items, if_pos (by rw [State.atEnd_relined]; exact hend)]
    exact relines_done (by rw [Stmt.markedAll]) s
  | case2 s hend ih =>
    rw [items, if_neg hend, items, if_neg (by rw [State.atEnd_relined]; exact hend)]
    refine relines_andThen (item_relined s) fun stmt s₁ h₁ _ => relines_bind (ih s₁ h₁) fun stmts s₂ _ _ => relines_done ?_ s₂
    rw [Stmt.markedAll]

end Parse

theorem Parse.start_relined {tokens : List Token} (h : tokens ≠ []) (c : Context) :
    State.start (tokens.map (Token.relined ℓ)) c = (State.start tokens c).relined ℓ := by
  unfold State.start
  rw [List.getLast?_map, List.getLast?_eq_some_getLast h]
  rfl

/-- **Parsing reads no lines.** Where the lines of the tokens are moved, so are those of the program or of the fault. -/
theorem parse_relined (tokens : List Token) :
    parse (tokens.map (Token.relined ℓ)) = Stmt.markedAll ℓ id <$> relining ℓ (parse tokens) := by
  funext c
  show _ = EStateM.map (Stmt.markedAll ℓ id) (relining ℓ (parse tokens)) c
  unfold EStateM.map relining parse
  by_cases hempty : tokens = []
  · subst hempty
    simp [Parse.items, Parse.State.start, Parse.State.atEnd, Parse.Result.done, Stmt.markedAll]
  · have hitems := @Parse.items_relined ℓ (.start tokens c)
    rw [← Parse.start_relined hempty] at hitems
    cases hres : Parse.items (.start tokens c) with
    | ok program last h =>
      cases hres' : Parse.items (.start (tokens.map (Token.relined ℓ)) c) with
      | ok program' last' h' => rw [hres, hres'] at hitems; obtain ⟨rfl, rfl⟩ := hitems; rfl
      | fail fault' last' => rw [hres, hres'] at hitems; exact hitems.elim
    | fail fault last =>
      cases hres' : Parse.items (.start (tokens.map (Token.relined ℓ)) c) with
      | ok program' last' h' => rw [hres, hres'] at hitems; exact hitems.elim
      | fail fault' last' => rw [hres, hres'] at hitems; obtain ⟨-, rfl, rfl⟩ := hitems; rfl

/-- A grammatical fault stands on the line of the first token that is left where it is met. -/
theorem Parse.items_blames {s last : State} {fault : Fault} (h : items s = .fail fault last) : last.Blames fault := by
  have hitems := @items_relined id s
  rw [h] at hitems
  cases hres : items (s.relined id) with
  | ok program last' h' => rw [hres] at hitems; exact hitems.elim
  | fail fault' last' => rw [hres] at hitems; exact hitems.1

end MiniC
