import MiniC.Parse.Statement
import MiniC.Proofs.ExpressionGrammar

/-!
# Statements are read by the grammar

Each part of the statement parser reads the language of its nonterminal (`statements_read`). The first token of a
statement decides between the constructs (`statement_lead`), and a statement that leaves an `if` open is never followed by
`else` (`statement_stops`), so every `else` is read with the nearest `if`.
-/

namespace MiniC.Parse

open Grammar

variable {f : String} {s : State}

/-! ## Types and declarations -/

/-- What may come after a type, and after a name that is declared: no token that would belong to it. -/
def unlike {T : Type} (terminal : Terminal) : Follow T := fun _ v => ∀ t, v.head? = some t → t.is terminal = false

theorem base?_eq_some {t : Token} {base : Base} : base? t = some base ↔ t.is (.keyword base.name) := by
  unfold base?
  cases base <;> simp [Base.name, Token.is] <;> grind

theorem reads_type (s : State) : Reads TypeName (unlike (.punct "*")) id s.tokens (type s) := by
  unfold type
  refine Reads.of (M := (Language.token base?).seq fun base w ty =>
      (w = [] ∧ ty = .plain base) ∨ ∃ star, w = [star] ∧ star.is (.punct "*") ∧ ty = .pointer base)
    (reads_bind (F := anything) (reads_need fun t base h => kind_of_is (base?_eq_some.1 h))
      (fun base s₁ _ _ => ?_) fun _ _ _ _ _ _ => trivial) ?_ ?_
  · cases hstar : s₁.accept? (.punct "*") with
    | some t =>
      obtain ⟨token, htokens, htoken⟩ := tokens_of_accept hstar
      refine Reads.of (M := .after token (.just (.pointer base)))
        (reads_relax (reads_taken htokens (kind_of_is htoken) (reads_done id (Ty.pointer base) t.next))) ?_ ?_
      · rintro w ty ⟨_, rfl, rfl, rfl⟩
        exact .inr ⟨token, rfl, htoken, rfl⟩
      · rintro u ty v (⟨rfl, rfl⟩ | ⟨star, rfl, -, rfl⟩) hv hmeets
        · have hnext := hv token (by rw [← List.nil_append v, ← hmeets.next, htokens]; rfl)
          simp [htoken] at hnext
        · cases hmeets.head htokens
          exact ⟨[], rfl, rfl, rfl⟩
    | none =>
      refine Reads.of (M := .just (.plain base)) (reads_done id (Ty.plain base) s₁) ?_ ?_
      · rintro w ty ⟨rfl, rfl⟩
        exact .inl ⟨rfl, rfl⟩
      · rintro u ty v (⟨rfl, rfl⟩ | ⟨star, rfl, hstar', rfl⟩) - hmeets
        · exact ⟨rfl, rfl⟩
        · exact absurd hstar' (hmeets.unaccepted hstar)
  · rintro w ty ⟨_, _, base, rfl, ⟨t, rfl, ht⟩, ⟨rfl, rfl⟩ | ⟨star, rfl, hstar, rfl⟩⟩
    · exact .plain (base?_eq_some.1 ht)
    · exact .pointer (base?_eq_some.1 ht) hstar
  · rintro u ty v hu - -
    cases hu with
    | plain ht => exact ⟨_, [], _, rfl, ⟨_, rfl, base?_eq_some.2 ht⟩, .inl ⟨rfl, rfl⟩⟩
    | pointer ht hstar => exact ⟨[_], _, _, rfl, ⟨_, rfl, base?_eq_some.2 ht⟩, .inr ⟨_, rfl, hstar, rfl⟩⟩

theorem reads_arraySize (s : State) : Reads Bound (unlike (.punct "[")) id s.tokens (arraySize s) := by
  unfold arraySize
  cases hbracket : s.accept? (.punct "[") with
  | some t =>
    obtain ⟨token, htokens, htoken⟩ := tokens_of_accept hbracket
    refine Reads.of (M := .after token ((Language.token number?).seq fun count => (Language.the (.punct "]")).seq fun _ =>
        .just (some count)))
      (reads_relax (reads_taken htokens (kind_of_is htoken) (reads_andThen (F := anything) (reads_number _)
        (fun count s₂ _ _ => reads_andThen (F := anything) reads_expect
          (fun _ s₃ _ _ => reads_done id (some count) s₃) fun _ _ _ _ _ _ => trivial)
        fun _ _ _ _ _ _ => trivial))) ?_ ?_
    · rintro w size ⟨_, rfl, _, _, count, rfl, ⟨t, rfl, ht⟩, _, _, _, rfl, ⟨close, rfl, hclose⟩, rfl, rfl⟩
      obtain ⟨hkind, hvalue⟩ := number?_eq_some.1 ht
      exact .present htoken hkind hvalue hclose
    · rintro u size v hu hv hmeets
      cases hu with
      | absent =>
        have hnext := hv token (by rw [← List.nil_append v, ← hmeets.next, htokens]; rfl)
        simp [htoken] at hnext
      | present hopening hkind hvalue hclose =>
        cases hmeets.head htokens
        exact ⟨_, rfl, [_], _, _, rfl, ⟨_, rfl, number?_eq_some.2 ⟨hkind, hvalue⟩⟩, _, [], (), rfl, ⟨_, rfl, hclose⟩,
          rfl, rfl⟩
  | none =>
    refine Reads.of (M := .just none) (reads_done id none s) ?_ ?_
    · rintro w size ⟨rfl, rfl⟩
      exact .absent
    · rintro u size v hu - hmeets
      cases hu with
      | absent => exact ⟨rfl, rfl⟩
      | present hopening _ _ _ => exact absurd hopening (hmeets.unaccepted hbracket)

/-- What a declaration denotes, given whether it stands in a function. -/
def declaredPhrase (owner : Option String) (name : String) : Phrase :=
  match owner with
  | some _ => .varDecl name
  | none => .globalDecl name

theorem declare_semantic {line : Nat} {change : SymbolTable → Except SemanticFault SymbolTable} {c : Context} :
    Ends (CompileM.declare line change) c (fun _ _ => True) (fun fault _ => ∃ line cause, fault = .semantic line cause) := by
  unfold CompileM.declare
  refine ends_get_bind (ends_bind (P := fun _ _ => True) ?_ fun _ _ _ => ends_modify trivial)
  cases change c.symbols with
  | ok t => exact trivial
  | error cause => exact ⟨line, cause, rfl⟩

theorem reads_declaration (owner : Option String) (s : State) :
    Reads (fun w x => ∃ name, Declaration w name ∧ x = declaredPhrase owner name) anything Stmt.phrase s.tokens
      (declaration owner s) := by
  unfold declaration
  refine Reads.of (M := TypeName.seq fun _ => (Language.token identifier?).seq fun p => Bound.seq fun _ =>
      (Language.the (.punct ";")).seq fun _ => .just (declaredPhrase owner p.1))
    (reads_bind (reads_type s) (fun ty s₁ _ _ => reads_andThen (F := anything) (reads_identifier s₁)
      (fun (name, line) s₂ _ _ => reads_bind (reads_arraySize s₂) (fun size s₃ _ _ => reads_demand fun (kind, ty, count) _ =>
        reads_andThen (F := anything) reads_expect (fun _ s₄ _ _ => reads_demand fun _ _ => ?_)
          fun _ _ _ _ _ _ => trivial) ?_) fun _ _ _ _ _ _ => trivial) ?_) ?_ ?_
  · cases owner with
    | some function =>
      refine reads_perform declare_semantic fun _ s₅ _ htokens => ?_
      rw [← htokens]
      exact reads_done Stmt.phrase (.varDecl name) s₅
    | none =>
      refine reads_perform declare_semantic fun _ s₅ _ htokens => ?_
      rw [← htokens]
      exact reads_done Stmt.phrase (.globalDecl name) s₅
  · rintro size u y v ⟨_, _, _, rfl, ⟨close, rfl, hclose⟩, -, -⟩ - t ht
    cases ht
    simp_all [Token.is]
  · rintro ty u y v ⟨_, _, ⟨name, line⟩, rfl, ⟨t, rfl, ht⟩, -⟩ - t' ht'
    cases ht'
    simp [Token.is, (identifier?_eq_some.1 ht).1]
  · rintro w x ⟨u, _, ty, rfl, hty, _, _, ⟨name, line⟩, rfl, ⟨t, rfl, ht⟩, b, _, size, rfl, hb, _, _, _, rfl,
      ⟨close, rfl, hclose⟩, rfl, rfl⟩
    obtain ⟨hkind, rfl, rfl⟩ := identifier?_eq_some.1 ht
    exact ⟨_, .mk hty hkind hb hclose, rfl⟩
  · rintro u y v ⟨_, ⟨hty, hkind, hb, hclose⟩, rfl⟩ - -
    exact ⟨_, _, _, rfl, hty, [_], _, (_, _), rfl, ⟨_, rfl, identifier?_eq_some.2 ⟨hkind, rfl, rfl⟩⟩, _, _, _, rfl, hb,
      _, [], (), rfl, ⟨_, rfl, hclose⟩, rfl, rfl⟩

/-! ## Conditions and clauses -/

theorem reads_parenthesised (f : String) (s : State) :
    Reads Condition anything Expr.phrase s.tokens (parenthesised f s) := by
  unfold parenthesised
  refine Reads.of (M := (Language.the (.punct "(")).seq fun _ => Expression.seq fun x =>
      (Language.the (.punct ")")).seq fun _ => .just x)
    (reads_bind (F := anything) reads_expect (fun _ s₁ _ _ => reads_andThen (reads_condition f s₁)
      (fun cond s₂ _ _ => reads_andThen (F := anything) reads_expect (fun _ s₃ _ _ => reads_done _ cond s₃)
        fun _ _ _ _ _ _ => trivial) ?_) fun _ _ _ _ _ _ => trivial) ?_ ?_
  · rintro x u y v ⟨_, _, _, rfl, ⟨close, rfl, hclose⟩, -, -⟩ -
    exact Closed.paren hclose
  · rintro w x ⟨_, _, _, rfl, ⟨t, rfl, ht⟩, u, _, y, rfl, hy, _, _, _, rfl, ⟨close, rfl, hclose⟩, rfl, rfl⟩
    exact .mk ht hy hclose
  · rintro u y v ⟨hopening, hy, hclose⟩ - -
    exact ⟨[_], _, (), rfl, ⟨_, rfl, hopening⟩, _, _, _, rfl, hy, _, [], (), rfl, ⟨_, rfl, hclose⟩, rfl, rfl⟩

/-- What can close a clause: it comes after expressions, and none starts with it. -/
structure Closes (close : Terminal) : Prop where
  closed : ∀ t v, t.is close → Closed 0 (t :: v)
  starts : close ∉ operandStarts

theorem closes_semicolon : Closes (.punct ";") := ⟨fun _ _ => Closed.semicolon, by decide⟩

theorem closes_paren : Closes (.punct ")") := ⟨fun _ _ => Closed.paren, by decide⟩

section Clause

variable {β U : Type} {close : Terminal} {make : Option Phrase → U} {shows : β → U}

/-- The words of a clause, each with what is made of it. -/
def MadeOf (close : Terminal) (make : Option Phrase → U) : Language U :=
  fun w x => ∃ value, Clause close w value ∧ x = make value

theorem reads_emptyClause {t : Taken s.size Unit} {k : Unit → (s' : State) → s'.size < s.size → Result (s'.size + 1) β}
    (hcloses : Closes close) (ht : s.accept? close = some t)
    (hk : Reads (.just (make none)) anything shows t.next.tokens (k t.value t.next t.shorter)) :
    Reads (MadeOf close make) anything shows s.tokens (t.bind k) := by
  obtain ⟨token, htokens, htoken⟩ := tokens_of_accept ht
  refine Reads.of (M := .after token (.just (make none))) (reads_taken htokens (kind_of_is htoken) hk) ?_ ?_
  · rintro w x ⟨_, rfl, rfl, rfl⟩
    exact ⟨_, .empty htoken, rfl⟩
  · rintro u y v ⟨value, hu, rfl⟩ - hmeets
    cases hu with
    | empty _ => cases hmeets.head htokens; exact ⟨[], rfl, rfl, rfl⟩
    | given hx _ =>
      obtain ⟨t', w, rfl, hstarts⟩ := level_first hx
      cases hmeets.head htokens
      exact absurd (hstarts.mem htoken) hcloses.starts

theorem reads_givenClause {r : Result s.size Expr} {k : Expr → (s' : State) → Result (s'.size + 1) β}
    (hcloses : Closes close) (ht : s.accept? close = none) (hr : Reads Expression (closing 0) Expr.phrase s.tokens r)
    (hk : ∀ e s', Reads (.just (make (some e.phrase))) anything shows s'.tokens (k e s')) :
    Reads (MadeOf close make) anything shows s.tokens
      (r.bind fun e s₁ _ => (s₁.expect close).andThen fun _ s₂ _ => k e s₂) := by
  refine Reads.of (M := Expression.seq fun x => (Language.the close).seq fun _ => .just (make (some x)))
    (reads_bind hr (fun e s₁ _ _ => reads_andThen (F := anything) reads_expect (fun _ s₂ _ _ => hk e s₂)
      fun _ _ _ _ _ _ => trivial) ?_) ?_ ?_
  · rintro x u y v ⟨_, _, _, rfl, ⟨t, rfl, ht⟩, -, -⟩ -
    exact hcloses.closed t _ ht
  · rintro w x ⟨u, _, y, rfl, hy, _, _, _, rfl, ⟨t, rfl, ht⟩, rfl, rfl⟩
    exact ⟨_, .given hy ht, rfl⟩
  · rintro u y v ⟨value, hu, rfl⟩ - hmeets
    cases hu with
    | empty hclose => exact absurd hclose (hmeets.unaccepted ht)
    | given hx hclose => exact ⟨_, _, _, rfl, hx, _, [], (), rfl, ⟨_, rfl, hclose⟩, rfl, rfl⟩

end Clause

theorem reads_clause {close : Terminal} {parse : (s : State) → Result s.size Expr} (hcloses : Closes close)
    (hparse : Reads Expression (closing 0) Expr.phrase s.tokens (parse s)) :
    Reads (Clause close) anything optionalPhrase s.tokens (clause close parse s) := by
  refine Reads.of (M := MadeOf close id) ?_ ?_ (fun _ y _ h _ _ => ⟨y, h, rfl⟩)
  · unfold clause
    cases hclose : s.accept? close with
    | some t => exact reads_emptyClause hcloses hclose (reads_done optionalPhrase none t.next)
    | none =>
      exact reads_givenClause hcloses hclose hparse fun e s' => reads_done optionalPhrase (some e) s'
  · rintro w _ ⟨value, h, rfl⟩
    exact h

/-- What the three clauses of a `for` show. -/
def clausePhrases : Option Expr × Option Expr × Option Expr → Option Phrase × Option Phrase × Option Phrase
  | (init, cond, post) => (optionalPhrase init, optionalPhrase cond, optionalPhrase post)

theorem reads_clauses (f : String) (s : State) : Reads Clauses anything clausePhrases s.tokens (clauses f s) := by
  unfold clauses
  refine Reads.of (M := (Language.the (.punct "(")).seq fun _ => (Clause (.punct ";")).seq fun init =>
      (Clause (.punct ";")).seq fun cond => (Clause (.punct ")")).seq fun post => .just (init, cond, post))
    (reads_bind (F := anything) reads_expect (fun _ s₁ _ _ =>
      reads_andThen (reads_clause closes_semicolon (reads_expression f s₁)) (fun init s₂ _ _ =>
        reads_andThen (reads_clause closes_semicolon (reads_condition f s₂)) (fun cond s₃ _ _ =>
          reads_andThen (reads_clause closes_paren (reads_expression f s₃)) (fun post s₄ _ _ =>
            reads_done clausePhrases (init, cond, post) s₄)
          fun _ _ _ _ _ _ => trivial) fun _ _ _ _ _ _ => trivial) fun _ _ _ _ _ _ => trivial)
      fun _ _ _ _ _ _ => trivial) ?_ ?_
  · rintro w x ⟨_, _, _, rfl, ⟨t, rfl, ht⟩, u, _, init, rfl, hinit, v, _, cond, rfl, hcond, w, _, post, rfl, hpost, rfl,
      rfl⟩
    simpa using Clauses.mk ht hinit hcond hpost
  · rintro u y v ⟨ht, hinit, hcond, hpost⟩ - -
    exact ⟨[_], _, (), rfl, ⟨_, rfl, ht⟩, _, _, _, rfl, hinit, _, _, _, rfl, hcond, _, [], _, by simp, hpost, rfl, rfl⟩

theorem reads_returned (f : String) (s : State) :
    Reads (MadeOf (.punct ";") .ret) anything Stmt.phrase s.tokens (returned f s) := by
  unfold returned
  refine reads_demand fun ty _ => ?_
  cases hclose : s.accept? (.punct ";") with
  | some t =>
    refine reads_emptyClause closes_semicolon hclose (reads_demand fun stmt hstmt => ?_)
    rw [returnNothing_node hstmt]
    exact reads_done Stmt.phrase (.ret none) t.next
  | none =>
    refine reads_givenClause closes_semicolon hclose (reads_expression f s) fun value s₂ => reads_demand fun stmt hstmt => ?_
    obtain ⟨value', rfl, hvalue⟩ := returnValue_node hstmt
    rw [← blind_phrase _ _ hvalue]
    exact reads_done Stmt.phrase (.ret (some value')) s₂

/-! ## First tokens of statements -/

/-- What follows the first token of a statement that is no expression. -/
inductive AfterLead : Lead → Language Phrase
  | ret {w : List Token} {x : Phrase} : MadeOf (.punct ";") .ret w x → AfterLead .ret w x
  | globalDecl {w : List Token} {name : String} :
      Declaration w name → AfterLead (.declaration true) w (.globalDecl name)
  | varDecl {w : List Token} {name : String} : Declaration w name → AfterLead (.declaration false) w (.varDecl name)
  | ifThen {w u : List Token} {cond yes : Phrase} :
      Condition w cond → Statement u yes → AfterLead .ifElse (w ++ u) (.ifElse cond yes none)
  | ifElse {other : Token} {w u v : List Token} {cond yes no : Phrase} :
      Condition w cond → Statement u yes → yes.dangling = false → other.is (.keyword "else") → Statement v no →
      AfterLead .ifElse (w ++ (u ++ other :: v)) (.ifElse cond yes (some no))
  | whileLoop {w u : List Token} {cond body : Phrase} :
      Condition w cond → Statement u body → AfterLead .whileLoop (w ++ u) (.whileLoop cond body)
  | forLoop {w u : List Token} {init cond post : Option Phrase} {body : Phrase} :
      Clauses w (init, cond, post) → Statement u body → AfterLead .forLoop (w ++ u) (.forLoop init cond post body)
  | block {w : List Token} {stmts : List Phrase} : Body w stmts → AfterLead .block w (.block stmts)

theorem statement_of_lead {t : Token} {lead : Lead} {w : List Token} {x : Phrase} (ht : lead? t = some lead)
    (h : AfterLead lead w x) : Statement (t :: w) x := by
  unfold lead? at ht
  cases h with
  | ret h => obtain ⟨value, h, rfl⟩ := h; exact .ret (by grind) h
  | globalDecl h => exact .globalDecl (by grind) h
  | varDecl h => exact .varDecl (by grind) h
  | ifThen hcond hyes => exact .ifThen (by grind) hcond hyes
  | ifElse hcond hyes hopen hother hno => exact .ifElse (by grind) hcond hyes hopen hother hno
  | whileLoop hcond hbody => exact .whileLoop (by grind) hcond hbody
  | forLoop hclauses hbody => exact .forLoop (by grind) hclauses hbody
  | block hbody => exact .block (by grind) hbody

/-- The first token decides what a statement is. -/
theorem statement_lead {w : List Token} {x : Phrase} (h : Statement w x) :
    ∃ t v, w = t :: v ∧ ((∃ lead, lead? t = some lead ∧ AfterLead lead v x) ∨
      (StartsOperand t ∧ ∃ u close, w = u ++ [close] ∧ Expression u x ∧ close.is (.punct ";"))) := by
  cases h with
  | ret ht h => exact ⟨_, _, rfl, .inl ⟨_, by simp_all [lead?, Token.is], .ret ⟨_, h, rfl⟩⟩⟩
  | globalDecl ht h => exact ⟨_, _, rfl, .inl ⟨_, by simp_all [lead?, Token.is], .globalDecl h⟩⟩
  | varDecl ht h => exact ⟨_, _, rfl, .inl ⟨_, by simp_all [lead?, Token.is], .varDecl h⟩⟩
  | ifThen ht hcond hyes => exact ⟨_, _, rfl, .inl ⟨_, by simp_all [lead?, Token.is], .ifThen hcond hyes⟩⟩
  | ifElse ht hcond hyes hopen hother hno =>
    exact ⟨_, _, rfl, .inl ⟨_, by simp_all [lead?, Token.is], .ifElse hcond hyes hopen hother hno⟩⟩
  | whileLoop ht hcond hbody => exact ⟨_, _, rfl, .inl ⟨_, by simp_all [lead?, Token.is], .whileLoop hcond hbody⟩⟩
  | forLoop ht hclauses hbody => exact ⟨_, _, rfl, .inl ⟨_, by simp_all [lead?, Token.is], .forLoop hclauses hbody⟩⟩
  | block ht hbody => exact ⟨_, _, rfl, .inl ⟨_, by simp_all [lead?, Token.is], .block hbody⟩⟩
  | @expr close u _ hx hclose =>
    obtain ⟨t, v, hu, hstarts⟩ := level_first hx
    exact ⟨t, v ++ [close], by simp [hu], .inr ⟨hstarts, u, close, rfl, hx, hclose⟩⟩

/-- The tokens that a statement starts with are no others. -/
theorem lead_none_of_starts {t : Token} (h : StartsOperand t) : lead? t = none := by
  have hmem : ∀ {terminal : Terminal}, terminal ∉ operandStarts → t.is terminal = false :=
    fun hno => Bool.eq_false_iff.2 fun ht => hno (h.mem ht)
  unfold lead?
  rw [hmem (by decide), hmem (by decide), hmem (by decide), hmem (by decide), hmem (by decide), hmem (by decide),
    hmem (by decide), hmem (by decide)]
  rfl

/-- No statement starts with a closing brace, with `else` or with the end mark. -/
theorem statement_first {w : List Token} {x : Phrase} (h : Statement w x) :
    ∃ t v, w = t :: v ∧ t.is (.punct "\x7d") = false ∧ t.is (.keyword "else") = false ∧ t.kind ≠ .eof := by
  obtain ⟨t, v, rfl, ⟨lead, hlead, -⟩ | ⟨hstarts, -⟩⟩ := statement_lead h
  · refine ⟨t, v, rfl, ?_⟩
    unfold lead? at hlead
    grind [Token.is]
  · refine ⟨t, v, rfl, Bool.eq_false_iff.2 fun ht => ?_, Bool.eq_false_iff.2 fun ht => ?_, fun hkind => ?_⟩
    · exact absurd (hstarts.mem ht) (by decide)
    · exact absurd (hstarts.mem ht) (by decide)
    · rcases hstarts with ⟨op, h⟩ | h | h | h | h
      · simp [unaryOp?, hkind] at h
      · exact kind_of_is h hkind
      all_goals simp [hkind] at h

/-! ## An `else` belongs to the nearest `if` -/

theorem tail_not_dangling {P : Language Phrase} {n d : Nat} {x z : Phrase} {w : List Token} (h : Tail P n d x w z)
    (hx : x.dangling = false) : z.dangling = false := by
  induction h with
  | nil => exact hx
  | operator _ _ _ _ _ ih => exact ih rfl

/-- Expressions leave no `if` open. The induction is on the number of tokens: parentheses are the only way back from an
operand to an expression of the same denotation. -/
theorem expression_not_dangling : ∀ (size : Nat) {n : Nat} {w : List Token} {x : Phrase}, w.length ≤ size →
    Level Operand n w x → x.dangling = false := by
  intro size
  induction size with
  | zero =>
    intro n w x hw h
    obtain ⟨t, v, rfl, -⟩ := level_first h
    cases hw
  | succ size ih =>
    intro n w x hw h
    obtain ⟨u, v, y, rfl, hy, ht⟩ := h.split
    refine tail_not_dangling ht ?_
    cases hy with
    | parens _ hx _ =>
      refine ih ?_ hx
      simp only [List.length_append, List.length_cons] at hw
      omega
    | name _ hsuffix => cases hsuffix <;> rfl
    | _ => rfl

/-- What may come after a statement. -/
def closesIf : Follow Phrase := fun x v => x.dangling = true → ∀ t, v.head? = some t → t.is (.keyword "else") = false

/-- The parser leaves no `else` behind that belongs to the statement it has read. -/
theorem statement_stops (f : String) (s : State) : (statement f s).Ends
    (fun stmt s' => stmt.phrase.dangling = true → s'.accept? (.keyword "else") = none) (fun _ _ => True) := by
  refine (statement.mutual_induct
    (fun s => (statement f s).Ends
      (fun stmt s' => stmt.phrase.dangling = true → s'.accept? (.keyword "else") = none) (fun _ _ => True))
    (fun _ => True) ?lead ?noLead ?close ?atEnd ?more).1 s
  case lead =>
    intro s t ht ihFirst ihSecond _
    rw [statement, ht]
    refine Taken.ends_bind ?_
    split
    · trivial
    · refine Result.ends_relax (Result.ends_mono (reads_returned f t.next).derives ?_ fun _ _ h => h)
      rintro stmt s' ⟨w, value, -, hstmt⟩ hdangling
      rw [hstmt] at hdangling
      cases hdangling
    · next isGlobal _ =>
      refine Result.ends_relax (Result.ends_mono (reads_declaration _ t.next).derives ?_ fun _ _ h => h)
      rintro stmt s' ⟨w, name, -, hstmt⟩ hdangling
      rw [hstmt] at hdangling
      cases isGlobal <;> cases hdangling
    · refine Result.ends_andThen (ends_any _) fun cond s₂ h₂ _ => ?_
      refine Result.ends_andThen (ends_any _) fun yes s₃ h₃ _ => ?_
      cases helse : s₃.accept? (.keyword "else") with
      | none => exact fun _ => helse
      | some u =>
        refine Taken.ends_andThen (Result.ends_andThen (ihSecond t.next t.shorter s₂ h₂ s₃ h₃ u.next u.shorter)
          fun no s₅ _ hno => hno)
    · refine Result.ends_andThen (ends_any _) fun cond s₂ h₂ _ => ?_
      exact Result.ends_andThen (ihFirst t.next t.shorter s₂ h₂) fun body s₃ _ hbody => hbody
    · refine Result.ends_andThen (ends_any _) fun clauses s₂ h₂ _ => ?_
      exact Result.ends_andThen (ihFirst t.next t.shorter s₂ h₂) fun body s₃ _ hbody => hbody
    · refine Result.ends_andThen (ends_any _) fun stmts s₂ _ _ => ?_
      intro hdangling
      cases hdangling
  case noLead =>
    intro s ht
    rw [statement, ht]
    refine Result.ends_bind (reads_expression f s).derives fun e s₁ _ he => ?_
    obtain ⟨w, hw⟩ := he
    refine Result.ends_andThen (ends_any _) fun _ s₂ _ _ hdangling => ?_
    rw [Stmt.phrase, expression_not_dangling _ (Nat.le_refl _) hw] at hdangling
    cases hdangling
  case close => intros; trivial
  case atEnd => intros; trivial
  case more => intros; trivial

/-! ## Statements and blocks -/

theorem kind_of_atEnd {t : Token} (h : s.atEnd = true) (ht : s.tokens.head? = some t) : t.kind = .eof := by
  unfold State.atEnd at h
  cases htokens : s.tokens with
  | nil => rw [htokens] at ht; cases ht
  | cons t' rest =>
    rw [htokens] at h ht
    cases ht
    simpa using h

/-- What comes after the first branch of an `if`. -/
inductive Otherwise (cond yes : Phrase) : Language Phrase
  | none : Otherwise cond yes [] (.ifElse cond yes none)
  | some {t : Token} {w : List Token} {no : Phrase} : yes.dangling = false → t.is (.keyword "else") → Statement w no →
      Otherwise cond yes (t :: w) (.ifElse cond yes (some no))

theorem reads_otherwise {cond : Expr} {yes : Stmt} {line : Nat}
    (hstop : yes.phrase.dangling = true → s.accept? (.keyword "else") = none)
    (hno : ∀ t, s.accept? (.keyword "else") = some t →
      Reads Statement closesIf Stmt.phrase t.next.tokens (statement f t.next)) :
    Reads (Otherwise cond.phrase yes.phrase) closesIf Stmt.phrase s.tokens
      (match s.accept? (.keyword "else") with
        | some t =>
          t.andThen fun _ s₄ _ =>
          (statement f s₄).andThen fun no s₅ _ => .done (.expr (.ifElse (control line) cond yes (some no))) s₅
        | none => .done (.expr (.ifElse (control line) cond yes none)) s) := by
  cases helse : s.accept? (.keyword "else") with
  | some t =>
    obtain ⟨token, htokens, htoken⟩ := tokens_of_accept helse
    have hclosed : yes.phrase.dangling = false := by
      refine Bool.eq_false_iff.2 fun hdangling => ?_
      rw [hstop hdangling] at helse
      cases helse
    refine Reads.of (M := .after token (Statement.seq fun no => .just (.ifElse cond.phrase yes.phrase (some no))))
      (reads_relax (reads_taken htokens (kind_of_is htoken) (reads_andThen (hno t helse) (fun no s₅ _ _ =>
        reads_done Stmt.phrase (.expr (.ifElse (control line) cond yes (some no))) s₅) ?_))) ?_ ?_
    · rintro x u y v ⟨rfl, rfl⟩ hv
      exact hv
    · rintro w x ⟨_, rfl, u, _, no, rfl, hu, rfl, rfl⟩
      simpa using Otherwise.some hclosed htoken hu
    · rintro u y v hu hv hmeets
      cases hu with
      | none =>
        have hnext := hv rfl token (by rw [← List.nil_append v, ← hmeets.next, htokens]; rfl)
        simp [htoken] at hnext
      | some _ _ hno => cases hmeets.head htokens; exact ⟨_, rfl, _, [], _, by simp, hno, rfl, rfl⟩
  | none =>
    refine Reads.of (M := .just (.ifElse cond.phrase yes.phrase none))
      (reads_done Stmt.phrase (.expr (.ifElse (control line) cond yes none)) s) ?_ ?_
    · rintro w x ⟨rfl, rfl⟩
      exact .none
    · rintro u y v hu - hmeets
      cases hu with
      | none => exact ⟨rfl, rfl⟩
      | some _ htoken _ => exact absurd htoken (hmeets.unaccepted helse)

/-- A statement that starts with the token that comes next is one of its kind. -/
theorem statement_after {token : Token} {lead : Lead} {rest u v : List Token} {y : Phrase} (hlead : lead? token = some lead)
    (hu : Statement u y) (htokens : s.tokens = token :: rest) (hmeets : Meets [] s.tokens (u ++ v)) :
    ∃ w, u = token :: w ∧ AfterLead lead w y := by
  obtain ⟨t, w, rfl, ⟨lead', hlead', h⟩ | ⟨hstarts, -⟩⟩ := statement_lead hu
  · cases hmeets.head htokens
    rw [hlead] at hlead'
    cases hlead'
    exact ⟨w, rfl, h⟩
  · cases hmeets.head htokens
    rw [lead_none_of_starts hstarts] at hlead
    cases hlead

theorem reads_lead {t : Taken s.size Lead} {k : Lead → (s' : State) → s'.size < s.size → Result (s'.size + 1) Stmt}
    {token : Token} {lead : Lead} (htokens : s.tokens = token :: t.next.tokens) (hlead : lead? token = some lead)
    (hk : Reads (AfterLead lead) closesIf Stmt.phrase t.next.tokens (k t.value t.next t.shorter)) :
    Reads Statement closesIf Stmt.phrase s.tokens (t.bind k) := by
  have hkind : token.kind ≠ .eof := by
    intro hkind
    simp [lead?, Token.is, hkind] at hlead
  refine Reads.of (M := .after token (AfterLead lead)) (reads_taken htokens hkind hk) ?_ ?_
  · rintro w x ⟨_, rfl, h⟩
    exact statement_of_lead hlead h
  · exact fun u y v hu _ hmeets => statement_after hlead hu htokens hmeets

/-! ### After the first token -/

theorem reads_return (f : String) (s : State) :
    Reads (AfterLead .ret) closesIf Stmt.phrase s.tokens (returned f s).relax := by
  refine reads_relax (Reads.of ((reads_returned f s).following fun _ _ _ => trivial) (fun _ _ => .ret) ?_)
  rintro u y v hu - -
  cases hu with
  | ret h => exact h

theorem reads_declared (f : String) (isGlobal : Bool) (s : State) : Reads (AfterLead (.declaration isGlobal)) closesIf
    Stmt.phrase s.tokens (declaration (if isGlobal then none else some f) s).relax := by
  refine reads_relax (Reads.of ((reads_declaration _ s).following fun _ _ _ => trivial) ?_ ?_)
  · rintro w x ⟨name, h, rfl⟩
    cases isGlobal with
    | true => exact .globalDecl h
    | false => exact .varDecl h
  · rintro u y v h - -
    cases h with
    | globalDecl h => exact ⟨_, h, rfl⟩
    | varDecl h => exact ⟨_, h, rfl⟩

theorem reads_ifElse (f : String) (line : Nat) (s : State)
    (hyes : ∀ s₂, s₂.size < s.size → Reads Statement closesIf Stmt.phrase s₂.tokens (statement f s₂))
    (hno : ∀ s₂ : State, s₂.size < s.size → ∀ s₃ : State, s₃.size < s₂.size → ∀ s₄ : State, s₄.size < s₃.size →
      Reads Statement closesIf Stmt.phrase s₄.tokens (statement f s₄)) :
    Reads (AfterLead .ifElse) closesIf Stmt.phrase s.tokens ((parenthesised f s).andThen fun cond s₂ _ =>
      (statement f s₂).andThen fun yes s₃ _ =>
        match s₃.accept? (.keyword "else") with
        | some t =>
          t.andThen fun _ s₄ _ =>
          (statement f s₄).andThen fun no s₅ _ => .done (.expr (.ifElse (control line) cond yes (some no))) s₅
        | none => .done (.expr (.ifElse (control line) cond yes none)) s₃) := by
  refine Reads.of (M := Condition.seq fun cond => Statement.seq (Otherwise cond))
    (reads_andThen (reads_parenthesised f s) (fun cond s₂ h₂ _ => reads_andThen (hyes s₂ h₂) (fun yes s₃ h₃ hok => ?_) ?_)
      fun _ _ _ _ _ _ => trivial) ?_ ?_
  · have hstop := statement_stops f s₂
    rw [hok] at hstop
    exact reads_otherwise hstop fun t _ => hno s₂ h₂ s₃ h₃ t.next t.shorter
  · rintro yes u y v hu hv hdangling t ht
    cases hu with
    | none => exact hv rfl t ht
    | some hclosed _ _ => rw [hclosed] at hdangling; cases hdangling
  · rintro w x ⟨u, _, cond, rfl, hcond, v, _, yes, rfl, hyes, hother⟩
    cases hother with
    | none => simpa using AfterLead.ifThen hcond hyes
    | some hclosed htoken hno => exact .ifElse hcond hyes hclosed htoken hno
  · rintro u y v hu - -
    cases hu with
    | ifThen hcond hyes => exact ⟨_, _, _, rfl, hcond, _, [], _, by simp, hyes, .none⟩
    | ifElse hcond hyes hclosed htoken hno => exact ⟨_, _, _, rfl, hcond, _, _, _, rfl, hyes, .some hclosed htoken hno⟩

/-- What a loop leaves open is what its body leaves open. -/
theorem reads_loop {α T : Type} {n : Nat} {L : Language T} {shows : α → T} {ts : List Token} {r : Result n α}
    (make : T → Phrase → Phrase) (node : α → Stmt → Stmt) (hr : Reads L anything shows ts r)
    (hbody : ∀ s₂, s₂.size < n → Reads Statement closesIf Stmt.phrase s₂.tokens (statement f s₂))
    (hnode : ∀ a body, (node a body).phrase = make (shows a) body.phrase)
    (hdangling : ∀ x y, (make x y).dangling = y.dangling) :
    Reads (L.seq fun x => Statement.seq fun body => .just (make x body)) closesIf Stmt.phrase ts (r.andThen fun a s₂ _ =>
      (statement f s₂).andThen fun body s₃ _ => .done (node a body) s₃) := by
  refine reads_andThen hr (fun a s₂ h₂ _ => reads_andThen (hbody s₂ h₂) (fun body s₃ _ _ => ?_) ?_)
    fun _ _ _ _ _ _ => trivial
  · rw [← hnode]
    exact reads_done Stmt.phrase (node a body) s₃
  · rintro y u z v ⟨rfl, rfl⟩ hv hopen
    exact hv ((hdangling _ y).trans hopen)

theorem reads_whileLoop (f : String) (line : Nat) (s : State)
    (hbody : ∀ s₂, s₂.size < s.size → Reads Statement closesIf Stmt.phrase s₂.tokens (statement f s₂)) :
    Reads (AfterLead .whileLoop) closesIf Stmt.phrase s.tokens ((parenthesised f s).andThen fun cond s₂ _ =>
      (statement f s₂).andThen fun body s₃ _ => .done (.expr (.whileLoop (control line) cond body)) s₃) := by
  refine Reads.of (reads_loop .whileLoop (fun cond body => .expr (.whileLoop (control line) cond body))
    (reads_parenthesised f s) hbody (fun _ _ => rfl) fun _ _ => rfl) ?_ ?_
  · rintro w x ⟨u, _, cond, rfl, hcond, v, _, body, rfl, hbody, rfl, rfl⟩
    simpa using AfterLead.whileLoop hcond hbody
  · rintro u y v hu - -
    cases hu with
    | whileLoop hcond hbody => exact ⟨_, _, _, rfl, hcond, _, [], _, by simp, hbody, rfl, rfl⟩

theorem reads_forLoop (f : String) (line : Nat) (s : State)
    (hbody : ∀ s₂, s₂.size < s.size → Reads Statement closesIf Stmt.phrase s₂.tokens (statement f s₂)) :
    Reads (AfterLead .forLoop) closesIf Stmt.phrase s.tokens ((clauses f s).andThen fun (init, cond, post) s₂ _ =>
      (statement f s₂).andThen fun body s₃ _ => .done (.expr (.forLoop (control line) init cond post body)) s₃) := by
  refine Reads.of (reads_loop (fun x => .forLoop x.1 x.2.1 x.2.2)
    (fun x body => .expr (.forLoop (control line) x.1 x.2.1 x.2.2 body)) (reads_clauses f s) hbody
    (fun _ _ => rfl) fun _ _ => rfl) ?_ ?_
  · rintro w x ⟨u, _, ⟨init, cond, post⟩, rfl, hclauses, v, _, body, rfl, hbody, rfl, rfl⟩
    simpa using AfterLead.forLoop hclauses hbody
  · rintro u y v hu - -
    cases hu with
    | forLoop hclauses hbody => exact ⟨_, _, (_, _, _), rfl, hclauses, _, [], _, by simp, hbody, rfl, rfl⟩

theorem reads_blockStatement (f : String) (s : State) (hbody : Reads Body anything stmtPhrases s.tokens (statements f s)) :
    Reads (AfterLead .block) closesIf Stmt.phrase s.tokens
      ((statements f s).andThen fun stmts s₂ _ => .done (.block stmts) s₂) := by
  refine Reads.of (M := Body.seq fun stmts => .just (.block stmts))
    (reads_andThen hbody (fun stmts s₂ _ _ => reads_done Stmt.phrase (.block stmts) s₂) fun _ _ _ _ _ _ => trivial) ?_ ?_
  · rintro w x ⟨u, _, stmts, rfl, hstmts, rfl, rfl⟩
    simpa using AfterLead.block hstmts
  · rintro u y v hu - -
    cases hu with
    | block hbody => exact ⟨_, [], _, by simp, hbody, rfl, rfl⟩

/-- What starts like no other statement is an expression with a semicolon. -/
theorem reads_expressionStatement (f : String) (s : State) (ht : s.take? lead? = none) :
    Reads Statement closesIf Stmt.phrase s.tokens ((expression f s).bind fun e s₁ _ =>
      (s₁.expect (.punct ";")).andThen fun _ s₂ _ => .done (.expr e) s₂) := by
  refine Reads.of (M := Expression.seq fun x => (Language.the (.punct ";")).seq fun _ => .just x)
    (reads_bind (reads_expression f s) (fun e s₁ _ _ => reads_andThen (F := anything) reads_expect
      (fun _ s₂ _ _ => reads_done Stmt.phrase (.expr e) s₂) fun _ _ _ _ _ _ => trivial) ?_) ?_ ?_
  · rintro x u y v ⟨_, _, _, rfl, ⟨close, rfl, hclose⟩, -, -⟩ -
    exact Closed.semicolon hclose
  · rintro w x ⟨u, _, y, rfl, hy, _, _, _, rfl, ⟨close, rfl, hclose⟩, rfl, rfl⟩
    exact .expr hy hclose
  · rintro u y v hu - hmeets
    obtain ⟨t, w, rfl, ⟨lead, hlead, -⟩ | ⟨-, u, close, hw, hx, hclose⟩⟩ := statement_lead hu
    · rw [hmeets.unread ht] at hlead
      cases hlead
    · exact ⟨u, [close], y, hw, hx, [close], [], (), rfl, ⟨close, rfl, hclose⟩, rfl, rfl⟩

/-! ### Blocks -/

theorem reads_endOfBlock {t : Taken s.size Unit} (ht : s.accept? (.punct "\x7d") = some t) :
    Reads Body anything stmtPhrases s.tokens (t.bind fun _ s₁ _ => .done [] s₁) := by
  obtain ⟨token, htokens, htoken⟩ := tokens_of_accept ht
  refine Reads.of (M := .after token (.just []))
    (reads_taken htokens (kind_of_is htoken) (reads_done stmtPhrases [] t.next)) ?_ ?_
  · rintro w x ⟨_, rfl, rfl, rfl⟩
    exact .empty htoken
  · rintro u y v hu - hmeets
    cases hu with
    | empty _ => cases hmeets.head htokens; exact ⟨[], rfl, rfl, rfl⟩
    | cons hstmt _ =>
      obtain ⟨t', w, rfl, hbrace, -⟩ := statement_first hstmt
      cases hmeets.head htokens
      simp [htoken] at hbrace

theorem reads_unclosedBlock {n : Nat} (ht : s.accept? (.punct "\x7d") = none) (hend : s.atEnd = true) :
    Reads Body anything stmtPhrases s.tokens (.fail (.grammar s.line .unclosedBlock) s : Result n (List Stmt)) := by
  refine reads_refused ?_
  rintro u y v hu - hmeets
  cases hu with
  | empty hclose => exact absurd hclose (hmeets.unaccepted ht)
  | cons hstmt _ =>
    obtain ⟨t', w, rfl, -, -, hkind⟩ := statement_first hstmt
    exact hkind (kind_of_atEnd hend hmeets.head?)

theorem reads_moreStatements (ht : s.accept? (.punct "\x7d") = none)
    (hstmt : Reads Statement closesIf Stmt.phrase s.tokens (statement f s))
    (hrest : ∀ s₁, s₁.size < s.size → Reads Body anything stmtPhrases s₁.tokens (statements f s₁)) :
    Reads Body anything stmtPhrases s.tokens ((statement f s).bind fun stmt s₁ _ =>
      (statements f s₁).andThen fun stmts s₂ _ => .done (stmt :: stmts) s₂) := by
  refine Reads.of (M := Statement.seq fun x => Body.seq fun xs => .just (x :: xs))
    (reads_bind hstmt (fun stmt s₁ h₁ _ => reads_andThen (hrest s₁ h₁) (fun stmts s₂ _ _ =>
      reads_done stmtPhrases (stmt :: stmts) s₂) fun _ _ _ _ _ _ => trivial) ?_) ?_ ?_
  · rintro x u y v ⟨w, _, xs, rfl, hxs, -, -⟩ - - t ht
    cases hxs with
    | empty hclose =>
      cases ht
      simp_all [Token.is]
    | cons hstmt _ =>
      obtain ⟨t', w', rfl, -, helse, -⟩ := statement_first hstmt
      cases ht
      exact helse
  · rintro w x ⟨u, _, y, rfl, hy, v, _, ys, rfl, hys, rfl, rfl⟩
    simpa using Body.cons hy hys
  · rintro u y v hu - hmeets
    cases hu with
    | empty hclose => exact absurd hclose (hmeets.unaccepted ht)
    | cons hstmt hrest => exact ⟨_, _, _, rfl, hstmt, _, [], _, by simp, hrest, rfl, rfl⟩

/-- **Statements.** Statements and the rest of blocks are read as their languages ask. -/
theorem statements_read (f : String) :
    (∀ s, Reads Statement closesIf Stmt.phrase s.tokens (statement f s)) ∧
    (∀ s, Reads Body anything stmtPhrases s.tokens (statements f s)) := by
  refine statement.mutual_induct _ _ ?lead ?noLead ?close ?atEnd ?more
  case lead =>
    intro s t ht ihFirst ihSecond ihBlock
    obtain ⟨token, htokens, hlead⟩ := tokens_of_take ht
    obtain ⟨lead, s₁, h₁⟩ := t
    rw [statement, ht]
    cases lead with
    | nestedFunction =>
      refine reads_refused fun u y v hu _ hmeets => ?_
      obtain ⟨w, rfl, h⟩ := statement_after hlead hu htokens hmeets
      cases h
    | ret => exact reads_lead htokens hlead (reads_return f s₁)
    | declaration isGlobal => exact reads_lead htokens hlead (reads_declared f isGlobal s₁)
    | ifElse =>
      refine reads_lead htokens hlead (reads_ifElse f s.line s₁ (ihFirst s₁ h₁) fun s₂ h₂ s₃ h₃ => ?_)
      exact ihSecond s₁ h₁ s₂ h₂ s₃ h₃
    | whileLoop => exact reads_lead htokens hlead (reads_whileLoop f s.line s₁ (ihFirst s₁ h₁))
    | forLoop => exact reads_lead htokens hlead (reads_forLoop f s.line s₁ (ihFirst s₁ h₁))
    | block => exact reads_lead htokens hlead (reads_blockStatement f s₁ (ihBlock s₁ h₁))
  case noLead =>
    intro s ht
    rw [statement, ht]
    exact reads_expressionStatement f s ht
  case close =>
    intro s t ht
    rw [statements, ht]
    exact reads_endOfBlock ht
  case atEnd =>
    intro s ht hend
    rw [statements, ht, if_pos hend]
    exact reads_unclosedBlock ht hend
  case more =>
    intro s ht hend ihStmt ihRest
    rw [statements, ht, if_neg hend]
    exact reads_moreStatements ht ihStmt ihRest

end MiniC.Parse
