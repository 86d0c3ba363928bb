import MiniC.Parse.Expression
import MiniC.Proofs.TypingRules

/-!
# Expressions are read as trees that fit

Reading an expression declares nothing (`Kept`), and the tree that comes out fits the table (`binary_typed`). The proof
follows the grammar: one case per function of the parser and per choice it makes, with the rules of `Typing` at the
places where nodes are built.
-/

namespace MiniC.Parse

variable {f : String} {s s₁ s₂ : State}

/-- Nothing was declared on the way from `s` to `s'`; labels may have been drawn. -/
structure Kept (s s' : State) : Prop where
  symbols : s'.context.symbols = s.context.symbols
  labels : s.context.nextLabel ≤ s'.context.nextLabel

namespace Kept

theorem refl (s : State) : Kept s s := ⟨rfl, Nat.le_refl _⟩

theorem trans (h : Kept s s₁) (h' : Kept s₁ s₂) : Kept s s₂ :=
  ⟨h'.symbols.trans h.symbols, Nat.le_trans h.labels h'.labels⟩

theorem of_context (h : s₁.context = s.context) : Kept s s₁ := ⟨by rw [h], Nat.le_of_eq (by rw [h])⟩

theorem of_take {α : Type} {read : Token → Option α} {t : Taken s.size α} (h : s.take? read = some t) : Kept s t.next :=
  of_context (context_of_take h)

theorem of_accept {terminal : Terminal} {t : Taken s.size Unit} (h : s.accept? terminal = some t) : Kept s t.next :=
  of_context (context_of_accept h)

theorem sound (h : Kept s s₁) (hs : s.context.Sound) : s₁.context.Sound := hs.of_symbols h.symbols h.labels

end Kept

/-- What an expression parser leaves: a tree that fits the table, and the table as it was. -/
structure ReadExpr (f : String) (s : State) (e : Expr) (s' : State) : Prop where
  kept : Kept s s'
  typed : Typed s.context.symbols f e
  resolved : Resolved s.context.symbols f e

/-- What a failed expression parser leaves. -/
def FailedExpr (s : State) (_ : Fault) (s' : State) : Prop := Kept s s'

/-- What a parser of arguments leaves. -/
structure ReadArgs (f : String) (s : State) (args : List Expr) (s' : State) : Prop where
  kept : Kept s s'
  typed : ∀ arg ∈ args, Typed s.context.symbols f arg

theorem ReadExpr.from {e : Expr} (h : Kept s s₁) (he : ReadExpr f s₁ e s₂) : ReadExpr f s e s₂ :=
  ⟨h.trans he.kept, h.symbols ▸ he.typed, h.symbols ▸ he.resolved⟩

theorem ReadArgs.from {args : List Expr} (h : Kept s s₁) (ha : ReadArgs f s₁ args s₂) : ReadArgs f s args s₂ :=
  ⟨h.trans ha.kept, h.symbols ▸ ha.typed⟩

section Chaining

variable {m : Nat}

/-- A parser run after something that kept the table. -/
theorem ends_from {r : Result m Expr} (h : Kept s s₁) (hr : r.Ends (ReadExpr f s₁) (FailedExpr s₁)) :
    r.Ends (ReadExpr f s) (FailedExpr s) :=
  Result.ends_mono hr (fun _ _ he => he.from h) (fun _ _ he => h.trans he)

theorem ends_args_from {r : Result m (List Expr)} (h : Kept s s₁) (hr : r.Ends (ReadArgs f s₁) (FailedExpr s₁)) :
    r.Ends (ReadArgs f s) (FailedExpr s) :=
  Result.ends_mono hr (fun _ _ ha => ha.from h) (fun _ _ he => h.trans he)

theorem ends_expect_kept {terminal : Terminal} (h : Kept s s₁) :
    (s₁.expect terminal).Ends (fun _ s' => Kept s s') (FailedExpr s) :=
  ends_expect (fun _ hnext => h.trans (.of_context hnext)) (fun _ => h)

end Chaining

/-! ## Literals -/

theorem number_read (s : State) : (number s).Ends (fun _ s' => Kept s s') (FailedExpr s) :=
  ends_need (fun _ _ _ _ _ h => .of_context h) (fun _ => .refl s)

theorem identifier_read (s : State) : (identifier s).Ends (fun _ s' => Kept s s') (FailedExpr s) :=
  ends_need (fun _ _ _ _ _ h => .of_context h) (fun _ => .refl s)

theorem typed_ofInt (t : SymbolTable) (value : Int) (line : Nat) : Typed t f (.ofInt value line) := by
  refine .number ?_
  show (if 0 ≤ value ∧ value ≤ 255 then Ty.char else _) = _
  unfold literalTy
  have h₁ : (0 ≤ value ∧ value ≤ 255) ↔ (0 ≤ value ∧ value < 256) := by omega
  have h₂ : (-2147483648 ≤ value ∧ value ≤ 2147483647) ↔ (-2147483648 ≤ value ∧ value < 2147483648) := by omega
  simp only [h₁, h₂]

theorem drawLabel_kept (s : State) : (s.perform CompileM.drawLabel).Ends (fun _ s' => Kept s s') (FailedExpr s) :=
  ⟨rfl, Nat.le_succ _⟩

theorem stringLiteral_read (s : State) : (stringLiteral s).Ends (ReadExpr f s) (FailedExpr s) := by
  unfold stringLiteral
  refine Result.ends_bind (P := fun _ s' => Kept s s') (ends_need (fun _ _ _ _ _ h => .of_context h) fun _ => .refl s) ?_
  intro token s₁ _ h₁
  split
  · refine Result.ends_bind (P := fun _ s' => Kept s s')
      (Result.ends_mono (drawLabel_kept s₁) (fun _ _ h => h₁.trans h) fun _ _ h => h₁.trans h) ?_
    intro label s₂ _ h₂
    exact ⟨h₂, .string rfl, trivial⟩
  · exact .refl s

/-! ## The grammar -/

/-- **Expressions.** Every part of the expression grammar gives trees that fit the table. -/
theorem grammar_typed (f : String) :
    (∀ floor s, s.context.Sound → (binary f floor s).Ends (ReadExpr f s) (FailedExpr s)) ∧
    (∀ floor left s, s.context.Sound → Typed s.context.symbols f left → Resolved s.context.symbols f left →
      (operators f floor left s).Ends (ReadExpr f s) (FailedExpr s)) ∧
    (∀ s, s.context.Sound → (unary f s).Ends (ReadExpr f s) (FailedExpr s)) ∧
    (∀ s, s.context.Sound → (primary f s).Ends (ReadExpr f s) (FailedExpr s)) ∧
    (∀ name line s, s.context.Sound → (named f name line s).Ends (ReadExpr f s) (FailedExpr s)) ∧
    (∀ s, s.context.Sound → (arguments f s).Ends (ReadArgs f s) (FailedExpr s)) ∧
    (∀ s, s.context.Sound → (moreArguments f s).Ends (ReadArgs f s) (FailedExpr s)) := by
  refine binary.mutual_induct _ _ _ _ _ _ _
    ?binary ?operator ?noOperator ?unaryOp ?noUnaryOp ?parens ?number ?string ?name ?noPrimary ?call ?notCall ?noArgs
    ?someArgs ?moreArgs
  case binary =>
    intro floor s ihUnary ihOperators hs
    rw [binary]
    refine Result.ends_bind (ihUnary hs) fun left s₁ h₁ hleft => ?_
    have hkept := hleft.kept
    exact ends_from hkept (ihOperators left s₁ h₁ (hkept.sound hs) (hkept.symbols ▸ hleft.typed)
      (hkept.symbols ▸ hleft.resolved))
  case operator =>
    intro floor left s t ht ihRight ihRest hs hleft hresolved
    rw [operators, ht]
    have hkept := Kept.of_take ht
    refine Taken.ends_andThen (Result.ends_andThen
      (ends_from hkept (ihRight t.value t.next t.shorter (hkept.sound hs))) fun right s₂ h₂ hright => ?_)
    have hkept₂ := hright.kept
    refine ends_demand (fun e he => ?_) fun _ => hkept₂
    unfold State.names at he
    rw [hkept₂.symbols] at he
    obtain ⟨htyped, hnode⟩ := typed_binary hs hleft hresolved hright.typed he
    exact ends_from hkept₂ (ihRest t.next t.shorter s₂ h₂ e (hkept₂.sound hs) (hkept₂.symbols ▸ htyped)
      (hkept₂.symbols ▸ hnode))
  case noOperator =>
    intro floor left s ht hs hleft hresolved
    rw [operators, ht]
    exact ⟨.refl s, hleft, hresolved⟩
  case unaryOp =>
    intro s t ht ihOperand hs
    rw [unary, ht]
    have hkept := Kept.of_take ht
    refine Taken.ends_bind (Result.ends_andThen
      (ends_from hkept (ihOperand t.next t.shorter (hkept.sound hs))) fun operand s₂ _ hoperand => ?_)
    have hkept₂ := hoperand.kept
    refine ends_demand (fun e he => ?_) fun _ => hkept₂
    unfold State.names at he
    rw [hkept₂.symbols] at he
    obtain ⟨htyped, hnode⟩ := typed_unary hs hoperand.typed hoperand.resolved he
    exact ⟨hkept₂, htyped, hnode⟩
  case noUnaryOp =>
    intro s ht ihPrimary hs
    rw [unary, ht]
    exact ihPrimary hs
  case parens =>
    intro s t ht ihInner hs
    rw [primary, ht]
    have hkept := Kept.of_accept ht
    refine Taken.ends_bind (Result.ends_andThen
      (ends_from hkept (ihInner t.next t.shorter (hkept.sound hs))) fun e s₂ _ he => ?_)
    refine Result.ends_andThen (ends_expect_kept he.kept) fun _ s₃ _ h₃ => ?_
    exact ⟨h₃, he.typed, he.resolved⟩
  case number =>
    intro s hparens hkind hs
    rw [primary, hparens, hkind]
    refine Result.ends_bind (number_read s) fun value s₁ _ h₁ => ?_
    exact ⟨h₁, typed_ofInt _ _ _, trivial⟩
  case string =>
    intro s hparens hkind hs
    rw [primary, hparens, hkind]
    exact stringLiteral_read s
  case name =>
    intro s hparens hkind ihNamed hs
    rw [primary, hparens, hkind]
    refine Result.ends_bind (identifier_read s) fun (name, line) s₁ h₁ hkept => ?_
    exact ends_from hkept (ihNamed s₁ h₁ name line (hkept.sound hs))
  case noPrimary =>
    intro s hparens hnumber hstring hident hs
    rw [primary, hparens]
    simp only
    exact Kept.refl s
  case call =>
    intro name line s hsees ihArgs hs
    rw [named, if_pos hsees]
    refine ends_demand (fun (ret, params) hcallee => ?_) fun _ => .refl s
    refine Result.ends_andThen (ends_expect_kept (.refl s)) fun _ s₁ h₁ hkept => ?_
    refine Result.ends_andThen (ends_args_from hkept (ihArgs s₁ h₁ (hkept.sound hs))) fun args s₂ _ hargs => ?_
    refine ends_demand (fun e he => ?_) fun _ => hargs.kept
    obtain ⟨htyped, hnode⟩ := typed_call hs hcallee hargs.typed he
    exact ⟨hargs.kept, htyped, hnode⟩
  case notCall =>
    intro name line s hsees ihIndex hs
    rw [named, if_neg hsees]
    refine ends_demand (fun base hbase => ?_) fun _ => .refl s
    obtain ⟨htyped, hresolved⟩ := typed_name hs hbase
    cases hbracket : s.accept? (.punct "[") with
    | some t =>
      have hkept := Kept.of_accept hbracket
      refine Taken.ends_andThen (Result.ends_andThen
        (ends_from hkept (ihIndex t.next t.shorter (hkept.sound hs))) fun index s₂ _ hindex => ?_)
      refine Result.ends_andThen (ends_expect_kept hindex.kept) fun _ s₃ _ h₃ => ?_
      refine ends_demand (fun e he => ?_) fun _ => h₃
      obtain ⟨htyped', hnode⟩ := typed_index htyped hindex.typed he
      exact ⟨h₃, htyped', hnode⟩
    | none =>
      cases hstep : s.take? trailingStep? with
      | some t =>
        have hkept := Kept.of_take hstep
        refine Taken.ends_andThen (ends_demand (fun e he => ?_) fun _ => hkept)
        have he : Typing.unary ⟨t.next.context.symbols, f⟩ (.step .after t.value) base = .ok e := he
        rw [hkept.symbols] at he
        obtain ⟨htyped', hnode⟩ := typed_unary hs htyped hresolved he
        exact ⟨hkept, htyped', hnode⟩
      | none => exact ⟨.refl s, htyped, hresolved⟩
  case noArgs =>
    intro s t ht hs
    rw [arguments, ht]
    exact Taken.ends_bind ⟨.of_accept ht, by simp⟩
  case someArgs =>
    intro s ht ihMore hs
    rw [arguments, ht]
    exact ihMore hs
  case moreArgs =>
    intro s ihArg ihMore hs
    rw [moreArguments]
    refine Result.ends_bind (ihArg hs) fun arg s₁ h₁ harg => ?_
    cases hcomma : s₁.accept? (.punct ",") with
    | some t =>
      have hkept := harg.kept.trans (.of_accept hcomma)
      refine Taken.ends_andThen (Result.ends_andThen
        (ends_args_from hkept (ihMore s₁ h₁ t.next t.shorter (hkept.sound hs))) fun args s₃ _ hargs => ?_)
      refine ⟨hargs.kept, fun a ha => ?_⟩
      rcases List.mem_cons.1 ha with rfl | ha
      · exact harg.typed
      · exact hargs.typed a ha
    | none =>
      refine Result.ends_andThen (ends_expect_kept harg.kept) fun _ s₂ _ h₂ => ⟨h₂, fun a ha => ?_⟩
      rw [List.mem_singleton.1 ha]
      exact harg.typed

theorem expression_typed (hs : s.context.Sound) : (expression f s).Ends (ReadExpr f s) (FailedExpr s) :=
  (grammar_typed f).1 0 s hs

/-- A condition has a value besides. -/
theorem condition_typed (hs : s.context.Sound) :
    (condition f s).Ends (fun e s' => ReadExpr f s e s' ∧ e.ty ≠ .void) (FailedExpr s) := by
  unfold condition
  refine Result.ends_bind (expression_typed hs) fun e s₁ _ he => ends_demand (fun e' he' => ?_) fun _ => he.kept
  obtain ⟨htyped, hnonvoid⟩ := typed_condition he.typed he'
  unfold Typing.condition at he'
  split at he'
  · cases he'; exact ⟨he, hnonvoid⟩
  · cases he'

end MiniC.Parse
