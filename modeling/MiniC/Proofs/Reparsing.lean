import MiniC.Proofs.Calls
import MiniC.Proofs.LiteralData
import MiniC.Proofs.Printing

/-!
# Printed expressions are read again

Printing an expression and parsing its text gives the expression back (`printed_expression_reparses`). The typing rules
see neither lines nor labels, so they give the same node to parts that are the same without these (`Expr.bare`). What is
printed is read as it was built: an operand `Stands` before anything that cannot follow a name, and a binary operation
`Climbs` at each floor that its operator extends, up to a token that extends it no more (`Loose`). `Reread` says both of
one expression; each kind of node has it if its parts do, with parentheses or where these fit without.
-/

namespace MiniC

/-! ## Trees without lines and labels -/

/-- The tree on no line and without the labels of its literals. -/
def Expr.bare (e : Expr) : Expr := e.marked (fun _ => 0) (fun _ => 0)

section Bare

variable {names : Names} {left right left' right' e : Expr} {line line' : Nat}

theorem exists_bare {x y : Except SemanticFault Expr} (h : y.map Expr.bare = x.map Expr.bare) (hx : x = .ok e) :
    ∃ e', y = .ok e' ∧ e'.bare = e.bare := by
  rw [hx] at h
  obtain ⟨e', hy, he⟩ := map_eq_ok h
  exact ⟨e', hy, he.symm⟩

theorem Expr.bare_marked (ℓ κ : Nat → Nat) (e : Expr) : (e.marked ℓ κ).bare = e.bare := by
  unfold Expr.bare
  rw [Expr.marked_marked]
  rfl

/-- The typing rules see neither lines nor labels. -/
theorem binary_bare {op : BinaryOp} (hleft : left'.bare = left.bare) (hright : right'.bare = right.bare) (line' : Nat)
    (h : Typing.binary names op left right line = .ok e) :
    ∃ e', Typing.binary names op left' right' line' = .ok e' ∧ e'.bare = e.bare := by
  refine exists_bare ?_ h
  have hall := fun l r n => @Typing.binary_marked (fun _ => 0) (fun _ => 0) names op l r n
  unfold Expr.bare at hleft hright ⊢
  rw [← hall, ← hall, hleft, hright]

theorem unary_bare {op : UnaryOp} (hoperand : left'.bare = left.bare) (h : Typing.unary names op left = .ok e) :
    ∃ e', Typing.unary names op left' = .ok e' ∧ e'.bare = e.bare := by
  refine exists_bare ?_ h
  have hall := fun l => @Typing.unary_marked (fun _ => 0) (fun _ => 0) names op l
  unfold Expr.bare at hoperand ⊢
  rw [← hall, ← hall, hoperand]

theorem name_bare {name : String} (line' : Nat) (h : Typing.name names name line = .ok e) :
    ∃ e', Typing.name names name line' = .ok e' ∧ e'.bare = e.bare := by
  refine exists_bare ?_ h
  have hall := fun n => @Typing.name_marked (fun _ => 0) (fun _ => 0) names name n
  unfold Expr.bare
  rw [← hall, ← hall]

theorem call_bare {name : String} {ret : Ty} {params : List Ty} {args args' : List Expr} (line' : Nat)
    (hargs : args'.map Expr.bare = args.map Expr.bare) (h : Typing.call name ret params args line = .ok e) :
    ∃ e', Typing.call name ret params args' line' = .ok e' ∧ e'.bare = e.bare := by
  refine exists_bare ?_ h
  have hall := fun as n => @Typing.call_marked (fun _ => 0) (fun _ => 0) name ret params as n
  unfold Expr.bare at hargs ⊢
  rw [← hall, ← hall, hargs]

theorem pointer_of_element {ty element : Ty} (h : ty.element? = some element) : ∃ base, ty = .pointer base := by
  cases ty with
  | pointer base => exact ⟨base, rfl⟩
  | plain base => cases h

theorem plain_of_isInteger {ty : Ty} (h : ty.isInteger = true) : ∃ base, ty = .plain base ∧ base ≠ .void := by
  cases ty with
  | pointer base => cases h
  | plain base => exact ⟨base, rfl, by rintro rfl; cases h⟩

/-- A pointer is no integer, so it is not scaled. -/
theorem convert?_pointer {pointee base : Base} (h : e.ty = .pointer pointee) (op : Option BinaryOp) :
    e.convert? (.plain base) op = none := by
  unfold Expr.convert?
  rw [h]
  simp [Ty.conversion, Ty.isInteger]

/-- An integer that fits a pointer as an offset is added to it. -/
theorem add_offset {element : Ty} {base index offset : Expr} (helement : base.ty.element? = some element)
    (hinteger : index.ty.isInteger = true) (hoffset : index.convert? base.ty (some .add) = some offset) :
    Typing.binary names .add base index line = .ok (.binary { ty := base.ty, line } .add base offset) := by
  obtain ⟨pointee, hbase⟩ := pointer_of_element helement
  obtain ⟨integer, hindex, hvoid⟩ := plain_of_isInteger hinteger
  have hpointer : base.convert? index.ty (some .add) = none := by rw [hindex, convert?_pointer hbase]
  have hvalues : ¬ (base.ty = .void ∨ index.ty = .void) := by simp [hbase, hindex, hvoid]
  unfold Typing.binary
  rw [if_neg (by decide)]
  unfold Typing.arithmetic
  rw [if_neg hvalues, if_neg (by simp [Typing.takesPointers, BinaryOp.isAdditive]), hpointer, hoffset]
  rfl

theorem deref_eq (names : Names) {operand : Expr} {element : Ty} (h : operand.ty.element? = some element) :
    Typing.unary names .deref operand = .ok (.ofUnary .deref operand element) := by
  show Typing.dereference operand = _
  unfold Typing.dereference
  rw [h]

/-- An index is an addition and a dereference. -/
theorem index_sum {name : String} {base index : Expr} (h : Typing.index base name index = .ok e) :
    ∃ sum, Typing.binary names .add base index base.line = .ok sum ∧ Typing.unary names .deref sum = .ok e := by
  unfold Typing.index at h
  split at h
  · cases h
  next element helement =>
  split at h
  · cases h
  next hinteger =>
  split at h
  · cases h
  next offset hoffset =>
  cases h
  have hsum : (Expr.binary { ty := base.ty, line := base.line } .add base offset).ty = base.ty := rfl
  exact ⟨_, add_offset helement (by simpa using hinteger) hoffset, deref_eq names (hsum ▸ helement)⟩

end Bare

/-- The text of an expression. -/
def Expr.source (e : Expr) : String := spaced e.phrase.printed

namespace Parse

variable {f : String} {t : SymbolTable}

/-! ## Parsers that succeed -/

section Success

variable {m n : Nat} {α β : Type} {s : State} {P : β → State → Prop} {token : Token} {rest : List Token}

/-- The result is a success in `P`. -/
def Result.Succeeds (r : Result n α) (P : α → State → Prop) : Prop := r.Ends P fun _ _ => False

theorem succeeds_demand {line : Nat} {verdict : Except SemanticFault α} {k : α → Result n β} {a : α}
    (h : verdict = .ok a) (hk : (k a).Succeeds P) : (s.demand line verdict k).Succeeds P := by
  rw [h]
  exact hk

theorem take_none {read : Token → Option β} (hs : s.tokens = token :: rest) (hread : read token = none) :
    s.take? read = none := by
  obtain ⟨tokens, lastLine, context⟩ := s
  cases hs
  unfold State.take?
  simp only [hread, Option.map_none]

theorem accept_none {terminal : Terminal} (hs : s.tokens = token :: rest) (h : token.is terminal = false) :
    s.accept? terminal = none := take_none hs (if_neg (ne_true_of_eq_false h))

end Success

/-! ## States at given tokens -/

/-- The tokens `rest` are left, and the symbols are `t`. -/
structure At (t : SymbolTable) (rest : List Token) (s : State) : Prop where
  tokens : s.tokens = rest
  symbols : s.context.symbols = t

namespace At

variable {β : Type} {s : State} {token : Token} {rest : List Token} {terminal : Terminal}

theorem names (h : At t rest s) (f : String) : s.names f = ⟨t, f⟩ := by rw [State.names, h.symbols]

theorem take {read : Token → Option β} {b : β} (h : At t (token :: rest) s) (hread : read token = some b) :
    ∃ u, s.take? read = some u ∧ u.value = b ∧ At t rest u.next := by
  obtain ⟨tokens, lastLine, context⟩ := s
  cases h.tokens
  unfold State.take?
  simp only [hread, Option.map_some]
  exact ⟨_, rfl, rfl, rfl, h.symbols⟩

theorem accept (h : At t (token :: rest) s) (his : token.is terminal = true) :
    ∃ u, s.accept? terminal = some u ∧ At t rest u.next := by
  obtain ⟨u, hu, -, hnext⟩ :=
    @take t Unit s token rest (fun t => if t.is terminal then some () else none) () h (if_pos his)
  exact ⟨u, hu, hnext⟩

theorem need {read : Token → Option β} {b : β} (h : At t (token :: rest) s) (cause : String → GrammarFault)
    (hread : read token = some b) : (s.need read cause).Succeeds fun b' s' => b' = b ∧ At t rest s' := by
  obtain ⟨tokens, lastLine, context⟩ := s
  cases h.tokens
  unfold State.need State.take?
  simp only [hread, Option.map_some]
  exact ⟨rfl, rfl, h.symbols⟩

theorem expect (h : At t (token :: rest) s) (his : token.is terminal = true) :
    (s.expect terminal).Succeeds fun _ s' => At t rest s' :=
  Result.ends_mono (h.need (.expected terminal.text) (if_pos his)) (fun _ _ h' => h'.2) fun _ _ => id

end At

/-! ## What may come after an expression -/

/-- The next token is nothing that can follow a name. -/
def Stops (rest : List Token) : Prop :=
  ∃ token more, rest = token :: more ∧ token.is (.punct "(") = false ∧ token.is (.punct "[") = false ∧
    trailingStep? token = none

/-- The next token is no operator that extends an operand read at `floor`. -/
def Loose (floor : Nat) (rest : List Token) : Prop := ∀ token, rest.head? = some token → extension? floor token = none

theorem stops_closing (rest : List Token) : Stops (punct ")" :: rest) := ⟨_, _, rfl, rfl, rfl, rfl⟩

theorem stops_comma (rest : List Token) : Stops (punct "," :: rest) := ⟨_, _, rfl, rfl, rfl, rfl⟩

theorem stops_operator (op : BinaryOp) (rest : List Token) : Stops (punct op.symbol :: rest) := by
  cases op <;> exact ⟨_, _, rfl, rfl, rfl, rfl⟩

theorem loose_closing (floor : Nat) (rest : List Token) : Loose floor (punct ")" :: rest) := by
  rintro _ ⟨⟩
  rfl

theorem loose_comma (floor : Nat) (rest : List Token) : Loose floor (punct "," :: rest) := by
  rintro _ ⟨⟩
  rfl

theorem extension?_punct (floor : Nat) (op : BinaryOp) :
    extension? floor (punct op.symbol) = if op.extends? floor then some op else none := by
  unfold extension? binaryOp?
  show Option.filter _ (BinaryOp.ofSymbol? op.symbol) = _
  rw [op.ofSymbol?_symbol]
  rfl

theorem At.loose {floor : Nat} {rest : List Token} {s : State} (h : At t rest s) (hloose : Loose floor rest) :
    s.take? (extension? floor) = none := by
  cases rest with
  | nil =>
    obtain ⟨tokens, lastLine, context⟩ := s
    cases h.tokens
    rfl
  | cons token more => exact take_none h.tokens (hloose token rfl)

/-! ## Words that are read as an expression again -/

/-- `w`, before `rest`, is read as an operand, which is `e` again. -/
def Stands (f : String) (t : SymbolTable) (e : Expr) (w rest : List Token) : Prop :=
  ∀ s, At t (w ++ rest) s → (unary f s).Succeeds fun e' s' => e'.bare = e.bare ∧ At t rest s'

/-- At `floor`, `w` is read as `e` again, and climbing goes on with `rest`. -/
def Climbs (f : String) (t : SymbolTable) (floor : Nat) (e : Expr) (w rest : List Token) : Prop :=
  ∀ s P, At t (w ++ rest) s → (∀ e' s', e'.bare = e.bare → At t rest s' → (operators f floor e' s').Succeeds P) →
    (binary f floor s).Succeeds P

section Words

variable {e : Expr} {floor : Nat} {w rest : List Token} {s : State}

theorem Stands.climbs (h : Stands f t e w rest) (floor : Nat) : Climbs f t floor e w rest := by
  intro s P hs hk
  rw [binary]
  exact Result.ends_bind (h s hs) fun e' s' _ h' => hk e' s' h'.1 h'.2

/-- Climbing stops after the word. -/
theorem Climbs.closed (h : Climbs f t floor e w rest) (hloose : Loose floor rest) (hs : At t (w ++ rest) s) :
    (binary f floor s).Succeeds fun e' s' => e'.bare = e.bare ∧ At t rest s' := by
  refine h s _ hs fun e' s' he hs' => ?_
  rw [operators, hs'.loose hloose]
  exact ⟨he, hs'⟩

theorem Climbs.parens (h : Climbs f t 0 e w (punct ")" :: rest)) : Stands f t e (guarded true w) rest := by
  intro s hs
  have hs : At t (punct "(" :: (w ++ punct ")" :: rest)) s := by simpa [guarded] using hs
  obtain ⟨u, hu, h₁⟩ := hs.accept (rfl : (punct "(").is (.punct "(") = true)
  rw [unary, take_none hs.tokens rfl, primary, hu]
  refine Taken.ends_bind (Result.ends_andThen (h.closed (loose_closing 0 rest) h₁) fun e' s₂ _ h₂ => ?_)
  exact Result.ends_andThen (h₂.2.expect rfl) fun _ s₃ _ h₃ => ⟨h₂.1, h₃⟩

end Words

/-- The printed expression is read again: as an operand if it is no binary operation, and by climbing at any floor that
its operator extends. -/
structure Reread (f : String) (t : SymbolTable) (e : Expr) : Prop where
  stands : e.phrase.operator? = none → ∀ rest, Stops rest → Stands f t e e.phrase.printed rest
  climbs : ∀ floor rest, Stops rest →
    (∀ op, e.phrase.operator? = some op → op.extends? floor ∧ Loose op.strength rest) →
      Climbs f t floor e e.phrase.printed rest

section Nodes

variable {e operand left right : Expr} {rest : List Token}

theorem extends?_zero (op : BinaryOp) : op.extends? 0 = true := by cases op <;> rfl

theorem Reread.of_stands (h : ∀ rest, Stops rest → Stands f t e e.phrase.printed rest) : Reread f t e where
  stands _ := h
  climbs floor rest hstops _ := (h rest hstops).climbs floor

theorem Reread.enclosed (h : Reread f t e) (rest : List Token) : Stands f t e (guarded true e.phrase.printed) rest :=
  (h.climbs 0 _ (stops_closing rest) fun op _ => ⟨extends?_zero op, loose_closing _ _⟩).parens

/-- A part of a larger expression is read again, in parentheses or where it fits without them. -/
theorem Reread.part (h : Reread f t e) {needed : Bool} {floor : Nat} (hstops : Stops rest)
    (hfits : needed = false → ∀ op, e.phrase.operator? = some op → op.extends? floor ∧ Loose op.strength rest) :
    Climbs f t floor e (guarded needed e.phrase.printed) rest := by
  cases needed with
  | false => exact h.climbs floor rest hstops (hfits rfl)
  | true => exact (h.enclosed rest).climbs floor

theorem Reread.guarded (h : Reread f t e) (hstops : Stops rest) :
    Stands f t e (guarded e.phrase.operator?.isSome e.phrase.printed) rest := by
  cases hop : e.phrase.operator? with
  | none => exact h.stands hop rest hstops
  | some op => exact h.enclosed rest

/-! ## Operators -/

theorem unaryOp?_punct {op : UnaryOp} (h : op.follows = false) : unaryOp? (punct op.symbol) = some op := by
  cases op with
  | step moment direction => cases moment <;> cases direction <;> first | rfl | cases h
  | _ => rfl

theorem phrase_of_unary {names : Names} {op : UnaryOp} (h : Typing.unary names op operand = .ok e) :
    e.phrase = .unary op operand.phrase := by
  obtain ⟨ty, rfl⟩ := unary_node h
  unfold Expr.ofUnary
  rw [Expr.phrase]

theorem phrase_of_call {name : String} {ret : Ty} {params : List Ty} {args : List Expr} {line : Nat}
    (h : Typing.call name ret params args line = .ok e) : e.phrase = .call name (args.map Expr.phrase) := by
  obtain ⟨args', rfl, -, hblind⟩ := call_node h
  rw [Expr.phrase, exprPhrases_eq_map, hblind blind_phrase]

theorem phrase_of_binary {names : Names} {op : BinaryOp} {line : Nat}
    (h : Typing.binary names op left right line = .ok e) : e.phrase = .binary op left.phrase right.phrase := by
  obtain ⟨ty, l, r, rfl, hl, hr⟩ := binary_node h
  rw [Expr.phrase, blind_phrase left l hl, blind_phrase right r hr]

theorem reread_unary {op : UnaryOp} (hop : op.follows = false) (h : Reread f t operand)
    (rule : Typing.unary ⟨t, f⟩ op operand = .ok e) : Reread f t e := by
  have hphrase := phrase_of_unary rule
  refine .of_stands fun rest hstops s hs => ?_
  rw [hphrase, Phrase.printed, hop] at hs
  have hs : At t (punct op.symbol :: (guarded operand.phrase.operator?.isSome operand.phrase.printed ++ rest)) s := hs
  obtain ⟨u, hu, hvalue, h₁⟩ := hs.take (unaryOp?_punct hop)
  rw [unary, hu]
  refine Taken.ends_bind (Result.ends_andThen (h.guarded hstops u.next h₁) fun operand' s₂ _ h₂ => ?_)
  obtain ⟨e', he', hbare⟩ := unary_bare h₂.1 rule
  rw [hvalue, h₂.2.names]
  exact succeeds_demand he' ⟨hbare, h₂.2⟩

/-- The left side of an assignment is no binary operation. -/
theorem operator?_of_assign {line : Nat} (h : Typing.binary ⟨t, f⟩ .assign left right line = .ok e) :
    left.phrase.operator? = none := by
  obtain ⟨r, -, -, ⟨info, name, scope, symbol, rfl, -⟩ | ⟨info, address, rfl⟩⟩ := assign_cases (c := { symbols := t }) h
  · rw [Expr.phrase]; rfl
  · rw [Expr.phrase]; rfl

/-- What extends an operand extends one that was read at a lower floor. -/
theorem extends?_mono {op : BinaryOp} {floor floor' : Nat} (h : op.extends? floor' = true) (hle : floor ≤ floor') :
    op.extends? floor = true := by
  simp only [BinaryOp.extends?, Bool.or_eq_true, decide_eq_true_eq, Bool.and_eq_true, beq_iff_eq] at h ⊢
  rcases h with h | ⟨h, hright⟩
  · exact .inl (Nat.lt_of_le_of_lt hle h)
  · rcases Nat.lt_or_eq_of_le hle with hlt | rfl
    · exact .inl (h ▸ hlt)
    · exact .inr ⟨h, hright⟩

theorem Loose.mono {floor floor' : Nat} (h : Loose floor rest) (hle : floor ≤ floor') : Loose floor' rest := by
  intro token htoken
  have hnone := h token htoken
  cases hfound : extension? floor' token with
  | none => rfl
  | some op =>
    obtain ⟨hop, hextends⟩ := extension?_eq_some.1 hfound
    rw [extension?_eq_some.2 ⟨hop, extends?_mono hextends hle⟩] at hnone
    cases hnone

/-- A left operand without parentheses can be read where the operation can, and the operator comes after it. -/
theorem left_fits {op inner : BinaryOp} {floor : Nat} (hassign : op ≠ .assign) (hop : op.extends? floor = true)
    (hinner : op.guardsLeft inner = false) (rest : List Token) :
    inner.extends? floor = true ∧ Loose inner.strength (punct op.symbol :: rest) := by
  have hright : op.groupsRight = false := by cases op <;> first | rfl | exact absurd rfl hassign
  simp only [BinaryOp.guardsLeft, decide_eq_false_iff_not, Nat.not_lt] at hinner
  simp only [BinaryOp.extends?, hright, Bool.and_false, Bool.or_false, decide_eq_true_eq] at hop
  constructor
  · simp only [BinaryOp.extends?, Bool.or_eq_true, decide_eq_true_eq]
    exact .inl (Nat.lt_of_lt_of_le hop hinner)
  · rintro _ ⟨⟩
    rw [extension?_punct, if_neg]
    simp only [BinaryOp.extends?, hright, Bool.and_false, Bool.or_false, decide_eq_true_eq, Nat.not_lt]
    exact hinner

/-- A right operand without parentheses is read at the strength of the operator, and what is too loose for the operator
is too loose for it. -/
theorem right_fits {op inner : BinaryOp} (hinner : op.guardsRight inner = false) (hrest : Loose op.strength rest) :
    inner.extends? op.strength = true ∧ Loose inner.strength rest := by
  have hboth : inner.extends? op.strength = true ∧ op.strength ≤ inner.strength := by
    revert hinner
    cases op <;> cases inner <;> decide
  exact ⟨hboth.1, hrest.mono hboth.2⟩

theorem reread_binary {op : BinaryOp} {line : Nat} (hleft : Reread f t left) (hright : Reread f t right)
    (rule : Typing.binary ⟨t, f⟩ op left right line = .ok e) : Reread f t e := by
  have hphrase := phrase_of_binary rule
  refine ⟨fun hnone => (by rw [hphrase] at hnone; cases hnone), fun floor rest hstops hfits => ?_⟩
  obtain ⟨hop, hloose⟩ := hfits op (by rw [hphrase]; rfl)
  rw [hphrase, Phrase.printed]
  intro s P hs hk
  rw [List.append_assoc, List.cons_append] at hs
  refine hleft.part (stops_operator op _) (fun hneeded inner hinner => ?_) s P hs fun left' s₁ hleft' h₁ => ?_
  · rw [hinner, Option.any_some] at hneeded
    refine left_fits ?_ hop hneeded _
    rintro rfl
    rw [operator?_of_assign rule] at hinner
    cases hinner
  · have hextension : extension? floor (punct op.symbol) = some op := by rw [extension?_punct, if_pos hop]
    obtain ⟨u, hu, hvalue, hnext⟩ := h₁.take hextension
    have hclimbs : Climbs f t op.strength right
        (guarded (right.phrase.operator?.any op.guardsRight) right.phrase.printed) rest := by
      refine hright.part hstops fun hneeded inner hinner => right_fits ?_ hloose
      rwa [hinner, Option.any_some] at hneeded
    rw [operators, hu]
    refine Taken.ends_andThen ?_
    rw [hvalue]
    refine Result.ends_andThen (hclimbs.closed hloose hnext) fun right' s₂ _ h₂ => ?_
    obtain ⟨e', he', hbare⟩ := binary_bare hleft' h₂.1 s₁.line rule
    rw [h₂.2.names]
    exact succeeds_demand he' (hk e' s₂ hbare h₂.2)

/-! ## Literals and names -/

/-- Neither an operator nor a parenthesis. -/
theorem unary_leaf {s : State} {token : Token} (hs : s.tokens = token :: rest) (hkind : token.kind ≠ .punctuator) :
    unary f s = primary f s ∧ s.accept? (.punct "(") = none ∧ s.kind? = some token.kind := by
  refine ⟨?_, accept_none hs (by simp [Token.is, hkind]), by rw [State.kind?, hs]; rfl⟩
  rw [unary, take_none hs (by unfold unaryOp?; rw [if_neg hkind])]

theorem reread_number (value : Int) (line : Nat) : Reread f t (.ofInt value line) := by
  refine .of_stands fun rest _ s hs => ?_
  have hs : At t (numeral value :: rest) s := hs
  obtain ⟨hunary, hparens, hkind⟩ := unary_leaf (f := f) hs.tokens (show TokenKind.number ≠ .punctuator by decide)
  rw [hunary, primary, hparens, hkind]
  refine Result.ends_bind (hs.need .expectedNumber rfl) ?_
  rintro _ s₁ _ ⟨rfl, h₁⟩
  refine ⟨?_, h₁⟩
  unfold Expr.bare
  rw [Expr.ofInt_marked, Expr.ofInt_marked]

theorem fromUTF8?_bytes (text : String) : String.fromUTF8? ⟨text.toUTF8.toList.toArray⟩ = some text := by
  have hbytes : (⟨text.toUTF8.toList.toArray⟩ : ByteArray) = text.toUTF8 := by
    rw [toList_eq_data]
  rw [hbytes]
  exact dif_pos text.isValidUTF8

theorem stringBytes_quotation (text : String) : Literal.stringBytes (quotation text).text = .ok text.toUTF8.toList := by
  show Literal.stringBytes (String.ofList ('"' :: (Literal.spelling text.toList ++ ['"']))) = _
  rw [Literal.stringBytes, Literal.bytes_ofList, Literal.bytes_eq]
  exact (Literal.spelled_spelling text.toList).quoted.decodes

theorem reread_string {text : String} (line label : Nat) :
    Reread f t (.string { ty := .pointer .char, line } label text.toUTF8.toList) := by
  refine .of_stands fun rest _ s hs => ?_
  have htokens : s.tokens = quotation text :: rest := by
    rw [hs.tokens, Expr.phrase, Phrase.printed, fromUTF8?_bytes]
    rfl
  obtain ⟨hunary, -⟩ := unary_leaf (f := f) htokens (show TokenKind.string ≠ .punctuator by decide)
  have hbytes := stringBytes_quotation text
  obtain ⟨next, shorter, hprimary, hnext, -, hcontext⟩ := primary_string (f := f) htokens rfl hbytes
  rw [hunary, hprimary]
  refine ⟨rfl, hnext, ?_⟩
  rw [hcontext]
  exact hs.symbols

/-- What follows a name is read as what becomes of it. -/
def Follows (f : String) (t : SymbolTable) (name : String) (e : Expr) (w rest : List Token) : Prop :=
  ∀ line s, At t (w ++ rest) s → (named f name line s).Succeeds fun e' s' => e'.bare = e.bare ∧ At t rest s'

theorem Follows.stands {name : String} {w : List Token} (h : Follows f t name e w rest) :
    Stands f t e (word name :: w) rest := by
  intro s hs
  have hs : At t (word name :: (w ++ rest)) s := hs
  obtain ⟨hunary, hparens, hkind⟩ := unary_leaf (f := f) hs.tokens (show TokenKind.ident ≠ .punctuator by decide)
  rw [hunary, primary, hparens, hkind]
  refine Result.ends_bind (hs.need .expectedIdentifier rfl) ?_
  rintro _ s₁ _ ⟨rfl, h₁⟩
  exact h _ s₁ h₁

theorem phrase_of_name {names : Names} {name : String} {line : Nat} (h : Typing.name names name line = .ok e) :
    e.phrase = .name name := by
  unfold Typing.name at h
  cases hs : names.resolve name with
  | error cause => rw [hs] at h; cases h
  | ok symbol =>
    rw [hs] at h
    simp only [bind, Except.bind] at h
    split at h
    · cases h
    · cases h
      rw [Expr.phrase]

/-- A name that is neither called nor indexed is read as a value. -/
theorem value_of_name {name : String} {line : Nat} {s : State} {token : Token} (line' : Nat)
    (hs : At t (token :: rest) s) (hopening : token.is (.punct "(") = false) (hbracket : token.is (.punct "[") = false)
    (rule : Typing.name ⟨t, f⟩ name line = .ok e) :
    s.sees (.punct "(") = false ∧ s.accept? (.punct "[") = none ∧
      ∃ e', Typing.name (s.names f) name line' = .ok e' ∧ e'.bare = e.bare := by
  refine ⟨?_, accept_none hs.tokens hbracket, ?_⟩
  · rw [State.sees, hs.tokens]
    exact hopening
  · rw [hs.names]
    exact name_bare line' rule

theorem reread_name {name : String} {line : Nat} (rule : Typing.name ⟨t, f⟩ name line = .ok e) : Reread f t e := by
  refine .of_stands fun rest hstops => ?_
  rw [phrase_of_name rule, Phrase.printed]
  refine Follows.stands fun line' s hs => ?_
  obtain ⟨token, more, rfl, hopening, hbracket, hstep⟩ := hstops
  obtain ⟨hsees, haccept, e', he', hbare⟩ := value_of_name line' hs hopening hbracket rule
  rw [named, if_neg (ne_true_of_eq_false hsees)]
  refine succeeds_demand he' ?_
  rw [haccept, take_none hs.tokens hstep]
  exact ⟨hbare, hs⟩

theorem trailingStep?_punct (direction : Direction) :
    trailingStep? (punct (UnaryOp.step .after direction).symbol) = some direction := by
  cases direction <;> rfl

theorem reread_after {name : String} {line : Nat} {direction : Direction}
    (hname : Typing.name ⟨t, f⟩ name line = .ok operand)
    (rule : Typing.unary ⟨t, f⟩ (.step .after direction) operand = .ok e) : Reread f t e := by
  refine .of_stands fun rest hstops => ?_
  rw [phrase_of_unary rule, phrase_of_name hname, Phrase.printed, Phrase.printed]
  refine Follows.stands fun line' s hs => ?_
  have hs : At t (punct (UnaryOp.step .after direction).symbol :: rest) s := hs
  obtain ⟨hsees, haccept, operand', hoperand', hbare⟩ :=
    value_of_name line' hs (by cases direction <;> rfl) (by cases direction <;> rfl) hname
  obtain ⟨u, hu, hvalue, h₁⟩ := hs.take (trailingStep?_punct direction)
  obtain ⟨e', he', hbare'⟩ := unary_bare hbare rule
  rw [named, if_neg (ne_true_of_eq_false hsees)]
  refine succeeds_demand hoperand' ?_
  rw [haccept, hu]
  refine Taken.ends_andThen ?_
  rw [hvalue, h₁.names]
  exact succeeds_demand he' ⟨hbare', h₁⟩

/-! ## Calls -/

/-- What an expression can start with is no closing parenthesis. -/
theorem unaccepted_closing {floor : Nat} {s : State} {P : Expr → State → Prop} (h : (binary f floor s).Succeeds P) :
    s.accept? (.punct ")") = none := by
  obtain ⟨tokens, lastLine, context⟩ := s
  cases tokens with
  | nil => rfl
  | cons token rest =>
    cases hclosing : token.is (.punct ")") with
    | false => exact accept_none rfl hclosing
    | true =>
      exfalso
      obtain ⟨kind, text, value, start, line⟩ := token
      obtain ⟨rfl, rfl⟩ : kind = .punctuator ∧ text = ")" := by simpa [Token.is] using hclosing
      rw [binary, unary, take_none rfl rfl, primary, accept_none rfl rfl] at h
      exact h

theorem Reread.closed {s : State} (h : Reread f t e) (hstops : Stops rest) (hloose : Loose 0 rest)
    (hs : At t (e.phrase.printed ++ rest) s) :
    (binary f 0 s).Succeeds fun e' s' => e'.bare = e.bare ∧ At t rest s' :=
  (h.climbs 0 rest hstops fun _ _ => ⟨extends?_zero _, hloose.mono (Nat.zero_le _)⟩).closed hloose hs

theorem reread_arguments : ∀ (es : List Expr) (s : State), es ≠ [] → (∀ e ∈ es, Reread f t e) →
    At t (Phrase.printedArgs (es.map Expr.phrase) ++ rest) s →
      s.accept? (.punct ")") = none ∧
        (moreArguments f s).Succeeds fun es' s' => es'.map Expr.bare = es.map Expr.bare ∧ At t rest s'
  | [], _, hsome, _, _ => absurd rfl hsome
  | [e], s, _, hes, hs => by
    have htokens : At t (e.phrase.printed ++ punct ")" :: rest) s := by
      simpa [Phrase.printedArgs] using hs
    have hread := (hes e (List.mem_singleton_self e)).closed (stops_closing rest) (loose_closing 0 rest) htokens
    refine ⟨unaccepted_closing hread, ?_⟩
    rw [moreArguments]
    refine Result.ends_bind hread fun e' s₁ _ h₁ => ?_
    rw [accept_none h₁.2.tokens rfl]
    exact Result.ends_andThen (h₁.2.expect rfl) fun _ s₂ _ h₂ => ⟨congrArg (fun x => [x]) h₁.1, h₂⟩
  | e :: e₁ :: es, s, _, hes, hs => by
    have htokens :
        At t (e.phrase.printed ++ punct "," :: (Phrase.printedArgs ((e₁ :: es).map Expr.phrase) ++ rest)) s := by
      simpa [Phrase.printedArgs] using hs
    obtain ⟨he, hes⟩ := List.forall_mem_cons.1 hes
    have hread := he.closed (stops_comma _) (loose_comma 0 _) htokens
    refine ⟨unaccepted_closing hread, ?_⟩
    rw [moreArguments]
    refine Result.ends_bind hread fun e' s₁ _ h₁ => ?_
    obtain ⟨u, hu, hnext⟩ := h₁.2.accept (rfl : (punct ",").is (.punct ",") = true)
    rw [hu]
    refine Taken.ends_andThen (Result.ends_andThen (reread_arguments (e₁ :: es) u.next (by simp) hes hnext).2 ?_)
    exact fun es' s₃ _ h₃ => ⟨congrArg₂ List.cons h₁.1 h₃.1, h₃.2⟩

theorem reread_call {name : String} {ret : Ty} {params : List Ty} {args : List Expr} {line : Nat}
    (callee : Typing.callee ⟨t, f⟩ name = .ok (ret, params)) (hargs : ∀ arg ∈ args, Reread f t arg)
    (rule : Typing.call name ret params args line = .ok e) : Reread f t e := by
  refine .of_stands fun rest _ => ?_
  rw [phrase_of_call rule, Phrase.printed]
  refine Follows.stands fun line' s hs => ?_
  have hs : At t (punct "(" :: (Phrase.printedArgs (args.map Expr.phrase) ++ rest)) s := hs
  rw [named, if_pos (by rw [State.sees, hs.tokens]; rfl), hs.names]
  refine succeeds_demand callee (Result.ends_andThen (hs.expect rfl) fun _ s₁ _ h₁ => ?_)
  refine Result.ends_andThen (P := fun es' s' => es'.map Expr.bare = args.map Expr.bare ∧ At t rest s') ?_ ?_
  · rw [arguments]
    cases args with
    | nil =>
      obtain ⟨u, hu, hnext⟩ := h₁.accept (rfl : (punct ")").is (.punct ")") = true)
      rw [hu]
      exact Taken.ends_bind ⟨rfl, hnext⟩
    | cons arg args =>
      obtain ⟨hclosing, hread⟩ := reread_arguments (arg :: args) s₁ (by simp) hargs h₁
      rw [hclosing]
      exact hread
  · intro args' s₂ _ h₂
    obtain ⟨e', he', hbare⟩ := call_bare line' h₂.1 rule
    exact succeeds_demand he' ⟨hbare, h₂.2⟩

end Nodes

/-! ## Whole expressions -/

/-- An expression that is read again is all that its printed tokens are parsed to, wherever these stand. -/
theorem Reread.expression {e : Expr} {s : State} {last : Token} (h : Reread f t e) (hlast : last.kind = .eof)
    (htokens : s.tokens.map Token.unplaced = e.phrase.printed ++ [last]) (hsymbols : s.context.symbols = t) :
    ∃ e' next shorter, expression f s = .ok e' next shorter ∧ e'.bare = e.bare ∧ next.atEnd = true ∧
      next.context.symbols = t := by
  have hterminal : ∀ text, last.is (.punct text) = false := fun text => by simp [Token.is, hlast]
  have hstops : Stops [last] := ⟨last, [], rfl, hterminal _, hterminal _, by simp [trailingStep?, hterminal]⟩
  have hloose : Loose 0 [last] := by
    rintro _ ⟨⟩
    simp [extension?, binaryOp?, hlast]
  have hread := h.closed hstops hloose (⟨htokens, hsymbols⟩ : At t _ (s.relined fun _ => 0))
  have hrelined := expression_relined (ℓ := fun _ => 0) f s
  unfold Parse.expression at hrelined ⊢
  cases hplain : binary f 0 s with
  | fail fault final =>
    cases hmoved : binary f 0 (s.relined fun _ => 0) with
    | fail => rw [hmoved] at hread; cases hread
    | ok => rw [hplain, hmoved] at hrelined; cases hrelined
  | ok e' next shorter =>
    cases hmoved : binary f 0 (s.relined fun _ => 0) with
    | fail => rw [hmoved] at hread; cases hread
    | ok e₀ next₀ shorter₀ =>
      rw [hplain, hmoved] at hrelined
      rw [hmoved] at hread
      obtain ⟨rfl, rfl⟩ := hrelined
      obtain ⟨hbare, hleft, hnames⟩ := hread
      refine ⟨e', next, shorter, rfl, ?_, ?_, hnames⟩
      · rw [← hbare, Expr.bare_marked]
      · obtain ⟨mark, hmark, hsame⟩ := List.map_eq_singleton_iff.1 hleft
        have hkind : (mark.relined fun _ => 0).kind = .eof := hsame ▸ hlast
        rw [State.atEnd, hmark]
        exact beq_iff_eq.2 hkind

end Parse

/-! ## What is built -/

section Built

open Parse

variable {f : String}

/-- A name in a tree was read as a value. -/
theorem name_of_builds {c c' : Context} {info : Info} {name : String} {scope : Scope}
    (h : Builds f c (.ident info name scope) c') :
    ∃ line, Typing.name ⟨c.symbols, f⟩ name line = .ok (.ident info name scope) := by
  generalize he : Expr.ident info name scope = e at h
  cases h with
  | number => unfold Expr.ofInt at he; cases he
  | string => cases he
  | @name _ name' line _ rule =>
    obtain ⟨_, _, rfl⟩ := name_node rule
    cases he
    exact ⟨line, rule⟩
  | index _ _ rule =>
    obtain ⟨_, _, _, _, rfl⟩ := index_node rule
    unfold Expr.ofUnary at he
    cases he
  | call _ _ rule =>
    obtain ⟨_, rfl, -⟩ := call_node rule
    cases he
  | unary _ rule =>
    obtain ⟨_, rfl⟩ := unary_node rule
    unfold Expr.ofUnary at he
    cases he
  | binary _ _ rule =>
    obtain ⟨_, _, _, rfl, -⟩ := binary_node rule
    cases he

/-- Only names are stepped. -/
theorem ident_of_step {names : Names} {moment : Moment} {direction : Direction} {operand e : Expr}
    (h : Typing.unary names (.step moment direction) operand = .ok e) :
    ∃ info name scope, operand = .ident info name scope := by
  cases operand with
  | ident info name scope => exact ⟨info, name, scope, rfl⟩
  | _ => cases h

theorem follows_cases {op : UnaryOp} (h : op.follows = true) : ∃ direction, op = .step .after direction := by
  cases op with
  | step moment direction =>
    cases moment with
    | after => exact ⟨direction, rfl⟩
    | before => cases h
  | _ => cases h

/-- An operator applied to what was built is read again, before or after its operand. -/
theorem reread_operand {c c' : Context} {op : UnaryOp} {operand e : Expr} (inner : Builds f c operand c')
    (h : Reread f c.symbols operand) (rule : Typing.unary ⟨c.symbols, f⟩ op operand = .ok e) :
    Reread f c.symbols e := by
  cases hop : op.follows with
  | false => exact reread_unary hop h rule
  | true =>
    obtain ⟨direction, rfl⟩ := follows_cases hop
    obtain ⟨info, name, scope, rfl⟩ := ident_of_step rule
    obtain ⟨line, hname⟩ := name_of_builds inner
    exact reread_after hname rule

mutual

/-- Printed expressions are read again, however they came about. -/
theorem Builds.reread : ∀ {c c' : Context} {e : Expr}, Builds f c e c' → e.phrase.Spellable → Reread f c.symbols e
  | _, _, _, .number value line, _ => reread_number value line
  | _, _, _, .string line bytes, h => by
    obtain ⟨text, rfl⟩ := h
    exact reread_string line _
  | _, _, _, .name rule, _ => reread_name rule
  | _, _, _, .index named inner rule, h => by
    obtain ⟨sum, hsum, hderef⟩ := index_sum rule
    have hphrase := (phrase_of_unary hderef).trans (congrArg _ (phrase_of_binary hsum))
    have hinner := Builds.reread inner (hphrase ▸ h).2
    exact reread_unary rfl (reread_binary (reread_name named) hinner hsum) hderef
  | _, _, _, .call callee inner rule, h =>
    reread_call callee (BuildsAll.reread inner (phrase_of_call rule ▸ h).2) rule
  | _, _, _, .unary inner rule, h => by
    have hpart := phrase_of_unary rule ▸ h
    have hinner := Builds.reread inner hpart
    rw [inner.within drawing_symbols] at rule
    exact reread_operand inner hinner rule
  | _, _, _, .binary first second rule, h => by
    have hparts := phrase_of_binary rule ▸ h
    have hfirst := Builds.reread first hparts.1
    have hsecond := Builds.reread second hparts.2
    rw [first.within drawing_symbols] at hsecond
    rw [second.within drawing_symbols, first.within drawing_symbols] at rule
    exact reread_binary hfirst hsecond rule

theorem BuildsAll.reread : ∀ {c c' : Context} {es : List Expr}, BuildsAll f c es c' →
    Phrase.AllSpellable (es.map Expr.phrase) → ∀ e ∈ es, Reread f c.symbols e
  | _, _, _, .nil, _, e, hmem => by cases hmem
  | _, _, _, .cons first rest, h, e, hmem => by
    have hfirst := Builds.reread first h.1
    have hrest := BuildsAll.reread rest h.2
    rw [first.within drawing_symbols] at hrest
    rcases List.mem_cons.1 hmem with rfl | hmem
    · exact hfirst
    · exact hrest e hmem

end

/-! ## Printing and parsing again -/

/-- Expressions that are parsed from tokens of a source can be written. -/
theorem spellable_of_expression {source : String} {tokens : List Token} (htokens : tokenize source = .ok tokens)
    {s next : State} {e : Expr} {shorter : next.size < s.size} (hs : s.tokens ⊆ tokens)
    (h : expression f s = .ok e next shorter) : e.phrase.Spellable := by
  have hreads := reads_expression f s
  rw [h] at hreads
  obtain ⟨w, hword⟩ := hreads
  obtain ⟨body, last, rfl, hlast, hbody⟩ := tokenize_lexed htokens
  refine Grammar.spellable hword.derived fun token hmem => ?_
  have hused : token ∈ s.tokens := by
    rw [hword.consumed.split]
    exact List.mem_append_left _ hmem
  rcases List.mem_append.1 (hs hused) with hmem' | hmem'
  · exact hbody token hmem'
  · rw [List.mem_singleton.1 hmem'] at hmem
    exact absurd hlast.kind (hword.consumed.inside _ hmem)

/-- **Printing and parsing again.** Whatever the symbols, an expression that is parsed from tokens of a source has a
text with no more parentheses than its operators need. With the same symbols this text is parsed to the same expression,
up to the lines and the labels of literals: the operators, their nesting, the types, scopes, conversions and targets are
those of the first one. Nothing but the end mark is left. -/
theorem printed_expression_reparses {source : String} {tokens : List Token} (htokens : tokenize source = .ok tokens)
    {s next : State} {e : Expr} {shorter : next.size < s.size} (hs : s.tokens ⊆ tokens)
    (h : expression f s = .ok e next shorter) :
    ∃ tokens', tokenize e.source = .ok tokens' ∧
      ∀ s' : State, s'.tokens = tokens' → s'.context.symbols = s.context.symbols →
        ∃ e' next' shorter', expression f s' = .ok e' next' shorter' ∧ e'.bare = e.bare ∧ next'.atEnd = true ∧
          next'.context.symbols = s.context.symbols := by
  have hspellable := spellable_of_expression htokens hs h
  have hbuilds := expression_builds f s
  rw [h] at hbuilds
  obtain ⟨body, last, hprinted, hlast, hbody⟩ := tokenize_printed hspellable
  refine ⟨body ++ [last], hprinted, fun s' hs' hsymbols => ?_⟩
  have htokens' : s'.tokens.map Token.unplaced = e.phrase.printed ++ [last.unplaced] := by
    rw [hs', List.map_append, hbody]
    rfl
  have hmark : last.unplaced.kind = .eof := hlast.kind
  exact (hbuilds.reread hspellable).expression hmark htokens' hsymbols

/-- What `roundTripSource` names. -/
def roundTripNames : String := "global int a[3]; global long n; func f(char* s, long m) -> int;"

/-- Operators of one level that group both ways, an assignment in an assignment, an element, a literal with escapes, a
step after its operand, signs one after the other, and more parentheses than are needed. -/
def roundTripSource : String := "n = a[1] = f(\"\\t\\\"\", n++) << (2) | 4 - (5 - ((*a) - -(-3)))"

/-- `roundTripSource` as it is printed, without the parentheses that are not needed. -/
def roundTripText : String := "n = * ( a + 1 ) = f ( \"\\t\\\"\" , n ++ ) << 2 | 4 - ( 5 - ( * a - - - 3 ) )"

/-- The state in which `roundTripSource` is parsed. -/
def roundTripState : Option State :=
  match parseSource roundTripNames {}, tokenize roundTripSource with
  | .ok _ context, .ok tokens => some ⟨tokens, 1, context⟩
  | _, _ => none

theorem tokens_of_roundTripState {s : State} (h : roundTripState = some s) :
    tokenize roundTripSource = .ok s.tokens := by
  unfold roundTripState at h
  split at h
  · next htokens => cases h; exact htokens
  · cases h

/-- The text of the expression that is parsed in a state. -/
def sourceIn (s : State) : Option String :=
  match expression "f" s with
  | .ok e _ _ => some e.source
  | .fail .. => none

theorem roundTripSource_reparses : ∃ (s s' next next' : State) (e e' : Expr) (shorter : next.size < s.size)
    (shorter' : next'.size < s'.size), tokenize roundTripSource = .ok s.tokens ∧ expression "f" s = .ok e next shorter ∧
      e.source = roundTripText ∧ tokenize roundTripText = .ok s'.tokens ∧ expression "f" s' = .ok e' next' shorter' ∧
      e'.bare = e.bare ∧ next'.atEnd = true := by
  have hsource : roundTripState.bind sourceIn = some roundTripText := by decide +kernel
  obtain ⟨s, hs, hsource⟩ := Option.bind_eq_some_iff.1 hsource
  unfold sourceIn at hsource
  split at hsource
  · next e next shorter hparsed =>
    have htokens := tokens_of_roundTripState hs
    obtain ⟨tokens', htext, hread⟩ := printed_expression_reparses htokens (List.Subset.refl _) hparsed
    obtain ⟨e', next', shorter', hparsed', hbare, hend, -⟩ := hread ⟨tokens', 1, s.context⟩ rfl rfl
    have hsource := Option.some.inj hsource
    rw [hsource] at htext
    exact ⟨s, _, next, next', e, e', shorter, shorter', htokens, hparsed, hsource, htext, hparsed', hbare, hend⟩
  · cases hsource

end Built

end MiniC
