import MiniC.Proofs.Evaluator
import MiniC.Proofs.ParseTails
import MiniC.Proofs.Reparsing

/-!
# Indexing is pointer arithmetic

An index has a rule of its own, and the dereference of a sum is built by two others. On a name and an index of integer
type both ways agree (`indexed_or_refused`): they build the same tree up to lines, in which the index is multiplied by
the size of an element (`scaled_index`), or neither builds one. In the words of an index and of such a sum nothing else
can fail once the index is read, so parsing them settles what the rules say (`unary_indexed`, `unary_displaced`), and
the one can be written for the other (`indexing_is_displacement`).
-/

namespace MiniC

/-- The tree on no line. -/
def Expr.unplaced (e : Expr) : Expr := e.marked (fun _ => 0) id

theorem Expr.ty_of_unplaced {e e' : Expr} (h : e'.unplaced = e.unplaced) : e'.ty = e.ty := by
  have hmarked := congrArg Expr.ty h
  rwa [Expr.unplaced, Expr.unplaced, Expr.ty_marked, Expr.ty_marked] at hmarked

/-- `e` is the value that `base` points to, `index` elements further on: it is read at the address that is the value of
`base` and, after that, the value of `index` times the size of an element. -/
def Displaces (base index e : Expr) : Prop :=
  ∃ element address, base.ty.element? = some element ∧ e = .ofUnary .deref address element ∧ address.ty = base.ty ∧
    ∀ (Ω : Type) (w : World Ω) (σ : Store Ω), w.eval address σ = do
      let (x, σ) ← w.eval base σ
      let (i, σ) ← w.eval index σ
      return (x + i * .ofNat 64 element.size, σ)

/-! ## The typing rules -/

section Rules

variable {names names' : Names} {name : String} {base base' index index' offset sum e e' : Expr} {element : Ty}
  {line line' operator : Nat}

/-- A name reads as the same value on any line. -/
theorem name_twice (names : Names) (name : String) (line line' : Nat) :
    (∃ cause, Typing.name names name line = .error cause ∧ Typing.name names name line' = .error cause) ∨
      ∃ base base', Typing.name names name line = .ok base ∧ Typing.name names name line' = .ok base' ∧
        base'.unplaced = base.unplaced := by
  unfold Typing.name
  cases names.resolve name with
  | error cause => exact .inl ⟨cause, rfl, rfl⟩
  | ok symbol =>
    simp only [bind, Except.bind]
    split
    · exact .inl ⟨_, rfl, rfl⟩
    · exact .inr ⟨_, _, rfl, rfl, by simp [Expr.unplaced, Info.relined]⟩

/-- What is added to a pointer for an integer is the integer times the size of what the pointer points to. -/
theorem scaled_index (helement : base.ty.element? = some element) (hinteger : index.ty.isInteger = true) :
    ∃ offset, index.convert? base.ty (some .add) = some offset ∧ ∀ (Ω : Type) (w : World Ω) (σ : Store Ω),
      w.eval offset σ = (w.eval index σ).map fun p => (p.1 * .ofNat 64 element.size, p.2) := by
  obtain ⟨pointee, hbase⟩ := pointer_of_element helement
  obtain ⟨integer, hindex, hvoid⟩ := plain_of_isInteger hinteger
  -- all integer types fit alike
  have hconversion :
      index.ty.conversion base.ty (some .add) = (Ty.plain .int).conversion (.pointer pointee) (some .add) := by
    rw [hindex] at hinteger ⊢
    rw [hbase]
    unfold Ty.conversion
    rw [if_neg (by simp), if_neg (by simp [Ty.isInteger]), if_pos (by rw [hinteger]; rfl)]
    rfl
  rw [hbase] at helement
  unfold Expr.convert?
  rw [hconversion]
  cases pointee with
  | void => cases helement
  | char =>
    cases helement
    refine ⟨_, rfl, fun Ω w σ => ?_⟩
    rw [World.eval]
    cases w.eval index σ <;> simp [Ty.size, Base.size]
  | int =>
    cases helement
    refine ⟨_, rfl, fun Ω w σ => ?_⟩
    rw [World.eval]
    cases w.eval index σ <;> rfl
  | long =>
    cases helement
    refine ⟨_, rfl, fun Ω w σ => ?_⟩
    rw [World.eval]
    cases w.eval index σ <;> rfl

theorem index_eq (helement : base.ty.element? = some element) (hinteger : index.ty.isInteger = true)
    (hoffset : index.convert? base.ty (some .add) = some offset) :
    Typing.index base name index =
      .ok (.ofUnary .deref (.binary { ty := base.ty, line := base.line } .add base offset) element) := by
  unfold Typing.index
  rw [helement]
  simp only [hinteger, hoffset]
  rfl

theorem convert?_unplaced {target : Ty} {op : Option BinaryOp} (h : e'.unplaced = e.unplaced)
    (hconvert : e.convert? target op = some offset) :
    ∃ offset', e'.convert? target op = some offset' ∧ offset'.unplaced = offset.unplaced := by
  have hmarked := congrArg (·.convert? target op) h
  simp only [Expr.unplaced, Expr.convert?_marked, hconvert] at hmarked
  exact Option.map_eq_some_iff.1 hmarked

theorem displaces_of_offset (helement : base.ty.element? = some element) (info : Info) (hty : info.ty = base.ty)
    (hvalue : ∀ (Ω : Type) (w : World Ω) (σ : Store Ω),
      w.eval offset σ = (w.eval index σ).map fun p => (p.1 * .ofNat 64 element.size, p.2)) :
    Displaces base index (.ofUnary .deref (.binary info .add base offset) element) := by
  refine ⟨element, _, helement, rfl, hty, fun Ω w σ => ?_⟩
  rw [World.eval]
  · cases w.eval base σ with
    | none => rfl
    | some p =>
      show ((w.eval offset p.2).bind fun q => _) = (w.eval index p.2).bind fun q => _
      rw [hvalue]
      cases w.eval index p.2 <;> rfl
  · exact fun _ _ _ heq _ => absurd heq (by decide)
  · exact fun _ _ heq _ => absurd heq (by decide)

/-- Without elements on the left there are none in the sum. -/
theorem element?_of_add (helement : base.ty.element? = none) (hinteger : index.ty.isInteger = true)
    (h : Typing.binary names .add base index line = .ok sum) : sum.ty.element? = none := by
  obtain ⟨integer, hindex, -⟩ := plain_of_isInteger hinteger
  unfold Typing.binary at h
  rw [if_neg (by decide)] at h
  unfold Typing.arithmetic at h
  split at h
  · cases h
  · split at h
    · cases h
    · split at h
      · cases h
      · cases h
        show Ty.element? (Expr.ty _) = none
        cases hconvert : base.convert? index.ty (some .add) with
        | none => exact helement
        | some left =>
          rw [Option.getD_some, ty_of_convert hconvert, hindex]
          rfl

theorem deref_refused (names : Names) (h : sum.ty.element? = none) :
    Typing.unary names .deref sum = .error (.badDereference sum.ty) := by
  show Typing.dereference sum = _
  unfold Typing.dereference
  rw [h]

/-- What `name[index]` is built as, with the name on `line`. -/
def indexed (names : Names) (name : String) (line : Nat) (index : Expr) : Except SemanticFault Expr := do
  let base ← Typing.name names name line
  Typing.index base name index

/-- What `name + index` is built as, with the name on `line` and the sum on the line `operator`. -/
def summed (names names' : Names) (name : String) (line operator : Nat) (index : Expr) :
    Except SemanticFault Expr := do
  let base ← Typing.name names name line
  Typing.binary names' .add base index operator

/-- What `*(name + index)` is built as. -/
def displaced (names names' : Names) (name : String) (line operator : Nat) (index : Expr) :
    Except SemanticFault Expr := do
  let sum ← summed names names' name line operator index
  Typing.unary names' .deref sum

/-- **The rules agree.** If the name can be indexed, both ways build the same tree, up to lines; if it cannot be, both
refuse it. -/
theorem indexed_or_refused (names names' : Names) (name : String) (line line' operator : Nat)
    (hinteger : index.ty.isInteger = true) (hindex : index'.unplaced = index.unplaced) :
    (∃ base e e', Typing.name names name line = .ok base ∧ Displaces base index e ∧
      indexed names name line index = .ok e ∧ displaced names names' name line' operator index' = .ok e' ∧
      e'.unplaced = e.unplaced) ∨
    ((∀ base, Typing.name names name line = .ok base → base.ty.element? = none) ∧
      (∃ cause, indexed names name line index = .error cause) ∧
      ∃ cause, displaced names names' name line' operator index' = .error cause) := by
  have hinteger' : index'.ty.isInteger = true := Expr.ty_of_unplaced hindex ▸ hinteger
  unfold indexed displaced summed
  rcases name_twice names name line line' with ⟨cause, hname, hname'⟩ | ⟨base, base', hname, hname', hbase⟩
  · rw [hname, hname']
    exact .inr ⟨nofun, ⟨cause, rfl⟩, ⟨cause, rfl⟩⟩
  have hty := Expr.ty_of_unplaced hbase
  rw [hname, hname']
  cases helement : base.ty.element? with
  | none =>
    refine .inr ⟨?_, ⟨.notIndexable name, ?_⟩, ?_⟩
    · rintro _ ⟨⟩
      exact helement
    · show Typing.index base name index = _
      unfold Typing.index
      rw [helement]
    · show ∃ cause, (Typing.binary names' .add base' index' operator >>= _) = _
      cases hsum : Typing.binary names' .add base' index' operator with
      | error cause => exact ⟨cause, rfl⟩
      | ok sum => exact ⟨_, deref_refused names' (element?_of_add (hty ▸ helement) hinteger' hsum)⟩
  | some element =>
    obtain ⟨offset, hoffset, hvalue⟩ := scaled_index helement hinteger
    obtain ⟨offset', hoffset', hsame⟩ := convert?_unplaced hindex hoffset
    rw [← hty] at hoffset'
    have helement' : base'.ty.element? = some element := hty ▸ helement
    have hdisplaces := displaces_of_offset helement { ty := base.ty, line := base.line } rfl hvalue
    refine .inl ⟨base, _, .ofUnary .deref (.binary { ty := base'.ty, line := operator } .add base' offset') element,
      rfl, hdisplaces, index_eq helement hinteger hoffset, ?_, ?_⟩
    · show (Typing.binary names' .add base' index' operator >>= _) = _
      rw [add_offset helement' hinteger' hoffset']
      exact deref_eq names' helement'
    · unfold Expr.unplaced at hbase hsame ⊢
      rw [Expr.ofUnary_marked, Expr.ofUnary_marked, Expr.marked, Expr.marked, hbase, hsame, hty]
      rfl

end Rules

/-! ## The words of both -/

namespace Parse

/-- The tokens of `name[E]`, on any lines. -/
inductive IndexWords (name : Token) (E : List Token) : List Token → Prop where
  | mk {opening closing : Token} (ident : name.kind = .ident) (opens : opening.is (.punct "["))
      (closes : closing.is (.punct "]")) : IndexWords name E (name :: opening :: (E ++ [closing]))

/-- The tokens of `*(name + (E))`, on any lines. -/
inductive SumWords (name : Token) (E : List Token) : List Token → Prop where
  | mk {star outer plus inner closing last : Token} (ident : name.kind = .ident) (derefs : star.is (.punct "*"))
      (opens : outer.is (.punct "(")) (adds : plus.is (.punct "+")) (opens' : inner.is (.punct "("))
      (closes : closing.is (.punct ")")) (ends : last.is (.punct ")")) :
      SumWords name E (star :: outer :: name :: plus :: inner :: (E ++ [closing, last]))

/-- The tokens `rest` are left, in the context `c`. -/
structure Reached (c : Context) (rest : List Token) (s : State) : Prop where
  tokens : s.tokens = rest
  context : s.context = c

namespace Reached

variable {α : Type} {c : Context} {s : State} {token : Token} {rest : List Token} {terminal : Terminal}

theorem toAt (h : Reached c rest s) : At c.symbols rest s := ⟨h.tokens, by rw [h.context]⟩

theorem names (h : Reached c rest s) (f : String) : s.names f = ⟨c.symbols, f⟩ := h.toAt.names f

theorem take {read : Token → Option α} {a : α} (h : Reached c (token :: rest) s) (hread : read token = some a) :
    ∃ u, s.take? read = some u ∧ u.value = a ∧ Reached c rest u.next := by
  obtain ⟨u, hu, hvalue, hnext⟩ := h.toAt.take hread
  exact ⟨u, hu, hvalue, hnext.tokens, (context_of_take hu).trans h.context⟩

theorem accept (h : Reached c (token :: rest) s) (his : token.is terminal = true) :
    ∃ u, s.accept? terminal = some u ∧ Reached c rest u.next := by
  obtain ⟨u, hu, hnext⟩ := h.toAt.accept his
  exact ⟨u, hu, hnext.tokens, (context_of_accept hu).trans h.context⟩

theorem need {read : Token → Option α} {a : α} (h : Reached c (token :: rest) s) (cause : String → GrammarFault)
    (hread : read token = some a) : (s.need read cause).Succeeds fun a' s' => a' = a ∧ Reached c rest s' := by
  obtain ⟨u, hu, hvalue, hnext⟩ := h.take hread
  unfold State.need
  rw [hu]
  exact ⟨hvalue, hnext⟩

theorem expect (h : Reached c (token :: rest) s) (his : token.is terminal = true) :
    (s.expect terminal).Succeeds fun _ s' => Reached c rest s' :=
  Result.ends_mono (h.need (.expected terminal.text) (if_pos his)) (fun _ _ h' => h'.2) fun _ _ => id

end Reached

/-- What is parsed is what the rules say: a tree, with `rest` left in the context `c`, or a semantic fault. -/
def Settles {n : Nat} (c : Context) (rest : List Token) (verdict : Except SemanticFault Expr) (r : Result n Expr) :
    Prop :=
  r.Ends (fun e s => verdict = .ok e ∧ Reached c rest s)
    (fun fault _ => ∃ line cause, fault = .semantic line cause ∧ verdict = .error cause)

section Settles

variable {m n : Nat} {α : Type} {c : Context} {rest : List Token} {s : State} {P : α → State → Prop}
  {verdict : Except SemanticFault Expr}

theorem settles_bind {r : Result m α} {k : α → (s : State) → s.size < m → Result (s.size + 1) Expr}
    (hr : r.Succeeds P) (hk : ∀ a s h, P a s → Settles c rest verdict (k a s h)) : Settles c rest verdict (r.bind k) :=
  Result.ends_bind (Result.ends_mono hr (fun _ _ => id) fun _ _ => False.elim) hk

theorem settles_andThen {r : Result m α} {k : α → (s : State) → s.size < m → Result (s.size + 1) Expr}
    (hr : r.Succeeds P) (hk : ∀ a s h, P a s → Settles c rest verdict (k a s h)) :
    Settles c rest verdict (r.andThen k) := Result.ends_relax (settles_bind hr hk)

/-- A part settles what comes first, and the rules go on with it. -/
theorem settles_part {r : Result m Expr} {k : Expr → (s : State) → s.size < m → Result (s.size + 1) Expr} {c₁ : Context}
    {rest₁ : List Token} {x : Except SemanticFault Expr} {g : Expr → Except SemanticFault Expr}
    (hr : Settles c₁ rest₁ x r) (hk : ∀ e s h, Reached c₁ rest₁ s → Settles c rest (g e) (k e s h)) :
    Settles c rest (x >>= g) (r.bind k) := by
  refine Result.ends_bind (Result.ends_mono hr (fun _ _ => id) ?_) ?_
  · rintro _ _ ⟨line, cause, rfl, rfl⟩
    exact ⟨line, cause, rfl, rfl⟩
  · rintro e s h ⟨rfl, hs⟩
    exact hk e s h hs

theorem settles_demand {line : Nat} {x : Except SemanticFault α} {g : α → Except SemanticFault Expr}
    {k : α → Result n Expr} (hk : ∀ a, x = .ok a → Settles c rest (g a) (k a)) :
    Settles c rest (x >>= g) (s.demand line x k) := by
  cases x with
  | ok a => exact hk a rfl
  | error cause => exact ⟨line, cause, rfl, rfl⟩

/-- The last rule decides. -/
theorem settles_last {line : Nat} (h : Reached c rest s) :
    Settles c rest verdict (s.demand line verdict fun e => .done e s) := by
  cases verdict with
  | ok e => exact ⟨rfl, h⟩
  | error cause => exact ⟨line, cause, rfl, rfl⟩

end Settles

section Words

variable {f : String} {c c' : Context} {name : Token} {E E' w rest : List Token} {index : Expr} {s : State}

/-- Before something that closes a bracket, all of `E` is read as the expression `index`, and the context becomes
`c'`. -/
def Enclosed (f : String) (c : Context) (E : List Token) (index : Expr) (c' : Context) : Prop :=
  ∀ token rest s, token.is (.punct ")") ∨ token.is (.punct "]") → Reached c (E ++ token :: rest) s →
    (expression f s).Succeeds fun e s' => e = index ∧ Reached c' (token :: rest) s'

theorem is_punct {token : Token} {text : String} :
    token.is (.punct text) = true ↔ token.kind = .punctuator ∧ token.text = text := by
  unfold Token.is
  rw [Bool.and_eq_true, beq_iff_eq, beq_iff_eq]

theorem is_other {token : Token} {text text' : String} (h : token.is (.punct text)) (hne : text ≠ text') :
    token.is (.punct text') = false := by
  rw [Bool.eq_false_iff]
  intro h'
  exact hne ((is_punct.1 h).2.symm.trans (is_punct.1 h').2)

/-- A name is read, and what becomes of it depends on what follows. -/
theorem unary_name (hident : name.kind = .ident) (hs : Reached c (name :: rest) s) {verdict : Except SemanticFault Expr}
    (hnamed : ∀ s', Reached c rest s' → Settles c' E verdict (named f name.text name.line s')) :
    Settles c' E verdict (unary f s) := by
  obtain ⟨hunary, hparens, hkind⟩ := unary_leaf (f := f) hs.tokens (by rw [hident]; decide)
  rw [hunary, primary, hparens, hkind, hident]
  refine settles_bind (hs.need .expectedIdentifier (if_pos hident)) ?_
  rintro _ s₁ _ ⟨rfl, h₁⟩
  exact hnamed s₁ h₁

/-- **The words of an index.** Once the index is read, what is built is what the rule for indices says. -/
theorem unary_indexed (hE : Enclosed f c E index c') (hw : IndexWords name E w) (hs : Reached c (w ++ rest) s) :
    Settles c' rest (indexed ⟨c.symbols, f⟩ name.text name.line index) (unary f s) := by
  obtain ⟨hident, hopens, hcloses⟩ := hw
  rw [List.cons_append, List.cons_append, List.append_assoc] at hs
  refine unary_name hident hs fun s₁ h₁ => ?_
  obtain ⟨u, hu, h₂⟩ := h₁.accept hopens
  have hcall : s₁.sees (.punct "(") = false := by
    rw [State.sees, h₁.tokens]
    exact is_other hopens (by decide)
  rw [named, if_neg (ne_true_of_eq_false hcall), h₁.names]
  refine settles_demand fun base hbase => ?_
  rw [hu]
  refine Taken.ends_andThen (settles_andThen (hE _ _ _ (.inr hcloses) h₂) ?_)
  rintro _ s₃ _ ⟨rfl, h₃⟩
  exact settles_andThen (h₃.expect hcloses) fun _ s₄ _ h₄ => settles_last h₄

theorem unaryOp?_is {token : Token} {text : String} (h : token.is (.punct text)) :
    unaryOp? token = UnaryOp.ofSymbol? text := by
  obtain ⟨hkind, rfl⟩ := is_punct.1 h
  exact if_pos hkind

theorem extension?_is {token : Token} {text : String} (h : token.is (.punct text)) (floor : Nat) :
    extension? floor token = (BinaryOp.ofSymbol? text).filter (·.extends? floor) := by
  obtain ⟨hkind, rfl⟩ := is_punct.1 h
  exact congrArg _ (if_pos hkind)

/-- A name before a sign is read as a value. -/
theorem unary_operand {plus : Token} (hident : name.kind = .ident) (hadds : plus.is (.punct "+"))
    (hs : Reached c (name :: plus :: rest) s) :
    Settles c (plus :: rest) (Typing.name ⟨c.symbols, f⟩ name.text name.line) (unary f s) := by
  refine unary_name hident hs fun s₁ h₁ => ?_
  have hcall : s₁.sees (.punct "(") = false := by
    rw [State.sees, h₁.tokens]
    exact is_other hadds (by decide)
  have hstep : trailingStep? plus = none := by
    unfold trailingStep?
    rw [is_other hadds (by decide), is_other hadds (by decide)]
    rfl
  rw [named, if_neg (ne_true_of_eq_false hcall), h₁.names, accept_none h₁.tokens (is_other hadds (by decide)),
    take_none h₁.tokens hstep]
  exact settles_last h₁

/-- What stands in parentheses is read as an operand. -/
theorem unary_parens {opening closing : Token} {P : Expr → Prop} {D : Fault → Prop} (hopens : opening.is (.punct "("))
    (hcloses : closing.is (.punct ")")) (hs : Reached c (opening :: w) s)
    (hinner : ∀ s', Reached c w s' →
      (binary f 0 s').Ends (fun e s => P e ∧ Reached c' (closing :: rest) s) fun fault _ => D fault) :
    (unary f s).Ends (fun e s' => P e ∧ Reached c' rest s') fun fault _ => D fault := by
  obtain ⟨u, hu, h₁⟩ := hs.accept hopens
  rw [unary, take_none hs.tokens (unaryOp?_is hopens), primary, hu]
  refine Taken.ends_bind (Result.ends_andThen (hinner u.next h₁) fun e s₂ _ h₂ => ?_)
  refine Result.ends_andThen (Result.ends_mono (h₂.2.expect hcloses) (fun _ _ => id) fun _ _ => False.elim) ?_
  exact fun _ s₃ _ h₃ => ⟨h₂.1, h₃⟩

/-- The words of a sum of a name and an index in parentheses. -/
theorem binary_summed {plus inner closing last : Token} (hE : Enclosed f c E index c') (hident : name.kind = .ident)
    (hadds : plus.is (.punct "+")) (hopens : inner.is (.punct "(")) (hcloses : closing.is (.punct ")"))
    (hends : last.is (.punct ")")) (hs : Reached c (name :: plus :: inner :: (E ++ closing :: last :: rest)) s) :
    Settles c' (last :: rest) (summed ⟨c.symbols, f⟩ ⟨c'.symbols, f⟩ name.text name.line plus.line index)
      (binary f 0 s) := by
  rw [binary]
  refine settles_part (unary_operand hident hadds hs) fun base s₁ _ h₁ => ?_
  obtain ⟨u, hu, hvalue, h₂⟩ := h₁.take (a := BinaryOp.add) (extension?_is hadds 0)
  have hline : s₁.line = plus.line := by rw [State.line, h₁.tokens]
  rw [operators, hu, hline]
  refine Taken.ends_andThen ?_
  rw [hvalue]
  have hright :
      (binary f BinaryOp.add.strength u.next).Succeeds fun e s' => e = index ∧ Reached c' (last :: rest) s' := by
    rw [binary]
    refine Result.ends_bind (unary_parens hopens hcloses h₂ fun s' h' => hE _ _ s' (.inl hcloses) h') ?_
    rintro e s₃ _ ⟨rfl, h₃⟩
    rw [operators, take_none h₃.tokens (extension?_is hends _)]
    exact ⟨rfl, h₃⟩
  refine settles_andThen hright ?_
  rintro _ s₃ _ ⟨rfl, h₃⟩
  have hstops : (fun e => operators f 0 e s₃) = fun e => .done e s₃ := by
    funext e
    rw [operators, take_none h₃.tokens (extension?_is hends 0)]
  rw [h₃.names, hstops]
  exact settles_last h₃

/-- **The words of a sum.** Once the index is read, what is built is what the rules for sums and dereferences say. -/
theorem unary_displaced (hE : Enclosed f c E index c') (hw : SumWords name E w) (hs : Reached c (w ++ rest) s) :
    ∃ operator, Settles c' rest (displaced ⟨c.symbols, f⟩ ⟨c'.symbols, f⟩ name.text name.line operator index)
      (unary f s) := by
  obtain @⟨star, outer, plus, inner, closing, last, hident, hderefs, hopens, hadds, hopens', hcloses, hends⟩ := hw
  simp only [List.cons_append, List.append_assoc, List.nil_append] at hs
  obtain ⟨u, hu, hvalue, h₁⟩ := hs.take (a := UnaryOp.deref) (unaryOp?_is hderefs)
  refine ⟨plus.line, ?_⟩
  have hparens := unary_parens hopens hends h₁ fun s' h' => binary_summed hE hident hadds hopens' hcloses hends h'
  rw [unary, hu]
  refine Taken.ends_bind (Result.ends_relax (settles_part hparens fun sum s₂ _ h₂ => ?_))
  rw [hvalue, h₂.names]
  exact settles_last h₂

/-- Where the operand is all there is, the expression is the operand. -/
theorem settles_expression {verdict : Except SemanticFault Expr} (hloose : Loose 0 rest)
    (h : Settles c rest verdict (unary f s)) : Settles c rest verdict (expression f s) := by
  unfold expression
  rw [binary]
  refine Result.ends_bind h ?_
  rintro e s₁ _ ⟨rfl, h₁⟩
  rw [operators, h₁.toAt.loose hloose]
  exact ⟨rfl, h₁⟩

/-- What parses on its own parses in brackets. -/
theorem enclosed_of_parsed {next : State} {shorter : next.size < State.size { s with tokens := E }}
    (h : expression f { s with tokens := E } = .ok index next shorter) (hall : next.tokens = []) :
    Enclosed f s.context E index next.context := by
  intro token rest s₁ hcloses h₁
  have htails : Tails [] (token :: rest) := .closing (by simpa using hcloses)
  have hbeside : Beside [] (token :: rest) { s with tokens := E } s₁ :=
    ⟨⟨E, (List.append_nil E).symm, h₁.tokens⟩, h₁.context⟩
  have htracks := expression_tracks (f := f) htails hbeside
  rw [h] at htracks
  cases hres : expression f s₁ with
  | fail fault last =>
    rw [hres] at htracks
    exact htracks.elim
  | ok e last shorter' =>
    rw [hres] at htracks
    obtain ⟨rfl, ⟨u, hu, hlast⟩, hcontext⟩ := htracks
    rw [hall, List.append_nil] at hu
    subst hu
    exact ⟨rfl, hlast, hcontext⟩

/-- On other lines the same tokens parse to the same expression. -/
theorem parsed_elsewhere {next : State} {shorter : next.size < State.size { s with tokens := E }}
    (hsame : E'.map Token.unplaced = E.map Token.unplaced)
    (h : expression f { s with tokens := E } = .ok index next shorter) (hall : next.tokens = []) :
    ∃ index' next' shorter', expression f { s with tokens := E' } = .ok index' next' shorter' ∧
      index'.unplaced = index.unplaced ∧ next'.tokens = [] ∧ next'.context = next.context := by
  have hrelined := expression_relined (ℓ := fun _ => 0) f { s with tokens := E }
  have hrelined' := expression_relined (ℓ := fun _ => 0) f { s with tokens := E' }
  have hstate :
      State.relined (fun _ => 0) { s with tokens := E' } = State.relined (fun _ => 0) { s with tokens := E } :=
    congrArg (fun ts => State.mk ts 0 s.context) hsame
  rw [h] at hrelined
  rw [hstate] at hrelined'
  cases hmoved : expression f (State.relined (fun _ => 0) { s with tokens := E }) with
  | fail => rw [hmoved] at hrelined; cases hrelined
  | ok e last shorter₁ =>
    rw [hmoved] at hrelined hrelined'
    obtain ⟨rfl, rfl⟩ := hrelined
    cases hres : expression f { s with tokens := E' } with
    | fail => rw [hres] at hrelined'; cases hrelined'
    | ok index' next' shorter' =>
      rw [hres] at hrelined'
      obtain ⟨hindex, hnext⟩ := hrelined'
      refine ⟨index', next', shorter', rfl, hindex.symm, ?_, (congrArg State.context hnext).symm⟩
      have htokens : next.tokens.map (Token.relined fun _ => 0) = next'.tokens.map (Token.relined fun _ => 0) :=
        congrArg State.tokens hnext
      rw [hall] at htokens
      exact List.map_eq_nil_iff.1 htokens.symm

end Words

/-! ## One for the other -/

/-- Both results are a tree, the same one up to lines, with `rest` left in the context `c`; or both are semantic
faults. -/
def Interchange {m n : Nat} (c : Context) (rest : List Token) (r : Result m Expr) (r' : Result n Expr) : Prop :=
  (∃ e e' last last' shorter shorter', r = .ok e last shorter ∧ r' = .ok e' last' shorter' ∧ e'.unplaced = e.unplaced ∧
    Reached c rest last ∧ Reached c rest last') ∨
  ∃ line line' cause cause' last last',
    r = .fail (.semantic line cause) last ∧ r' = .fail (.semantic line' cause') last'

section Interchange

variable {m n : Nat} {c : Context} {rest : List Token} {verdict verdict' : Except SemanticFault Expr}
  {r : Result m Expr} {r' : Result n Expr} {e e' : Expr}

theorem Settles.ok (h : Settles c rest verdict r) (hverdict : verdict = .ok e) :
    ∃ last shorter, r = .ok e last shorter ∧ Reached c rest last := by
  subst hverdict
  cases r with
  | ok e last shorter =>
    obtain ⟨⟨⟩, hlast⟩ := h
    exact ⟨last, shorter, rfl, hlast⟩
  | fail fault last =>
    obtain ⟨_, _, _, ⟨⟩⟩ := h

theorem Settles.fail {cause : SemanticFault} (h : Settles c rest verdict r) (hverdict : verdict = .error cause) :
    ∃ line last, r = .fail (.semantic line cause) last := by
  subst hverdict
  cases r with
  | ok e last shorter => obtain ⟨⟨⟩, -⟩ := h
  | fail fault last =>
    obtain ⟨line, _, rfl, ⟨⟩⟩ := h
    exact ⟨line, last, rfl⟩

theorem interchange_ok (h : Settles c rest verdict r) (h' : Settles c rest verdict' r') (he : verdict = .ok e)
    (he' : verdict' = .ok e') (hsame : e'.unplaced = e.unplaced) : Interchange c rest r r' := by
  obtain ⟨last, shorter, hr, hlast⟩ := h.ok he
  obtain ⟨last', shorter', hr', hlast'⟩ := h'.ok he'
  exact .inl ⟨e, e', last, last', shorter, shorter', hr, hr', hsame, hlast, hlast'⟩

theorem interchange_fail {cause cause' : SemanticFault} (h : Settles c rest verdict r) (h' : Settles c rest verdict' r')
    (hcause : verdict = .error cause) (hcause' : verdict' = .error cause') : Interchange c rest r r' := by
  obtain ⟨line, last, hr⟩ := h.fail hcause
  obtain ⟨line', last', hr'⟩ := h'.fail hcause'
  exact .inr ⟨line, line', cause, cause', last, last', hr, hr'⟩

end Interchange

end Parse

section Meaning

open Parse

/-- **Indexing is pointer arithmetic.** In any state, whatever the symbols: let `E` parse on its own, to the last token,
as an expression `index` of integer type. Then `a[E]` and `*(a + (E))`, on any lines and before any tokens, parse to the
same tree up to lines with the same work on the context, or both to a semantic fault; so they do as whole expressions
before tokens that do not go on with an operator. They parse exactly if `a` is the value of a name that points to
elements with a size, and what they read is `index` times that size after it. -/
theorem indexing_is_displacement {f : String} {s next : State} {E E' w w' : List Token} {a a' : Token} {index : Expr}
    {shorter : next.size < State.size { s with tokens := E }}
    (hparsed : expression f { s with tokens := E } = .ok index next shorter) (hall : next.tokens = [])
    (hinteger : index.ty.isInteger = true) (hsame : E'.map Token.unplaced = E.map Token.unplaced)
    (hname : a'.text = a.text) (hw : IndexWords a E w) (hw' : SumWords a' E' w') (rest : List Token) :
    Interchange next.context rest (unary f { s with tokens := w ++ rest }) (unary f { s with tokens := w' ++ rest }) ∧
    (Loose 0 rest → Interchange next.context rest (expression f { s with tokens := w ++ rest })
      (expression f { s with tokens := w' ++ rest })) ∧
    ((∃ e last shorter, unary f { s with tokens := w ++ rest } = .ok e last shorter) ↔
      ∃ base, Typing.name (s.names f) a.text a.line = .ok base ∧ base.ty.element?.isSome) ∧
    ∀ e last shorter, unary f { s with tokens := w ++ rest } = .ok e last shorter →
      ∃ base, Typing.name (s.names f) a.text a.line = .ok base ∧ Displaces base index e := by
  obtain ⟨index', next', shorter', hparsed', hindex, hall', hcontext⟩ := parsed_elsewhere hsame hparsed hall
  have hE := enclosed_of_parsed hparsed hall
  have hE' := enclosed_of_parsed hparsed' hall'
  rw [hcontext] at hE'
  have hleft := unary_indexed (s := { s with tokens := w ++ rest }) hE hw ⟨rfl, rfl⟩
  obtain ⟨operator, hright⟩ := unary_displaced (s := { s with tokens := w' ++ rest }) hE' hw' ⟨rfl, rfl⟩
  rw [hname] at hright
  have hleft' := fun hloose => settles_expression hloose hleft
  have hright' := fun hloose => settles_expression hloose hright
  rcases indexed_or_refused (s.names f) ⟨next.context.symbols, f⟩ a.text a.line a'.line operator hinteger hindex with
    ⟨base, e, e', hbase, hvalue, he, he', hunplaced⟩ | ⟨hnone, ⟨cause, hcause⟩, ⟨cause', hcause'⟩⟩
  · obtain ⟨last, shorter₁, hok, -⟩ := hleft.ok he
    obtain ⟨element, -, helement, -⟩ := id hvalue
    refine ⟨interchange_ok hleft hright he he' hunplaced,
      fun hloose => interchange_ok (hleft' hloose) (hright' hloose) he he' hunplaced, ⟨fun _ => ?_, fun _ => ?_⟩, ?_⟩
    · exact ⟨base, hbase, by rw [helement]; rfl⟩
    · exact ⟨e, last, shorter₁, hok⟩
    · intro e₁ last₁ shorter₂ h
      rw [hok] at h
      cases h
      exact ⟨base, hbase, hvalue⟩
  · obtain ⟨line, last, hfail⟩ := hleft.fail hcause
    refine ⟨interchange_fail hleft hright hcause hcause',
      fun hloose => interchange_fail (hleft' hloose) (hright' hloose) hcause hcause', ⟨?_, ?_⟩, ?_⟩
    · rintro ⟨e, last, shorter, h⟩
      rw [hfail] at h
      cases h
    · rintro ⟨base, hbase, hsome⟩
      rw [hnone base hbase] at hsome
      cases hsome
    · intro e last shorter h
      rw [hfail] at h
      cases h

/-- The tokens of `n = a[1]`. -/
def assignedIndex : List Token := [word "n", punct "=", word "a", punct "[", numeral 1, punct "]"]

/-- The tokens of `a[n = a[1]]`. -/
def assignedElement : List Token := word "a" :: punct "[" :: (assignedIndex ++ [punct "]"])

/-- The tokens of `*(a + (n = a[1]))`. -/
def assignedSum : List Token :=
  punct "*" :: punct "(" :: word "a" :: punct "+" :: punct "(" :: (assignedIndex ++ [punct ")", punct ")"])

theorem indexWords_assigned : IndexWords (word "a") assignedIndex assignedElement := .mk rfl rfl rfl

theorem sumWords_assigned : SumWords (word "a") assignedIndex assignedSum := .mk rfl rfl rfl rfl rfl rfl rfl

/-- The index is a `long`, all of it is read, and the element can be read. -/
def readsElement (s : State) : Bool :=
  match expression "f" { s with tokens := assignedIndex },
    unary "f" { s with tokens := assignedElement ++ [punct ";"] } with
  | .ok index next _, .ok .. => index.ty == .long && next.tokens.isEmpty
  | _, _ => false

theorem assigned_index_displaces : ∃ (s next last last' : State) (index base e e' : Expr)
    (shorter : next.size < State.size { s with tokens := assignedIndex })
    (shorter₁ : last.size < State.size { s with tokens := assignedElement ++ [punct ";"] })
    (shorter₂ : last'.size < State.size { s with tokens := assignedSum ++ [punct ";"] }),
    expression "f" { s with tokens := assignedIndex } = .ok index next shorter ∧ next.tokens = [] ∧ index.ty = .long ∧
      unary "f" { s with tokens := assignedElement ++ [punct ";"] } = .ok e last shorter₁ ∧
      unary "f" { s with tokens := assignedSum ++ [punct ";"] } = .ok e' last' shorter₂ ∧ e'.unplaced = e.unplaced ∧
      last'.context = last.context ∧ Typing.name (s.names "f") "a" 0 = .ok base ∧ Displaces base index e := by
  have hreads : roundTripState.any readsElement = true := by decide +kernel
  obtain ⟨s, -, hs⟩ := (Option.any_eq_true _ _).1 hreads
  unfold readsElement at hs
  split at hs
  · next index next shorter e last shorter₁ hindex helement =>
    obtain ⟨hty, hall⟩ := by simpa using hs
    have hdisplaces := indexing_is_displacement hindex hall (by rw [hty]; rfl) rfl rfl
      indexWords_assigned sumWords_assigned [punct ";"]
    obtain ⟨base, hbase, hvalue⟩ := hdisplaces.2.2.2 e last shorter₁ helement
    rcases hdisplaces.1 with ⟨e₁, e', last₁, last', shorter₃, shorter₂, hok, hok', hsame, hlast, hlast'⟩ | hfail
    · have helement' : unary "f" { s with tokens := assignedElement ++ [punct ";"] } = .ok e₁ last₁ shorter₃ := hok
      rw [helement] at helement'
      cases helement'
      exact ⟨s, next, last, last', index, base, e, e', shorter, shorter₁, shorter₂, hindex, hall, hty, helement, hok',
        hsame, hlast'.context.trans hlast.context.symm, hbase, hvalue⟩
    · obtain ⟨line, line', cause, cause', last₁, last', hfail, -⟩ := hfail
      have helement' :
          unary "f" { s with tokens := assignedElement ++ [punct ";"] } = .fail (.semantic line cause) last₁ := hfail
      rw [helement] at helement'
      cases helement'
  · cases hs

end Meaning

end MiniC
