import MiniC.Proofs.Typed

/-!
# Every rule builds a node that fits

The rules of `Typing` look names up and convert operands while the tree grows. Each of them, applied to operands that fit
a sound table, builds a node that fits it (`typed_name`, `typed_index`, `typed_call`, `typed_unary`, `typed_binary`,
`typed_returnValue`).

Some rules look an operand's name up a second time. `Resolved` says that this gives the symbol that the name was read as;
it holds while one expression is read, since nothing is declared in between.
-/

namespace MiniC

/-! ## Conversions -/

theorem Ty.eq_of_conversion {source target : Ty} {op : Option BinaryOp}
    (h : source.conversion target op = .identical) : source = target := by
  unfold Ty.conversion at h
  split at h
  · assumption
  · split at h
    · split at h <;> cases h
    · split at h
      · split at h <;> cases h
      · cases h

/-- What a conversion that changes a value asks of the two types. -/
theorem Ty.conversion_change {source target : Ty} {op : Option BinaryOp} {change : Change}
    (h : source.conversion target op = .change change) :
    source.isInteger = true ∧
      ((change = .widen ∧ ((target.isInteger = true ∧ source.size < target.size) ∨ target = .pointer .char)) ∨
        ∃ base factor, change = .scale factor ∧ target = .pointer base ∧ factor = (base.size : Int) ∧ 1 < factor) := by
  unfold Ty.conversion at h
  split at h
  · cases h
  · split at h
    · next hint =>
      simp only [Bool.and_eq_true] at hint
      split at h
      · next hlt => cases h; exact ⟨hint.1, .inl ⟨rfl, .inl ⟨hint.2, hlt⟩⟩⟩
      · cases h
    · split at h
      · next hptr =>
        simp only [Bool.and_eq_true] at hptr
        refine ⟨hptr.1.1, ?_⟩
        cases target with
        | plain base => cases hptr.1.2
        | pointer base =>
          cases base with
          | void => cases h
          | char => cases h; exact .inl ⟨rfl, .inr rfl⟩
          | int => cases h; exact .inr ⟨.int, 4, rfl, rfl, rfl, by decide⟩
          | long => cases h; exact .inr ⟨.long, 8, rfl, rfl, rfl, by decide⟩
      · cases h

/-- Two different types do not convert to each other. -/
theorem Ty.conversion_antisymm {a b : Ty} {op : Option BinaryOp} (h : a.conversion b op ≠ .incompatible)
    (h' : b.conversion a op ≠ .incompatible) : a = b := by
  by_cases hab : a = b
  · exact hab
  · have ha : a.isInteger = true := by
      cases hc : a.conversion b op with
      | identical => exact absurd (Ty.eq_of_conversion hc) hab
      | change change => exact (Ty.conversion_change hc).1
      | incompatible => exact absurd hc h
    have hb : b.isInteger = true := by
      cases hc : b.conversion a op with
      | identical => exact absurd (Ty.eq_of_conversion hc).symm hab
      | change change => exact (Ty.conversion_change hc).1
      | incompatible => exact absurd hc h'
    simp only [Ty.conversion, hab, Ne.symm hab, ha, hb, Bool.and_self, ↓reduceIte] at h h'
    have hlt : a.size < b.size := Decidable.byContradiction fun hn => h (if_neg hn)
    have hlt' : b.size < a.size := Decidable.byContradiction fun hn => h' (if_neg hn)
    omega

theorem typed_convert {t : SymbolTable} {f : String} {e e' : Expr} {target : Ty} {op : Option BinaryOp}
    (he : Typed t f e) (h : e.convert? target op = some e') : Typed t f e' ∧ e'.ty = target := by
  unfold Expr.convert? at h
  split at h
  · next hsame =>
    cases h
    exact ⟨he, Ty.eq_of_conversion hsame⟩
  · next change hchange =>
    cases h
    refine ⟨?_, rfl⟩
    obtain ⟨hint, ⟨rfl, hwider⟩ | ⟨base, factor, rfl, hty, hsize, hlarge⟩⟩ := Ty.conversion_change hchange
    · exact .widen he hint hwider
    · exact .scale he hint hty hsize hlarge
  · cases h

theorem conversion_of_convert {e e' : Expr} {target : Ty} {op : Option BinaryOp} (h : e.convert? target op = some e') :
    e.ty.conversion target op ≠ .incompatible := by
  intro hc
  unfold Expr.convert? at h
  rw [hc] at h
  cases h

/-! ## Names -/

/-- A name that an expression consists of is looked up as it was read. -/
def Resolved (t : SymbolTable) (f : String) : Expr → Prop
  | .ident _ name scope => ∃ s, t.resolve name (some f) = .ok s ∧ s.scope = scope
  | _ => True

section Rules

variable {c : Context} {f : String}

theorem denotes_resolve (hc : c.Sound) {name : String} {s : Symbol} (h : c.symbols.resolve name (some f) = .ok s)
    (hk : s.kind ≠ .function) : Denotes c.symbols f name s.scope s.ty s := by
  obtain ⟨g, hg, hl⟩ | ⟨-, hglobal⟩ := SymbolTable.resolve_cases h
  · cases hg
    have hm := hc.memberOk hl
    refine ⟨?_, rfl, hk, hm.typed, rfl⟩
    cases hscope : s.scope with
    | global => exact absurd hscope hm.scope
    | «local» => exact hl
    | parameter => exact hl
  · have hg := hc.globals name s hglobal
    exact ⟨by rw [hg.scope]; exact hglobal, rfl, hk, hg.typed hk, rfl⟩

/-- The symbol found for a name and its scope is the one that the name is looked up as. -/
theorem resolve_eq_of_denotes (hc : c.Sound) {name : String} {scope : Scope} {ty : Ty} {s s' : Symbol}
    (hs : Denotes c.symbols f name scope ty s) (h : c.symbols.resolve name (some f) = .ok s') (hscope : s'.scope = scope) :
    s' = s := by
  have hfound := hs.found
  obtain ⟨g, hg, hl⟩ | ⟨-, hglobal⟩ := SymbolTable.resolve_cases h
  · cases hg
    have hm := (hc.memberOk hl).scope
    rw [hscope] at hm
    cases scope with
    | global => exact absurd rfl hm
    | «local» => exact Option.some.inj (hl.symm.trans hfound)
    | parameter => exact Option.some.inj (hl.symm.trans hfound)
  · have hg := (hc.globals name s' hglobal).scope
    rw [hscope] at hg
    subst hg
    exact Option.some.inj (hglobal.symm.trans hfound)

/-- A name that fits and is looked up again: the symbol is the same. -/
theorem denotes_of_typed (hc : c.Sound) {info : Info} {name : String} {scope : Scope} {s : Symbol}
    (he : Typed c.symbols f (.ident info name scope)) (hr : Resolved c.symbols f (.ident info name scope))
    (h : c.symbols.resolve name (some f) = .ok s) : Denotes c.symbols f name scope info.ty s := by
  cases he with
  | ident names =>
    obtain ⟨s', hs', hscope⟩ := hr
    rw [hs'] at h
    cases h
    rw [resolve_eq_of_denotes hc names hs' hscope]
    exact names

theorem typed_name (hc : c.Sound) {name : String} {line : Nat} {e : Expr}
    (h : Typing.name ⟨c.symbols, f⟩ name line = .ok e) : Typed c.symbols f e ∧ Resolved c.symbols f e := by
  unfold Typing.name at h
  cases hs : Names.resolve ⟨c.symbols, f⟩ name with
  | error cause => rw [hs] at h; cases h
  | ok s =>
    rw [hs] at h
    simp only [bind, Except.bind] at h
    split at h
    · cases h
    · next hk => cases h; exact ⟨.ident (denotes_resolve hc hs hk), s, hs, rfl⟩

theorem typed_index {base index e : Expr} {name : String} (hb : Typed c.symbols f base) (hi : Typed c.symbols f index)
    (h : Typing.index base name index = .ok e) : Typed c.symbols f e ∧ Resolved c.symbols f e := by
  unfold Typing.index at h
  split at h
  · cases h
  · next element helement =>
    obtain ⟨hvalue, hnonvoid⟩ := Option.filter_eq_some_iff.1 helement
    split at h
    · cases h
    · split at h
      · cases h
      · next offset hoffset =>
        cases h
        obtain ⟨ho, hty⟩ := typed_convert hi hoffset
        have hbase : base.ty ≠ .void := by
          intro hv
          rw [hv] at hvalue
          cases hvalue
        have haddress : Typed c.symbols f (.binary { ty := base.ty, line := base.line } .add base offset) :=
          .arithmetic (by decide) hb ho hty.symm hbase (fun _ => .inr rfl) rfl
        exact ⟨.deref haddress hvalue (by simpa using hnonvoid), trivial⟩

/-! ## Calls -/

theorem callee_cases (hc : c.Sound) {name : String} {ret : Ty} {params : List Ty}
    (h : Typing.callee ⟨c.symbols, f⟩ name = .ok (ret, params)) :
    ∃ s, c.symbols.global? name = some s ∧ s.kind = .function ∧ ret = s.ty ∧
      params = (c.symbols.params name).map (·.ty) := by
  unfold Typing.callee at h
  cases hs : Names.resolve ⟨c.symbols, f⟩ name with
  | error cause => rw [hs] at h; cases h
  | ok s =>
    rw [hs] at h
    simp only [bind, Except.bind] at h
    split at h
    · next hk =>
      cases h
      obtain ⟨g, hg, hl⟩ | ⟨-, hglobal⟩ := SymbolTable.resolve_cases hs
      · exact absurd hk (hc.memberOk hl).kind
      · exact ⟨s, hglobal, hk, rfl, rfl⟩
    · cases h

/-- Arguments take the types of the parameters, as far as there are both. -/
theorem typed_arguments {function : String} : ∀ {position : Nat} {args args' : List Expr} {tys : List Ty},
    (∀ arg ∈ args, Typed c.symbols f arg) → args.length = tys.length →
    Typing.arguments function position args tys = .ok args' →
      (∀ arg ∈ args', Typed c.symbols f arg) ∧ args'.map Expr.ty = tys
  | position, [], args', [], _, _, h => by
    unfold Typing.arguments at h
    cases h
    exact ⟨by simp, rfl⟩
  | position, arg :: args, args', ty :: tys, hargs, hlength, h => by
    unfold Typing.arguments at h
    split at h
    · cases h
    · next arg' harg =>
      obtain ⟨htyped, hty⟩ := typed_convert (hargs arg List.mem_cons_self) harg
      cases hrest : Typing.arguments function (position + 1) args tys with
      | error cause => rw [hrest] at h; cases h
      | ok rest =>
        rw [hrest] at h
        cases h
        obtain ⟨hall, htys⟩ := typed_arguments (fun a ha => hargs a (List.mem_cons_of_mem _ ha))
          (by simpa using hlength) hrest
        refine ⟨?_, by rw [List.map_cons, hty, htys]⟩
        intro a ha
        rcases List.mem_cons.1 ha with rfl | ha
        · exact htyped
        · exact hall a ha

theorem param_ne_void (hc : c.Sound) {name : String} {s : Symbol} (h : s ∈ c.symbols.params name) : s.ty ≠ .void := by
  have hmem := (List.mem_filter.1 h).1
  unfold SymbolTable.members at hmem
  cases hn : c.symbols.namespace? name with
  | none => rw [hn] at hmem; cases hmem
  | some symbols =>
    rw [hn] at hmem
    exact ((hc.namespaces name symbols hn).members s hmem).typed

theorem typed_call (hc : c.Sound) {name : String} {ret : Ty} {params : List Ty} {args : List Expr} {line : Nat} {e : Expr}
    (hcallee : Typing.callee ⟨c.symbols, f⟩ name = .ok (ret, params)) (hargs : ∀ arg ∈ args, Typed c.symbols f arg)
    (h : Typing.call name ret params args line = .ok e) : Typed c.symbols f e ∧ Resolved c.symbols f e := by
  obtain ⟨s, hs, hk, rfl, rfl⟩ := callee_cases hc hcallee
  unfold Typing.call at h
  split at h
  · cases h
  · next hlength =>
    simp only [ne_eq, Decidable.not_not] at hlength
    cases hconv : Typing.arguments name 1 args ((c.symbols.params name).map (·.ty)) with
    | error cause => rw [hconv] at h; cases h
    | ok args' =>
      rw [hconv] at h
      cases h
      obtain ⟨htyped, htys⟩ := typed_arguments hargs hlength hconv
      have harity : args'.length = (c.symbols.params name).length := by simpa using congrArg List.length htys
      refine ⟨.call hs hk rfl harity (harity ▸ hc.params_le name) htyped ?_, trivial⟩
      intro arg harg
      have hmem : arg.ty ∈ args'.map Expr.ty := List.mem_map_of_mem harg
      rw [htys] at hmem
      obtain ⟨p, hp, hty⟩ := List.mem_map.1 hmem
      exact hty ▸ param_ne_void hc hp

/-! ## Operators -/

theorem typed_unary (hc : c.Sound) {op : UnaryOp} {operand e : Expr} (ho : Typed c.symbols f operand)
    (hr : Resolved c.symbols f operand) (h : Typing.unary ⟨c.symbols, f⟩ op operand = .ok e) :
    Typed c.symbols f e ∧ Resolved c.symbols f e := by
  cases op with
  | negate =>
    simp only [Typing.unary, Typing.negate] at h
    split at h
    · next hint => cases h; exact ⟨.negate ho hint rfl, trivial⟩
    · cases h
  | not =>
    simp only [Typing.unary, Typing.logicalNot] at h
    split at h
    · next htruth =>
      cases h
      refine ⟨.not ho (fun hv => ?_) rfl, trivial⟩
      rw [hv] at htruth
      cases htruth
    · cases h
  | deref =>
    simp only [Typing.unary, Typing.dereference] at h
    split at h
    · next ty hty =>
      cases h
      obtain ⟨hvalue, hnonvoid⟩ := Option.filter_eq_some_iff.1 hty
      exact ⟨.deref ho hvalue (by simpa using hnonvoid), trivial⟩
    · cases h
  | addressOf =>
    simp only [Typing.unary, Typing.addressOf] at h
    split at h
    · next info name scope =>
      cases hs : Names.resolve ⟨c.symbols, f⟩ name with
      | error cause => rw [hs] at h; cases h
      | ok s =>
        rw [hs] at h
        have hnames := denotes_of_typed hc ho hr hs
        simp only [bind, Except.bind] at h
        split at h
        · next harray =>
          cases h
          refine ⟨.addressOf hnames ?_, trivial⟩
          rw [if_pos (by simpa [Symbol.isArray] using harray)]
          rfl
        · next harray =>
          split at h
          · next ty hty =>
            cases h
            refine ⟨.addressOf hnames ?_, trivial⟩
            rw [if_neg (by simpa [Symbol.isArray] using harray)]
            exact hty
          · cases h
    · cases h
  | step moment direction =>
    simp only [Typing.unary, Typing.step] at h
    split at h
    · next info name scope =>
      cases hs : Names.resolve ⟨c.symbols, f⟩ name with
      | error cause => rw [hs] at h; cases h
      | ok s =>
        rw [hs] at h
        have hnames := denotes_of_typed hc ho hr hs
        simp only [bind, Except.bind] at h
        split at h
        · cases h
        · next hbad =>
          cases h
          simp only [Bool.or_eq_true, decide_eq_true_eq, not_or, Symbol.isArray, beq_iff_eq] at hbad
          exact ⟨.step hnames (SymbolKind.eq_variable hnames.value hbad.1) hbad.2 rfl, trivial⟩
    · cases h

/-- Assignment, once the target is known to name a location. -/
theorem assign_cases {left right e : Expr} {line : Nat} (h : Typing.assign ⟨c.symbols, f⟩ left right line = .ok e) :
    ∃ right', right.convert? left.ty none = some right' ∧
      e = .binary { ty := left.ty, line } .assign left.asTarget right' ∧
      ((∃ info name scope s, left = .ident info name scope ∧ c.symbols.resolve name (some f) = .ok s ∧ s.kind ≠ .array) ∨
        ∃ info address, left = .unary info .deref address) := by
  unfold Typing.assign at h
  cases left with
  | ident info name scope =>
    cases hs : Names.resolve ⟨c.symbols, f⟩ name with
    | error cause => simp [Expr.isAddressable, hs, bind, Except.bind] at h
    | ok s =>
      by_cases harray : s.isArray = true
      · simp [Expr.isAddressable, hs, harray, bind, Except.bind, throw, throwThe, MonadExceptOf.throw] at h
      · simp only [Expr.isAddressable, Bool.not_true, Bool.false_eq_true, ↓reduceIte, hs, harray, bind, Except.bind] at h
        split at h
        · next right' hright =>
          cases h
          exact ⟨right', hright, rfl, .inl ⟨info, name, scope, s, rfl, hs, by simpa [Symbol.isArray] using harray⟩⟩
        · cases h
  | unary info op address =>
    cases op with
    | deref =>
      simp only [Expr.isAddressable, Bool.not_true, Bool.false_eq_true, ↓reduceIte] at h
      split at h
      · next right' hright => cases h; exact ⟨right', hright, rfl, .inr ⟨info, address, rfl⟩⟩
      · cases h
    | _ => cases h
  | _ => cases h

theorem typed_assign (hc : c.Sound) {left right e : Expr} {line : Nat} (hl : Typed c.symbols f left)
    (hres : Resolved c.symbols f left) (hr : Typed c.symbols f right)
    (h : Typing.assign ⟨c.symbols, f⟩ left right line = .ok e) : Typed c.symbols f e ∧ Resolved c.symbols f e := by
  obtain ⟨right', hright, rfl, ⟨info, name, scope, s, rfl, hs, harray⟩ | ⟨info, address, rfl⟩⟩ := assign_cases h
  · obtain ⟨hr', hty⟩ := typed_convert hr hright
    have hnames := denotes_of_typed hc hl hres hs
    have hscalar := SymbolKind.eq_variable hnames.value harray
    have hmarked : Denotes c.symbols f name scope { info with rvalue := false }.ty s := hnames
    exact ⟨.assignName hmarked hscalar rfl hr' hty rfl, trivial⟩
  · obtain ⟨hr', hty⟩ := typed_convert hr hright
    cases hl with
    | deref hpointer hpointee hnonvoid =>
      have hmarked : address.ty.valueAt = some { info with rvalue := false }.ty := hpointee
      exact ⟨.assignAt hpointer hmarked hnonvoid rfl hr' hty rfl, trivial⟩

/-- After the conversions of an operator other than assignment both operands have one type. -/
theorem typed_operands {op : BinaryOp} {left right : Expr} (hl : Typed c.symbols f left) (hr : Typed c.symbols f right)
    (h : left.convert? right.ty (some op) ≠ none ∨ right.convert? left.ty (some op) ≠ none) :
    Typed c.symbols f ((left.convert? right.ty (some op)).getD left) ∧
      Typed c.symbols f ((right.convert? left.ty (some op)).getD right) ∧
      ((left.convert? right.ty (some op)).getD left).ty = ((right.convert? left.ty (some op)).getD right).ty ∧
      (((left.convert? right.ty (some op)).getD left).ty = left.ty ∨
        ((left.convert? right.ty (some op)).getD left).ty = right.ty) := by
  cases hleft : left.convert? right.ty (some op) with
  | none =>
    cases hright : right.convert? left.ty (some op) with
    | none => rw [hleft, hright] at h; rcases h with h | h <;> exact absurd rfl h
    | some right' =>
      obtain ⟨htyped, hty⟩ := typed_convert hr hright
      exact ⟨hl, htyped, hty.symm, .inl rfl⟩
  | some left' =>
    obtain ⟨htyped, hty⟩ := typed_convert hl hleft
    cases hright : right.convert? left.ty (some op) with
    | none => exact ⟨htyped, hr, hty, .inr hty⟩
    | some right' =>
      obtain ⟨htyped', hty'⟩ := typed_convert hr hright
      have hsame : left.ty = right.ty :=
        Ty.conversion_antisymm (conversion_of_convert hleft) (conversion_of_convert hright)
      exact ⟨htyped, htyped', hty.trans (hsame.symm.trans hty'.symm), .inr hty⟩

theorem typed_arithmetic {op : BinaryOp} {left right e : Expr} {line : Nat} (hop : op ≠ .assign)
    (hl : Typed c.symbols f left) (hr : Typed c.symbols f right) (h : Typing.arithmetic op left right line = .ok e) :
    Typed c.symbols f e ∧ Resolved c.symbols f e := by
  unfold Typing.arithmetic at h
  split at h
  · cases h
  · next hvoid =>
    rw [not_or] at hvoid
    split at h
    · cases h
    · next hpointers =>
      split at h
      · cases h
      · next hsome =>
        cases h
        have hconv : left.convert? right.ty (some op) ≠ none ∨ right.convert? left.ty (some op) ≠ none := by
          by_cases hnone : left.convert? right.ty (some op) = none
          · exact .inr fun hnone' => hsome hnone hnone'
          · exact .inl hnone
        obtain ⟨hl', hr', hsame, hty⟩ := typed_operands hl hr hconv
        refine ⟨.arithmetic hop hl' hr' hsame ?_ ?_ rfl, trivial⟩
        · rcases hty with hty | hty <;> rw [hty]
          · exact hvoid.1
          · exact hvoid.2
        · intro hptr
          have hside : left.ty.isPointer = true ∨ right.ty.isPointer = true := by
            rcases hty with hty | hty <;> rw [hty] at hptr
            · exact .inl hptr
            · exact .inr hptr
          have htakes : Typing.takesPointers op = true := by
            cases htakes : Typing.takesPointers op with
            | true => rfl
            | false =>
              refine absurd ?_ hpointers
              rcases hside with hside | hside <;> simp [htakes, hside]
          simpa [Typing.takesPointers] using htakes

theorem typed_binary (hc : c.Sound) {op : BinaryOp} {left right e : Expr} {line : Nat} (hl : Typed c.symbols f left)
    (hres : Resolved c.symbols f left) (hr : Typed c.symbols f right)
    (h : Typing.binary ⟨c.symbols, f⟩ op left right line = .ok e) : Typed c.symbols f e ∧ Resolved c.symbols f e := by
  unfold Typing.binary at h
  split at h
  · exact typed_assign hc hl hres hr h
  · next hop => exact typed_arithmetic hop hl hr h

/-! ## Statements -/

theorem typed_condition {e e' : Expr} (he : Typed c.symbols f e) (h : Typing.condition e = .ok e') :
    Typed c.symbols f e' ∧ e'.ty ≠ .void := by
  unfold Typing.condition at h
  split at h
  · next htruth =>
    cases h
    refine ⟨he, fun hv => ?_⟩
    rw [hv] at htruth
    cases htruth
  · cases h

theorem returnType_cases {ty : Ty} (h : Typing.returnType ⟨c.symbols, f⟩ = .ok ty) :
    ∃ s, c.symbols.global? f = some s ∧ s.ty = ty := by
  unfold Typing.returnType at h
  cases hs : c.symbols.resolve f none with
  | error cause => rw [hs] at h; cases h
  | ok s =>
    rw [hs] at h
    cases h
    obtain ⟨g, hg, -⟩ | ⟨-, hglobal⟩ := SymbolTable.resolve_cases hs
    · cases hg
    · exact ⟨s, hglobal, rfl⟩

theorem typed_returnNothing {ty : Ty} {stmt : Stmt} (hty : Typing.returnType ⟨c.symbols, f⟩ = .ok ty)
    (h : Typing.returnNothing f ty = .ok stmt) : TypedStmt c.symbols f stmt := by
  obtain ⟨s, hs, rfl⟩ := returnType_cases hty
  unfold Typing.returnNothing at h
  split at h
  · next hvoid => cases h; exact .retNone hs hvoid
  · cases h

theorem typed_returnValue {ty : Ty} {value : Expr} {stmt : Stmt} (hty : Typing.returnType ⟨c.symbols, f⟩ = .ok ty)
    (hv : Typed c.symbols f value) (h : Typing.returnValue f ty value = .ok stmt) : TypedStmt c.symbols f stmt := by
  obtain ⟨s, hs, rfl⟩ := returnType_cases hty
  unfold Typing.returnValue at h
  split at h
  · cases h
  · next hvoid =>
    split at h
    · next value' hvalue =>
      cases h
      obtain ⟨htyped, hsame⟩ := typed_convert hv hvalue
      exact .retValue hs hvoid htyped hsame
    · cases h

end Rules

end MiniC
