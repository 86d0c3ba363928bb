import MiniC.Compile
import MiniC.Proofs.ParseExpression

/-!
# Programs are read as trees that fit

Statements and items declare names while they are read. `Grown` says what a successful step leaves: a sound context in
which everything declared before is still in place. A failed step leaves a sound context too (`Failed`), so the next
source can use it.

Main statements: `declare_declared` (what the head of a function does to the context), `statements_typed`, `items_typed`
(the items of a program fit the table at its end, and no two of them define the same function), `parseSource_read`.
-/

namespace MiniC

/-! ## Declaring -/

section Declare

variable {c : Context} {E : Fault → Context → Prop}

theorem ends_declare {line : Nat} {change : SymbolTable → Except SemanticFault SymbolTable} {Q : Unit → Context → Prop}
    (hq : ∀ t, change c.symbols = .ok t → Q () { c with symbols := t }) (he : ∀ fault, E fault c) :
    Ends (CompileM.declare line change) c Q E := by
  unfold CompileM.declare
  refine ends_get_bind ?_
  cases h : change c.symbols with
  | error cause => exact he _
  | ok t => exact hq t h

/-- What a declaration introduces is a variable or an array of a type with values. -/
theorem declared_cases {name : String} {ty ty' : Ty} {size : Option Int} {kind : SymbolKind} {count : Int}
    (h : Typing.declared name ty size = .ok (kind, ty', count)) :
    (kind = .variable ∧ ty' = ty) ∨ (kind = .array ∧ 0 < count ∧ ∃ base, base ≠ Base.void ∧ ty' = .pointer base) := by
  unfold Typing.declared at h
  split at h
  · cases h; exact .inl ⟨rfl, rfl⟩
  · split at h
    · cases h
    · next hcount =>
      split at h
      · cases h
      · cases h
      · next base hbase =>
        cases h
        exact .inr ⟨rfl, by omega, base, fun hv => hbase (by rw [hv]), rfl⟩

/-- The symbol of a declaration is as sound as its type. -/
theorem arrayOk_of_declared {name : String} {ty ty' : Ty} {size : Option Int} {kind : SymbolKind} {count : Int}
    (h : Typing.declared name ty size = .ok (kind, ty', count)) (s : Symbol) (hkind : s.kind = kind) (hty : s.ty = ty')
    (hcount : s.count = count) : s.ArrayOk ∧ s.kind ≠ .function := by
  obtain ⟨rfl, -⟩ | ⟨rfl, hpos, base, hbase, rfl⟩ := declared_cases h
  · exact ⟨fun hk => (by rw [hkind] at hk; cases hk), by rw [hkind]; decide⟩
  · exact ⟨fun _ => ⟨by rw [hcount]; exact hpos, base, hbase, hty⟩, by rw [hkind]; decide⟩

/-! ### Heads of functions -/

/-- `c'` is `c` with the namespace of `name` started over; it holds `count` parameters. -/
structure Opened (name : String) (c : Context) (count : Nat) (c' : Context) : Prop where
  globals : c'.symbols.globals = c.symbols.globals
  labels : c'.nextLabel = c.nextLabel
  others : ∀ g, g ≠ name → c'.symbols.namespace? g = c.symbols.namespace? g
  own : ∃ symbols, c'.symbols.namespace? name = some symbols ∧ NamespaceOk symbols ∧ symbols.length = count ∧
    ∀ s ∈ symbols, s.scope = .parameter

theorem Opened.global? {name : String} {count : Nat} {c' : Context} (h : Opened name c count c') (f : String) :
    c'.symbols.global? f = c.symbols.global? f := by
  unfold SymbolTable.global?
  rw [h.globals]

theorem Opened.sound {name : String} {count : Nat} {c' : Context} (h : Opened name c count c') (hc : c.Sound) :
    c'.Sound := by
  refine ⟨fun f s hs => ?_, fun f g s s' l hs hs' => ?_, fun f symbols hf => ?_⟩
  · rw [h.global?] at hs
    rw [h.labels]
    exact hc.globals f s hs
  · rw [h.global?] at hs hs'
    exact hc.labels f g s s' l hs hs'
  · by_cases hne : f = name
    · subst hne
      obtain ⟨symbols', hown, hok, -, -⟩ := h.own
      rw [hown] at hf
      cases hf
      exact hok
    · rw [h.others f hne] at hf
      exact hc.namespaces f symbols hf

theorem Opened.params {name : String} {count : Nat} {c' : Context} (h : Opened name c count c') :
    (c'.symbols.params name).length = count := by
  obtain ⟨symbols, hown, -, hlength, hscope⟩ := h.own
  unfold SymbolTable.params SymbolTable.members
  rw [hown, Option.getD_some, List.filter_eq_self.2 (fun s hs => by simp [hscope s hs]), hlength]

/-- Parameters are declared one by one; a name that comes twice stops it halfway. -/
theorem params_opened {name : String} (params : List Param) (hlimit : params.length ≤ Typing.maxParams)
    (htypes : ∀ p ∈ params, p.ty ≠ .void) :
    Ends (params.forM fun param => CompileM.declare param.line (·.declareParameter name param.name param.ty))
      { c with symbols := c.symbols.openNamespace name } (fun _ c' => Opened name c params.length c')
      (fun _ c' => ∃ count, Opened name c count c') := by
  -- What is declared so far and what is left add up to all parameters.
  let I : List Param → Context → Prop := fun rest c' =>
    ∃ count, Opened name c count c' ∧ count + rest.length = params.length ∧ ∀ p ∈ rest, p.ty ≠ .void
  have hstart : I params { c with symbols := c.symbols.openNamespace name } := by
    refine ⟨0, ⟨rfl, rfl, fun g hg => ?_, [], ?_, namespaceOk_nil, rfl, by simp⟩, by simp, htypes⟩
    · simp [SymbolTable.openNamespace, hg]
    · simp [SymbolTable.openNamespace]
  refine ends_mono (ends_forM (I := I) (fun p rest c' hI => ?_) params _ hstart) (fun _ c' hI => ?_) fun _ _ h => h
  · obtain ⟨count, hopened, hsum, hall⟩ := hI
    refine ends_declare (fun t ht => ?_) fun _ => ⟨count, hopened⟩
    obtain ⟨symbols, hn, hnew, rfl⟩ := SymbolTable.addMember_cases ht
    obtain ⟨symbols', hown, hok, hlength, hscope⟩ := hopened.own
    rw [hn] at hown
    cases hown
    rw [List.length_cons] at hsum
    refine ⟨count + 1, ⟨hopened.globals, hopened.labels, fun g hg => ?_, ?_⟩, by omega,
      fun q hq => hall q (List.mem_cons_of_mem _ hq)⟩
    · simp [hg, hopened.others g hg]
    · refine ⟨symbols ++ [{ name := p.name, scope := .parameter, kind := .variable, ty := p.ty }], by simp,
        hok.append ⟨by simp, by simp, hall p List.mem_cons_self, fun h => (by cases h), fun _ => rfl⟩ hnew (fun _ => by omega),
        by simp [hlength], fun s hs => ?_⟩
      rcases List.mem_append.1 hs with hs | hs
      · exact hscope s hs
      · rw [List.mem_singleton.1 hs]
  · obtain ⟨count, hopened, hsum, -⟩ := hI
    rw [List.length_nil, Nat.add_zero] at hsum
    exact hsum ▸ hopened

/-- A later declaration that agrees with the earlier one. -/
theorem agreement_cases {t : SymbolTable} {earlier : Symbol} {ret : Ty} {count : Nat} {hasBody : Bool} {u : Unit}
    (h : Typing.agreement t earlier ret count hasBody = .ok u) :
    earlier.kind = .function ∧ (t.params earlier.name).length = count ∧ ¬ (earlier.defined = true ∧ hasBody = true) := by
  unfold Typing.agreement at h
  simp only [ne_eq, ite_not] at h
  split at h
  · next hkind =>
    split at h
    · next hcount =>
      split at h
      · split at h
        · cases h
        · next hdefined => exact ⟨hkind, hcount, by simpa using hdefined⟩
      · cases h
    · cases h
  · cases h

/-- What entering the head of a function leaves, and whether the function is new. -/
structure Entered (head : Head) (hasBody : Bool) (c : Context) (isNew : Bool) (c' : Context) : Prop where
  sound : c'.Sound
  later : c.symbols.Later c'.symbols
  labels : c.nextLabel ≤ c'.nextLabel
  function : c'.symbols.IsFunction head.name
  undefined : (isNew || hasBody) = true → ¬ c.symbols.IsDefined head.name
  arity : c.symbols.IsFunction head.name → (c.symbols.params head.name).length = head.params.length

theorem enter_entered {head : Head} {hasBody : Bool} (hc : c.Sound) :
    Ends (head.enter hasBody) c (Entered head hasBody c) (fun _ c' => c'.Sound ∧ c.nextLabel ≤ c'.nextLabel) := by
  unfold Head.enter
  refine ends_get_bind ?_
  cases hg : c.symbols.global? head.name with
  | some earlier =>
    simp only [hg]
    cases hagree : Typing.agreement c.symbols earlier head.ret head.params.length hasBody with
    | error cause => exact ⟨hc, Nat.le_refl _⟩
    | ok _ =>
      obtain ⟨hkind, hcount, hdefined⟩ := agreement_cases hagree
      rw [SymbolTable.name_of_global? hg] at hcount
      refine ⟨hc, .refl _, Nat.le_refl _, ⟨earlier, hg, hkind⟩, fun hbody ⟨s, hs, hd⟩ => ?_, fun _ => hcount⟩
      rw [hg] at hs
      cases hs
      exact hdefined ⟨hd, by simpa using hbody⟩
  | none =>
    simp only [hg]
    have hlabel := hc.withLabel (Nat.le_succ c.nextLabel)
    refine ends_bind (P := fun label c' => label = c.nextLabel ∧ c' = { c with nextLabel := c.nextLabel + 1 })
      ⟨rfl, rfl⟩ ?_
    rintro _ _ ⟨rfl, rfl⟩
    refine ends_bind (P := fun _ c' => c'.Sound ∧ c.symbols.Later c'.symbols ∧ c.nextLabel ≤ c'.nextLabel ∧
      c'.symbols.IsFunction head.name) (ends_declare (fun t ht => ?_) fun _ => ⟨hlabel, Nat.le_succ _⟩) ?_
    · refine ⟨hlabel.declareGlobal ht ⟨rfl, rfl, fun h => absurd rfl h, fun h => (by cases h), fun _ => ⟨_, rfl⟩,
        fun h => absurd rfl h, fun l hl => (by cases hl; exact Nat.lt_succ_self _), fun h => (by cases h)⟩ ?_,
        SymbolTable.later_declareGlobal ht, Nat.le_succ _, _, SymbolTable.global?_declareGlobal ht, rfl⟩
      intro f s l hs hl heq
      cases heq
      exact absurd ((hc.globals f s hs).drawn _ hl) (Nat.lt_irrefl _)
    · rintro _ c' ⟨hsound, hlater, hlabels, hfunction⟩
      have hnone : ¬ ∃ s, c.symbols.global? head.name = some s := by simp [hg]
      exact ⟨hsound, hlater, hlabels, hfunction, fun _ ⟨s, hs, _⟩ => hnone ⟨s, hs⟩, fun ⟨s, hs, _⟩ => (hnone ⟨s, hs⟩).elim⟩

/-- What the declaration of a function leaves. -/
structure Declared (head : Head) (hasBody : Bool) (c c' : Context) : Prop where
  sound : c'.Sound
  later : c.symbols.Later c'.symbols
  labels : c.nextLabel ≤ c'.nextLabel
  function : c'.symbols.IsFunction head.name
  undefined : hasBody = true → ¬ c.symbols.IsDefined head.name
  defined : hasBody = true → c'.symbols.IsDefined head.name

/-- A head is declared in three steps: it is entered, the namespace is started over if there is reason to, and a body is
marked. -/
theorem ends_declareHead {head : Head} {hasBody : Bool} {P : Bool → Context → Prop} {R : Context → Prop}
    {Q : Unit → Context → Prop} (henter : Ends (head.enter hasBody) c P E)
    (hopen : ∀ isNew c₁, P isNew c₁ → (isNew || hasBody) = true →
      Ends (head.params.forM fun param => CompileM.declare param.line (·.declareParameter head.name param.name param.ty))
        { c₁ with symbols := c₁.symbols.openNamespace head.name } (fun _ c₂ => R c₂) E)
    (hkeep : ∀ isNew c₁, P isNew c₁ → (isNew || hasBody) = false → R c₁)
    (hmark : ∀ c₂, R c₂ → Q () (if hasBody then { c₂ with symbols := c₂.symbols.define head.name } else c₂)) :
    Ends (head.declare hasBody) c Q E := by
  unfold Head.declare
  refine ends_bind henter fun isNew c₁ h₁ => ?_
  let mark : CompileM Unit :=
    if hasBody then modify fun context => { context with symbols := context.symbols.define head.name } else pure ()
  have hend : ∀ c₂, R c₂ → Ends mark c₂ Q E := by
    intro c₂ h₂
    have h := hmark c₂ h₂
    cases hasBody <;> exact h
  cases hnew : (isNew || hasBody) with
  | true =>
    simp only [↓reduceIte]
    refine ends_bind (P := fun _ c₂ => c₂ = { c₁ with symbols := c₁.symbols.openNamespace head.name })
      (ends_modify rfl) ?_
    rintro _ _ rfl
    exact ends_bind (hopen isNew c₁ h₁ hnew) fun _ => hend
  | false => exact hend c₁ (hkeep isNew c₁ h₁ hnew)

/-- **Heads of functions.** The namespace is started over only for a function without a body, and with as many
parameters as it had. -/
theorem declare_declared {head : Head} {hasBody : Bool} (hc : c.Sound) (hlimit : head.params.length ≤ Typing.maxParams)
    (htypes : ∀ p ∈ head.params, p.ty ≠ .void) :
    Ends (head.declare hasBody) c (fun _ c' => Declared head hasBody c c')
      (fun _ c' => c'.Sound ∧ c.nextLabel ≤ c'.nextLabel) := by
  refine ends_declareHead (R := fun c₂ => ∃ isNew, Entered head hasBody c isNew c₂) (enter_entered hc) ?_
    (fun isNew c₁ h₁ _ => ⟨isNew, h₁⟩) ?_
  · intro isNew c₁ h₁ hopen
    refine ends_mono (params_opened head.params hlimit htypes) (fun _ c' h => ⟨isNew, ?_⟩) (fun _ c' h => ?_)
    · have hlater : c.symbols.Later c'.symbols := h₁.later.reopened h.globals h.others (h₁.undefined hopen) fun hf => by
        rw [h.params, h₁.arity hf]
      refine ⟨h.sound h₁.sound, hlater, h.labels ▸ h₁.labels, ?_, h₁.undefined, h₁.arity⟩
      obtain ⟨s, hs, hk⟩ := h₁.function
      exact ⟨s, (h.global? _).trans hs, hk⟩
    · obtain ⟨count, h⟩ := h
      exact ⟨h.sound h₁.sound, h.labels ▸ h₁.labels⟩
  · rintro c₂ ⟨isNew, h₂⟩
    cases hasBody with
    | false => exact ⟨h₂.sound, h₂.later, h₂.labels, h₂.function, fun h => (by cases h), fun h => by cases h⟩
    | true =>
      have hlater := SymbolTable.later_define c₂.symbols head.name
      exact ⟨h₂.sound.define h₂.function, h₂.later.trans hlater, h₂.labels, hlater.isFunction h₂.function,
        fun _ => h₂.undefined (Bool.or_true _), fun _ => SymbolTable.isDefined_define h₂.function⟩

end Declare

namespace Parse

variable {f : String} {s s₁ s₂ : State}

/-- What a step that may declare names leaves. -/
structure Grown (s s' : State) : Prop where
  sound : s'.context.Sound
  later : s.context.symbols.Later s'.context.symbols
  labels : s.context.nextLabel ≤ s'.context.nextLabel

/-- What a failed step leaves. -/
structure Failed (s : State) (fault : Fault) (s' : State) : Prop where
  sound : s'.context.Sound
  labels : s.context.nextLabel ≤ s'.context.nextLabel

theorem Grown.refl (hs : s.context.Sound) : Grown s s := ⟨hs, .refl _, Nat.le_refl _⟩

theorem Grown.trans (h : Grown s s₁) (h' : Grown s₁ s₂) : Grown s s₂ :=
  ⟨h'.sound, h.later.trans h'.later, Nat.le_trans h.labels h'.labels⟩

theorem Kept.grown (h : Kept s s₁) (hs : s.context.Sound) : Grown s s₁ :=
  ⟨h.sound hs, by rw [h.symbols]; exact .refl _, h.labels⟩

theorem Kept.failed (h : Kept s s₁) (hs : s.context.Sound) {fault : Fault} : Failed s fault s₁ := ⟨h.sound hs, h.labels⟩

theorem Grown.failed (h : Grown s s₁) {fault : Fault} : Failed s fault s₁ := ⟨h.sound, h.labels⟩

theorem Failed.from (h : Grown s s₁) {fault : Fault} (h' : Failed s₁ fault s₂) : Failed s fault s₂ :=
  ⟨h'.sound, Nat.le_trans h.labels h'.labels⟩

theorem ends_expect_grown {terminal : Terminal} (h : Grown s s₁) :
    (s₁.expect terminal).Ends (fun _ s' => Grown s s' ∧ Kept s₁ s') (Failed s) :=
  ends_expect (fun _ hnext => ⟨h.trans ((Kept.of_context hnext).grown h.sound), .of_context hnext⟩) fun _ => h.failed

/-! ## Types and declarations -/

theorem type_read (s : State) : (type s).Ends (fun _ s' => Kept s s') (FailedExpr s) := by
  unfold type
  refine Result.ends_bind (P := fun _ s' => Kept s s') (ends_need (fun _ _ _ _ _ h => .of_context h) fun _ => .refl s) ?_
  intro base s₁ _ h₁
  cases hstar : s₁.accept? (.punct "*") with
  | some t => exact Taken.ends_andThen (h₁.trans (.of_accept hstar))
  | none => exact h₁

theorem arraySize_read (s : State) : (arraySize s).Ends (fun _ s' => Kept s s') (FailedExpr s) := by
  unfold arraySize
  cases hbracket : s.accept? (.punct "[") with
  | none => exact .refl s
  | some t =>
    have hkept := Kept.of_accept hbracket
    refine Taken.ends_andThen (Result.ends_andThen (P := fun _ s' => Kept s s')
      (Result.ends_mono (number_read t.next) (fun _ _ h => hkept.trans h) fun _ _ h => hkept.trans h) ?_)
    intro count s₂ _ h₂
    exact Result.ends_andThen (ends_expect_kept h₂) fun _ s₃ _ h₃ => h₃

/-- What a declaration leaves: a local of `owner`, or a global. -/
def DeclaredBy (t : SymbolTable) : Option String → Stmt → Prop
  | some f, stmt => TypedStmt t f stmt
  | none, stmt => ∃ name s, stmt = .globalDecl name ∧ t.global? name = some s ∧ s.kind ≠ .function

theorem declareLocal_grown {name : String} {kind : SymbolKind} {ty : Ty} {count : Int} {line : Nat}
    (hs : s.context.Sound)
    (hok : Symbol.MemberOk { name, scope := .local, kind, ty, count }) :
    (s.perform (CompileM.declare line (·.declareLocal f name kind ty count))).Ends
      (fun _ s' => Grown s s' ∧ ∃ symbol, s'.context.symbols.local? f name = some symbol) (Failed s) := by
  refine Result.ends_mono (ends_perform (P := fun _ c => c.Sound ∧ s.context.symbols.Later c.symbols ∧
    s.context.nextLabel ≤ c.nextLabel ∧ ∃ symbol, c.symbols.local? f name = some symbol)
    (D := fun _ c => c = s.context) (ends_declare ?_ fun _ => rfl)) ?_ ?_
  · intro t ht
    obtain ⟨symbols, hn, hnew, rfl⟩ := SymbolTable.addMember_cases ht
    refine ⟨hs.setNamespace ((hs.namespaces f symbols hn).append hok hnew (fun h => by cases h)),
      SymbolTable.later_declareLocal ht, Nat.le_refl _, { name, scope := .local, kind, ty, count }, ?_⟩
    have hnone : symbols.find? (·.name == name) = none := by
      rw [List.find?_eq_none]
      exact fun symbol hmem => by simpa using List.any_eq_false.1 hnew symbol hmem
    simp [SymbolTable.local?, SymbolTable.members, hnone]
  · rintro _ s' ⟨hsound, hlater, hlabels, hfound⟩
    exact ⟨⟨hsound, hlater, hlabels⟩, hfound⟩
  · rintro _ s' hcontext
    exact (Kept.of_context hcontext).failed hs

theorem declareGlobal_grown {name : String} {kind : SymbolKind} {ty : Ty} {count : Int} {line : Nat}
    (hs : s.context.Sound) (hkind : kind ≠ .function)
    (hok : Symbol.GlobalOk s.context.nextLabel { name, scope := .global, kind, ty, label := none, count }) :
    (s.perform (CompileM.declare line (·.declareGlobal name kind ty none count))).Ends
      (fun _ s' => Grown s s' ∧ ∃ symbol, s'.context.symbols.global? name = some symbol ∧ symbol.kind ≠ .function)
      (Failed s) := by
  refine Result.ends_mono (ends_perform (P := fun _ c => c.Sound ∧ s.context.symbols.Later c.symbols ∧
    s.context.nextLabel ≤ c.nextLabel ∧ ∃ symbol, c.symbols.global? name = some symbol ∧ symbol.kind ≠ .function)
    (D := fun _ c => c = s.context) (ends_declare ?_ fun _ => rfl)) ?_ ?_
  · intro t ht
    exact ⟨hs.declareGlobal ht hok (fun _ _ _ _ _ h => by cases h), SymbolTable.later_declareGlobal ht, Nat.le_refl _, _,
      SymbolTable.global?_declareGlobal ht, hkind⟩
  · rintro _ s' ⟨hsound, hlater, hlabels, hfound⟩
    exact ⟨⟨hsound, hlater, hlabels⟩, hfound⟩
  · rintro _ s' hcontext
    exact (Kept.of_context hcontext).failed hs

theorem declaration_typed (owner : Option String) (hs : s.context.Sound) :
    (declaration owner s).Ends (fun stmt s' => Grown s s' ∧ DeclaredBy s'.context.symbols owner stmt) (Failed s) := by
  have hfailed : ∀ fault s', FailedExpr s fault s' → Failed s fault s' := fun _ _ h => h.failed hs
  unfold declaration
  refine Result.ends_bind (Result.ends_mono (type_read s) (fun _ _ h => h) hfailed) fun ty s₁ _ h₁ => ?_
  refine Result.ends_andThen (P := fun _ s' => Kept s s')
    (Result.ends_mono (identifier_read s₁) (fun _ _ h => h₁.trans h) fun _ _ h => hfailed _ _ (h₁.trans h)) ?_
  rintro ⟨name, line⟩ s₂ _ h₂
  refine Result.ends_bind (P := fun _ s' => Kept s s')
    (Result.ends_mono (arraySize_read s₂) (fun _ _ h => h₂.trans h) fun _ _ h => hfailed _ _ (h₂.trans h)) ?_
  intro size s₃ _ h₃
  refine ends_demand ?_ fun _ => hfailed _ _ h₃
  rintro ⟨kind, ty', count⟩ hdeclared
  refine Result.ends_andThen (P := fun _ s' => Kept s s')
    (Result.ends_mono (ends_expect_kept h₃) (fun _ _ h => h) hfailed) fun _ s₄ _ h₄ => ?_
  refine ends_demand (fun _ hvariable => ?_) fun _ => hfailed _ _ h₄
  have hnonvoid : ty' ≠ .void := by
    intro hv
    rw [hv] at hvariable
    cases hvariable
  have hgrown := h₄.grown hs
  cases owner with
  | some g =>
    obtain ⟨harray, hkind⟩ := arrayOk_of_declared hdeclared { name, scope := .local, kind, ty := ty', count } rfl rfl rfl
    refine Result.ends_bind (Result.ends_mono (declareLocal_grown hgrown.sound
      ⟨by simp, hkind, hnonvoid, harray, fun h => by cases h⟩) (fun _ _ h => h) fun _ _ h => Failed.from hgrown h) ?_
    rintro _ s₅ _ ⟨h₅, symbol, hfound⟩
    exact ⟨hgrown.trans h₅, .varDecl hfound⟩
  | none =>
    obtain ⟨harray, hkind⟩ := arrayOk_of_declared hdeclared { name, scope := .global, kind, ty := ty', count } rfl rfl rfl
    have hok : Symbol.GlobalOk s₄.context.nextLabel { name, scope := .global, kind, ty := ty', label := none, count } :=
      ⟨rfl, rfl, fun _ => hnonvoid, harray, fun h => absurd h hkind, fun _ => rfl, fun _ h => (by cases h),
        fun h => by cases h⟩
    refine Result.ends_bind (Result.ends_mono (declareGlobal_grown hgrown.sound hkind hok) (fun _ _ h => h)
      fun _ _ h => Failed.from hgrown h) ?_
    rintro _ s₅ _ ⟨h₅, symbol, hfound, hvalue⟩
    exact ⟨hgrown.trans h₅, name, symbol, rfl, hfound, hvalue⟩

/-! ## Parts of statements that declare nothing -/

theorem returned_typed (hs : s.context.Sound) :
    (returned f s).Ends (fun stmt s' => Kept s s' ∧ TypedStmt s.context.symbols f stmt) (FailedExpr s) := by
  unfold returned
  refine ends_demand (fun ty hty => ?_) fun _ => .refl s
  cases hsemi : s.accept? (.punct ";") with
  | some t =>
    have hkept := Kept.of_accept hsemi
    exact Taken.ends_bind (ends_demand (fun stmt hstmt => ⟨hkept, typed_returnNothing hty hstmt⟩) fun _ => hkept)
  | none =>
    refine Result.ends_bind (expression_typed hs) fun value s₁ _ hvalue => ?_
    refine Result.ends_andThen (ends_expect_kept hvalue.kept) fun _ s₂ _ h₂ => ?_
    exact ends_demand (fun stmt hstmt => ⟨h₂, typed_returnValue hty hvalue.typed hstmt⟩) fun _ => h₂

/-- A clause that may be empty, when what it holds otherwise is `P`. -/
theorem clause_read {close : Terminal} {parse : (s : State) → Result s.size Expr} {P : Expr → Prop} (h₁ : Kept s s₁)
    (h : (parse s₁).Ends (fun e s' => Kept s s' ∧ P e) (FailedExpr s)) :
    (clause close parse s₁).Ends (fun e? s' => Kept s s' ∧ ∀ e, e? = some e → P e) (FailedExpr s) := by
  unfold clause
  cases hclose : s₁.accept? close with
  | some t => exact Taken.ends_bind ⟨h₁.trans (.of_accept hclose), fun e he => by cases he⟩
  | none =>
    refine Result.ends_bind h fun e s₂ _ he => ?_
    refine Result.ends_andThen (ends_expect_kept he.1) fun _ s₃ _ h₃ => ⟨h₃, fun e' he' => ?_⟩
    cases he'
    exact he.2

/-- A condition, read after something that declared nothing. -/
theorem condition_from (hs : s.context.Sound) (h₁ : Kept s s₁) : (condition f s₁).Ends
    (fun e s' => Kept s s' ∧ Typed s.context.symbols f e ∧ e.ty ≠ .void) (FailedExpr s) :=
  Result.ends_mono (condition_typed (h₁.sound hs))
    (fun _ _ he => ⟨h₁.trans he.1.kept, h₁.symbols ▸ he.1.typed, he.2⟩) fun _ _ h => h₁.trans h

theorem parenthesised_typed (hs : s.context.Sound) :
    (parenthesised f s).Ends (fun e s' => Kept s s' ∧ Typed s.context.symbols f e ∧ e.ty ≠ .void) (FailedExpr s) := by
  unfold parenthesised
  refine Result.ends_bind (ends_expect_kept (.refl s)) fun _ s₁ _ h₁ => ?_
  refine Result.ends_andThen (condition_from hs h₁) fun e s₂ _ he => ?_
  exact Result.ends_andThen (ends_expect_kept he.1) fun _ s₃ _ h₃ => ⟨h₃, he.2⟩

/-- The three clauses of a loop fit the table. -/
structure ReadClauses (f : String) (s : State) (clauses : Option Expr × Option Expr × Option Expr) (s' : State) :
    Prop where
  kept : Kept s s'
  init : ∀ e, clauses.1 = some e → Typed s.context.symbols f e
  cond : ∀ e, clauses.2.1 = some e → Typed s.context.symbols f e ∧ e.ty ≠ .void
  post : ∀ e, clauses.2.2 = some e → Typed s.context.symbols f e

theorem clauses_typed (hs : s.context.Sound) : (clauses f s).Ends (ReadClauses f s) (FailedExpr s) := by
  have hexpr : ∀ {s₁}, Kept s s₁ →
      (expression f s₁).Ends (fun e s' => Kept s s' ∧ Typed s.context.symbols f e) (FailedExpr s) := fun h₁ =>
    Result.ends_mono (ends_from h₁ (expression_typed (h₁.sound hs))) (fun _ _ he => ⟨he.kept, he.typed⟩) fun _ _ h => h
  unfold clauses
  refine Result.ends_bind (ends_expect_kept (.refl s)) fun _ s₁ _ h₁ => ?_
  refine Result.ends_andThen (clause_read h₁ (hexpr h₁)) fun init s₂ _ h₂ => ?_
  refine Result.ends_andThen (clause_read h₂.1 (condition_from hs h₂.1)) fun cond s₃ _ h₃ => ?_
  refine Result.ends_andThen (clause_read h₃.1 (hexpr h₃.1)) fun post s₄ _ h₄ => ?_
  exact ⟨h₄.1, h₂.2, h₃.2, h₄.2⟩

/-! ## Statements -/

/-- What a statement in the body of `f` leaves. -/
structure ReadStmt (f : String) (s : State) (stmt : Stmt) (s' : State) : Prop where
  grown : Grown s s'
  typed : TypedStmt s'.context.symbols f stmt

structure ReadStmts (f : String) (s : State) (stmts : List Stmt) (s' : State) : Prop where
  grown : Grown s s'
  typed : ∀ stmt ∈ stmts, TypedStmt s'.context.symbols f stmt

section Constructs

variable {m : Nat} {α : Type}

/-- A statement read after the table has grown. -/
theorem ends_stmt_from {r : Result m Stmt} (h : Grown s s₁) (hr : r.Ends (ReadStmt f s₁) (Failed s₁)) :
    r.Ends (ReadStmt f s) (Failed s) :=
  Result.ends_mono hr (fun _ _ hstmt => ⟨h.trans hstmt.grown, hstmt.typed⟩) fun _ _ hfail => Failed.from h hfail

/-- A statement that is part of the one that started at `s`. -/
theorem ends_part {r : Result m Stmt} (h : Grown s s₁) (hr : r.Ends (ReadStmt f s₁) (Failed s₁)) : r.Ends
    (fun stmt s' => Grown s s' ∧ Grown s₁ s' ∧ TypedStmt s'.context.symbols f stmt) (Failed s) :=
  Result.ends_mono hr (fun _ _ hstmt => ⟨h.trans hstmt.grown, hstmt.grown, hstmt.typed⟩) fun _ _ hfail => Failed.from h hfail

/-- Where nothing was declared before a failure, the table has not shrunk either. -/
theorem ends_failed {r : Result m α} {P : α → State → Prop} (hs : s.context.Sound) (hr : r.Ends P (FailedExpr s)) :
    r.Ends P (Failed s) := Result.ends_mono hr (fun _ _ h => h) fun _ _ h => h.failed hs

theorem returnStatement_typed (hs : s.context.Sound) : (returned f s).relax.Ends (ReadStmt f s) (Failed s) :=
  Result.ends_relax (Result.ends_mono (ends_failed hs (returned_typed hs))
    (fun _ _ h => ⟨h.1.grown hs, h.1.symbols ▸ h.2⟩) fun _ _ h => h)

theorem declarationStatement_typed (isGlobal : Bool) (hs : s.context.Sound) :
    (declaration (if isGlobal then none else some f) s).relax.Ends (ReadStmt f s) (Failed s) := by
  refine Result.ends_relax (Result.ends_mono (declaration_typed _ hs) (fun stmt s' h => ⟨h.1, ?_⟩) fun _ _ h => h)
  cases isGlobal with
  | false => exact h.2
  | true =>
    obtain ⟨name, symbol, rfl, hfound, hvalue⟩ := h.2
    exact .globalDecl hfound hvalue

/-- What was read before the branches still fits when they have been read. -/
theorem ifElse_typed {line : Nat} (hs : s.context.Sound) (hf : s.context.symbols.IsDefined f)
    (hyes : ∀ s₂ : State, s₂.size < s.size → s₂.context.Sound → s₂.context.symbols.IsDefined f →
      (statement f s₂).Ends (ReadStmt f s₂) (Failed s₂))
    (hno : ∀ s₂ : State, s₂.size < s.size → ∀ s₃ : State, s₃.size < s₂.size → ∀ s₄ : State, s₄.size < s₃.size →
      s₄.context.Sound → s₄.context.symbols.IsDefined f → (statement f s₄).Ends (ReadStmt f s₄) (Failed s₄)) :
    ((parenthesised f s).andThen fun cond s₂ _ =>
      (statement f s₂).andThen fun yes s₃ _ =>
        match s₃.accept? (.keyword "else") with
        | some t =>
          t.andThen fun _ s₄ _ =>
          (statement f s₄).andThen fun no s₅ _ => .done (.expr (.ifElse (control line) cond yes (some no))) s₅
        | none => .done (.expr (.ifElse (control line) cond yes none)) s₃).Ends (ReadStmt f s) (Failed s) := by
  refine Result.ends_andThen (ends_failed hs (parenthesised_typed hs)) fun cond s₂ h₂ hcond => ?_
  have hgrown₂ := hcond.1.grown hs
  have hf₂ := hgrown₂.later.isDefined hf
  refine Result.ends_andThen (ends_part hgrown₂ (hyes s₂ h₂ hgrown₂.sound hf₂)) fun yes s₃ h₃ hyes => ?_
  have hcond₃ := (hcond.1.symbols ▸ hcond.2.1 : Typed s₂.context.symbols f cond).later hyes.2.1.later hf₂
  cases helse : s₃.accept? (.keyword "else") with
  | none => exact ⟨hyes.1, .ifElse hcond₃ hcond.2.2 hyes.2.2 fun _ h => by cases h⟩
  | some u =>
    have hkept₄ := Kept.of_accept helse
    have hgrown₄ := hyes.1.trans (hkept₄.grown hyes.1.sound)
    refine Taken.ends_andThen (Result.ends_andThen (ends_part hgrown₄
      (hno s₂ h₂ s₃ h₃ u.next u.shorter hgrown₄.sound (hgrown₄.later.isDefined hf))) fun no s₅ _ hno => ⟨hno.1, ?_⟩)
    have hlater₅ := ((hkept₄.grown hyes.1.sound).trans hno.2.1).later
    have hf₃ := hyes.1.later.isDefined hf
    refine .ifElse (hcond₃.later hlater₅ hf₃) hcond.2.2 (hyes.2.2.later hlater₅ hf₃) fun stmt hstmt => ?_
    cases hstmt
    exact hno.2.2

theorem whileLoop_typed {line : Nat} (hs : s.context.Sound) (hf : s.context.symbols.IsDefined f)
    (hbody : ∀ s₂ : State, s₂.size < s.size → s₂.context.Sound → s₂.context.symbols.IsDefined f →
      (statement f s₂).Ends (ReadStmt f s₂) (Failed s₂)) :
    ((parenthesised f s).andThen fun cond s₂ _ => (statement f s₂).andThen fun body s₃ _ =>
      .done (.expr (.whileLoop (control line) cond body)) s₃).Ends (ReadStmt f s) (Failed s) := by
  refine Result.ends_andThen (ends_failed hs (parenthesised_typed hs)) fun cond s₂ h₂ hcond => ?_
  have hgrown₂ := hcond.1.grown hs
  have hf₂ := hgrown₂.later.isDefined hf
  refine Result.ends_andThen (ends_part hgrown₂ (hbody s₂ h₂ hgrown₂.sound hf₂)) fun body s₃ _ hbody => ⟨hbody.1, ?_⟩
  have hcond₃ := (hcond.1.symbols ▸ hcond.2.1 : Typed s₂.context.symbols f cond).later hbody.2.1.later hf₂
  exact .whileLoop hcond₃ hcond.2.2 hbody.2.2

theorem forLoop_typed {line : Nat} (hs : s.context.Sound) (hf : s.context.symbols.IsDefined f)
    (hbody : ∀ s₂ : State, s₂.size < s.size → s₂.context.Sound → s₂.context.symbols.IsDefined f →
      (statement f s₂).Ends (ReadStmt f s₂) (Failed s₂)) :
    ((clauses f s).andThen fun (init, cond, post) s₂ _ => (statement f s₂).andThen fun body s₃ _ =>
      .done (.expr (.forLoop (control line) init cond post body)) s₃).Ends (ReadStmt f s) (Failed s) := by
  refine Result.ends_andThen (ends_failed hs (clauses_typed hs)) fun clauses s₂ h₂ hclauses => ?_
  obtain ⟨init, cond, post⟩ := clauses
  have hgrown₂ := hclauses.kept.grown hs
  have hf₂ := hgrown₂.later.isDefined hf
  refine Result.ends_andThen (ends_part hgrown₂ (hbody s₂ h₂ hgrown₂.sound hf₂)) fun body s₃ _ hbody => ⟨hbody.1, ?_⟩
  have hlater : ∀ {e : Expr}, Typed s.context.symbols f e → Typed s₃.context.symbols f e := fun he =>
    (hclauses.kept.symbols ▸ he : Typed s₂.context.symbols f _).later hbody.2.1.later hf₂
  exact .forLoop (fun e he => hlater (hclauses.init e he)) (fun e he => hlater (hclauses.cond e he).1)
    (fun e he => (hclauses.cond e he).2) (fun e he => hlater (hclauses.post e he)) hbody.2.2

theorem blockStatement_typed (h : (statements f s).Ends (ReadStmts f s) (Failed s)) :
    ((statements f s).andThen fun stmts s₂ _ => .done (.block stmts) s₂).Ends (ReadStmt f s) (Failed s) :=
  Result.ends_andThen h fun _ _ _ hstmts => ⟨hstmts.grown, .block hstmts.typed⟩

theorem expressionStatement_typed (hs : s.context.Sound) :
    ((expression f s).bind fun e s₁ _ => (s₁.expect (.punct ";")).andThen fun _ s₂ _ => .done (.expr e) s₂).Ends
      (ReadStmt f s) (Failed s) := by
  refine Result.ends_bind (ends_failed hs (expression_typed hs)) fun e s₁ _ he => ?_
  refine Result.ends_andThen (ends_expect_grown (he.kept.grown hs)) fun _ s₂ _ h₂ => ⟨h₂.1, .expr ?_⟩
  rw [(he.kept.trans h₂.2).symbols]
  exact he.typed

end Constructs

/-- **Statements.** Statements and lists of statements in the body of a defined function fit the table after them. -/
theorem statements_typed (f : String) :
    (∀ s, s.context.Sound → s.context.symbols.IsDefined f → (statement f s).Ends (ReadStmt f s) (Failed s)) ∧
    (∀ s, s.context.Sound → s.context.symbols.IsDefined f → (statements f s).Ends (ReadStmts f s) (Failed s)) := by
  refine statement.mutual_induct _ _ ?lead ?noLead ?close ?atEnd ?more
  case lead =>
    intro s t ht ihFirst ihSecond ihBlock hs hf
    rw [statement, ht]
    have h₁ := (Kept.of_take ht).grown hs
    have hf₁ := h₁.later.isDefined hf
    refine Taken.ends_bind ?_
    split
    · exact (Kept.refl s).failed hs
    · exact ends_stmt_from h₁ (returnStatement_typed h₁.sound)
    · exact ends_stmt_from h₁ (declarationStatement_typed _ h₁.sound)
    · exact ends_stmt_from h₁ (ifElse_typed h₁.sound hf₁ (ihFirst t.next t.shorter) (ihSecond t.next t.shorter))
    · exact ends_stmt_from h₁ (whileLoop_typed h₁.sound hf₁ (ihFirst t.next t.shorter))
    · exact ends_stmt_from h₁ (forLoop_typed h₁.sound hf₁ (ihFirst t.next t.shorter))
    · exact ends_stmt_from h₁ (blockStatement_typed (ihBlock t.next t.shorter h₁.sound hf₁))
  case noLead =>
    intro s ht hs hf
    rw [statement, ht]
    exact expressionStatement_typed hs
  case close =>
    intro s t ht hs hf
    rw [statements, ht]
    exact Taken.ends_bind ⟨(Kept.of_accept ht).grown hs, by simp⟩
  case atEnd =>
    intro s ht hend hs hf
    rw [statements, ht, if_pos hend]
    exact (Kept.refl s).failed hs
  case more =>
    intro s ht hend ihStmt ihRest hs hf
    rw [statements, ht, if_neg hend]
    refine Result.ends_bind (ihStmt hs hf) fun stmt s₁ h₁ hstmt => ?_
    have hf₁ := hstmt.grown.later.isDefined hf
    refine Result.ends_andThen (Result.ends_mono (ihRest s₁ h₁ hstmt.grown.sound hf₁) (fun _ _ h => h)
      fun _ _ h => Failed.from hstmt.grown h) fun stmts s₂ _ hstmts => ⟨hstmt.grown.trans hstmts.grown, ?_⟩
    intro x hx
    rcases List.mem_cons.1 hx with rfl | hx
    · exact hstmt.typed.later hstmts.grown.later hf₁
    · exact hstmts.typed x hx

theorem block_typed (hs : s.context.Sound) (hf : s.context.symbols.IsDefined f) :
    (block f s).Ends (ReadStmt f s) (Failed s) := by
  unfold block
  refine Result.ends_bind (ends_expect_grown (.refl hs)) fun _ s₁ _ h₁ => ?_
  have hf₁ := h₁.1.later.isDefined hf
  refine Result.ends_andThen (Result.ends_mono ((statements_typed f).2 s₁ h₁.1.sound hf₁) (fun _ _ h => h)
    fun _ _ h => Failed.from h₁.1 h) fun stmts s₂ _ hstmts => ⟨h₁.1.trans hstmts.grown, .block hstmts.typed⟩

/-! ## Functions -/

/-- The parameters that a head can have. -/
structure ReadParams (s : State) (params : List Param) (s' : State) : Prop where
  kept : Kept s s'
  typed : ∀ p ∈ params, p.ty ≠ .void

theorem moreParams_read (s : State) : (moreParams s).Ends (ReadParams s) (FailedExpr s) := by
  induction s using moreParams.induct with
  | case1 s ih =>
    rw [moreParams]
    refine Result.ends_bind (type_read s) fun ty s₁ h₁ hkept₁ => ?_
    refine Result.ends_andThen (P := fun _ s' => Kept s s') (Result.ends_mono (identifier_read s₁)
      (fun _ _ h => hkept₁.trans h) fun _ _ h => hkept₁.trans h) fun (name, line) s₂ h₂ hkept₂ => ?_
    refine ends_demand (fun _ hparameter => ?_) fun _ => hkept₂
    have hnonvoid : ty ≠ .void := by
      rintro rfl
      cases hparameter
    cases hcomma : s₂.accept? (.punct ",") with
    | some t =>
      have hkept₃ := hkept₂.trans (.of_accept hcomma)
      refine Taken.ends_andThen (Result.ends_andThen (P := ReadParams s)
        (Result.ends_mono (ih s₁ h₁ s₂ h₂ t.next t.shorter) (fun _ _ h => ⟨hkept₃.trans h.kept, h.typed⟩)
          fun _ _ h => hkept₃.trans h) fun params s₄ _ h₄ => ⟨h₄.kept, ?_⟩)
      intro p hp
      rcases List.mem_cons.1 hp with rfl | hp
      · exact hnonvoid
      · exact h₄.typed p hp
    | none =>
      refine Result.ends_andThen (ends_expect_kept hkept₂) fun _ s₃ _ hkept₃ => ⟨hkept₃, ?_⟩
      intro p hp
      rw [List.mem_singleton.1 hp]
      exact hnonvoid

theorem params_read (s : State) : (params s).Ends (ReadParams s) (FailedExpr s) := by
  unfold params
  cases hclose : s.accept? (.punct ")") with
  | some t => exact Taken.ends_bind ⟨.of_accept hclose, by simp⟩
  | none => exact moreParams_read s

structure ReadHead (s : State) (head : Head) (s' : State) : Prop where
  kept : Kept s s'
  limit : head.params.length ≤ Typing.maxParams
  typed : ∀ p ∈ head.params, p.ty ≠ .void

theorem head_read (s : State) : (head s).Ends (ReadHead s) (FailedExpr s) := by
  unfold head
  refine Result.ends_bind (identifier_read s) fun (name, line) s₁ _ h₁ => ?_
  refine Result.ends_andThen (ends_expect_kept h₁) fun _ s₂ _ h₂ => ?_
  refine Result.ends_andThen (P := ReadParams s) (Result.ends_mono (params_read s₂)
    (fun _ _ h => ⟨h₂.trans h.kept, h.typed⟩) fun _ _ h => h₂.trans h) fun params s₃ _ h₃ => ?_
  refine ends_demand (fun _ hlimit => ?_) fun _ => h₃.kept
  have hlimit : params.length ≤ Typing.maxParams := by
    unfold Typing.parameterLimit at hlimit
    split at hlimit
    · cases hlimit
    · omega
  refine Result.ends_andThen (ends_expect_kept h₃.kept) fun _ s₄ _ h₄ => ?_
  refine Result.ends_andThen (P := fun _ s' => Kept s s') (Result.ends_mono (type_read s₄) (fun _ _ h => h₄.trans h)
    fun _ _ h => h₄.trans h) fun ret s₅ _ h₅ => ?_
  exact ⟨h₅, hlimit, h₃.typed⟩

theorem declare_grown {head : Head} {hasBody : Bool} (hs : s.context.Sound)
    (hlimit : head.params.length ≤ Typing.maxParams) (htypes : ∀ p ∈ head.params, p.ty ≠ .void) :
    (s.perform (head.declare hasBody)).Ends (fun _ s' => Grown s s' ∧ Declared head hasBody s.context s'.context)
      (Failed s) :=
  Result.ends_mono (ends_perform (declare_declared hs hlimit htypes))
    (fun _ _ h => ⟨⟨h.sound, h.later, h.labels⟩, h⟩) fun _ _ h => ⟨h.1, h.2⟩

/-! ## Items -/

/-- The name of the function that an item defines. -/
def defines? : Stmt → Option String
  | .function name _ => some name
  | _ => none

/-- What an item leaves. A function that it defines had no body before. -/
structure ReadItem (s : State) (item : Stmt) (s' : State) : Prop where
  grown : Grown s s'
  typed : TypedItem s'.context.symbols item
  undefined : ∀ f, defines? item = some f → ¬ s.context.symbols.IsDefined f

theorem function_typed (hs : s.context.Sound) : (function s).Ends (ReadItem s) (Failed s) := by
  unfold function
  refine Result.ends_bind (ends_failed hs (head_read s)) fun head s₁ _ h₁ => ?_
  have hgrown₁ := h₁.kept.grown hs
  cases hsemi : s₁.accept? (.punct ";") with
  | some t =>
    have hgrown₂ := hgrown₁.trans ((Kept.of_accept hsemi).grown hgrown₁.sound)
    refine Taken.ends_andThen (Result.ends_bind (Result.ends_mono (declare_grown hgrown₂.sound h₁.limit h₁.typed)
      (fun _ _ h => h) fun _ _ h => Failed.from hgrown₂ h) fun _ s₃ _ h₃ => ?_)
    exact ⟨hgrown₂.trans h₃.1, .prototype h₃.2.function, fun f hf => by cases hf⟩
  | none =>
    refine Result.ends_bind (Result.ends_mono (declare_grown hgrown₁.sound h₁.limit h₁.typed)
      (fun _ _ h => h) fun _ _ h => Failed.from hgrown₁ h) fun _ s₂ _ h₂ => ?_
    have hgrown₂ := hgrown₁.trans h₂.1
    refine Result.ends_andThen (Result.ends_mono (block_typed hgrown₂.sound (h₂.2.defined rfl))
      (fun _ _ h => h) fun _ _ h => Failed.from hgrown₂ h) fun body s₃ _ h₃ => ?_
    have hlater := h₃.grown.later
    refine ⟨hgrown₂.trans h₃.grown,
      .function (hlater.isDefined (h₂.2.defined rfl)) (hlater.isFunction h₂.2.function) h₃.typed, ?_⟩
    rintro f hf
    cases hf
    rw [← h₁.kept.symbols]
    exact h₂.2.undefined rfl

theorem item_typed (hs : s.context.Sound) : (item s).Ends (ReadItem s) (Failed s) := by
  -- What follows the first token, read as part of the item.
  have hrest : ∀ {m : Nat} {r : Result m Stmt} {s₁ : State}, Kept s s₁ → r.Ends (ReadItem s₁) (Failed s₁) →
      r.Ends (ReadItem s) (Failed s) := fun h hr => Result.ends_mono hr
    (fun _ _ hitem => ⟨(h.grown hs).trans hitem.grown, hitem.typed, h.symbols ▸ hitem.undefined⟩)
    fun _ _ hfail => Failed.from (h.grown hs) hfail
  unfold item
  cases hfunc : s.accept? (.keyword "func") with
  | some t =>
    have hkept := Kept.of_accept hfunc
    exact Taken.ends_bind (Result.ends_relax (hrest hkept (function_typed (hkept.sound hs))))
  | none =>
    cases hvar : (s.accept? (.keyword "global")).or (s.accept? (.keyword "var")) with
    | none => exact (Kept.refl s).failed hs
    | some t =>
      have hkept : Kept s t.next := by
        rcases Option.or_eq_some_iff.1 hvar with h | ⟨-, h⟩ <;> exact .of_accept h
      refine Taken.ends_bind (Result.ends_relax (hrest hkept (Result.ends_mono
        (declaration_typed none (hkept.sound hs)) (fun stmt s' h => ?_) fun _ _ h => h)))
      obtain ⟨name, symbol, rfl, hfound, hvalue⟩ := h.2
      exact ⟨h.1, .globalDecl hfound hvalue, fun f hf => by cases hf⟩

/-- What the items of a program leave. -/
structure ReadItems (s : State) (items : List Stmt) (s' : State) : Prop where
  grown : Grown s s'
  typed : ∀ item ∈ items, TypedItem s'.context.symbols item
  undefined : ∀ f ∈ items.filterMap defines?, ¬ s.context.symbols.IsDefined f
  once : (items.filterMap defines?).Nodup

/-- **Items.** The items of a program fit the table at its end, and no function is defined twice. -/
theorem items_typed (s : State) (hs : s.context.Sound) : (items s).Ends (ReadItems s) (Failed s) := by
  induction s using items.induct with
  | case1 s hend =>
    rw [items, if_pos hend]
    exact ⟨.refl hs, by simp, by simp, by simp⟩
  | case2 s hend ih =>
    rw [items, if_neg hend]
    refine Result.ends_andThen (item_typed hs) fun item s₁ h₁ hitem => ?_
    refine Result.ends_bind (Result.ends_mono (ih s₁ h₁ hitem.grown.sound) (fun _ _ h => h)
      fun _ _ h => Failed.from hitem.grown h) fun items s₂ _ hitems => ?_
    refine ⟨hitem.grown.trans hitems.grown, ?_, ?_, ?_⟩
    · intro x hx
      rcases List.mem_cons.1 hx with rfl | hx
      · exact hitem.typed.later hitems.grown.later
      · exact hitems.typed x hx
    · intro f hf
      rw [List.filterMap_cons] at hf
      cases hdef : defines? item with
      | none =>
        rw [hdef] at hf
        exact fun hd => hitems.undefined f hf (hitem.grown.later.isDefined hd)
      | some g =>
        rw [hdef] at hf
        rcases List.mem_cons.1 hf with rfl | hf
        · exact hitem.undefined f hdef
        · exact fun hd => hitems.undefined f hf (hitem.grown.later.isDefined hd)
    · rw [List.filterMap_cons]
      cases hdef : defines? item with
      | none => exact hitems.once
      | some g =>
        refine List.nodup_cons.2 ⟨fun hg => ?_, hitems.once⟩
        refine hitems.undefined g hg ?_
        cases item <;> cases hdef
        cases hitem.typed with
        | function defined => exact defined

end Parse

/-! ## Sources -/

/-- What a program leaves in a context. -/
structure ReadProgram (c : Context) (program : Program) (c' : Context) : Prop where
  sound : c'.Sound
  later : c.symbols.Later c'.symbols
  typed : ∀ item ∈ program, TypedItem c'.symbols item
  undefined : ∀ f ∈ program.filterMap Parse.defines?, ¬ c.symbols.IsDefined f
  once : (program.filterMap Parse.defines?).Nodup

/-- **Sources.** A source read in a sound context is a program that fits, or leaves a sound context. -/
theorem parseSource_read (source : String) {c : Context} (hc : c.Sound) :
    Ends (parseSource source) c (ReadProgram c) (fun _ c' => c'.Sound) := by
  unfold parseSource
  cases tokenize source with
  | error fault => exact hc
  | ok tokens =>
    show Ends (parse tokens) c _ _
    have hitems := Parse.items_typed (.start tokens c) hc
    unfold Ends parse
    cases hres : Parse.items (.start tokens c) with
    | ok program last h =>
      rw [hres] at hitems
      have hread : Parse.ReadItems (.start tokens c) program last := hitems
      exact ⟨hread.grown.sound, hread.grown.later, hread.typed, hread.undefined, hread.once⟩
    | fail fault last =>
      rw [hres] at hitems
      exact (show Parse.Failed (.start tokens c) fault last from hitems).sound

end MiniC
