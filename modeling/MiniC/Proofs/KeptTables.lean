import MiniC.Proofs.Elaboration
import MiniC.Proofs.FrameLayout

/-!
# What declarations keep in order

* `SymbolTable.Arranged`: names are stored once, and the namespaces are those of the functions, parameters first.
  Parsing keeps a table so (`defining_arranged`), and so does laying out a frame.
* `SymbolTable.Preserved`: what later tables leave of earlier ones. A declared global stays what it is, and a function
  that has a body keeps its parameters and locals but for their positions. Every item of a program preserves what stood
  before it (`Parse.item_preserved`), whether it is accepted or not.
-/

namespace MiniC

/-! ## Arranged tables -/

/-- Parameters come before locals. -/
def Ordered (symbols : List Symbol) : Prop :=
  ∃ params locals, symbols = params ++ locals ∧ (∀ s ∈ params, s.scope = .parameter) ∧ ∀ s ∈ locals, s.scope = .local

theorem Ordered.of_params {symbols : List Symbol} (h : ∀ s ∈ symbols, s.scope = .parameter) : Ordered symbols :=
  ⟨symbols, [], (List.append_nil _).symm, h, by simp⟩

theorem Ordered.append {symbols : List Symbol} {s : Symbol} (h : Ordered symbols) (hs : s.scope = .local) :
    Ordered (symbols ++ [s]) := by
  obtain ⟨params, locals, rfl, hparams, hlocals⟩ := h
  refine ⟨params, locals ++ [s], by rw [List.append_assoc], hparams, fun q hq => ?_⟩
  rcases List.mem_append.1 hq with hq | hq
  · exact hlocals q hq
  · rw [List.mem_singleton.1 hq, hs]

namespace SymbolTable

variable {t t' : SymbolTable} {f name : String}

/-- The names of the functions that have a namespace. -/
def keys (t : SymbolTable) : List String := t.namespaces.map (·.1)

theorem nodup_keys_setNamespace (h : t.keys.Nodup) (f : String) (symbols : List Symbol) :
    (t.setNamespace f symbols).keys.Nodup := by
  unfold keys setNamespace
  rw [List.map_cons, List.nodup_cons]
  refine ⟨by simp [List.mem_map, List.mem_filter], h.sublist ((List.filter_sublist).map _)⟩

/-- Every name is stored once, and the functions are those that have a namespace; it holds parameters before locals. -/
structure Arranged (t : SymbolTable) : Prop where
  names : (t.globals.map (·.name)).Nodup
  keys : t.keys.Nodup
  owners : ∀ f, t.IsFunction f ↔ ∃ symbols, t.namespace? f = some symbols
  ordered : ∀ f symbols, t.namespace? f = some symbols → Ordered symbols

theorem arranged_empty : Arranged {} where
  names := .nil
  keys := .nil
  owners f := ⟨fun ⟨_, h, _⟩ => (by cases h), fun ⟨_, h⟩ => (by cases h)⟩
  ordered _ _ h := by cases h

/-- A namespace may be replaced by an ordered one. -/
theorem Arranged.setNamespace (h : t.Arranged) {symbols : List Symbol} (hf : t.IsFunction f) (hs : Ordered symbols) :
    (t.setNamespace f symbols).Arranged where
  names := h.names
  keys := nodup_keys_setNamespace h.keys f symbols
  owners g := by
    rw [namespace?_setNamespace]
    by_cases hg : g = f
    · subst hg
      exact iff_of_true hf ⟨symbols, if_pos rfl⟩
    · rw [if_neg hg]
      exact h.owners g
  ordered g symbols' hg := by
    rw [namespace?_setNamespace] at hg
    split at hg
    · cases hg; exact hs
    · exact h.ordered g symbols' hg

theorem Arranged.declareLocal (h : t.Arranged) {kind : SymbolKind} {ty : Ty} {count : Int}
    (hd : t.declareLocal f name kind ty count = .ok t') : t'.Arranged := by
  obtain ⟨symbols, hn, -, rfl⟩ := addMember_cases hd
  exact h.setNamespace ((h.owners f).2 ⟨symbols, hn⟩) ((h.ordered f symbols hn).append rfl)

theorem nodup_names_declareGlobal (h : (t.globals.map (·.name)).Nodup) {kind : SymbolKind} {ty : Ty}
    {label : Option Nat} {count : Int} (hd : t.declareGlobal name kind ty label count = .ok t') :
    (t'.globals.map (·.name)).Nodup := by
  unfold SymbolTable.declareGlobal at hd
  split at hd
  · cases hd
  · next hnew =>
    cases hd
    rw [List.map_append, List.nodup_append]
    refine ⟨h, by simp, ?_⟩
    rintro a ha b hb rfl
    obtain ⟨s, hs, rfl⟩ := List.mem_map.1 ha
    rw [List.map_singleton, List.mem_singleton] at hb
    exact absurd (List.find?_eq_none.1 hnew s hs) (by simp [hb])

theorem namespaces_declareGlobal {kind : SymbolKind} {ty : Ty} {label : Option Nat} {count : Int}
    (hd : t.declareGlobal name kind ty label count = .ok t') : t'.namespaces = t.namespaces := by
  unfold SymbolTable.declareGlobal at hd
  split at hd <;> cases hd
  rfl

/-- A new global is a function only if it is declared as one. -/
theorem isFunction_declareGlobal {kind : SymbolKind} {ty : Ty} {label : Option Nat} {count : Int}
    (hd : t.declareGlobal name kind ty label count = .ok t') (g : String) :
    t'.IsFunction g ↔ (g = name ∧ kind = .function) ∨ t.IsFunction g := by
  unfold SymbolTable.declareGlobal at hd
  split at hd
  · cases hd
  · next hnew =>
    cases hd
    unfold IsFunction
    rw [global?_append (by exact hnew)]
    by_cases hg : g = name
    · simp [hg, hnew]
    · simp [hg]

theorem Arranged.declareVariable (h : t.Arranged) {kind : SymbolKind} {ty : Ty} {label : Option Nat} {count : Int}
    (hkind : kind ≠ .function) (hd : t.declareGlobal name kind ty label count = .ok t') : t'.Arranged := by
  have hspaces := namespaces_declareGlobal hd
  refine ⟨nodup_names_declareGlobal h.names hd, ?_, fun g => ?_, fun g symbols hg => ?_⟩
  · unfold SymbolTable.keys
    rw [hspaces]
    exact h.keys
  · rw [isFunction_declareGlobal hd, or_iff_right fun hg => hkind hg.2]
    unfold namespace?
    rw [hspaces]
    exact h.owners g
  · unfold namespace? at hg
    rw [hspaces] at hg
    exact h.ordered g symbols hg

/-! ### Functions -/

/-- The table is arranged, but `name` is a function that may have no namespace yet. -/
structure ArrangedBut (name : String) (t : SymbolTable) : Prop where
  names : (t.globals.map (·.name)).Nodup
  keys : t.keys.Nodup
  function : t.IsFunction name
  owners : ∀ f, f ≠ name → (t.IsFunction f ↔ ∃ symbols, t.namespace? f = some symbols)
  ordered : ∀ f symbols, t.namespace? f = some symbols → Ordered symbols

theorem Arranged.but (h : t.Arranged) (hf : t.IsFunction name) : t.ArrangedBut name :=
  ⟨h.names, h.keys, hf, fun f _ => h.owners f, h.ordered⟩

theorem Arranged.declareFunction (h : t.Arranged) {ty : Ty} {label : Option Nat} {count : Int}
    (hd : t.declareGlobal name .function ty label count = .ok t') : t'.ArrangedBut name := by
  have hspaces := namespaces_declareGlobal hd
  refine ⟨nodup_names_declareGlobal h.names hd, ?_, ?_, fun g hg => ?_, fun g symbols hg => ?_⟩
  · unfold SymbolTable.keys
    rw [hspaces]
    exact h.keys
  · exact (isFunction_declareGlobal hd name).2 (.inl ⟨rfl, rfl⟩)
  · rw [isFunction_declareGlobal hd, or_iff_right fun hf => hg hf.1]
    unfold namespace?
    rw [hspaces]
    exact h.owners g
  · unfold namespace? at hg
    rw [hspaces] at hg
    exact h.ordered g symbols hg

/-- `t'` is `t` with nothing but parameters in the namespace of `name`. -/
structure Filled (name : String) (t t' : SymbolTable) : Prop where
  globals : t'.globals = t.globals
  keys : t.keys.Nodup → t'.keys.Nodup
  others : ∀ g, g ≠ name → t'.namespace? g = t.namespace? g
  own : ∃ symbols, t'.namespace? name = some symbols ∧ ∀ s ∈ symbols, s.scope = .parameter

theorem filled_openNamespace (t : SymbolTable) (name : String) : Filled name t (t.openNamespace name) where
  globals := rfl
  keys h := nodup_keys_setNamespace h name []
  others g hg := by simp [openNamespace, hg]
  own := ⟨[], by simp [openNamespace], by simp⟩

theorem Filled.declareParameter (h : Filled name t t') {param : String} {ty : Ty} {t'' : SymbolTable}
    (hd : t'.declareParameter name param ty = .ok t'') : Filled name t t'' := by
  obtain ⟨symbols, hn, -, rfl⟩ := addMember_cases hd
  obtain ⟨symbols', hn', hparams⟩ := h.own
  cases hn.symm.trans hn'
  refine ⟨h.globals, fun hk => nodup_keys_setNamespace (h.keys hk) _ _, fun g hg => ?_,
    ⟨_, (namespace?_setNamespace _ _ _ _).trans (if_pos rfl), ?_⟩⟩
  · rw [namespace?_setNamespace, if_neg hg, h.others g hg]
  · simpa [List.mem_append, or_imp, forall_and] using hparams

theorem ArrangedBut.filled (h : t.ArrangedBut name) (h' : Filled name t t') : t'.Arranged := by
  have hfunction : ∀ g, t'.IsFunction g ↔ t.IsFunction g := fun g => by
    unfold IsFunction
    rw [global?_congr h'.globals]
  obtain ⟨symbols, hn, hparams⟩ := h'.own
  refine ⟨h'.globals ▸ h.names, h'.keys h.keys, fun g => ?_, fun g symbols' hg => ?_⟩
  · rw [hfunction]
    by_cases hg : g = name
    · subst hg
      exact iff_of_true h.function ⟨symbols, hn⟩
    · rw [h'.others g hg]
      exact h.owners g hg
  · by_cases hname : g = name
    · subst hname
      cases hn.symm.trans hg
      exact .of_params hparams
    · rw [h'.others g hname] at hg
      exact h.ordered g symbols' hg

theorem Arranged.define (h : t.Arranged) (name : String) : (t.define name).Arranged := by
  have hfunction : ∀ g, (t.define name).IsFunction g ↔ t.IsFunction g := by
    intro g
    unfold IsFunction
    rw [global?_define]
    cases t.global? g with
    | none => simp
    | some s =>
      simp only [Option.map_some, Option.some.injEq, exists_eq_left']
      split <;> rfl
  refine ⟨?_, h.keys, fun g => (hfunction g).trans (h.owners g), h.ordered⟩
  have hnames : (t.define name).globals.map (·.name) = t.globals.map (·.name) := by
    unfold SymbolTable.define
    rw [List.map_map]
    refine List.map_congr_left fun s _ => ?_
    simp only [Function.comp_apply]
    split <;> rfl
  rw [hnames]
  exact h.names

end SymbolTable

/-! ## Parsing keeps tables arranged -/

section Heads

variable {c : Context}

theorem params_filled (name : String) (params : List Param) (c : Context) :
    Ends (params.forM fun param => CompileM.declare param.line (·.declareParameter name param.name param.ty))
      { c with symbols := c.symbols.openNamespace name }
      (fun _ c' => SymbolTable.Filled name c.symbols c'.symbols)
      (fun _ c' => SymbolTable.Filled name c.symbols c'.symbols) := by
  refine ends_forM (I := fun _ (c' : Context) => SymbolTable.Filled name c.symbols c'.symbols)
    (fun param rest c' h => ?_) params _ (SymbolTable.filled_openNamespace c.symbols name)
  exact ends_declare (fun t ht => h.declareParameter ht) fun _ => h

/-- A head is entered as a function; if it is new, it has no namespace yet. -/
theorem enter_arranged {head : Head} {hasBody : Bool} (h : c.symbols.Arranged) :
    Ends (head.enter hasBody) c
      (fun isNew c' => c'.symbols.ArrangedBut head.name ∧ (isNew = false → c'.symbols.Arranged))
      (fun _ c' => c'.symbols.Arranged) := by
  refine ends_mono enter_ends ?_ ?_
  · rintro isNew c' (⟨rfl, rfl, earlier, hearlier, hagree⟩ | ⟨rfl, t, ht, rfl⟩)
    · exact ⟨h.but ⟨earlier, hearlier, (agreement_cases hagree).1⟩, fun _ => h⟩
    · exact ⟨h.declareFunction ht, nofun⟩
  · rintro _ _ (rfl | rfl) <;> exact h

theorem declare_arranged {head : Head} {hasBody : Bool} (h : c.symbols.Arranged) :
    Ends (head.declare hasBody) c (fun _ c' => c'.symbols.Arranged) (fun _ c' => c'.symbols.Arranged) := by
  refine ends_declareHead (R := fun c' => c'.symbols.Arranged) (enter_arranged h) ?_ ?_ ?_
  · intro isNew c₁ h₁ _
    exact ends_mono (params_filled head.name head.params c₁) (fun _ _ h₂ => h₁.1.filled h₂) fun _ _ h₂ => h₁.1.filled h₂
  · intro isNew c₁ h₁ hkeep
    exact h₁.2 (by simpa using (Bool.or_eq_false_iff.1 hkeep).1)
  · intro c₂ h₂
    cases hasBody with
    | false => exact h₂
    | true => exact h₂.define head.name

end Heads

theorem defining_arranged : Parse.Defining fun c c' => c.symbols.Arranged → c'.symbols.Arranged where
  refl _ := id
  trans h h' := h' ∘ h
  draw _ := id
  declareLocal ht h := h.declareLocal ht
  declareGlobal hkind ht h := h.declareVariable hkind ht
  declareHead c head hasBody := by
    by_cases h : c.symbols.Arranged
    · exact ends_mono (declare_arranged h) (fun _ _ h' _ => h') fun _ _ h' _ => h'
    · unfold Ends
      split <;> exact fun h' => absurd h' h

/-! ## What later tables keep -/

/-- The symbol as it was declared, without a place in a frame. -/
def Symbol.declared (s : Symbol) : Symbol := { s with position := none }

namespace SymbolTable

variable {t t' t'' : SymbolTable} {f name : String}

/-- A global stays what it is, and a function that has a body keeps it. -/
def KeepsGlobals (t t' : SymbolTable) : Prop :=
  ∀ name s, t.global? name = some s →
    ∃ s', t'.global? name = some s' ∧ s'.core = s.core ∧ (s.defined = true → s'.defined = true)

theorem KeepsGlobals.of_globals (h : t'.globals = t.globals) : t.KeepsGlobals t' := by
  intro name s hs
  exact ⟨s, (global?_congr h name).trans hs, rfl, id⟩

theorem KeepsGlobals.trans (h : t.KeepsGlobals t') (h' : t'.KeepsGlobals t'') : t.KeepsGlobals t'' := by
  intro name s hs
  obtain ⟨s', hs', hc, hd⟩ := h name s hs
  obtain ⟨s'', hs'', hc', hd'⟩ := h' name s' hs'
  exact ⟨s'', hs'', hc'.trans hc, hd' ∘ hd⟩

theorem KeepsGlobals.isDefined (h : t.KeepsGlobals t') (hf : t.IsDefined f) : t'.IsDefined f := by
  obtain ⟨s, hs, hd⟩ := hf
  obtain ⟨s', hs', -, hd'⟩ := h f s hs
  exact ⟨s', hs', hd' hd⟩

/-- Besides keeping the globals, nothing has changed but the namespace of `f`. -/
structure ChangedIn (f : String) (t t' : SymbolTable) : Prop where
  globals : t.KeepsGlobals t'
  others : ∀ g, g ≠ f → t'.namespace? g = t.namespace? g

theorem Filled.changedIn (h : Filled f t t') : t.ChangedIn f t' := ⟨.of_globals h.globals, h.others⟩

theorem changedIn_declareGlobal {kind : SymbolKind} {ty : Ty} {label : Option Nat} {count : Int}
    (h : t.declareGlobal name kind ty label count = .ok t') : t.ChangedIn f t' := by
  refine ⟨(later_declareGlobal h).globals, fun g _ => ?_⟩
  unfold namespace?
  rw [namespaces_declareGlobal h]

theorem changedIn_define (t : SymbolTable) (f name : String) : t.ChangedIn f (t.define name) :=
  ⟨(later_define t name).globals, fun _ _ => rfl⟩

/-- A global stays what it is, and a function that has a body keeps its parameters and locals but for their places. -/
structure Preserved (t t' : SymbolTable) : Prop where
  globals : t.KeepsGlobals t'
  members : ∀ f, t.IsDefined f → (t'.members f).map Symbol.declared = (t.members f).map Symbol.declared

theorem Preserved.refl (t : SymbolTable) : t.Preserved t := ⟨.of_globals rfl, fun _ _ => rfl⟩

theorem Preserved.trans (h : t.Preserved t') (h' : t'.Preserved t'') : t.Preserved t'' :=
  ⟨h.globals.trans h'.globals, fun f hf => (h'.members f (h.globals.isDefined hf)).trans (h.members f hf)⟩

/-- The namespace of a function that had no body may change. -/
theorem Preserved.changed (h : t.Preserved t') (hf : ¬ t.IsDefined f) (h' : t'.ChangedIn f t'') : t.Preserved t'' := by
  refine ⟨h.globals.trans h'.globals, fun g hg => ?_⟩
  have hne : g ≠ f := by
    rintro rfl
    exact hf hg
  have hmembers : t''.members g = t'.members g := by
    unfold SymbolTable.members
    rw [h'.others g hne]
  rw [hmembers]
  exact h.members g hg

theorem preserved_declareGlobal {kind : SymbolKind} {ty : Ty} {label : Option Nat} {count : Int}
    (h : t.declareGlobal name kind ty label count = .ok t') : t.Preserved t' := by
  refine ⟨(later_declareGlobal h).globals, fun f _ => ?_⟩
  unfold SymbolTable.members namespace?
  rw [namespaces_declareGlobal h]

end SymbolTable

/-- Statements in the body of `f` change no other namespace. -/
theorem declaringIn_changed (f : String) : Parse.DeclaringIn (some f) fun c c' => c.symbols.ChangedIn f c'.symbols where
  refl c := ⟨.of_globals rfl, fun _ _ => rfl⟩
  trans h h' := ⟨h.globals.trans h'.globals, fun g hg => (h'.others g hg).trans (h.others g hg)⟩
  draw c := ⟨.of_globals rfl, fun _ _ => rfl⟩
  declareLocal hf ht := by
    cases hf
    obtain ⟨symbols, -, -, rfl⟩ := SymbolTable.addMember_cases ht
    exact ⟨.of_globals rfl, fun g hg => by simp [hg]⟩
  declareGlobal _ ht := SymbolTable.changedIn_declareGlobal ht

/-- Declarations at the outermost level change no namespace at all. -/
theorem declaringIn_preserved : Parse.DeclaringIn none fun c c' => c.symbols.Preserved c'.symbols where
  refl c := .refl _
  trans := .trans
  draw c := .refl _
  declareLocal hf := by cases hf
  declareGlobal _ ht := SymbolTable.preserved_declareGlobal ht

/-- Only the head of a function without a body starts its namespace over. -/
theorem declare_preserved (head : Head) (hasBody : Bool) (c : Context) :
    Ends (head.declare hasBody) c
      (fun _ c' => c.symbols.Preserved c'.symbols ∧ (hasBody = true → ¬ c.symbols.IsDefined head.name))
      (fun _ c' => c.symbols.Preserved c'.symbols) := by
  refine ends_declareHead
    (P := fun isNew c₁ => c.symbols.Preserved c₁.symbols ∧ ((isNew || hasBody) = true → ¬ c.symbols.IsDefined head.name))
    (R := fun c₂ => c.symbols.Preserved c₂.symbols ∧ (hasBody = true → ¬ c.symbols.IsDefined head.name)) ?_ ?_ ?_ ?_
  · refine ends_mono enter_ends ?_ ?_
    · rintro isNew c₁ (⟨rfl, rfl, earlier, hearlier, hagree⟩ | ⟨rfl, t, ht, rfl⟩)
      · refine ⟨.refl _, ?_⟩
        rintro hbody ⟨s, hs, hd⟩
        cases hearlier.symm.trans hs
        exact (agreement_cases hagree).2.2 ⟨hd, hbody⟩
      · refine ⟨SymbolTable.preserved_declareGlobal ht, ?_⟩
        rintro - ⟨s, hs, -⟩
        unfold SymbolTable.declareGlobal at ht
        rw [hs] at ht
        cases ht
    · rintro _ _ (rfl | rfl) <;> exact .refl _
  · rintro isNew c₁ ⟨h₁, hundefined⟩ hopen
    have hfresh := hundefined hopen
    exact ends_mono (params_filled head.name head.params c₁) (fun _ _ h₂ => ⟨h₁.changed hfresh h₂.changedIn, fun _ => hfresh⟩)
      fun _ _ h₂ => h₁.changed hfresh h₂.changedIn
  · rintro isNew c₁ ⟨h₁, hundefined⟩ -
    exact ⟨h₁, fun hbody => hundefined (by rw [hbody, Bool.or_true])⟩
  · rintro c₂ ⟨h₂, hundefined⟩
    cases hasBody with
    | false => exact ⟨h₂, hundefined⟩
    | true => exact ⟨h₂.changed (hundefined rfl) (SymbolTable.changedIn_define _ _ _), hundefined⟩

namespace Parse

variable {s : State}

/-- No function changes the namespace of another one that has a body. -/
theorem function_preserved (s : State) : Within (fun c c' => c.symbols.Preserved c'.symbols) s (function s) := by
  have hdraw := declaringIn_preserved.toDrawing
  unfold function
  refine hdraw.bind (hdraw.head s) fun head s₁ _ => ?_
  have hdeclare := declare_preserved head
  cases hclose : s₁.accept? (.punct ";") with
  | some t =>
    refine Drawing.takenThen (context_of_accept hclose) ?_
    exact hdraw.bind (Drawing.perform (ends_mono (hdeclare false _) (fun _ _ h => h.1) fun _ _ h => h)) fun _ s₃ _ =>
      hdraw.done _ s₃
  | none =>
    refine Result.ends_bind (ends_perform (hdeclare true _)) ?_
    rintro _ s₂ _ ⟨h₂, hundefined⟩
    have hfresh := hundefined rfl
    refine Result.ends_andThen (Result.ends_mono ((declaringIn_changed head.name).block s₂)
      (fun _ _ h₃ => h₂.changed hfresh h₃) fun _ _ h₃ => h₂.changed hfresh h₃) fun body s₃ _ h₃ => h₃

theorem item_preserved (s : State) : Within (fun c c' => c.symbols.Preserved c'.symbols) s (item s) := by
  unfold item
  cases hfunc : s.accept? (.keyword "func") with
  | some t => exact Drawing.taken (context_of_accept hfunc) (Result.ends_relax (function_preserved t.next))
  | none =>
    cases hkeyword : (s.accept? (.keyword "global")).or (s.accept? (.keyword "var")) with
    | some t =>
      have ht : t.next.context = s.context := by
        rcases Option.or_eq_some_iff.1 hkeyword with h | ⟨-, h⟩ <;> exact context_of_accept h
      exact Drawing.taken ht (Result.ends_relax (declaringIn_preserved.declaration (fun _ h => h) t.next))
    | none => exact .refl _

end Parse

/-! ## Lowering keeps tables arranged -/

theorem Ordered.of_declared {symbols symbols' : List Symbol} (h : Ordered symbols)
    (hsame : symbols'.map Symbol.declared = symbols.map Symbol.declared) : Ordered symbols' := by
  obtain ⟨params, locals, rfl, hparams, hlocals⟩ := h
  rw [List.map_append] at hsame
  obtain ⟨params', locals', rfl, hp, hl⟩ := List.map_eq_append_iff.1 hsame
  -- A symbol has the scope of the one that it stands for.
  have hscope : ∀ {l l' : List Symbol} {scope : Scope}, l'.map Symbol.declared = l.map Symbol.declared →
      (∀ s ∈ l, s.scope = scope) → ∀ s ∈ l', s.scope = scope := by
    intro l l' scope hmap hl s hs
    obtain ⟨s₀, hs₀, heq⟩ := List.mem_map.1 (hmap ▸ List.mem_map_of_mem hs)
    exact (congrArg Symbol.scope heq).symm.trans (hl s₀ hs₀)
  exact ⟨params', locals', rfl, hscope hp hparams, hscope hl hlocals⟩

namespace Frame

theorem declared_of_place : ∀ (offset : Int) (symbols : List Symbol),
    (place offset symbols).1.map Symbol.declared = symbols.map Symbol.declared
  | _, [] => rfl
  | offset, s :: symbols => by
    rw [place]
    simp only [List.map_cons, declared_of_place]
    rfl

end Frame

theorem SymbolTable.Arranged.layout {t : SymbolTable} (h : t.Arranged) (f : String) : (Frame.layout t f).1.Arranged := by
  obtain ⟨-, heq⟩ | ⟨symbols, hsome, heq⟩ := Frame.layout_cases t f <;> rw [heq]
  · exact h
  · exact h.setNamespace ((h.owners f).2 ⟨symbols, hsome⟩)
      ((h.ordered f symbols hsome).of_declared (Frame.declared_of_place 0 symbols))

theorem SymbolTable.preserved_layout (t : SymbolTable) (f : String) : t.Preserved (Frame.layout t f).1 := by
  refine ⟨.of_globals (Frame.globals_layout t f), fun g _ => ?_⟩
  obtain ⟨-, heq⟩ | ⟨symbols, hsome, heq⟩ := Frame.layout_cases t f <;> rw [heq]
  unfold SymbolTable.members
  rw [SymbolTable.namespace?_setNamespace]
  by_cases hg : g = f
  · subst hg
    rw [if_pos rfl, hsome]
    exact Frame.declared_of_place 0 symbols
  · rw [if_neg hg]

end MiniC
