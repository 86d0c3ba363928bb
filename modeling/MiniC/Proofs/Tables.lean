import MiniC.Proofs.Outcome
import MiniC.Typing

/-!
# What symbol tables keep

* `Context.Sound`: the facts about a context that hold after every step of a run, whether the step succeeds or fails. A
  function has a label of its own below the counter; everything else has a type with values; a namespace holds
  parameters, at most six, and locals, each name once.
* `SymbolTable.Later`: what declarations leave in place. A global stays what it is, a defined function keeps its
  parameters and locals, and a function keeps its number of parameters.

One lemma per operation on the table says how it shows in the look-ups.
-/

namespace MiniC

/-! ## Symbols -/

theorem SymbolKind.eq_variable {kind : SymbolKind} (hf : kind ≠ .function) (ha : kind ≠ .array) : kind = .variable := by
  cases kind <;> simp_all

namespace Symbol

/-- A symbol without what is filled in after its declaration. -/
def core (s : Symbol) : Symbol := { s with position := none, defined := false }

/-- An array has elements, and their type has values. -/
def ArrayOk (s : Symbol) : Prop := s.kind = .array → 0 < s.count ∧ ∃ base, base ≠ Base.void ∧ s.ty = .pointer base

/-- What holds of a global when the labels below `next` are drawn. -/
structure GlobalOk (next : Nat) (s : Symbol) : Prop where
  scope : s.scope = .global
  position : s.position = none
  typed : s.kind ≠ .function → s.ty ≠ .void
  array : s.ArrayOk
  labelled : s.kind = .function → ∃ label, s.label = some label
  unlabelled : s.kind ≠ .function → s.label = none
  drawn : ∀ label, s.label = some label → label < next
  function_of_defined : s.defined = true → s.kind = .function

/-- What holds of a parameter or a local. -/
structure MemberOk (s : Symbol) : Prop where
  scope : s.scope ≠ .global
  kind : s.kind ≠ .function
  typed : s.ty ≠ .void
  array : s.ArrayOk
  param : s.scope = .parameter → s.kind = .variable

section Core

variable {s t : Symbol} (h : s.core = t.core)

include h

theorem scope_of_core : s.scope = t.scope := (congrArg scope h :)

theorem kind_of_core : s.kind = t.kind := (congrArg kind h :)

theorem ty_of_core : s.ty = t.ty := (congrArg ty h :)

theorem count_of_core : s.count = t.count := (congrArg count h :)

theorem memberOk_of_core (ht : t.MemberOk) : s.MemberOk := by
  refine ⟨scope_of_core h ▸ ht.scope, kind_of_core h ▸ ht.kind, ty_of_core h ▸ ht.typed, ?_, ?_⟩
  · unfold ArrayOk
    rw [kind_of_core h, ty_of_core h, count_of_core h]
    exact ht.array
  · rw [scope_of_core h, kind_of_core h]
    exact ht.param

end Core

end Symbol

/-- What holds of the symbols of a function. -/
structure NamespaceOk (symbols : List Symbol) : Prop where
  members : ∀ s ∈ symbols, s.MemberOk
  names : (symbols.map (·.name)).Nodup
  limit : (symbols.filter (·.scope == .parameter)).length ≤ Typing.maxParams

theorem namespaceOk_nil : NamespaceOk [] := ⟨by simp, List.nodup_nil, by simp⟩

/-- One more symbol under a new name; if it is a parameter, there is room for it. -/
theorem NamespaceOk.append {symbols : List Symbol} {s : Symbol} (h : NamespaceOk symbols) (hs : s.MemberOk)
    (hnew : symbols.any (·.name == s.name) = false)
    (hroom : s.scope = .parameter → symbols.length < Typing.maxParams) : NamespaceOk (symbols ++ [s]) := by
  refine ⟨?_, ?_, ?_⟩
  · intro t ht
    rcases List.mem_append.1 ht with ht | ht
    · exact h.members t ht
    · rw [List.mem_singleton.1 ht]; exact hs
  · rw [List.map_append, List.nodup_append]
    refine ⟨h.names, by simp, ?_⟩
    intro a ha b hb hab
    obtain ⟨t, ht, rfl⟩ := List.mem_map.1 ha
    simp only [List.map_cons, List.map_nil, List.mem_singleton] at hb
    have := List.any_eq_false.1 hnew t ht
    simp [hab, hb] at this
  · rw [List.filter_append, List.length_append]
    by_cases hp : s.scope = .parameter
    · have hle := List.length_filter_le (fun s : Symbol => s.scope == .parameter) symbols
      have := hroom hp
      simp only [hp, List.filter_cons, beq_self_eq_true, ↓reduceIte, List.filter_nil, List.length_singleton]
      omega
    · simpa [hp] using h.limit

namespace SymbolTable

variable {t t' t'' : SymbolTable}

/-! ## Look-ups -/

theorem name_of_global? {name : String} {s : Symbol} (h : t.global? name = some s) : s.name = name := by
  simpa using List.find?_some h

theorem mem_members {f : String} {s : Symbol} (h : s ∈ t.members f) :
    ∃ symbols, t.namespace? f = some symbols ∧ s ∈ symbols := by
  unfold members at h
  cases hn : t.namespace? f with
  | none => rw [hn] at h; cases h
  | some symbols => rw [hn] at h; exact ⟨symbols, rfl, h⟩

theorem mem_of_local? {f name : String} {s : Symbol} (h : t.local? f name = some s) : s ∈ t.members f :=
  List.mem_of_find?_eq_some h

/-- Whether `f` has been given a body. -/
def IsDefined (t : SymbolTable) (f : String) : Prop := ∃ s, t.global? f = some s ∧ s.defined = true

def IsFunction (t : SymbolTable) (f : String) : Prop := ∃ s, t.global? f = some s ∧ s.kind = .function

theorem global?_append {name : String} {symbol : Symbol} {namespaces : List (String × List Symbol)}
    (hnew : t.global? symbol.name = none) :
    (SymbolTable.mk (t.globals ++ [symbol]) namespaces).global? name =
      if name = symbol.name then some symbol else t.global? name := by
  unfold global? at hnew ⊢
  rw [List.find?_append]
  by_cases h : name = symbol.name
  · rw [if_pos h, h, hnew]
    simp
  · rw [if_neg h]
    simp [beq_false_of_ne (Ne.symm h)]

theorem global?_define (name f : String) :
    (t.define name).global? f = (t.global? f).map fun s => if s.name == name then { s with defined := true } else s := by
  unfold define global?
  rw [List.find?_map]
  congr 1
  · congr 1
    funext s
    simp only [Function.comp_apply]
    split <;> rfl

theorem global?_congr (h : t'.globals = t.globals) (name : String) : t'.global? name = t.global? name := by
  unfold global?
  rw [h]

theorem params_congr {f : String} (h : t'.namespace? f = t.namespace? f) : t'.params f = t.params f := by
  unfold params members
  rw [h]

theorem local?_congr {f name : String} (h : t'.namespace? f = t.namespace? f) : t'.local? f name = t.local? f name := by
  unfold local? members
  rw [h]

/-- What a name in a function stands for is one of its own symbols, or else a global. -/
theorem resolve_cases {name : String} {f : Option String} {s : Symbol} (h : t.resolve name f = .ok s) :
    (∃ g, f = some g ∧ t.local? g name = some s) ∨
      ((∀ g, f = some g → t.local? g name = none) ∧ t.global? name = some s) := by
  unfold resolve at h
  cases hl : f.bind (t.local? · name) with
  | some s' =>
    rw [hl] at h
    cases h
    obtain ⟨g, hf, hg⟩ := Option.bind_eq_some_iff.1 hl
    exact .inl ⟨g, hf, hg⟩
  | none =>
    rw [hl] at h
    refine .inr ⟨fun g hg => ?_, ?_⟩
    · rw [hg] at hl
      exact hl
    · simp only [Option.none_or] at h
      split at h
      · next s' hs => cases h; exact hs
      · cases h

/-! ## Later tables -/

/-- What declarations leave in place. -/
structure Later (t t' : SymbolTable) : Prop where
  globals : ∀ name s, t.global? name = some s →
    ∃ s', t'.global? name = some s' ∧ s'.core = s.core ∧ (s.defined = true → s'.defined = true)
  locals : ∀ f, t.IsDefined f → ∀ name s, t.local? f name = some s → ∃ s', t'.local? f name = some s' ∧ s'.core = s.core
  params : ∀ f, t.IsFunction f → (t'.params f).length = (t.params f).length

theorem Later.refl (t : SymbolTable) : Later t t :=
  ⟨fun _ s h => ⟨s, h, rfl, id⟩, fun _ _ _ s h => ⟨s, h, rfl⟩, fun _ _ => rfl⟩

theorem Later.isDefined {f : String} (h : Later t t') (hf : t.IsDefined f) : t'.IsDefined f := by
  obtain ⟨s, hs, hd⟩ := hf
  obtain ⟨s', hs', -, hd'⟩ := h.globals f s hs
  exact ⟨s', hs', hd' hd⟩

theorem Later.isFunction {f : String} (h : Later t t') (hf : t.IsFunction f) : t'.IsFunction f := by
  obtain ⟨s, hs, hk⟩ := hf
  obtain ⟨s', hs', hc, -⟩ := h.globals f s hs
  exact ⟨s', hs', (Symbol.kind_of_core hc).trans hk⟩

theorem Later.trans (h : Later t t') (h' : Later t' t'') : Later t t'' := by
  refine ⟨fun name s hs => ?_, fun f hf name s hs => ?_, fun f hf => ?_⟩
  · obtain ⟨s', hs', hc, hd⟩ := h.globals name s hs
    obtain ⟨s'', hs'', hc', hd'⟩ := h'.globals name s' hs'
    exact ⟨s'', hs'', hc'.trans hc, hd' ∘ hd⟩
  · obtain ⟨s', hs', hc⟩ := h.locals f hf name s hs
    obtain ⟨s'', hs'', hc'⟩ := h'.locals f (h.isDefined hf) name s' hs'
    exact ⟨s'', hs'', hc'.trans hc⟩
  · exact (h'.params f (h.isFunction hf)).trans (h.params f hf)

theorem global?_declareGlobal {name : String} {kind : SymbolKind} {ty : Ty} {label : Option Nat} {count : Int}
    (h : t.declareGlobal name kind ty label count = .ok t') :
    t'.global? name = some { name, scope := .global, kind, ty, label, count } := by
  unfold declareGlobal at h
  split at h
  · cases h
  · next hnew =>
    cases h
    rw [global?_append (by exact hnew)]
    exact if_pos rfl

/-- A new global leaves everything in place. -/
theorem later_declareGlobal {name : String} {kind : SymbolKind} {ty : Ty} {label : Option Nat} {count : Int}
    (h : t.declareGlobal name kind ty label count = .ok t') : Later t t' := by
  unfold declareGlobal at h
  split at h
  · cases h
  · next hnew =>
    cases h
    refine ⟨fun name' s hs => ⟨s, ?_, rfl, id⟩, fun _ _ _ s hs => ⟨s, hs, rfl⟩, fun _ _ => rfl⟩
    rw [global?_append (by exact hnew), if_neg]
    · exact hs
    · intro heq
      simp only at heq
      rw [heq, hnew] at hs
      cases hs

/-- The table after a symbol has been added to a namespace. -/
theorem addMember_cases {f : String} {symbol : Symbol} (h : t.addMember f symbol = .ok t') :
    ∃ symbols, t.namespace? f = some symbols ∧ symbols.any (·.name == symbol.name) = false ∧
      t' = t.setNamespace f (symbols ++ [symbol]) := by
  unfold addMember at h
  split at h
  · cases h
  · next symbols hs =>
    split at h
    · cases h
    · next hany => cases h; exact ⟨symbols, hs, by simpa using hany, rfl⟩

/-- A new local leaves everything in place. -/
theorem later_declareLocal {f name : String} {kind : SymbolKind} {ty : Ty} {count : Int}
    (h : t.declareLocal f name kind ty count = .ok t') : Later t t' := by
  obtain ⟨symbols, hs, -, rfl⟩ := addMember_cases h
  refine ⟨fun _ s hs => ⟨s, hs, rfl, id⟩, fun g _ name' s hl => ⟨s, ?_, rfl⟩, fun g _ => ?_⟩
  · by_cases hg : g = f
    · subst hg
      simp only [local?, members, hs, Option.getD_some] at hl
      simp [local?, members, hl]
    · rw [local?_congr (t := t) (by simp [hg]), hl]
  · by_cases hg : g = f
    · subst hg
      simp [params, members, hs]
    · rw [params_congr (t := t) (by simp [hg])]

/-- A function without a body may be started over with as many parameters as before. -/
theorem Later.reopened {name : String} (h : Later t t') (hglobals : t''.globals = t'.globals)
    (hothers : ∀ f, f ≠ name → t''.namespace? f = t'.namespace? f) (hdefined : ¬ t.IsDefined name)
    (hparams : t.IsFunction name → (t''.params name).length = (t.params name).length) : Later t t'' := by
  refine ⟨fun f s hs => ?_, fun f hf n s hs => ?_, fun f hf => ?_⟩
  · obtain ⟨s', hs', hc⟩ := h.globals f s hs
    exact ⟨s', (global?_congr hglobals f).trans hs', hc⟩
  · have hne : f ≠ name := by
      rintro rfl
      exact hdefined hf
    rw [local?_congr (hothers f hne)]
    exact h.locals f hf n s hs
  · by_cases hne : f = name
    · subst hne
      exact hparams hf
    · rw [params_congr (hothers f hne)]
      exact h.params f hf

theorem later_define (t : SymbolTable) (name : String) : Later t (t.define name) := by
  refine ⟨fun f s hs => ?_, fun _ _ _ s hs => ⟨s, hs, rfl⟩, fun _ _ => rfl⟩
  rw [global?_define, hs]
  refine ⟨_, rfl, ?_⟩
  dsimp only
  split
  · exact ⟨rfl, fun _ => rfl⟩
  · exact ⟨rfl, id⟩

theorem isDefined_define {name : String} (h : t.IsFunction name) : (t.define name).IsDefined name := by
  obtain ⟨s, hs, -⟩ := h
  refine ⟨{ s with defined := true }, ?_, rfl⟩
  rw [global?_define, hs, Option.map_some, if_pos (by simpa using name_of_global? hs)]

end SymbolTable

/-! ## Sound contexts -/

/-- What holds of a context at every moment of a run. -/
structure Context.Sound (c : Context) : Prop where
  globals : ∀ name s, c.symbols.global? name = some s → s.GlobalOk c.nextLabel
  labels : ∀ f g s s' label, c.symbols.global? f = some s → c.symbols.global? g = some s' → s.label = some label →
    s'.label = some label → f = g
  namespaces : ∀ f symbols, c.symbols.namespace? f = some symbols → NamespaceOk symbols

namespace Context.Sound

variable {c : Context}

theorem empty : Sound {} where
  globals _ _ h := by cases h
  labels _ _ _ _ _ h := by cases h
  namespaces _ _ h := by cases h

theorem memberOk (h : c.Sound) {f name : String} {s : Symbol} (hs : c.symbols.local? f name = some s) : s.MemberOk := by
  obtain ⟨symbols, hn, hm⟩ := SymbolTable.mem_members (SymbolTable.mem_of_local? hs)
  exact (h.namespaces f symbols hn).members s hm

theorem params_le (h : c.Sound) (f : String) : (c.symbols.params f).length ≤ Typing.maxParams := by
  unfold SymbolTable.params SymbolTable.members
  cases hn : c.symbols.namespace? f with
  | none => simp [Typing.maxParams]
  | some symbols => exact (h.namespaces f symbols hn).limit

/-- Drawing labels keeps a context sound. -/
theorem withLabel (h : c.Sound) {next : Nat} (hle : c.nextLabel ≤ next) : Sound { c with nextLabel := next } :=
  ⟨fun name s hs =>
    let g := h.globals name s hs
    { g with drawn := fun label hl => Nat.lt_of_lt_of_le (g.drawn label hl) hle }, h.labels, h.namespaces⟩

/-- Only the symbols and how many labels are drawn matter. -/
theorem of_symbols (h : c.Sound) {c' : Context} (hsymbols : c'.symbols = c.symbols) (hle : c.nextLabel ≤ c'.nextLabel) :
    c'.Sound := by
  have h' := h.withLabel hle
  rwa [← hsymbols] at h'

/-- A namespace may be replaced by a sound one. -/
theorem setNamespace (h : c.Sound) {f : String} {symbols : List Symbol} (hs : NamespaceOk symbols) :
    Sound { c with symbols := c.symbols.setNamespace f symbols } := by
  refine ⟨h.globals, h.labels, fun g symbols' hg => ?_⟩
  rw [SymbolTable.namespace?_setNamespace] at hg
  split at hg
  · cases hg; exact hs
  · exact h.namespaces g symbols' hg

/-- A sound global may be added under a label that no other has. -/
theorem declareGlobal (h : c.Sound) {name : String} {kind : SymbolKind} {ty : Ty} {label : Option Nat} {count : Int}
    {t : SymbolTable} (hd : c.symbols.declareGlobal name kind ty label count = .ok t)
    (hok : Symbol.GlobalOk c.nextLabel { name, scope := .global, kind, ty, label, count })
    (hfresh : ∀ f s l, c.symbols.global? f = some s → s.label = some l → label ≠ some l) :
    Sound { c with symbols := t } := by
  unfold SymbolTable.declareGlobal at hd
  split at hd
  · cases hd
  · next hnew =>
    cases hd
    refine ⟨fun f s hs => ?_, fun f g s s' l hs hs' hl hl' => ?_, h.namespaces⟩
    · rw [SymbolTable.global?_append (by exact hnew)] at hs
      split at hs
      · cases hs; exact hok
      · exact h.globals f s hs
    · rw [SymbolTable.global?_append (by exact hnew)] at hs hs'
      split at hs
      · next hf =>
        split at hs'
        · next hg => rw [hf, hg]
        · cases hs
          exact absurd hl (hfresh g s' l hs' hl')
      · split at hs'
        · cases hs'
          exact absurd hl' (hfresh f s l hs hl)
        · exact h.labels f g s s' l hs hs' hl hl'

/-- Marking a function as defined keeps a context sound. -/
theorem define (h : c.Sound) {name : String} (hf : c.symbols.IsFunction name) :
    Sound { c with symbols := c.symbols.define name } := by
  have hback : ∀ f s, (c.symbols.define name).global? f = some s →
      ∃ s', c.symbols.global? f = some s' ∧ s = if s'.name == name then { s' with defined := true } else s' := by
    intro f s hs
    rw [SymbolTable.global?_define] at hs
    obtain ⟨s', hs', rfl⟩ := Option.map_eq_some_iff.1 hs
    exact ⟨s', hs', rfl⟩
  refine ⟨fun f s hs => ?_, fun f g s s' l hs hs' hl hl' => ?_, h.namespaces⟩
  · obtain ⟨s', hs', rfl⟩ := hback f s hs
    have hok := h.globals f s' hs'
    split
    · next hname =>
      refine { hok with function_of_defined := fun _ => ?_ }
      obtain ⟨s₀, hs₀, hk⟩ := hf
      have hfn : f = name := (SymbolTable.name_of_global? hs').symm.trans (by simpa using hname)
      rw [hfn, hs₀] at hs'
      cases hs'
      exact hk
    · exact hok
  · obtain ⟨s₁, hs₁, rfl⟩ := hback f s hs
    obtain ⟨s₂, hs₂, rfl⟩ := hback g s' hs'
    refine h.labels f g s₁ s₂ l hs₁ hs₂ ?_ ?_
    · split at hl <;> exact hl
    · split at hl' <;> exact hl'

end Context.Sound

end MiniC
