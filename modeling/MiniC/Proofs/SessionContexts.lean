import Mathlib.Data.List.Nodup
import MiniC.Proofs.KeptTables
import MiniC.Proofs.LowerFrame
import MiniC.Proofs.ProgramCode

/-!
# Contexts over whole sessions

A session reads sources and lowers programs in one context, in any order, and goes on after failures. `Session.trace`
lists the contexts on the way: before and after every step, after every item that is read or lowered, and where one
fails. No function is being defined at any of them, since a definition is left when its item ends or fails.

* `Parse.contexts_pass`, `Lower.contexts_pass`: the contexts on the way through a source or a program are tidy, and each
  one preserves those before it.
* `session_contexts`: so every context of a session is valid and keeps what earlier ones have declared.
-/

namespace MiniC

/-! ## Contexts that follow each other -/

/-- The context is sound, and its table is arranged. -/
structure Context.Tidy (c : Context) : Prop where
  sound : c.Sound
  arranged : c.symbols.Arranged

theorem Context.tidy_empty : Context.Tidy {} := ⟨.empty, SymbolTable.arranged_empty⟩

/-- `c'` is tidy and preserves what `c` has declared. -/
structure Context.Leads (c c' : Context) : Prop where
  tidy : c'.Tidy
  preserved : c.symbols.Preserved c'.symbols

namespace Context

variable {a b c : Context}

theorem Tidy.leads (h : c.Tidy) : c.Leads c := ⟨h, .refl _⟩

theorem Leads.trans (h : a.Leads b) (h' : b.Leads c) : a.Leads c := ⟨h'.tidy, h.preserved.trans h'.preserved⟩

/-- The contexts `between` come one after another, after `a` and before `b`. -/
structure Passes (a : Context) (between : List Context) (b : Context) : Prop where
  leads : a.Leads b
  after : ∀ x ∈ between, a.Leads x
  before : ∀ x ∈ between, x.Leads b
  pairwise : between.Pairwise Leads

theorem Leads.passes (h : a.Leads b) : Passes a [] b := ⟨h, by simp, by simp, .nil⟩

theorem Passes.append {between between' : List Context} (h : Passes a between b) (h' : Passes b between' c) :
    Passes a (between ++ between') c := by
  refine ⟨h.leads.trans h'.leads, ?_, ?_, ?_⟩
  · rw [List.forall_mem_append]
    exact ⟨h.after, fun x hx => h.leads.trans (h'.after x hx)⟩
  · rw [List.forall_mem_append]
    exact ⟨fun x hx => (h.before x hx).trans h'.leads, h'.before⟩
  · rw [List.pairwise_append]
    exact ⟨h.pairwise, h'.pairwise, fun x hx y hy => (h.before x hx).trans (h'.after y hy)⟩

theorem Leads.through (h : a.Leads b) : Passes a [b] b := ⟨h, by simpa, by simpa using h.tidy.leads, by simp⟩

end Context

/-! ## Reading -/

/-- The state in which work ends, with or without a fault. -/
def reached {ε σ α : Type} : EStateM.Result ε σ α → σ
  | .ok _ s => s
  | .error _ s => s

theorem ends_reached {ε σ α : Type} (x : EStateM ε σ α) (s : σ) :
    Ends x s (fun _ t => t = reached (x s)) fun _ t => t = reached (x s) := by
  unfold Ends
  cases x s <;> rfl

theorem reached_of_ends {ε σ α : Type} {x : EStateM ε σ α} {s : σ} {P : σ → Prop}
    (h : Ends x s (fun _ t => P t) fun _ t => P t) : P (reached (x s)) := by
  unfold Ends at h
  cases hx : x s <;> rw [hx] at h <;> exact h

namespace Parse

/-- The state in which parsing ends, with or without a fault. -/
def Result.reached {n : Nat} {α : Type} : Result n α → State
  | .ok _ s _ => s
  | .fail _ s => s

theorem Result.reached_andThen {m : Nat} {α β : Type} {a : α} {s : State} {h : s.size < m}
    {k : α → (s : State) → s.size < m → Result (s.size + 1) β} :
    ((Result.ok a s h).andThen k).reached = (k a s h).reached := by
  unfold Result.andThen Result.bind
  simp only
  cases k a s h <;> rfl

theorem Result.reached_map {m : Nat} {α β : Type} (r : Result m α) (g : α → β) :
    (r.bind fun a s _ => .done (g a) s).reached = r.reached := by
  cases r <;> rfl

/-- The contexts after the items that are read, and the one where an item fails. -/
def contexts (s : State) : List Context :=
  if s.atEnd then []
  else
    match item s with
    | .ok _ s₁ _ => s₁.context :: contexts s₁
    | .fail _ last => [last.context]
termination_by s.size

theorem item_leads {s : State} (hs : s.context.Tidy) :
    (item s).Ends (fun _ s' => s.context.Leads s'.context) fun _ s' => s.context.Leads s'.context := by
  have htyped := item_typed hs.sound
  have harranged := defining_arranged.item s
  have hpreserved := item_preserved s
  cases hitem : item s with
  | ok stmt s' h =>
    rw [hitem] at htyped harranged hpreserved
    exact ⟨⟨htyped.grown.sound, harranged hs.arranged⟩, hpreserved⟩
  | fail fault s' =>
    rw [hitem] at htyped harranged hpreserved
    exact ⟨⟨htyped.sound, harranged hs.arranged⟩, hpreserved⟩

theorem contexts_pass (s : State) (hs : s.context.Tidy) : Context.Passes s.context (contexts s) (items s).reached.context := by
  induction s using items.induct with
  | case1 s hend =>
    rw [contexts, items, if_pos hend, if_pos hend]
    exact hs.leads.passes
  | case2 s hend ih =>
    rw [contexts, items, if_neg hend, if_neg hend]
    have hleads := item_leads hs
    cases hitem : item s with
    | fail fault last =>
      rw [hitem] at hleads
      exact Context.Leads.through hleads
    | ok stmt s₁ h₁ =>
      rw [hitem] at hleads
      rw [Result.reached_andThen, Result.reached_map]
      exact (Context.Leads.through hleads).append (ih s₁ h₁ (Context.Leads.tidy hleads))

/-- The contexts on the way through a source; there are none if it cannot be cut into tokens. -/
def sourceContexts (source : String) (c : Context) : List Context :=
  match tokenize source with
  | .ok tokens => contexts (.start tokens c)
  | .error _ => []

theorem sourceContexts_pass (source : String) {c : Context} (hc : c.Tidy) :
    c.Passes (sourceContexts source c) (reached (parseSource source c)) := by
  unfold sourceContexts parseSource
  cases tokenize source with
  | error fault => exact hc.leads.passes
  | ok tokens =>
    have hitems := contexts_pass (.start tokens c) hc
    have hreached : reached (parse tokens c) = (items (.start tokens c)).reached.context := by
      unfold parse
      cases items (.start tokens c) <;> rfl
    rw [← hreached] at hitems
    exact hitems

end Parse

/-! ## Lowering -/

namespace Lower

/-- The contexts after the items that are lowered, and the one where an item fails. -/
def contexts : Program → State → List Context
  | [], _ => []
  | item :: items, st =>
    match stmt item st with
    | .ok _ st₁ => st₁.context :: contexts items st₁
    | .error _ st₁ => [st₁.context]

theorem stable_leads (c : Context) : Stable (fun st => c.Leads st.context) fun st => c.Leads st.context where
  fails h := h
  lines _ h := h
  pad _ _ h := h
  inside _ _ h := h
  layout f h := h.trans ⟨⟨h.tidy.sound.layout f, h.tidy.arranged.layout f⟩, SymbolTable.preserved_layout _ f⟩
  draw h := h.trans ⟨⟨h.tidy.sound.withLabel (Nat.le_succ _), h.tidy.arranged⟩, .refl _⟩
  literal _ _ _ h := h
  literalFails _ _ h := h

theorem contexts_pass : ∀ (program : Program) (st : State), st.context.Tidy →
    Context.Passes st.context (contexts program st) (reached (stmtList program st)).context
  | [], st, hst => by
    rw [contexts, stmtList]
    exact hst.leads.passes
  | item :: items, st, hst => by
    have hleads := (stable_leads st.context).trees.2.2.1 item st hst.leads
    rw [contexts, stmtList]
    show Context.Passes _ _ (reached (EStateM.bind (stmt item) (fun _ => stmtList items) st)).context
    unfold EStateM.bind
    cases hitem : stmt item st with
    | ok _ st₁ =>
      have hleads := ends_of_ok hleads hitem
      exact (Context.Leads.through hleads).append (contexts_pass items st₁ hleads.tidy)
    | error fault st₁ =>
      have hleads := ends_of_error hleads hitem
      exact Context.Leads.through hleads

/-- The string literals of a program do not touch the context. -/
theorem reached_generate (program : Program) (c : Context) :
    reached (generate program c) = (reached (stmtList program { context := c })).context := by
  have hprogram : reached (generate program c) = (reached (Lower.program program { context := c })).context := by
    unfold generate
    cases Lower.program program { context := c } <;> rfl
  rw [hprogram]
  refine reached_of_ends (ends_bind (ends_mono (ends_reached _ _) (fun _ _ h => h) fun _ _ h => congrArg _ h) ?_)
  rintro _ _ rfl
  refine ends_bind (strings_ends _) ?_
  rintro _ _ rfl
  exact ends_modify rfl

end Lower

/-! ## Sessions -/

namespace Session

/-- One step of a session. -/
inductive Step where
  /-- Tokenize and parse a source. -/
  | read (source : String)
  /-- Lower a program. -/
  | lower (program : Program)

/-- The context that a step leaves, with or without a fault. -/
def Step.run (c : Context) : Step → Context
  | read source => reached (parseSource source c)
  | lower program => reached (generate program c)

/-- The contexts on the way through a step. -/
def Step.contexts (c : Context) : Step → List Context
  | read source => Parse.sourceContexts source c
  | lower program => Lower.contexts program { context := c }

/-- The contexts of a session that starts in `c`: before and after every step, and on the way through it. -/
def trace : List Step → Context → List Context
  | [], c => [c]
  | step :: steps, c => c :: (step.contexts c ++ trace steps (step.run c))

theorem step_passes {c : Context} (hc : c.Tidy) : ∀ step : Step, c.Passes (step.contexts c) (step.run c)
  | .read source => Parse.sourceContexts_pass source hc
  | .lower program => by
    have hitems := Lower.contexts_pass program { context := c } hc
    rw [← Lower.reached_generate] at hitems
    exact hitems

theorem trace_pairwise : ∀ (steps : List Step) {c : Context}, c.Tidy →
    (∀ x ∈ trace steps c, c.Leads x) ∧ (trace steps c).Pairwise Context.Leads
  | [], c, hc => ⟨by simpa [trace] using hc.leads, by simp [trace]⟩
  | step :: steps, c, hc => by
    have hstep := step_passes hc step
    obtain ⟨hleads, hpairwise⟩ := trace_pairwise steps hstep.leads.tidy
    have hafter : ∀ x ∈ step.contexts c ++ trace steps (step.run c), c.Leads x := by
      rw [List.forall_mem_append]
      exact ⟨hstep.after, fun x hx => hstep.leads.trans (hleads x hx)⟩
    rw [trace]
    refine ⟨List.forall_mem_cons.2 ⟨hc.leads, hafter⟩, List.pairwise_cons.2 ⟨hafter, ?_⟩⟩
    rw [List.pairwise_append]
    exact ⟨hstep.pairwise, hpairwise, fun x hx y hy => (hstep.before x hx).trans (hleads y hy)⟩

theorem getLast?_trace : ∀ (steps : List Step) (c : Context), (trace steps c).getLast? = some (steps.foldl Step.run c)
  | [], c => rfl
  | step :: steps, c => by
    rw [trace, List.getLast?_cons, List.getLast?_append, getLast?_trace steps]
    rfl

/-- The steps in which a source is compiled. -/
def compiling (source : String) (c : Context) : List Step :=
  match parseSource source c with
  | .ok program _ => [.read source, .lower program]
  | .error .. => [.read source]

theorem foldl_compiling (source : String) (c : Context) :
    (compiling source c).foldl Step.run c = (buildSource source c).2 := by
  unfold compiling buildSource
  cases hparse : parseSource source c with
  | error fault c' => simp [Step.run, hparse, reached]
  | ok program c' => cases hgenerate : generate program c' <;> simp [Step.run, hparse, hgenerate, reached]

/-- The steps in which sources are compiled one after another. -/
def building : List String → Context → List Step
  | [], _ => []
  | source :: sources, c => compiling source c ++ building sources (buildSource source c).2

theorem foldl_building : ∀ (sources : List String) (c : Context),
    (building sources c).foldl Step.run c = (buildSources sources c).2
  | [], _ => rfl
  | source :: sources, c => by
    rw [building, List.foldl_append, foldl_compiling, foldl_building sources]
    rfl

end Session

/-! ## The invariant -/

/-- What holds of a context at every moment of a session. -/
structure Context.Valid (c : Context) : Prop where
  /-- Every global is stored under its own name. -/
  globals : ∀ s ∈ c.symbols.globals, c.symbols.global? s.name = some s ∧ s.scope = .global ∧ s.position = none
  /-- A function has a label below the counter that no other function has, and a namespace. -/
  functions : ∀ s ∈ c.symbols.globals, s.kind = .function →
    (∃ label, s.label = some label ∧ label < c.nextLabel ∧ ∀ s' ∈ c.symbols.globals, s'.label = some label → s' = s) ∧
    ∃ symbols, (s.name, symbols) ∈ c.symbols.namespaces
  /-- There is one namespace for a function, and none for anything else. -/
  namespaces : (c.symbols.namespaces.map (·.1)).Nodup ∧
    ∀ f symbols, (f, symbols) ∈ c.symbols.namespaces → ∃ s ∈ c.symbols.globals, s.name = f ∧ s.kind = .function
  values : ∀ s ∈ c.symbols.globals, s.kind ≠ .function → s.label = none ∧ s.ty ≠ .void
  arrays : ∀ s ∈ c.symbols.globals, s.kind = .array → 0 < s.count ∧ ∃ base, base ≠ Base.void ∧ s.ty = .pointer base
  /-- In a namespace, parameters come before locals, and every name stands once. -/
  members : ∀ f symbols, (f, symbols) ∈ c.symbols.namespaces →
    (∃ params locals, symbols = params ++ locals ∧ params.length ≤ 6 ∧
      (∀ s ∈ params, s.scope = .parameter ∧ s.kind = .variable) ∧ ∀ s ∈ locals, s.scope = .local) ∧
    (∀ s ∈ symbols, s.kind ≠ .function ∧ s.ty ≠ .void) ∧ (symbols.map (·.name)).Nodup

namespace SymbolTable

variable {t : SymbolTable}

theorem Arranged.global?_of_mem (h : t.Arranged) {s : Symbol} (hs : s ∈ t.globals) : t.global? s.name = some s := by
  cases hfound : t.global? s.name with
  | none => exact absurd (List.find?_eq_none.1 hfound s hs) (by simp)
  | some s' =>
    rw [List.inj_on_of_nodup_map h.names (List.mem_of_find?_eq_some hfound) hs (name_of_global? hfound)]

theorem Arranged.mem_namespaces (h : t.Arranged) {f : String} {symbols : List Symbol} :
    (f, symbols) ∈ t.namespaces ↔ t.namespace? f = some symbols := by
  unfold namespace?
  rw [List.lookup_eq_some_iff]
  constructor
  · intro hmem
    obtain ⟨before, after, heq⟩ := List.append_of_mem hmem
    refine ⟨before, after, heq, fun p hp => ?_⟩
    have hkeys := h.keys
    unfold SymbolTable.keys at hkeys
    rw [heq, List.map_append, List.nodup_append] at hkeys
    simpa using (hkeys.2.2 p.1 (List.mem_map_of_mem hp) f List.mem_cons_self).symm
  · rintro ⟨before, after, heq, -⟩
    rw [heq]
    simp

end SymbolTable

theorem Context.Tidy.valid {c : Context} (h : c.Tidy) : c.Valid := by
  have hsound : ∀ s ∈ c.symbols.globals, s.GlobalOk c.nextLabel := fun s hs =>
    h.sound.globals s.name s (h.arranged.global?_of_mem hs)
  refine ⟨fun s hs => ⟨h.arranged.global?_of_mem hs, (hsound s hs).scope, (hsound s hs).position⟩, fun s hs hkind => ⟨?_, ?_⟩,
    ⟨h.arranged.keys, fun f symbols hmem => ?_⟩, fun s hs hkind => ⟨(hsound s hs).unlabelled hkind, (hsound s hs).typed hkind⟩,
    fun s hs => (hsound s hs).array, fun f symbols hmem => ⟨?_, ?_, ?_⟩⟩
  · obtain ⟨label, hlabel⟩ := (hsound s hs).labelled hkind
    refine ⟨label, hlabel, (hsound s hs).drawn label hlabel, fun s' hs' hlabel' => ?_⟩
    have hfound := h.arranged.global?_of_mem hs
    have hfound' := h.arranged.global?_of_mem hs'
    have hname := h.sound.labels _ _ s' s label hfound' hfound hlabel' hlabel
    rw [hname] at hfound'
    cases hfound.symm.trans hfound'
    rfl
  · obtain ⟨symbols, hsymbols⟩ := (h.arranged.owners s.name).1 ⟨s, h.arranged.global?_of_mem hs, hkind⟩
    exact ⟨symbols, h.arranged.mem_namespaces.2 hsymbols⟩
  · obtain ⟨s, hs, hkind⟩ := (h.arranged.owners f).2 ⟨symbols, h.arranged.mem_namespaces.1 hmem⟩
    exact ⟨s, List.mem_of_find?_eq_some hs, SymbolTable.name_of_global? hs, hkind⟩
  · have hok := h.sound.namespaces f symbols (h.arranged.mem_namespaces.1 hmem)
    obtain ⟨params, locals, rfl, hparams, hlocals⟩ := h.arranged.ordered f symbols (h.arranged.mem_namespaces.1 hmem)
    have hvariable : ∀ s ∈ params, s.scope = .parameter ∧ s.kind = .variable := fun s hs =>
      ⟨hparams s hs, (hok.members s (List.mem_append_left _ hs)).param (hparams s hs)⟩
    refine ⟨params, locals, rfl, ?_, hvariable, hlocals⟩
    have hlimit := hok.limit
    rw [List.filter_append, List.length_append, List.filter_eq_self.2 fun s hs => by simp [hparams s hs]] at hlimit
    exact Nat.le_trans (Nat.le_add_right _ _) hlimit
  · intro s hs
    have hok := (h.sound.namespaces f symbols (h.arranged.mem_namespaces.1 hmem)).members s hs
    exact ⟨hok.kind, hok.typed⟩
  · exact (h.sound.namespaces f symbols (h.arranged.mem_namespaces.1 hmem)).names

/-- **Contexts of a session.** At every moment of a session, whatever has failed before, the context is valid. A later
context has every global of an earlier one, of the same kind, type, label and count, and defined if it was; and it has
the symbols of every function that was defined, the same ones in the same order but for their positions. -/
theorem session_contexts :
    (∀ steps : List Session.Step, (∀ c ∈ Session.trace steps {}, c.Valid) ∧
      (Session.trace steps {}).Pairwise fun c c' =>
        (∀ s ∈ c.symbols.globals, ∃ s' ∈ c'.symbols.globals, s'.name = s.name ∧ s'.kind = s.kind ∧ s'.ty = s.ty ∧
          s'.label = s.label ∧ s'.count = s.count ∧ (s.defined = true → s'.defined = true)) ∧
        ∀ s ∈ c.symbols.globals, s.defined = true →
          (c'.symbols.members s.name).map ({ · with position := none }) =
            (c.symbols.members s.name).map ({ · with position := none })) ∧
    ∀ sources : List String,
      (Session.trace (Session.building sources {}) {}).getLast? = some (buildSources sources {}).2 := by
  refine ⟨fun steps => ?_, fun sources => ?_⟩
  · obtain ⟨hleads, hpairwise⟩ := Session.trace_pairwise steps Context.tidy_empty
    have htidy : ∀ c ∈ Session.trace steps {}, c.Tidy := fun c hc => (hleads c hc).tidy
    refine ⟨fun c hc => (htidy c hc).valid, hpairwise.imp_of_mem fun {c c'} hc _ h => ⟨fun s hs => ?_, fun s hs hdefined => ?_⟩⟩
    · obtain ⟨s', hs', hcore, hkept⟩ := h.preserved.globals s.name s ((htidy c hc).arranged.global?_of_mem hs)
      exact ⟨s', List.mem_of_find?_eq_some hs', SymbolTable.name_of_global? hs', Symbol.kind_of_core hcore,
        Symbol.ty_of_core hcore, (congrArg Symbol.label hcore :), Symbol.count_of_core hcore, hkept⟩
    · exact h.preserved.members s.name ⟨s, (htidy c hc).arranged.global?_of_mem hs, hdefined⟩
  · rw [Session.getLast?_trace, Session.foldl_building]

/-- A definition that fails leaves its parameters and locals behind, and a later source that fails does not change them. -/
theorem session_contexts_interrupted :
    let sources := ["func f(int a) -> int; global int g[3];", "func f(int b) -> int \x7b var int x; return y; \x7d",
      "func h(long p) -> int \x7b return g[f(1)] + p; \x7d func f(int c) -> int \x7b return c; \x7d"]
    let last := (buildSources sources {}).2
    last ∈ Session.trace (Session.building sources {}) {} ∧ last.Valid ∧
      (last.symbols.members "f").map (·.name) = ["b", "x"] ∧ last.symbols.global? "h" ≠ none := by
  intro sources last
  have hlast : last ∈ Session.trace (Session.building sources {}) {} := List.mem_of_getLast? (session_contexts.2 sources)
  refine ⟨hlast, (session_contexts.1 _).1 last hlast, ?_, ?_⟩ <;> decide +kernel

end MiniC
