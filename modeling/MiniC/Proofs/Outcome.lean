import MiniC.Parse.State

/-!
# What holds where a computation ends

`Ends x s Q E` says of work `x` on a state `s` that it ends with a value and a state in `Q`, or with a fault and a state
in `E`; `Parse.Result.Ends` says the same of the result of a parser. One lemma for each way of putting computations
together (`ends_bind`, `ends_forM`, `Parse.Result.ends_bind`, …), so that proofs about the stages follow their text.
`Alike x y s R` compares two computations on one state: both meet the same fault, or both end, in `R`.
-/

namespace MiniC

section Work

variable {ε σ α β : Type} {s : σ} {Q : β → σ → Prop} {E : ε → σ → Prop}

/-- `x` ends in `Q` with a value, or in `E` with a fault. -/
def Ends (x : EStateM ε σ α) (s : σ) (Q : α → σ → Prop) (E : ε → σ → Prop) : Prop :=
  match x s with
  | .ok a t => Q a t
  | .error fault t => E fault t

theorem ends_bind {x : EStateM ε σ α} {f : α → EStateM ε σ β} {P : α → σ → Prop} (hx : Ends x s P E)
    (hf : ∀ a t, P a t → Ends (f a) t Q E) : Ends (x >>= f) s Q E := by
  unfold Ends at hx ⊢
  show match EStateM.bind x f s with
    | .ok a t => Q a t
    | .error fault t => E fault t
  unfold EStateM.bind
  cases h : x s with
  | ok a t => rw [h] at hx; exact hf a t hx
  | error fault t => rw [h] at hx; exact hx

/-- Two steps succeed if each does. -/
theorem bind_eq_ok {x : EStateM ε σ α} {f : α → EStateM ε σ β} {b : β} {u : σ} :
    (x >>= f) s = .ok b u ↔ ∃ a t, x s = .ok a t ∧ f a t = .ok b u := by
  show EStateM.bind x f s = _ ↔ _
  unfold EStateM.bind
  cases x s with
  | ok a t =>
    refine ⟨fun h => ⟨a, t, rfl, h⟩, ?_⟩
    rintro ⟨_, _, h, hf⟩
    cases h
    exact hf
  | error fault t => simp

theorem ends_mono {x : EStateM ε σ α} {P Q : α → σ → Prop} {D : ε → σ → Prop} (hx : Ends x s P D)
    (hq : ∀ a t, P a t → Q a t) (he : ∀ fault t, D fault t → E fault t) : Ends x s Q E := by
  unfold Ends at hx ⊢
  cases h : x s with
  | ok a t => rw [h] at hx; exact hq a t hx
  | error fault t => rw [h] at hx; exact he fault t hx

theorem ends_and {x : EStateM ε σ β} {P : β → σ → Prop} {D : ε → σ → Prop} (hp : Ends x s P D) (hq : Ends x s Q E) :
    Ends x s (fun b t => P b t ∧ Q b t) (fun fault t => D fault t ∧ E fault t) := by
  unfold Ends at hp hq ⊢
  cases h : x s <;> rw [h] at hp hq <;> exact ⟨hp, hq⟩

theorem ends_map {x : EStateM ε σ α} {f : α → β} (hx : Ends x s (fun a t => Q (f a) t) E) : Ends (f <$> x) s Q E := by
  unfold Ends at hx ⊢
  show match EStateM.map f x s with
    | .ok b t => Q b t
    | .error fault t => E fault t
  unfold EStateM.map
  cases h : x s with
  | ok a t => rw [h] at hx; exact hx
  | error fault t => rw [h] at hx; exact hx

theorem ends_pure {b : β} (h : Q b s) : Ends (pure b) s Q E := h

theorem ends_get_bind {f : σ → EStateM ε σ β} (h : Ends (f s) s Q E) : Ends (get >>= f) s Q E := h

theorem ends_modify {f : σ → σ} {P : PUnit → σ → Prop} (h : P ⟨⟩ (f s)) : Ends (modify f) s P E := h

/-- A fact that every round keeps holds after all rounds; `I` may speak about the items that are left. -/
theorem ends_forM {f : α → EStateM ε σ PUnit} {I : List α → σ → Prop}
    (step : ∀ a as t, I (a :: as) t → Ends (f a) t (fun _ u => I as u) E) :
    ∀ (as : List α) (t : σ), I as t → Ends (as.forM f) t (fun _ u => I [] u) E
  | [], _, h => h
  | a :: as, t, h => by
    show Ends (f a >>= fun _ => as.forM f) t _ E
    exact ends_bind (step a as t h) fun _ u hu => ends_forM step as u hu

/-- The value and the state that are left, if there is no fault. -/
def ended : EStateM.Result ε σ α → Option (α × σ)
  | .ok a t => some (a, t)
  | .error .. => none

theorem eq_ok_of_ended {result : EStateM.Result ε σ α} {a : α} {t : σ} (h : ended result = some (a, t)) :
    result = .ok a t := by
  cases result with
  | ok =>
    cases h
    rfl
  | error => cases h

theorem exists_of_ended {result : EStateM.Result ε σ α} (h : (ended result).isSome = true) :
    ∃ a t, result = .ok a t := by
  cases result with
  | ok a t => exact ⟨a, t, rfl⟩
  | error fault t => cases h

theorem exists_of_ended_any {result : EStateM.Result ε σ α} {p : α → Bool} (h : (ended result).any (p ·.1) = true) :
    ∃ a t, result = .ok a t ∧ p a = true := by
  cases result with
  | ok a t => exact ⟨a, t, rfl, h⟩
  | error fault t => cases h

theorem ends_of_ok {x : EStateM ε σ α} {P : α → σ → Prop} {a : α} {t : σ} (hx : Ends x s P E) (h : x s = .ok a t) :
    P a t := by
  unfold Ends at hx
  rwa [h] at hx

theorem ends_of_error {x : EStateM ε σ α} {P : α → σ → Prop} {fault : ε} {t : σ} (hx : Ends x s P E)
    (h : x s = .error fault t) : E fault t := by
  unfold Ends at hx
  rwa [h] at hx

end Work

/-! ## Computations that start alike -/

section Alike

variable {ε σ α β γ : Type} {s : σ} {R : α → σ → β → σ → Prop}

/-- On the state `s`, `x` and `y` end with the same fault, or with values and states in `R`. -/
def Alike (x : EStateM ε σ α) (y : EStateM ε σ β) (s : σ) (R : α → σ → β → σ → Prop) : Prop :=
  match x s, y s with
  | .ok a t, .ok b u => R a t b u
  | .error fault _, .error fault' _ => fault = fault'
  | _, _ => False

theorem alike_cases {x : EStateM ε σ α} {y : EStateM ε σ β} (h : Alike x y s R) :
    (∃ a t b u, x s = .ok a t ∧ y s = .ok b u ∧ R a t b u) ∨
      ∃ fault t u, x s = .error fault t ∧ y s = .error fault u := by
  unfold Alike at h
  cases hx : x s <;> cases hy : y s <;> rw [hx, hy] at h
  · exact .inl ⟨_, _, _, _, rfl, rfl, h⟩
  · cases h
  · cases h
  · cases h
    exact .inr ⟨_, _, _, rfl, rfl⟩

/-- What goes on in two ways after one and the same start. -/
theorem alike_bind {x : EStateM ε σ γ} {f : γ → EStateM ε σ α} {g : γ → EStateM ε σ β} {P : γ → σ → Prop}
    {E : ε → σ → Prop} (hx : Ends x s P E) (h : ∀ c t, P c t → Alike (f c) (g c) t R) :
    Alike (x >>= f) (x >>= g) s R := by
  unfold Ends at hx
  unfold Alike
  show match EStateM.bind x f s, EStateM.bind x g s with
    | .ok a t, .ok b u => R a t b u
    | .error fault _, .error fault' _ => fault = fault'
    | _, _ => False
  unfold EStateM.bind
  cases hc : x s with
  | ok c t =>
    rw [hc] at hx
    exact h c t hx
  | error fault t => rfl

/-- Two ways to go on that meet no fault. -/
theorem alike_of_ends {x : EStateM ε σ α} {y : EStateM ε σ β} {P : α → σ → Prop} {Q : β → σ → Prop}
    (hx : Ends x s P fun _ _ => False) (hy : Ends y s Q fun _ _ => False) (h : ∀ a t b u, P a t → Q b u → R a t b u) :
    Alike x y s R := by
  unfold Ends at hx hy
  unfold Alike
  cases hx' : x s <;> cases hy' : y s <;> rw [hx'] at hx <;> rw [hy'] at hy
  · exact h _ _ _ _ hx hy
  all_goals first | cases hx | cases hy

end Alike

namespace Parse

namespace Result

variable {m n : Nat} {α β : Type} {Q : β → State → Prop} {E : Fault → State → Prop}

/-- The result is a value and a state in `Q`, or a fault and a state in `E`. -/
def Ends (r : Result n α) (Q : α → State → Prop) (E : Fault → State → Prop) : Prop :=
  match r with
  | ok a s _ => Q a s
  | fail fault s => E fault s

theorem ends_relax {r : Result m β} (h : r.Ends Q E) : r.relax.Ends Q E := by
  cases r <;> exact h

theorem ends_bind {r : Result m α} {k : α → (s : State) → s.size < m → Result (s.size + 1) β}
    {P : α → State → Prop} (hr : r.Ends P E) (hk : ∀ a s h, P a s → (k a s h).Ends Q E) : (r.bind k).Ends Q E := by
  cases r with
  | fail fault last => exact hr
  | ok a s h =>
    have hk := hk a s h hr
    unfold bind
    simp only
    cases hres : k a s h <;> rw [hres] at hk <;> exact hk

theorem ends_andThen {r : Result m α} {k : α → (s : State) → s.size < m → Result (s.size + 1) β}
    {P : α → State → Prop} (hr : r.Ends P E) (hk : ∀ a s h, P a s → (k a s h).Ends Q E) : (r.andThen k).Ends Q E :=
  ends_relax (ends_bind hr hk)

theorem ends_mono {r : Result m β} {P : β → State → Prop} {D : Fault → State → Prop} (hr : r.Ends P D)
    (hq : ∀ b s, P b s → Q b s) (he : ∀ fault s, D fault s → E fault s) : r.Ends Q E := by
  cases r with
  | ok b s h => exact hq b s hr
  | fail fault s => exact he fault s hr

theorem ends_and {r : Result m β} {P : β → State → Prop} (hp : r.Ends P E) (hq : r.Ends Q E) :
    r.Ends (fun b s => P b s ∧ Q b s) E := by
  cases r with
  | ok b s h => exact ⟨hp, hq⟩
  | fail fault s => exact hp

end Result

section Reading

variable {m : Nat} {α β : Type} {Q : β → State → Prop} {E : Fault → State → Prop} {s : State}

theorem Taken.ends_bind {t : Taken m α} {k : α → (s : State) → s.size < m → Result (s.size + 1) β}
    (h : (k t.value t.next t.shorter).Ends Q E) : (t.bind k).Ends Q E := by
  unfold Taken.bind Result.bind
  simp only
  cases hres : k t.value t.next t.shorter <;> rw [hres] at h <;> exact h

theorem Taken.ends_andThen {t : Taken m α} {k : α → (s : State) → s.size < m → Result (s.size + 1) β}
    (h : (k t.value t.next t.shorter).Ends Q E) : (t.andThen k).Ends Q E := Result.ends_relax (Taken.ends_bind h)

/-- Reading a token leaves the context alone. -/
theorem context_of_take {read : Token → Option α} {t : Taken s.size α} (h : s.take? read = some t) :
    t.next.context = s.context := by
  obtain ⟨tokens, lastLine, context⟩ := s
  cases tokens with
  | nil => cases h
  | cons token rest =>
    obtain ⟨a, -, rfl⟩ := Option.map_eq_some_iff.1 h
    rfl

/-- The token that was read is the first of those that were left. -/
theorem read_of_take {read : Token → Option α} {t : Taken s.size α} (h : s.take? read = some t) :
    ∃ token, s.tokens.head? = some token ∧ read token = some t.value := by
  obtain ⟨tokens, lastLine, context⟩ := s
  cases tokens with
  | nil => cases h
  | cons token rest =>
    obtain ⟨a, ha, rfl⟩ := Option.map_eq_some_iff.1 h
    exact ⟨token, rfl, ha⟩

theorem context_of_accept {terminal : Terminal} {t : Taken s.size Unit} (h : s.accept? terminal = some t) :
    t.next.context = s.context := context_of_take h

theorem ends_need {read : Token → Option β} {cause : String → GrammarFault}
    (hq : ∀ token b next, s.tokens.head? = some token → read token = some b → next.context = s.context → Q b next)
    (he : ∀ fault, E fault s) : (s.need read cause).Ends Q E := by
  unfold State.need
  cases h : s.take? read with
  | none => exact he _
  | some t =>
    obtain ⟨token, hhead, hread⟩ := read_of_take h
    exact hq token t.value t.next hhead hread (context_of_take h)

theorem ends_expect {terminal : Terminal} {Q : Unit → State → Prop} (hq : ∀ next, next.context = s.context → Q () next)
    (he : ∀ fault, E fault s) : (s.expect terminal).Ends Q E :=
  ends_need (fun _ _ next _ _ h => hq next h) he

theorem ends_demand {line : Nat} {verdict : Except SemanticFault α} {k : α → Result m β}
    (hk : ∀ a, verdict = .ok a → (k a).Ends Q E) (he : ∀ fault, E fault s) :
    (s.demand line verdict k).Ends Q E := by
  cases verdict with
  | ok a => exact hk a rfl
  | error cause => exact he _

theorem ends_perform {work : CompileM β} {P : β → Context → Prop} {D : Fault → Context → Prop}
    (h : Ends work s.context P D) :
    (s.perform work).Ends (fun b next => P b next.context) (fun fault last => D fault last.context) := by
  unfold Ends at h
  unfold State.perform
  cases hw : work s.context <;> rw [hw] at h <;> exact h

end Reading

end Parse

end MiniC
