import MiniC.Proofs.Grammar
import MiniC.Proofs.Outcome

/-!
# Parsers that read a language

`Reads L follow shows ts r` says of the result `r` of a parser that was run on the tokens `ts`, against a language `L`
of which each word is followed by what `follow` allows:

* a success has read a word of `L` that denotes what the value shows, and no other word of `L` goes on with the token
  that comes next;
* a grammatical failure is one that every word of `L` would make: none starts with what was read and goes on with the
  token at which the parser gave up. Other failures are left open.

There is one lemma for each way of putting parsers together (`reads_bind`, `reads_taken`, `reads_demand`, …), each with
the language that belongs to it, and `Reads.of` replaces that language by an equal one: equal as far as the next token
can tell.
-/

namespace MiniC

/-! ## Languages of combined parsers -/

namespace Language

variable {T U : Type}

/-- The empty word alone. -/
def just (x : T) : Language T := fun w y => w = [] ∧ y = x

/-- One token that can be read so. -/
def token (read : Token → Option T) : Language T := fun w x => ∃ t, w = [t] ∧ read t = some x

/-- One given keyword or punctuator. -/
def the (terminal : Terminal) : Language Unit := fun w _ => ∃ t, w = [t] ∧ t.is terminal

/-- A word of `L`, then one of a language that depends on what the first denotes. -/
def seq (L : Language T) (K : T → Language U) : Language U := fun w z => ∃ u v x, w = u ++ v ∧ L u x ∧ K x v z

/-- The words that start with one given token. -/
def after (t : Token) (K : Language T) : Language T := fun w y => ∃ v, w = t :: v ∧ K v y

end Language

namespace Parse

/-! ## Progress through the tokens -/

section Progress

variable {ts rest us v w : List Token}

/-- The tokens `w` have been read, the end mark not among them, and `rest` is left. -/
structure Consumed (ts w rest : List Token) : Prop where
  split : ts = w ++ rest
  inside : ∀ t ∈ w, t.kind ≠ .eof

/-- `us` starts with `w` and goes on with the first token of `rest`. -/
def Meets (w rest us : List Token) : Prop := ∃ t us', rest.head? = some t ∧ us = w ++ t :: us'

theorem Consumed.nil (ts : List Token) : Consumed ts [] ts := ⟨rfl, by simp⟩

theorem Consumed.trans (h : Consumed ts v us) (h' : Consumed us w rest) : Consumed ts (v ++ w) rest := by
  refine ⟨by rw [h.split, h'.split, List.append_assoc], fun t ht => ?_⟩
  rcases List.mem_append.1 ht with ht | ht
  · exact h.inside t ht
  · exact h'.inside t ht

/-- What agrees with all that was read agrees with the first part of it and the token after that. -/
theorem Meets.first (hc : Consumed ts w rest) (h : Meets (v ++ w) rest us) : Meets v ts us := by
  obtain ⟨t, us', ht, rfl⟩ := h
  rw [hc.split]
  cases w with
  | nil => exact ⟨t, us', by simpa using ht, by simp⟩
  | cons t' w => exact ⟨t', w ++ t :: us', rfl, by simp⟩

theorem Meets.start (hc : Consumed ts w rest) (h : Meets w rest us) : Meets [] ts us :=
  Meets.first (v := []) hc h

/-- A word that agrees with the tokens starts with the next one. -/
theorem Meets.next (h : Meets [] ts us) : ts.head? = us.head? := by
  obtain ⟨t, us', ht, rfl⟩ := h
  exact ht

theorem Meets.head? {t : Token} (h : Meets [] ts (t :: us)) : ts.head? = some t := h.next

theorem Meets.head {t t' : Token} (h : Meets [] ts (t' :: us)) (hts : ts = t :: rest) : t' = t := by
  have hhead := h.head?
  rw [hts] at hhead
  exact (Option.some.inj hhead).symm

theorem meets_append : Meets (v ++ w) rest (v ++ us) ↔ Meets w rest us := by
  constructor
  · rintro ⟨t, us', ht, h⟩
    exact ⟨t, us', ht, List.append_cancel_left (h.trans (List.append_assoc ..))⟩
  · rintro ⟨t, us', ht, rfl⟩
    exact ⟨t, us', ht, by simp⟩

theorem meets_cons {t : Token} : Meets (t :: w) rest (t :: us) ↔ Meets w rest us := meets_append (v := [t])

end Progress

/-! ## The judgement -/

section Judgement

variable {m n : Nat} {α β T U : Type} {L M : Language T} {shows : α → T} {ts : List Token} {s : State}

/-- What may come after a word that denotes `x`. -/
abbrev Follow (T : Type) := T → List Token → Prop

/-- Whether the language is to blame for a failure after `w` with `rest` left. -/
def Blamed (L : Language T) (follow : Follow T) (w rest : List Token) : Fault → Prop
  | .grammar .. => ∀ u y v, L u y → follow y v → ¬ Meets w rest (u ++ v)
  | .lexical .. => ∃ t, rest.head? = some t ∧ t.kind = .string ∧ ∀ bytes, Literal.stringBytes t.text ≠ .ok bytes
  | .semantic .. => True
  | .outOfRegisters _ | .internal _ => False

/-- The word that was read: it denotes `x`, and it is the only one that agrees with the tokens. -/
structure Word (L : Language T) (follow : Follow T) (ts w : List Token) (x : T) (rest : List Token) : Prop where
  consumed : Consumed ts w rest
  derived : L w x
  only : ∀ u y v, L u y → follow y v → Meets w rest (u ++ v) → u = w ∧ y = x

/-- A parser run on `ts` reads the language `L`. -/
def Reads (L : Language T) (follow : Follow T) (shows : α → T) (ts : List Token) (r : Result n α) : Prop :=
  r.Ends (fun a s' => ∃ w, Word L follow ts w (shows a) s'.tokens)
    (fun fault last => ∃ w, Consumed ts w last.tokens ∧ Blamed L follow w last.tokens fault)

variable {follow : Follow T}

theorem Reads.derives {r : Result n α} (h : Reads L follow shows ts r) :
    r.Ends (fun a _ => ∃ w, L w (shows a)) (fun _ _ => True) :=
  Result.ends_mono h (fun _ _ ⟨w, hw⟩ => ⟨w, hw.derived⟩) fun _ _ _ => trivial

/-- The language of a parser may be replaced by one with the same words, as far as these go on with the next token. -/
theorem Reads.of {r : Result n α} (h : Reads M follow shows ts r) (sound : ∀ w x, M w x → L w x)
    (complete : ∀ u y v, L u y → follow y v → Meets [] ts (u ++ v) → M u y) : Reads L follow shows ts r := by
  refine Result.ends_mono h ?_ ?_
  · rintro a s' ⟨w, hw⟩
    refine ⟨w, hw.consumed, sound w _ hw.derived, fun u y v hu hv hmeets => ?_⟩
    exact hw.only u y v (complete u y v hu hv (hmeets.start hw.consumed)) hv hmeets
  · rintro fault last ⟨w, hc, hb⟩
    refine ⟨w, hc, ?_⟩
    cases fault with
    | grammar line cause =>
      exact fun u y v hu hv hmeets => hb u y v (complete u y v hu hv (hmeets.start hc)) hv hmeets
    | lexical line cause | semantic line cause | outOfRegisters line | internal cause => exact hb

/-- Less may come after the words. -/
theorem Reads.following {r : Result n α} {follow' : Follow T} (h : Reads L follow shows ts r)
    (hf : ∀ x v, follow' x v → follow x v) : Reads L follow' shows ts r := by
  refine Result.ends_mono h ?_ ?_
  · rintro a s' ⟨w, hw⟩
    exact ⟨w, hw.consumed, hw.derived, fun u y v hu hv => hw.only u y v hu (hf y v hv)⟩
  · rintro fault last ⟨w, hc, hb⟩
    refine ⟨w, hc, ?_⟩
    cases fault with
    | grammar line cause => exact fun u y v hu hv => hb u y v hu (hf y v hv)
    | lexical line cause | semantic line cause | outOfRegisters line | internal cause => exact hb

/-- A failure of a first part is one of the whole. -/
theorem Blamed.seq {K : T → Language U} {follow' : Follow U} {w rest : List Token} {fault : Fault}
    (h : Blamed L follow w rest fault) (hf : ∀ x u y v, K x u y → follow' y v → follow x (u ++ v)) :
    Blamed (L.seq K) follow' w rest fault := by
  cases fault with
  | grammar line cause =>
    rintro _ y v ⟨u₁, u₂, x, rfl, hu₁, hu₂⟩ hv hmeets
    exact h u₁ x (u₂ ++ v) hu₁ (hf x u₂ y v hu₂ hv) (by rwa [List.append_assoc] at hmeets)
  | lexical line cause | semantic line cause | outOfRegisters line | internal cause => exact h

/-- **Sequences.** The second parser goes on after the only word that the first can have read. -/
theorem reads_bind {r : Result m α} {k : α → (s : State) → s.size < m → Result (s.size + 1) β} {K : T → Language U}
    {F : Follow T} {G : Follow U} {shows' : β → U} (hr : Reads L F shows ts r)
    (hk : ∀ a s h, r = .ok a s h → Reads (K (shows a)) G shows' s.tokens (k a s h))
    (hf : ∀ x u y v, K x u y → G y v → F x (u ++ v)) : Reads (L.seq K) G shows' ts (r.bind k) := by
  cases r with
  | fail fault last =>
    obtain ⟨w, hc, hb⟩ := hr
    exact ⟨w, hc, hb.seq hf⟩
  | ok a s₁ h₁ =>
    obtain ⟨w₁, hw₁⟩ := hr
    have hk := hk a s₁ h₁ rfl
    -- a word of the sequence that agrees with the tokens has `w₁` as its first part
    have hfirst : ∀ u₁ x u₂ y v w rest, L u₁ x → K x u₂ y → G y v → Consumed s₁.tokens w rest →
        Meets (w₁ ++ w) rest (u₁ ++ u₂ ++ v) → u₁ = w₁ ∧ x = shows a ∧ Meets w rest (u₂ ++ v) := by
      intro u₁ x u₂ y v w rest hu₁ hu₂ hv hc hmeets
      rw [List.append_assoc] at hmeets
      obtain ⟨rfl, rfl⟩ := hw₁.only u₁ x (u₂ ++ v) hu₁ (hf x u₂ y v hu₂ hv) (hmeets.first hc)
      exact ⟨rfl, rfl, meets_append.1 hmeets⟩
    unfold Result.bind
    simp only
    cases hres : k a s₁ h₁ with
    | ok b s₂ h₂ =>
      rw [hres] at hk
      obtain ⟨w₂, hw₂⟩ := hk
      refine ⟨w₁ ++ w₂, hw₁.consumed.trans hw₂.consumed, ⟨w₁, w₂, shows a, rfl, hw₁.derived, hw₂.derived⟩, ?_⟩
      rintro _ y v ⟨u₁, u₂, x, rfl, hu₁, hu₂⟩ hv hmeets
      obtain ⟨rfl, rfl, hmeets⟩ := hfirst u₁ x u₂ y v w₂ _ hu₁ hu₂ hv hw₂.consumed hmeets
      obtain ⟨rfl, rfl⟩ := hw₂.only u₂ y v hu₂ hv hmeets
      exact ⟨rfl, rfl⟩
    | fail fault last =>
      rw [hres] at hk
      obtain ⟨w₂, hc, hb⟩ := hk
      refine ⟨w₁ ++ w₂, hw₁.consumed.trans hc, ?_⟩
      cases fault with
      | grammar line cause =>
        rintro _ y v ⟨u₁, u₂, x, rfl, hu₁, hu₂⟩ hv hmeets
        obtain ⟨rfl, rfl, hmeets⟩ := hfirst u₁ x u₂ y v w₂ _ hu₁ hu₂ hv hc hmeets
        exact hb u₂ y v hu₂ hv hmeets
      | lexical line cause | semantic line cause | outOfRegisters line | internal cause => exact hb

theorem reads_relax {r : Result m α} (h : Reads L follow shows ts r) : Reads L follow shows ts r.relax :=
  Result.ends_relax h

theorem reads_andThen {r : Result m α} {k : α → (s : State) → s.size < m → Result (s.size + 1) β} {K : T → Language U}
    {F : Follow T} {G : Follow U} {shows' : β → U} (hr : Reads L F shows ts r)
    (hk : ∀ a s h, r = .ok a s h → Reads (K (shows a)) G shows' s.tokens (k a s h))
    (hf : ∀ x u y v, K x u y → G y v → F x (u ++ v)) :
    Reads (L.seq K) G shows' ts (r.andThen k) := reads_relax (reads_bind hr hk hf)

/-- Nothing more to read. -/
theorem reads_done (shows : α → T) (a : α) (s : State) : Reads (.just (shows a)) follow shows s.tokens (.done a s) := by
  refine ⟨[], .nil _, ⟨rfl, rfl⟩, ?_⟩
  rintro u y v ⟨rfl, rfl⟩ _ _
  exact ⟨rfl, rfl⟩

/-! ## Single tokens -/

/-- What a token that was read says of the tokens. -/
theorem tokens_of_take {read : Token → Option α} {t : Taken s.size α} (h : s.take? read = some t) :
    ∃ token, s.tokens = token :: t.next.tokens ∧ read token = some t.value := by
  obtain ⟨tokens, lastLine, context⟩ := s
  cases tokens with
  | nil => cases h
  | cons token rest =>
    obtain ⟨a, ha, rfl⟩ := Option.map_eq_some_iff.1 h
    exact ⟨token, rfl, ha⟩

/-- No token that comes next can be read so. -/
theorem unread_of_take {read : Token → Option α} (h : s.take? read = none) {t : Token}
    (ht : s.tokens.head? = some t) : read t = none := by
  obtain ⟨tokens, lastLine, context⟩ := s
  cases tokens with
  | nil => cases ht
  | cons token rest =>
    cases ht
    exact Option.map_eq_none_iff.1 h

theorem tokens_of_accept {terminal : Terminal} {t : Taken s.size Unit} (h : s.accept? terminal = some t) :
    ∃ token, s.tokens = token :: t.next.tokens ∧ token.is terminal := by
  obtain ⟨token, htokens, hread⟩ := tokens_of_take h
  exact ⟨token, htokens, by simpa using hread⟩

theorem unread_of_accept {terminal : Terminal} (h : s.accept? terminal = none) {t : Token}
    (ht : s.tokens.head? = some t) : t.is terminal = false := by
  have hread := unread_of_take h ht
  simpa using hread

theorem unread_of_sees {terminal : Terminal} (h : ¬ s.sees terminal = true) {t : Token} (ht : s.tokens.head? = some t) :
    t.is terminal = false := by
  simpa [State.sees, ht] using h

theorem Meets.unread {read : Token → Option α} {t : Token} {us : List Token} (hmeets : Meets [] s.tokens (t :: us))
    (h : s.take? read = none) : read t = none := unread_of_take h hmeets.head?

/-- No word starts with a token that does not come next. -/
theorem Meets.unaccepted {terminal : Terminal} {t : Token} {us : List Token} (hmeets : Meets [] s.tokens (t :: us))
    (h : s.accept? terminal = none) : ¬ t.is terminal := by
  simp [unread_of_accept h hmeets.head?]

theorem kind_of_is {t : Token} {terminal : Terminal} (h : t.is terminal) : t.kind ≠ .eof := by
  cases terminal <;> simp_all [Token.is]

/-- A token that was found, and what is read after it. -/
theorem reads_taken {t : Taken m α} {k : α → (s : State) → s.size < m → Result (s.size + 1) β} {K : Language U}
    {follow : Follow U} {shows : β → U} {token : Token} (htokens : ts = token :: t.next.tokens)
    (hkind : token.kind ≠ .eof) (hk : Reads K follow shows t.next.tokens (k t.value t.next t.shorter)) :
    Reads (.after token K) follow shows ts (t.bind k) := by
  have hone : Consumed ts [token] t.next.tokens := ⟨htokens, by simpa using hkind⟩
  unfold Taken.bind Result.bind
  simp only
  cases hres : k t.value t.next t.shorter with
  | ok b s₂ h₂ =>
    rw [hres] at hk
    obtain ⟨w, hw⟩ := hk
    refine ⟨token :: w, hone.trans hw.consumed, ⟨w, rfl, hw.derived⟩, ?_⟩
    rintro _ y v ⟨u, rfl, hu⟩ hv hmeets
    obtain ⟨rfl, rfl⟩ := hw.only u y v hu hv (meets_cons.1 hmeets)
    exact ⟨rfl, rfl⟩
  | fail fault last =>
    rw [hres] at hk
    obtain ⟨w, hc, hb⟩ := hk
    refine ⟨token :: w, hone.trans hc, ?_⟩
    cases fault with
    | grammar line cause =>
      rintro _ y v ⟨u, rfl, hu⟩ hv hmeets
      exact hb u y v hu hv (meets_cons.1 hmeets)
    | lexical line cause | semantic line cause | outOfRegisters line | internal cause => exact hb

/-- A grammatical failure on the spot: no word starts with the next token. -/
theorem reads_refused {line : Nat} {cause : GrammarFault}
    (h : ∀ u y v, L u y → follow y v → ¬ Meets [] s.tokens (u ++ v)) :
    Reads L follow shows s.tokens (.fail (.grammar line cause) s : Result n α) := ⟨[], .nil _, h⟩

theorem reads_need {read : Token → Option T} {cause : String → GrammarFault}
    (hread : ∀ t a, read t = some a → t.kind ≠ .eof) :
    Reads (.token read) follow id s.tokens (s.need read cause) := by
  unfold State.need
  cases h : s.take? read with
  | none =>
    refine reads_refused ?_
    rintro _ y v ⟨t, rfl, hy⟩ - ⟨t', us', ht', hus⟩
    cases hus
    rw [unread_of_take h ht'] at hy
    cases hy
  | some t =>
    obtain ⟨token, htokens, hvalue⟩ := tokens_of_take h
    refine ⟨[token], ⟨htokens, by simpa using hread token _ hvalue⟩, ⟨token, rfl, hvalue⟩, ?_⟩
    rintro _ y v ⟨t', rfl, hy⟩ - ⟨t'', us', ht'', hus⟩
    cases hus
    exact ⟨rfl, Option.some.inj (hy.symm.trans hvalue)⟩

theorem reads_expect {follow : Follow Unit} {terminal : Terminal} :
    Reads (.the terminal) follow id s.tokens (s.expect terminal) := by
  refine Reads.of (M := .token fun t => if t.is terminal then some () else none) (reads_need ?_) ?_ ?_
  · intro t a ha
    have ht : t.is terminal := by simpa using ha
    exact kind_of_is ht
  · rintro w x ⟨t, rfl, ht⟩
    exact ⟨t, rfl, by simpa using ht⟩
  · rintro u y v ⟨t, rfl, ht⟩ - -
    exact ⟨t, rfl, by simp [ht]⟩

/-! ## Between two tokens -/

theorem reads_demand {line : Nat} {verdict : Except SemanticFault β} {k : β → Result n α}
    (hk : ∀ b, verdict = .ok b → Reads L follow shows s.tokens (k b)) :
    Reads L follow shows s.tokens (s.demand line verdict k) := by
  cases verdict with
  | ok b => exact hk b rfl
  | error cause => exact ⟨[], .nil _, trivial⟩

/-- Work on the context reads nothing; it may break a rule. -/
theorem reads_perform {work : CompileM β} {k : β → (s' : State) → s'.size < s.size + 1 → Result (s'.size + 1) α}
    (hwork : Ends work s.context (fun _ _ => True) (fun fault _ => ∃ line cause, fault = .semantic line cause))
    (hk : ∀ b s' h, s'.tokens = s.tokens → Reads L follow shows s.tokens (k b s' h)) :
    Reads L follow shows s.tokens ((s.perform work).bind k) := by
  unfold State.perform
  unfold Ends at hwork
  cases hres : work s.context with
  | ok b context =>
    have hk := hk b { s with context } (Nat.lt_succ_self _) rfl
    unfold Result.bind
    simp only
    cases hk' : k b { s with context } (Nat.lt_succ_self _) <;> rw [hk'] at hk <;> exact hk
  | error fault context =>
    rw [hres] at hwork
    obtain ⟨line, cause, rfl⟩ := hwork
    exact ⟨[], .nil _, trivial⟩

end Judgement

end Parse

end MiniC
