import MiniC.Proofs.ProgramGrammar

/-!
# What stands after the tokens that are read

A parser looks no further than the token at which it stops. Two states are side by side (`Beside`) if they have the
same context and the same tokens up to where these go on in two ways (`Tails`): with the same end mark, whatever follows
it; or not at all and with something that closes a bracket. `Tracks` compares two results: a success on the left is the
same success on the right, with states side by side again, and before an end mark failures are the same as well.

* `grammar_tracks`, `expression_tracks`: expressions, in either way of going on.
* `statements_track`, `items_track`: statements and items, before an end mark.
-/

namespace MiniC

namespace Parse

/-! ## States side by side -/

/-- Two ways for tokens to go on where an expression has to end: with the same end mark, or not at all and with
something that closes a bracket. -/
inductive Tails : List Token → List Token → Prop where
  | mark {t : Token} (ends : t.kind = .eof) (xs ys : List Token) : Tails (t :: xs) (t :: ys)
  | closing {ys : List Token} (closes : ∀ t ∈ ys.head?, t.is (.punct ")") ∨ t.is (.punct "]")) : Tails [] ys

structure Beside (xs ys : List Token) (s s' : State) : Prop where
  tokens : ∃ u, s.tokens = u ++ xs ∧ s'.tokens = u ++ ys
  context : s'.context = s.context

/-- No tail starts with a token that can be read so. -/
structure Refused {α : Type} (read : Token → Option α) (xs ys : List Token) : Prop where
  left : ∀ t ∈ xs.head?, read t = none
  right : ∀ t ∈ ys.head?, read t = none

theorem Tails.left {α : Type} {xs ys : List Token} (h : Tails xs ys) {read : Token → Option α}
    (hmark : ∀ t, t.kind = .eof → read t = none) : ∀ t ∈ xs.head?, read t = none := by
  cases h with
  | mark ends => simpa using hmark _ ends
  | closing => exact nofun

theorem Tails.refused {α : Type} {xs ys : List Token} (h : Tails xs ys) {read : Token → Option α}
    (hmark : ∀ t, t.kind = .eof → read t = none)
    (hclosing : ∀ t, t.is (.punct ")") ∨ t.is (.punct "]") → read t = none) : Refused read xs ys := by
  refine ⟨h.left hmark, ?_⟩
  cases h with
  | mark ends => simpa using hmark _ ends
  | closing closes => exact fun t ht => hclosing t (closes t ht)

section Beside

variable {xs ys : List Token} {s s' : State} {α : Type} {read : Token → Option α}

theorem Beside.names (h : Beside xs ys s s') (f : String) : s'.names f = s.names f := by
  unfold State.names
  rw [h.context]

/-- As long as there are tokens on the left, the next one is the same on both sides. -/
theorem Beside.heads (h : Beside xs ys s s') (htails : Tails xs ys) :
    (s.tokens = [] ∧ xs = []) ∨ ∃ t rest rest', s.tokens = t :: rest ∧ s'.tokens = t :: rest' := by
  obtain ⟨u, hs, hs'⟩ := h.tokens
  cases u with
  | cons t u => exact .inr ⟨t, _, _, hs, hs'⟩
  | nil =>
    cases htails with
    | mark => exact .inr ⟨_, _, _, hs, hs'⟩
    | closing => exact .inl ⟨hs, rfl⟩

/-- What is read on the left is read on the right. -/
theorem Beside.taken (h : Beside xs ys s s') {t : Taken s.size α} (ht : s.take? read = some t)
    (hleft : ∀ t ∈ xs.head?, read t = none) :
    ∃ t', s'.take? read = some t' ∧ t'.value = t.value ∧ Beside xs ys t.next t'.next := by
  obtain ⟨u, hs, hs'⟩ := h.tokens
  cases u with
  | nil =>
    obtain ⟨token, htokens, hread⟩ := tokens_of_take ht
    have hnone := hleft token (by rw [← List.nil_append xs, ← hs, htokens]; rfl)
    rw [hnone] at hread
    cases hread
  | cons token u =>
    obtain ⟨tokens, lastLine, context⟩ := s
    obtain ⟨tokens', lastLine', context'⟩ := s'
    obtain ⟨rfl, rfl⟩ : tokens = token :: (u ++ xs) ∧ tokens' = token :: (u ++ ys) := ⟨hs, hs'⟩
    obtain ⟨a, ha, rfl⟩ := Option.map_eq_some_iff.1 ht
    refine ⟨_, Option.map_eq_some_iff.2 ⟨a, ha, rfl⟩, rfl, ⟨u, rfl, rfl⟩, h.context⟩

/-- What cannot be read on the left cannot be read on the right, where the tail does not allow it. -/
theorem Beside.untaken (h : Beside xs ys s s') (ht : s.take? read = none) (hright : ∀ t ∈ ys.head?, read t = none) :
    s'.take? read = none := by
  obtain ⟨u, hs, hs'⟩ := h.tokens
  obtain ⟨tokens', lastLine', context'⟩ := s'
  dsimp only at hs'
  subst hs'
  have hnone : ∀ t ∈ (u ++ ys).head?, read t = none := by
    cases u with
    | nil => exact hright
    | cons token u =>
      have hread := unread_of_take ht (t := token) (by rw [hs]; rfl)
      simpa using hread
  cases hus : u ++ ys with
  | nil => rfl
  | cons token rest =>
    rw [hus] at hnone
    exact Option.map_eq_none_iff.2 (hnone token rfl)

theorem untaken_of_heads {t : Token} {rest rest' : List Token} (ht : s.take? read = none) (hs : s.tokens = t :: rest)
    (hs' : s'.tokens = t :: rest') : s'.take? read = none := by
  have hread : read t = none := unread_of_take ht (by rw [hs]; rfl)
  obtain ⟨tokens', lastLine', context'⟩ := s'
  obtain rfl : tokens' = t :: rest' := hs'
  exact Option.map_eq_none_iff.2 hread

theorem sees_eq (s : State) (terminal : Terminal) : s.sees terminal = (s.accept? terminal).isSome := by
  obtain ⟨tokens, lastLine, context⟩ := s
  cases tokens with
  | nil => rfl
  | cons t rest =>
    unfold State.sees State.accept? State.take?
    cases h : t.is terminal <;> simp [h]

theorem Beside.line (h : Beside xs ys s s') (htails : Tails xs ys) (hne : s.tokens ≠ []) : s'.line = s.line := by
  rcases h.heads htails with ⟨hnil, -⟩ | ⟨t, rest, rest', hs, hs'⟩
  · exact absurd hnil hne
  · unfold State.line
    rw [hs, hs']

theorem Beside.kind (h : Beside xs ys s s') (htails : Tails xs ys) {kind : TokenKind} (hkind : s.kind? = some kind) :
    s'.kind? = some kind ∧ s'.line = s.line := by
  rcases h.heads htails with ⟨hnil, -⟩ | ⟨t, rest, rest', hs, hs'⟩
  · rw [State.kind?, hnil] at hkind
    cases hkind
  · refine ⟨?_, h.line htails (by simp [hs])⟩
    rw [← hkind, State.kind?, State.kind?, hs, hs']
    rfl

theorem Beside.ne_nil (h : Beside xs ys s s') (hx : xs ≠ []) : s.tokens ≠ [] := by
  obtain ⟨u, hs, -⟩ := h.tokens
  rw [hs]
  simp [hx]

end Beside

/-! ## Results side by side -/

/-- The second result is the first one, side by side with it. Where there is no more on the left, failures on the left
are left open. -/
def Tracks {m n : Nat} {α : Type} (xs ys : List Token) : Result m α → Result n α → Prop
  | .ok a s _, .ok a' s' _ => a' = a ∧ Beside xs ys s s'
  | .ok .., .fail .. => False
  | .fail .., .ok .. => xs = []
  | .fail fault s, .fail fault' s' => xs = [] ∨ fault' = fault ∧ Beside xs ys s s'

section Tracks

variable {xs ys : List Token} {m n : Nat} {α β : Type} {s s' : State}

theorem tracks_open {fault : Fault} {last : State} (r : Result n α) (hx : xs = []) :
    Tracks xs ys (.fail fault last : Result m α) r := by
  cases r with
  | ok => exact hx
  | fail => exact .inl hx

/-- A parser that has to read something fails where nothing is left. -/
theorem tracks_empty (r : Result s.size α) (r' : Result n α) (h : s.tokens = [] ∧ xs = []) : Tracks xs ys r r' := by
  cases r with
  | ok a next shorter =>
    unfold State.size at shorter
    rw [h.1] at shorter
    exact absurd shorter (Nat.not_lt_zero _)
  | fail => exact tracks_open r' h.2

theorem tracks_fail (fault : Fault) (h : Beside xs ys s s') :
    Tracks xs ys (.fail fault s : Result m α) (.fail fault s' : Result n α) := .inr ⟨rfl, h⟩

theorem tracks_relax {r : Result m α} {r' : Result n α} (h : Tracks xs ys r r') : Tracks xs ys r.relax r'.relax := by
  cases r <;> cases r' <;> exact h

theorem tracks_bind {r : Result m α} {r' : Result n α} {k : α → (s : State) → s.size < m → Result (s.size + 1) β}
    {k' : α → (s : State) → s.size < n → Result (s.size + 1) β} (hr : Tracks xs ys r r')
    (hk : ∀ a s s' h h', Beside xs ys s s' → Tracks xs ys (k a s h) (k' a s' h')) :
    Tracks xs ys (r.bind k) (r'.bind k') := by
  cases r with
  | fail fault last =>
    cases r' with
    | fail fault' last' => exact hr
    | ok a' s' h' => exact tracks_open _ hr
  | ok a s h =>
    cases r' with
    | fail fault' last' => exact hr.elim
    | ok a' s' h' =>
      obtain ⟨rfl, hbeside⟩ := hr
      have hk := hk a' s s' h h' hbeside
      unfold Result.bind
      dsimp only
      cases hres : k a' s h <;> cases hres' : k' a' s' h' <;> rw [hres, hres'] at hk <;> exact hk

theorem tracks_andThen {r : Result m α} {r' : Result n α} {k : α → (s : State) → s.size < m → Result (s.size + 1) β}
    {k' : α → (s : State) → s.size < n → Result (s.size + 1) β} (hr : Tracks xs ys r r')
    (hk : ∀ a s s' h h', Beside xs ys s s' → Tracks xs ys (k a s h) (k' a s' h')) :
    Tracks xs ys (r.andThen k) (r'.andThen k') := tracks_relax (tracks_bind hr hk)

theorem tracks_taken {t : Taken m α} {t' : Taken n α} {k : α → (s : State) → s.size < m → Result (s.size + 1) β}
    {k' : α → (s : State) → s.size < n → Result (s.size + 1) β} (ht : t'.value = t.value ∧ Beside xs ys t.next t'.next)
    (hk : ∀ s' h', Beside xs ys t.next s' → Tracks xs ys (k t.value t.next t.shorter) (k' t.value s' h')) :
    Tracks xs ys (t.bind k) (t'.bind k') := by
  obtain ⟨value, next', shorter'⟩ := t'
  obtain ⟨rfl, hnext⟩ := ht
  have hk := hk next' shorter' hnext
  unfold Taken.bind Result.bind
  dsimp only
  cases hres : k t.value t.next t.shorter <;> cases hres' : k' t.value next' shorter' <;>
    rw [hres, hres'] at hk <;> exact hk

theorem tracks_takenThen {t : Taken m α} {t' : Taken n α} {k : α → (s : State) → s.size < m → Result (s.size + 1) β}
    {k' : α → (s : State) → s.size < n → Result (s.size + 1) β} (ht : t'.value = t.value ∧ Beside xs ys t.next t'.next)
    (hk : ∀ s' h', Beside xs ys t.next s' → Tracks xs ys (k t.value t.next t.shorter) (k' t.value s' h')) :
    Tracks xs ys (t.andThen k) (t'.andThen k') := tracks_relax (tracks_taken ht hk)

theorem tracks_done (a : α) (h : Beside xs ys s s') : Tracks xs ys (.done a s) (.done a s') := ⟨rfl, h⟩

theorem tracks_demand (h : Beside xs ys s s') {line : Nat} {verdict : Except SemanticFault α} {k : α → Result m β}
    {k' : α → Result n β} (hk : ∀ a, Tracks xs ys (k a) (k' a)) :
    Tracks xs ys (s.demand line verdict k) (s'.demand line verdict k') := by
  cases verdict with
  | ok a => exact hk a
  | error cause => exact tracks_fail _ h

theorem tracks_perform (h : Beside xs ys s s') (work : CompileM α) :
    Tracks xs ys (s.perform work) (s'.perform work) := by
  unfold State.perform
  rw [h.context]
  cases work s.context with
  | ok a context => exact ⟨rfl, h.tokens, rfl⟩
  | error fault context => exact tracks_fail _ ⟨h.tokens, rfl⟩

theorem tracks_missing (h : Beside xs ys s s') (htails : Tails xs ys) (cause : String → GrammarFault) :
    Tracks xs ys (s.missing cause : Result m α) (s'.missing cause : Result n α) := by
  rcases h.heads htails with ⟨-, hx⟩ | ⟨t, rest, rest', hs, hs'⟩
  · exact tracks_open _ hx
  · have hline : s'.line = s.line := h.line htails (by simp [hs])
    have hfound : s'.found = s.found := by
      unfold State.found
      rw [hs, hs']
    unfold State.missing
    rw [hline, hfound]
    exact tracks_fail _ h

/-- One token that must come next. -/
theorem tracks_need (h : Beside xs ys s s') (htails : Tails xs ys) {read : Token → Option α}
    (hmark : ∀ t, t.kind = .eof → read t = none) (cause : String → GrammarFault) :
    Tracks xs ys (s.need read cause) (s'.need read cause) := by
  rcases h.heads htails with hnil | ⟨t, rest, rest', hs, hs'⟩
  · exact tracks_empty _ _ hnil
  · unfold State.need
    cases htake : s.take? read with
    | some taken =>
      obtain ⟨t', ht', hvalue, hnext⟩ := h.taken htake (htails.left hmark)
      rw [ht']
      exact ⟨hvalue, hnext⟩
    | none =>
      rw [untaken_of_heads htake hs hs']
      exact tracks_missing h htails cause

theorem tracks_expect (h : Beside xs ys s s') (htails : Tails xs ys) (terminal : Terminal) :
    Tracks xs ys (s.expect terminal) (s'.expect terminal) := by
  refine tracks_need h htails (fun t ht => if_neg fun his => ?_) _
  exact kind_of_is his ht

end Tracks

/-! ## Expressions -/

section Expressions

variable {xs ys : List Token} {s s' : State} {f : String}

theorem Tails.unaryOp (h : Tails xs ys) : Refused unaryOp? xs ys := by
  refine h.refused (fun t ht => ?_) fun t ht => ?_
  · simp [unaryOp?, ht]
  · rcases ht with ht | ht <;> simp_all [Token.is, unaryOp?] <;> decide

theorem Tails.extension (h : Tails xs ys) (floor : Nat) : Refused (extension? floor) xs ys := by
  refine h.refused (fun t ht => ?_) fun t ht => ?_
  · simp [extension?, binaryOp?, ht]
  · have hnone : binaryOp? t = none := by
      rcases ht with ht | ht <;> simp_all [Token.is, binaryOp?] <;> decide
    rw [extension?, hnone]
    rfl

theorem Tails.trailingStep (h : Tails xs ys) : Refused trailingStep? xs ys := by
  refine h.refused (fun t ht => ?_) fun t ht => ?_
  · simp [trailingStep?, Token.is, ht]
  · rcases ht with ht | ht <;> simp_all [Token.is, trailingStep?]

theorem Tails.punct (h : Tails xs ys) {symbol : String} (hsymbol : symbol ≠ ")" ∧ symbol ≠ "]") :
    Refused (fun t => if t.is (.punct symbol) then some () else none) xs ys := by
  refine h.refused (fun t ht => if_neg fun his => kind_of_is his ht) fun t ht => if_neg fun his => ?_
  rcases ht with ht | ht <;> simp_all [Token.is]

theorem Beside.accepted (h : Beside xs ys s s') (htails : Tails xs ys) {terminal : Terminal} {t : Taken s.size Unit}
    (ht : s.accept? terminal = some t) :
    ∃ t', s'.accept? terminal = some t' ∧ t'.value = t.value ∧ Beside xs ys t.next t'.next :=
  h.taken ht (htails.left fun _ hmark => if_neg fun his => kind_of_is his hmark)

theorem Beside.unaccepted (h : Beside xs ys s s') (htails : Tails xs ys) {symbol : String}
    (hsymbol : symbol ≠ ")" ∧ symbol ≠ "]") (ht : s.accept? (.punct symbol) = none) :
    s'.accept? (.punct symbol) = none :=
  h.untaken ht (htails.punct hsymbol).right

theorem Beside.sees (h : Beside xs ys s s') (htails : Tails xs ys) {symbol : String}
    (hsymbol : symbol ≠ ")" ∧ symbol ≠ "]") : s'.sees (.punct symbol) = s.sees (.punct symbol) := by
  rw [sees_eq, sees_eq]
  cases ht : s.accept? (.punct symbol) with
  | some t =>
    obtain ⟨t', ht', -⟩ := h.accepted htails ht
    rw [ht']
    rfl
  | none =>
    rw [h.unaccepted htails hsymbol ht]
    rfl

theorem number_tracks (h : Beside xs ys s s') (htails : Tails xs ys) : Tracks xs ys (number s) (number s') :=
  tracks_need h htails (fun t ht => by simp [number?, ht]) _

theorem identifier_tracks (h : Beside xs ys s s') (htails : Tails xs ys) :
    Tracks xs ys (identifier s) (identifier s') :=
  tracks_need h htails (fun t ht => by simp [identifier?, ht]) _

theorem stringLiteral_tracks (h : Beside xs ys s s') (htails : Tails xs ys) :
    Tracks xs ys (stringLiteral s) (stringLiteral s') := by
  unfold stringLiteral
  refine tracks_bind (tracks_need h htails (fun t ht => by simp [string?, ht]) _) fun t s₁ s₁' _ _ h₁ => ?_
  cases Literal.stringBytes t.text with
  | ok bytes => exact tracks_bind (tracks_perform h₁ _) fun label s₂ s₂' _ _ h₂ => tracks_done _ h₂
  | error cause => exact tracks_fail _ h

/-- **Expressions.** The parts of the expression parser look no further than the token at which they stop. -/
theorem grammar_tracks (f : String) (htails : Tails xs ys) :
    (∀ floor s s', Beside xs ys s s' → Tracks xs ys (binary f floor s) (binary f floor s')) ∧
    (∀ floor left s s', Beside xs ys s s' → Tracks xs ys (operators f floor left s) (operators f floor left s')) ∧
    (∀ s s', Beside xs ys s s' → Tracks xs ys (unary f s) (unary f s')) ∧
    (∀ s s', Beside xs ys s s' → Tracks xs ys (primary f s) (primary f s')) ∧
    (∀ name line s s', Beside xs ys s s' → Tracks xs ys (named f name line s) (named f name line s')) ∧
    (∀ s s', Beside xs ys s s' → Tracks xs ys (arguments f s) (arguments f s')) ∧
    (∀ s s', Beside xs ys s s' → Tracks xs ys (moreArguments f s) (moreArguments f s')) := by
  refine binary.mutual_induct _ _ _ _ _ _ _
    ?binary ?operator ?noOperator ?unaryOp ?noUnaryOp ?parens ?number ?string ?name ?noPrimary ?call ?notCall ?noArgs
    ?someArgs ?moreArgs
  case binary =>
    intro floor s ihUnary ihOperators s' h
    rw [binary, binary]
    exact tracks_bind (ihUnary s' h) fun left s₁ s₁' h₁ _ hleft => ihOperators left s₁ h₁ s₁' hleft
  case operator =>
    intro floor left s t ht ihRight ihRest s' h
    obtain ⟨t', ht', htaken⟩ := h.taken ht (htails.extension floor).left
    have hline : s'.line = s.line := by
      obtain ⟨token, htokens, -⟩ := tokens_of_take ht
      exact h.line htails (by simp [htokens])
    rw [operators, ht, operators, ht', hline]
    refine tracks_takenThen htaken fun s₁' _ hop => ?_
    refine tracks_andThen (ihRight t.value t.next t.shorter s₁' hop) fun right s₂ s₂' h₂ _ hright => ?_
    rw [hright.names]
    exact tracks_demand hright fun e => ihRest t.next t.shorter s₂ h₂ e s₂' hright
  case noOperator =>
    intro floor left s ht s' h
    rw [operators, ht, operators, h.untaken ht (htails.extension floor).right]
    exact tracks_done left h
  case unaryOp =>
    intro s t ht ihOperand s' h
    obtain ⟨t', ht', htaken⟩ := h.taken ht htails.unaryOp.left
    have hline : s'.line = s.line := by
      obtain ⟨token, htokens, -⟩ := tokens_of_take ht
      exact h.line htails (by simp [htokens])
    rw [unary, ht, unary, ht', hline]
    refine tracks_taken htaken fun s₁' _ hop => ?_
    refine tracks_andThen (ihOperand t.next t.shorter s₁' hop) fun operand s₂ s₂' _ _ hoperand => ?_
    rw [hoperand.names]
    exact tracks_demand hoperand fun e => tracks_done e hoperand
  case noUnaryOp =>
    intro s ht ihPrimary s' h
    rw [unary, ht, unary, h.untaken ht htails.unaryOp.right]
    exact ihPrimary s' h
  case parens =>
    intro s t ht ihInner s' h
    obtain ⟨t', ht', htaken⟩ := h.accepted htails ht
    rw [primary, ht, primary, ht']
    refine tracks_taken htaken fun s₁' _ hopen => ?_
    refine tracks_andThen (ihInner t.next t.shorter s₁' hopen) fun e s₂ s₂' _ _ hinner => ?_
    exact tracks_andThen (tracks_expect hinner htails _) fun _ s₃ s₃' _ _ hclose => tracks_done e hclose
  case number =>
    intro s hparens hkind s' h
    obtain ⟨hkind', hline⟩ := h.kind htails hkind
    rw [primary, hparens, hkind, primary, h.unaccepted htails (by decide) hparens, hkind', hline]
    exact tracks_bind (number_tracks h htails) fun value s₁ s₁' _ _ hvalue => tracks_done _ hvalue
  case string =>
    intro s hparens hkind s' h
    obtain ⟨hkind', -⟩ := h.kind htails hkind
    rw [primary, hparens, hkind, primary, h.unaccepted htails (by decide) hparens, hkind']
    exact stringLiteral_tracks h htails
  case name =>
    intro s hparens hkind ihNamed s' h
    obtain ⟨hkind', -⟩ := h.kind htails hkind
    rw [primary, hparens, hkind, primary, h.unaccepted htails (by decide) hparens, hkind']
    exact tracks_bind (identifier_tracks h htails) fun p s₁ s₁' h₁ _ hname => ihNamed s₁ h₁ p.1 p.2 s₁' hname
  case noPrimary =>
    intro s hparens hnumber hstring hident s' h
    rcases h.heads htails with hnil | ⟨t, rest, rest', hs, hs'⟩
    · exact tracks_empty _ _ hnil
    · have hkind : s'.kind? = s.kind? := by
        rw [State.kind?, State.kind?, hs, hs']
        rfl
      rw [primary, hparens, primary, h.unaccepted htails (by decide) hparens, hkind]
      simp only
      exact tracks_missing h htails _
  case call =>
    intro name line s hsees ihArgs s' h
    have hsees' : s'.sees (.punct "(") = true := by rw [h.sees htails (by decide), hsees]
    rw [named, if_pos hsees, named, if_pos hsees', h.names]
    refine tracks_demand h fun callee => ?_
    refine tracks_andThen (tracks_expect h htails _) fun _ s₁ s₁' h₁ _ hopen => ?_
    refine tracks_andThen (ihArgs s₁ h₁ s₁' hopen) fun args s₂ s₂' _ _ hargs => ?_
    exact tracks_demand hargs fun e => tracks_done e hargs
  case notCall =>
    intro name line s hsees ihIndex s' h
    have hsees' : ¬ s'.sees (.punct "(") = true := by rwa [h.sees htails (by decide)]
    rw [named, if_neg hsees, named, if_neg hsees', h.names]
    refine tracks_demand h fun base => ?_
    cases hbracket : s.accept? (.punct "[") with
    | some t =>
      obtain ⟨t', ht', htaken⟩ := h.accepted htails hbracket
      rw [ht']
      refine tracks_takenThen htaken fun s₁' _ hopen => ?_
      refine tracks_andThen (ihIndex t.next t.shorter s₁' hopen) fun index s₂ s₂' _ _ hindex => ?_
      refine tracks_andThen (tracks_expect hindex htails _) fun _ s₃ s₃' _ _ hclose => ?_
      exact tracks_demand hclose fun e => tracks_done e hclose
    | none =>
      rw [h.unaccepted htails (by decide) hbracket]
      cases hstep : s.take? trailingStep? with
      | some t =>
        obtain ⟨t', ht', htaken⟩ := h.taken hstep htails.trailingStep.left
        rw [ht']
        refine tracks_takenThen htaken fun s₁' _ hop => ?_
        rw [hop.names]
        exact tracks_demand hop fun e => tracks_done e hop
      | none =>
        rw [h.untaken hstep htails.trailingStep.right]
        exact tracks_done base h
  case noArgs =>
    intro s t ht s' h
    obtain ⟨t', ht', htaken⟩ := h.accepted htails ht
    rw [arguments, ht, arguments, ht']
    exact tracks_taken htaken fun s₁' _ hclose => tracks_done [] hclose
  case someArgs =>
    intro s ht ihMore s' h
    rcases h.heads htails with hnil | ⟨t, rest, rest', hs, hs'⟩
    · exact tracks_empty _ _ hnil
    · rw [arguments, ht, arguments, show s'.accept? _ = none from untaken_of_heads ht hs hs']
      exact ihMore s' h
  case moreArgs =>
    intro s ihArg ihMore s' h
    rw [moreArguments, moreArguments]
    refine tracks_bind (ihArg s' h) fun arg s₁ s₁' h₁ _ harg => ?_
    cases hcomma : s₁.accept? (.punct ",") with
    | some t =>
      obtain ⟨t', ht', htaken⟩ := harg.accepted htails hcomma
      rw [ht']
      refine tracks_takenThen htaken fun s₂' _ hnext => ?_
      exact tracks_andThen (ihMore s₁ h₁ t.next t.shorter s₂' hnext) fun args s₃ s₃' _ _ hargs => tracks_done _ hargs
    | none =>
      rw [harg.unaccepted htails (by decide) hcomma]
      exact tracks_andThen (tracks_expect harg htails _) fun _ s₂ s₂' _ _ hclose => tracks_done _ hclose

theorem expression_tracks (htails : Tails xs ys) (h : Beside xs ys s s') :
    Tracks xs ys (expression f s) (expression f s') := (grammar_tracks f htails).1 0 s s' h

theorem condition_tracks (htails : Tails xs ys) (h : Beside xs ys s s') :
    Tracks xs ys (condition f s) (condition f s') :=
  tracks_bind (expression_tracks htails h) fun _ _ _ _ _ htested =>
    tracks_demand htested fun e => tracks_done e htested

end Expressions

/-! ## Statements and items before an end mark -/

section EndMarked

variable {xs ys : List Token} {s s' : State} {f : String} {α : Type}

/-- Tokens that go on with the same end mark. -/
structure EndMarked (xs ys : List Token) : Prop where
  tails : Tails xs ys
  mark : xs ≠ []

/-- Before an end mark there is a next token, the same on both sides. -/
theorem Beside.marked (h : Beside xs ys s s') (hm : EndMarked xs ys) :
    ∃ t rest rest', s.tokens = t :: rest ∧ s'.tokens = t :: rest' :=
  (h.heads hm.tails).resolve_left fun hnil => hm.mark hnil.2

theorem Beside.unread (h : Beside xs ys s s') (hm : EndMarked xs ys)
    {read : Token → Option α} (ht : s.take? read = none) : s'.take? read = none := by
  obtain ⟨t, rest, rest', hs, hs'⟩ := h.marked hm
  exact untaken_of_heads ht hs hs'

theorem Beside.refuses (h : Beside xs ys s s') (hm : EndMarked xs ys)
    {terminal : Terminal} (ht : s.accept? terminal = none) : s'.accept? terminal = none := h.unread hm ht

theorem Beside.markedLine (h : Beside xs ys s s') (hm : EndMarked xs ys) :
    s'.line = s.line := h.line hm.tails (h.ne_nil hm.mark)

theorem Beside.atEnd (h : Beside xs ys s s') (hm : EndMarked xs ys) : s'.atEnd = s.atEnd := by
  obtain ⟨t, rest, rest', hs, hs'⟩ := h.marked hm
  unfold State.atEnd
  rw [hs, hs']

theorem base_unmarked {t : Token} (ht : t.kind = .eof) : base? t = none := by
  simp [base?, Token.is, ht]

theorem lead_unmarked {t : Token} (ht : t.kind = .eof) : lead? t = none := by
  simp [lead?, Token.is, ht]

theorem type_tracks (hm : EndMarked xs ys) (h : Beside xs ys s s') : Tracks xs ys (type s) (type s') := by
  unfold type
  refine tracks_bind (tracks_need h hm.tails (fun t => base_unmarked) _) fun base s₁ s₁' _ _ hbase => ?_
  cases hstar : s₁.accept? (.punct "*") with
  | some t =>
    obtain ⟨t', ht', htaken⟩ := hbase.accepted hm.tails hstar
    rw [ht']
    exact tracks_takenThen htaken fun _ _ hnext => tracks_done _ hnext
  | none =>
    rw [hbase.refuses hm hstar]
    exact tracks_done _ hbase

theorem arraySize_tracks (hm : EndMarked xs ys) (h : Beside xs ys s s') :
    Tracks xs ys (arraySize s) (arraySize s') := by
  unfold arraySize
  cases hbracket : s.accept? (.punct "[") with
  | some t =>
    obtain ⟨t', ht', htaken⟩ := h.accepted hm.tails hbracket
    rw [ht']
    refine tracks_takenThen htaken fun _ _ hopen => ?_
    refine tracks_andThen (number_tracks hopen hm.tails) fun count _ _ _ _ hcount => ?_
    exact tracks_andThen (tracks_expect hcount hm.tails _) fun _ _ _ _ _ hclose => tracks_done _ hclose
  | none =>
    rw [h.refuses hm hbracket]
    exact tracks_done none h

theorem declaration_tracks (owner : Option String) (hm : EndMarked xs ys) (h : Beside xs ys s s') :
    Tracks xs ys (declaration owner s) (declaration owner s') := by
  unfold declaration
  refine tracks_bind (type_tracks hm h) fun ty _ _ _ _ hty => ?_
  refine tracks_andThen (identifier_tracks hty hm.tails) fun p _ _ _ _ hname => ?_
  refine tracks_bind (arraySize_tracks hm hname) fun size _ _ _ _ hsize => tracks_demand hsize fun parts => ?_
  refine tracks_andThen (tracks_expect hsize hm.tails _) fun _ _ _ _ _ hclose => tracks_demand hclose fun _ => ?_
  cases owner with
  | some function => exact tracks_bind (tracks_perform hclose _) fun _ _ _ _ _ hdone => tracks_done _ hdone
  | none => exact tracks_bind (tracks_perform hclose _) fun _ _ _ _ _ hdone => tracks_done _ hdone

theorem returned_tracks (hm : EndMarked xs ys) (h : Beside xs ys s s') :
    Tracks xs ys (returned f s) (returned f s') := by
  unfold returned
  rw [h.markedLine hm, h.names]
  refine tracks_demand h fun ty => ?_
  cases hclose : s.accept? (.punct ";") with
  | some t =>
    obtain ⟨t', ht', htaken⟩ := h.accepted hm.tails hclose
    rw [ht']
    exact tracks_taken htaken fun _ _ hnext => tracks_demand hnext fun stmt => tracks_done _ hnext
  | none =>
    rw [h.refuses hm hclose]
    refine tracks_bind (expression_tracks hm.tails h) fun value _ _ _ _ hvalue => ?_
    refine tracks_andThen (tracks_expect hvalue hm.tails _) fun _ _ _ _ _ hend => ?_
    exact tracks_demand hend fun stmt => tracks_done _ hend

theorem parenthesised_tracks (hm : EndMarked xs ys) (h : Beside xs ys s s') :
    Tracks xs ys (parenthesised f s) (parenthesised f s') :=
  tracks_bind (tracks_expect h hm.tails _) fun _ _ _ _ _ hopen =>
    tracks_andThen (condition_tracks hm.tails hopen) fun _ _ _ _ _ hcond =>
      tracks_andThen (tracks_expect hcond hm.tails _) fun _ _ _ _ _ hclose => tracks_done _ hclose

theorem clause_tracks {close : Terminal} {parse : (s : State) → Result s.size Expr}
    (hm : EndMarked xs ys) (h : Beside xs ys s s') (hparse : Tracks xs ys (parse s) (parse s')) :
    Tracks xs ys (clause close parse s) (clause close parse s') := by
  unfold clause
  cases hclose : s.accept? close with
  | some t =>
    obtain ⟨t', ht', htaken⟩ := h.accepted hm.tails hclose
    rw [ht']
    exact tracks_taken htaken fun _ _ hnext => tracks_done _ hnext
  | none =>
    rw [h.refuses hm hclose]
    refine tracks_bind hparse fun e _ _ _ _ hinner => ?_
    exact tracks_andThen (tracks_expect hinner hm.tails _) fun _ _ _ _ _ hend => tracks_done _ hend

theorem clauses_tracks (hm : EndMarked xs ys) (h : Beside xs ys s s') :
    Tracks xs ys (clauses f s) (clauses f s') := by
  unfold clauses
  refine tracks_bind (tracks_expect h hm.tails _) fun _ _ _ _ _ hopen => ?_
  refine tracks_andThen (clause_tracks hm hopen (expression_tracks hm.tails hopen)) fun init _ _ _ _ hinit => ?_
  refine tracks_andThen (clause_tracks hm hinit (condition_tracks hm.tails hinit)) fun cond _ _ _ _ hcond => ?_
  refine tracks_andThen (clause_tracks hm hcond (expression_tracks hm.tails hcond)) fun post _ _ _ _ hpost => ?_
  exact tracks_done _ hpost

/-- **Statements.** The parser of statements reads nothing of what stands after an end mark. -/
theorem statements_track (f : String) (hm : EndMarked xs ys) : (∀ s s', Beside xs ys s s' →
    Tracks xs ys (statement f s) (statement f s')) ∧ (∀ s s', Beside xs ys s s' →
    Tracks xs ys (statements f s) (statements f s')) := by
  refine statement.mutual_induct _ _ ?lead ?noLead ?close ?atEnd ?more
  case lead =>
    intro s t ht ihFirst ihSecond ihBlock s' h
    obtain ⟨t', ht', htaken⟩ := h.taken ht (hm.tails.left fun _ => lead_unmarked)
    rw [statement, ht, statement, ht', h.markedLine hm]
    refine tracks_taken htaken fun s₁' _ h₁ => ?_
    cases hlead : t.value with
    | nestedFunction => exact tracks_fail _ h
    | ret => exact tracks_relax (returned_tracks hm h₁)
    | declaration isGlobal => exact tracks_relax (declaration_tracks _ hm h₁)
    | ifElse =>
      refine tracks_andThen (parenthesised_tracks hm h₁) fun cond s₂ s₂' h₂ _ hcond => ?_
      refine tracks_andThen (ihFirst t.next t.shorter s₂ h₂ s₂' hcond) fun yes s₃ s₃' h₃ _ hyes => ?_
      cases helse : s₃.accept? (.keyword "else") with
      | none =>
        rw [hyes.refuses hm helse]
        exact tracks_done _ hyes
      | some u =>
        obtain ⟨u', hu', hutaken⟩ := hyes.accepted hm.tails helse
        rw [hu']
        refine tracks_takenThen hutaken fun s₄' _ h₄ => ?_
        refine tracks_andThen (ihSecond t.next t.shorter s₂ h₂ s₃ h₃ u.next u.shorter s₄' h₄) fun no _ _ _ _ hno => ?_
        exact tracks_done _ hno
    | whileLoop =>
      refine tracks_andThen (parenthesised_tracks hm h₁) fun cond s₂ s₂' h₂ _ hcond => ?_
      exact tracks_andThen (ihFirst t.next t.shorter s₂ h₂ s₂' hcond) fun body _ _ _ _ hbody => tracks_done _ hbody
    | forLoop =>
      refine tracks_andThen (clauses_tracks hm h₁) fun parts s₂ s₂' h₂ _ hparts => ?_
      exact tracks_andThen (ihFirst t.next t.shorter s₂ h₂ s₂' hparts) fun body _ _ _ _ hbody => tracks_done _ hbody
    | block =>
      exact tracks_andThen (ihBlock t.next t.shorter s₁' h₁) fun stmts _ _ _ _ hstmts => tracks_done _ hstmts
  case noLead =>
    intro s ht s' h
    rw [statement, ht, statement, h.unread hm ht]
    refine tracks_bind (expression_tracks hm.tails h) fun e _ _ _ _ he => ?_
    exact tracks_andThen (tracks_expect he hm.tails _) fun _ _ _ _ _ hend => tracks_done _ hend
  case close =>
    intro s t ht s' h
    obtain ⟨t', ht', htaken⟩ := h.accepted hm.tails ht
    rw [statements, ht, statements, ht']
    exact tracks_taken htaken fun _ _ hnext => tracks_done [] hnext
  case atEnd =>
    intro s ht hend s' h
    rw [statements, ht, if_pos hend, statements, h.refuses hm ht, if_pos (by rw [h.atEnd hm]; exact hend),
      h.markedLine hm]
    exact tracks_fail _ h
  case more =>
    intro s ht hend ihStmt ihRest s' h
    rw [statements, ht, if_neg hend, statements, h.refuses hm ht, if_neg (by rw [h.atEnd hm]; exact hend)]
    refine tracks_bind (ihStmt s' h) fun stmt s₁ s₁' h₁ _ hstmt => ?_
    exact tracks_andThen (ihRest s₁ h₁ s₁' hstmt) fun stmts _ _ _ _ hstmts => tracks_done _ hstmts

theorem block_tracks (hm : EndMarked xs ys) (h : Beside xs ys s s') : Tracks xs ys (block f s) (block f s') :=
  tracks_bind (tracks_expect h hm.tails _) fun _ s₁ s₁' _ _ hopen =>
    tracks_andThen ((statements_track f hm).2 s₁ s₁' hopen) fun _ _ _ _ _ hstmts => tracks_done _ hstmts

theorem moreParams_tracks (hm : EndMarked xs ys) : ∀ s s', Beside xs ys s s' →
    Tracks xs ys (moreParams s) (moreParams s') := by
  intro s
  induction s using moreParams.induct with
  | case1 s ih =>
    intro s' h
    rw [moreParams, moreParams]
    refine tracks_bind (type_tracks hm h) fun ty s₁ _ h₁ _ hty => ?_
    refine tracks_andThen (identifier_tracks hty hm.tails) fun p s₂ s₂' h₂ _ hname => tracks_demand hname fun _ => ?_
    cases hcomma : s₂.accept? (.punct ",") with
    | some t =>
      obtain ⟨t', ht', htaken⟩ := hname.accepted hm.tails hcomma
      rw [ht']
      refine tracks_takenThen htaken fun s₃' _ h₃ => ?_
      exact tracks_andThen (ih s₁ h₁ s₂ h₂ t.next t.shorter s₃' h₃) fun _ _ _ _ _ hrest => tracks_done _ hrest
    | none =>
      rw [hname.refuses hm hcomma]
      exact tracks_andThen (tracks_expect hname hm.tails _) fun _ _ _ _ _ hclose => tracks_done _ hclose

theorem params_tracks (hm : EndMarked xs ys) (h : Beside xs ys s s') : Tracks xs ys (params s) (params s') := by
  unfold params
  cases hclose : s.accept? (.punct ")") with
  | some t =>
    obtain ⟨t', ht', htaken⟩ := h.accepted hm.tails hclose
    rw [ht']
    exact tracks_taken htaken fun _ _ hnext => tracks_done [] hnext
  | none =>
    rw [h.refuses hm hclose]
    exact moreParams_tracks hm s s' h

theorem head_tracks (hm : EndMarked xs ys) (h : Beside xs ys s s') : Tracks xs ys (head s) (head s') := by
  unfold head
  refine tracks_bind (identifier_tracks h hm.tails) fun p _ _ _ _ hname => ?_
  refine tracks_andThen (tracks_expect hname hm.tails _) fun _ _ _ _ _ hopen => ?_
  refine tracks_andThen (params_tracks hm hopen) fun params _ _ _ _ hparams => tracks_demand hparams fun _ => ?_
  refine tracks_andThen (tracks_expect hparams hm.tails _) fun _ _ _ _ _ harrow => ?_
  exact tracks_andThen (type_tracks hm harrow) fun ret _ _ _ _ hret => tracks_done _ hret

theorem function_tracks (hm : EndMarked xs ys) (h : Beside xs ys s s') : Tracks xs ys (function s) (function s') := by
  unfold function
  refine tracks_bind (head_tracks hm h) fun head s₁ _ _ _ hhead => ?_
  cases hclose : s₁.accept? (.punct ";") with
  | some t =>
    obtain ⟨t', ht', htaken⟩ := hhead.accepted hm.tails hclose
    rw [ht']
    refine tracks_takenThen htaken fun _ _ hnext => ?_
    exact tracks_bind (tracks_perform hnext _) fun _ _ _ _ _ hdone => tracks_done _ hdone
  | none =>
    rw [hhead.refuses hm hclose]
    refine tracks_bind (tracks_perform hhead _) fun _ _ _ _ _ hentered => ?_
    exact tracks_andThen (block_tracks hm hentered) fun _ _ _ _ _ hbody => tracks_done _ hbody

theorem item_tracks (hm : EndMarked xs ys) (h : Beside xs ys s s') : Tracks xs ys (item s) (item s') := by
  unfold item
  cases hfunc : s.accept? (.keyword "func") with
  | some t =>
    obtain ⟨t', ht', htaken⟩ := h.accepted hm.tails hfunc
    rw [ht']
    exact tracks_taken htaken fun _ _ hnext => tracks_relax (function_tracks hm hnext)
  | none =>
    rw [h.refuses hm hfunc]
    cases hglobal : s.accept? (.keyword "global") with
    | some t =>
      obtain ⟨t', ht', htaken⟩ := h.accepted hm.tails hglobal
      rw [ht']
      exact tracks_taken htaken fun _ _ hnext => tracks_relax (declaration_tracks none hm hnext)
    | none =>
      rw [h.refuses hm hglobal]
      cases hvar : s.accept? (.keyword "var") with
      | some t =>
        obtain ⟨t', ht', htaken⟩ := h.accepted hm.tails hvar
        rw [ht']
        exact tracks_taken htaken fun _ _ hnext => tracks_relax (declaration_tracks none hm hnext)
      | none =>
        rw [h.refuses hm hvar]
        exact tracks_missing h hm.tails _

/-- **Items.** The parser of programs reads nothing of what stands after an end mark. -/
theorem items_track (hm : EndMarked xs ys) : ∀ s s', Beside xs ys s s' → Tracks xs ys (items s) (items s') := by
  intro s
  induction s using items.induct with
  | case1 s hend =>
    intro s' h
    rw [items, if_pos hend, items, if_pos (by rw [h.atEnd hm]; exact hend)]
    exact tracks_done [] h
  | case2 s hend ih =>
    intro s' h
    rw [items, if_neg hend, items, if_neg (by rw [h.atEnd hm]; exact hend)]
    refine tracks_andThen (item_tracks hm h) fun stmt s₁ s₁' h₁ _ hstmt => ?_
    exact tracks_bind (ih s₁ h₁ s₁' hstmt) fun stmts _ _ _ _ hstmts => tracks_done _ hstmts

end EndMarked

end Parse

end MiniC
