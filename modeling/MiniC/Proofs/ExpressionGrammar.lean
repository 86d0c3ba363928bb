import MiniC.Parse.Expression
import MiniC.Proofs.Reading
import MiniC.Proofs.TypingNodes

/-!
# Expressions are read by the grammar

Each part of the expression parser reads the language of its nonterminal (`grammar_reads`): the tree that comes out is,
types and conversions forgotten, what the tokens denote, and where the parser gives up for want of a token, every
derivation does. Climbing meets a level as an operand with a tail (`level_eq_tail`); the loop stops only at operators
that are too loose for its floor (`climbing_stops`), so the operators of a tail come in order.
-/

namespace MiniC

open Grammar

theorem exprPhrases_eq_map (es : List Expr) : exprPhrases es = es.map Expr.phrase := by
  induction es with
  | nil => rfl
  | cons e es ih => rw [exprPhrases, ih, List.map_cons]

/-- Conversions and marks are no part of a phrase. -/
theorem blind_phrase : Blind Expr.phrase := by
  intro e e' h
  cases h with
  | same => rfl
  | converted => rfl
  | target => cases e <;> rfl

namespace Parse

/-! ## What tokens are read as -/

section Tokens

variable {t : Token}

theorem op_unique {op op' : BinaryOp} (h : t.is (.punct op.symbol)) (h' : t.is (.punct op'.symbol)) : op = op' :=
  BinaryOp.symbol_injective (by simp_all [Token.is])

theorem unaryOp?_eq_some {op : UnaryOp} :
    unaryOp? t = some op ↔ ∃ text, (text, op) ∈ frontOperators ∧ t.is (.punct text) := by
  unfold unaryOp? UnaryOp.ofSymbol?
  simp [frontOperators, Token.is]
  grind

theorem extension?_eq_some {floor : Nat} {op : BinaryOp} :
    extension? floor t = some op ↔ t.is (.punct op.symbol) ∧ op.extends? floor := by
  unfold extension? binaryOp?
  rw [Option.filter_eq_some_iff]
  refine and_congr_left fun _ => ?_
  constructor
  · intro h
    split at h
    · next hkind => simp [Token.is, hkind, BinaryOp.symbol_of_ofSymbol? h]
    · cases h
  · intro h
    obtain ⟨hkind, htext⟩ : t.kind = .punctuator ∧ t.text = op.symbol := by simpa [Token.is] using h
    rw [if_pos hkind, htext]
    exact op.ofSymbol?_symbol

theorem trailingStep?_eq_some {direction : Direction} :
    trailingStep? t = some direction ↔ ∃ text, (text, direction) ∈ trailingOperators ∧ t.is (.punct text) := by
  unfold trailingStep?
  simp [trailingOperators, Token.is]
  grind

theorem trailing_not_opening {text : String} {direction : Direction} (hmem : (text, direction) ∈ trailingOperators)
    (h : t.is (.punct text)) : t.is (.punct "(") = false ∧ t.is (.punct "[") = false := by
  simp only [trailingOperators, List.mem_cons, Prod.mk.injEq, List.not_mem_nil, or_false] at hmem
  rcases hmem with ⟨rfl, -⟩ | ⟨rfl, -⟩ <;> simp_all [Token.is]

theorem number?_eq_some {value : Int} : number? t = some value ↔ t.kind = .number ∧ t.value = some value := by
  unfold number?
  split <;> simp_all

theorem identifier?_eq_some {name : String} {line : Nat} :
    identifier? t = some (name, line) ↔ t.kind = .ident ∧ t.text = name ∧ t.line = line := by
  unfold identifier?
  split <;> simp_all

end Tokens

/-! ## First tokens, and tokens that end an expression -/

/-- An operand can start with the token. -/
def StartsOperand (t : Token) : Prop :=
  (∃ op, unaryOp? t = some op) ∨ t.is (.punct "(") ∨ t.kind = .number ∨ t.kind = .string ∨ t.kind = .ident

/-- The keywords and punctuators that an operand can start with. -/
def operandStarts : List Terminal := ["(", "-", "!", "&", "*", "++", "--"].map Terminal.punct

theorem StartsOperand.mem {t : Token} {terminal : Terminal} (h : StartsOperand t) (ht : t.is terminal) :
    terminal ∈ operandStarts := by
  rcases h with ⟨op, h⟩ | h | h | h | h
  · obtain ⟨text, hmem, htext⟩ := unaryOp?_eq_some.1 h
    cases terminal <;> simp_all [Token.is, frontOperators, operandStarts]
    grind
  · cases terminal <;> simp_all [Token.is, operandStarts]
  all_goals cases terminal <;> simp_all [Token.is]

theorem operand_first {w : List Token} {x : Phrase} (h : Operand w x) : ∃ t v, w = t :: v ∧ StartsOperand t := by
  cases h with
  | unary hmem hsymbol _ => exact ⟨_, _, rfl, .inl ⟨_, unaryOp?_eq_some.2 ⟨_, hmem, hsymbol⟩⟩⟩
  | parens hopening _ _ => exact ⟨_, _, rfl, .inr (.inl hopening)⟩
  | number hkind _ => exact ⟨_, _, rfl, .inr (.inr (.inl hkind))⟩
  | string hkind _ => exact ⟨_, _, rfl, .inr (.inr (.inr (.inl hkind)))⟩
  | name hkind _ => exact ⟨_, _, rfl, .inr (.inr (.inr (.inr hkind)))⟩

theorem level_first {n : Nat} {w : List Token} {x : Phrase} (h : Level Operand n w x) :
    ∃ t v, w = t :: v ∧ StartsOperand t := by
  obtain ⟨u, v, y, rfl, hy, -⟩ := h.split
  obtain ⟨t, u, rfl, ht⟩ := operand_first hy
  exact ⟨t, u ++ v, rfl, ht⟩

/-- What may come after an expression of level `n`: something that closes it, or an operator that is too loose for it. -/
def Closed (n : Nat) (v : List Token) : Prop :=
  ∃ t v', v = t :: v' ∧ (t.is (.punct ")") ∨ t.is (.punct "]") ∨ t.is (.punct ";") ∨ t.is (.punct ",") ∨
    ∃ op : BinaryOp, t.is (.punct op.symbol) ∧ op.level < n)

namespace Closed

variable {n m : Nat} {v : List Token}

theorem looser (h : Closed n v) (hm : n ≤ m) : Closed m v := by
  obtain ⟨t, v', rfl, h | h | h | h | ⟨op, hop, hlevel⟩⟩ := h
  · exact ⟨t, v', rfl, .inl h⟩
  · exact ⟨t, v', rfl, .inr (.inl h)⟩
  · exact ⟨t, v', rfl, .inr (.inr (.inl h))⟩
  · exact ⟨t, v', rfl, .inr (.inr (.inr (.inl h)))⟩
  · exact ⟨t, v', rfl, .inr (.inr (.inr (.inr ⟨op, hop, Nat.lt_of_lt_of_le hlevel hm⟩)))⟩

theorem paren {t : Token} (h : t.is (.punct ")")) : Closed n (t :: v) := ⟨t, v, rfl, .inl h⟩

theorem bracket {t : Token} (h : t.is (.punct "]")) : Closed n (t :: v) := ⟨t, v, rfl, .inr (.inl h)⟩

theorem semicolon {t : Token} (h : t.is (.punct ";")) : Closed n (t :: v) := ⟨t, v, rfl, .inr (.inr (.inl h))⟩

theorem comma {t : Token} (h : t.is (.punct ",")) : Closed n (t :: v) := ⟨t, v, rfl, .inr (.inr (.inr (.inl h)))⟩

theorem operator {t : Token} {op : BinaryOp} (h : t.is (.punct op.symbol)) (hlevel : op.level < n) : Closed n (t :: v) :=
  ⟨t, v, rfl, .inr (.inr (.inr (.inr ⟨op, h, hlevel⟩)))⟩

/-- An operator after an expression of level `n` is looser than that. -/
theorem level_lt {t : Token} {op : BinaryOp} (h : Closed n (t :: v)) (hop : t.is (.punct op.symbol)) : op.level < n := by
  obtain ⟨t', v', hv, h⟩ := h
  cases hv
  rcases h with h | h | h | h | ⟨op', hop', hlevel⟩
  · cases op <;> simp_all [Token.is, BinaryOp.symbol]
  · cases op <;> simp_all [Token.is, BinaryOp.symbol]
  · cases op <;> simp_all [Token.is, BinaryOp.symbol]
  · cases op <;> simp_all [Token.is, BinaryOp.symbol]
  · have hsame : op.symbol = op'.symbol := by simp_all [Token.is]
    rwa [BinaryOp.symbol_injective hsame]

/-- No expression is followed by what could follow a name. -/
theorem not_suffix {t : Token} (h : Closed n (t :: v)) :
    t.is (.punct "(") = false ∧ t.is (.punct "[") = false ∧ trailingStep? t = none := by
  obtain ⟨t', v', hv, h⟩ := h
  cases hv
  rcases h with h | h | h | h | ⟨op, h, -⟩
  · simp_all [Token.is, trailingStep?]
  · simp_all [Token.is, trailingStep?]
  · simp_all [Token.is, trailingStep?]
  · simp_all [Token.is, trailingStep?]
  · cases op <;> simp_all [Token.is, trailingStep?, BinaryOp.symbol]

/-- What may follow a tail may follow, after the tail, what the tail goes on from. -/
theorem tail {P : Language Phrase} {d : Nat} {x y : Phrase} {u : List Token} (hu : Tail P n d x u y) (hv : Closed n v)
    (hm : n ≤ m) (hd : ∀ op : BinaryOp, op.leftLevel ≤ d → op.level < m) : Closed m (u ++ v) := by
  cases hu with
  | nil => exact hv.looser hm
  | operator _ hleft hsymbol _ _ => exact operator hsymbol (hd _ hleft)

end Closed

/-! ## Climbing stops only at looser operators -/

theorem ends_any {n : Nat} {α : Type} (r : Result n α) : r.Ends (fun _ _ => True) (fun _ _ => True) := by
  cases r <;> trivial

theorem operators_stop (f : String) (floor : Nat) : ∀ (size : Nat) (left : Expr) (s : State), s.size = size →
    (operators f floor left s).Ends (fun _ s' => s'.take? (extension? floor) = none) (fun _ _ => True) := by
  intro size
  induction size using Nat.strongRecOn with
  | ind size ih =>
    intro left s hsize
    rw [operators]
    split
    · next t _ =>
      refine Taken.ends_andThen (Result.ends_andThen (ends_any _) fun right s₂ h₂ _ => ends_demand (fun e _ => ?_) ?_)
      · have hlt : s₂.size < size := by have := t.shorter; omega
        exact ih s₂.size hlt e s₂ rfl
      · exact fun _ => trivial
    · next hnone => exact hnone

theorem climbing_stops (f : String) (floor : Nat) (s : State) :
    (binary f floor s).Ends (fun _ s' => s'.take? (extension? floor) = none) (fun _ _ => True) := by
  rw [binary]
  exact Result.ends_bind (ends_any _) fun left s₁ _ _ => operators_stop f floor s₁.size left s₁ rfl

/-! ## The grammar -/

/-- `n` is the level of the operators that extend an operand read at `floor`. -/
def Floor (floor n : Nat) : Prop := ∀ op : BinaryOp, op.extends? floor = true ↔ n ≤ op.level

theorem floor_zero : Floor 0 0 := by
  intro op
  cases op <;> decide

theorem floor_strength (op : BinaryOp) : Floor op.strength op.rightLevel := by
  intro next
  cases op <;> cases next <;> decide

/-- Anything may come after it. -/
def anything {T : Type} : Follow T := fun _ _ => True

/-- What may come after an expression of level `n`. -/
def closing (n : Nat) : Follow Phrase := fun _ v => Closed n v

/-! ### Lists between parentheses -/

section Series

variable {α T : Type} {item : Language T} {shows : α → T} {s : State}

/-- What comes after the first item of a series. -/
inductive SeriesRest (item : Language T) (x : T) : Language (List T)
  | close {t : Token} : t.is (.punct ")") → SeriesRest item x [t] [x]
  | comma {t : Token} {w : List Token} {xs : List T} :
      t.is (.punct ",") → Series item w xs → SeriesRest item x (t :: w) (x :: xs)

theorem series_eq_seq {w : List Token} {xs : List T} : Series item w xs ↔ (item.seq (SeriesRest item)) w xs := by
  constructor
  · intro h
    cases h with
    | last hx hclose => exact ⟨_, _, _, rfl, hx, .close hclose⟩
    | more hx hcomma hrest => exact ⟨_, _, _, rfl, hx, .comma hcomma hrest⟩
  · rintro ⟨u, v, x, rfl, hx, hrest⟩
    cases hrest with
    | close hclose => exact .last hx hclose
    | comma hcomma hrest => exact .more hx hcomma hrest

theorem reads_seriesRest (shows : α → T) (a : α) {more : (s : State) → Result s.size (List α)}
    (hmore : ∀ t, s.accept? (.punct ",") = some t →
      Reads (Series item) anything (List.map shows) t.next.tokens (more t.next)) :
    Reads (SeriesRest item (shows a)) anything (List.map shows) s.tokens
      (match s.accept? (.punct ",") with
        | some t => t.andThen fun _ s₂ _ => (more s₂).andThen fun as s₃ _ => .done (a :: as) s₃
        | none => (s.expect (.punct ")")).andThen fun _ s₂ _ => .done [a] s₂) := by
  cases hcomma : s.accept? (.punct ",") with
  | some t =>
    obtain ⟨token, htokens, htoken⟩ := tokens_of_accept hcomma
    refine Reads.of (M := .after token ((Series item).seq fun xs => .just (shows a :: xs))) (reads_relax
      (reads_taken htokens (kind_of_is htoken) (reads_andThen (hmore t hcomma) (fun as s₃ _ _ => ?_) ?_))) ?_ ?_
    · exact reads_done (List.map shows) (a :: as) s₃
    · exact fun _ _ _ _ _ _ => trivial
    · rintro w x ⟨v, rfl, u, _, xs, rfl, hxs, rfl, rfl⟩
      simpa using SeriesRest.comma htoken hxs
    · rintro u y v hu - hmeets
      cases hu with
      | close hclose => cases hmeets.head htokens; simp_all [Token.is]
      | comma _ hrest => cases hmeets.head htokens; exact ⟨_, rfl, _, [], _, by simp, hrest, rfl, rfl⟩
  | none =>
    refine Reads.of (M := (Language.the (.punct ")")).seq fun _ => .just [shows a])
      (reads_andThen (F := anything) reads_expect (fun _ s₂ _ _ => ?_) ?_) ?_ ?_
    · exact reads_done (List.map shows) [a] s₂
    · exact fun _ _ _ _ _ _ => trivial
    · rintro w x ⟨_, _, _, rfl, ⟨t, rfl, ht⟩, rfl, rfl⟩
      exact .close ht
    · rintro u y v hu - hmeets
      cases hu with
      | close hclose => exact ⟨_, [], (), rfl, ⟨_, rfl, hclose⟩, rfl, rfl⟩
      | comma htoken hrest => exact absurd htoken (hmeets.unaccepted hcomma)

end Series

/-! ### Literals -/

theorem reads_number {follow : Follow Int} (s : State) : Reads (.token number?) follow id s.tokens (number s) := by
  refine reads_need fun t value h => ?_
  rw [(number?_eq_some.1 h).1]
  decide

theorem reads_identifier {follow : Follow (String × Nat)} (s : State) :
    Reads (.token identifier?) follow id s.tokens (identifier s) := by
  refine reads_need fun t (name, line) h => ?_
  rw [(identifier?_eq_some.1 h).1]
  decide

/-- A string literal that cannot be decoded is a lexical fault, and it is found where it stands. -/
theorem reads_stringLiteral {follow : Follow Phrase} {s : State} (hkind : s.kind? = some .string) :
    Reads (fun w x => ∃ t bytes, w = [t] ∧ t.kind = .string ∧ Literal.stringBytes t.text = .ok bytes ∧ x = .string bytes)
      follow Expr.phrase s.tokens (stringLiteral s) := by
  obtain ⟨tokens, lastLine, context⟩ := s
  cases tokens with
  | nil => cases hkind
  | cons t rest =>
    have hstring : t.kind = .string := Option.some.inj hkind
    unfold stringLiteral State.need State.take? string?
    simp only [hstring, ↓reduceIte, Option.map_some, Result.bind]
    cases hbytes : Literal.stringBytes t.text with
    | ok bytes =>
      refine ⟨[t], ⟨rfl, by simp [hstring]⟩, ⟨t, bytes, rfl, hstring, hbytes, rfl⟩, ?_⟩
      rintro _ _ v ⟨t', bytes', rfl, -, hbytes', rfl⟩ - hmeets
      have hone : Consumed (t :: rest) [t] rest := ⟨rfl, by simp [hstring]⟩
      cases (hmeets.start hone).head rfl
      rw [hbytes] at hbytes'
      cases hbytes'
      exact ⟨rfl, rfl⟩
    | error cause =>
      refine ⟨[], .nil _, t, rfl, hstring, fun bytes h => ?_⟩
      rw [hbytes] at h
      cases h

/-! ### Operators and operands -/

/-- What the name that stands before them makes of the tokens after it. -/
def AfterName (name : String) : Language Phrase := fun w x => ∃ suffix, Suffix Expression w suffix ∧ x = suffix name

/-- An operand that starts neither with an operator nor with a parenthesis is a literal or a name. -/
theorem operand_leaf {s : State} {u v : List Token} {y : Phrase} (hu : Operand u y) (hmeets : Meets [] s.tokens (u ++ v))
    (hno : ∀ t, s.tokens.head? = some t → unaryOp? t = none) (hparens : s.accept? (.punct "(") = none) :
    ∃ t w, u = t :: w ∧ s.kind? = some t.kind ∧
      ((t.kind = .number ∧ ∃ value, t.value = some value ∧ w = [] ∧ y = .number value) ∨
        (t.kind = .string ∧ ∃ bytes, Literal.stringBytes t.text = .ok bytes ∧ w = [] ∧ y = .string bytes) ∨
        (t.kind = .ident ∧ AfterName t.text w y)) := by
  cases hu with
  | unary hmem hsymbol _ =>
    have hop := hno _ hmeets.head?
    rw [unaryOp?_eq_some.2 ⟨_, hmem, hsymbol⟩] at hop
    cases hop
  | parens hopening _ _ =>
    exact absurd hopening (hmeets.unaccepted hparens)
  | number hkind hvalue =>
    exact ⟨_, _, rfl, by rw [State.kind?, hmeets.head?]; rfl, .inl ⟨hkind, _, hvalue, rfl, rfl⟩⟩
  | string hkind hbytes =>
    exact ⟨_, _, rfl, by rw [State.kind?, hmeets.head?]; rfl, .inr (.inl ⟨hkind, _, hbytes, rfl, rfl⟩)⟩
  | name hkind hsuffix =>
    exact ⟨_, _, rfl, by rw [State.kind?, hmeets.head?]; rfl, .inr (.inr ⟨hkind, _, hsuffix, rfl⟩)⟩

/-! ### One function of the parser at a time

Each lemma takes what the functions that are called read, and says what the calling function reads. -/

section Functions

variable {f : String} {s : State} {u v : List Token} {y : Phrase} {name : String}

/-- An expression is an operand and a tail of operators. -/
theorem reads_binary {floor n : Nat} (hn : n ≤ 6) (hunary : Reads Operand (closing 6) Expr.phrase s.tokens (unary f s))
    (hoperators : ∀ left s₁, s₁.size < s.size →
      Reads (Tail Operand n 6 left.phrase) (closing n) Expr.phrase s₁.tokens (operators f floor left s₁)) :
    Reads (Level Operand n) (closing n) Expr.phrase s.tokens (binary f floor s) := by
  rw [binary]
  refine Reads.of (M := Operand.seq (Tail Operand n 6))
    (reads_bind hunary (fun left s₁ h₁ _ => hoperators left s₁ h₁) ?_)
    (fun _ _ h => (level_eq_tail hn).2 h) (fun _ _ _ h _ _ => h.split)
  intro x u y v hu hv
  exact hv.tail hu hn fun op _ => by cases op <;> decide

/-- A right operand ended before the operator that comes next, so that operator takes the whole node as its left side. -/
theorem leftLevel_le_of_climbing {op next : BinaryOp} {right : Expr} {s₂ : State} {h : s₂.size < s.size} {t : Token}
    {floor : Nat} (hok : binary f op.strength s = .ok right s₂ h) (ht : s₂.tokens.head? = some t)
    (hnext : extension? floor t = some next) : next.leftLevel ≤ op.level := by
  have hstop := climbing_stops f op.strength s
  rw [hok] at hstop
  have hno := unread_of_take hstop ht
  rw [← BinaryOp.level_lt_rightLevel_iff]
  refine Nat.lt_of_not_le fun hle => ?_
  rw [extension?_eq_some.2 ⟨(extension?_eq_some.1 hnext).1, (floor_strength _ _).2 hle⟩] at hno
  cases hno

/-- A tail goes on with an operator and a right operand. -/
theorem reads_operator {floor n d : Nat} {left : Expr} (hfloor : Floor floor n) {t : Taken s.size BinaryOp}
    (ht : s.take? (extension? floor) = some t)
    (hd : ∀ t op, s.tokens.head? = some t → extension? floor t = some op → op.leftLevel ≤ d)
    (hright : Reads (Level Operand t.value.rightLevel) (closing t.value.rightLevel) Expr.phrase t.next.tokens
      (binary f t.value.strength t.next))
    (hrest : ∀ e s₂, s₂.size < t.next.size →
      (∀ t' op, s₂.tokens.head? = some t' → extension? floor t' = some op → op.leftLevel ≤ t.value.level) →
      Reads (Tail Operand n t.value.level e.phrase) (closing n) Expr.phrase s₂.tokens (operators f floor e s₂)) :
    Reads (Tail Operand n d left.phrase) (closing n) Expr.phrase s.tokens (operators f floor left s) := by
  obtain ⟨token, htokens, hvalue⟩ := tokens_of_take ht
  obtain ⟨hsymbol, hextends⟩ := extension?_eq_some.1 hvalue
  have hlevel := (hfloor t.value).1 hextends
  have hleft := hd token t.value (by rw [htokens]; rfl) hvalue
  rw [operators, ht]
  refine Reads.of (M := .after token ((Level Operand t.value.rightLevel).seq fun y =>
      Tail Operand n t.value.level (.binary t.value left.phrase y)))
    (reads_relax (reads_taken htokens (kind_of_is hsymbol) (reads_andThen hright
      (fun right s₂ h₂ hok => reads_demand fun e he => ?_) ?_))) ?_ ?_
  · obtain ⟨ty, l, r, rfl, hl, hr⟩ := binary_node he
    have hphrase : (Expr.binary { ty, line := s.line } t.value l r).phrase =
        .binary t.value left.phrase right.phrase := by
      rw [Expr.phrase, blind_phrase _ _ hl, blind_phrase _ _ hr]
    rw [← hphrase]
    exact hrest _ s₂ h₂ fun t' op' => leftLevel_le_of_climbing hok
  · intro y u z v hu hv
    exact hv.tail hu (Nat.le_trans hlevel t.value.level_le_rightLevel) fun op => (BinaryOp.level_lt_rightLevel_iff _ _).2
  · rintro w z ⟨_, rfl, u, v, y, rfl, hu, hv⟩
    exact .operator hlevel hleft hsymbol hu hv
  · rintro u z v hu hv hmeets
    cases hu with
    | nil =>
      obtain ⟨t', v', rfl, hv'⟩ := id hv
      cases hmeets.head htokens
      exact absurd (Closed.level_lt hv hsymbol) (Nat.not_lt.2 hlevel)
    | operator _ _ hsymbol' hright hrest =>
      cases hmeets.head htokens
      cases op_unique hsymbol hsymbol'
      exact ⟨_, rfl, _, _, _, rfl, hright, hrest⟩

theorem reads_noOperator {floor n d : Nat} {left : Expr} (hfloor : Floor floor n)
    (ht : s.take? (extension? floor) = none) :
    Reads (Tail Operand n d left.phrase) (closing n) Expr.phrase s.tokens (operators f floor left s) := by
  rw [operators, ht]
  refine Reads.of (M := .just left.phrase) (reads_done _ left s) ?_ ?_
  · rintro w x ⟨rfl, rfl⟩
    exact .nil
  · rintro u z v hu - hmeets
    cases hu with
    | nil => exact ⟨rfl, rfl⟩
    | operator hlevel _ hsymbol _ _ =>
      have hno := hmeets.unread ht
      rw [extension?_eq_some.2 ⟨hsymbol, (hfloor _).2 hlevel⟩] at hno
      cases hno

theorem reads_unaryOp {t : Taken s.size UnaryOp} (ht : s.take? unaryOp? = some t)
    (hoperand : Reads Operand (closing 6) Expr.phrase t.next.tokens (unary f t.next)) :
    Reads Operand (closing 6) Expr.phrase s.tokens (unary f s) := by
  obtain ⟨token, htokens, hvalue⟩ := tokens_of_take ht
  obtain ⟨text, hmem, hsymbol⟩ := unaryOp?_eq_some.1 hvalue
  rw [unary, ht]
  refine Reads.of (M := .after token (Operand.seq fun x => .just (.unary t.value x)))
    (reads_taken htokens (kind_of_is hsymbol) (reads_andThen hoperand
      (fun operand s₂ _ _ => reads_demand fun e he => ?_) ?_)) ?_ ?_
  · obtain ⟨ty, rfl⟩ := unary_node he
    exact reads_done Expr.phrase (Expr.ofUnary t.value operand ty) s₂
  · rintro x u y v ⟨rfl, -⟩ hv
    exact hv
  · rintro w x ⟨_, rfl, u, _, y, rfl, hu, rfl, rfl⟩
    simpa using Operand.unary hmem hsymbol hu
  · rintro u y v hu - hmeets
    cases hu with
    | unary hmem' hsymbol' hu =>
      cases hmeets.head htokens
      have hop := unaryOp?_eq_some.2 ⟨_, hmem', hsymbol'⟩
      rw [hvalue] at hop
      cases hop
      exact ⟨_, rfl, _, [], _, by simp, hu, rfl, rfl⟩
    | parens hopening _ _ => cases hmeets.head htokens; simp_all [unaryOp?, Token.is, UnaryOp.ofSymbol?]
    | number hkind _ => cases hmeets.head htokens; simp_all [unaryOp?]
    | string hkind _ => cases hmeets.head htokens; simp_all [unaryOp?]
    | name hkind _ => cases hmeets.head htokens; simp_all [unaryOp?]

/-! #### Operands without an operator in front -/

section Primary

variable (hno : ∀ t, s.tokens.head? = some t → unaryOp? t = none)
include hno

theorem reads_parens {t : Taken s.size Unit} (ht : s.accept? (.punct "(") = some t)
    (hinner : Reads Expression (closing 0) Expr.phrase t.next.tokens (binary f 0 t.next)) :
    Reads Operand (closing 6) Expr.phrase s.tokens (primary f s) := by
  obtain ⟨token, htokens, htoken⟩ := tokens_of_accept ht
  rw [primary, ht]
  refine Reads.of (M := .after token (Expression.seq fun x => (Language.the (.punct ")")).seq fun _ => .just x))
    (reads_taken htokens (kind_of_is htoken) (reads_andThen hinner
      (fun e s₂ _ _ => reads_andThen (F := anything) reads_expect (fun _ s₃ _ _ => reads_done _ e s₃) ?_) ?_)) ?_ ?_
  · exact fun _ _ _ _ _ _ => trivial
  · rintro x u y v ⟨_, _, _, rfl, ⟨t, rfl, ht⟩, -, -⟩ -
    exact Closed.paren ht
  · rintro w x ⟨_, rfl, u, _, y, rfl, hu, _, _, _, rfl, ⟨t, rfl, ht⟩, rfl, rfl⟩
    exact .parens htoken hu ht
  · rintro u y v hu - hmeets
    cases hu with
    | unary hmem hsymbol _ =>
      have hop := hno _ hmeets.head?
      rw [unaryOp?_eq_some.2 ⟨_, hmem, hsymbol⟩] at hop
      cases hop
    | parens _ hx hclose =>
      cases hmeets.head htokens
      exact ⟨_, rfl, _, _, _, rfl, hx, _, [], (), rfl, ⟨_, rfl, hclose⟩, rfl, rfl⟩
    | number hkind _ => cases hmeets.head htokens; simp_all [Token.is]
    | string hkind _ => cases hmeets.head htokens; simp_all [Token.is]
    | name hkind _ => cases hmeets.head htokens; simp_all [Token.is]

variable (hparens : s.accept? (.punct "(") = none)
include hparens

theorem reads_numberOperand (hkind : s.kind? = some .number) :
    Reads Operand (closing 6) Expr.phrase s.tokens (primary f s) := by
  rw [primary, hparens, hkind]
  refine Reads.of (M := (Language.token number?).seq fun value => .just (.number value))
    (reads_bind (F := anything) (reads_number s)
      (fun value s₁ _ _ => reads_done Expr.phrase (.ofInt value s.line) s₁) ?_) ?_ ?_
  · exact fun _ _ _ _ _ _ => trivial
  · rintro w x ⟨_, _, value, rfl, ⟨t, rfl, ht⟩, rfl, rfl⟩
    obtain ⟨htkind, hvalue⟩ := number?_eq_some.1 ht
    exact .number htkind hvalue
  · rintro u y v hu - hmeets
    obtain ⟨t, w, rfl, htkind, ⟨hk, value, hvalue, rfl, rfl⟩ | ⟨hk, -⟩ | ⟨hk, -⟩⟩ := operand_leaf hu hmeets hno hparens
    · exact ⟨_, [], _, by simp, ⟨_, rfl, number?_eq_some.2 ⟨hk, hvalue⟩⟩, rfl, rfl⟩
    · simp_all
    · simp_all

theorem reads_stringOperand (hkind : s.kind? = some .string) :
    Reads Operand (closing 6) Expr.phrase s.tokens (primary f s) := by
  rw [primary, hparens, hkind]
  refine Reads.of (reads_stringLiteral hkind) ?_ ?_
  · rintro w x ⟨t, bytes, rfl, ht, hbytes, rfl⟩
    exact .string ht hbytes
  · rintro u y v hu - hmeets
    obtain ⟨t, w, rfl, htkind, ⟨hk, -⟩ | ⟨hk, bytes, hbytes, rfl, rfl⟩ | ⟨hk, -⟩⟩ := operand_leaf hu hmeets hno hparens
    · simp_all
    · exact ⟨t, bytes, rfl, hk, hbytes, rfl⟩
    · simp_all

theorem reads_nameOperand (hkind : s.kind? = some .ident)
    (hnamed : ∀ s₁, s₁.size < s.size → ∀ name line,
      Reads (AfterName name) (closing 6) Expr.phrase s₁.tokens (named f name line s₁)) :
    Reads Operand (closing 6) Expr.phrase s.tokens (primary f s) := by
  rw [primary, hparens, hkind]
  refine Reads.of (M := (Language.token identifier?).seq fun p => AfterName p.1)
    (reads_bind (F := anything) (reads_identifier s) (fun p s₁ h₁ _ => hnamed s₁ h₁ p.1 p.2) ?_) ?_ ?_
  · exact fun _ _ _ _ _ _ => trivial
  · rintro w x ⟨_, v, ⟨name, line⟩, rfl, ⟨t, rfl, ht⟩, suffix, hsuffix, rfl⟩
    obtain ⟨htkind, rfl, rfl⟩ := identifier?_eq_some.1 ht
    exact .name htkind hsuffix
  · rintro u y v hu - hmeets
    obtain ⟨t, w, rfl, htkind, ⟨hk, -⟩ | ⟨hk, -⟩ | ⟨hk, hafter⟩⟩ := operand_leaf hu hmeets hno hparens
    · simp_all
    · simp_all
    · exact ⟨[t], w, (t.text, t.line), rfl, ⟨t, rfl, identifier?_eq_some.2 ⟨hk, rfl, rfl⟩⟩, hafter⟩

theorem reads_noOperand (hnumber : s.kind? ≠ some .number) (hstring : s.kind? ≠ some .string)
    (hident : s.kind? ≠ some .ident) : Reads Operand (closing 6) Expr.phrase s.tokens (primary f s) := by
  rw [primary, hparens]
  simp only
  refine reads_refused ?_
  rintro u y v hu - hmeets
  obtain ⟨t, w, rfl, htkind, ⟨hk, -⟩ | ⟨hk, -⟩ | ⟨hk, -⟩⟩ := operand_leaf hu hmeets hno hparens
  · exact hnumber (by rw [htkind, hk])
  · exact hstring (by rw [htkind, hk])
  · exact hident (by rw [htkind, hk])

end Primary

/-! #### What follows a name -/

/-- Only the arguments of a call start with a parenthesis. -/
theorem AfterName.call {t : Token} (hu : AfterName name u y) (hv : Closed 6 v) (hmeets : Meets [] s.tokens (u ++ v))
    (ht : s.tokens.head? = some t) (hopening : t.is (.punct "(")) :
    ∃ w args, u = t :: w ∧ Enclosed Expression w args ∧ y = .call name args := by
  obtain ⟨suffix, hu, rfl⟩ := hu
  have hhead : ∀ {t' us}, Meets [] s.tokens (t' :: us) → t' = t := fun h => Option.some.inj (h.head?.symm.trans ht)
  cases hu with
  | plain =>
    obtain ⟨t', v', rfl, -⟩ := id hv
    cases hhead hmeets
    rw [(Closed.not_suffix hv).1] at hopening
    cases hopening
  | call _ hargs =>
    cases hhead hmeets
    exact ⟨_, _, rfl, hargs, rfl⟩
  | index hbracket _ _ =>
    cases hhead hmeets
    simp_all [Token.is]
  | step hmem hsymbol =>
    cases hhead hmeets
    rw [(trailing_not_opening hmem hsymbol).1] at hopening
    cases hopening

/-- Only an index starts with a bracket. -/
theorem AfterName.index {t : Token} (hu : AfterName name u y) (hv : Closed 6 v) (hmeets : Meets [] s.tokens (u ++ v))
    (ht : s.tokens.head? = some t) (hbracket : t.is (.punct "[")) :
    ∃ w x close, u = t :: (w ++ [close]) ∧ Expression w x ∧ close.is (.punct "]") ∧ y = .index name x := by
  obtain ⟨suffix, hu, rfl⟩ := hu
  have hhead : ∀ {t' us}, Meets [] s.tokens (t' :: us) → t' = t := fun h => Option.some.inj (h.head?.symm.trans ht)
  cases hu with
  | plain =>
    obtain ⟨t', v', rfl, -⟩ := id hv
    cases hhead hmeets
    rw [(Closed.not_suffix hv).2.1] at hbracket
    cases hbracket
  | call hopening _ =>
    cases hhead hmeets
    simp_all [Token.is]
  | index _ hx hclose =>
    cases hhead hmeets
    exact ⟨_, _, _, rfl, hx, hclose, rfl⟩
  | step hmem hsymbol =>
    cases hhead hmeets
    rw [(trailing_not_opening hmem hsymbol).2] at hbracket
    cases hbracket

/-- What starts with neither a parenthesis nor a bracket is nothing or a step. -/
theorem AfterName.plain_or_step (hu : AfterName name u y) (hmeets : Meets [] s.tokens (u ++ v))
    (hcall : ¬ s.sees (.punct "(") = true) (hindex : s.accept? (.punct "[") = none) :
    u = [] ∧ y = .name name ∨
      ∃ t direction, u = [t] ∧ trailingStep? t = some direction ∧ y = .unary (.step .after direction) (.name name) := by
  obtain ⟨suffix, hu, rfl⟩ := hu
  cases hu with
  | plain => exact .inl ⟨rfl, rfl⟩
  | call hopening _ =>
    rw [unread_of_sees hcall hmeets.head?] at hopening
    cases hopening
  | index hbracket _ _ => exact absurd hbracket (hmeets.unaccepted hindex)
  | step hmem hsymbol => exact .inr ⟨_, _, rfl, trailingStep?_eq_some.2 ⟨_, hmem, hsymbol⟩, rfl⟩

theorem reads_call {line : Nat} (hsees : s.sees (.punct "("))
    (hargs : ∀ s₁, s₁.size < s.size →
      Reads (Enclosed Expression) anything (List.map Expr.phrase) s₁.tokens (arguments f s₁)) :
    Reads (AfterName name) (closing 6) Expr.phrase s.tokens (named f name line s) := by
  rw [named, if_pos hsees]
  refine reads_demand ?_
  rintro ⟨ret, params⟩ -
  refine Reads.of (M := (Language.the (.punct "(")).seq fun _ => (Enclosed Expression).seq fun args =>
      .just (.call name args))
    (reads_andThen (F := anything) reads_expect (fun _ s₁ h₁ _ => reads_andThen (hargs s₁ h₁)
      (fun args s₂ _ _ => reads_demand fun e he => ?_) ?_) ?_) ?_ ?_
  · obtain ⟨args', rfl, -, hblind⟩ := call_node he
    have hphrase : (Expr.call { ty := ret, line } name args').phrase = .call name (args.map Expr.phrase) := by
      rw [Expr.phrase, exprPhrases_eq_map, hblind blind_phrase]
    rw [← hphrase]
    exact reads_done _ _ s₂
  · exact fun _ _ _ _ _ _ => trivial
  · exact fun _ _ _ _ _ _ => trivial
  · rintro w x ⟨_, _, _, rfl, ⟨t, rfl, ht⟩, u, _, args, rfl, hargs, rfl, rfl⟩
    exact ⟨_, by simpa using Suffix.call ht hargs, rfl⟩
  · rintro u y v hu hv hmeets
    obtain ⟨t, ht, hopening⟩ := (Option.any_eq_true _ _).1 hsees
    obtain ⟨w, args, rfl, hargs, rfl⟩ := hu.call hv hmeets ht hopening
    exact ⟨[t], w, (), rfl, ⟨t, rfl, hopening⟩, w, [], args, by simp, hargs, rfl, rfl⟩

section Place

variable {line : Nat} (hsees : ¬ s.sees (.punct "(") = true)
include hsees

theorem reads_index {t : Taken s.size Unit} (ht : s.accept? (.punct "[") = some t)
    (hindex : Reads Expression (closing 0) Expr.phrase t.next.tokens (binary f 0 t.next)) :
    Reads (AfterName name) (closing 6) Expr.phrase s.tokens (named f name line s) := by
  obtain ⟨token, htokens, htoken⟩ := tokens_of_accept ht
  rw [named, if_neg hsees]
  refine reads_demand fun base hbase => ?_
  obtain ⟨info, scope, rfl⟩ := name_node hbase
  rw [ht]
  refine Reads.of (M := .after token (Expression.seq fun x => (Language.the (.punct "]")).seq fun _ =>
      .just (.index name x)))
    (reads_relax (reads_taken htokens (kind_of_is htoken) (reads_andThen hindex (fun index s₂ _ _ =>
      reads_andThen (F := anything) reads_expect (fun _ s₃ _ _ => reads_demand fun e he => ?_) ?_) ?_))) ?_ ?_
  · obtain ⟨info', offset, element, hoffset, rfl⟩ := index_node he
    have hphrase : (Expr.ofUnary .deref (.binary info' .add (.ident info name scope) offset) element).phrase =
        .index name index.phrase := by
      rw [← blind_phrase _ _ hoffset]
      rfl
    rw [← hphrase]
    exact reads_done _ _ s₃
  · exact fun _ _ _ _ _ _ => trivial
  · rintro x u y v ⟨_, _, _, rfl, ⟨t, rfl, ht⟩, -, -⟩ -
    exact Closed.bracket ht
  · rintro w x ⟨_, rfl, u, _, y, rfl, hu, _, _, _, rfl, ⟨t, rfl, ht⟩, rfl, rfl⟩
    exact ⟨_, .index htoken hu ht, rfl⟩
  · rintro u y v hu hv hmeets
    obtain ⟨w, x, close, rfl, hx, hclose, rfl⟩ := hu.index hv hmeets (by rw [htokens]; rfl) htoken
    exact ⟨_, rfl, w, [close], x, rfl, hx, [close], [], (), rfl, ⟨close, rfl, hclose⟩, rfl, rfl⟩

variable (hindex : s.accept? (.punct "[") = none)
include hindex

theorem reads_trailingStep {t : Taken s.size Direction} (ht : s.take? trailingStep? = some t) :
    Reads (AfterName name) (closing 6) Expr.phrase s.tokens (named f name line s) := by
  obtain ⟨token, htokens, hvalue⟩ := tokens_of_take ht
  obtain ⟨text, hmem, hsymbol⟩ := trailingStep?_eq_some.1 hvalue
  rw [named, if_neg hsees]
  refine reads_demand fun base hbase => ?_
  obtain ⟨info, scope, rfl⟩ := name_node hbase
  rw [hindex, ht]
  refine Reads.of (M := .after token (.just (.unary (.step .after t.value) (.name name))))
    (reads_relax (reads_taken htokens (kind_of_is hsymbol) (reads_demand fun e he => ?_))) ?_ ?_
  · have he : Typing.unary (t.next.names f) (.step .after t.value) (.ident info name scope) = .ok e := he
    obtain ⟨ty, rfl⟩ := unary_node he
    exact reads_done Expr.phrase (.ofUnary (.step .after t.value) (.ident info name scope) ty) t.next
  · rintro w x ⟨_, rfl, rfl, rfl⟩
    exact ⟨_, .step hmem hsymbol, rfl⟩
  · rintro u y v hu hv hmeets
    obtain ⟨rfl, rfl⟩ | ⟨t', direction, rfl, hstep, rfl⟩ := hu.plain_or_step hmeets hsees hindex
    · obtain ⟨t', v', rfl, -⟩ := id hv
      cases hmeets.head htokens
      rw [(Closed.not_suffix hv).2.2] at hvalue
      cases hvalue
    · cases hmeets.head htokens
      rw [hvalue] at hstep
      cases hstep
      exact ⟨_, rfl, rfl, rfl⟩

theorem reads_bareName (ht : s.take? trailingStep? = none) :
    Reads (AfterName name) (closing 6) Expr.phrase s.tokens (named f name line s) := by
  rw [named, if_neg hsees]
  refine reads_demand fun base hbase => ?_
  obtain ⟨info, scope, rfl⟩ := name_node hbase
  rw [hindex, ht]
  refine Reads.of (M := .just (.name name)) (reads_done Expr.phrase (.ident info name scope) s) ?_ ?_
  · rintro w x ⟨rfl, rfl⟩
    exact ⟨_, .plain, rfl⟩
  · rintro u y v hu - hmeets
    obtain ⟨rfl, rfl⟩ | ⟨t, direction, rfl, hstep, rfl⟩ := hu.plain_or_step hmeets hsees hindex
    · exact ⟨rfl, rfl⟩
    · rw [hmeets.unread ht] at hstep
      cases hstep

end Place

/-! #### Arguments -/

theorem reads_noArguments {t : Taken s.size Unit} (ht : s.accept? (.punct ")") = some t) :
    Reads (Enclosed Expression) anything (List.map Expr.phrase) s.tokens (arguments f s) := by
  obtain ⟨token, htokens, htoken⟩ := tokens_of_accept ht
  rw [arguments, ht]
  refine Reads.of (M := .after token (.just []))
    (reads_taken htokens (kind_of_is htoken) (reads_done (List.map Expr.phrase) [] t.next)) ?_ ?_
  · rintro w x ⟨_, rfl, rfl, rfl⟩
    exact .empty htoken
  · rintro u y v hu - hmeets
    cases hu with
    | empty _ => cases hmeets.head htokens; exact ⟨_, rfl, rfl, rfl⟩
    | series h =>
      obtain ⟨w, w', x, rfl, hx, -⟩ := series_eq_seq.1 h
      obtain ⟨t', w, rfl, hstarts⟩ := level_first hx
      cases hmeets.head htokens
      exact absurd (hstarts.mem htoken) (by decide)

theorem reads_someArguments (ht : s.accept? (.punct ")") = none)
    (hmore : Reads (Series Expression) anything (List.map Expr.phrase) s.tokens (moreArguments f s)) :
    Reads (Enclosed Expression) anything (List.map Expr.phrase) s.tokens (arguments f s) := by
  rw [arguments, ht]
  refine Reads.of hmore (fun _ _ => .series) ?_
  rintro u y v hu - hmeets
  cases hu with
  | empty hclose => exact absurd hclose (hmeets.unaccepted ht)
  | series h => exact h

theorem reads_moreArguments (harg : Reads Expression (closing 0) Expr.phrase s.tokens (binary f 0 s))
    (hmore : ∀ s₁ : State, s₁.size < s.size → ∀ s₂ : State, s₂.size < s₁.size →
      Reads (Series Expression) anything (List.map Expr.phrase) s₂.tokens (moreArguments f s₂)) :
    Reads (Series Expression) anything (List.map Expr.phrase) s.tokens (moreArguments f s) := by
  rw [moreArguments]
  refine Reads.of (M := Expression.seq (SeriesRest Expression)) (reads_bind harg
    (fun arg s₁ h₁ _ => reads_seriesRest _ _ fun t _ => hmore s₁ h₁ t.next t.shorter) ?_)
    (fun _ _ => series_eq_seq.2) (fun _ _ _ h _ _ => series_eq_seq.1 h)
  rintro x u y v hu -
  cases hu with
  | close hclose => exact Closed.paren hclose
  | comma hcomma _ => exact Closed.comma hcomma

end Functions

/-! ### All functions together -/

/-- **Expressions.** Every part of the expression parser reads the language of its nonterminal. -/
theorem grammar_reads (f : String) :
    (∀ floor s n, n ≤ 6 → Floor floor n →
      Reads (Level Operand n) (closing n) Expr.phrase s.tokens (binary f floor s)) ∧
    (∀ floor left s n d, Floor floor n →
      (∀ t op, s.tokens.head? = some t → extension? floor t = some op → op.leftLevel ≤ d) →
      Reads (Tail Operand n d left.phrase) (closing n) Expr.phrase s.tokens (operators f floor left s)) ∧
    (∀ s, Reads Operand (closing 6) Expr.phrase s.tokens (unary f s)) ∧
    (∀ s, (∀ t, s.tokens.head? = some t → unaryOp? t = none) →
      Reads Operand (closing 6) Expr.phrase s.tokens (primary f s)) ∧
    (∀ name line s, Reads (AfterName name) (closing 6) Expr.phrase s.tokens (named f name line s)) ∧
    (∀ s, Reads (Enclosed Expression) anything (List.map Expr.phrase) s.tokens (arguments f s)) ∧
    (∀ s, Reads (Series Expression) anything (List.map Expr.phrase) s.tokens (moreArguments f s)) := by
  refine binary.mutual_induct _ _ _ _ _ _ _
    ?binary ?operator ?noOperator ?unaryOp ?noUnaryOp ?parens ?number ?string ?name ?noPrimary ?call ?notCall ?noArgs
    ?someArgs ?moreArgs
  case binary =>
    intro floor s ihUnary ihOperators n hn hfloor
    exact reads_binary hn ihUnary fun left s₁ h₁ => ihOperators left s₁ h₁ n 6 hfloor fun _ op _ _ => op.leftLevel_le
  case operator =>
    intro floor left s t ht ihRight ihRest n d hfloor hd
    refine reads_operator hfloor ht hd ?_ fun e s₂ h₂ => ihRest t.next t.shorter s₂ h₂ e n _ hfloor
    exact ihRight t.value t.next t.shorter _ t.value.rightLevel_le (floor_strength _)
  case noOperator => exact fun floor left s ht n d hfloor _ => reads_noOperator hfloor ht
  case unaryOp => exact fun s t ht ihOperand => reads_unaryOp ht (ihOperand t.next t.shorter)
  case noUnaryOp =>
    intro s ht ihPrimary
    rw [unary, ht]
    exact ihPrimary fun t ht' => unread_of_take ht ht'
  case parens =>
    intro s t ht ihInner hno
    exact reads_parens hno ht (ihInner t.next t.shorter 0 (by decide) floor_zero)
  case number => exact fun s hparens hkind hno => reads_numberOperand hno hparens hkind
  case string => exact fun s hparens hkind hno => reads_stringOperand hno hparens hkind
  case name => exact fun s hparens hkind ihNamed hno => reads_nameOperand hno hparens hkind ihNamed
  case noPrimary =>
    intro s hparens hnumber hstring hident hno
    exact reads_noOperand hno hparens hnumber hstring hident
  case call => exact fun name line s hsees ihArgs => reads_call hsees ihArgs
  case notCall =>
    intro name line s hsees ihIndex
    cases hindex : s.accept? (.punct "[") with
    | some t => exact reads_index hsees hindex (ihIndex t.next t.shorter 0 (by decide) floor_zero)
    | none =>
      cases hstep : s.take? trailingStep? with
      | some t => exact reads_trailingStep hsees hindex hstep
      | none => exact reads_bareName hsees hindex hstep
  case noArgs => exact fun s t ht => reads_noArguments ht
  case someArgs => exact fun s ht ihMore => reads_someArguments ht ihMore
  case moreArgs =>
    intro s ihArg ihMore
    exact reads_moreArguments (ihArg 0 (by decide) floor_zero) fun s₁ h₁ s₂ h₂ => ihMore s₁ h₁ s₂ h₂

theorem reads_expression (f : String) (s : State) :
    Reads Expression (closing 0) Expr.phrase s.tokens (expression f s) := (grammar_reads f).1 0 s 0 (by decide) floor_zero

theorem reads_condition (f : String) (s : State) :
    Reads Expression (closing 0) Expr.phrase s.tokens (condition f s) := by
  unfold condition
  refine Reads.of (M := Expression.seq fun x => .just x) (reads_bind (reads_expression f s)
    (fun e s₁ _ _ => reads_demand fun e' he' => ?_) ?_) ?_ ?_
  · rw [condition_node he']
    exact reads_done _ e s₁
  · rintro x u y v ⟨rfl, rfl⟩ hv
    exact hv
  · rintro w x ⟨u, _, _, rfl, hu, rfl, rfl⟩
    simpa using hu
  · rintro u y v hu - -
    exact ⟨u, [], y, by simp, hu, rfl, rfl⟩

end Parse

end MiniC
