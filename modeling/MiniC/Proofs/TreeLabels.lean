import MiniC.Proofs.Elaboration

/-!
# The labels that parsing draws

Parsing draws a label for every string literal and for every function when it is first declared, all from one counter.
So the labels of the literals of a program rise with the order of the tree, and none of them is the label of a function
(`BuildsItems.literals_unclaimed`). `Draws` is the history of a context with the labels that were drawn on the way, and
`Grows` says what any parse, failed or not, leaves of the labels that were there before.
-/

namespace MiniC

open Parse

/-! ## Literals of trees -/

mutual

/-- The labels of the string literals, in the order of the tree. -/
def Expr.literals : Expr → List Nat
  | .ident .. | .number .. => []
  | .string _ label _ => [label]
  | .unary _ _ operand | .convert _ _ operand => operand.literals
  | .binary _ _ left right => left.literals ++ right.literals
  | .ifElse _ cond yes no => cond.literals ++ (yes.literals ++ optionalStmtLiterals no)
  | .whileLoop _ cond body => cond.literals ++ body.literals
  | .forLoop _ init cond post body =>
    optionalLiterals init ++ (optionalLiterals cond ++ (optionalLiterals post ++ body.literals))
  | .call _ _ args => exprLiterals args

def Stmt.literals : Stmt → List Nat
  | .ret value => optionalLiterals value
  | .expr e => e.literals
  | .block stmts => stmtLiterals stmts
  | .function _ body => body.literals
  | .varDecl _ | .globalDecl _ | .prototype _ => []

def optionalLiterals : Option Expr → List Nat
  | none => []
  | some e => e.literals

def optionalStmtLiterals : Option Stmt → List Nat
  | none => []
  | some stmt => stmt.literals

def exprLiterals : List Expr → List Nat
  | [] => []
  | e :: es => e.literals ++ exprLiterals es

def stmtLiterals : List Stmt → List Nat
  | [] => []
  | stmt :: stmts => stmt.literals ++ stmtLiterals stmts

end

theorem exprLiterals_eq (es : List Expr) : exprLiterals es = (es.map Expr.literals).flatten := by
  induction es with
  | nil => rw [exprLiterals]; rfl
  | cons e es ih => rw [exprLiterals, ih]; rfl

/-- Adapting an expression to its place leaves its literals alone. -/
theorem blind_literals : Blind Expr.literals := by
  rintro e _ (_ | _ | _)
  · rfl
  · rw [Expr.literals]
  · cases e <;> simp only [Expr.asTarget, Expr.literals]

/-! ## Labels in rising order -/

/-- The labels rise from `lo` on and stay below `hi`. -/
structure Rising (lo : Nat) (ls : List Nat) (hi : Nat) : Prop where
  le : lo ≤ hi
  within : ∀ l ∈ ls, lo ≤ l ∧ l < hi
  rising : ls.Pairwise (· < ·)

namespace Rising

variable {lo mid hi : Nat} {ls ls' : List Nat}

theorem nil (h : lo ≤ hi) : Rising lo [] hi := ⟨h, by simp, .nil⟩

theorem append (h : Rising lo ls mid) (h' : Rising mid ls' hi) : Rising lo (ls ++ ls') hi := by
  have hle := h.le
  have hle' := h'.le
  refine ⟨by omega, fun l hl => ?_, List.pairwise_append.2 ⟨h.rising, h'.rising, fun l hl l' hl' => ?_⟩⟩
  · rcases List.mem_append.1 hl with hl | hl
    · have := h.within l hl
      omega
    · have := h'.within l hl
      omega
  · have := h.within l hl
    have := h'.within l' hl'
    omega

theorem mono (h : Rising lo ls hi) {lo' hi' : Nat} (hlo : lo' ≤ lo) (hhi : hi ≤ hi') : Rising lo' ls hi' := by
  refine ⟨by have := h.le; omega, fun l hl => ?_, h.rising⟩
  have := h.within l hl
  omega

theorem nodup (h : Rising lo ls hi) : ls.Nodup := h.rising.imp fun hlt => Nat.ne_of_lt hlt

end Rising

section Building

variable {f : String} {H : Head → Prop}

mutual

/-- The literals of an expression take the labels of the moment. -/
theorem Builds.literals_rising : ∀ {c c' : Context} {e : Expr}, Builds f c e c' →
    Rising c.nextLabel e.literals c'.nextLabel
  | _, _, _, .number .. => by
    unfold Expr.ofInt
    rw [Expr.literals]
    exact .nil (Nat.le_refl _)
  | c, _, _, .string .. => by
    rw [Expr.literals]
    exact ⟨Nat.le_succ _, fun l hl => by rw [List.mem_singleton.1 hl]; exact ⟨Nat.le_refl _, Nat.lt_succ_self _⟩,
      List.pairwise_singleton _ _⟩
  | _, _, _, .name rule => by
    obtain ⟨_, _, rfl⟩ := name_node rule
    rw [Expr.literals]
    exact .nil (Nat.le_refl _)
  | _, _, _, .index named inner rule => by
    obtain ⟨_, _, rfl⟩ := name_node named
    obtain ⟨_, offset, _, hadapted, rfl⟩ := index_node rule
    rw [Expr.ofUnary, Expr.literals, Expr.literals, Expr.literals, blind_literals _ _ hadapted]
    exact inner.literals_rising
  | _, _, _, .call _ inner rule => by
    obtain ⟨args', rfl, -, hblind⟩ := call_node rule
    rw [Expr.literals, exprLiterals_eq, hblind blind_literals, ← exprLiterals_eq]
    exact inner.literals_rising
  | _, _, _, .unary inner rule => by
    obtain ⟨_, rfl⟩ := unary_node rule
    rw [Expr.ofUnary, Expr.literals]
    exact inner.literals_rising
  | _, _, _, .binary first second rule => by
    obtain ⟨_, _, _, rfl, hleft, hright⟩ := binary_node rule
    rw [Expr.literals, blind_literals _ _ hleft, blind_literals _ _ hright]
    exact first.literals_rising.append second.literals_rising

theorem BuildsAll.literals_rising : ∀ {c c' : Context} {es : List Expr}, BuildsAll f c es c' →
    Rising c.nextLabel (exprLiterals es) c'.nextLabel
  | _, _, _, .nil => by
    rw [exprLiterals]
    exact .nil (Nat.le_refl _)
  | _, _, _, .cons first rest => by
    rw [exprLiterals]
    exact first.literals_rising.append rest.literals_rising

end

theorem Optionally.literals_rising {B : Context → Expr → Context → Prop} {c c' : Context} {e : Option Expr}
    (hB : ∀ c e c', B c e c' → Rising c.nextLabel e.literals c'.nextLabel) (h : Optionally B c e c') :
    Rising c.nextLabel (optionalLiterals e) c'.nextLabel := by
  cases h with
  | none => rw [optionalLiterals]; exact .nil (Nat.le_refl _)
  | some built => rw [optionalLiterals]; exact hB _ _ _ built

mutual

/-- The literals of a statement take the labels of the moment. -/
theorem BuildsStmt.literals_rising : ∀ {c c' : Context} {stmt : Stmt}, BuildsStmt f c stmt c' →
    Rising c.nextLabel stmt.literals c'.nextLabel
  | _, _, _, .retNone _ rule => by
    obtain rfl := returnNothing_node rule
    rw [Stmt.literals, optionalLiterals]
    exact .nil (Nat.le_refl _)
  | _, _, _, .ret _ inner rule => by
    obtain ⟨_, rfl, hadapted⟩ := returnValue_node rule
    rw [Stmt.literals, optionalLiterals, blind_literals _ _ hadapted]
    exact inner.literals_rising
  | _, _, _, .expr inner => by
    rw [Stmt.literals]
    exact inner.literals_rising
  | _, _, _, .declaration _ entered => by
    cases entered <;> rw [Stmt.literals] <;> exact .nil (Nat.le_refl _)
  | _, _, _, .block inner => by
    rw [Stmt.literals]
    exact inner.literals_rising
  | _, _, _, .ifThen test first => by
    rw [Stmt.literals, Expr.literals, optionalStmtLiterals, List.append_nil]
    exact test.built.literals_rising.append first.literals_rising
  | _, _, _, .ifElse test first second => by
    rw [Stmt.literals, Expr.literals, optionalStmtLiterals]
    exact test.built.literals_rising.append (first.literals_rising.append second.literals_rising)
  | _, _, _, .whileLoop test inner => by
    rw [Stmt.literals, Expr.literals]
    exact test.built.literals_rising.append inner.literals_rising
  | _, _, _, .forLoop start test next inner => by
    rw [Stmt.literals, Expr.literals]
    have hstart := start.literals_rising fun _ _ _ h => h.literals_rising
    have htest := test.literals_rising fun _ _ _ h => h.built.literals_rising
    have hnext := next.literals_rising fun _ _ _ h => h.literals_rising
    exact hstart.append (htest.append (hnext.append inner.literals_rising))

theorem BuildsStmts.literals_rising : ∀ {c c' : Context} {stmts : List Stmt}, BuildsStmts f c stmts c' →
    Rising c.nextLabel (stmtLiterals stmts) c'.nextLabel
  | _, _, _, .nil => by
    rw [stmtLiterals]
    exact .nil (Nat.le_refl _)
  | _, _, _, .cons first rest => by
    rw [stmtLiterals]
    exact first.literals_rising.append rest.literals_rising

end

/-! ## What becomes of the labels of functions -/

/-- The function `g` has the label `l`. -/
def Context.Claims (c : Context) (g : String) (l : Nat) : Prop :=
  ∃ s, c.symbols.global? g = some s ∧ s.label = some l

/-- From `c` to `c'` the table changes, and the labels of the list are drawn in this order. -/
inductive Draws (c : Context) : List Nat → Context → Prop where
  | nil : Draws c [] c
  | symbols {ls : List Nat} {c' : Context} (h : Draws c ls c') (t : SymbolTable) : Draws c ls { c' with symbols := t }
  | label {ls : List Nat} {c' : Context} (h : Draws c ls c') : Draws c (ls ++ [c'.drawLabel.1]) c'.drawLabel.2

namespace Draws

variable {a b c : Context} {ls ls' : List Nat}

theorem append (h : Draws a ls b) (h' : Draws b ls' c) : Draws a (ls ++ ls') c := by
  induction h' with
  | nil => rw [List.append_nil]; exact h
  | symbols _ t ih => exact ih.symbols t
  | label _ ih => rw [← List.append_assoc]; exact ih.label

/-- Every label is drawn once, from the next one on. -/
theorem labels_eq (h : Draws a ls b) :
    a.nextLabel ≤ b.nextLabel ∧ ls = List.range' a.nextLabel (b.nextLabel - a.nextLabel) := by
  induction h with
  | nil => simp
  | symbols _ _ ih => exact ih
  | @label ls b _ ih =>
    obtain ⟨hle, rfl⟩ := ih
    refine ⟨Nat.le_succ_of_le hle, ?_⟩
    show _ = List.range' a.nextLabel (b.nextLabel + 1 - a.nextLabel)
    rw [Nat.succ_sub hle, List.range'_1_concat, Nat.add_sub_cancel' hle]
    rfl

theorem mem_iff (h : Draws a ls b) {l : Nat} : l ∈ ls ↔ a.nextLabel ≤ l ∧ l < b.nextLabel := by
  obtain ⟨hle, rfl⟩ := h.labels_eq
  rw [List.mem_range'_1]
  omega

theorem rising (h : Draws a ls b) : Rising a.nextLabel ls b.nextLabel := by
  refine ⟨h.labels_eq.1, fun l hl => h.mem_iff.1 hl, ?_⟩
  rw [h.labels_eq.2]
  exact List.pairwise_lt_range'

end Draws

/-- Labels are drawn, and a function that has a label in `c'` had it before and keeps its body, or got it on the way. -/
structure Grows (c c' : Context) : Prop where
  draws : ∃ ls, Draws c ls c'
  claims : ∀ g l, c'.Claims g l → (c.Claims g l ∧ (c.symbols.IsDefined g → c'.symbols.IsDefined g)) ∨
    (c.nextLabel ≤ l ∧ l < c'.nextLabel)

theorem Grows.le {c c' : Context} (h : Grows c c') : c.nextLabel ≤ c'.nextLabel := by
  obtain ⟨_, hdraws⟩ := h.draws
  exact hdraws.labels_eq.1

/-- Labels are drawn upwards, and no function gets one. -/
structure Quiet (c c' : Context) : Prop where
  le : c.nextLabel ≤ c'.nextLabel
  claims : ∀ g l, c'.Claims g l → c.Claims g l

theorem Grows.of_globals {c c' : Context} (h : c'.symbols.globals = c.symbols.globals) (hdraws : ∃ ls, Draws c ls c') :
    Grows c c' := by
  have hglobal : ∀ g, c'.symbols.global? g = c.symbols.global? g := fun g => by unfold SymbolTable.global?; rw [h]
  refine ⟨hdraws, ?_⟩
  rintro g l ⟨s, hs, hl⟩
  rw [hglobal] at hs
  refine .inl ⟨⟨s, hs, hl⟩, ?_⟩
  rintro ⟨s', hs', hd⟩
  exact ⟨s', (hglobal g).trans hs', hd⟩

theorem Grows.refl (c : Context) : Grows c c := .of_globals rfl ⟨_, .nil⟩

theorem Grows.trans {a b c : Context} (h : Grows a b) (h' : Grows b c) : Grows a c := by
  have hle := h.le
  have hle' := h'.le
  obtain ⟨ls, hdraws⟩ := h.draws
  obtain ⟨ls', hdraws'⟩ := h'.draws
  refine ⟨⟨_, hdraws.append hdraws'⟩, fun g l hclaims => ?_⟩
  rcases h'.claims g l hclaims with ⟨hb, hdefined'⟩ | hl
  · rcases h.claims g l hb with ⟨ha, hdefined⟩ | hl
    · exact .inl ⟨ha, hdefined' ∘ hdefined⟩
    · exact .inr (by omega)
  · exact .inr (by omega)

theorem claims_declareGlobal {c : Context} {name g : String} {kind : SymbolKind} {ty : Ty} {label : Option Nat}
    {count : Int} {t : SymbolTable} {n l : Nat} (h : c.symbols.declareGlobal name kind ty label count = .ok t)
    (hclaims : Context.Claims ⟨t, n⟩ g l) :
    (c.Claims g l ∧ (c.symbols.IsDefined g → t.IsDefined g)) ∨ label = some l := by
  have hlater := SymbolTable.later_declareGlobal h
  unfold SymbolTable.declareGlobal at h
  split at h
  · cases h
  · next hnew =>
    cases h
    obtain ⟨s, hs, hl⟩ := hclaims
    have hs := (SymbolTable.global?_append (by exact hnew)).symm.trans hs
    split at hs
    · cases hs
      exact .inr hl
    · exact .inl ⟨⟨s, hs, hl⟩, hlater.isDefined⟩

theorem declaring_grows : Declaring Grows where
  refl := .refl
  trans := .trans
  draw _ := .of_globals rfl ⟨_, .label .nil⟩
  declareLocal := by
    intro c f name kind ty count t ht
    obtain ⟨symbols, -, -, rfl⟩ := SymbolTable.addMember_cases ht
    exact .of_globals rfl ⟨_, .symbols .nil _⟩
  declareGlobal := by
    intro c name kind ty count t _ ht
    refine ⟨⟨_, .symbols .nil t⟩, fun g l hclaims => ?_⟩
    rcases claims_declareGlobal ht hclaims with h | h
    · exact .inl h
    · cases h

theorem declaring_quiet : Declaring Quiet where
  refl _ := ⟨Nat.le_refl _, fun _ _ => id⟩
  trans h h' := ⟨Nat.le_trans h.le h'.le, fun g l => h.claims g l ∘ h'.claims g l⟩
  draw _ := ⟨Nat.le_succ _, fun _ _ => id⟩
  declareLocal := by
    intro c f name kind ty count t ht
    obtain ⟨symbols, -, -, rfl⟩ := SymbolTable.addMember_cases ht
    exact ⟨Nat.le_refl _, fun _ _ => id⟩
  declareGlobal := by
    intro c name kind ty count t _ ht
    refine ⟨Nat.le_refl _, fun g l hclaims => ?_⟩
    rcases claims_declareGlobal ht hclaims with h | h
    · exact h.1
    · cases h

theorem grows_define (c : Context) (name : String) : Grows c { c with symbols := c.symbols.define name } := by
  refine ⟨⟨_, .symbols .nil _⟩, ?_⟩
  rintro g l ⟨s, hs, hl⟩
  refine .inl ⟨?_, (SymbolTable.later_define c.symbols name).isDefined⟩
  rw [SymbolTable.global?_define] at hs
  obtain ⟨s', hs', rfl⟩ := Option.map_eq_some_iff.1 hs
  refine ⟨s', hs', ?_⟩
  split at hl <;> exact hl

theorem defining_grows : Defining Grows where
  toDeclaring := declaring_grows
  declareHead c head hasBody := by
    refine ends_declareHead (P := fun _ c₁ => Grows c c₁) (R := Grows c) ?_ ?_ (fun _ _ h _ => h) ?_
    · refine ends_mono enter_ends ?_ ?_
      · rintro _ _ (⟨-, rfl, -⟩ | ⟨-, t, ht, rfl⟩)
        · exact .refl _
        · refine ⟨⟨_, .symbols (.label .nil) t⟩, fun g l hclaims => ?_⟩
          rcases claims_declareGlobal ht hclaims with h | h
          · exact .inl h
          · cases h
            exact .inr ⟨Nat.le_refl _, Nat.lt_succ_self _⟩
      · rintro _ _ (rfl | rfl)
        · exact .refl _
        · exact declaring_grows.draw _
    · intro _ c₁ h₁ _
      have hrestarted : ∀ {symbols c₂}, Restarted head.name c₁ symbols c₂ → Grows c c₂ := by
        rintro symbols ⟨t, _⟩ hr
        obtain rfl : _ = c₁.nextLabel := hr.labels
        exact h₁.trans (.of_globals hr.globals ⟨_, .symbols .nil t⟩)
      refine ends_mono (params_restarted head.name head.params c₁) (fun _ _ hr => hrestarted hr) fun _ _ hr => ?_
      obtain ⟨_, hr⟩ := hr
      exact hrestarted hr
    · intro c₂ h₂
      cases hasBody with
      | false => exact h₂
      | true => exact h₂.trans (grows_define c₂ head.name)

/-! ## Literals and functions -/

/-- Every label of a function has been drawn. -/
def Context.Drawn (c : Context) : Prop := ∀ g l, c.Claims g l → l < c.nextLabel

theorem Context.Sound.drawn {c : Context} (h : c.Sound) : c.Drawn := by
  rintro g l ⟨s, hs, hl⟩
  exact (h.globals g s hs).drawn l hl

theorem Grows.drawn {c c' : Context} (h : Grows c c') (hc : c.Drawn) : c'.Drawn := by
  intro g l hclaims
  rcases h.claims g l hclaims with ⟨hclaims, -⟩ | hl
  · exact Nat.lt_of_lt_of_le (hc g l hclaims) h.le
  · exact hl.2

/-- The literals of an item get labels that no function has. -/
theorem BuildsItem.literals_unclaimed {c c' : Context} {item : Stmt} (h : BuildsItem H c item c') (hc : c.Drawn) :
    Rising c.nextLabel item.literals c'.nextLabel ∧ ∀ l ∈ item.literals, ∀ g, ¬ c'.Claims g l := by
  cases h with
  | declaration entered =>
    have hle := (entered.within declaring_grows).le
    cases entered
    rw [Stmt.literals]
    exact ⟨.nil hle, by simp⟩
  | prototype _ entered =>
    have hgrows := ends_of_ok (defining_grows.declareHead _ _ _) entered
    rw [Stmt.literals]
    exact ⟨.nil hgrows.le, by simp⟩
  | function _ entered inner =>
    have hgrows := ends_of_ok (defining_grows.declareHead _ _ _) entered
    have hrising := inner.literals_rising
    rw [Stmt.literals]
    refine ⟨hrising.mono hgrows.le (Nat.le_refl _), fun l hl g hclaims => ?_⟩
    -- the body gives no function a label, and the labels of those that were there are smaller
    have hbefore := (inner.within declaring_quiet).claims g l hclaims
    have hlt := hgrows.drawn hc g l hbefore
    have := hrising.within l hl
    omega

/-- **Literals.** The labels of the literals of a program rise with the order of the tree, and no function has one of
them. -/
theorem BuildsItems.literals_unclaimed {c c' : Context} {items : List Stmt} (h : BuildsItems H c items c') (hc : c.Drawn) :
    Rising c.nextLabel (stmtLiterals items) c'.nextLabel ∧ ∀ l ∈ stmtLiterals items, ∀ g, ¬ c'.Claims g l := by
  induction h with
  | nil =>
    rw [stmtLiterals]
    exact ⟨.nil (Nat.le_refl _), by simp⟩
  | @cons c c₁ c' item items first rest ih =>
    obtain ⟨hfirst, hunclaimed⟩ := first.literals_unclaimed hc
    have hgrows := rest.within defining_grows
    obtain ⟨hrest, hunclaimed'⟩ := ih ((first.within defining_grows).drawn hc)
    rw [stmtLiterals]
    refine ⟨hfirst.append hrest, fun l hl g hclaims => ?_⟩
    rcases List.mem_append.1 hl with hl | hl
    · rcases hgrows.claims g l hclaims with ⟨hclaims, -⟩ | hlater
      · exact hunclaimed l hl g hclaims
      · have := hfirst.within l hl
        omega
    · exact hunclaimed' l hl g hclaims

end Building

end MiniC
