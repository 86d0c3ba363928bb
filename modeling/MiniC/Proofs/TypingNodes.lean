import MiniC.Proofs.TypingRules

/-!
# What the typing rules build

A rule that accepts its operands builds one node over them, each of them as it is or adapted to its place: converted to
the type that is wanted there, or marked as a location to write to. What does not see the difference (`Blind`) is known
of the node as soon as it is known of the operands.
-/

namespace MiniC

/-- `e'` is `e` as it can stand in a node. -/
inductive Expr.Adapted : Expr → Expr → Prop
  | same {e : Expr} : Adapted e e
  | converted {e : Expr} {info : Info} {change : Change} : Adapted e (.convert info change e)
  | target {e : Expr} : Adapted e e.asTarget

/-- `g` does not tell an expression from an adapted one. -/
def Blind {α : Type} (g : Expr → α) : Prop := ∀ e e', e.Adapted e' → g e' = g e

section Nodes

variable {names : Names} {e e' left right : Expr} {line : Nat}

theorem adapted_convert {ty : Ty} {op : Option BinaryOp} (h : e.convert? ty op = some e') : e.Adapted e' := by
  unfold Expr.convert? at h
  split at h
  · cases h; exact .same
  · cases h; exact .converted
  · cases h

theorem adapted_convert_getD (ty : Ty) (op : Option BinaryOp) : e.Adapted ((e.convert? ty op).getD e) := by
  cases h : e.convert? ty op with
  | none => exact .same
  | some e' => exact adapted_convert h

theorem ty_of_convert {target : Ty} {op : Option BinaryOp} (h : e.convert? target op = some e') : e'.ty = target := by
  unfold Expr.convert? at h
  split at h
  · next hsame => cases h; exact Ty.eq_of_conversion hsame
  · cases h; rfl
  · cases h

theorem name_node {name : String} (h : Typing.name names name line = .ok e) : ∃ info scope, e = .ident info name scope := by
  unfold Typing.name at h
  cases hs : names.resolve name with
  | error cause => rw [hs] at h; cases h
  | ok symbol =>
    rw [hs] at h
    simp only [bind, Except.bind] at h
    split at h
    · cases h
    · cases h; exact ⟨_, _, rfl⟩

theorem index_node {base index : Expr} {name : String} (h : Typing.index base name index = .ok e) :
    ∃ info offset element, index.Adapted offset ∧ e = .ofUnary .deref (.binary info .add base offset) element := by
  unfold Typing.index at h
  split at h
  · cases h
  · split at h
    · cases h
    · split at h
      · cases h
      · next offset hoffset =>
        cases h
        exact ⟨_, offset, _, adapted_convert hoffset, rfl⟩

/-- Nothing but conversion happens to arguments, and they end up with the types of the parameters. -/
theorem arguments_node {function : String} : ∀ {position : Nat} {args args' : List Expr} {tys : List Ty},
    args.length = tys.length → Typing.arguments function position args tys = .ok args' →
      args'.map Expr.ty = tys ∧ ∀ {α : Type} {g : Expr → α}, Blind g → args'.map g = args.map g
  | _, [], _, [], _, h => by
    unfold Typing.arguments at h
    cases h
    exact ⟨rfl, fun _ => rfl⟩
  | position, arg :: args, args', ty :: tys, hlength, h => by
    unfold Typing.arguments at h
    split at h
    · cases h
    · next arg' harg =>
      cases hrest : Typing.arguments function (position + 1) args tys with
      | error cause => rw [hrest] at h; cases h
      | ok rest =>
        rw [hrest] at h
        cases h
        obtain ⟨htys, hblind⟩ := arguments_node (by simpa using hlength) hrest
        refine ⟨?_, fun {α g} hg => ?_⟩
        · rw [List.map_cons, htys, ty_of_convert harg]
        · rw [List.map_cons, List.map_cons, hg arg arg' (adapted_convert harg), hblind hg]

theorem call_node {name : String} {ret : Ty} {params : List Ty} {args : List Expr}
    (h : Typing.call name ret params args line = .ok e) :
    ∃ args', e = .call { ty := ret, line } name args' ∧ args'.map Expr.ty = params ∧
      ∀ {α : Type} {g : Expr → α}, Blind g → args'.map g = args.map g := by
  unfold Typing.call at h
  split at h
  · cases h
  · next hlength =>
    cases hargs : Typing.arguments name 1 args params with
    | error cause => rw [hargs] at h; cases h
    | ok args' =>
      rw [hargs] at h
      cases h
      exact ⟨args', rfl, arguments_node (by simpa using hlength) hargs⟩

theorem unary_node {op : UnaryOp} (h : Typing.unary names op e = .ok e') : ∃ ty, e' = .ofUnary op e ty := by
  cases op with
  | negate =>
    simp only [Typing.unary, Typing.negate] at h
    split at h
    · cases h; exact ⟨_, rfl⟩
    · cases h
  | not =>
    simp only [Typing.unary, Typing.logicalNot] at h
    split at h
    · cases h; exact ⟨_, rfl⟩
    · cases h
  | deref =>
    simp only [Typing.unary, Typing.dereference] at h
    split at h
    · cases h; exact ⟨_, rfl⟩
    · cases h
  | addressOf =>
    simp only [Typing.unary, Typing.addressOf] at h
    split at h
    · next info name scope =>
      cases hs : names.resolve name with
      | error cause => rw [hs] at h; cases h
      | ok symbol =>
        rw [hs] at h
        simp only [bind, Except.bind] at h
        split at h
        · cases h; exact ⟨_, rfl⟩
        · split at h
          · cases h; exact ⟨_, rfl⟩
          · cases h
    · cases h
  | step moment direction =>
    simp only [Typing.unary, Typing.step] at h
    split at h
    · next info name scope =>
      cases hs : names.resolve name with
      | error cause => rw [hs] at h; cases h
      | ok symbol =>
        rw [hs] at h
        simp only [bind, Except.bind] at h
        split at h
        · cases h
        · cases h; exact ⟨_, rfl⟩
    · cases h

theorem binary_node {op : BinaryOp} (h : Typing.binary names op left right line = .ok e) :
    ∃ ty l r, e = .binary { ty, line } op l r ∧ left.Adapted l ∧ right.Adapted r := by
  unfold Typing.binary at h
  split at h
  · next hop =>
    obtain ⟨r, hr, rfl, -⟩ := assign_cases (c := { symbols := names.symbols }) (f := names.function) h
    exact ⟨_, _, r, by rw [hop], .target, adapted_convert hr⟩
  · unfold Typing.arithmetic at h
    split at h
    · cases h
    · split at h
      · cases h
      · split at h
        · cases h
        · cases h
          exact ⟨_, _, _, rfl, adapted_convert_getD _ _, adapted_convert_getD _ _⟩

theorem condition_node (h : Typing.condition e = .ok e') : e' = e := by
  unfold Typing.condition at h
  split at h
  · cases h; rfl
  · cases h

theorem returnNothing_node {function : String} {ty : Ty} {stmt : Stmt}
    (h : Typing.returnNothing function ty = .ok stmt) : stmt = .ret none := by
  unfold Typing.returnNothing at h
  split at h
  · cases h; rfl
  · cases h

theorem returnValue_node {function : String} {ty : Ty} {stmt : Stmt}
    (h : Typing.returnValue function ty e = .ok stmt) : ∃ e', stmt = .ret (some e') ∧ e.Adapted e' := by
  unfold Typing.returnValue at h
  split at h
  · cases h
  · split at h
    · next e' he' => cases h; exact ⟨e', rfl, adapted_convert he'⟩
    · cases h

end Nodes

end MiniC
