import MiniC.Context
import MiniC.Typing

/-!
# Lines and labels of trees

Trees carry lines, which say where something stands, and labels of string literals. `Expr.marked ℓ κ` moves every line of a
tree by `ℓ` and every label by `κ`, and `relining ℓ` moves the line of the fault of a computation; it goes through all ways
of putting computations together. The typing rules read neither: on the moved tree they give the moved result, or the same
cause (`Typing.binary_marked`, …).
-/

namespace MiniC

variable {ℓ κ : Nat → Nat}

/-! ## Faults -/

namespace Fault

/-- The fault on no line. -/
def unplaced : Fault → Fault
  | lexical _ cause => lexical 0 cause
  | grammar _ cause => grammar 0 cause
  | semantic _ cause => semantic 0 cause
  | outOfRegisters _ => outOfRegisters 0
  | internal cause => internal cause

/-- No message speaks of lines. -/
@[simp] theorem message_unplaced (fault : Fault) : fault.unplaced.message = fault.message := by cases fault <;> rfl

def relined (ℓ : Nat → Nat) : Fault → Fault
  | lexical line cause => lexical (ℓ line) cause
  | grammar line cause => grammar (ℓ line) cause
  | semantic line cause => semantic (ℓ line) cause
  | outOfRegisters line => outOfRegisters (ℓ line)
  | internal cause => internal cause

theorem relined_zero (fault : Fault) : fault.relined (fun _ => 0) = fault.unplaced := by cases fault <;> rfl

theorem line?_relined (fault : Fault) : (fault.relined ℓ).line? = fault.line?.map ℓ := by cases fault <;> rfl

end Fault

section Work

variable {σ α β : Type}

/-- The same work, with the line of its fault moved. -/
def relining (ℓ : Nat → Nat) (x : EStateM Fault σ α) : EStateM Fault σ α := fun s =>
  match x s with
  | .ok a t => .ok a t
  | .error fault t => .error (fault.relined ℓ) t

@[simp] theorem relining_pure (a : α) : relining ℓ (pure a : EStateM Fault σ α) = pure a := rfl

@[simp] theorem relining_bind (x : EStateM Fault σ α) (f : α → EStateM Fault σ β) :
    relining ℓ (x >>= f) = relining ℓ x >>= fun a => relining ℓ (f a) := by
  funext s
  show (match EStateM.bind x f s with | .ok b t => _ | .error fault t => _) = EStateM.bind (relining ℓ x) _ s
  unfold EStateM.bind relining
  cases x s <;> rfl

@[simp] theorem relining_map (g : α → β) (x : EStateM Fault σ α) : relining ℓ (g <$> x) = g <$> relining ℓ x := by
  funext s
  show (match EStateM.map g x s with | .ok b t => _ | .error fault t => _) = EStateM.map g (relining ℓ x) s
  unfold EStateM.map relining
  cases x s <;> rfl

@[simp] theorem relining_get : relining ℓ (get : EStateM Fault σ σ) = get := rfl

@[simp] theorem relining_modify (f : σ → σ) : relining ℓ (modify f : EStateM Fault σ PUnit) = modify f := rfl

@[simp] theorem relining_throw (fault : Fault) :
    relining ℓ (throw fault : EStateM Fault σ α) = throw (fault.relined ℓ) := rfl

@[simp] theorem relining_ite (p : Prop) [Decidable p] (x y : EStateM Fault σ α) :
    relining ℓ (if p then x else y) = if p then relining ℓ x else relining ℓ y := apply_ite (relining ℓ) p x y

@[simp] theorem relining_forM (f : α → EStateM Fault σ PUnit) : ∀ as : List α,
    relining ℓ (forM as f) = forM as fun a => relining ℓ (f a)
  | [] => rfl
  | a :: as => by rw [List.forM_cons, List.forM_cons, relining_bind, relining_forM f as]

end Work

/-! ## Trees -/

def Info.relined (ℓ : Nat → Nat) (info : Info) : Info := { info with line := ℓ info.line }

mutual

@[simp] def Expr.marked (ℓ κ : Nat → Nat) : Expr → Expr
  | .ident info name scope => .ident (info.relined ℓ) name scope
  | .number info value => .number (info.relined ℓ) value
  | .string info label bytes => .string (info.relined ℓ) (κ label) bytes
  | .unary info op operand => .unary (info.relined ℓ) op (operand.marked ℓ κ)
  | .binary info op left right => .binary (info.relined ℓ) op (left.marked ℓ κ) (right.marked ℓ κ)
  | .ifElse info cond yes no => .ifElse (info.relined ℓ) (cond.marked ℓ κ) (yes.marked ℓ κ) (Stmt.marked? ℓ κ no)
  | .whileLoop info cond body => .whileLoop (info.relined ℓ) (cond.marked ℓ κ) (body.marked ℓ κ)
  | .forLoop info init cond post body =>
    .forLoop (info.relined ℓ) (Expr.marked? ℓ κ init) (Expr.marked? ℓ κ cond) (Expr.marked? ℓ κ post) (body.marked ℓ κ)
  | .call info name args => .call (info.relined ℓ) name (Expr.markedAll ℓ κ args)
  | .convert info change operand => .convert (info.relined ℓ) change (operand.marked ℓ κ)

@[simp] def Expr.marked? (ℓ κ : Nat → Nat) : Option Expr → Option Expr
  | none => none
  | some e => some (e.marked ℓ κ)

@[simp] def Expr.markedAll (ℓ κ : Nat → Nat) : List Expr → List Expr
  | [] => []
  | e :: es => e.marked ℓ κ :: Expr.markedAll ℓ κ es

@[simp] def Stmt.marked (ℓ κ : Nat → Nat) : Stmt → Stmt
  | .ret value => .ret (Expr.marked? ℓ κ value)
  | .expr e => .expr (e.marked ℓ κ)
  | .varDecl name => .varDecl name
  | .globalDecl name => .globalDecl name
  | .block stmts => .block (Stmt.markedAll ℓ κ stmts)
  | .prototype name => .prototype name
  | .function name body => .function name (body.marked ℓ κ)

@[simp] def Stmt.marked? (ℓ κ : Nat → Nat) : Option Stmt → Option Stmt
  | none => none
  | some stmt => some (stmt.marked ℓ κ)

@[simp] def Stmt.markedAll (ℓ κ : Nat → Nat) : List Stmt → List Stmt
  | [] => []
  | stmt :: stmts => stmt.marked ℓ κ :: Stmt.markedAll ℓ κ stmts

end

section Composition

variable {ℓ' κ' : Nat → Nat}

mutual

/-- Moving lines and labels twice is moving them once. -/
theorem Expr.marked_marked : ∀ e : Expr, (e.marked ℓ κ).marked ℓ' κ' = e.marked (ℓ' ∘ ℓ) (κ' ∘ κ)
  | .ident .. | .number .. | .string .. => rfl
  | .unary _ _ operand | .convert _ _ operand => by
    simp only [Expr.marked, operand.marked_marked]; rfl
  | .binary _ _ left right => by
    simp only [Expr.marked, left.marked_marked, right.marked_marked]; rfl
  | .ifElse _ cond yes no => by
    simp only [Expr.marked, cond.marked_marked, yes.marked_marked, Stmt.marked?_marked no]; rfl
  | .whileLoop _ cond body => by
    simp only [Expr.marked, cond.marked_marked, body.marked_marked]; rfl
  | .forLoop _ init cond post body => by
    simp only [Expr.marked, Expr.marked?_marked init, Expr.marked?_marked cond, Expr.marked?_marked post,
      body.marked_marked]
    rfl
  | .call _ _ args => by
    simp only [Expr.marked, Expr.markedAll_marked args]; rfl

theorem Stmt.marked_marked : ∀ stmt : Stmt, (stmt.marked ℓ κ).marked ℓ' κ' = stmt.marked (ℓ' ∘ ℓ) (κ' ∘ κ)
  | .ret value => by simp only [Stmt.marked, Expr.marked?_marked value]
  | .expr e => by simp only [Stmt.marked, e.marked_marked]
  | .block stmts => by simp only [Stmt.marked, Stmt.markedAll_marked stmts]
  | .function _ body => by simp only [Stmt.marked, body.marked_marked]
  | .varDecl _ | .globalDecl _ | .prototype _ => rfl

theorem Expr.marked?_marked : ∀ e? : Option Expr,
    Expr.marked? ℓ' κ' (Expr.marked? ℓ κ e?) = Expr.marked? (ℓ' ∘ ℓ) (κ' ∘ κ) e?
  | none => rfl
  | some e => congrArg some e.marked_marked

theorem Stmt.marked?_marked : ∀ stmt? : Option Stmt,
    Stmt.marked? ℓ' κ' (Stmt.marked? ℓ κ stmt?) = Stmt.marked? (ℓ' ∘ ℓ) (κ' ∘ κ) stmt?
  | none => rfl
  | some stmt => congrArg some stmt.marked_marked

theorem Expr.markedAll_marked : ∀ es : List Expr,
    Expr.markedAll ℓ' κ' (Expr.markedAll ℓ κ es) = Expr.markedAll (ℓ' ∘ ℓ) (κ' ∘ κ) es
  | [] => rfl
  | e :: es => by simp only [Expr.markedAll, e.marked_marked, Expr.markedAll_marked es]

theorem Stmt.markedAll_marked : ∀ stmts : List Stmt,
    Stmt.markedAll ℓ' κ' (Stmt.markedAll ℓ κ stmts) = Stmt.markedAll (ℓ' ∘ ℓ) (κ' ∘ κ) stmts
  | [] => rfl
  | stmt :: stmts => by simp only [Stmt.markedAll, stmt.marked_marked, Stmt.markedAll_marked stmts]

end

end Composition
namespace Expr

@[simp] theorem markedAll_eq_map : ∀ es : List Expr, markedAll ℓ κ es = es.map (marked ℓ κ)
  | [] => by rw [markedAll, List.map_nil]
  | e :: es => by rw [markedAll, List.map_cons, markedAll_eq_map es]

@[simp] theorem info_marked (e : Expr) : (e.marked ℓ κ).info = e.info.relined ℓ := by
  cases e <;> rw [marked] <;> rfl

@[simp] theorem ty_marked (e : Expr) : (e.marked ℓ κ).ty = e.ty := by
  unfold ty
  rw [info_marked]
  rfl

@[simp] theorem line_marked (e : Expr) : (e.marked ℓ κ).line = ℓ e.line := by
  unfold line
  rw [info_marked]
  rfl

theorem isAddressable_marked (e : Expr) : (e.marked ℓ κ).isAddressable = e.isAddressable := by
  cases e with
  | unary info op operand => rw [marked]; cases op <;> rfl
  | _ => rw [marked]; rfl

theorem asTarget_marked (e : Expr) : (e.marked ℓ κ).asTarget = e.asTarget.marked ℓ κ := by
  cases e <;> simp only [marked, asTarget] <;> rfl

theorem ofInt_marked (value : Int) (line : Nat) : (ofInt value line).marked ℓ κ = ofInt value (ℓ line) := by
  unfold ofInt
  rw [marked]
  rfl

theorem ofUnary_marked (op : UnaryOp) (operand : Expr) (ty : Ty) :
    (ofUnary op operand ty).marked ℓ κ = ofUnary op (operand.marked ℓ κ) ty := by
  unfold ofUnary
  rw [marked, line_marked]
  rfl

theorem convert?_marked (e : Expr) (target : Ty) (op : Option BinaryOp) :
    (e.marked ℓ κ).convert? target op = (e.convert? target op).map (marked ℓ κ) := by
  unfold convert?
  rw [ty_marked, line_marked]
  cases e.ty.conversion target op with
  | identical => rfl
  | incompatible => rfl
  | change change => rw [Option.map_some, marked]; rfl

end Expr

/-! ## Typing rules -/

namespace Typing

variable (names : Names)

theorem name_marked (n : String) (line : Nat) : name names n (ℓ line) = (name names n line).map (Expr.marked ℓ κ) := by
  unfold name
  cases names.resolve n with
  | error cause => rfl
  | ok symbol =>
    show (if symbol.kind = .function then _ else _) = Except.map _ (if symbol.kind = .function then _ else _)
    split
    · rfl
    · rw [Except.map, Expr.marked]; rfl

theorem index_marked (base : Expr) (n : String) (offset : Expr) :
    index (base.marked ℓ κ) n (offset.marked ℓ κ) = (index base n offset).map (Expr.marked ℓ κ) := by
  unfold index
  rw [Expr.ty_marked, Expr.ty_marked, Expr.line_marked, Expr.convert?_marked]
  cases base.ty.element? with
  | none => rfl
  | some element =>
    dsimp only
    split
    · rfl
    · cases offset.convert? base.ty (some .add) with
      | none => rfl
      | some converted =>
        simp only [Option.map_some, Except.map, Expr.ofUnary_marked, Expr.marked]
        rfl

theorem arguments_marked (function : String) : ∀ (position : Nat) (args : List Expr) (tys : List Ty),
    arguments function position (args.map (Expr.marked ℓ κ)) tys = (arguments function position args tys).map (·.map (Expr.marked ℓ κ))
  | _, [], _ => by simp only [List.map_nil, arguments]; rfl
  | _, _ :: _, [] => by simp only [List.map_cons, arguments]; rfl
  | position, arg :: args, ty :: tys => by
    have ih := arguments_marked function (position + 1) args tys
    rw [List.map_cons, arguments, arguments, Expr.convert?_marked, Expr.ty_marked]
    cases arg.convert? ty none with
    | none => rfl
    | some converted =>
      rw [Option.map_some]
      dsimp only
      rw [ih]
      cases arguments function (position + 1) args tys <;> rfl

theorem call_marked (n : String) (ret : Ty) (params : List Ty) (args : List Expr) (line : Nat) :
    call n ret params (args.map (Expr.marked ℓ κ)) (ℓ line) = (call n ret params args line).map (Expr.marked ℓ κ) := by
  unfold call
  rw [List.length_map, arguments_marked]
  split
  · rfl
  · cases arguments n 1 args params with
    | error cause => rfl
    | ok args' =>
      show Except.ok _ = Except.ok (Expr.marked ℓ κ _)
      rw [Expr.marked, Expr.markedAll_eq_map]
      rfl

theorem unary_marked (op : UnaryOp) (operand : Expr) :
    unary names op (operand.marked ℓ κ) = (unary names op operand).map (Expr.marked ℓ κ) := by
  cases op with
  | negate =>
    simp only [unary, negate, Expr.ty_marked]
    split
    · rw [Except.map, Expr.ofUnary_marked]
    · rfl
  | not =>
    simp only [unary, logicalNot, Expr.ty_marked]
    split
    · rw [Except.map, Expr.ofUnary_marked]
    · rfl
  | deref =>
    simp only [unary, dereference, Expr.ty_marked]
    cases operand.ty.element? with
    | none => rfl
    | some ty => rw [Except.map, Expr.ofUnary_marked]
  | addressOf =>
    cases operand with
    | ident info n scope =>
      rw [Expr.marked]
      simp only [unary, addressOf]
      cases names.resolve n with
      | error cause => rfl
      | ok symbol =>
        show (if symbol.isArray then _ else _) = Except.map _ (if symbol.isArray then _ else _)
        split
        · rw [Except.map, Expr.ofUnary_marked, Expr.marked]; rfl
        · have hty : (Expr.ident (info.relined ℓ) n scope).ty = info.ty := rfl
          have hty' : (Expr.ident info n scope).ty = info.ty := rfl
          rw [hty, hty']
          cases info.ty.pointerTo with
          | none => rfl
          | some ty => rw [Except.map, Expr.ofUnary_marked, Expr.marked]
    | _ => rw [Expr.marked]; rfl
  | step moment direction =>
    cases operand with
    | ident info n scope =>
      rw [Expr.marked]
      simp only [unary, step]
      cases names.resolve n with
      | error cause => rfl
      | ok symbol =>
        show (if symbol.isArray || info.ty = .pointer .void then _ else _) =
          Except.map _ (if symbol.isArray || info.ty = .pointer .void then _ else _)
        split
        · rfl
        · rw [Except.map, Expr.ofUnary_marked, Expr.marked]; rfl
    | _ => rw [Expr.marked]; rfl

/-- The right side of an assignment is converted alike. -/
theorem assigned_marked (left right : Expr) (line : Nat) :
    (match (right.marked ℓ κ).convert? (left.marked ℓ κ).ty none with
      | some right => .ok (.binary { ty := (left.marked ℓ κ).ty, line := ℓ line } .assign (left.marked ℓ κ).asTarget right)
      | none => .error (.badAssign (right.marked ℓ κ).ty (left.marked ℓ κ).ty) : Except SemanticFault Expr) =
      Except.map (Expr.marked ℓ κ) (match right.convert? left.ty none with
        | some right => .ok (.binary { ty := left.ty, line } .assign left.asTarget right)
        | none => .error (.badAssign right.ty left.ty)) := by
  rw [Expr.convert?_marked, Expr.ty_marked, Expr.ty_marked, Expr.asTarget_marked]
  cases right.convert? left.ty none with
  | none => rfl
  | some converted => simp only [Option.map_some, Except.map, Expr.marked]; rfl

theorem assign_marked (left right : Expr) (line : Nat) :
    assign names (left.marked ℓ κ) (right.marked ℓ κ) (ℓ line) = (assign names left right line).map (Expr.marked ℓ κ) := by
  -- whether the left side may be written to is asked of the name and not of its place
  have hrest := @assigned_marked ℓ κ left right line
  unfold assign
  rw [Expr.isAddressable_marked]
  cases left.isAddressable with
  | false => rfl
  | true =>
    cases left with
    | ident info n scope =>
      rw [Expr.marked] at hrest ⊢
      show (names.resolve n >>= fun symbol => _) = Except.map _ (names.resolve n >>= fun symbol => _)
      cases names.resolve n with
      | error cause => rfl
      | ok symbol =>
        cases h : symbol.isArray with
        | true => simp only [bind, Except.bind, h]; rfl
        | false => simp only [bind, Except.bind, h]; exact hrest
    | _ => rw [Expr.marked] at hrest ⊢; exact hrest

theorem arithmetic_marked (op : BinaryOp) (left right : Expr) (line : Nat) :
    arithmetic op (left.marked ℓ κ) (right.marked ℓ κ) (ℓ line) = (arithmetic op left right line).map (Expr.marked ℓ κ) := by
  unfold arithmetic
  simp only [Expr.ty_marked, Expr.convert?_marked]
  split
  · rfl
  split
  · rfl
  cases left.convert? right.ty (some op) with
  | none =>
    cases right.convert? left.ty (some op) with
    | none => rfl
    | some r =>
      simp only [Option.map_none, Option.map_some, Option.getD_none, Option.getD_some, Expr.ty_marked, Except.map, Expr.marked]
      rfl
  | some l =>
    cases right.convert? left.ty (some op) with
    | none =>
      simp only [Option.map_none, Option.map_some, Option.getD_none, Option.getD_some, Expr.ty_marked, Except.map, Expr.marked]
      rfl
    | some r =>
      simp only [Option.map_some, Option.getD_some, Expr.ty_marked, Except.map, Expr.marked]
      rfl

theorem binary_marked (op : BinaryOp) (left right : Expr) (line : Nat) :
    binary names op (left.marked ℓ κ) (right.marked ℓ κ) (ℓ line) = (binary names op left right line).map (Expr.marked ℓ κ) := by
  unfold binary
  split
  · exact assign_marked names left right line
  · exact arithmetic_marked op left right line

theorem condition_marked (e : Expr) : condition (e.marked ℓ κ) = (condition e).map (Expr.marked ℓ κ) := by
  unfold condition
  rw [Expr.ty_marked]
  split <;> rfl

theorem returnNothing_marked (function : String) (ty : Ty) :
    returnNothing function ty = (returnNothing function ty).map (Stmt.marked ℓ κ) := by
  unfold returnNothing
  split
  · rw [Except.map, Stmt.marked, Expr.marked?]
  · rfl

theorem returnValue_marked (function : String) (ty : Ty) (value : Expr) :
    returnValue function ty (value.marked ℓ κ) = (returnValue function ty value).map (Stmt.marked ℓ κ) := by
  unfold returnValue
  rw [Expr.convert?_marked, Expr.ty_marked]
  split
  · rfl
  · cases value.convert? ty none with
    | none => rfl
    | some converted => rw [Option.map_some, Except.map, Stmt.marked, Expr.marked?]

end Typing

end MiniC
