import MiniC.Proofs.Tables

/-!
# The typing judgement

`Typed t f e` says of every node of an expression `e` in the body of `f` that it fits the symbol table `t`: names stand
for symbols of their scope and type, the operands of an operator have the types it wants, and conversions widen or scale.
`TypedStmt` and `TypedItem` say the same of statements and of the items of a program. The judgement looks at the finished
table only, not at the order in which the table and the tree came about.

* `Typed.later`, `TypedStmt.later`: the judgement survives later declarations.
* `typed_binary`, `typed_unary`, `typed_name`, `typed_index`, `typed_call`: every rule of `Typing` builds a node that
  fits.
-/

namespace MiniC

/-- The symbol that a name of the given scope stands for inside `f`. -/
def SymbolTable.scoped? (t : SymbolTable) (f name : String) : Scope → Option Symbol
  | .global => t.global? name
  | _ => t.local? f name

/-- The narrowest type that holds a literal. -/
def literalTy (value : Int) : Ty :=
  if 0 ≤ value ∧ value < 256 then .char else if -2147483648 ≤ value ∧ value < 2147483648 then .int else .long

theorem literalTy_isInteger (value : Int) : (literalTy value).isInteger = true := by
  unfold literalTy
  split
  · rfl
  · split <;> rfl

theorem Ty.ne_void_of_isInteger {ty : Ty} (h : ty.isInteger = true) : ty ≠ .void := by
  rintro rfl
  cases h

theorem Ty.ne_void_of_valueAt {ty val : Ty} (h : ty.valueAt = some val) : ty ≠ .void := by
  rintro rfl
  cases h

/-- What `++` adds to a variable of the type: one element if it is a pointer, else one. -/
def Ty.stride (ty : Ty) : Nat := (ty.valueAt.map size).getD 1

/-- Inside `f`, `name` of scope `scope` is the variable or array `s`, of type `ty`. -/
structure Denotes (t : SymbolTable) (f name : String) (scope : Scope) (ty : Ty) (s : Symbol) : Prop where
  found : t.scoped? f name scope = some s
  scope : s.scope = scope
  value : s.kind ≠ .function
  nonvoid : s.ty ≠ .void
  ty : ty = s.ty

/-- An expression in the body of `f` fits the table `t`. -/
inductive Typed (t : SymbolTable) (f : String) : Expr → Prop where
  | ident {info : Info} {name : String} {scope : Scope} {s : Symbol} (names : Denotes t f name scope info.ty s) :
      Typed t f (.ident info name scope)
  | number {info : Info} {value : Int} (ty : info.ty = literalTy value) : Typed t f (.number info value)
  | string {info : Info} {label : Nat} {bytes : List UInt8} (ty : info.ty = .pointer .char) :
      Typed t f (.string info label bytes)
  /-- The address of an array is that of its first element. -/
  | addressOf {info operand : Info} {name : String} {scope : Scope} {s : Symbol}
      (names : Denotes t f name scope operand.ty s)
      (ty : if s.kind = .array then info.ty = operand.ty else operand.ty.pointerTo = some info.ty) :
      Typed t f (.unary info .addressOf (.ident operand name scope))
  | deref {info : Info} {operand : Expr} (typed : Typed t f operand) (ty : operand.ty.valueAt = some info.ty)
      (nonvoid : info.ty ≠ .void) : Typed t f (.unary info .deref operand)
  | negate {info : Info} {operand : Expr} (typed : Typed t f operand) (integer : operand.ty.isInteger = true)
      (ty : info.ty = if operand.ty = .char then .int else operand.ty) : Typed t f (.unary info .negate operand)
  | not {info : Info} {operand : Expr} (typed : Typed t f operand) (nonvoid : operand.ty ≠ .void)
      (ty : info.ty = .int) : Typed t f (.unary info .not operand)
  | step {info operand : Info} {moment : Moment} {direction : Direction} {name : String} {scope : Scope} {s : Symbol}
      (names : Denotes t f name scope operand.ty s) (scalar : s.kind = .variable)
      (sized : operand.ty ≠ .pointer .void) (ty : info.ty = operand.ty) :
      Typed t f (.unary info (.step moment direction) (.ident operand name scope))
  /-- An assignment to a variable. -/
  | assignName {info left : Info} {name : String} {scope : Scope} {s : Symbol} {right : Expr}
      (names : Denotes t f name scope left.ty s) (scalar : s.kind = .variable) (marked : left.rvalue = false)
      (typed : Typed t f right) (same : right.ty = left.ty) (ty : info.ty = left.ty) :
      Typed t f (.binary info .assign (.ident left name scope) right)
  /-- An assignment through a pointer. -/
  | assignAt {info left : Info} {address right : Expr} (pointer : Typed t f address)
      (pointee : address.ty.valueAt = some left.ty) (nonvoid : left.ty ≠ .void) (marked : left.rvalue = false)
      (typed : Typed t f right) (same : right.ty = left.ty) (ty : info.ty = left.ty) :
      Typed t f (.binary info .assign (.unary left .deref address) right)
  | arithmetic {info : Info} {op : BinaryOp} {left right : Expr} (operator : op ≠ .assign) (typedLeft : Typed t f left)
      (typedRight : Typed t f right) (same : left.ty = right.ty) (nonvoid : left.ty ≠ .void)
      (pointers : left.ty.isPointer = true → op.isComparison = true ∨ op.isAdditive = true)
      (ty : info.ty = if op.isComparison then .int else left.ty) : Typed t f (.binary info op left right)
  | widen {info : Info} {operand : Expr} (typed : Typed t f operand) (integer : operand.ty.isInteger = true)
      (wider : (info.ty.isInteger = true ∧ operand.ty.size < info.ty.size) ∨ info.ty = .pointer .char) :
      Typed t f (.convert info .widen operand)
  | scale {info : Info} {factor : Int} {base : Base} {operand : Expr} (typed : Typed t f operand)
      (integer : operand.ty.isInteger = true) (ty : info.ty = .pointer base) (size : factor = base.size)
      (large : 1 < factor) : Typed t f (.convert info (.scale factor) operand)
  | call {info : Info} {name : String} {args : List Expr} {s : Symbol} (found : t.global? name = some s)
      (function : s.kind = .function) (ty : info.ty = s.ty) (arity : args.length = (t.params name).length)
      (limit : args.length ≤ Typing.maxParams) (typed : ∀ arg ∈ args, Typed t f arg)
      (nonvoid : ∀ arg ∈ args, arg.ty ≠ .void) : Typed t f (.call info name args)

/-- A statement in the body of `f` fits the table `t`. -/
inductive TypedStmt (t : SymbolTable) (f : String) : Stmt → Prop where
  | retNone {s : Symbol} (found : t.global? f = some s) (void : s.ty = .void) : TypedStmt t f (.ret none)
  | retValue {s : Symbol} {e : Expr} (found : t.global? f = some s) (nonvoid : s.ty ≠ .void) (typed : Typed t f e)
      (same : e.ty = s.ty) : TypedStmt t f (.ret (some e))
  | expr {e : Expr} (typed : Typed t f e) : TypedStmt t f (.expr e)
  | varDecl {name : String} {s : Symbol} (found : t.local? f name = some s) : TypedStmt t f (.varDecl name)
  | globalDecl {name : String} {s : Symbol} (found : t.global? name = some s) (value : s.kind ≠ .function) :
      TypedStmt t f (.globalDecl name)
  | block {stmts : List Stmt} (typed : ∀ s ∈ stmts, TypedStmt t f s) : TypedStmt t f (.block stmts)
  | ifElse {info : Info} {cond : Expr} {yes : Stmt} {no : Option Stmt} (typed : Typed t f cond)
      (nonvoid : cond.ty ≠ .void) (typedYes : TypedStmt t f yes) (typedNo : ∀ s, no = some s → TypedStmt t f s) :
      TypedStmt t f (.expr (.ifElse info cond yes no))
  | whileLoop {info : Info} {cond : Expr} {body : Stmt} (typed : Typed t f cond) (nonvoid : cond.ty ≠ .void)
      (typedBody : TypedStmt t f body) : TypedStmt t f (.expr (.whileLoop info cond body))
  | forLoop {info : Info} {init cond post : Option Expr} {body : Stmt} (typedInit : ∀ e, init = some e → Typed t f e)
      (typed : ∀ e, cond = some e → Typed t f e) (nonvoid : ∀ e, cond = some e → e.ty ≠ .void)
      (typedPost : ∀ e, post = some e → Typed t f e) (typedBody : TypedStmt t f body) :
      TypedStmt t f (.expr (.forLoop info init cond post body))

/-- An item of a program fits the table `t`. -/
inductive TypedItem (t : SymbolTable) : Stmt → Prop where
  | globalDecl {name : String} {s : Symbol} (found : t.global? name = some s) (value : s.kind ≠ .function) :
      TypedItem t (.globalDecl name)
  | prototype {name : String} (function : t.IsFunction name) : TypedItem t (.prototype name)
  | function {name : String} {body : Stmt} (defined : t.IsDefined name) (function : t.IsFunction name)
      (typed : TypedStmt t name body) : TypedItem t (.function name body)

namespace Typed

variable {t t' : SymbolTable} {f : String}

/-- Only calls have no value. -/
theorem call_of_void {e : Expr} (h : Typed t f e) (hv : e.ty = .void) : ∃ info name args, e = .call info name args := by
  cases h with
  | call => exact ⟨_, _, _, rfl⟩
  | ident names => exact absurd (names.ty.symm.trans hv) names.nonvoid
  | @number info value ty =>
    have hint := literalTy_isInteger value
    rw [← ty, show info.ty = .void from hv] at hint
    cases hint
  | string ty => exact absurd (ty.symm.trans hv) (by decide)
  | @addressOf info operand name scope s names ty =>
    refine absurd hv ?_
    show info.ty ≠ .void
    split at ty
    · rw [ty, names.ty]; exact names.nonvoid
    · intro hty
      rw [hty] at ty
      cases hop : operand.ty <;> rw [hop] at ty <;> cases ty
  | deref _ _ nonvoid => exact absurd hv nonvoid
  | negate _ integer ty =>
    refine absurd (ty.symm.trans hv) ?_
    split
    · decide
    · intro hop
      rw [hop] at integer
      cases integer
  | not _ _ ty => exact absurd (ty.symm.trans hv) (by decide)
  | step names _ _ ty => exact absurd ((ty.trans names.ty).symm.trans hv) names.nonvoid
  | assignName names _ _ _ _ ty => exact absurd ((ty.trans names.ty).symm.trans hv) names.nonvoid
  | assignAt _ _ nonvoid _ _ _ ty => exact absurd (ty.symm.trans hv) nonvoid
  | arithmetic _ _ _ _ nonvoid _ ty =>
    refine absurd (ty.symm.trans hv) ?_
    split
    · decide
    · exact nonvoid
  | @widen info operand _ _ wider =>
    have hv : info.ty = .void := hv
    rw [hv] at wider
    rcases wider with ⟨h, -⟩ | h <;> cases h
  | scale _ _ ty => exact absurd (ty.symm.trans hv) (by simp)

end Typed

/-! ## Later declarations -/

section Later

variable {t t' : SymbolTable} {f : String}

theorem SymbolTable.Later.scoped? (h : t.Later t') (hf : t.IsDefined f) {name : String} {scope : Scope} {s : Symbol}
    (hs : t.scoped? f name scope = some s) : ∃ s', t'.scoped? f name scope = some s' ∧ s'.core = s.core := by
  cases scope with
  | global =>
    obtain ⟨s', hs', hc, -⟩ := h.globals name s hs
    exact ⟨s', hs', hc⟩
  | «local» => exact h.locals f hf name s hs
  | parameter => exact h.locals f hf name s hs

theorem Denotes.later (h : t.Later t') (hf : t.IsDefined f) {name : String} {scope : Scope} {ty : Ty} {s : Symbol}
    (hs : Denotes t f name scope ty s) : ∃ s', Denotes t' f name scope ty s' ∧ s'.kind = s.kind := by
  obtain ⟨s', hs', hc⟩ := h.scoped? hf hs.found
  have hkind := Symbol.kind_of_core hc
  have hty := Symbol.ty_of_core hc
  exact ⟨s', ⟨hs', (Symbol.scope_of_core hc).trans hs.scope, hkind ▸ hs.value, hty ▸ hs.nonvoid, hs.ty.trans hty.symm⟩,
    hkind⟩

theorem Typed.later (h : t.Later t') (hf : t.IsDefined f) {e : Expr} (he : Typed t f e) : Typed t' f e := by
  induction he with
  | ident names =>
    obtain ⟨s', hs', -⟩ := names.later h hf
    exact .ident hs'
  | number ty => exact .number ty
  | string ty => exact .string ty
  | addressOf names ty =>
    obtain ⟨s', hs', hk⟩ := names.later h hf
    exact .addressOf hs' (hk ▸ ty)
  | deref _ ty nonvoid ih => exact .deref ih ty nonvoid
  | negate _ integer ty ih => exact .negate ih integer ty
  | not _ nonvoid ty ih => exact .not ih nonvoid ty
  | step names scalar sized ty =>
    obtain ⟨s', hs', hk⟩ := names.later h hf
    exact .step hs' (hk.trans scalar) sized ty
  | assignName names scalar marked _ same ty ih =>
    obtain ⟨s', hs', hk⟩ := names.later h hf
    exact .assignName hs' (hk.trans scalar) marked ih same ty
  | assignAt _ pointee nonvoid marked _ same ty ihAddress ih =>
    exact .assignAt ihAddress pointee nonvoid marked ih same ty
  | arithmetic operator _ _ same nonvoid pointers ty ihLeft ihRight =>
    exact .arithmetic operator ihLeft ihRight same nonvoid pointers ty
  | widen _ integer wider ih => exact .widen ih integer wider
  | scale _ integer ty size large ih => exact .scale ih integer ty size large
  | call found function ty arity limit _ nonvoid ih =>
    obtain ⟨s', hs', hc, -⟩ := h.globals _ _ found
    exact .call hs' ((Symbol.kind_of_core hc).trans function) (ty.trans (Symbol.ty_of_core hc).symm)
      (arity.trans (h.params _ ⟨_, found, function⟩).symm) limit ih nonvoid

theorem TypedStmt.later (h : t.Later t') (hf : t.IsDefined f) {s : Stmt} (hs : TypedStmt t f s) : TypedStmt t' f s := by
  induction hs with
  | retNone found void =>
    obtain ⟨s', hs', hc, -⟩ := h.globals _ _ found
    exact .retNone hs' ((Symbol.ty_of_core hc).trans void)
  | retValue found nonvoid typed same =>
    obtain ⟨s', hs', hc, -⟩ := h.globals _ _ found
    have hty := Symbol.ty_of_core hc
    exact .retValue hs' (hty ▸ nonvoid) (typed.later h hf) (same.trans hty.symm)
  | expr typed => exact .expr (typed.later h hf)
  | varDecl found =>
    obtain ⟨s', hs', -⟩ := h.locals _ hf _ _ found
    exact .varDecl hs'
  | globalDecl found value =>
    obtain ⟨s', hs', hc, -⟩ := h.globals _ _ found
    exact .globalDecl hs' (Symbol.kind_of_core hc ▸ value)
  | block _ ih => exact .block ih
  | ifElse typed nonvoid _ _ ihYes ihNo => exact .ifElse (typed.later h hf) nonvoid ihYes ihNo
  | whileLoop typed nonvoid _ ih => exact .whileLoop (typed.later h hf) nonvoid ih
  | forLoop typedInit typed nonvoid typedPost _ ih =>
    exact .forLoop (fun e he => (typedInit e he).later h hf) (fun e he => (typed e he).later h hf) nonvoid
      (fun e he => (typedPost e he).later h hf) ih

theorem TypedItem.later (h : t.Later t') {s : Stmt} (hs : TypedItem t s) : TypedItem t' s := by
  cases hs with
  | globalDecl found value =>
    obtain ⟨s', hs', hc, -⟩ := h.globals _ _ found
    exact .globalDecl hs' (Symbol.kind_of_core hc ▸ value)
  | prototype function => exact .prototype (h.isFunction function)
  | function defined function typed => exact .function (h.isDefined defined) (h.isFunction function) (typed.later h defined)

end Later

end MiniC
