import MiniC.SymbolTable
import MiniC.Tree

/-!
# Typing rules

One function per construct of the language. Each checks the types and names of its parts, converts operands where the
rules allow it, and builds the typed node, or says which rule is broken. The caller knows the line to report.
-/

namespace MiniC

/-- The names that an expression inside a function can use. -/
structure Names where
  symbols : SymbolTable
  function : String

namespace Names

def resolve (names : Names) (name : String) : Except SemanticFault Symbol :=
  names.symbols.resolve name (some names.function)

end Names

namespace Typing

/-! ## Names, indices and calls -/

/-- A name read as a value. -/
def name (names : Names) (name : String) (line : Nat) : Except SemanticFault Expr := do
  let symbol ← names.resolve name
  if symbol.kind = .function then .error (.functionAsValue name)
  else .ok (.ident { ty := symbol.ty, line } name symbol.scope)

/-- `base[index]`, where `base` reads the name `name`: the value at the address `index` elements after `base`. -/
def index (base : Expr) (name : String) (index : Expr) : Except SemanticFault Expr :=
  match base.ty.element? with
  | none => .error (.notIndexable name)
  | some element =>
    if !index.ty.isInteger then .error (.badIndex index.ty)
    else
      match index.convert? base.ty (some .add) with
      | none => .error (.cannotIndex base.ty index.ty)
      | some offset =>
        .ok (.ofUnary .deref (.binary { ty := base.ty, line := base.line } .add base offset) element)

/-- The symbol of a function that is called, and the types of its parameters. -/
def callee (names : Names) (name : String) : Except SemanticFault (Ty × List Ty) := do
  let symbol ← names.resolve name
  if symbol.kind = .function then .ok (symbol.ty, (names.symbols.params name).map (·.ty))
  else .error (.notFunction name)

/-- Arguments converted to the types of the parameters; `position` is that of the first, counted from one. -/
def arguments (function : String) : (position : Nat) → List Expr → List Ty → Except SemanticFault (List Expr)
  | position, arg :: args, ty :: tys =>
    match arg.convert? ty none with
    | none => .error (.badArgument position function arg.ty ty)
    | some arg => do
      let args ← arguments function (position + 1) args tys
      .ok (arg :: args)
  | _, _, _ => .ok []

/-- A call of a function that returns `ret` and takes parameters of types `params`. -/
def call (name : String) (ret : Ty) (params : List Ty) (args : List Expr) (line : Nat) : Except SemanticFault Expr :=
  if args.length ≠ params.length then .error (.argumentCount name params.length args.length)
  else do
    let args ← arguments name 1 args params
    .ok (.call { ty := ret, line } name args)

/-! ## Unary operators -/

def negate (operand : Expr) : Except SemanticFault Expr :=
  if operand.ty.isInteger then
    .ok (.ofUnary .negate operand (if operand.ty = .char then .int else operand.ty))
  else .error (.badNegation operand.ty)

def logicalNot (operand : Expr) : Except SemanticFault Expr :=
  if operand.ty.hasTruth then .ok (.ofUnary .not operand .int) else .error (.badNot operand.ty)

/-- The address of a variable, or of the first element of an array. -/
def addressOf (names : Names) (operand : Expr) : Except SemanticFault Expr :=
  match operand with
  | .ident _ name _ => do
    let symbol ← names.resolve name
    if symbol.isArray then .ok (.ofUnary .addressOf operand operand.ty)
    else
      match operand.ty.pointerTo with
      | some ty => .ok (.ofUnary .addressOf operand ty)
      | none => .error .pointerToPointer
  | _ => .error .addressOfValue

def dereference (operand : Expr) : Except SemanticFault Expr :=
  match operand.ty.element? with
  | some ty => .ok (.ofUnary .deref operand ty)
  | none => .error (.badDereference operand.ty)

/-- `++` or `--` on a variable that is no array and no `void*`. -/
def step (names : Names) (moment : Moment) (direction : Direction) (operand : Expr) : Except SemanticFault Expr :=
  match operand with
  | .ident _ name _ => do
    let symbol ← names.resolve name
    if symbol.isArray || operand.ty = .pointer .void then .error (.badStep name)
    else .ok (.ofUnary (.step moment direction) operand operand.ty)
  | _ => .error .stepOfValue

def unary (names : Names) (op : UnaryOp) (operand : Expr) : Except SemanticFault Expr :=
  match op with
  | .negate => negate operand
  | .not => logicalNot operand
  | .addressOf => addressOf names operand
  | .deref => dereference operand
  | .step moment direction => step names moment direction operand

/-! ## Binary operators -/

/-- `left = right` as an expression of the left side's type. -/
def assign (names : Names) (left right : Expr) (line : Nat) : Except SemanticFault Expr := do
  if !left.isAddressable then throw .notLocation
  if let .ident _ name _ := left then
    let symbol ← names.resolve name
    if symbol.isArray then throw (.assignArray name)
  match right.convert? left.ty none with
  | some right => .ok (.binary { ty := left.ty, line } .assign left.asTarget right)
  | none => .error (.badAssign right.ty left.ty)

/-- Whether an operator other than assignment takes pointers. -/
def takesPointers (op : BinaryOp) : Bool := op.isComparison || op.isAdditive

/-- An operator other than assignment: one of its operands is converted to the type of the other. A comparison has
type `int`, anything else the type of its left operand. -/
def arithmetic (op : BinaryOp) (left right : Expr) (line : Nat) : Except SemanticFault Expr :=
  if left.ty = .void ∨ right.ty = .void then .error .voidOperand
  else if !takesPointers op && (left.ty.isPointer || right.ty.isPointer) then
    .error (.invalidOperands left.ty right.ty op)
  else
    match left.convert? right.ty (some op), right.convert? left.ty (some op) with
    | none, none => .error (.incompatible left.ty right.ty op)
    | left?, right? =>
      let l := left?.getD left
      let r := right?.getD right
      .ok (.binary { ty := if op.isComparison then .int else l.ty, line } op l r)

def binary (names : Names) (op : BinaryOp) (left right : Expr) (line : Nat) : Except SemanticFault Expr :=
  if op = .assign then assign names left right line else arithmetic op left right line

/-! ## Statements -/

/-- An expression whose value is tested. -/
def condition (e : Expr) : Except SemanticFault Expr := if e.ty.hasTruth then .ok e else .error (.noTruth e.ty)

/-- The type that `function` returns. -/
def returnType (names : Names) : Except SemanticFault Ty := do
  let symbol ← names.symbols.resolve names.function none
  .ok symbol.ty

/-- `return;` in a function that returns `ty`. -/
def returnNothing (function : String) (ty : Ty) : Except SemanticFault Stmt :=
  if ty = .void then .ok (.ret none) else .error (.missingReturnValue function ty)

/-- `return value;` in a function that returns `ty`. -/
def returnValue (function : String) (ty : Ty) (value : Expr) : Except SemanticFault Stmt :=
  if ty = .void then .error (.unwantedReturnValue function)
  else
    match value.convert? ty none with
    | some value => .ok (.ret (some value))
    | none => .error (.badReturn value.ty function ty)

/-! ## Declarations -/

/-- What a declaration introduces: the kind of symbol, its type and the number of elements. `size` is the number
between brackets, if there are any. -/
def declared (name : String) (ty : Ty) (size : Option Int) : Except SemanticFault (SymbolKind × Ty × Int) :=
  match size with
  | none => .ok (.variable, ty, 1)
  | some count =>
    if count ≤ 0 then .error (.emptyArray name)
    else
      match ty with
      | .plain .void | .pointer _ => .error (.badElement ty name)
      | .plain base => .ok (.array, .pointer base, count)

/-- A variable, an array or an element has a type with values. -/
def variableType (name : String) (ty : Ty) : Except SemanticFault Unit :=
  if ty = .void then .error (.voidVariable name) else .ok ()

def parameterType (name : String) (ty : Ty) : Except SemanticFault Unit :=
  if ty = .void then .error (.voidParameter name) else .ok ()

/-- The most parameters that a function can have: as many as are passed in registers. -/
def maxParams : Nat := 6

def parameterLimit (function : String) (count : Nat) : Except SemanticFault Unit :=
  if maxParams < count then .error (.tooManyParameters function) else .ok ()

/-- A later declaration of a function agrees with the earlier one, and at most one of them has a body. -/
def agreement (symbols : SymbolTable) (earlier : Symbol) (ret : Ty) (count : Nat) (hasBody : Bool) :
    Except SemanticFault Unit :=
  let declared := (symbols.params earlier.name).length
  if earlier.kind ≠ .function then .error (.duplicateGlobal earlier.name)
  else if declared ≠ count then .error (.parameterCount earlier.name declared count)
  else if earlier.ty ≠ ret then .error (.returnType earlier.name earlier.ty ret)
  else if earlier.defined && hasBody then .error (.alreadyDefined earlier.name)
  else .ok ()

end Typing

end MiniC
