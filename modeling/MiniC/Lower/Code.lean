import MiniC.Lower.State

/-!
# Code for expressions and statements

An expression is lowered to lines that leave its value in a scratch register; a statement leaves every register free.
What does not depend on subexpressions stands first, as code that takes registers or the code of operands; the
recursion over the tree follows.
-/

namespace MiniC.Lower

/-! ## Operands -/

def numberCode (info : Info) (value : Int) : LowerM Scratch := do
  let r ← alloc info.line
  emit (.movImm value r.reg)
  return r

/-- The address of a string literal, whose bytes are kept for the end of the listing. -/
def stringCode (info : Info) (label : Nat) (bytes : List UInt8) : LowerM Scratch := do
  modify fun s => { s with strings := s.strings.push (label, bytes) }
  let r ← alloc info.line
  emit (.lea (.literal label) r.reg)
  return r

/-- The value of a variable, or the address of an array. -/
def nameCode (info : Info) (name : String) (scope : Scope) : LowerM Scratch := do
  let place ← location name scope info.line
  let r ← alloc info.line
  if (symbol? (← get) name scope).any (·.isArray) then emit (.lea place r.reg)
  else emit (.load info.ty.width place r.reg)
  return r

/-! ## Unary operators -/

def addressCode (info : Info) : Expr → LowerM Scratch
  | .ident _ name scope => do
    let place ← location name scope info.line
    let r ← alloc info.line
    emit (.lea place r.reg)
    return r
  | _ => semantic info.line .noAddress

/-- The value of a variable, stepped by one element or by one. -/
def stepCode (info : Info) (moment : Moment) (direction : Direction) : Expr → LowerM Scratch
  | .ident operand name scope => do
    let place ← location name scope info.line
    let size := (operand.ty.valueAt.map Ty.size).getD 1
    let update := Instr.update direction operand.ty.width size place
    let r ← alloc info.line
    let load := Instr.load operand.ty.width place r.reg
    match moment with
    | .before => emit update; emit load
    | .after => emit load; emit update
    return r
  | _ => semantic info.line .stepNeedsName

/-- One if the condition holds for the last comparison, else zero. -/
def truthCode (cond : Cond) (r : Scratch) : LowerM Unit := do
  emit (.set cond r.reg)
  emit (.zeroExtend r.reg r.reg)

/-- The operators that work on the value of their operand; `code` computes it. -/
def unaryCode (info : Info) (op : UnaryOp) (operand : Expr) (code : LowerM Scratch) : LowerM Scratch :=
  match op with
  | .addressOf => addressCode info operand
  | .step moment direction => stepCode info moment direction operand
  | .deref => do
    let r ← code
    emit (.load info.ty.width (.pointed r.reg) r.reg)
    return r
  | .negate => do
    let r ← code
    emit (.neg r.reg)
    return r
  | .not => do
    let r ← code
    emit (.cmpZero r.reg)
    truthCode .eq r
    return r

/-- Multiply by a constant, by a shift where it is a small power of two. -/
def scaleCode (factor : Int) (r : Scratch) : LowerM Unit :=
  match factor with
  | 1 => return ()
  | 2 => emit (.shiftImm 1 r.reg)
  | 4 => emit (.shiftImm 2 r.reg)
  | 8 => emit (.shiftImm 3 r.reg)
  | _ => emit (.aluImm .imul factor r.reg)

def changeCode (change : Change) (code : LowerM Scratch) : LowerM Scratch := do
  let r ← code
  match change with
  | .widen => return r
  | .scale factor =>
    scaleCode factor r
    return r

/-! ## Binary operators -/

/-- Operators whose result replaces the right operand. -/
def intoRight (op : AluOp) (left right : Scratch) : LowerM Scratch := do
  emit (.alu op left.reg right.reg)
  free left
  return right

/-- Operators whose result replaces the left operand. -/
def intoLeft (code : List Instr) (left right : Scratch) : LowerM Scratch := do
  code.forM emit
  free right
  return left

/-- Divide; `result` is the register that holds the wanted part. -/
def divide (result : Reg) (left right : Scratch) : LowerM Scratch :=
  intoLeft [.mov left.reg .rax, .cqo, .idiv right.reg, .mov result left.reg] left right

def shiftBy (op : Shift) (left right : Scratch) : LowerM Scratch :=
  intoLeft [.mov right.reg .rcx, .shift op left.reg] left right

def compare (cond : Cond) (left right : Scratch) : LowerM Scratch :=
  intoLeft [.cmp right.reg left.reg, .set cond left.reg, .zeroExtend left.reg left.reg] left right

/-- An operator applied to the values in two registers; assignment, which `store` lowers, would only keep the right
one. -/
def arithmetic (op : BinaryOp) (left right : Scratch) : LowerM Scratch :=
  match op with
  | .eq => compare .eq left right
  | .ne => compare .ne left right
  | .lt => compare .lt left right
  | .le => compare .le left right
  | .gt => compare .gt left right
  | .ge => compare .ge left right
  | .add => intoRight .add left right
  | .mul => intoRight .imul left right
  | .bitAnd => intoRight .and left right
  | .bitOr => intoRight .or left right
  | .bitXor => intoRight .xor left right
  | .sub => intoLeft [.alu .sub right.reg left.reg] left right
  | .div => divide .rax left right
  | .mod => divide .rdx left right
  | .shl => shiftBy .left left right
  | .shr => shiftBy .right left right
  | .assign => return right

/-! ## Calls -/

/-- The registers that pass `count` arguments. -/
def argumentRegisters (count : Nat) : LowerM (List Reg) :=
  if count ≤ Reg.arguments.length then return Reg.arguments.take count else internal .noArgumentRegister

/-- The call itself. What is pushed is padded to a multiple of sixteen bytes around it. -/
def paddedCall (name : String) : LowerM Unit := do
  if (← get).pushed % 2 = 1 then
    emit (.aluImm .sub 8 .rsp)
    emit (.call name)
    emit (.aluImm .add 8 .rsp)
  else emit (.call name)

/-- Take the value that a function of type `info.ty` returned, if it returns one. -/
def takeResult (info : Info) : LowerM (Option Scratch) := do
  if info.ty = .void then return none
  let r ← alloc info.line
  emit (.widen info.ty.width .rax r.reg)
  return some r

/-- A call. The live registers are pushed, and so are the arguments, by `args`; the arguments are popped into the
registers that pass them, and the live registers come back after the call. -/
def callCode (info : Info) (name : String) (count : Nat) (args : LowerM Unit) : LowerM (Option Scratch) := do
  let live := (← get).pool.live
  live.forM fun r => push r.reg
  args
  (← argumentRegisters count).reverse.forM pop
  paddedCall name
  live.reverse.forM fun r => pop r.reg
  takeResult info

/-! ## Control -/

/-- Jump to `target` when a condition is false: on the comparison itself, or on the value being zero. -/
def branchCode (comparison : Option (Cond × LowerM Scratch × LowerM Scratch)) (whole : LowerM Scratch) (target : Nat) :
    LowerM Unit := do
  match comparison with
  | some (cond, left, right) =>
    let left ← left
    let right ← right
    emit (.cmp right.reg left.reg)
    emit (.jumpIf cond.negated target)
  | none =>
    let r ← whole
    emit (.cmpZero r.reg)
    emit (.jumpIf .eq target)
  freeAll

/-- Zeros for a global variable, under its name. -/
def zeros (name : String) (symbol : Symbol) : List Line :=
  let element := if symbol.isArray then symbol.ty.valueAt.getD .char else symbol.ty
  [.directive (.globl name), .directive (.align element.size), .name name] ++
    List.replicate symbol.count.toNat (.directive (.zero element.width))

/-- A global variable; code goes on after it if it stands in a function. -/
def globalCode (name : String) : LowerM Unit := do
  match (← get).context.symbols.global? name with
  | none => internal (.noGlobal name)
  | some symbol =>
    enter .data
    (zeros name symbol).forM append
    if (← get).function.isSome then enter .text

/-- The type that a function returns and the label of its epilogue. -/
def epilogueOf (name : String) : LowerM (Ty × Nat) := do
  match (← get).context.symbols.global? name with
  | some { ty, label := some label, .. } => return (ty, label)
  | _ => internal (.noFunction name)

/-- Leave the current function; `value` computes what it returns. -/
def returnCode (value : Option (LowerM Scratch)) : LowerM Unit := do
  match (← get).function with
  | none => internal .returnOutside
  | some function =>
    let (ty, label) ← epilogueOf function
    if let some code := value then
      let r ← code
      emit (.narrow ty.width r.reg .rax)
    emit (.jump label)
    freeAll

/-- Store the arguments that registers pass into the slots of the parameters. -/
def storeParams : List Symbol → List Reg → LowerM Unit
  | [], _ => return ()
  | _ :: _, [] => internal .noArgumentRegister
  | param :: params, r :: regs => do
    emit (.store param.ty.width r (.frame (param.position.getD 0)))
    storeParams params regs

/-- The start of a function with a frame of `size` bytes; the registers that a caller relies on are saved below it. -/
def prologue (size : Int) : List Instr :=
  [.push .rbp, .mov .rsp .rbp] ++ (if 0 < size then [.aluImm .sub size .rsp] else []) ++ [.push .r12, .push .r13]

def epilogue : List Instr := [.pop .r13, .pop .r12, .mov .rbp .rsp, .pop .rbp, .ret]

/-- Start a function whose frame has been laid out in `symbols`. -/
def openFunction (name : String) (symbols : SymbolTable) : LowerM Unit := do
  modify fun s =>
    { s with context := { s.context with symbols }, function := some name, pool := {}, pushed := 0 }
  enter .text
  directive (.globl name)
  directive (.function name)
  append (.name name)

/-- A function: its frame is laid out, `body` follows the prologue, and the epilogue stands under its label. -/
def functionCode (name : String) (body : LowerM Unit) : LowerM Unit := do
  let (_, label) ← epilogueOf name
  let (symbols, size) := Frame.layout (← get).context.symbols name
  openFunction name symbols
  (prologue size).forM emit
  storeParams (symbols.params name) Reg.arguments
  body
  MiniC.Lower.label label
  epilogue.forM emit
  modify fun s => { s with function := none }

/-! ## The tree -/

mutual

/-- Code that leaves the value of an expression in a register; calls of `void` functions and control structures have
no value. -/
def expr : Expr → LowerM (Option Scratch)
  | .number info value => some <$> numberCode info value
  | .string info label bytes => some <$> stringCode info label bytes
  | .ident info name scope => some <$> nameCode info name scope
  | .unary info op operand => some <$> unaryCode info op operand (value operand.line (expr operand))
  | .binary _ .assign left right => do
    if left.info.rvalue then semantic left.line .unmarkedTarget
    let r ← value right.line (expr right)
    store left r
    return some r
  | .binary _ op left right => do
    let l ← value left.line (expr left)
    let r ← value right.line (expr right)
    some <$> arithmetic op l r
  | .convert _ change operand => some <$> changeCode change (value operand.line (expr operand))
  | .call info name args => callCode info name args.length (arguments args)
  | .ifElse _ cond yes no => do
    let falseLabel ← drawLabel
    match no with
    | none =>
      branchCode (comparison cond) (value cond.line (expr cond)) falseLabel
      stmt yes
      label falseLabel
    | some no =>
      let endLabel ← drawLabel
      branchCode (comparison cond) (value cond.line (expr cond)) falseLabel
      stmt yes
      emit (.jump endLabel)
      label falseLabel
      stmt no
      label endLabel
    return none
  | .whileLoop _ cond body => do
    let start ← drawLabel
    let finish ← drawLabel
    label start
    branchCode (comparison cond) (value cond.line (expr cond)) finish
    stmt body
    emit (.jump start)
    label finish
    return none
  | .forLoop _ init cond post body => do
    let start ← drawLabel
    let finish ← drawLabel
    discarded init
    label start
    match cond with
    | none => pure ()
    | some cond => branchCode (comparison cond) (value cond.line (expr cond)) finish
    stmt body
    discarded post
    emit (.jump start)
    label finish
    return none

/-- The condition that a comparison tests, with code for its operands. -/
def comparison : Expr → Option (Cond × LowerM Scratch × LowerM Scratch)
  | .binary _ op left right =>
    op.cond?.map fun cond => (cond, value left.line (expr left), value right.line (expr right))
  | _ => none

/-- Store a register at the location that an expression names. -/
def store : Expr → Scratch → LowerM Unit
  | .ident info name scope, r => do
    let place ← location name scope info.line
    emit (.store info.ty.width r.reg place)
  | .unary info .deref address, r => do
    let pointer ← value address.line (expr address)
    emit (.store info.ty.width r.reg (.pointed pointer.reg))
    free pointer
  | e, _ => semantic e.line .notLocation

/-- An expression, if there is one, whose value is not used. -/
def discarded : Option Expr → LowerM Unit
  | none => return ()
  | some e => do
    let _ ← expr e
    freeAll

/-- Push the values of arguments from left to right. -/
def arguments : List Expr → LowerM Unit
  | [] => return ()
  | arg :: args => do
    let r ← value arg.line (expr arg)
    push r.reg
    free r
    arguments args

def stmt : Stmt → LowerM Unit
  | .ret none => returnCode none
  | .ret (some e) => returnCode (some (value e.line (expr e)))
  | .expr e => do
    let _ ← expr e
    freeAll
  | .varDecl _ => return ()
  | .globalDecl name => globalCode name
  | .block stmts => stmtList stmts
  | .prototype _ => return ()
  | .function name body => functionCode name (stmt body)

def stmtList : List Stmt → LowerM Unit
  | [] => return ()
  | s :: rest => do
    stmt s
    stmtList rest

end

end MiniC.Lower
