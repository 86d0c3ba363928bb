import MiniC.Parse.Statement

/-!
# Functions and programs
-/

namespace MiniC

/-- A parameter in the head of a function. -/
structure Param where
  name : String
  ty : Ty
  line : Nat

/-- The head of a function: what a prototype and a definition have in common. -/
structure Head where
  name : String
  line : Nat
  params : List Param
  ret : Ty

namespace Head

/-- Enter the function among the globals, or check it against its earlier declaration. Gives whether it is new. -/
def enter (head : Head) (hasBody : Bool) : CompileM Bool := do
  let symbols := (← get).symbols
  match symbols.global? head.name with
  | some earlier =>
    CompileM.require head.line (Typing.agreement symbols earlier head.ret head.params.length hasBody)
    return false
  | none =>
    let label ← CompileM.drawLabel
    CompileM.declare head.line (·.declareGlobal head.name .function head.ret (some label) 1)
    return true

/-- Declare the function. Its parameters are those of its definition, or of the first prototype as long as there is no
definition. -/
def declare (head : Head) (hasBody : Bool) : CompileM Unit := do
  let isNew ← head.enter hasBody
  if isNew || hasBody then
    modify fun context => { context with symbols := context.symbols.openNamespace head.name }
    head.params.forM fun param => CompileM.declare param.line (·.declareParameter head.name param.name param.ty)
  if hasBody then
    modify fun context => { context with symbols := context.symbols.define head.name }

end Head

namespace Parse

/-! ## Heads of functions -/

/-- One parameter or more, separated by commas, up to and with the closing parenthesis. -/
def moreParams (s : State) : Result s.size (List Param) :=
  (type s).bind fun ty s₁ _ =>
  (identifier s₁).andThen fun (name, line) s₂ _ =>
  s₂.demand line (Typing.parameterType name ty) fun _ =>
    match s₂.accept? (.punct ",") with
    | some t =>
      t.andThen fun _ s₃ _ =>
      (moreParams s₃).andThen fun params s₄ _ => .done (⟨name, ty, line⟩ :: params) s₄
    | none => (s₂.expect (.punct ")")).andThen fun _ s₃ _ => .done [⟨name, ty, line⟩] s₃
termination_by s.size

/-- The parameters of a function, read after the opening parenthesis up to and with the closing one. -/
def params (s : State) : Result s.size (List Param) :=
  match s.accept? (.punct ")") with
  | some t => t.bind fun _ s₁ _ => .done [] s₁
  | none => moreParams s

/-- The rest of the head of a function after `func`. -/
def head (s : State) : Result s.size Head :=
  (identifier s).bind fun (name, line) s₁ _ =>
  (s₁.expect (.punct "(")).andThen fun _ s₂ _ =>
  (params s₂).andThen fun params s₃ _ =>
  s₃.demand line (Typing.parameterLimit name params.length) fun _ =>
  (s₃.expect (.punct "->")).andThen fun _ s₄ _ =>
  (type s₄).andThen fun ret s₅ _ => .done ⟨name, line, params, ret⟩ s₅

/-! ## Items -/

/-- The rest of a function after `func`: a prototype that ends with a semicolon, or a definition with a body. -/
def function (s : State) : Result s.size Stmt :=
  (head s).bind fun head s₁ _ =>
    match s₁.accept? (.punct ";") with
    | some t =>
      t.andThen fun _ s₂ _ =>
      (s₂.perform (head.declare false)).bind fun _ s₃ _ => .done (.prototype head.name) s₃
    | none =>
      (s₁.perform (head.declare true)).bind fun _ s₂ _ =>
      (block head.name s₂).andThen fun body s₃ _ => .done (.function head.name body) s₃

/-- A function or a global at the outermost level. -/
def item (s : State) : Result s.size Stmt :=
  match s.accept? (.keyword "func") with
  | some t => t.bind fun _ s₁ _ => (function s₁).relax
  | none =>
    match (s.accept? (.keyword "global")).or (s.accept? (.keyword "var")) with
    | some t => t.bind fun _ s₁ _ => (declaration none s₁).relax
    | none => s.missing .expectedItem

/-- All items up to the end of the input. -/
def items (s : State) : Result (s.size + 1) (List Stmt) :=
  if s.atEnd then .done [] s
  else
    (item s).andThen fun stmt s₁ _ =>
    (items s₁).bind fun stmts s₂ _ => .done (stmt :: stmts) s₂
termination_by s.size

/-- The state before the first of `tokens`. -/
def State.start (tokens : List Token) (context : Context) : State :=
  { tokens, lastLine := (tokens.getLast?.map (·.line)).getD 1, context }

end Parse

/-- The program that the tokens write; its symbols are declared in the context. -/
def parse (tokens : List Token) : CompileM Program := fun context =>
  match Parse.items (Parse.State.start tokens context) with
  | .ok program last _ => .ok program last.context
  | .fail fault last => .error fault last.context

end MiniC
