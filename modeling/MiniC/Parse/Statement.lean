import MiniC.Parse.Expression

/-!
# Types, declarations and statements
-/

namespace MiniC.Parse

/-! ## Types -/

/-- The base type that a keyword names. -/
def base? (t : Token) : Option Base :=
  if t.is (.keyword "void") then some .void
  else if t.is (.keyword "char") then some .char
  else if t.is (.keyword "int") then some .int
  else if t.is (.keyword "long") then some .long
  else none

/-- A base type, or a pointer to one. -/
def type (s : State) : Result s.size Ty :=
  (s.need base? .expectedType).bind fun base s₁ _ =>
    match s₁.accept? (.punct "*") with
    | some t => t.andThen fun _ s₂ _ => .done (.pointer base) s₂
    | none => .done (.plain base) s₁

/-! ## Declarations -/

/-- The number of elements between brackets, if there are any. -/
def arraySize (s : State) : Result (s.size + 1) (Option Int) :=
  match s.accept? (.punct "[") with
  | some t =>
    t.andThen fun _ s₁ _ =>
    (number s₁).andThen fun count s₂ _ =>
    (s₂.expect (.punct "]")).andThen fun _ s₃ _ => .done (some count) s₃
  | none => .done none s

/-- The rest of a declaration after `var` or `global`: a local of the function `owner`, or a global. -/
def declaration (owner : Option String) (s : State) : Result s.size Stmt :=
  (type s).bind fun ty s₁ _ =>
  (identifier s₁).andThen fun (name, line) s₂ _ =>
  (arraySize s₂).bind fun size s₃ _ =>
  s₃.demand line (Typing.declared name ty size) fun (kind, ty, count) =>
  (s₃.expect (.punct ";")).andThen fun _ s₄ _ =>
  s₄.demand line (Typing.variableType name ty) fun _ =>
    match owner with
    | some function =>
      (s₄.perform (CompileM.declare line (·.declareLocal function name kind ty count))).bind fun _ s₅ _ =>
        .done (.varDecl name) s₅
    | none =>
      (s₄.perform (CompileM.declare line (·.declareGlobal name kind ty none count))).bind fun _ s₅ _ =>
        .done (.globalDecl name) s₅

/-! ## Statements -/

/-- The rest of a statement after `return`; what is wrong with it is reported on the line of the next token. -/
def returned (function : String) (s : State) : Result s.size Stmt :=
  s.demand s.line (Typing.returnType (s.names function)) fun ty =>
    match s.accept? (.punct ";") with
    | some t =>
      t.bind fun _ s₁ _ => s₁.demand s.line (Typing.returnNothing function ty) fun stmt => .done stmt s₁
    | none =>
      (expression function s).bind fun value s₁ _ =>
      (s₁.expect (.punct ";")).andThen fun _ s₂ _ =>
      s₂.demand s.line (Typing.returnValue function ty value) fun stmt => .done stmt s₂

/-- A clause of a `for` that may be empty, up to and with what closes it. -/
def clause (close : Terminal) (parse : (s : State) → Result s.size Expr) (s : State) : Result s.size (Option Expr) :=
  match s.accept? close with
  | some t => t.bind fun _ s₁ _ => .done none s₁
  | none =>
    (parse s).bind fun e s₁ _ =>
    (s₁.expect close).andThen fun _ s₂ _ => .done (some e) s₂

/-- A condition between parentheses. -/
def parenthesised (function : String) (s : State) : Result s.size Expr :=
  (s.expect (.punct "(")).bind fun _ s₁ _ =>
  (condition function s₁).andThen fun cond s₂ _ =>
  (s₂.expect (.punct ")")).andThen fun _ s₃ _ => .done cond s₃

/-- The three clauses of a `for`, between parentheses. -/
def clauses (function : String) (s : State) : Result s.size (Option Expr × Option Expr × Option Expr) :=
  (s.expect (.punct "(")).bind fun _ s₁ _ =>
  (clause (.punct ";") (expression function) s₁).andThen fun init s₂ _ =>
  (clause (.punct ";") (condition function) s₂).andThen fun cond s₃ _ =>
  (clause (.punct ")") (expression function) s₃).andThen fun post s₄ _ => .done (init, cond, post) s₄

/-- What the first token of a statement decides. -/
inductive Lead where
  | nestedFunction
  | ret
  | declaration (isGlobal : Bool)
  | ifElse
  | whileLoop
  | forLoop
  | block

def lead? (t : Token) : Option Lead :=
  if t.is (.keyword "func") then some .nestedFunction
  else if t.is (.keyword "return") then some .ret
  else if t.is (.keyword "global") then some (.declaration true)
  else if t.is (.keyword "var") then some (.declaration false)
  else if t.is (.keyword "if") then some .ifElse
  else if t.is (.keyword "while") then some .whileLoop
  else if t.is (.keyword "for") then some .forLoop
  else if t.is (.punct "\x7b") then some .block
  else none

/-- What control structures carry: they have no value. -/
def control (line : Nat) : Info := { ty := .void, line }

mutual

/-- A statement in the body of `function`. -/
def statement (function : String) (s : State) : Result s.size Stmt :=
  match s.take? lead? with
  | some t =>
    t.bind fun lead s₁ _ =>
      match lead with
      | .nestedFunction => .fail (.grammar s.line .nestedFunction) s
      | .ret => (returned function s₁).relax
      | .declaration isGlobal => (declaration (if isGlobal then none else some function) s₁).relax
      | .ifElse =>
        (parenthesised function s₁).andThen fun cond s₂ _ =>
        (statement function s₂).andThen fun yes s₃ _ =>
          match s₃.accept? (.keyword "else") with
          | some t =>
            t.andThen fun _ s₄ _ =>
            (statement function s₄).andThen fun no s₅ _ =>
            .done (.expr (.ifElse (control s.line) cond yes (some no))) s₅
          | none => .done (.expr (.ifElse (control s.line) cond yes none)) s₃
      | .whileLoop =>
        (parenthesised function s₁).andThen fun cond s₂ _ =>
        (statement function s₂).andThen fun body s₃ _ =>
        .done (.expr (.whileLoop (control s.line) cond body)) s₃
      | .forLoop =>
        (clauses function s₁).andThen fun (init, cond, post) s₂ _ =>
        (statement function s₂).andThen fun body s₃ _ =>
        .done (.expr (.forLoop (control s.line) init cond post body)) s₃
      | .block => (statements function s₁).andThen fun stmts s₂ _ => .done (.block stmts) s₂
  | none =>
    (expression function s).bind fun e s₁ _ =>
    (s₁.expect (.punct ";")).andThen fun _ s₂ _ => .done (.expr e) s₂
termination_by 2 * s.size

/-- The statements of a block, up to and with the closing brace. -/
def statements (function : String) (s : State) : Result s.size (List Stmt) :=
  match s.accept? (.punct "\x7d") with
  | some t => t.bind fun _ s₁ _ => .done [] s₁
  | none =>
    if s.atEnd then .fail (.grammar s.line .unclosedBlock) s
    else
      (statement function s).bind fun stmt s₁ _ =>
      (statements function s₁).andThen fun stmts s₂ _ => .done (stmt :: stmts) s₂
termination_by 2 * s.size + 1

end

/-- The statements between braces. -/
def block (function : String) (s : State) : Result s.size Stmt :=
  (s.expect (.punct "\x7b")).bind fun _ s₁ _ =>
  (statements function s₁).andThen fun stmts s₂ _ => .done (.block stmts) s₂

end MiniC.Parse
