import MiniC.Parse.State
import MiniC.Token.Literal
import MiniC.Typing

/-!
# Expressions

Operators are read by precedence climbing: `binary` reads an operand and then every operator that binds tighter than a
floor, each with a right operand read at the operator's own strength. Every node is typed as it is built, by the rules
of `Typing`. All functions read inside the body of `function`.
-/

namespace MiniC.Parse

/-! ## Tokens of expressions -/

/-- A number with a value. -/
def number? (t : Token) : Option Int := if t.kind = .number then t.value else none

/-- A string literal. -/
def string? (t : Token) : Option Token := if t.kind = .string then some t else none

/-- An identifier and the line it stands on. -/
def identifier? (t : Token) : Option (String × Nat) := if t.kind = .ident then some (t.text, t.line) else none

def unaryOp? (t : Token) : Option UnaryOp := if t.kind = .punctuator then UnaryOp.ofSymbol? t.text else none

def binaryOp? (t : Token) : Option BinaryOp := if t.kind = .punctuator then BinaryOp.ofSymbol? t.text else none

/-- A binary operator that extends an operand read at binding strength `floor`. -/
def extension? (floor : Nat) (t : Token) : Option BinaryOp := (binaryOp? t).filter (·.extends? floor)

/-- A step operator after a name. -/
def trailingStep? (t : Token) : Option Direction :=
  if t.is (.punct "++") then some .up else if t.is (.punct "--") then some .down else none

/-- The names that expressions in the body of `function` can use. -/
def State.names (s : State) (function : String) : Names := ⟨s.context.symbols, function⟩

/-- A number that must come next. -/
def number (s : State) : Result s.size Int := s.need number? .expectedNumber

/-- An identifier that must come next, with its line. -/
def identifier (s : State) : Result s.size (String × Nat) := s.need identifier? .expectedIdentifier

/-- A string literal, at a label of its own. -/
def stringLiteral (s : State) : Result s.size Expr :=
  (s.need string? .expectedExpression).bind fun t s₁ _ =>
    match Literal.stringBytes t.text with
    | .ok bytes =>
      (s₁.perform CompileM.drawLabel).bind fun label s₂ _ =>
        .done (.string { ty := .pointer .char, line := t.line } label bytes) s₂
    | .error cause => .fail (.lexical t.line cause) s

/-! ## The grammar -/

mutual

/-- An expression whose outermost operators bind tighter than `floor`. -/
def binary (function : String) (floor : Nat) (s : State) : Result s.size Expr :=
  (unary function s).bind fun left s₁ _ => operators function floor left s₁
termination_by 4 * s.size + 2

/-- The operators that bind tighter than `floor` after the operand `left`, grouped to the left unless they group to the
right. -/
def operators (function : String) (floor : Nat) (left : Expr) (s : State) : Result (s.size + 1) Expr :=
  match s.take? (extension? floor) with
  | some t =>
    t.andThen fun op s₁ _ =>
    (binary function op.strength s₁).andThen fun right s₂ _ =>
    s₂.demand s.line (Typing.binary (s₂.names function) op left right s.line) fun e =>
    operators function floor e s₂
  | none => .done left s
termination_by 4 * s.size

/-- An operand with the operators in front of it. -/
def unary (function : String) (s : State) : Result s.size Expr :=
  match s.take? unaryOp? with
  | some t =>
    t.bind fun op s₁ _ =>
    (unary function s₁).andThen fun operand s₂ _ =>
    s₂.demand s.line (Typing.unary (s₂.names function) op operand) fun e => .done e s₂
  | none => primary function s
termination_by 4 * s.size + 1

/-- A parenthesised expression, a literal, or a name with what follows it. -/
def primary (function : String) (s : State) : Result s.size Expr :=
  match s.accept? (.punct "(") with
  | some t =>
    t.bind fun _ s₁ _ =>
    (binary function 0 s₁).andThen fun e s₂ _ =>
    (s₂.expect (.punct ")")).andThen fun _ s₃ _ => .done e s₃
  | none =>
    match s.kind? with
    | some .number => (number s).bind fun value s₁ _ => .done (.ofInt value s.line) s₁
    | some .string => stringLiteral s
    | some .ident => (identifier s).bind fun (name, line) s₁ _ => named function name line s₁
    | _ => s.missing .expectedExpression
termination_by 4 * s.size

/-- What can be done with a name that stands on `line`: call it, index it, step it or read it. -/
def named (function name : String) (line : Nat) (s : State) : Result (s.size + 1) Expr :=
  if s.sees (.punct "(") then
    s.demand line (Typing.callee (s.names function) name) fun (ret, params) =>
    (s.expect (.punct "(")).andThen fun _ s₁ _ =>
    (arguments function s₁).andThen fun args s₂ _ =>
    s₂.demand line (Typing.call name ret params args line) fun e => .done e s₂
  else
    s.demand line (Typing.name (s.names function) name line) fun base =>
      match s.accept? (.punct "[") with
      | some t =>
        t.andThen fun _ s₁ _ =>
        (binary function 0 s₁).andThen fun index s₂ _ =>
        (s₂.expect (.punct "]")).andThen fun _ s₃ _ =>
        s₃.demand line (Typing.index base name index) fun e => .done e s₃
      | none =>
        match s.take? trailingStep? with
        | some t =>
          t.andThen fun direction s₁ _ =>
          s₁.demand line (Typing.step (s₁.names function) .after direction base) fun e => .done e s₁
        | none => .done base s
termination_by 4 * s.size + 3

/-- The arguments of a call, read after the opening parenthesis up to and with the closing one. -/
def arguments (function : String) (s : State) : Result s.size (List Expr) :=
  match s.accept? (.punct ")") with
  | some t => t.bind fun _ s₁ _ => .done [] s₁
  | none => moreArguments function s
termination_by 4 * s.size + 4

/-- One argument or more, separated by commas, up to and with the closing parenthesis. -/
def moreArguments (function : String) (s : State) : Result s.size (List Expr) :=
  (binary function 0 s).bind fun arg s₁ _ =>
    match s₁.accept? (.punct ",") with
    | some t =>
      t.andThen fun _ s₂ _ =>
      (moreArguments function s₂).andThen fun args s₃ _ => .done (arg :: args) s₃
    | none => (s₁.expect (.punct ")")).andThen fun _ s₂ _ => .done [arg] s₂
termination_by 4 * s.size + 3

end

/-- An expression of any shape. -/
def expression (function : String) (s : State) : Result s.size Expr := binary function 0 s

/-- An expression whose value is tested. -/
def condition (function : String) (s : State) : Result s.size Expr :=
  (expression function s).bind fun e s₁ _ => s₁.demand e.line (Typing.condition e) fun e => .done e s₁

end MiniC.Parse
