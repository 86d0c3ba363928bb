/-!
# Operators

Binary operators with their symbols and binding strengths, and unary operators. The strengths order the levels of the
expression grammar: assignment (the only one that groups to the right), equality, order, shifts and bitwise operators
(one shared level), sums, products.
-/

namespace MiniC

inductive BinaryOp where
  | assign
  | bitOr
  | bitXor
  | bitAnd
  | eq
  | ne
  | lt
  | le
  | gt
  | ge
  | shl
  | shr
  | add
  | sub
  | mul
  | div
  | mod
  deriving DecidableEq

namespace BinaryOp

def all : List BinaryOp :=
  [assign, bitOr, bitXor, bitAnd, eq, ne, lt, le, gt, ge, shl, shr, add, sub, mul, div, mod]

theorem mem_all (op : BinaryOp) : op ∈ all := by cases op <;> decide

/-- The punctuator that writes the operator. -/
def symbol : BinaryOp → String
  | assign => "="
  | bitOr => "|"
  | bitXor => "^"
  | bitAnd => "&"
  | eq => "=="
  | ne => "!="
  | lt => "<"
  | le => "<="
  | gt => ">"
  | ge => ">="
  | shl => "<<"
  | shr => ">>"
  | add => "+"
  | sub => "-"
  | mul => "*"
  | div => "/"
  | mod => "%"

/-- The operator's name in diagnostics and tree outlines. -/
def name : BinaryOp → String
  | assign => "Assign"
  | bitOr => "BitOr"
  | bitXor => "BitXor"
  | bitAnd => "BitAnd"
  | eq => "Eq"
  | ne => "Ne"
  | lt => "Lt"
  | le => "Le"
  | gt => "Gt"
  | ge => "Ge"
  | shl => "Shl"
  | shr => "Shr"
  | add => "Add"
  | sub => "Sub"
  | mul => "Mul"
  | div => "Div"
  | mod => "Mod"

/-- The operator that a punctuator writes. -/
def ofSymbol? (text : String) : Option BinaryOp := all.find? (·.symbol == text)

/-- How tightly the operator binds; a larger number binds tighter. -/
def strength : BinaryOp → Nat
  | assign => 10
  | eq | ne => 50
  | lt | le | gt | ge => 60
  | shl | shr | bitAnd | bitOr | bitXor => 70
  | add | sub => 80
  | mul | div | mod => 90

/-- Whether `a op b op c` groups as `a op (b op c)`. -/
def groupsRight : BinaryOp → Bool
  | assign => true
  | _ => false

def isComparison : BinaryOp → Bool
  | eq | ne | lt | le | gt | ge => true
  | _ => false

/-- Whether the operator moves a pointer by an integer. -/
def isAdditive : BinaryOp → Bool
  | add | sub => true
  | _ => false

/-- Whether the operator extends an operand read at binding strength `floor`. -/
def extends? (op : BinaryOp) (floor : Nat) : Bool :=
  floor < op.strength || (op.strength == floor && op.groupsRight)

theorem ofSymbol?_symbol (op : BinaryOp) : ofSymbol? op.symbol = some op := by cases op <;> decide

/-- No two operators share a symbol. -/
theorem symbol_injective {a b : BinaryOp} (h : a.symbol = b.symbol) : a = b :=
  Option.some.inj ((ofSymbol?_symbol a).symm.trans (h ▸ ofSymbol?_symbol b))

theorem symbol_of_ofSymbol? {text : String} {op : BinaryOp} (h : ofSymbol? text = some op) : op.symbol = text := by
  simpa using List.find?_some h

end BinaryOp

/-- Whether a step changes the variable before or after its value is read. -/
inductive Moment where
  | before
  | after
  deriving DecidableEq

/-- Whether a step adds or subtracts. -/
inductive Direction where
  | up
  | down
  deriving DecidableEq

/-- Unary operators; `step` covers `++` and `--` on either side of a name. -/
inductive UnaryOp where
  | addressOf
  | deref
  | negate
  | not
  | step (moment : Moment) (direction : Direction)
  deriving DecidableEq

namespace UnaryOp

/-- The operator that a punctuator in front of an operand writes. -/
def ofSymbol? : String → Option UnaryOp
  | "-" => some negate
  | "!" => some not
  | "&" => some addressOf
  | "*" => some deref
  | "++" => some (step .before .up)
  | "--" => some (step .before .down)
  | _ => none

/-- The operator's name in tree outlines. -/
def name : UnaryOp → String
  | addressOf => "AddressOf"
  | deref => "Deref"
  | negate => "Negate"
  | not => "Not"
  | step .before .up => "PreIncrement"
  | step .before .down => "PreDecrement"
  | step .after .up => "PostIncrement"
  | step .after .down => "PostDecrement"

end UnaryOp

end MiniC
