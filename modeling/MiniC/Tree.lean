import MiniC.Conversion
import MiniC.Symbol

/-!
# Typed trees

Every expression carries its type, the line it stands on, and whether it is read (`rvalue`) or marks a location to write
to. Control structures are expressions without a value: they have type `void`.
-/

namespace MiniC

/-- What every expression carries. -/
structure Info where
  ty : Ty
  /-- Whether the expression is read; the target of an assignment is not. -/
  rvalue : Bool := true
  line : Nat
  deriving DecidableEq

mutual

inductive Expr where
  | ident (info : Info) (name : String) (scope : Scope)
  | number (info : Info) (value : Int)
  /-- The address of a string; its bytes, closed by a zero, stand under `label`. -/
  | string (info : Info) (label : Nat) (bytes : List UInt8)
  | unary (info : Info) (op : UnaryOp) (operand : Expr)
  | binary (info : Info) (op : BinaryOp) (left right : Expr)
  | ifElse (info : Info) (cond : Expr) (yes : Stmt) (no : Option Stmt)
  | whileLoop (info : Info) (cond : Expr) (body : Stmt)
  | forLoop (info : Info) (init cond post : Option Expr) (body : Stmt)
  | call (info : Info) (name : String) (args : List Expr)
  | convert (info : Info) (change : Change) (operand : Expr)

inductive Stmt where
  | ret (value : Option Expr)
  | expr (e : Expr)
  | varDecl (name : String)
  | globalDecl (name : String)
  | block (stmts : List Stmt)
  /-- A function that is declared and not defined. -/
  | prototype (name : String)
  | function (name : String) (body : Stmt)

end

abbrev Program := List Stmt

namespace Expr

def info : Expr → Info
  | ident info _ _ | number info _ | string info _ _ | unary info _ _ | binary info _ _ _ | ifElse info _ _ _
  | whileLoop info _ _ | forLoop info _ _ _ _ | call info _ _ | convert info _ _ => info

def ty (e : Expr) : Ty := e.info.ty

def line (e : Expr) : Nat := e.info.line

/-- Whether the expression names a location that an assignment may write to. -/
def isAddressable : Expr → Bool
  | ident _ _ _ => true
  | unary _ .deref _ => true
  | _ => false

/-- The same location, written to instead of read. -/
def asTarget : Expr → Expr
  | ident info name scope => ident { info with rvalue := false } name scope
  | unary info op operand => unary { info with rvalue := false } op operand
  | e => e

/-- The literal `value`, at the narrowest type that holds it; `char` is unsigned. -/
def ofInt (value : Int) (line : Nat) : Expr :=
  let ty : Ty :=
    if 0 ≤ value ∧ value ≤ 255 then .char
    else if -2147483648 ≤ value ∧ value ≤ 2147483647 then .int
    else .long
  number { ty, line } value

/-- A unary operator stands on the line of its operand. -/
def ofUnary (op : UnaryOp) (operand : Expr) (ty : Ty) : Expr := unary { ty, line := operand.line } op operand

/-- The expression at type `target`, if a value of its type may stand there as an operand of `op`. -/
def convert? (e : Expr) (target : Ty) (op : Option BinaryOp) : Option Expr :=
  match e.ty.conversion target op with
  | .identical => some e
  | .change change => some (convert { ty := target, line := e.line } change e)
  | .incompatible => none

end Expr

end MiniC
