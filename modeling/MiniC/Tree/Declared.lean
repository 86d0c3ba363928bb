import MiniC.Tree

/-!
# The globals that a program declares

The names of global variables and functions, also of those that statements inside bodies declare.
-/

namespace MiniC

mutual

/-- The names declared by the statements that a control structure holds. -/
def Expr.declared : Expr → List String
  | .ifElse _ _ yes no => yes.declared ++ optionalDeclared no
  | .whileLoop _ _ body => body.declared
  | .forLoop _ _ _ _ body => body.declared
  | _ => []

def Stmt.declared : Stmt → List String
  | .globalDecl name => [name]
  | .expr e => e.declared
  | .block stmts => allDeclared stmts
  | .prototype name => [name]
  | .function name body => name :: body.declared
  | .ret _ => []
  | .varDecl _ => []

def optionalDeclared : Option Stmt → List String
  | none => []
  | some stmt => stmt.declared

def allDeclared : List Stmt → List String
  | [] => []
  | stmt :: stmts => stmt.declared ++ allDeclared stmts

end

/-- Each name once, in the order in which they are first declared. -/
def Program.declared (program : Program) : List String := (allDeclared program).eraseDups

end MiniC
