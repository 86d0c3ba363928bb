import MiniC.Outline
import MiniC.Tree

/-!
# Trees as outlines
-/

namespace MiniC

/-- The type's name in outlines. -/
def Ty.tag : Ty → String
  | .plain .void => "Void"
  | .plain .char => "Char"
  | .plain .int => "Int"
  | .plain .long => "Long"
  | .pointer .void => "VoidPtr"
  | .pointer .char => "CharPtr"
  | .pointer .int => "IntPtr"
  | .pointer .long => "LongPtr"

def Change.outline : Change → Outline
  | widen => .leaf "Widen"
  | scale factor => .tuple "Scale" [.leaf (toString factor)]

/-- An expression: its kind, then what every expression carries. -/
def Info.outline (info : Info) (kind : Outline) : Outline :=
  .record "Expr"
    [("kind", kind), ("ty", .leaf info.ty.tag), ("rvalue", .leaf (if info.rvalue then "true" else "false")),
      ("line", .leaf (toString info.line))]

mutual

def Expr.outline : Expr → Outline
  | .ident info name scope =>
    info.outline (.record "Identifier" [("name", .text name), ("scope", .leaf scope.name)])
  | .number info value => info.outline (.tuple "IntegerLiteral" [.leaf (toString value)])
  | .string info label bytes =>
    info.outline (.record "StringLiteral"
      [("label", .leaf (toString label)), ("bytes", .list (bytes.map fun byte => .leaf (toString byte.toNat)))])
  | .unary info op operand =>
    info.outline (.record "Prefix" [("op", .leaf op.name), ("operand", operand.outline)])
  | .binary info op left right =>
    info.outline (.record "Infix" [("op", .leaf op.name), ("lhs", left.outline), ("rhs", right.outline)])
  | .ifElse info cond yes no =>
    info.outline (.record "If" [("cond", cond.outline), ("then", yes.outline), ("otherwise", optionalStmtOutline no)])
  | .whileLoop info cond body =>
    info.outline (.record "While" [("cond", cond.outline), ("body", body.outline)])
  | .forLoop info init cond post body =>
    info.outline (.record "For"
      [("init", optionalOutline init), ("cond", optionalOutline cond), ("post", optionalOutline post),
        ("body", body.outline)])
  | .call info name args =>
    info.outline (.record "Call" [("name", .text name), ("args", .list (exprOutlines args))])
  | .convert info change operand =>
    info.outline (.record "TypeChange" [("action", change.outline), ("operand", operand.outline)])

def Stmt.outline : Stmt → Outline
  | .ret value => .tuple "Return" [optionalOutline value]
  | .expr e => .tuple "Expression" [e.outline]
  | .varDecl name => .tuple "VarDecl" [.text name]
  | .globalDecl name => .tuple "GlobalDecl" [.text name]
  | .block stmts => .tuple "Block" [.list (stmtOutlines stmts)]
  | .prototype name => .record "FunctionLiteral" [("name", .text name), ("body", .option none)]
  | .function name body => .record "FunctionLiteral" [("name", .text name), ("body", .option (some body.outline))]

def optionalOutline : Option Expr → Outline
  | none => .option none
  | some e => .option (some e.outline)

def optionalStmtOutline : Option Stmt → Outline
  | none => .option none
  | some stmt => .option (some stmt.outline)

def exprOutlines : List Expr → List Outline
  | [] => []
  | e :: es => e.outline :: exprOutlines es

def stmtOutlines : List Stmt → List Outline
  | [] => []
  | stmt :: stmts => stmt.outline :: stmtOutlines stmts

end

def Program.outline (program : Program) : Outline := .record "Program" [("items", .list (stmtOutlines program))]

end MiniC
