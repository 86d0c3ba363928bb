import MiniC.Ty
import MiniC.Operator

/-!
# Faults

Everything that can be wrong with a source, as a cause and the line it was found on. Each stage has its own type of
causes; `Fault` joins them, and `message` gives the wording of each. The first fault ends a run.
-/

namespace MiniC

/-- Why a piece of source text is no token. -/
inductive LexicalFault where
  | unclosedComment
  /-- A run of digits whose value does not fit a signed 64-bit word. -/
  | numberTooLarge (digits : String)
  | unclosedCharacter
  | unterminatedString
  /-- A literal that stops in the middle of a character. -/
  | endOfLiteral
  /-- A backslash before a byte that is no escape; the byte is shown as the character of that number. -/
  | unknownEscape (shown : Char)
  | unrecognised (c : Char)
  deriving DecidableEq

/-- Which token was missing, and what stood there instead. -/
inductive GrammarFault where
  | expectedItem (found : String)
  | expectedType (found : String)
  | expectedNumber (found : String)
  | expectedIdentifier (found : String)
  | expectedExpression (found : String)
  | expected (spelling found : String)
  | nestedFunction
  | unclosedBlock
  deriving DecidableEq

/-- Names, types and locations that do not fit together. -/
inductive SemanticFault where
  -- declarations
  | emptyArray (name : String)
  | badElement (ty : Ty) (name : String)
  | voidVariable (name : String)
  | voidParameter (name : String)
  | tooManyParameters (function : String)
  | parameterCount (function : String) (declared now : Nat)
  | returnType (function : String) (declared now : Ty)
  | alreadyDefined (function : String)
  | duplicateGlobal (name : String)
  | noNamespace (function : String)
  | alreadyDeclared (name function : String)
  -- names
  | unknownSymbol (name : String)
  | functionAsValue (name : String)
  | notFunction (name : String)
  -- statements
  | missingReturnValue (function : String) (ty : Ty)
  | unwantedReturnValue (function : String)
  | badReturn (ty : Ty) (function : String) (wanted : Ty)
  | noTruth (ty : Ty)
  -- operators
  | voidOperand
  | invalidOperands (left right : Ty) (op : BinaryOp)
  | incompatible (left right : Ty) (op : BinaryOp)
  | notLocation
  | assignArray (name : String)
  | badAssign (ty target : Ty)
  | badNegation (ty : Ty)
  | badNot (ty : Ty)
  | addressOfValue
  | pointerToPointer
  | badDereference (ty : Ty)
  | stepOfValue
  | badStep (name : String)
  | notIndexable (name : String)
  | badIndex (ty : Ty)
  | cannotIndex (ty index : Ty)
  | argumentCount (function : String) (wanted given : Nat)
  | badArgument (position : Nat) (function : String) (ty wanted : Ty)
  -- trees that have no code
  | noValue
  | unmarkedTarget
  | noAddress
  | stepNeedsName
  | noSlot (name : String)
  deriving DecidableEq

/-- Trees and symbol tables that do not belong together. The last three are no reports but crashes: they end a run where
lowering would break one of its own rules. -/
inductive InternalFault where
  | noGlobal (name : String)
  | noFunction (name : String)
  | returnOutside
  /-- More values to pass than there are registers that pass them. -/
  | noArgumentRegister
  /-- A value popped that was not pushed. -/
  | nothingPushed
  /-- A register given back that holds no value. -/
  | doubleFree (register : String)
  deriving DecidableEq

/-- The first thing found wrong in a run. -/
inductive Fault where
  | lexical (line : Nat) (cause : LexicalFault)
  | grammar (line : Nat) (cause : GrammarFault)
  | semantic (line : Nat) (cause : SemanticFault)
  /-- An expression that needs more scratch registers than there are. -/
  | outOfRegisters (line : Nat)
  | internal (cause : InternalFault)
  deriving DecidableEq

/-- A message's text between single quotes. -/
def quoted (text : String) : String := "'" ++ text ++ "'"

def LexicalFault.message : LexicalFault → String
  | unclosedComment => "unclosed block comment"
  | numberTooLarge digits => s!"invalid number {quoted digits}: number too large to fit in target type"
  | unclosedCharacter => "unclosed character literal"
  | unterminatedString => "unterminated string literal"
  | endOfLiteral => "unexpected end of literal"
  | unknownEscape shown => "unknown escape sequence " ++ quoted ("\\" ++ String.singleton shown)
  | unrecognised c => "unrecognised character " ++ quoted (String.singleton c)

def GrammarFault.message : GrammarFault → String
  | expectedItem found => s!"expected a declaration or function, but got \"{found}\""
  | expectedType found => s!"expected a type, but got \"{found}\""
  | expectedNumber found => s!"expected a number, but got \"{found}\""
  | expectedIdentifier found => s!"expected an identifier, but got \"{found}\""
  | expectedExpression found => s!"expected an expression, but got \"{found}\""
  | expected spelling found => s!"expected \"{spelling}\", but got \"{found}\""
  | nestedFunction => "functions cannot be declared inside another function"
  | unclosedBlock => "expected \"\x7d\", but reached end of input"

def SemanticFault.message : SemanticFault → String
  | emptyArray name => s!"array {quoted name} must have a positive size"
  | badElement ty name => s!"invalid element type {ty.name} for array {quoted name}"
  | voidVariable name => s!"variable {quoted name} cannot have type void"
  | voidParameter name => s!"parameter {quoted name} cannot have type void"
  | tooManyParameters function => s!"function {quoted function} has more than 6 parameters"
  | parameterCount function declared now =>
    s!"parameter count mismatch for {quoted function}: declared with {declared}, now {now}"
  | returnType function declared now =>
    s!"return type mismatch for {quoted function}: declared {declared.name}, now {now.name}"
  | alreadyDefined function => s!"function {quoted function} is already defined"
  | duplicateGlobal name => s!"duplicate global declaration of {quoted name}"
  | noNamespace function => s!"no namespace for function {quoted function}"
  | alreadyDeclared name function => s!"{quoted name} is already declared in {quoted function}"
  | unknownSymbol name => s!"unknown symbol {quoted name}"
  | functionAsValue name => s!"function {quoted name} used as a value"
  | notFunction name => s!"{quoted name} is not a function"
  | missingReturnValue function ty => s!"function {quoted function} must return a value of type {ty.name}"
  | unwantedReturnValue function => s!"void function {quoted function} cannot return a value"
  | badReturn ty function wanted =>
    s!"cannot return {ty.name} from function {quoted function} returning {wanted.name}"
  | noTruth ty => s!"condition of type {ty.name} has no truth value"
  | voidOperand => "void value used in an expression"
  | invalidOperands left right op => s!"invalid operands {left.name} and {right.name} for {op.name}"
  | incompatible left right op => s!"incompatible types {left.name} and {right.name} for {op.name}"
  | notLocation => "left side of assignment is not an addressable location"
  | assignArray name => s!"cannot assign to array {quoted name}"
  | badAssign ty target => s!"cannot assign {ty.name} to {target.name}"
  | badNegation ty => s!"cannot negate a value of type {ty.name}"
  | badNot ty => s!"cannot apply '!' to a value of type {ty.name}"
  | addressOfValue => "'&' can only be applied to an identifier"
  | pointerToPointer => "pointer to pointer is not supported"
  | badDereference ty => s!"cannot dereference a value of type {ty.name}"
  | stepOfValue => "'++' and '--' can only be applied to an identifier"
  | badStep name => s!"cannot increment or decrement {quoted name}"
  | notIndexable name => s!"{quoted name} cannot be indexed"
  | badIndex ty => s!"array index must be an integer, not {ty.name}"
  | cannotIndex ty index => s!"cannot index {ty.name} with {index.name}"
  | argumentCount function wanted given =>
    s!"{quoted function} expects {wanted} argument(s), but {given} were given"
  | badArgument position function ty wanted =>
    s!"argument {position} of {quoted function} has type {ty.name}, expected {wanted.name}"
  | noValue => "expression has no value"
  | unmarkedTarget => "assignment target was not marked as a location"
  | noAddress => "cannot take this address"
  | stepNeedsName => "'++' and '--' need an identifier"
  | noSlot name => s!"no stack slot for {quoted name}"

def InternalFault.message : InternalFault → String
  | noGlobal name => s!"no symbol for global {quoted name}"
  | noFunction name => s!"no symbol for function {quoted name}"
  | returnOutside => "return outside of a function"
  | noArgumentRegister => "no register passes a seventh argument"
  | nothingPushed => "pop without a push"
  | doubleFree register => s!"double free of {register}"

namespace Fault

/-- The line a fault was found on; internal faults have none. -/
def line? : Fault → Option Nat
  | lexical line _ | grammar line _ | semantic line _ | outOfRegisters line => some line
  | internal _ => none

/-- What is wrong, without the line. -/
def message : Fault → String
  | lexical _ cause => cause.message
  | grammar _ cause => cause.message
  | semantic _ cause => cause.message
  | outOfRegisters _ => "out of registers: expression needs more than 4 live temporaries"
  | internal cause => cause.message

end Fault

end MiniC
