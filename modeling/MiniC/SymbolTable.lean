import MiniC.Fault
import MiniC.Symbol

/-!
# The symbol table

One list of globals and one namespace per function, each in the order of declaration. Nothing is ever removed; only
`openNamespace` starts a function over, when its definition follows a prototype.
-/

namespace MiniC

structure SymbolTable where
  globals : List Symbol := []
  /-- The parameters and locals of each function. -/
  namespaces : List (String × List Symbol) := []

namespace SymbolTable

/-! ## Looking names up -/

def global? (table : SymbolTable) (name : String) : Option Symbol := table.globals.find? (·.name == name)

def namespace? (table : SymbolTable) (function : String) : Option (List Symbol) := table.namespaces.lookup function

/-- The parameters and locals of `function`, in the order of declaration. -/
def members (table : SymbolTable) (function : String) : List Symbol := (table.namespace? function).getD []

def params (table : SymbolTable) (function : String) : List Symbol :=
  (table.members function).filter (·.scope == .parameter)

def local? (table : SymbolTable) (function name : String) : Option Symbol :=
  (table.members function).find? (·.name == name)

/-- What `name` stands for inside `function`: its own symbols come before the globals. -/
def resolve (table : SymbolTable) (name : String) (function : Option String) : Except SemanticFault Symbol :=
  match (function.bind (table.local? · name)).or (table.global? name) with
  | some symbol => .ok symbol
  | none => .error (.unknownSymbol name)

/-! ## Declaring names -/

/-- Replace the namespace of `function`, or give it one. -/
def setNamespace (table : SymbolTable) (function : String) (symbols : List Symbol) : SymbolTable :=
  { table with namespaces := (function, symbols) :: table.namespaces.filter (·.1 != function) }

/-- Start `function` with an empty namespace. -/
def openNamespace (table : SymbolTable) (function : String) : SymbolTable := table.setNamespace function []

def declareGlobal (table : SymbolTable) (name : String) (kind : SymbolKind) (ty : Ty) (label : Option Nat)
    (count : Int) : Except SemanticFault SymbolTable :=
  match table.global? name with
  | some _ => .error (.duplicateGlobal name)
  | none =>
    let symbol : Symbol := { name, scope := .global, kind, ty, label, count }
    .ok { table with globals := table.globals ++ [symbol] }

/-- Add a symbol to the namespace of `function`. -/
def addMember (table : SymbolTable) (function : String) (symbol : Symbol) : Except SemanticFault SymbolTable :=
  match table.namespace? function with
  | none => .error (.noNamespace function)
  | some symbols =>
    if symbols.any (·.name == symbol.name) then .error (.alreadyDeclared symbol.name function)
    else .ok (table.setNamespace function (symbols ++ [symbol]))

def declareLocal (table : SymbolTable) (function name : String) (kind : SymbolKind) (ty : Ty) (count : Int) :
    Except SemanticFault SymbolTable :=
  table.addMember function { name, scope := .local, kind, ty, count }

def declareParameter (table : SymbolTable) (function name : String) (ty : Ty) : Except SemanticFault SymbolTable :=
  table.addMember function { name, scope := .parameter, kind := .variable, ty }

/-! ## Filling in what later stages find out -/

/-- Note that a function has a body. -/
def define (table : SymbolTable) (name : String) : SymbolTable :=
  { table with globals := table.globals.map fun s => if s.name == name then { s with defined := true } else s }

/-- Place a symbol of `function` in its frame. -/
def setPosition (table : SymbolTable) (function name : String) (position : Int) : SymbolTable :=
  match table.namespace? function with
  | none => table
  | some symbols =>
    table.setNamespace function
      (symbols.map fun s => if s.name == name then { s with position := some position } else s)

/-! ## How the operations show in the look-ups -/

theorem lookup_filter_ne {β : Type} {f g : String} (h : g ≠ f) :
    ∀ l : List (String × β), (l.filter (·.1 != f)).lookup g = l.lookup g
  | [] => rfl
  | (k, v) :: l => by
    by_cases hk : k = f
    · subst hk
      simp [List.lookup_cons, lookup_filter_ne h l, beq_false_of_ne h]
    · simp [hk, List.lookup_cons, lookup_filter_ne h l]

@[simp] theorem namespace?_setNamespace (table : SymbolTable) (f g : String) (symbols : List Symbol) :
    (table.setNamespace f symbols).namespace? g = if g = f then some symbols else table.namespace? g := by
  by_cases h : g = f
  · simp [h, namespace?, setNamespace]
  · simp [h, namespace?, setNamespace, List.lookup_cons, lookup_filter_ne h, beq_false_of_ne h]

@[simp] theorem global?_setNamespace (table : SymbolTable) (f name : String) (symbols : List Symbol) :
    (table.setNamespace f symbols).global? name = table.global? name := rfl

end SymbolTable

end MiniC
