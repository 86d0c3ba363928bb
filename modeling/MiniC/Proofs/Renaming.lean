import MiniC.Lower.State

/-!
# Other names for parameters and locals

A renaming gives the parameters and locals of one function other names, different ones for different names. In a tree it
changes the names that are met while the body of that function is lowered (`Expr.renamed`, `Stmt.renamed`), in a table the
symbols of its namespace. What a table says about places does not change: look-ups find the renamed symbol
(`Renaming.local?_table`), and frames are laid out alike (`Renaming.layout_table`).
-/

namespace MiniC

/-- Other names for the parameters and locals of a function. -/
structure Renaming where
  function : String
  map : String → String
  injective : ∀ {a b : String}, map a = map b → a = b

/-! ## Trees -/

mutual

/-- The function whose body is being lowered after the expression, if it is `current` before it. A function that is lowered
inside another one ends both. -/
def Expr.after : Expr → Option String → Option String
  | .ident .., current | .number .., current | .string .., current => current
  | .unary _ _ operand, current | .convert _ _ operand, current => operand.after current
  | .binary _ op left right, current =>
    if op = .assign then left.after (right.after current) else right.after (left.after current)
  | .ifElse _ cond yes no, current => Stmt.after? no (yes.after (cond.after current))
  | .whileLoop _ cond body, current => body.after (cond.after current)
  | .forLoop _ init cond post body, current =>
    Expr.after? post (body.after (Expr.after? cond (Expr.after? init current)))
  | .call _ _ args, current => Expr.afterAll args current

def Expr.after? : Option Expr → Option String → Option String
  | none, current => current
  | some e, current => e.after current

def Expr.afterAll : List Expr → Option String → Option String
  | [], current => current
  | e :: es, current => Expr.afterAll es (e.after current)

def Stmt.after : Stmt → Option String → Option String
  | .ret value, current => Expr.after? value current
  | .expr e, current => e.after current
  | .varDecl _, current | .globalDecl _, current | .prototype _, current => current
  | .block stmts, current => Stmt.afterAll stmts current
  | .function _ _, _ => none

def Stmt.after? : Option Stmt → Option String → Option String
  | none, current => current
  | some stmt, current => stmt.after current

def Stmt.afterAll : List Stmt → Option String → Option String
  | [], current => current
  | stmt :: stmts, current => Stmt.afterAll stmts (stmt.after current)

end

/-- A name of the given scope in the body of `current`. -/
def Renaming.name (r : Renaming) (current : Option String) (scope : Scope) (name : String) : String :=
  if scope ≠ .global ∧ current = some r.function then r.map name else name

mutual

/-- The expression with other names for the parameters and locals that are met in the body of `r.function`. Assignments are
lowered from right to left, and the last part of a `for` comes after its body. -/
def Expr.renamed (r : Renaming) : Expr → Option String → Expr
  | .ident info name scope, current => .ident info (r.name current scope name) scope
  | .number info value, _ => .number info value
  | .string info label bytes, _ => .string info label bytes
  | .unary info op operand, current => .unary info op (operand.renamed r current)
  | .convert info change operand, current => .convert info change (operand.renamed r current)
  | .binary info op left right, current =>
    .binary info op (left.renamed r (if op = .assign then right.after current else current))
      (right.renamed r (if op = .assign then current else left.after current))
  | .ifElse info cond yes no, current =>
    .ifElse info (cond.renamed r current) (yes.renamed r (cond.after current))
      (Stmt.renamed? r no (yes.after (cond.after current)))
  | .whileLoop info cond body, current => .whileLoop info (cond.renamed r current) (body.renamed r (cond.after current))
  | .forLoop info init cond post body, current =>
    let first := Expr.after? init current
    let second := Expr.after? cond first
    .forLoop info (Expr.renamed? r init current) (Expr.renamed? r cond first)
      (Expr.renamed? r post (body.after second)) (body.renamed r second)
  | .call info name args, current => .call info name (Expr.renamedAll r args current)

def Expr.renamed? (r : Renaming) : Option Expr → Option String → Option Expr
  | none, _ => none
  | some e, current => some (e.renamed r current)

def Expr.renamedAll (r : Renaming) : List Expr → Option String → List Expr
  | [], _ => []
  | e :: es, current => e.renamed r current :: Expr.renamedAll r es (e.after current)

def Stmt.renamed (r : Renaming) : Stmt → Option String → Stmt
  | .ret value, current => .ret (Expr.renamed? r value current)
  | .expr e, current => .expr (e.renamed r current)
  | .varDecl name, current => .varDecl (r.name current .local name)
  | .globalDecl name, _ => .globalDecl name
  | .block stmts, current => .block (Stmt.renamedAll r stmts current)
  | .prototype name, _ => .prototype name
  | .function name body, _ => .function name (body.renamed r (some name))

def Stmt.renamed? (r : Renaming) : Option Stmt → Option String → Option Stmt
  | none, _ => none
  | some stmt, current => some (stmt.renamed r current)

def Stmt.renamedAll (r : Renaming) : List Stmt → Option String → List Stmt
  | [], _ => []
  | stmt :: stmts, current => stmt.renamed r current :: Stmt.renamedAll r stmts (stmt.after current)

end

namespace Expr

variable (r : Renaming)

theorem info_renamed (e : Expr) (current : Option String) : (e.renamed r current).info = e.info := by
  cases e with
  | number | string => rw [renamed]
  | _ => rw [renamed]; rfl

theorem line_renamed (e : Expr) (current : Option String) : (e.renamed r current).line = e.line := by
  unfold line
  rw [info_renamed]

theorem length_renamedAll : ∀ (es : List Expr) (current : Option String), (renamedAll r es current).length = es.length
  | [], _ => by rw [renamedAll]
  | e :: es, current => by rw [renamedAll, List.length_cons, List.length_cons, length_renamedAll es]

end Expr

/-! ## Tables -/

namespace Renaming

variable (r : Renaming)

def symbol (s : Symbol) : Symbol := { s with name := r.map s.name }

/-- The symbols of the function `f`. -/
def members (f : String) (symbols : List Symbol) : List Symbol :=
  if f = r.function then symbols.map r.symbol else symbols

def table (t : SymbolTable) : SymbolTable :=
  { t with namespaces := t.namespaces.map fun (f, symbols) => (f, r.members f symbols) }

def context (c : Context) : Context := { c with symbols := r.table c.symbols }

@[simp] theorem members_nil (f : String) : r.members f [] = [] := by
  unfold members
  split <;> rfl

theorem namespace?_table (t : SymbolTable) (f : String) :
    (r.table t).namespace? f = (t.namespace? f).map (r.members f) := by
  unfold SymbolTable.namespace? table
  dsimp only
  induction t.namespaces with
  | nil => rfl
  | cons entry entries ih =>
    obtain ⟨g, symbols⟩ := entry
    rw [List.map_cons, List.lookup_cons, List.lookup_cons, ih]
    by_cases hg : f = g
    · subst hg
      simp
    · simp [beq_false_of_ne hg]

theorem members_table (t : SymbolTable) (f : String) : (r.table t).members f = r.members f (t.members f) := by
  unfold SymbolTable.members
  rw [namespace?_table]
  cases t.namespace? f with
  | none => exact (r.members_nil f).symm
  | some symbols => rfl

theorem setNamespace_table (t : SymbolTable) (f : String) (symbols : List Symbol) :
    (r.table t).setNamespace f (r.members f symbols) = r.table (t.setNamespace f symbols) := by
  unfold SymbolTable.setNamespace table
  simp only [List.map_cons, List.filter_map]
  rfl

/-- Different names stay different, so that a renamed symbol is found under its new name. -/
theorem find?_symbol (symbols : List Symbol) (name : String) :
    (symbols.map r.symbol).find? (·.name == r.map name) = (symbols.find? (·.name == name)).map r.symbol := by
  rw [List.find?_map]
  congr 1
  congr 1
  funext s
  have hmap : r.map s.name = r.map name ↔ s.name = name := ⟨r.injective, congrArg r.map⟩
  rw [Bool.eq_iff_iff]
  simpa [symbol] using hmap

theorem local?_table (t : SymbolTable) (name : String) :
    (r.table t).local? r.function (r.map name) = (t.local? r.function name).map r.symbol := by
  unfold SymbolTable.local?
  rw [members_table, members, if_pos rfl, find?_symbol]

theorem local?_table_of_ne (t : SymbolTable) {f : String} (hf : f ≠ r.function) (name : String) :
    (r.table t).local? f name = t.local? f name := by
  unfold SymbolTable.local?
  rw [members_table, members, if_neg hf]

theorem params_table (t : SymbolTable) (f : String) : (r.table t).params f = r.members f (t.params f) := by
  unfold SymbolTable.params
  rw [members_table]
  unfold members
  split
  · rw [List.filter_map]
    rfl
  · rfl

/-! ## Frames -/

theorem place_symbol : ∀ (symbols : List Symbol) (offset : Int),
    Frame.place offset (symbols.map r.symbol) = ((Frame.place offset symbols).1.map r.symbol, (Frame.place offset symbols).2)
  | [], _ => rfl
  | s :: symbols, offset => by
    have hwidth : Frame.slotWidth (r.symbol s) = Frame.slotWidth s := rfl
    have halign : Frame.slotAlign (r.symbol s) = Frame.slotAlign s := rfl
    rw [List.map_cons, Frame.place, Frame.place, hwidth, halign]
    dsimp only
    rw [place_symbol symbols]
    rfl

theorem place_members (f : String) (symbols : List Symbol) :
    Frame.place 0 (r.members f symbols) = (r.members f (Frame.place 0 symbols).1, (Frame.place 0 symbols).2) := by
  unfold members
  split
  · exact r.place_symbol symbols 0
  · rfl

theorem layout_table (t : SymbolTable) (f : String) :
    Frame.layout (r.table t) f = (r.table (Frame.layout t f).1, (Frame.layout t f).2) := by
  unfold Frame.layout
  rw [namespace?_table]
  cases t.namespace? f with
  | none => rfl
  | some symbols =>
    rw [Option.map_some]
    dsimp only
    rw [place_members, setNamespace_table]

end Renaming

end MiniC
