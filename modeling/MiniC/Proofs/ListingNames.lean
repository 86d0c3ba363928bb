import MiniC.Proofs.Definitions
import MiniC.Proofs.SessionLabels

/-!
# Names in listings

The listing of a program has a name for each definition of the program and for nothing else.

* `ItemsCode.names_eq`: the names of a listing are those of the definitions, in order.
* `ItemsCode.linked`: instructions refer to variables and functions of the table only.
* `ItemsCode.reserves`: under the name of a variable stand the zeros that it is given as storage.
* `compiled_names`: all of it for a source that is compiled.
-/

namespace MiniC

/-! ## Names of lines -/

/-- The names of lines. -/
def names (lines : List Line) : List String :=
  lines.filterMap fun
    | .name name => some name
    | _ => none

@[simp] theorem names_nil : names [] = [] := rfl

@[simp] theorem names_name (name : String) (lines : List Line) : names (.name name :: lines) = name :: names lines := rfl

@[simp] theorem names_instr (i : Instr) (lines : List Line) : names (.instr i :: lines) = names lines := rfl

@[simp] theorem names_directive (d : Directive) (lines : List Line) : names (.directive d :: lines) = names lines := rfl

@[simp] theorem names_label (n : Nat) (lines : List Line) : names (.label n :: lines) = names lines := rfl

@[simp] theorem names_append (lines lines' : List Line) : names (lines ++ lines') = names lines ++ names lines' :=
  List.filterMap_append

@[simp] theorem names_instrLines (code : List Instr) : names (instrLines code) = [] := by
  induction code with
  | nil => rfl
  | cons i code ih => exact ih

@[simp] theorem names_directives {α : Type} (d : α → Directive) (as : List α) :
    names (as.map fun a => .directive (d a)) = [] := by
  induction as with
  | nil => rfl
  | cons a as ih => exact ih

@[simp] theorem names_zeros (name : String) (s : Symbol) : names (Lower.zeros name s) = [name] := by
  have hzeros : ∀ n d, names (List.replicate n (.directive d)) = [] := by
    intro n d
    induction n with
    | zero => rfl
    | succ n ih => exact ih
  simp [Lower.zeros, hzeros]

@[simp] theorem names_switching (segment : Option Segment) (target : Segment) :
    names (Lower.switching segment target) = [] := by
  unfold Lower.switching
  split <;> rfl

@[simp] theorem names_stringLines (strings : List (Nat × List UInt8)) : names (stringLines strings) = [] := by
  unfold stringLines
  split
  · rfl
  · rw [names_directive]
    clear * -
    induction strings with
    | nil => rfl
    | cons literal strings ih =>
      rw [List.flatMap_cons, names_append, ih, names_label, names_directives]
      rfl

/-! ## Names of definitions -/

section Names

variable {t t' : SymbolTable} {f : String} {ret : Ty} {exit n n' target : Nat} {stmt : Stmt} {lines : List Line}
  {code : List Instr}

/-- What a piece of code is for defines nothing. -/
def Task.definitions : Task → List Global
  | value e => e.definitions
  | push args => exprDefinitions args

theorem Code.definitions {pool : RegisterPool} {pushed : Nat} {task : Task} {r? : Option Scratch}
    (h : Code t f pool pushed task r? code) : task.definitions = [] := by
  induction h with
  | number | string | array | scalar | addressOf | stepBefore | stepAfter | pushNone =>
    simp only [Task.definitions, Expr.definitions, exprDefinitions]
  | deref _ ih | negate _ ih | not _ ih | widen _ ih | scale _ ih | call _ _ _ ih =>
    simpa only [Task.definitions, Expr.definitions] using ih
  | assignName _ _ _ _ ih => simpa only [Task.definitions, Expr.definitions, List.nil_append] using ih
  | assignAt _ _ ih ih' | arithmetic _ _ _ ih ih' =>
    simp only [Task.definitions, Expr.definitions] at ih ih' ⊢
    rw [ih, ih', List.nil_append]
  | pushMore _ _ ih ih' =>
    simp only [Task.definitions, exprDefinitions] at ih ih' ⊢
    rw [ih, ih', List.nil_append]

theorem Code.definitions_value {pool : RegisterPool} {pushed : Nat} {e : Expr} {r? : Option Scratch}
    (h : Code t f pool pushed (.value e) r? code) : e.definitions = [] := h.definitions

theorem TestCode.definitions {cond : Expr} (h : TestCode t f target cond code) : cond.definitions = [] := by
  cases h with
  | comparison _ first second => rw [Expr.definitions, first.definitions_value, second.definitions_value, List.nil_append]
  | value value => exact value.definitions_value

theorem AsideCode.definitions {e : Option Expr} (h : AsideCode t f e code) : optionalDefinitions e = [] := by
  cases h with
  | none => rw [optionalDefinitions]
  | some value => rw [optionalDefinitions]; exact value.definitions_value

theorem GuardCode.definitions {e : Option Expr} (h : GuardCode t f target e code) : optionalDefinitions e = [] := by
  cases h with
  | none => rw [optionalDefinitions]
  | some test => rw [optionalDefinitions]; exact test.definitions

/-- The names of a statement are those of its definitions. -/
theorem StmtCode.names_eq (h : StmtCode t f ret exit n stmt lines n') : names lines = stmt.definitions.map Global.name := by
  induction h with
  | retNone | varDecl | blockNil => simp [Stmt.definitions, optionalDefinitions, stmtDefinitions]
  | retValue value => simp [Stmt.definitions, optionalDefinitions, value.definitions_value]
  | expr value => simp [Stmt.definitions, value.definitions_value]
  | globalDecl => simp [Stmt.definitions, Global.name]
  | blockCons _ _ ih ih' =>
    rw [Stmt.definitions] at ih' ⊢
    simp [stmtDefinitions, ih, ih']
  | ifThen test _ ih => simp [Stmt.definitions, Expr.definitions, optionalStmtDefinitions, test.definitions, ih]
  | ifElse test _ _ ih ih' => simp [Stmt.definitions, Expr.definitions, optionalStmtDefinitions, test.definitions, ih, ih']
  | whileLoop test _ ih => simp [Stmt.definitions, Expr.definitions, test.definitions, ih]
  | forLoop start test _ next ih =>
    simp [Stmt.definitions, Expr.definitions, start.definitions, test.definitions, next.definitions, ih]

theorem FunctionCode.names_eq {size : Int} {body : Stmt} (h : FunctionCode t f ret exit size n body lines n') :
    names lines = (Stmt.function f body).definitions.map Global.name := by
  cases h with
  | mk code => simp [headLines, Stmt.definitions, Global.name, code.names_eq]

/-- The names of items are those of their definitions, in order. -/
theorem ItemsCode.names_eq {segment segment' : Option Segment} {items : Program}
    (h : ItemsCode t segment n items lines t' segment' n') : names lines = items.definitions.map Global.name := by
  unfold Program.definitions
  induction h with
  | nil => simp [stmtDefinitions]
  | globalDecl _ _ ih => simp [stmtDefinitions, Stmt.definitions, Global.name, ih]
  | prototype _ ih => simp [stmtDefinitions, Stmt.definitions, ih]
  | function _ code _ ih => simp [stmtDefinitions, code.names_eq, ih]

end Names

/-! ## References -/

/-- The variable that a place in memory belongs to. -/
def Location.global? : Location → Option Global
  | global name => some (.variable name)
  | _ => none

/-- The variable or function that an instruction refers to by its name. -/
def Instr.refers? : Instr → Option Global
  | lea place _ | load _ place _ | store _ _ place | update _ _ _ place => place.global?
  | call name => some (.function name)
  | _ => none

/-- The name stands for a variable or a function in the table. -/
def SymbolTable.Holds (t : SymbolTable) : Global → Prop
  | .variable name => t.IsVariable name
  | .function name => t.IsFunction name

/-- What the instruction refers to is in the table. -/
def Instr.Linked (t : SymbolTable) (i : Instr) : Prop := ∀ g, i.refers? = some g → t.Holds g

/-- What the instructions among the lines refer to is in the table. -/
def Linked (t : SymbolTable) (lines : List Line) : Prop := ∀ i, .instr i ∈ lines → i.Linked t

section Linked

variable {t t' : SymbolTable} {f : String} {ret : Ty} {exit n n' target : Nat} {stmt : Stmt} {lines lines' : List Line}
  {code : List Instr}

theorem linked_of_none {i : Instr} (h : i.refers? = none) : i.Linked t := fun g hg => by rw [h] at hg; cases hg

theorem linked_append : Linked t (lines ++ lines') ↔ Linked t lines ∧ Linked t lines' := by
  unfold Linked
  simp only [List.mem_append]
  exact ⟨fun h => ⟨fun i hi => h i (.inl hi), fun i hi => h i (.inr hi)⟩, fun h i hi => hi.elim (h.1 i) (h.2 i)⟩

theorem linked_cons {line : Line} : Linked t (line :: lines) ↔ Linked t [line] ∧ Linked t lines :=
  show Linked t ([line] ++ lines) ↔ _ from linked_append

theorem linked_plain (h : ∀ i, .instr i ∉ lines) : Linked t lines := fun i hi => absurd hi (h i)

theorem linked_instrLines : Linked t (instrLines code) ↔ ∀ i ∈ code, i.Linked t := by
  simp [Linked, instrLines]

theorem linked_jump (k : Nat) : Linked t [.instr (.jump k)] := by
  simp [Linked, Instr.Linked, Instr.refers?]

theorem linked_label (k : Nat) : Linked t [.label k] := linked_plain (by simp)

/-- A place that a name denotes belongs to a variable. -/
theorem holds_of_place {name : String} {scope : Scope} {ty : Ty} {s : Symbol} {place : Location}
    (hnames : Denotes t f name scope ty s) (hplace : t.place? f name scope = some place) {g : Global}
    (hg : place.global? = some g) : t.Holds g := by
  cases scope with
  | global =>
    cases hplace
    cases hg
    exact ⟨s, hnames.found, hnames.value⟩
  | «local» | parameter =>
    obtain ⟨_, -, rfl⟩ := Option.map_eq_some_iff.1 hplace
    cases hg

/-- What a piece of code is for fits the table. -/
def Task.Fits (t : SymbolTable) (f : String) : Task → Prop
  | value e => Typed t f e
  | push args => ∀ arg ∈ args, Typed t f arg

theorem linked_of_computing {i : Instr} (h : i.computing = true) : i.Linked t := by
  apply linked_of_none
  cases i with
  | push | pop | lea | load | store | update | jump | jumpIf | call | ret => cases h
  | _ => rfl

theorem linked_of_mem_padded {pushed : Nat} {name : String} (h : t.IsFunction name) :
    ∀ i ∈ padded pushed name, i.Linked t := by
  have hcall : (Instr.call name).Linked t := by
    rintro _ ⟨⟩
    exact h
  unfold padded
  split
  · simp only [List.forall_mem_cons]
    exact ⟨linked_of_none rfl, hcall, linked_of_none rfl, by simp⟩
  · simpa using hcall

/-- The code of an expression that fits refers to variables and functions of the table. -/
theorem Code.linked {pool : RegisterPool} {pushed : Nat} {task : Task} {r? : Option Scratch}
    (h : Code t f pool pushed task r? code) (hfits : task.Fits t f) : ∀ i ∈ code, i.Linked t := by
  induction h with
  | number | string => simp [Instr.Linked, Instr.refers?, Location.global?]
  | array names _ placed | scalar names _ placed =>
    simp only [List.forall_mem_singleton]
    exact fun g hg => holds_of_place names placed hg
  | addressOf placed =>
    cases hfits with
    | addressOf names =>
      simp only [List.forall_mem_singleton]
      exact fun g hg => holds_of_place names placed hg
  | stepBefore names _ placed | stepAfter names _ placed =>
    simp only [List.forall_mem_cons]
    exact ⟨fun g hg => holds_of_place names placed hg, fun g hg => holds_of_place names placed hg, by simp⟩
  | deref _ ih =>
    cases hfits with
    | deref typed =>
      simp only [List.forall_mem_append]
      exact ⟨ih typed, by simp [Instr.Linked, Instr.refers?, Location.global?]⟩
  | negate _ ih =>
    cases hfits with
    | negate typed =>
      simp only [List.forall_mem_append]
      exact ⟨ih typed, by simp [Instr.Linked, Instr.refers?]⟩
  | not _ ih =>
    cases hfits with
    | not typed =>
      simp only [List.forall_mem_append]
      exact ⟨ih typed, by simp [Instr.Linked, Instr.refers?]⟩
  | widen _ ih =>
    cases hfits with
    | widen typed => exact ih typed
  | scale _ ih =>
    cases hfits with
    | scale typed =>
      simp only [List.forall_mem_append]
      exact ⟨ih typed, fun i hi => linked_of_computing (computing_scaling _ _ i hi)⟩
  | assignName names _ placed _ ih =>
    cases hfits with
    | assignName _ _ _ typed =>
      simp only [List.forall_mem_append, List.forall_mem_singleton]
      exact ⟨ih typed, fun g hg => holds_of_place names placed hg⟩
    | arithmetic operator => exact absurd rfl operator
  | assignAt _ _ ih ih' =>
    cases hfits with
    | assignAt pointer _ _ _ typed =>
      simp only [List.forall_mem_append]
      exact ⟨ih typed, ih' pointer, by simp [Instr.Linked, Instr.refers?, Location.global?]⟩
    | arithmetic operator => exact absurd rfl operator
  | arithmetic operator _ _ ih ih' =>
    cases hfits with
    | arithmetic _ typedLeft typedRight =>
      simp only [List.forall_mem_append]
      exact ⟨ih typedLeft, ih' typedRight, fun i hi => linked_of_computing (computing_instrs _ _ _ i hi)⟩
    | assignName | assignAt => exact absurd rfl operator
  | call _ _ _ ih =>
    cases hfits with
    | call found function _ _ _ typed =>
      simp only [List.forall_mem_append, List.forall_mem_map]
      exact ⟨fun _ _ => linked_of_none rfl, ih typed, fun _ _ => linked_of_none rfl,
        linked_of_mem_padded ⟨_, found, function⟩, fun _ _ => linked_of_none rfl,
        fun i hi => linked_of_computing (computing_taking _ _ i hi)⟩
  | pushNone => simp
  | pushMore _ _ ih ih' =>
    simp only [List.forall_mem_append, List.forall_mem_cons]
    exact ⟨ih (hfits _ List.mem_cons_self), linked_of_none rfl, ih' fun arg harg => hfits arg (List.mem_cons_of_mem _ harg)⟩

theorem TestCode.linked {cond : Expr} (h : TestCode t f target cond code) (hcond : Typed t f cond) :
    ∀ i ∈ code, i.Linked t := by
  cases h with
  | comparison operator first second =>
    cases hcond with
    | arithmetic _ typedLeft typedRight =>
      simp only [List.forall_mem_append]
      exact ⟨first.linked typedLeft, second.linked typedRight, by simp [Instr.Linked, Instr.refers?]⟩
    | assignName | assignAt => cases operator
  | value value =>
    simp only [List.forall_mem_append]
    exact ⟨value.linked hcond, by simp [Instr.Linked, Instr.refers?]⟩

theorem AsideCode.linked {e? : Option Expr} (h : AsideCode t f e? code) (htyped : ∀ e ∈ e?, Typed t f e) :
    ∀ i ∈ code, i.Linked t := by
  cases h with
  | none => simp
  | some value => exact value.linked (htyped _ rfl)

theorem GuardCode.linked {e? : Option Expr} (h : GuardCode t f target e? code)
    (htyped : ∀ e ∈ e?, Typed t f e) : ∀ i ∈ code, i.Linked t := by
  cases h with
  | none => simp
  | some test => exact test.linked (htyped _ rfl)

theorem linked_zeros (name : String) (s : Symbol) : Linked t (Lower.zeros name s) :=
  linked_plain (instr_not_mem_zeros name s)

theorem linked_switching (segment : Option Segment) (target : Segment) : Linked t (Lower.switching segment target) := by
  unfold Lower.switching
  split <;> exact linked_plain (by simp)

/-- The code of a statement that fits refers to variables and functions of the table. -/
theorem StmtCode.linked (h : StmtCode t f ret exit n stmt lines n') (hstmt : TypedStmt t f stmt) : Linked t lines := by
  induction h with
  | retNone => exact linked_jump exit
  | retValue value =>
    cases hstmt with
    | retValue _ _ typed =>
      rw [linked_instrLines]
      simp only [List.forall_mem_append]
      refine ⟨value.linked typed, ?_⟩
      unfold Instr.narrow
      cases ret.width <;> simp [Instr.Linked, Instr.refers?]
  | expr value =>
    refine linked_instrLines.2 ?_
    cases hstmt with
    | expr typed => exact value.linked typed
    | _ => cases value
  | varDecl | blockNil => exact linked_plain (by simp)
  | globalDecl => exact linked_cons.2 ⟨linked_plain (by simp), linked_append.2 ⟨linked_zeros _ _, linked_plain (by simp)⟩⟩
  | blockCons _ _ ih ih' =>
    cases hstmt with
    | block typed =>
      exact linked_append.2 ⟨ih (typed _ List.mem_cons_self),
        ih' (.block fun s hs => typed s (List.mem_cons_of_mem _ hs))⟩
  | ifThen test _ ih =>
    cases hstmt with
    | ifElse typed _ typedYes =>
      simp only [linked_append]
      exact ⟨linked_instrLines.2 (test.linked typed), ih typedYes, linked_label _⟩
    | expr typed => cases typed
  | ifElse test _ _ ih ih' =>
    cases hstmt with
    | ifElse typed _ typedYes typedNo =>
      simp only [linked_append]
      exact ⟨linked_instrLines.2 (test.linked typed), ih typedYes, linked_cons.2 ⟨linked_jump _, linked_label _⟩,
        ih' (typedNo _ rfl), linked_label _⟩
    | expr typed => cases typed
  | whileLoop test _ ih =>
    cases hstmt with
    | whileLoop typed _ typedBody =>
      rw [linked_cons]
      simp only [linked_append]
      exact ⟨linked_label _, linked_instrLines.2 (test.linked typed), ih typedBody,
        linked_cons.2 ⟨linked_jump _, linked_label _⟩⟩
    | expr typed => cases typed
  | forLoop start test _ next ih =>
    cases hstmt with
    | forLoop typedInit typed _ typedPost typedBody =>
      rw [linked_append, linked_cons]
      simp only [linked_append]
      exact ⟨linked_instrLines.2 (start.linked typedInit), linked_label _, linked_instrLines.2 (test.linked typed),
        ih typedBody, linked_instrLines.2 (next.linked typedPost), linked_cons.2 ⟨linked_jump _, linked_label _⟩⟩
    | expr typed => cases typed

theorem FunctionCode.linked {size : Int} {body : Stmt} (h : FunctionCode t f ret exit size n body lines n')
    (hbody : TypedStmt t f body) : Linked t lines := by
  cases h with
  | mk code =>
    simp only [linked_append, linked_instrLines, List.forall_mem_append]
    refine ⟨linked_plain (by simp [headLines]), ⟨?_, ?_⟩, code.linked hbody, linked_cons.2 ⟨linked_label _, ?_⟩⟩
    · unfold Lower.prologue
      split <;> simp [Instr.Linked, Instr.refers?]
    · unfold paramStores
      simp only [List.forall_mem_map]
      exact fun _ _ => linked_of_none rfl
    · exact linked_instrLines.2 (by simp [Lower.epilogue, Instr.Linked, Instr.refers?])

/-- Frames do not change what names stand for. -/
theorem holds_layout {g : Global} : (Frame.layout t f).1.Holds g ↔ t.Holds g := by
  unfold SymbolTable.Holds SymbolTable.IsVariable SymbolTable.IsFunction
  simp only [Frame.global?_layout]

/-- The code of items that fit refers to variables and functions of the table. -/
theorem ItemsCode.linked {segment segment' : Option Segment} {items : Program}
    (h : ItemsCode t segment n items lines t' segment' n') (hitems : ∀ item ∈ items, TypedItem t item) : Linked t lines := by
  induction h with
  | nil => exact linked_plain (by simp)
  | globalDecl _ _ ih =>
    simp only [linked_append]
    exact ⟨linked_switching _ _, linked_zeros _ _, ih fun item hi => hitems item (List.mem_cons_of_mem _ hi)⟩
  | prototype _ ih => exact ih fun item hi => hitems item (List.mem_cons_of_mem _ hi)
  | @function t _ _ _ _ _ _ f _ _ _ _ _ _ _ code _ ih =>
    have hback : ∀ {lines}, Linked (Frame.layout t f).1 lines → Linked t lines :=
      fun hl i hi g hg => holds_layout.1 (hl i hi g hg)
    cases hitems _ List.mem_cons_self with
    | function defined _ typed =>
      have hrest := ih fun item hi => (hitems item (List.mem_cons_of_mem _ hi)).later (t.later_layout f)
      simp only [linked_append]
      exact ⟨linked_switching _ _, hback (code.linked (typed.later (t.later_layout f) defined)), hback hrest⟩

end Linked

/-! ## Storage -/

/-- The bytes that a line puts into its section. -/
def Line.bytes? : Line → Option (List UInt8)
  | directive (.zero width) => some (List.replicate width.bytes 0)
  | directive (.byte value) => some [value]
  | _ => none

/-- The bytes that lines begin with, up to a line that is not data. -/
def dataBytes : List Line → List UInt8
  | [] => []
  | line :: lines =>
    match line.bytes? with
    | some bytes => bytes ++ dataBytes lines
    | none => []

/-- Bytes of an element of an array, or of the value of a variable. -/
def Symbol.elementSize (s : Symbol) : Nat := if s.isArray then s.ty.pointeeSize else s.ty.size

/-- The lines do not begin with data. -/
def NoData (lines : List Line) : Prop := ∀ line ∈ lines.head?, line.bytes? = none

/-- The variable has its zeros among the lines, and no other data follows them. -/
def Reserves (name : String) (s : Symbol) (lines : List Line) : Prop :=
  ∃ before after, lines = before ++ (Lower.zeros name s ++ after) ∧ NoData after

section Storage

variable {t t' : SymbolTable} {f name : String} {ret : Ty} {exit n n' : Nat} {stmt : Stmt} {s : Symbol}
  {lines lines' : List Line} {code : List Instr}

theorem noData_nil : NoData [] := by simp [NoData]

theorem noData_cons {line : Line} (h : line.bytes? = none) : NoData (line :: lines) := by simpa [NoData] using h

theorem NoData.append (h : NoData lines) (h' : NoData lines') : NoData (lines ++ lines') := by
  cases lines with
  | nil => exact h'
  | cons line lines => exact h

theorem noData_instrLines (code : List Instr) : NoData (instrLines code) := by
  cases code with
  | nil => exact noData_nil
  | cons i code => exact noData_cons rfl

theorem noData_switching (segment : Option Segment) (target : Segment) : NoData (Lower.switching segment target) := by
  unfold Lower.switching
  split
  · exact noData_nil
  · cases target <;> exact noData_cons rfl

theorem Reserves.before (h : Reserves name s lines) (more : List Line) : Reserves name s (more ++ lines) := by
  obtain ⟨before, after, rfl, hafter⟩ := h
  exact ⟨more ++ before, after, by rw [List.append_assoc], hafter⟩

theorem Reserves.after (h : Reserves name s lines) (hmore : NoData lines') : Reserves name s (lines ++ lines') := by
  obtain ⟨before, after, rfl, hafter⟩ := h
  exact ⟨before, after ++ lines', by simp only [List.append_assoc], hafter.append hmore⟩

/-- No statement begins with data. -/
theorem StmtCode.noData (h : StmtCode t f ret exit n stmt lines n') : NoData lines := by
  induction h with
  | retNone | globalDecl | whileLoop => exact noData_cons rfl
  | varDecl | blockNil => exact noData_nil
  | retValue | expr => exact noData_instrLines _
  | blockCons _ _ ih ih' => exact ih.append ih'
  | ifThen _ _ ih => exact (noData_instrLines _).append (ih.append (noData_cons rfl))
  | ifElse _ _ _ ih => exact (noData_instrLines _).append (ih.append (noData_cons rfl))
  | forLoop => exact (noData_instrLines _).append (noData_cons rfl)

/-- A variable that a statement declares has its zeros in the code. -/
theorem StmtCode.reserves (h : StmtCode t f ret exit n stmt lines n') (hname : .variable name ∈ stmt.definitions) :
    ∃ s, t.global? name = some s ∧ Reserves name s lines := by
  induction h with
  | retNone | varDecl | blockNil => simp [Stmt.definitions, optionalDefinitions, stmtDefinitions] at hname
  | retValue value => simp [Stmt.definitions, optionalDefinitions, value.definitions_value] at hname
  | expr value => simp [Stmt.definitions, value.definitions_value] at hname
  | @globalDecl n name' s found =>
    obtain rfl : name = name' := by simpa [Stmt.definitions] using hname
    exact ⟨s, found, [.directive .data], [.directive .text], rfl, noData_cons rfl⟩
  | blockCons _ others ih ih' =>
    simp only [Stmt.definitions, stmtDefinitions, List.mem_append] at hname ih'
    rcases hname with hname | hname
    · exact (ih hname).imp fun s hs => ⟨hs.1, hs.2.after others.noData⟩
    · exact (ih' hname).imp fun s hs => ⟨hs.1, hs.2.before _⟩
  | ifThen test _ ih =>
    simp only [Stmt.definitions, Expr.definitions, optionalStmtDefinitions, test.definitions, List.nil_append,
      List.append_nil] at hname
    exact (ih hname).imp fun s hs => ⟨hs.1, (hs.2.after (noData_cons rfl)).before _⟩
  | ifElse test _ _ ih ih' =>
    simp only [Stmt.definitions, Expr.definitions, optionalStmtDefinitions, test.definitions, List.nil_append,
      List.mem_append] at hname
    rcases hname with hname | hname
    · exact (ih hname).imp fun s hs => ⟨hs.1, (hs.2.after (noData_cons rfl)).before _⟩
    · exact (ih' hname).imp fun s hs => ⟨hs.1, (((hs.2.after (noData_cons rfl)).before _).before _).before _⟩
  | whileLoop test _ ih =>
    simp only [Stmt.definitions, Expr.definitions, test.definitions, List.nil_append] at hname
    exact (ih hname).imp fun s hs => ⟨hs.1, ((hs.2.after (noData_cons rfl)).before _).before [_]⟩
  | forLoop start test _ next ih =>
    simp only [Stmt.definitions, Expr.definitions, start.definitions, test.definitions, next.definitions,
      List.nil_append] at hname
    refine (ih hname).imp fun s hs => ⟨hs.1, ?_⟩
    exact (((hs.2.after ((noData_instrLines _).append (noData_cons rfl))).before _).before [_]).before _

theorem FunctionCode.reserves {size : Int} {body : Stmt} (h : FunctionCode t f ret exit size n body lines n')
    (hname : .variable name ∈ body.definitions) : ∃ s, t.global? name = some s ∧ Reserves name s lines := by
  cases h with
  | mk code => exact (code.reserves hname).imp fun s hs => ⟨hs.1, ((hs.2.after (noData_cons rfl)).before _).before _⟩

/-- No item begins with data. -/
theorem ItemsCode.noData {segment segment' : Option Segment} {items : Program}
    (h : ItemsCode t segment n items lines t' segment' n') : NoData lines := by
  induction h with
  | nil => exact noData_nil
  | globalDecl => exact (noData_switching _ _).append (noData_cons rfl)
  | prototype _ ih => exact ih
  | function _ code => cases code with | mk => exact (noData_switching _ _).append (noData_cons rfl)

/-- A variable that items declare has its zeros in the code. -/
theorem ItemsCode.reserves {segment segment' : Option Segment} {items : Program}
    (h : ItemsCode t segment n items lines t' segment' n') (hname : .variable name ∈ items.definitions) :
    ∃ s, t.global? name = some s ∧ Reserves name s lines := by
  unfold Program.definitions at hname
  induction h with
  | nil => simp [stmtDefinitions] at hname
  | @globalDecl _ _ _ _ _ _ name' s _ lines found rest ih =>
    rw [stmtDefinitions, Stmt.definitions, List.singleton_append, List.mem_cons] at hname
    rcases hname with hname | hname
    · cases hname
      exact ⟨s, found, _, lines, rfl, rest.noData⟩
    · exact (ih hname).imp fun s hs => ⟨hs.1, (hs.2.before _).before _⟩
  | prototype _ ih =>
    rw [stmtDefinitions, Stmt.definitions, List.nil_append] at hname
    exact ih hname
  | function _ code rest ih =>
    simp only [stmtDefinitions, Stmt.definitions, List.cons_append, List.mem_cons, reduceCtorEq, false_or,
      List.mem_append] at hname
    rcases hname with hname | hname
    · obtain ⟨s, hs, hreserves⟩ := code.reserves hname
      rw [Frame.global?_layout] at hs
      exact ⟨s, hs, (hreserves.after rest.noData).before _⟩
    · obtain ⟨s, hs, hreserves⟩ := ih hname
      rw [Frame.global?_layout] at hs
      exact ⟨s, hs, (hreserves.before _).before _⟩

theorem dataBytes_of_noData (h : NoData lines) : dataBytes lines = [] := by
  cases lines with
  | nil => rfl
  | cons line lines => rw [dataBytes, h line rfl]

theorem dataBytes_zeros (count : Nat) (width : Width) (h : NoData lines) :
    dataBytes (List.replicate count (.directive (.zero width)) ++ lines) = List.replicate (count * width.bytes) 0 := by
  induction count with
  | zero => simpa using dataBytes_of_noData h
  | succ count ih =>
    rw [List.replicate_succ, List.cons_append, dataBytes]
    simp only [Line.bytes?]
    rw [ih, List.replicate_append_replicate, Nat.succ_mul, Nat.add_comm]

theorem Ty.bytes_of_width {ty : Ty} (h : ty ≠ .void) : ty.width.bytes = ty.size ∧ 0 < ty.size := by
  rcases ty with (_ | _ | _ | _) | _
  · exact absurd rfl h
  all_goals exact ⟨rfl, Nat.succ_pos _⟩

/-- The type of the zeros of a variable. -/
theorem element_of_globalOk {next : Nat} (name : String) (hok : s.GlobalOk next) (hkind : s.kind ≠ .function) :
    ∃ ty : Ty, ty ≠ .void ∧ s.elementSize = ty.size ∧ Lower.zeros name s = [.directive (.globl name),
      .directive (.align ty.size), .name name] ++ List.replicate s.count.toNat (.directive (.zero ty.width)) := by
  unfold Lower.zeros Symbol.elementSize
  by_cases harray : s.isArray = true
  · obtain ⟨-, base, hbase, hty⟩ := hok.array (by simpa [Symbol.isArray] using harray)
    refine ⟨.plain base, by simpa using hbase, ?_⟩
    simp [harray, hty, Ty.valueAt, Ty.pointeeSize]
  · exact ⟨s.ty, hok.typed hkind, by simp [harray]⟩

/-- The storage of a variable is what its elements take. -/
theorem storage_eq {next : Nat} (hok : s.GlobalOk next) (hkind : s.kind ≠ .function)
    (hcount : s.kind = .variable → s.count = 1) : s.storage = s.count.toNat * s.elementSize := by
  unfold Symbol.storage Symbol.elementSize Symbol.isArray
  cases hk : s.kind with
  | function => exact absurd hk hkind
  | «variable» => simp [hcount hk]
  | array =>
    have hpos := (hok.array hk).1
    simp only [beq_self_eq_true, ↓reduceIte, Int.toNat_of_nonneg (Int.le_of_lt hpos)]
    exact Int.mul_comm _ _

/-- The name of a variable stands between an alignment to the size of its elements and as many zeros as its storage
takes. -/
theorem Reserves.storage {next : Nat} (h : Reserves name s lines) (hok : s.GlobalOk next) (hkind : s.kind ≠ .function)
    (hcount : s.kind = .variable → s.count = 1) :
    0 < s.elementSize ∧ ∃ before after, ∃ size : Nat,
      lines = before ++ .directive (.align s.elementSize) :: .name name :: after ∧ size = s.storage ∧
        dataBytes after = List.replicate size 0 := by
  obtain ⟨before, after, rfl, hafter⟩ := h
  obtain ⟨ty, hty, hsize, hzeros⟩ := element_of_globalOk name hok hkind
  obtain ⟨hbytes, hpos⟩ := Ty.bytes_of_width hty
  refine ⟨hsize ▸ hpos, before ++ [.directive (.globl name)], _, s.count.toNat * s.elementSize, ?_, ?_,
    hsize ▸ hbytes ▸ dataBytes_zeros s.count.toNat ty.width hafter⟩
  · rw [hzeros, hsize]
    simp only [List.append_assoc, List.cons_append, List.nil_append]
  · rw [storage_eq hok hkind hcount]
    push_cast
    rfl

end Storage

/-! ## Listings -/

/-- The names of a listing are those of the definitions of its program, and it refers to nothing else. -/
structure WellNamed (program : Program) (t : SymbolTable) (lines : List Line) : Prop where
  defined : names lines = program.definitions.map Global.name
  once : (names lines).Nodup
  memory : ∀ i name, .instr i ∈ lines → i.refers? = some (.variable name) → .variable name ∈ program.definitions
  calls : ∀ i name, .instr i ∈ lines → i.refers? = some (.function name) →
    .prototype name ∈ program ∨ ∃ body, .function name body ∈ program
  /-- The name of a variable stands between its alignment and zeros that take as many bytes as its storage. -/
  storage : ∀ name, .variable name ∈ program.definitions → ∃ s, t.global? name = some s ∧ 0 < s.elementSize ∧
    ∃ before after, ∃ size : Nat, lines = before ++ .directive (.align s.elementSize) :: .name name :: after ∧
      size = s.storage ∧ dataBytes after = List.replicate size 0

/-- The names of the functions that a program declares are those of its prototypes and definitions. -/
theorem declares?_cases {program : Program} {name : String} (h : name ∈ program.flatMap (·.declares?.toList)) :
    .prototype name ∈ program ∨ ∃ body, .function name body ∈ program := by
  obtain ⟨item, hitem, hname⟩ := List.mem_flatMap.1 h
  rw [Option.mem_toList] at hname
  cases item with
  | prototype name' =>
    cases hname
    exact .inl hitem
  | function name' body =>
    cases hname
    exact .inr ⟨body, hitem⟩
  | _ => cases hname

/-- **Names.** In the assembly of a source each definition of its program has a name of its own, and nothing else has one.
Instructions refer to variables that are defined there and to functions that the source declares, and each variable is
aligned and zero. -/
theorem compiled_names {source text : String} (h : compile source = .ok text) :
    ∃ program context listing context', parseSource source {} = .ok program context ∧
      generate program context = .ok listing context' ∧ text = listing.render ∧
      WellNamed program context.symbols listing.toList := by
  obtain ⟨program, context, listing, context', hparse, hgenerate, htext⟩ := compile_ok_iff.1 h
  refine ⟨program, context, listing, context', hparse, hgenerate, htext, ?_⟩
  have hread := ends_of_ok (parseSource_read source .empty) hparse
  have hdeclares := parseSource_declares hparse
  obtain ⟨-, lines, segment, strings, hcode, hlines⟩ := ends_of_ok (generate_emits hread.sound hread.typed) hgenerate
  have hlast : NoData (stringLines strings ++ [.directive .stackNote]) := by
    refine NoData.append ?_ (noData_cons rfl)
    unfold stringLines
    split
    · exact noData_nil
    · exact noData_cons rfl
  have hnames : names listing.toList = program.definitions.map Global.name := by
    rw [hlines, names_append, names_append, names_stringLines, hcode.names_eq]
    simp
  have hlinked : Linked context.symbols listing.toList := by
    rw [hlines]
    refine linked_append.2 ⟨hcode.linked hread.typed, linked_append.2 ⟨?_, linked_plain (by simp)⟩⟩
    exact linked_plain (stringLines_cases strings).2
  refine ⟨hnames, hnames ▸ hdeclares.once, fun i name hi hrefers => ?_, fun i name hi hrefers => ?_, fun name hname => ?_⟩
  · -- The table was empty at first, so that its variables are those of the program.
    refine (hdeclares.newVariables name (hlinked i hi _ hrefers)).resolve_left ?_
    rintro ⟨s, hs, -⟩
    cases hs
  · refine declares?_cases ((hdeclares.newFunctions name (hlinked i hi _ hrefers)).resolve_left ?_)
    rintro ⟨s, hs, -⟩
    cases hs
  · obtain ⟨s, hs, hreserves⟩ := hcode.reserves hname
    obtain ⟨s', hs', hkind⟩ := hdeclares.made name hname
    cases hs.symm.trans hs'
    rw [hlines]
    refine ⟨s, hs, (hreserves.after hlast).storage (hread.sound.globals name s hs) hkind fun hk => ?_⟩
    exact hdeclares.counted (fun _ _ h => by cases h) name s hs hk

/-- Variables at the outermost level and in a body, a prototype that is called, and a definition. -/
def nestedGlobals : String :=
  "global char c; func f(char p) -> int; func main() -> void \x7b while (c) \x7b global long t[3]; t[1] = f(c); \x7d \x7d"

theorem compiled_names_nested :
    ∃ text program context listing context', compile nestedGlobals = .ok text ∧
      parseSource nestedGlobals {} = .ok program context ∧ generate program context = .ok listing context' ∧
      text = listing.render ∧ WellNamed program context.symbols listing.toList ∧
      names listing.toList = ["c", "main", "t"] := by
  cases hcompile : compile nestedGlobals with
  | error fault =>
    have hok : (compile nestedGlobals).isOk = true := by decide +kernel
    rw [hcompile] at hok
    cases hok
  | ok text =>
    obtain ⟨program, context, listing, context', hparse, hgenerate, htext, hnamed⟩ := compiled_names hcompile
    have hdefinitions : (ended (parseSource nestedGlobals {})).any
        (fun read => read.1.definitions.map Global.name = ["c", "main", "t"]) = true := by
      decide +kernel
    rw [hparse] at hdefinitions
    refine ⟨text, program, context, listing, context', rfl, hparse, hgenerate, htext, hnamed, ?_⟩
    rw [hnamed.defined]
    simpa [ended] using hdefinitions

end MiniC
