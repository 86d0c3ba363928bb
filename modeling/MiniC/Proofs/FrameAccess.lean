import MiniC.Proofs.Effects
import MiniC.Proofs.FrameSlots
import MiniC.Proofs.FunctionCorrect
import MiniC.Proofs.LabelUse
import MiniC.Proofs.RegisterNeed

/-!
# Accesses to the frame

Loads, stores and updates reach into a frame only through the frame pointer and an offset. Those of a function are, one
by one, the parameters that its prologue stores and the variables that its expressions name (`Expr.accessed`), each at the
place of its slot and no wider than it.

* `Instr.effects_of_frameAccess?`: what such an instruction does to memory.
* `Code.accesses`, `StmtCode.accesses`: the accesses of code are those of the names in the tree.
* `accesses_inside_slots`: for every function of an accepted program, whatever its parameters, locals and arrays.
-/

namespace MiniC

/-! ## Accesses through the frame pointer -/

/-- An offset from the frame pointer, and how much is read or written there. -/
abbrev FrameAccess : Type := Int × Width

/-- An access of the given width, if the place is in the frame. -/
def Location.frameAccess? (width : Width) : Location → Option FrameAccess
  | .frame offset => some (offset, width)
  | _ => none

/-- The access that an instruction makes through the frame pointer; taking the address of a place is none. -/
def Instr.frameAccess? : Instr → Option FrameAccess
  | .load width place _ | .store width _ place | .update _ width _ place => place.frameAccess? width
  | _ => none

/-- The memory that an effect touches: where it starts, and how many bytes. -/
def Effect.touches? {Ω : Type} : Effect Ω → Option (Word × Nat)
  | .read a n | .write a n _ => some (a, n)
  | .call .. => none

/-- An access through the frame pointer touches the bytes that it says and no others. -/
theorem Instr.effects_of_frameAccess? {Ω : Type} {link : Linkage} {s : Machine Ω} {i : Instr} {offset : Int} {width : Width}
    (h : i.frameAccess? = some (offset, width)) :
    ∀ effect ∈ i.effects link s, effect.touches? = some (s.regs .rbp + BitVec.ofInt 64 offset, width.bytes) := by
  cases i with
  | load w place r | store w r place | update direction w value place =>
    cases place with
    | frame o =>
      cases h
      simp [Instr.effects, Effect.touches?, Location.address]
    | _ => cases h
  | _ => cases h

/-- The access that a line makes. -/
def Line.frameAccess? : Line → Option FrameAccess
  | .instr i => i.frameAccess?
  | _ => none

/-- The accesses that lines make through the frame pointer, in order. -/
def frameAccesses (lines : List Line) : List FrameAccess := lines.filterMap Line.frameAccess?

@[simp] theorem frameAccesses_nil : frameAccesses [] = [] := rfl

@[simp] theorem frameAccesses_append (lines lines' : List Line) :
    frameAccesses (lines ++ lines') = frameAccesses lines ++ frameAccesses lines' := List.filterMap_append

@[simp] theorem frameAccesses_label (n : Nat) (lines : List Line) :
    frameAccesses (.label n :: lines) = frameAccesses lines := rfl

@[simp] theorem frameAccesses_jump (n : Nat) (lines : List Line) :
    frameAccesses (.instr (.jump n) :: lines) = frameAccesses lines := rfl

@[simp] theorem frameAccesses_instrLines (code : List Instr) :
    frameAccesses (instrLines code) = code.filterMap Instr.frameAccess? := by
  unfold frameAccesses instrLines
  rw [List.filterMap_map]
  rfl

/-- Instructions that do not reach into the frame. -/
def Instr.Offside (i : Instr) : Prop := i.frameAccess? = none

theorem accesses_of_offside {code : List Instr} (h : ∀ i ∈ code, i.Offside) : code.filterMap Instr.frameAccess? = [] :=
  List.filterMap_eq_nil_iff.2 h

theorem accesses_of_computing {code : List Instr} (h : ∀ i ∈ code, i.computing = true) :
    code.filterMap Instr.frameAccess? = [] := by
  refine accesses_of_offside fun i hi => ?_
  have hcomputing := h i hi
  cases i with
  | push | pop | lea | load | store | update | jump | jumpIf | call | ret => cases hcomputing
  | _ => rfl

theorem offside_padded (pushed : Nat) (name : String) : ∀ i ∈ padded pushed name, i.Offside := by
  unfold padded
  split <;> simp [Instr.Offside, Instr.frameAccess?]

theorem offside_map {α : Type} {g : α → Instr} (h : ∀ a, (g a).Offside) (as : List α) : ∀ i ∈ as.map g, i.Offside :=
  List.forall_mem_map.2 fun a _ => h a

theorem offside_push (r : Reg) : (Instr.push r).Offside := rfl

theorem offside_pop (r : Reg) : (Instr.pop r).Offside := rfl

/-! ## Names whose slots are accessed -/

mutual

/-- The names whose values the code of an expression reads or writes in place, in the order of its code. -/
def Expr.accessed : Expr → List (String × Scope)
  | .ident _ name scope => [(name, scope)]
  | .unary _ op operand =>
    match op with
    | .addressOf => []
    -- The value is loaded, and it is updated in place.
    | .step .. => operand.accessed ++ operand.accessed
    | .deref | .negate | .not => operand.accessed
  | .binary _ .assign left right => right.accessed ++ left.accessed
  | .binary _ _ left right => left.accessed ++ right.accessed
  | .convert _ _ operand => operand.accessed
  | .call _ _ args => allAccessed args
  | .number .. | .string .. | .ifElse .. | .whileLoop .. | .forLoop .. => []

def allAccessed : List Expr → List (String × Scope)
  | [] => []
  | arg :: args => arg.accessed ++ allAccessed args

end

/-- The names that a piece of code is for. -/
def Task.accessed : Task → List (String × Scope)
  | value e => e.accessed
  | push args => allAccessed args

/-- The variable of `f` that a name stands for; a global has no slot, and of an array only the address is taken. -/
def SymbolTable.slot? (t : SymbolTable) (f : String) : String × Scope → Option Symbol
  | (_, .global) => none
  | (name, _) => (t.local? f name).filter (!·.isArray)

/-- The variables of `f` that `names` stand for. -/
def SymbolTable.slots (t : SymbolTable) (f : String) (names : List (String × Scope)) : List Symbol :=
  names.filterMap (t.slot? f)

/-- The access to the whole of a variable. -/
def Symbol.access (s : Symbol) : FrameAccess := (s.position.getD 0, s.ty.width)

section Slots

variable {t : SymbolTable} {f : String}

@[simp] theorem SymbolTable.slots_nil : t.slots f [] = [] := rfl

theorem SymbolTable.slots_singleton (name : String × Scope) : t.slots f [name] = (t.slot? f name).toList := by
  unfold slots
  cases h : t.slot? f name <;> simp [h]

@[simp] theorem SymbolTable.slots_append (names names' : List (String × Scope)) :
    t.slots f (names ++ names') = t.slots f names ++ t.slots f names' := List.filterMap_append

theorem SymbolTable.mem_slots {s : Symbol} {names : List (String × Scope)} (h : s ∈ t.slots f names) :
    s ∈ t.members f ∧ s.isArray = false := by
  obtain ⟨⟨name, scope⟩, -, hslot⟩ := List.mem_filterMap.1 h
  cases scope with
  | global => cases hslot
  | «local» | parameter =>
    obtain ⟨hfound, harray⟩ := Option.filter_eq_some_iff.1 hslot
    exact ⟨SymbolTable.mem_of_local? hfound, by simpa using harray⟩

variable {name : String} {scope : Scope} {ty : Ty} {s : Symbol} {place : Location}

/-- A variable is accessed where its slot is, with the width of its type. -/
theorem access_of_scalar (names : Denotes t f name scope ty s) (scalar : s.kind = .variable)
    (placed : t.place? f name scope = some place) :
    (place.frameAccess? ty.width).toList = (t.slots f [(name, scope)]).map Symbol.access := by
  have harray : s.isArray = false := by rw [Symbol.isArray, scalar]; rfl
  have hfound := names.found
  cases scope with
  | global =>
    cases placed
    rfl
  | «local» | parameter =>
    simp only [SymbolTable.scoped?] at hfound
    simp only [SymbolTable.place?, hfound, Option.bind_some, Option.map_eq_some_iff] at placed
    obtain ⟨p, hp, rfl⟩ := placed
    simp [SymbolTable.slots_singleton, SymbolTable.slot?, hfound, Option.filter_some, harray, Symbol.access, hp, names.ty,
      Location.frameAccess?]

/-- Of an array only the address is taken. -/
theorem slots_of_array (names : Denotes t f name scope ty s) (array : s.kind = .array) : t.slots f [(name, scope)] = [] := by
  have harray : s.isArray = true := by rw [Symbol.isArray, array]; rfl
  have hfound := names.found
  cases scope with
  | global => rfl
  | «local» | parameter =>
    simp only [SymbolTable.scoped?] at hfound
    simp [SymbolTable.slots_singleton, SymbolTable.slot?, hfound, harray]

end Slots

/-! ## Expressions -/

section Expressions

variable {t : SymbolTable} {f : String} {pool : RegisterPool} {pushed target : Nat} {task : Task} {r? : Option Scratch}
  {code : List Instr}

theorem filterMap_singleton (i : Instr) : [i].filterMap Instr.frameAccess? = i.frameAccess?.toList := by
  cases h : i.frameAccess? <;> simp [h]

/-- **Expressions.** The code of an expression accesses the variables that the expression names, in their order. -/
theorem Code.accesses (h : Code t f pool pushed task r? code) :
    code.filterMap Instr.frameAccess? = (t.slots f task.accessed).map Symbol.access := by
  induction h with
  | number | string | pushNone => rfl
  | addressOf => rfl
  | array names array =>
    rw [Task.accessed, Expr.accessed, slots_of_array names array]
    rfl
  | scalar names scalar placed =>
    rw [filterMap_singleton]
    exact access_of_scalar names scalar placed
  | stepBefore names scalar placed | stepAfter names scalar placed =>
    have hplace := access_of_scalar names scalar placed
    rw [← List.singleton_append, List.filterMap_append, filterMap_singleton, filterMap_singleton]
    simp only [Task.accessed, Expr.accessed, SymbolTable.slots_append, List.map_append, ← hplace]
    rfl
  | deref _ ih | negate _ ih | not _ ih =>
    rw [List.filterMap_append, ih]
    exact List.append_nil _
  | widen _ ih => exact ih
  | scale _ ih =>
    rw [List.filterMap_append, accesses_of_computing (computing_scaling _ _), List.append_nil]
    exact ih
  | assignName names scalar placed _ ih =>
    rw [List.filterMap_append, filterMap_singleton, ih]
    simp only [Task.accessed, Expr.accessed, SymbolTable.slots_append, List.map_append]
    exact congrArg _ (access_of_scalar names scalar placed)
  | assignAt _ _ ih ih' =>
    rw [List.filterMap_append, List.filterMap_append, ih, ih']
    simp only [Task.accessed, Expr.accessed, SymbolTable.slots_append, List.map_append]
    exact congrArg _ (List.append_nil _)
  | arithmetic operator _ _ ih ih' =>
    rw [List.filterMap_append, List.filterMap_append, accesses_of_computing (computing_instrs _ _ _), List.append_nil, ih,
      ih', ← List.map_append, ← SymbolTable.slots_append]
    simp only [Task.accessed]
    rw [Expr.accessed]
    exact operator
  | call _ _ _ ih =>
    simp only [List.filterMap_append, accesses_of_offside (offside_map (fun _ => offside_push _) _),
      accesses_of_offside (offside_map offside_pop _), accesses_of_offside (offside_padded _ _),
      accesses_of_offside (offside_map (fun _ => offside_pop _) _), accesses_of_computing (computing_taking _ _),
      List.nil_append, List.append_nil]
    exact ih
  | pushMore _ _ ih ih' =>
    rw [List.filterMap_append, ih, List.filterMap_cons_none rfl, ih', ← List.map_append, ← SymbolTable.slots_append]
    rfl

/-- Control structures have no code of their own as expressions. -/
theorem Code.evaluated {e : Expr} (h : Code t f pool pushed (.value e) r? code) : e.evaluated = [e] := by
  cases h <;> rfl

theorem TestCode.accesses {cond : Expr} (h : TestCode t f target cond code) :
    code.filterMap Instr.frameAccess? = (t.slots f cond.accessed).map Symbol.access := by
  cases h with
  | @comparison info op c left right l r _ _ operator first second =>
    rw [List.filterMap_append, List.filterMap_append, first.accesses, second.accesses]
    have hop : op ≠ .assign := by
      rintro rfl
      cases operator
    rw [Expr.accessed, SymbolTable.slots_append, List.map_append]
    · exact congrArg _ (List.append_nil _)
    · exact hop
  | value value =>
    rw [List.filterMap_append, value.accesses]
    exact List.append_nil _

theorem AsideCode.accesses {e : Option Expr} (h : AsideCode t f e code) :
    code.filterMap Instr.frameAccess? = (t.slots f (e.toList.flatMap Expr.accessed)).map Symbol.access := by
  cases h with
  | none => rfl
  | some value => simpa [Task.accessed] using value.accesses

theorem GuardCode.accesses {e : Option Expr} (h : GuardCode t f target e code) :
    code.filterMap Instr.frameAccess? = (t.slots f (e.toList.flatMap Expr.accessed)).map Symbol.access := by
  cases h with
  | none => rfl
  | some test => simpa using test.accesses

end Expressions

/-! ## Statements -/

/-- The names that the expressions of a statement access. -/
def Stmt.accessed (stmt : Stmt) : List (String × Scope) := stmt.evaluated.flatMap Expr.accessed

section Statements

variable {t : SymbolTable} {f : String} {ret : Ty} {exit n n' : Nat} {stmt : Stmt} {lines : List Line}

/-- **Statements.** The code of a statement accesses the variables that its expressions name, in their order. -/
theorem StmtCode.accesses (h : StmtCode t f ret exit n stmt lines n') :
    frameAccesses (textLines true lines) = (t.slots f stmt.accessed).map Symbol.access := by
  have hnarrow : ∀ r : Reg, (Instr.narrow ret.width r .rax).frameAccess? = none := by
    intro r
    unfold Instr.narrow
    cases ret.width <;> rfl
  induction h with
  | retNone | varDecl | blockNil => rfl
  | retValue value =>
    rw [(textLines_of_plain switches?_instrLines true).1]
    simp only [↓reduceIte, frameAccesses_instrLines, List.filterMap_append, value.accesses,
      List.filterMap_cons_none (hnarrow _)]
    simp [Stmt.accessed, Stmt.evaluated, Task.accessed, Instr.frameAccess?]
  | expr value =>
    rw [(textLines_of_plain switches?_instrLines true).1, if_pos rfl, frameAccesses_instrLines, value.accesses,
      Stmt.accessed, Stmt.evaluated, value.evaluated, List.flatMap_singleton]
    rfl
  | globalDecl =>
    rw [textLines_globalDecl]
    rfl
  | blockCons first others ih ih' =>
    rw [first.text_append, frameAccesses_append, ih, ih']
    simp [Stmt.accessed, Stmt.evaluated, allEvaluated]
  | ifThen test body ih =>
    rw [textLines_instrLines, body.text_append]
    simp [test.accesses, ih, Stmt.accessed, Stmt.evaluated, Expr.evaluated, optionalEvaluated]
  | ifElse test body other ih ih' =>
    rw [textLines_ifElse body.ends_in_text other.ends_in_text]
    simp [test.accesses, ih, ih', Stmt.accessed, Stmt.evaluated, Expr.evaluated, optionalEvaluated]
  | whileLoop test rounds ih =>
    rw [textLines_label, textLines_instrLines, rounds.text_append]
    simp [test.accesses, ih, Stmt.accessed, Stmt.evaluated, Expr.evaluated]
  | forLoop start test rounds next ih =>
    rw [textLines_instrLines, textLines_label, textLines_instrLines, rounds.text_append, textLines_instrLines]
    simp [start.accesses, test.accesses, next.accesses, ih, Stmt.accessed, Stmt.evaluated, Expr.evaluated]

end Statements

/-! ## Functions -/

/-- The parameters are stored one by one, each from the register that passes it. -/
theorem accesses_paramStores {params : List Symbol} {regs : List Reg} (h : params.length ≤ regs.length) :
    (paramStores params regs).filterMap Instr.frameAccess? = params.map Symbol.access := by
  unfold paramStores
  rw [List.filterMap_map]
  show (params.zip regs).filterMap (some ∘ Symbol.access ∘ Prod.fst) = _
  rw [List.filterMap_eq_map, ← List.map_map, List.map_fst_zip h]

/-- The access stays in the slot of `s`. -/
def FrameAccess.Within (access : FrameAccess) (s : Symbol) : Prop :=
  ∃ p, s.position = some p ∧ p ≤ access.1 ∧ access.1 + access.2.bytes ≤ p + Frame.slotWidth s

theorem within_of_member {size p : Int} {s : Symbol} (hs : Frame.SlotAt size s p) (hok : s.MemberOk)
    (harray : s.isArray = false) : s.access.Within s := by
  have hnot : s.kind ≠ .array := by simpa [Symbol.isArray] using harray
  have hstored := stored_le_slotWidth (SymbolKind.eq_variable hok.kind hnot) hok.typed
  have haccess : s.access = (p, s.ty.width) := by rw [Symbol.access, hs.position, Option.getD_some]
  refine ⟨p, hs.position, Int.le_of_eq (congrArg Prod.fst haccess).symm, ?_⟩
  rw [haccess, Ty.bytes_width]
  omega

/-- The lines of a function in the text section of a listing, from its name up to its return. -/
def ownLines (f : String) (text : List Line) : Option (List Line) :=
  (linesFrom (.name f) text).map (·.takeWhile (· ≠ .instr .ret))

theorem takeWhile_inner {lines : List Line} (h : ∀ line ∈ lines, line ≠ .instr .ret) (more : List Line) :
    (lines ++ .instr .ret :: more).takeWhile (· ≠ .instr .ret) = lines := by
  rw [List.takeWhile_append_of_pos (by simpa using h)]
  simp

/-- The lines of a function of a listing: its prologue, its body and its epilogue. -/
theorem ownLines_of_placed {t : SymbolTable} {f : String} {ret : Ty} {exit n n' : Nat} {body : Stmt} {size : Int}
    {params : List Symbol} {text lines after : List Line} (h : StmtCode t f ret exit n body lines n')
    (hentry : linesFrom (.name f) text = some (.name f ::
      (instrLines (Lower.prologue size ++ paramStores params Reg.arguments) ++
        (textLines true lines ++ .label exit :: (instrLines Lower.epilogue ++ after))))) :
    ownLines f text = some (.name f :: (instrLines (Lower.prologue size) ++
      (instrLines (paramStores params Reg.arguments) ++ (textLines true lines ++
        .label exit :: instrLines [.pop .r13, .pop .r12, .mov .rbp .rsp, .pop .rbp])))) := by
  unfold ownLines
  rw [hentry, Option.map_some]
  refine congrArg some (Eq.trans (congrArg _ ?_) (takeWhile_inner ?_ after))
  · simp [instrLines, Lower.epilogue]
  have hprologue : ∀ i ∈ Lower.prologue size, i ≠ .ret := by
    unfold Lower.prologue
    split <;> simp
  have hstores : ∀ i ∈ paramStores params Reg.arguments, i ≠ .ret := by
    simp only [paramStores, List.mem_map]
    rintro _ ⟨_, -, rfl⟩
    simp
  simp only [List.forall_mem_cons, List.forall_mem_append]
  refine ⟨by simp, fun line hline => (inner_instrLines hprologue line hline).1,
    fun line hline => (inner_instrLines hstores line hline).1,
    fun line hline => (h.inner line ((sublist_textLines true lines).subset hline)).1, by simp, ?_⟩
  exact fun line hline => (inner_instrLines (by simp) line hline).1

/-- **Slots and accesses.** Take a function of an accepted program. Each of its parameters and locals has a slot of its own
in its frame, aligned and large enough. When the program is lowered, the function sets up a frame of that size, and what it
then accesses through the frame pointer is, one by one, the parameters and the variables that its body names, each within
its slot. -/
theorem accesses_inside_slots {earlier : List String} {source f : String} {program before rest : Program}
    {context : Context} {body : Stmt} (hparse : parseSource source (buildSources earlier {}).2 = .ok program context)
    (hprogram : program = before ++ .function f body :: rest) :
    let laid := Frame.layout (Frame.layouts context.symbols (before.filterMap Parse.defines?)) f
    let accessed := laid.1.params f ++ laid.1.slots f body.accessed
    (laid.1.members f).map Symbol.core = (context.symbols.members f).map Symbol.core ∧
      Frame.WellLaid laid.1 f laid.2 ∧ (∀ s ∈ accessed, s ∈ laid.1.members f ∧ s.access.Within s) ∧
      ∀ listing context', generate program context = .ok listing context' → ∃ lines,
        ownLines f (textLines true listing.toList) = some (.name f :: (instrLines (Lower.prologue laid.2) ++ lines)) ∧
        frameAccesses lines = accessed.map Symbol.access := by
  intro laid accessed
  subst hprogram
  have hread := ends_of_ok (parseSource_read source (sound_session earlier)) hparse
  have hsound := hread.sound.layouts (before.filterMap Parse.defines?)
  have hlaid : Frame.WellLaid laid.1 f laid.2 := Frame.wellLaid_layout hsound f
  have hmember : ∀ s ∈ accessed, s ∈ laid.1.members f ∧ s.isArray = false := by
    intro s hs
    rcases List.mem_append.1 hs with hparam | hslot
    · obtain ⟨hin, hscope⟩ := List.mem_filter.1 hparam
      have hkind := (Frame.memberOk_of_layout hsound f hin).param (eq_of_beq hscope)
      exact ⟨hin, by rw [Symbol.isArray, hkind]; rfl⟩
    · exact SymbolTable.mem_slots hslot
  refine ⟨?_, hlaid, fun s hs => ?_, fun listing context' hgenerate => ?_⟩
  · rw [Frame.core_members_layout, Frame.core_members_layouts]
  · obtain ⟨hin, harray⟩ := hmember s hs
    obtain ⟨p, hp⟩ := hlaid.slots s hin
    exact ⟨hin, within_of_member hp (Frame.memberOk_of_layout hsound f hin) harray⟩
  · obtain ⟨-, new, segment, strings, hitems, hlisting⟩ := ends_of_ok (generate_emits hread.sound hread.typed) hgenerate
    obtain ⟨symbol, exit, n, n', lines, exits, after, -, hlines, rfl, hentry, -, -⟩ :=
      function_placed (stringLines strings ++ [.directive .stackNote]) hread.sound hread.once hitems
    rw [← hlisting] at hentry
    refine ⟨_, ownLines_of_placed hlines hentry, ?_⟩
    have hlimit : (laid.1.params f).length ≤ Reg.arguments.length := (hsound.layout f).params_le f
    simp only [frameAccesses_append, frameAccesses_label, frameAccesses_instrLines, hlines.accesses, accessed,
      List.map_append]
    rw [accesses_paramStores hlimit]
    exact congrArg _ (List.append_nil _)

/-! ### Slots of all widths -/

/-- Its function `f` has slots of four and eight bytes and an array between them. -/
def mixedSource : String :=
  "func g() -> void \x7b \x7d " ++
  "func f(int a, char c) -> long \x7b var int v[5]; var long w; w = v[a++] + c; return w; \x7d"

/-- The accesses of `f`: two parameters are stored, `a` is read and stepped, `c` is read, `w` is written and read. -/
def mixedAccesses : List FrameAccess :=
  [(-4, .long), (-8, .byte), (-4, .long), (-4, .long), (-8, .byte), (-40, .quad), (-40, .quad)]

/-- The function `f` has a frame of forty-eight bytes, and these accesses. -/
def accessesMixed : EStateM.Result Fault Context Program → Bool
  | .ok [.function first body, .function name body'] context =>
    let laid := Frame.layout (Frame.layouts context.symbols [first]) "f"
    name == "f" && laid.2 == 48 && (ended (generate [.function first body, .function "f" body'] context)).isSome &&
      (laid.1.params "f" ++ laid.1.slots "f" body'.accessed).map Symbol.access == mixedAccesses
  | _ => false

theorem accessesMixed_cases {result : EStateM.Result Fault Context Program} (h : accessesMixed result = true) :
    ∃ first body body' context listing context', result = .ok [.function first body, .function "f" body'] context ∧
      generate [.function first body, .function "f" body'] context = .ok listing context' ∧
      let laid := Frame.layout (Frame.layouts context.symbols [first]) "f"
      laid.2 = 48 ∧ (laid.1.params "f" ++ laid.1.slots "f" body'.accessed).map Symbol.access = mixedAccesses := by
  unfold accessesMixed at h
  split at h
  · next first body name body' context =>
    simp only [Bool.and_eq_true, beq_iff_eq] at h
    obtain ⟨⟨⟨rfl, hsize⟩, hgenerate⟩, haccesses⟩ := h
    obtain ⟨listing, context', hlisting⟩ := exists_of_ended hgenerate
    exact ⟨first, body, body', context, listing, context', rfl, hlisting, hsize, haccesses⟩
  · cases h

theorem accesses_inside_slots_mixed :
    ∃ program context first listing context' lines,
      parseSource mixedSource (buildSources [] {}).2 = .ok program context ∧
      generate program context = .ok listing context' ∧
      Frame.WellLaid (Frame.layout (Frame.layouts context.symbols [first]) "f").1 "f" 48 ∧
      ownLines "f" (textLines true listing.toList) = some (.name "f" :: (instrLines (Lower.prologue 48) ++ lines)) ∧
      frameAccesses lines = mixedAccesses := by
  have hchecked : accessesMixed (parseSource mixedSource (buildSources [] {}).2) = true := by decide +kernel
  obtain ⟨first, body, body', context, listing, context', hparse, hlisting, hsize, haccesses⟩ :=
    accessesMixed_cases hchecked
  obtain ⟨-, hlaid, -, hcode⟩ :=
    accesses_inside_slots hparse (show _ = [Stmt.function first body] ++ .function "f" body' :: [] from rfl)
  obtain ⟨lines, hlines, hall⟩ := hcode listing context' hlisting
  simp only [List.filterMap_cons, List.filterMap_nil, Parse.defines?, hsize, haccesses] at hlaid hlines hall
  exact ⟨_, context, first, listing, context', lines, hparse, hlisting, hlaid, hlines, hall⟩

end MiniC
