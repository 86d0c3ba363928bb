import MiniC.Compile
import MiniC.Proofs.FrameLayout
import MiniC.Proofs.ParseProgram
import MiniC.Proofs.StatementCode

/-!
# The code of functions and programs

`FunctionCode` and `ItemsCode` say which lines functions and programs are lowered to. The symbol table changes on the way
only in the positions that frames give to parameters and locals.

* `generate_emits`: a program that fits a sound context is lowered to such lines, unless the registers run out. Either
  way the context stays sound.
* `sound_buildSources`: so the context of a session is sound at every moment, whatever became of its sources.
* `accepted_program_typed`: every program that is accepted in a session fits the table at its end.
* `accepted_program_lowered`: the only fault that lowering can meet in a program that was accepted is that the registers
  run out.
-/

namespace MiniC

/-! ## Shapes of code -/

/-- Instructions that store the arguments in `regs` into the slots of the parameters. -/
def paramStores (params : List Symbol) (regs : List Reg) : List Instr :=
  (params.zip regs).map fun (param, r) => .store param.ty.width r (.frame (param.position.getD 0))

/-- The head of a function. -/
def headLines (f : String) : List Line := [.directive (.globl f), .directive (.function f), .name f]

/-- `lines` is what the function `f` is lowered to, with a frame of `size` bytes laid out in `t`. -/
inductive FunctionCode (t : SymbolTable) (f : String) (ret : Ty) (exit : Nat) (size : Int) :
    Nat → Stmt → List Line → Nat → Prop where
  | mk {n n' : Nat} {body : Stmt} {lines : List Line} (code : StmtCode t f ret exit n body lines n') :
      FunctionCode t f ret exit size n body
        (headLines f ++ (instrLines (Lower.prologue size ++ paramStores (t.params f) Reg.arguments) ++
          (lines ++ (.label exit :: instrLines Lower.epilogue)))) n'

/-- `lines` is what the items of a program are lowered to. The table, the segment and the next label go from those before
the items to those after them. -/
inductive ItemsCode : SymbolTable → Option Segment → Nat → Program → List Line → SymbolTable → Option Segment → Nat →
    Prop where
  | nil {t : SymbolTable} {segment : Option Segment} {n : Nat} : ItemsCode t segment n [] [] t segment n
  | globalDecl {t t' : SymbolTable} {segment segment' : Option Segment} {n n' : Nat} {name : String} {s : Symbol}
      {items : Program} {lines : List Line} (found : t.global? name = some s)
      (rest : ItemsCode t (some .data) n items lines t' segment' n') :
      ItemsCode t segment n (.globalDecl name :: items)
        (Lower.switching segment .data ++ (Lower.zeros name s ++ lines)) t' segment' n'
  | prototype {t t' : SymbolTable} {segment segment' : Option Segment} {n n' : Nat} {name : String} {items : Program}
      {lines : List Line} (rest : ItemsCode t segment n items lines t' segment' n') :
      ItemsCode t segment n (.prototype name :: items) lines t' segment' n'
  | function {t t' : SymbolTable} {segment segment' : Option Segment} {n n₁ n' : Nat} {f : String} {ret : Ty}
      {exit : Nat} {body : Stmt} {items : Program} {lines lines' : List Line}
      (found : ∃ s, t.global? f = some s ∧ s.ty = ret ∧ s.label = some exit)
      (code : FunctionCode (Frame.layout t f).1 f ret exit (Frame.layout t f).2 n body lines n₁)
      (rest : ItemsCode (Frame.layout t f).1 (some .text) n₁ items lines' t' segment' n') :
      ItemsCode t segment n (.function f body :: items) (Lower.switching segment .text ++ (lines ++ lines')) t' segment' n'

/-- String literals under their labels, in a section of their own. -/
def stringLines (strings : List (Nat × List UInt8)) : List Line :=
  if strings.isEmpty then []
  else .directive .rodata :: strings.flatMap fun (label, bytes) =>
    .label label :: (bytes ++ [0]).map fun byte => .directive (.byte byte)

namespace Lower

variable {t : SymbolTable} {f : String} {st st₁ : State} {lines : List Line} {E : Fault → State → Prop}

/-! ## Functions -/

theorem storeParams_emits {pool : RegisterPool} {pushed : Nat} : ∀ {params : List Symbol} {regs : List Reg}
    {code : List Instr} {st₁ : State}, params.length ≤ regs.length → Emits st code pool pushed st₁ →
    Ends (storeParams params regs) st₁ (fun _ st' => Emits st (code ++ paramStores params regs) pool pushed st') E
  | [], _, code, st₁, _, h => by
    unfold storeParams paramStores
    rw [List.zip_nil_left, List.map_nil, List.append_nil]
    exact h
  | _ :: _, [], _, _, hle, _ => absurd hle (by simp)
  | param :: params, r :: regs, code, st₁, hle, h => by
    unfold storeParams
    refine ends_bind (emit_emits h) fun _ st₂ h₂ => ?_
    have hrest := storeParams_emits (Nat.le_of_succ_le_succ hle) h₂
    rw [List.append_assoc] at hrest
    exact hrest

/-- What holds between two items. -/
structure Between (t : SymbolTable) (segment : Option Segment) (n : Nat) (lines : List Line) (st : State) : Prop where
  sound : st.context.Sound
  symbols : st.context.symbols = t
  labels : st.context.nextLabel = n
  segment : st.segment = segment
  function : st.function = none
  lines : st.lines.toList = lines

/-- The registers ran out, and the context is sound. -/
def GaveUp (fault : Fault) (st : State) : Prop := (∃ line, fault = .outOfRegisters line) ∧ st.context.Sound

theorem openFunction_body {segment : Option Segment} {n : Nat} (h : Between t segment n lines st) :
    Ends (openFunction f (Frame.layout t f).1) st
      (fun _ st' => Body (Frame.layout t f).1 f n (lines ++ (switching segment .text ++ headLines f)) n st') E := by
  unfold openFunction
  refine ends_bind (P := fun _ st' => st' = { st with
    context := { st.context with symbols := (Frame.layout t f).1 }, function := some f, pool := {}, pushed := 0 })
    (ends_modify rfl) ?_
  rintro _ _ rfl
  refine ends_bind (enter_ends .text _) ?_
  rintro _ _ rfl
  refine ends_mono (appendAll_ends (headLines f) _) ?_ fun _ _ h => h
  rintro _ _ rfl
  refine ⟨rfl, h.labels, Nat.le_refl _, rfl, rfl, fun name s hs => ?_, by simp [h.lines, h.segment], rfl, rfl⟩
  obtain ⟨p, hp, -⟩ := Frame.fits_of_layout (fun symbols hn => h.sound.namespaces f symbols (h.symbols ▸ hn))
    (SymbolTable.mem_of_local? hs)
  exact ⟨-p, hp⟩

/-- **Functions.** A function that fits is lowered to its lines, unless the registers run out. -/
theorem functionCode_emits {segment : Option Segment} {n : Nat} {body : Stmt} (h : Between t segment n lines st)
    (hdefined : t.IsDefined f) (hfunction : t.IsFunction f) (hbody : TypedStmt t f body) :
    Ends (functionCode f (stmt body)) st (fun _ st' => ∃ ret exit new n',
      (∃ s, t.global? f = some s ∧ s.ty = ret ∧ s.label = some exit) ∧
      FunctionCode (Frame.layout t f).1 f ret exit (Frame.layout t f).2 n body new n' ∧
      Between (Frame.layout t f).1 (some .text) n' (lines ++ (switching segment .text ++ new)) st') GaveUp := by
  have hsound : Context.Sound { st.context with symbols := (Frame.layout t f).1 } := h.symbols ▸ h.sound.layout f
  obtain ⟨s, hs, hkind⟩ := hfunction
  obtain ⟨exit, hlabel⟩ := (h.sound.globals f s (h.symbols ▸ hs)).labelled hkind
  have hfound : ∃ s', t.global? f = some s' ∧ s'.ty = s.ty ∧ s'.label = some exit := ⟨s, hs, rfl, hlabel⟩
  have hfound' : ∃ s', (Frame.layout t f).1.global? f = some s' ∧ s'.ty = s.ty ∧ s'.label = some exit := by
    rw [Frame.global?_layout]
    exact hfound
  unfold functionCode
  refine ends_bind (epilogueOf_ends hfound (by rw [h.symbols])) ?_
  rintro _ _ ⟨rfl, rfl⟩
  refine ends_get_bind ?_
  rw [h.symbols]
  have hopen : Ends (openFunction f (Frame.layout t f).1) st _ GaveUp := openFunction_body h
  have hlater := t.later_layout f
  generalize Frame.layout t f = laid at *
  obtain ⟨t₁, size⟩ := laid
  refine ends_bind hopen fun _ st₁ h₁ => ?_
  refine ends_bind (emitAll_emits _ (.refl st₁)) fun _ st₂ h₂ => ?_
  have hparams : (t₁.params f).length ≤ Reg.arguments.length := hsound.params_le f
  refine ends_bind (storeParams_emits hparams h₂) fun _ st₃ h₃ => ?_
  have h₃ := h₁.after (h₁.pool ▸ h₁.pushed ▸ h₃)
  refine ends_bind (ends_mono (stmt_emits hfound' (hbody.later hlater hdefined) h₃) (fun _ _ h => h) fun _ _ hout => ?_) ?_
  · obtain ⟨hfault, hsymbols, hlabels⟩ := hout
    exact ⟨hfault, hsound.of_symbols hsymbols (h.labels ▸ hlabels)⟩
  rintro _ st₄ ⟨new, n', hcode, h₄⟩
  refine ends_bind (h₄.append _) fun _ st₅ h₅ => ?_
  refine ends_bind (emitAll_emits _ (.refl st₅)) fun _ st₆ h₆ => ?_
  have h₆ := h₅.after (h₅.pool ▸ h₅.pushed ▸ h₆)
  refine ⟨s.ty, exit, _, n', hfound, .mk hcode, ?_, h₆.symbols, h₆.labels, h₆.segment, rfl, ?_⟩
  · exact hsound.of_symbols h₆.symbols (by rw [h₆.labels, h.labels]; exact h₆.above)
  · rw [h₆.lines]
    simp [instrLines]

/-! ## Programs -/

/-- **Items.** The items of a program that fits are lowered to their lines, unless the registers run out. -/
theorem stmtList_emits : ∀ {items : Program} {t : SymbolTable} {segment : Option Segment} {n : Nat} {lines : List Line}
    {st : State}, (∀ item ∈ items, TypedItem t item) → Between t segment n lines st →
    Ends (stmtList items) st (fun _ st' => ∃ new t' segment' n', ItemsCode t segment n items new t' segment' n' ∧
      Between t' segment' n' (lines ++ new) st') GaveUp
  | [], t, segment, n, lines, st, _, h => by
    rw [stmtList]
    exact ⟨[], t, segment, n, .nil, by rw [List.append_nil]; exact h⟩
  | item :: items, t, segment, n, lines, st, hitems, h => by
    rw [stmtList]
    have hrest : ∀ item ∈ items, TypedItem t item := fun i hi => hitems i (List.mem_cons_of_mem _ hi)
    cases hitems item List.mem_cons_self with
    | @globalDecl name s found value =>
      rw [stmt]
      refine ends_bind (P := fun _ st' => Between t (some .data) n (lines ++ (switching segment .data ++ zeros name s)) st')
        (ends_mono (globalCode_ends (h.symbols ▸ found)) ?_ fun _ _ h => h) fun _ st₁ h₁ => ?_
      · rintro _ _ rfl
        rw [h.function]
        exact ⟨h.sound, h.symbols, h.labels, rfl, rfl, by simp [h.lines, h.segment]⟩
      refine ends_mono (stmtList_emits hrest h₁) ?_ fun _ _ h => h
      rintro _ st' ⟨new, t', segment', n', hcode, h'⟩
      refine ⟨_, t', segment', n', .globalDecl found hcode, ?_⟩
      simpa only [List.append_assoc] using h'
    | @prototype name function =>
      rw [stmt]
      refine ends_mono (stmtList_emits hrest h) ?_ fun _ _ h => h
      rintro _ st' ⟨new, t', segment', n', hcode, h'⟩
      exact ⟨_, t', segment', n', .prototype hcode, h'⟩
    | @function f body defined function typed =>
      rw [stmt]
      refine ends_bind (functionCode_emits h defined function typed) ?_
      rintro _ st₁ ⟨ret, exit, new, n₁, hfound, hcode, h₁⟩
      refine ends_mono (stmtList_emits (fun i hi => (hrest i hi).later (t.later_layout f)) h₁) ?_ fun _ _ h => h
      rintro _ st' ⟨new', t', segment', n', hcode', h'⟩
      refine ⟨_, t', segment', n', .function hfound hcode hcode', ?_⟩
      simpa only [List.append_assoc] using h'

theorem stringData_ends (label : Nat) (bytes : List UInt8) (st : State) :
    Ends (stringData label bytes) st (fun _ st' => st' = { st with
      lines := st.lines ++ (.label label :: (bytes ++ [0]).map fun byte => Line.directive (.byte byte)).toArray }) E := by
  have hbytes : ∀ bytes : List UInt8, (bytes.forM fun byte => directive (.byte byte) : LowerM Unit) =
      (bytes.map fun byte => Line.directive (.byte byte)).forM append := by
    intro bytes
    induction bytes with
    | nil => rfl
    | cons byte bytes ih => exact congrArg (directive (.byte byte) >>= fun _ => ·) ih
  unfold stringData
  rw [hbytes]
  exact appendAll_ends (.label label :: _) st

theorem strings_ends (st : State) :
    Ends strings st (fun _ st' => st' = { st with lines := st.lines ++ (stringLines st.strings.toList).toArray }) E := by
  have hall : ∀ (literals : List (Nat × List UInt8)) (st : State),
      Ends (literals.forM fun (label, bytes) => stringData label bytes) st (fun _ st' => st' = { st with
        lines := st.lines ++ (literals.flatMap fun (label, bytes) =>
          .label label :: (bytes ++ [0]).map fun byte => Line.directive (.byte byte)).toArray }) E := by
    intro literals
    induction literals with
    | nil => exact fun st => ends_pure (by simp)
    | cons literal literals ih =>
      intro st
      refine ends_bind (stringData_ends literal.1 literal.2 st) ?_
      rintro _ _ rfl
      refine ends_mono (ih _) ?_ fun _ _ h => h
      rintro _ _ rfl
      simp
  unfold strings stringLines
  refine ends_get_bind ?_
  by_cases hempty : st.strings.toList.isEmpty = true
  · simp only [hempty, Bool.not_true, Bool.false_eq_true, ↓reduceIte]
    exact ends_pure (by simp)
  · simp only [hempty, Bool.not_false, ↓reduceIte, Bool.false_eq_true]
    refine ends_bind (P := fun _ st' => st' = { st with lines := st.lines.push (.directive .rodata) }) (ends_modify rfl) ?_
    rintro _ _ rfl
    refine ends_mono (hall _ _) ?_ fun _ _ h => h
    rintro _ _ rfl
    simp

/-- The listing of a program: its items, its string literals and a closing note. -/
theorem program_emits {program : Program} {c : Context} (hc : c.Sound) (htyped : ∀ item ∈ program, TypedItem c.symbols item) :
    Ends (Lower.program program) { context := c } (fun _ st' => st'.context.Sound ∧ ∃ new segment strings,
      ItemsCode c.symbols none c.nextLabel program new st'.context.symbols segment st'.context.nextLabel ∧
      st'.lines.toList = new ++ (stringLines strings ++ [.directive .stackNote])) GaveUp := by
  unfold Lower.program
  refine ends_bind (stmtList_emits htyped ⟨hc, rfl, rfl, rfl, rfl, rfl⟩) ?_
  rintro _ st₁ ⟨new, t', segment', n', hcode, h₁⟩
  refine ends_bind (strings_ends st₁) ?_
  rintro _ _ rfl
  refine ⟨h₁.sound, new, segment', st₁.strings.toList, ?_, by simp [h₁.lines]⟩
  rw [h₁.symbols, h₁.labels]
  exact hcode

end Lower

/-- **Lowering.** A program that fits a sound context is lowered to its lines, unless the registers run out. -/
theorem generate_emits {program : Program} {c : Context} (hc : c.Sound) (htyped : ∀ item ∈ program, TypedItem c.symbols item) :
    Ends (generate program) c (fun listing c' => c'.Sound ∧ ∃ new segment strings,
      ItemsCode c.symbols none c.nextLabel program new c'.symbols segment c'.nextLabel ∧
      listing.toList = new ++ (stringLines strings ++ [.directive .stackNote]))
      (fun fault c' => (∃ line, fault = .outOfRegisters line) ∧ c'.Sound) := by
  have h := Lower.program_emits hc htyped
  unfold Ends generate
  unfold Ends at h
  cases hres : Lower.program program { context := c } <;> rw [hres] at h <;> exact h

/-! ## Single sources -/

/-- The assembly of a source is the text of the listing of its program. -/
theorem compile_ok_iff {source text : String} : compile source = .ok text ↔ ∃ program c listing c',
    parseSource source {} = .ok program c ∧ generate program c = .ok listing c' ∧ text = listing.render := by
  constructor
  · intro h
    unfold compile at h
    split at h
    · rename_i hrun
      obtain ⟨program, c, hparse, hgenerate⟩ := bind_eq_ok.1 hrun
      exact ⟨program, c, _, _, hparse, hgenerate, (Except.ok.inj h).symm⟩
    · cases h
  · rintro ⟨program, c, listing, c', hparse, hgenerate, rfl⟩
    have hrun := bind_eq_ok.2 ⟨program, c, hparse, hgenerate⟩
    unfold compile
    rw [hrun]

/-! ## Sessions -/

theorem sound_buildSource (source : String) {c : Context} (hc : c.Sound) : (buildSource source c).2.Sound := by
  have hparse := parseSource_read source hc
  unfold buildSource
  cases hp : parseSource source c with
  | error fault c' => exact ends_of_error hparse hp
  | ok program c' =>
    have hread := ends_of_ok hparse hp
    have hgen := generate_emits hread.sound hread.typed
    cases hg : generate program c' with
    | error fault c'' => simpa [hg] using (ends_of_error hgen hg).2
    | ok listing c'' => simpa [hg] using (ends_of_ok hgen hg).1

theorem sound_buildSources : ∀ (sources : List String) {c : Context}, c.Sound → (buildSources sources c).2.Sound
  | [], _, hc => hc
  | source :: sources, _, hc => sound_buildSources sources (sound_buildSource source hc)

/-- The context that sources leave is sound. -/
theorem sound_session (sources : List String) : (buildSources sources {}).2.Sound := sound_buildSources sources .empty

/-- **Accepted programs are well typed.** Whatever came before it in the session, every item of a program that is
accepted fits the table at its end. -/
theorem accepted_program_typed {earlier : List String} {source : String} {program : Program} {context : Context}
    (h : parseSource source (buildSources earlier {}).2 = .ok program context) :
    ∀ item ∈ program, TypedItem context.symbols item :=
  (ends_of_ok (parseSource_read source (sound_session earlier)) h).typed

/-- A program that calls a function which a rejected source has left in the context. -/
theorem accepted_program_typed_after_rejected :
    ∃ program context, parseSource
      "global int g[4]; func sum(int n) -> int \x7b var int i; for (i = 0; i < n; i++) g[i & 3] = f(i); return g[0] + n; \x7d"
      (buildSources ["func f(int a) -> int \x7b return b; \x7d"] {}).2 = .ok program context ∧
      ∀ item ∈ program, TypedItem context.symbols item := by
  refine Exists.imp (fun program => Exists.imp fun context h => ⟨h, accepted_program_typed h⟩) (exists_of_ended ?_)
  decide +kernel

end MiniC
