import MiniC.Proofs.ExpressionCorrect
import MiniC.Proofs.ProgramCode

/-!
# Expressions of accepted programs

Every expression that stands somewhere in the body of a function of an accepted program is one that fits, so the code that
lowering emits for it is correct, whatever is live and wherever the machine is (`emitted_expression_runs`).

The bytes of the frame and of the global variables belong to the program. The bytes below the stack pointer belong to the
code; how many it needs is known from the expression and from what calls need.
-/

namespace MiniC

/-! ## Expressions in a body -/

/-- Whether an expression is a control structure. -/
def Expr.isControl : Expr → Bool
  | .ifElse .. | .whileLoop .. | .forLoop .. => true
  | _ => false

/-- `e` is an expression or a part of it, and no control structure. -/
inductive Expr.Part (e : Expr) : Expr → Prop where
  | self (plain : e.isControl = false) : Part e e
  | operand {info : Info} {op : UnaryOp} {operand : Expr} (part : Part e operand) : Part e (.unary info op operand)
  | left {info : Info} {op : BinaryOp} {left right : Expr} (part : Part e left) : Part e (.binary info op left right)
  | right {info : Info} {op : BinaryOp} {left right : Expr} (part : Part e right) : Part e (.binary info op left right)
  | converted {info : Info} {change : Change} {operand : Expr} (part : Part e operand) :
      Part e (.convert info change operand)
  | argument {info : Info} {name : String} {args : List Expr} {arg : Expr} (mem : arg ∈ args) (part : Part e arg) :
      Part e (.call info name args)

/-- `e` stands somewhere in a statement. -/
inductive Stmt.Contains (e : Expr) : Stmt → Prop where
  | ret {value : Expr} (part : e.Part value) : Contains e (.ret (some value))
  | expr {value : Expr} (part : e.Part value) : Contains e (.expr value)
  | block {stmts : List Stmt} {stmt : Stmt} (mem : stmt ∈ stmts) (inside : Contains e stmt) : Contains e (.block stmts)
  | ifCond {info : Info} {cond : Expr} {yes : Stmt} {no : Option Stmt} (part : e.Part cond) :
      Contains e (.expr (.ifElse info cond yes no))
  | ifYes {info : Info} {cond : Expr} {yes : Stmt} {no : Option Stmt} (inside : Contains e yes) :
      Contains e (.expr (.ifElse info cond yes no))
  | ifNo {info : Info} {cond : Expr} {yes no : Stmt} (inside : Contains e no) :
      Contains e (.expr (.ifElse info cond yes (some no)))
  | whileCond {info : Info} {cond : Expr} {body : Stmt} (part : e.Part cond) :
      Contains e (.expr (.whileLoop info cond body))
  | whileBody {info : Info} {cond : Expr} {body : Stmt} (inside : Contains e body) :
      Contains e (.expr (.whileLoop info cond body))
  | forInit {info : Info} {init : Expr} {cond post : Option Expr} {body : Stmt} (part : e.Part init) :
      Contains e (.expr (.forLoop info (some init) cond post body))
  | forCond {info : Info} {cond : Expr} {init post : Option Expr} {body : Stmt} (part : e.Part cond) :
      Contains e (.expr (.forLoop info init (some cond) post body))
  | forPost {info : Info} {post : Expr} {init cond : Option Expr} {body : Stmt} (part : e.Part post) :
      Contains e (.expr (.forLoop info init cond (some post) body))
  | forBody {info : Info} {init cond post : Option Expr} {body : Stmt} (inside : Contains e body) :
      Contains e (.expr (.forLoop info init cond post body))

section Parts

variable {t : SymbolTable} {f : String} {e : Expr}

theorem Typed.operand {info : Info} {op : UnaryOp} {operand : Expr} (h : Typed t f (.unary info op operand)) :
    Typed t f operand := by
  cases h with
  | addressOf names | step names => exact .ident names
  | deref typed | negate typed | not typed => exact typed

theorem Typed.left {info : Info} {op : BinaryOp} {left right : Expr} (h : Typed t f (.binary info op left right)) :
    Typed t f left := by
  cases h with
  | assignName names => exact .ident names
  | assignAt pointer pointee nonvoid => exact .deref pointer pointee nonvoid
  | arithmetic _ typedLeft => exact typedLeft

theorem Typed.right {info : Info} {op : BinaryOp} {left right : Expr} (h : Typed t f (.binary info op left right)) :
    Typed t f right := by
  cases h with
  | assignName _ _ _ typed => exact typed
  | assignAt _ _ _ _ typed => exact typed
  | arithmetic _ _ typedRight => exact typedRight

/-- Every part of an expression that fits is an expression that fits, the target of an assignment too. -/
theorem Typed.part {e' : Expr} (hpart : e.Part e') : Typed t f e' → Typed t f e := by
  induction hpart with
  | self => exact id
  | operand _ ih => exact fun h => ih h.operand
  | left _ ih => exact fun h => ih h.left
  | right _ ih => exact fun h => ih h.right
  | converted _ ih =>
    intro h
    cases h with
    | widen typed | scale typed => exact ih typed
  | argument mem _ ih =>
    intro h
    cases h with
    | call _ _ _ _ _ typed => exact ih (typed _ mem)

/-- No control structure is a part of itself. -/
theorem Expr.Part.not_control {e' : Expr} (hpart : e.Part e') : e'.isControl = false := by
  cases hpart with
  | self plain => exact plain
  | _ => rfl

theorem TypedStmt.contained {s : Stmt} (hin : s.Contains e) : TypedStmt t f s → Typed t f e := by
  induction hin with
  | ret part =>
    intro h
    cases h with
    | retValue _ _ typed => exact typed.part part
  | expr part =>
    intro h
    cases h with
    | expr typed => exact typed.part part
    | _ => cases part.not_control
  | block mem _ ih =>
    intro h
    cases h with
    | block typed => exact ih (typed _ mem)
  | ifCond part =>
    intro h
    cases h with
    | expr typed => cases typed
    | ifElse typed => exact typed.part part
  | ifYes _ ih =>
    intro h
    cases h with
    | expr typed => cases typed
    | ifElse _ _ typedYes => exact ih typedYes
  | ifNo _ ih =>
    intro h
    cases h with
    | expr typed => cases typed
    | ifElse _ _ _ typedNo => exact ih (typedNo _ rfl)
  | whileCond part =>
    intro h
    cases h with
    | expr typed => cases typed
    | whileLoop typed => exact typed.part part
  | whileBody _ ih =>
    intro h
    cases h with
    | expr typed => cases typed
    | whileLoop _ _ typedBody => exact ih typedBody
  | forInit part =>
    intro h
    cases h with
    | expr typed => cases typed
    | forLoop typedInit => exact (typedInit _ rfl).part part
  | forCond part =>
    intro h
    cases h with
    | expr typed => cases typed
    | forLoop _ typed => exact (typed _ rfl).part part
  | forPost part =>
    intro h
    cases h with
    | expr typed => cases typed
    | forLoop _ _ _ typedPost => exact (typedPost _ rfl).part part
  | forBody _ ih =>
    intro h
    cases h with
    | expr typed => cases typed
    | forLoop _ _ _ _ typedBody => exact ih typedBody

end Parts

/-! ## Places of variables -/

section Places

variable {Ω : Type} {w : World Ω}

theorem stored_le_slotWidth {s : Symbol} (hs : s.kind = .variable) (hvoid : s.ty ≠ .void) :
    (s.ty.stored : Int) ≤ Frame.slotWidth s := by
  have harray : s.isArray = false := by rw [Symbol.isArray, hs]; rfl
  have hsize : (s.ty.stored : Int) ≤ if 4 < s.ty.size then 8 else 4 := by
    rcases hty : s.ty with (_ | _ | _ | _) | base
    · exact absurd hty hvoid
    · decide
    · decide
    · decide
    · exact Int.le_refl 8
  rw [Frame.slotWidth, harray]
  exact hsize

/-- The slot of a variable lies in the frame. -/
theorem clear_of_fits {size p : Int} {n : Nat} (hframe : ∀ a, Below w.frame size.toNat a → w.reserved a = false)
    (hlow : (n : Int) ≤ p) (hhigh : p ≤ size) : w.Clear (w.frame + BitVec.ofInt 64 (-p)) n := by
  intro i hi
  refine hframe _ ?_
  obtain ⟨k, rfl⟩ := Int.eq_ofNat_of_zero_le (show 0 ≤ p by omega)
  have hoffset : w.frame - 1 - (w.frame + BitVec.ofInt 64 (-k) + BitVec.ofNat 64 i) = BitVec.ofNat 64 (k - 1 - i) := by
    rw [BitVec.ofInt_neg, BitVec.ofInt_natCast]
    bv_omega
  unfold Below
  rw [hoffset, BitVec.toNat_ofNat]
  have hmod := Nat.mod_le (k - 1 - i) (2 ^ 64)
  omega

/-- A parameter or local of the function has a slot in its frame. -/
theorem local_fits {c : Context} (hc : c.Sound) {laid : List String}
    (hsymbols : w.symbols = (Frame.layout (Frame.layouts c.symbols laid) w.function).1) {name : String} {s : Symbol}
    (hs : w.symbols.local? w.function name = some s) :
    Frame.Fits 0 (Frame.layout (Frame.layouts c.symbols laid) w.function).2 s := by
  have hmember := SymbolTable.mem_of_local? hs
  rw [hsymbols] at hmember
  exact Frame.fits_of_layout ((hc.layouts laid).namespaces w.function) hmember

/-- The variables that a body can name are clear when its frame and the global variables are. -/
theorem variablesClear {c : Context} (hc : c.Sound) {laid : List String}
    (hsymbols : w.symbols = (Frame.layout (Frame.layouts c.symbols laid) w.function).1)
    (hframe : ∀ a, Below w.frame (Frame.layout (Frame.layouts c.symbols laid) w.function).2.toNat a → w.reserved a = false)
    (hglobals : ∀ name g, c.symbols.global? name = some g → g.kind = .variable → w.Clear (w.globalAt name) g.ty.stored) :
    w.VariablesClear := by
  intro name scope ty s a hnames hkind ha
  have hlocal : w.symbols.local? w.function name = some s →
      ((w.symbols.local? w.function name).bind (·.position)).map (fun p => w.frame + BitVec.ofInt 64 p) = some a →
      w.Clear a ty.stored := by
    intro hs ha
    obtain ⟨p, hp, hlow, hhigh⟩ := local_fits hc hsymbols hs
    rw [hs, Option.bind_some, hp] at ha
    cases ha
    have hwidth := stored_le_slotWidth hkind hnames.nonvoid
    rw [hnames.ty]
    exact clear_of_fits hframe (by omega) hhigh
  cases scope with
  | global =>
    cases ha
    rw [hnames.ty]
    refine hglobals name s ?_ hkind
    rw [← Frame.global?_layouts laid, ← Frame.global?_layout _ w.function name, ← hsymbols]
    exact hnames.found
  | «local» => exact hlocal hnames.found ha
  | parameter => exact hlocal hnames.found ha

end Places

/-! ## The state in which a body is lowered -/

/-- In the body of a function of an accepted program, whose frame has been laid out, every place is known, and the body
fits the table. -/
theorem function_ready {earlier : List String} {source : String} {program : Program} {context : Context} {f : String}
    {body : Stmt} (hparse : parseSource source (buildSources earlier {}).2 = .ok program context)
    (hf : .function f body ∈ program) (laid : List String) {st : Lower.State}
    (hst : st.context.symbols = (Frame.layout (Frame.layouts context.symbols laid) f).1) (hfunction : st.function = some f) :
    Lower.Ready st.context.symbols f st ∧ TypedStmt st.context.symbols f body := by
  have hread := ends_of_ok (parseSource_read source (sound_session earlier)) hparse
  have hlater : context.symbols.Later st.context.symbols := by
    rw [hst]
    exact (context.symbols.later_layouts laid).trans (SymbolTable.later_layout _ f)
  refine ⟨⟨rfl, hfunction, fun name symbol hs => ?_⟩, ?_⟩
  · have hmember := SymbolTable.mem_of_local? hs
    rw [hst] at hmember
    obtain ⟨p, hp, -⟩ := Frame.fits_of_layout ((hread.sound.layouts laid).namespaces f) hmember
    exact ⟨-p, hp⟩
  · cases hread.typed _ hf with
    | function defined _ typed => exact typed.later hlater defined

/-- The state before the first statement of `f`, when no other frame has been laid out. -/
def bodyState (context : Context) (f : String) : Lower.State :=
  { context := { context with symbols := (Frame.layout context.symbols f).1 }, function := some f }

/-! ## The theorem -/

section Emitted

variable {Ω : Type} {earlier : List String} {source : String} {program : Program} {context : Context} {f : String}
  {body : Stmt} {e : Expr} {w : World Ω} {callees : Callees Ω} {callRoom : Nat}
  {st st' : Lower.State} {r? : Option Scratch} {s : Machine Ω} {v : Word} {σ' : Store Ω}

/-- **Expressions of accepted programs.** Take an expression in a body, the frame of its function laid out, any registers
live and any values pushed, and a machine whose frame pointer is at that frame. If the expression is lowered and has a
value, its code runs and leaves the value in the register that lowering gives; memory is then as the evaluator says, the
live registers, the stack and frame pointers are as before, and so is what the code keeps above the stack pointer. -/
theorem emitted_expression_runs
    (hparse : parseSource source (buildSources earlier {}).2 = .ok program context) (hf : .function f body ∈ program)
    (he : body.Contains e) (laid : List String)
    (hsymbols : w.symbols = (Frame.layout (Frame.layouts context.symbols laid) f).1) (hfunction : w.function = f)
    (hframe : ∀ a, Below w.frame (Frame.layout (Frame.layouts context.symbols laid) f).2.toNat a → w.reserved a = false)
    (hglobals : ∀ name g, context.symbols.global? name = some g → g.kind = .variable →
      w.Clear (w.globalAt name) g.ty.stored)
    (hcallees : Honours w callees callRoom)
    (hst : st.context.symbols = w.symbols) (hst' : st.function = some f) (hlower : Lower.expr e st = .ok r? st')
    (hrbp : s.regs .rbp = w.frame) (haligned : ((s.regs .rsp).toNat + 8 * st.pushed) % 16 = 0)
    (hfits : e.stackUse + callRoom ≤ 2 ^ 64)
    (hroom : ∀ a, Below (s.regs .rsp) (e.stackUse + callRoom) a → w.reserved a = true)
    (heval : w.eval e s.store = some (v, σ')) :
    ∃ code s', st'.lines.toList = st.lines.toList ++ code.map .instr ∧ run w.toLinkage callees code s = some s' ∧
      (∀ r, r? = some r → s'.regs r.reg = v) ∧ (r? = none → e.ty = .void) ∧
      (∀ a, w.reserved a = false → s'.store.memory a = σ'.memory a) ∧ s'.store.outside = σ'.outside ∧
      (∀ r, st.pool.isLive r = true → s'.regs r.reg = s.regs r.reg) ∧
      s'.regs .rsp = s.regs .rsp ∧ s'.regs .rbp = s.regs .rbp ∧
      ∀ a, w.reserved a = true → ¬ Below (s.regs .rsp) (e.stackUse + callRoom) a →
        s'.store.memory a = s.store.memory a := by
  subst hfunction
  have hread := ends_of_ok (parseSource_read source (sound_session earlier)) hparse
  cases hread.typed _ hf with
  | function defined _ typed =>
    have hlater : context.symbols.Later w.symbols := by
      rw [hsymbols]
      exact (context.symbols.later_layouts laid).trans (SymbolTable.later_layout _ w.function)
    have htyped : Typed w.symbols w.function e := (typed.contained he).later hlater defined
    have hready : Lower.Ready w.symbols w.function st := by
      refine ⟨hst, hst', fun name symbol hs => ?_⟩
      obtain ⟨p, hp, -⟩ := local_fits hread.sound hsymbols hs
      exact ⟨-p, hp⟩
    have hclear : w.VariablesClear := variablesClear hread.sound hsymbols hframe hglobals
    obtain ⟨⟨code, hcode, hemits⟩, hvoid⟩ := ends_of_ok (Lower.expr_emits htyped st hready) hlower
    have hrunning : Running w st.pushed (e.stackUse + callRoom) s.store s :=
      ⟨hrbp, fun _ _ => rfl, rfl, haligned, hfits, hroom⟩
    obtain ⟨s', hrun, harrived⟩ := hcode.realizes hcallees hclear (Nat.le_refl _) heval hrunning
    refine ⟨code, s', hemits.lines, hrun, harrived.value, hvoid, harrived.running.memory, harrived.running.outside,
      fun r hr => ?_, ?_, ?_, harrived.keeps.stack⟩
    · exact harrived.keeps.regs r.reg (.inr (.inr ⟨r, hr, rfl⟩))
    · exact harrived.keeps.regs .rsp (.inl rfl)
    · exact harrived.keeps.regs .rbp (.inr (.inl rfl))

end Emitted

/-! ### An assignment with a call -/

/-- A frame of 16 bytes at `0x8000`, and a function that doubles its argument. -/
def doublingWorld (t : SymbolTable) : World Unit where
  globalAt _ := 0x1000
  literalAt _ := 0
  symbols := (Frame.layout t "f").1
  function := "f"
  frame := 0x8000
  reserved a := decide (0x7000 ≤ a.toNat ∧ a.toNat < 0x7ff0 ∨ 0x8000 ≤ a.toNat ∧ a.toNat < 0x8010)
  call name args σ := if name = "twice" then args.head?.map fun a => (Width.long.low (a + a), σ) else none

/-- The callee reads its argument from `rdi`. -/
def doubling : Callees Unit := fun name s =>
  if name = "twice" then some (s.set .rax (Width.long.low (s.regs .rdi + s.regs .rdi))) else none

/-- The first parameter is five, one value has been pushed, and `r10` is live. -/
def doublingMachine : Machine Unit where
  regs
    | .rbp => 0x8000
    | .rsp => 0x7fe8
    | .r10 => 7
    | _ => 0
  store := { memory := fun a => if a = 0x7ffc then 5 else 0, outside := () }
  flags := none

def doublingState (context : Context) : Lower.State :=
  { context := { context with symbols := (Frame.layout context.symbols "f").1 }, function := some "f",
    pool := { r10 := true }, pushed := 1 }

theorem doubling_honours (t : SymbolTable) : Honours (doublingWorld t) doubling 64 := by
  intro name args σ v σ' s hcall hargs hs
  simp only [doublingWorld] at hcall
  split at hcall
  · next hname =>
    obtain ⟨a, ha, h⟩ := Option.map_eq_some_iff.1 hcall
    cases h
    obtain ⟨as, rfl⟩ : ∃ as, args = a :: as := by
      cases args with
      | nil => cases ha
      | cons b as =>
        cases ha
        exact ⟨as, rfl⟩
    have hrdi : a = s.regs .rdi := by
      rw [List.length_cons, show Reg.arguments = .rdi :: [.rsi, .rdx, .rcx, .r8, .r9] from rfl, List.take_succ_cons,
        List.map_cons] at hargs
      exact (List.cons.inj hargs).1
    have hk : Keeps (doublingWorld t) {} 64 s (s.set .rax (Width.long.low (a + a))) := by
      refine .of_regs (fun q hq => if_neg fun heq => hq.not_volatile ?_) rfl
      rw [heq]
      decide
    refine ⟨_, ?_, by simp, hk, hs.of_store hk rfl⟩
    rw [doubling, if_pos hname, ← hrdi]
  · cases hcall

theorem doubling_global (t : SymbolTable) (ty : Ty) : (doublingWorld t).Clear 0x1000 ty.stored := by
  intro i hi
  have hstored : ty.stored ≤ 8 := by
    rw [← Ty.bytes_width]
    cases ty.width <;> decide
  exact decide_eq_false fun hin => (by bv_omega)

/-- Its function `f` assigns the sum of a parameter and three times what a call returns. -/
def assigningSource : String :=
  "global int g; func twice(int a) -> int; func f(int a) -> int \x7b var int x; x = a + twice(a - g) * 3; return x; \x7d"

/-- The assignment is lowered, its value is 35, and it needs 48 bytes of stack. -/
def assigns : EStateM.Result Fault Context Program → Bool
  | .ok [.globalDecl _, .prototype _, .function name (.block [_, .expr e, _])] context =>
    name == "f" && (ended (Lower.expr e (doublingState context))).isSome &&
      ((doublingWorld context.symbols).eval e doublingMachine.store).any (·.1 == 35) &&
      (Frame.layout context.symbols "f").2 == 16 && e.stackUse == 48 && !e.isControl
  | _ => false

theorem emitted_expression_runs_assignment :
    ∃ program context body e r? st' σ' code s',
      parseSource assigningSource (buildSources [] {}).2 = .ok program context ∧
      .function "f" body ∈ program ∧ body.Contains e ∧ Lower.expr e (doublingState context) = .ok r? st' ∧
      (doublingWorld context.symbols).eval e doublingMachine.store = some (35, σ') ∧
      st'.lines.toList = code.map .instr ∧
      run (doublingWorld context.symbols).toLinkage doubling code doublingMachine = some s' ∧
      (∀ r, r? = some r → s'.regs r.reg = 35) ∧
      (∀ a, (doublingWorld context.symbols).reserved a = false → s'.store.memory a = σ'.memory a) ∧
      s'.regs .r10 = 7 ∧ s'.regs .rsp = 0x7fe8 ∧ s'.regs .rbp = 0x8000 := by
  have hchecked : assigns (parseSource assigningSource (buildSources [] {}).2) = true := by decide +kernel
  unfold assigns at hchecked
  split at hchecked
  · next first e last context hparse =>
    simp only [Bool.and_eq_true, beq_iff_eq, Bool.not_eq_true'] at hchecked
    obtain ⟨⟨⟨⟨⟨rfl, hlower⟩, hvalue⟩, hsize⟩, huse⟩, hplain⟩ := hchecked
    obtain ⟨⟨v, σ'⟩, heval, hv⟩ := (Option.any_eq_true _ _).1 hvalue
    obtain rfl : v = 35 := eq_of_beq hv
    have hframe : ∀ a, Below 0x8000 (Frame.layout context.symbols "f").2.toNat a →
        (doublingWorld context.symbols).reserved a = false := by
      intro a ha
      rw [hsize] at ha
      exact decide_eq_false fun hin => (by unfold Below at ha; bv_omega)
    have hroom : ∀ a, Below 0x7fe8 (e.stackUse + 64) a → (doublingWorld context.symbols).reserved a = true := by
      intro a ha
      rw [huse] at ha
      exact decide_eq_true (by unfold Below at ha; bv_omega)
    have haligned : ((doublingMachine.regs .rsp).toNat + 8 * 1) % 16 = 0 := by decide
    have hin : Stmt.Contains e (.block [first, .expr e, last]) :=
      .block (List.mem_cons_of_mem _ List.mem_cons_self) (.expr (.self hplain))
    obtain ⟨r?, st', hok⟩ := exists_of_ended hlower
    obtain ⟨code, s', hlines, hrun, hr, -, hmemory, -, hlive, hrsp, hrbp, -⟩ :=
      emitted_expression_runs (w := doublingWorld context.symbols) (s := doublingMachine) hparse (by simp) hin [] rfl rfl
        hframe (fun _ g _ _ => doubling_global _ g.ty) (doubling_honours _) rfl rfl hok rfl haligned (by rw [huse]; decide)
        hroom heval
    exact ⟨_, context, _, e, r?, st', σ', code, s', hparse, by simp, hin, hok, heval, hlines, hrun, hr, hmemory,
      hlive .r10 rfl, hrsp, hrbp⟩
  · cases hchecked

end MiniC
