import MiniC.Proofs.Expressions
import MiniC.Proofs.Labels

/-!
# The code of functions is correct

A function is entered with the return address on top of the stack and its arguments in registers. Its prologue saves the
registers that the caller relies on and makes room for the frame; then the arguments go into the slots of the parameters
(`World.bind`), so that each slot holds the low bytes of its argument (`bind_read`). From there on the body does what its
statements do, and whichever way it ends, the epilogue gives back what was saved.

* `emitted_function_runs`: from the name of a function the machine gets to its body, and on to its `ret` whenever the body
  has an end.
-/

namespace MiniC

/-! ## Slots of parameters -/

section Slots

variable {Ω : Type} (w : World Ω)

/-- Where a parameter or local is stored. -/
def World.slot (s : Symbol) : Word := w.frame + BitVec.ofInt 64 (s.position.getD 0)

/-- Memory after arguments have gone into the slots of parameters. -/
def World.bind : List Symbol → List Word → Memory → Memory
  | param :: params, v :: args, m => bind params args (param.ty.save m (w.slot param) v)
  | _, _, m => m

/-- The slot of a scalar lies in a frame of `size` bytes. -/
structure Frame.InFrame (size : Nat) (s : Symbol) : Prop where
  fits : Fits 0 size s
  scalar : s.kind = .variable
  nonvoid : s.ty ≠ .void

variable {w} {size : Nat} {s s' : Symbol}

theorem Frame.InFrame.position (h : InFrame size s) :
    ∃ k : Nat, s.position = some (-(k : Int)) ∧ s.ty.stored ≤ k ∧ k ≤ size ∧ w.slot s = w.frame - BitVec.ofNat 64 k := by
  obtain ⟨p, hp, hlow, hhigh⟩ := h.fits
  have hstored := stored_le_slotWidth h.scalar h.nonvoid
  obtain ⟨k, rfl⟩ := Int.eq_ofNat_of_zero_le (show 0 ≤ p by omega)
  refine ⟨k, hp, by omega, by omega, ?_⟩
  rw [World.slot, hp, Option.getD_some, BitVec.ofInt_neg, BitVec.ofInt_natCast, BitVec.sub_eq_add_neg]

theorem Frame.InFrame.clear (h : InFrame size s) (hframe : ∀ a, Below w.frame size a → w.reserved a = false) :
    w.Clear (w.slot s) s.ty.stored := by
  obtain ⟨p, hp, hlow, hhigh⟩ := h.fits
  have hstored := stored_le_slotWidth h.scalar h.nonvoid
  have hframe' : ∀ a, Below w.frame (size : Int).toNat a → w.reserved a = false := hframe
  rw [World.slot, hp]
  exact clear_of_fits hframe' (by omega) hhigh

theorem offset_between (a : Word) (k d i : Nat) :
    a - BitVec.ofNat 64 k + BitVec.ofNat 64 i - (a - BitVec.ofNat 64 (k + d)) = BitVec.ofNat 64 (d + i) := by
  rw [BitVec.ofNat_add, BitVec.ofNat_add]
  grind

/-- A slot is not touched when another one, which lies below it, is written. -/
theorem Frame.Under.apart (hs : InFrame size s) (hs' : InFrame size s') (h : Under s s') (hsize : size < 2 ^ 64) {i : Nat}
    (hi : i < s.ty.stored) : s'.ty.stored ≤ (w.slot s + BitVec.ofNat 64 i - w.slot s').toNat := by
  obtain ⟨k, hk, hlow, hhigh, hslot⟩ := hs.position (w := w)
  obtain ⟨k', hk', hlow', hhigh', hslot'⟩ := hs'.position (w := w)
  have hunder := h k k' hk hk'
  have hstored := stored_le_slotWidth hs'.scalar hs'.nonvoid
  obtain ⟨d, rfl⟩ := Nat.exists_eq_add_of_le (show k ≤ k' by omega)
  rw [hslot, hslot', offset_between, BitVec.toNat_ofNat, Nat.mod_eq_of_lt (by omega)]
  omega

/-- What lies above the slots of parameters stays as it is when they are filled. -/
theorem bind_read_above (hs : Frame.InFrame size s) (hsize : size < 2 ^ 64) : ∀ {params : List Symbol} {args : List Word}
    {m : Memory}, (∀ param ∈ params, Frame.InFrame size param ∧ Frame.Under s param) →
    (w.bind params args m).read (w.slot s) s.ty.stored = m.read (w.slot s) s.ty.stored
  | [], args, m, _ => by cases args <;> rfl
  | _ :: _, [], m, _ => rfl
  | param :: params, v :: args, m, h => by
    obtain ⟨hparam, hunder⟩ := h param List.mem_cons_self
    rw [World.bind, bind_read_above hs hsize fun q hq => h q (List.mem_cons_of_mem _ hq)]
    exact Memory.read_congr fun i hi => Memory.write_of_ge (hunder.apart hs hparam hsize hi)

/-- **Parameters.** Each slot holds the low bytes of its argument. -/
theorem bind_read (hsize : size < 2 ^ 64) : ∀ {params : List Symbol} {args : List Word} {m : Memory},
    (∀ param ∈ params, Frame.InFrame size param) → params.Pairwise Frame.Under →
    ∀ param v, (param, v) ∈ params.zip args →
      (w.bind params args m).read (w.slot param) param.ty.stored = param.ty.width.low v
  | [], args, m, _, _, _, _, hmem => by cases hmem
  | _ :: _, [], m, _, _, _, _, hmem => by cases hmem
  | q :: params, u :: args, m, hparams, hunder, param, v, hmem => by
    obtain ⟨hfirst, hrest⟩ := List.pairwise_cons.1 hunder
    have hin : ∀ q ∈ params, Frame.InFrame size q := fun q hq => hparams q (List.mem_cons_of_mem _ hq)
    rcases List.mem_cons.1 hmem with heq | hmem
    · obtain ⟨rfl, rfl⟩ := Prod.mk.inj heq
      rw [World.bind, bind_read_above (hparams param List.mem_cons_self) hsize fun q hq => ⟨hin q hq, hfirst q hq⟩,
        Ty.save, ← Ty.bytes_width]
      exact Memory.read_write m (w.slot param) v param.ty.width
    · exact bind_read hsize hin hrest param v hmem

/-- Each of at most six parameters has a register, and its slot holds the low bytes of it. -/
theorem param_bound {params : List Symbol} {m : Memory} (hsize : size < 2 ^ 64)
    (hparams : ∀ param ∈ params, Frame.InFrame size param) (hunder : params.Pairwise Frame.Under)
    (hlimit : params.length ≤ Reg.arguments.length) (regs : Reg → Word) {i : Nat} (hparam : params[i]? = some s) :
    ∃ r, Reg.arguments[i]? = some r ∧
      (w.bind params (Reg.arguments.map regs) m).read (w.slot s) s.ty.stored = s.ty.width.low (regs r) := by
  obtain ⟨hi, -⟩ := List.getElem?_eq_some_iff.1 hparam
  have hr : Reg.arguments[i]? = some Reg.arguments[i] := List.getElem?_eq_getElem (Nat.lt_of_lt_of_le hi hlimit)
  have hargs : (Reg.arguments.map regs)[i]? = some (regs Reg.arguments[i]) := by
    rw [List.getElem?_map, hr, Option.map_some]
  have hmem : (s, regs Reg.arguments[i]) ∈ params.zip (Reg.arguments.map regs) :=
    List.mem_of_getElem? (List.getElem?_zip_eq_some.2 ⟨hparam, hargs⟩)
  exact ⟨_, hr, bind_read hsize hparams hunder s _ hmem⟩

end Slots

/-! ## Entering and leaving -/

section Frames

variable {Ω : Type} {w : World Ω} {size room : Nat} {σ σ' : Store Ω} {s₀ s s' : Machine Ω}

/-- The bytes of the frame belong to the program; the code keeps the saved frame pointer and the return address above it,
and two saved registers and `room` bytes below it. -/
structure World.Framed (w : World Ω) (size room : Nat) : Prop where
  frame : ∀ a, Below w.frame size a → w.reserved a = false
  links : ∀ i, i < 16 → w.reserved (w.frame + BitVec.ofNat 64 i) = true
  below : ∀ a, Below (w.frame - BitVec.ofNat 64 size) (16 + room) a → w.reserved a = true
  fits : size + room + 32 ≤ 2 ^ 64

/-- What a function that was entered in `s₀` keeps on the stack while its body runs. -/
structure Saved (w : World Ω) (size : Nat) (s₀ s : Machine Ω) : Prop where
  rbp : s.regs .rbp = w.frame
  rsp : s.regs .rsp = w.frame - BitVec.ofNat 64 size - 16
  registers : Stacked s.store.memory (s.regs .rsp) [s₀.regs .r13, s₀.regs .r12]
  links : Stacked s.store.memory w.frame [s₀.regs .rbp, s₀.read (w.frame + 8) 8]

/-- The body leaves alone what is saved. -/
theorem Saved.keeps (h : Saved w size s₀ s) (hframed : w.Framed size room) (hk : Keeps w {} room s s') :
    Saved w size s₀ s' := by
  have hfits := hframed.fits
  have hsp : s'.regs .rsp = s.regs .rsp := hk.regs .rsp (.inl rfl)
  refine ⟨(hk.regs .rbp (.inr (.inl rfl))).trans h.rbp, hsp.trans h.rsp, ?_, h.links.congr fun i hi => ?_⟩
  · rw [hsp]
    refine h.registers.congr fun i hi => ?_
    simp only [List.length_cons, List.length_nil] at hi
    have hbelow : Below (w.frame - BitVec.ofNat 64 size) 16 (s.regs .rsp + BitVec.ofNat 64 i) := by
      rw [h.rsp]
      exact below_sub_add hi
    exact hk.stack _ (hframed.below _ (hbelow.mono (by omega))) (not_below_add (by omega))
  · have haddr : w.frame + BitVec.ofNat 64 i = s.regs .rsp + BitVec.ofNat 64 (size + 16 + i) := by
      rw [h.rsp, BitVec.ofNat_add, BitVec.ofNat_add]
      grind
    simp only [List.length_cons, List.length_nil] at hi
    refine hk.stack _ (hframed.links i (by omega)) ?_
    rw [haddr]
    exact not_below_add (by omega)

/-- Room is made for the frame, unless it is empty. -/
theorem reserve_runs (link : Linkage) (callees : Callees Ω) (size : Nat) (s : Machine Ω) :
    ∃ s', run link callees (if 0 < (size : Int) then [.aluImm .sub size .rsp] else []) s = some s' ∧
      s'.regs .rsp = s.regs .rsp - BitVec.ofNat 64 size ∧ (∀ q, q ≠ .rsp → s'.regs q = s.regs q) ∧ s'.store = s.store := by
  split
  · refine ⟨_, rfl, ?_, fun q hq => if_neg hq, rfl⟩
    simp [AluOp.apply, BitVec.ofInt_natCast]
  · next hsize =>
    obtain rfl : size = 0 := by omega
    exact ⟨s, rfl, by simp, fun _ _ => rfl, rfl⟩

/-- **The prologue.** The body finds its frame, and what it has to give back is on the stack. -/
theorem prologue_runs (callees : Callees Ω) (hframed : w.Framed size room) (hsize : size % 16 = 0) (hsp : s.regs .rsp = w.frame + 8)
    (haligned : ((s.regs .rsp).toNat + 8) % 16 = 0) :
    ∃ s', run w.toLinkage callees (Lower.prologue size) s = some s' ∧ Saved w size s s' ∧ Running w 0 room s.store s' ∧
      ∀ q, q ≠ .rsp → q ≠ .rbp → s'.regs q = s.regs q := by
  have hfits := hframed.fits
  have hframe : s.regs .rsp - 8 = w.frame := by
    rw [hsp]
    exact BitVec.add_sub_cancel _ _
  let entered := (s.push (s.regs .rbp)).set .rbp (s.regs .rsp - 8)
  obtain ⟨s₁, hrun₁, hsp₁, hregs₁, hstore₁⟩ := reserve_runs w.toLinkage callees size entered
  have hsp₁ : s₁.regs .rsp = w.frame - BitVec.ofNat 64 size := by
    rw [hsp₁, ← hframe]
    rfl
  have hrbp₁ : s₁.regs .rbp = w.frame := by
    rw [hregs₁ .rbp (by decide), ← hframe]
    simp [entered]
  -- The bytes that the frame pointer is saved in are reserved.
  have hmemory₁ : ∀ a, w.reserved a = false → s₁.store.memory a = s.store.memory a := by
    intro a ha
    rw [hstore₁]
    refine s.memory_push _ fun hbelow => ?_
    obtain ⟨i, hi, rfl⟩ := hbelow.exists_add
    have hlink := hframed.links i (by omega)
    rw [← hframe] at hlink
    cases hlink.symm.trans ha
  have hrunning₁ : Running w 0 (16 + room) s.store s₁ := by
    refine ⟨hrbp₁, hmemory₁, by rw [hstore₁]; rfl, ?_, by omega, fun a ha => hframed.below a (hsp₁ ▸ ha)⟩
    have hbase : w.frame.toNat % 16 = 0 := by
      rw [hsp] at haligned
      bv_omega
    rw [hsp₁, BitVec.toNat_sub, BitVec.toNat_ofNat]
    omega
  obtain ⟨s₂, hrun₂, hrunning₂, hsp₂, hregs₂, hheld₂, hmem₂⟩ :=
    pushAll_runs w.toLinkage callees (show .rsp ∉ [Reg.r12, .r13] by decide) hrunning₁ hrunning₁.held (by simp)
  have hroom : 16 + room - 8 * [Reg.r12, .r13].length = room := by simp
  rw [hroom] at hrunning₂ hheld₂
  have hregs : ∀ q, q ≠ .rsp → q ≠ .rbp → s₂.regs q = s.regs q := by
    intro q hq hq'
    rw [hregs₂ q hq, hregs₁ q hq]
    exact (if_neg hq').trans (s.regs_push _ hq)
  have hlinks₁ : Stacked s₁.store.memory w.frame [s.regs .rbp, s.read (w.frame + 8) 8] := by
    rw [hstore₁]
    refine ⟨hframe ▸ s.read_push _, Memory.read_congr fun i hi => ?_, trivial⟩
    rw [← hsp]
    exact s.memory_push _ (not_below_add (by omega))
  have hentered : run w.toLinkage callees [.push .rbp, .mov .rsp .rbp] s = some entered := rfl
  refine ⟨s₂, ?_, ⟨(hregs₂ .rbp (by decide)).trans hrbp₁, ?_, ?_, hlinks₁.congr fun i hi => hmem₂ _ ?_⟩,
    hrunning₂.unpadded rfl (Nat.le_refl _), hregs⟩
  · exact run_then (run_then hentered hrun₁) hrun₂
  · rw [hsp₂, hsp₁]
    rfl
  · have hvalues := hheld₂.values
    simp only [List.reverse_cons, List.reverse_nil, List.nil_append, List.cons_append, List.map_cons, List.map_nil] at hvalues
    rwa [← hregs₂ .r12 (by decide), ← hregs₂ .r13 (by decide), hregs .r12 (by decide) (by decide),
      hregs .r13 (by decide) (by decide)] at hvalues
  · have haddr : w.frame + BitVec.ofNat 64 i = s₁.regs .rsp + BitVec.ofNat 64 (size + i) := by
      rw [hsp₁, BitVec.ofNat_add]
      grind
    simp only [List.length_cons, List.length_nil] at hi
    rw [haddr]
    exact not_below_add (by omega)

/-- The arguments go into the slots of the parameters. -/
theorem paramStores_run (callees : Callees Ω) : ∀ {params : List Symbol} {regs : List Reg} {σ : Store Ω} {s : Machine Ω},
    (∀ param ∈ params, w.Clear (w.slot param) param.ty.stored) → Running w 0 room σ s →
    ∃ s', run w.toLinkage callees (paramStores params regs) s = some s' ∧ Keeps w {} room s s' ∧
      Running w 0 room (σ.withMemory (w.bind params (regs.map s.regs) σ.memory)) s'
  | [], regs, σ, s, _, hs => by
    refine ⟨s, rfl, .refl s, ?_⟩
    cases regs <;> exact hs
  | _ :: _, [], σ, s, _, hs => ⟨s, rfl, .refl s, hs⟩
  | param :: params, r :: regs, σ, s, hclear, hs => by
    have hwrite : Keeps w {} room s (s.write (w.slot param) param.ty.stored (s.regs r)) ∧ _ :=
      hs.write (hclear param List.mem_cons_self) (s.regs r)
    obtain ⟨hk, hs₁⟩ := hwrite
    obtain ⟨s', hrun, hk', hs'⟩ := paramStores_run callees (fun q hq => hclear q (List.mem_cons_of_mem _ hq)) hs₁
    refine ⟨s', ?_, hk.trans hk' fun _ h => h, hs'⟩
    have hexec : Instr.exec w.toLinkage callees s (.store param.ty.width r (.frame (param.position.getD 0))) =
        some (s.write (w.slot param) param.ty.stored (s.regs r)) := by
      rw [Instr.exec, Location.address, hs.frame, Ty.bytes_width]
      rfl
    rw [paramStores, List.zip_cons_cons, List.map_cons, run, hexec]
    exact hrun

/-- **The epilogue.** Up to the return everything is given back. -/
theorem epilogue_runs (callees : Callees Ω) (h : Saved w size s₀ s) :
    ∃ s', run w.toLinkage callees [.pop .r13, .pop .r12, .mov .rbp .rsp, .pop .rbp] s = some s' ∧ s'.store = s.store ∧
      s'.regs .rsp = w.frame + 8 ∧ s'.regs .rbp = s₀.regs .rbp ∧ s'.regs .r12 = s₀.regs .r12 ∧
      s'.regs .r13 = s₀.regs .r13 ∧ s'.regs .rax = s.regs .rax := by
  obtain ⟨s₁, hrun₁, hstore₁, -, hvalues, hregs₁⟩ :=
    popAll_runs w.toLinkage callees (show [Reg.r13, .r12].Nodup by decide) (by decide) rfl h.registers
  simp only [List.map_cons, List.map_nil, List.cons.injEq, and_true] at hvalues
  let lowered := s₁.set .rsp (s₁.regs .rbp)
  have hrbp : s₁.regs .rbp = w.frame := (hregs₁ .rbp (by decide) (by decide)).trans h.rbp
  refine ⟨lowered.pop .rbp, run_then hrun₁ rfl, hstore₁, ?_, ?_, ?_, ?_, ?_⟩
  · rw [lowered.rsp_pop (by decide)]
    simp [lowered, hrbp]
  · have hsaved : s.store.memory.read w.frame 8 = s₀.regs .rbp := h.links.1
    simp [Machine.pop, lowered, Machine.read, hrbp, hstore₁, hsaved]
  · simp [Machine.pop, lowered, hvalues]
  · simp [Machine.pop, lowered, hvalues]
  · rw [lowered.regs_pop (by decide) (by decide)]
    simp [lowered, hregs₁ .rax (by decide) (by decide)]

/-- **Entering.** At the start of the body everything is saved and the arguments are in their slots. -/
theorem function_enters {p : Setting Ω} (f : String) {params : List Symbol} (lines : List Line)
    (hframed : p.world.Framed size p.room) (hsize : size % 16 = 0)
    (hclear : ∀ param ∈ params, p.world.Clear (p.world.slot param) param.ty.stored)
    (hrsp : s.regs .rsp = p.world.frame + 8) (haligned : ((s.regs .rsp).toNat + 8) % 16 = 0) :
    ∃ s', Reaches p.world.toLinkage p.callees p.text
        ⟨.name f :: (instrLines (Lower.prologue size ++ paramStores params Reg.arguments) ++ lines), s⟩ ⟨lines, s'⟩ ∧
      Saved p.world size s s' ∧
      p.At (s.store.withMemory (p.world.bind params (Reg.arguments.map s.regs) s.store.memory)) s' := by
  obtain ⟨s₁, hrun₁, hsaved₁, hs₁, hregs₁⟩ := prologue_runs p.callees hframed hsize hrsp haligned
  have hstores : ∃ s', run p.world.toLinkage p.callees (paramStores params Reg.arguments) s₁ = some s' ∧ _ ∧ _ :=
    paramStores_run p.callees hclear hs₁
  obtain ⟨s', hrun, hk, hs'⟩ := hstores
  have hargs : Reg.arguments.map s₁.regs = Reg.arguments.map s.regs := by
    refine List.map_congr_left fun q hq => hregs₁ q ?_ ?_
    · rintro rfl
      exact absurd hq (by decide)
    · rintro rfl
      exact absurd hq (by decide)
  rw [hargs] at hs'
  exact ⟨s', (reaches_name f).trans (reaches_run (run_then hrun₁ hrun)), hsaved₁.keeps hframed hk, hs'⟩

/-- **Leaving.** From the start of the body to `ret` a function does what its body does, and gives back what it saved. -/
theorem function_leaves {p : Setting Ω} {body : Stmt} {lines after : List Line} {n n' : Nat} {o : Ending}
    (hframed : p.world.Framed size p.room)
    (hlines : StmtCode p.world.symbols p.world.function p.ret p.exit n body lines n')
    (hplaced : Placed p.text (textLines true lines) p.exits)
    (hexits : p.exits = .label p.exit :: (instrLines Lower.epilogue ++ after))
    (hroom : body.stackUse + p.callRoom ≤ p.room) (hsaved : Saved p.world size s₀ s) (hs : p.At σ s)
    (hexec : Exec p.world body σ o σ') :
    ∃ s', Reaches p.world.toLinkage p.callees p.text ⟨textLines true lines ++ p.exits, s⟩ ⟨.instr .ret :: after, s'⟩ ∧
      s'.regs .rsp = p.world.frame + 8 ∧ s'.regs .rbp = s₀.regs .rbp ∧ s'.regs .r12 = s₀.regs .r12 ∧
      s'.regs .r13 = s₀.regs .r13 ∧ s'.read (p.world.frame + 8) 8 = s₀.read (p.world.frame + 8) 8 ∧
      (∀ a, p.world.reserved a = false → s'.store.memory a = σ'.memory a) ∧ s'.store.outside = σ'.outside ∧
      o.Leaves p.ret s' := by
  obtain ⟨s₁, hmoved, hleaves⟩ := hexec.simulates hlines hplaced hroom hs
  -- Whichever way the body ends, it ends at the epilogue.
  have hend : o.leads p.exits p.exits = p.exits := by cases o <;> rfl
  have hsaved₁ := hsaved.keeps hframed hmoved.keeps
  obtain ⟨s', hrun, hstore, hsp, hbp, hr12, hr13, hrax⟩ := epilogue_runs p.callees hsaved₁
  refine ⟨s', ?_, hsp, hbp, hr12, hr13, ?_, ?_, ?_, hleaves.congr hrax⟩
  · rw [hend] at hmoved
    refine hmoved.reaches.trans ?_
    rw [hexits]
    exact (reaches_label p.exit).trans (reaches_run hrun)
  · rw [Machine.read, hstore]
    exact hsaved₁.links.2.1
  · rw [hstore]
    exact hmoved.running.memory
  · rw [hstore]
    exact hmoved.running.outside

end Frames

/-! ## The theorem -/

section Emitted

variable {Ω : Type} {earlier : List String} {source : String} {program before rest : Program} {context context' : Context}
  {listing : Listing} {f : String} {body : Stmt} {w : World Ω} {callees : Callees Ω} {callRoom : Nat} {s : Machine Ω}

/-- The parameters of a function lie in its frame. -/
theorem params_inFrame {c : Context} (hc : c.Sound) (f : String) :
    ∀ param ∈ (Frame.layout c.symbols f).1.params f, Frame.InFrame (Frame.layout c.symbols f).2.toNat param := by
  intro param hparam
  obtain ⟨hmember, hscope⟩ := List.mem_filter.1 hparam
  obtain ⟨symbols, hsymbols, hin⟩ := SymbolTable.mem_members hmember
  have hok := ((hc.layout f).namespaces f symbols hsymbols).members param hin
  refine ⟨?_, hok.param (eq_of_beq hscope), hok.typed⟩
  rw [Int.toNat_of_nonneg (Frame.size_layout (hc.namespaces f)).1]
  exact Frame.fits_of_layout (hc.namespaces f) hmember

/-- **Functions of accepted programs.** Take a function of an accepted program and the text section of its listing, and a
machine that has just been called: its return address is on top of the stack, and its arguments are in registers. From the
name of the function the machine gets to its body. Each parameter has a register, and its slot then holds the low bytes of
it. Whenever the body, from there, comes to an end, the machine gets on to a `ret` with the stack and frame pointers, `r12`
and `r13` as they were, the return address still on top of the stack, memory as the body leaves it, and the low bytes of the
value of a `return` in `rax`. -/
theorem emitted_function_runs
    (hparse : parseSource source (buildSources earlier {}).2 = .ok program context)
    (hprogram : program = before ++ .function f body :: rest) (hgenerate : generate program context = .ok listing context')
    (hsymbols : w.symbols = (Frame.layout (Frame.layouts context.symbols (before.filterMap Parse.defines?)) f).1)
    (hfunction : w.function = f)
    (hframed : w.Framed (Frame.layout (Frame.layouts context.symbols (before.filterMap Parse.defines?)) f).2.toNat
      (body.stackUse + callRoom))
    (hglobals : ∀ name g, context.symbols.global? name = some g → g.kind = .variable →
      w.Clear (w.globalAt name) g.ty.stored)
    (hcallees : Honours w callees callRoom)
    (hrsp : s.regs .rsp = w.frame + 8) (haligned : ((s.regs .rsp).toNat + 8) % 16 = 0) :
    let text := textLines true listing.toList
    let σ := s.store.withMemory (w.bind (w.symbols.params f) (Reg.arguments.map s.regs) s.store.memory)
    ∃ entry inner s₁ symbol, linesFrom (.name f) text = some entry ∧ context.symbols.global? f = some symbol ∧
      Reaches w.toLinkage callees text ⟨entry, s⟩ ⟨inner, s₁⟩ ∧
      (∀ (i : Nat) param, (w.symbols.params f)[i]? = some param → ∃ r, Reg.arguments[i]? = some r ∧
        σ.memory.read (w.slot param) param.ty.stored = param.ty.width.low (s.regs r) ∧
        s₁.read (w.slot param) param.ty.stored = param.ty.width.low (s.regs r)) ∧
      ∀ o σ', Exec w body σ o σ' → ∃ after s',
        Reaches w.toLinkage callees text ⟨inner, s₁⟩ ⟨.instr .ret :: after, s'⟩ ∧
        s'.regs .rsp = s.regs .rsp ∧ s'.regs .rbp = s.regs .rbp ∧ s'.regs .r12 = s.regs .r12 ∧
        s'.regs .r13 = s.regs .r13 ∧ s'.read (s.regs .rsp) 8 = s.read (s.regs .rsp) 8 ∧
        (∀ a, w.reserved a = false → s'.store.memory a = σ'.memory a) ∧ s'.store.outside = σ'.outside ∧
        ∀ v, o = .returned (some v) → symbol.ty.width.low (s'.regs .rax) = symbol.ty.width.low v := by
  intro text σ
  subst hprogram hfunction
  have hread := ends_of_ok (parseSource_read source (sound_session earlier)) hparse
  obtain ⟨-, new, segment, strings, hitems, hlisting⟩ := ends_of_ok (generate_emits hread.sound hread.typed) hgenerate
  obtain ⟨symbol, exit, n, n', lines, exits, after, hsymbol, hlines, hexits, hentry, hexit, hplaced⟩ :=
    function_placed (stringLines strings ++ [.directive .stackNote]) hread.sound hread.once hitems
  rw [← hlisting] at hentry hexit hplaced
  have hsound := hread.sound.layouts (before.filterMap Parse.defines?)
  have hok : ∀ symbols, (Frame.layouts context.symbols (before.filterMap Parse.defines?)).namespace? w.function =
      some symbols → NamespaceOk symbols := hsound.namespaces w.function
  obtain ⟨hpositive, hmultiple⟩ := Frame.size_layout hok
  obtain ⟨size, hsize⟩ := Int.eq_ofNat_of_zero_le hpositive
  have hclear : w.VariablesClear := variablesClear hread.sound hsymbols hframed.frame hglobals
  have hparams := params_inFrame hsound w.function
  have hunder := Frame.under_of_layout hok
  have hlimit := (hsound.layout w.function).params_le w.function
  simp only [← hsymbols, hsize, Int.toNat_natCast] at hlines hentry hframed hparams hunder hlimit
  let p : Setting Ω :=
    { world := w, callees := callees, callRoom := callRoom, room := body.stackUse + callRoom, text := text,
      ret := symbol.ty, exit := exit, exits := exits, honours := hcallees, clear := hclear, found := hexit }
  have hslots : ∀ param ∈ w.symbols.params w.function, w.Clear (w.slot param) param.ty.stored :=
    fun param hparam => (hparams param hparam).clear hframed.frame
  obtain ⟨s₁, hreaches₁, hsaved, hs₁⟩ := function_enters (p := p) w.function _ hframed (by omega) hslots hrsp haligned
  refine ⟨_, _, s₁, symbol, hentry, hsymbol, hreaches₁, fun i param hparam => ?_, fun o σ' hexec => ?_⟩
  · have hfits := hframed.fits
    obtain ⟨r, hr, hslot⟩ := param_bound (m := s.store.memory) (by omega) hparams hunder hlimit s.regs hparam
    refine ⟨r, hr, hslot, Eq.trans ?_ hslot⟩
    exact Memory.read_congr fun k hk => hs₁.memory _ (hslots param (List.mem_of_getElem? hparam) k hk)
  · obtain ⟨s', hreaches, hsp, hbp, hr12, hr13, hreturn, hmemory, houtside, hleaves⟩ :=
      function_leaves (p := p) hframed hlines hplaced hexits (Nat.le_refl _) hsaved hs₁ hexec
    rw [← hrsp] at hsp hreturn
    refine ⟨after, s', hreaches, hsp, hbp, hr12, hr13, hreturn, hmemory, houtside, ?_⟩
    intro v hv
    subst hv
    have hrax : s'.regs .rax = symbol.ty.width.low v := hleaves
    rw [hrax, Width.low_low]

end Emitted

/-! ### A loop that is left by a return -/

/-- A machine that has just been called, with numbers in its arguments that are wider than their types. -/
def calledMachine : Machine Unit where
  regs
    | .rsp => 0x8008
    | .rbp => 0x9000
    | .r12 => 12
    | .r13 => 13
    | .rdi => 0x100000050
    | .rsi => 0x103
    | _ => 0
  store := { memory := fun _ => 0, outside := () }
  flags := none

theorem doubling_framed (t : SymbolTable) : (doublingWorld t).Framed 16 (48 + 64) where
  frame a ha := decide_eq_false fun hin => (by simp only [Below, doublingWorld] at ha; bv_omega)
  links i hi := decide_eq_true (by simp only [doublingWorld]; bv_omega)
  below a ha := decide_eq_true (by simp only [Below, doublingWorld] at ha; bv_omega)
  fits := by decide

/-- Its function `f` doubles `n` until it is more than 200. -/
def doublingSource : String :=
  "func twice(int a) -> int; func f(int n, char c) -> int \x7b for (;;) \x7b n = twice(n); if (n > 200) return n + c; \x7d \x7d"

/-- Eighty is doubled until it is 320, and the return in the loop adds three to it. -/
def returnsSum : EStateM.Result Fault Context Program → Bool
  | .ok [.prototype first, .function name body] context =>
    let w := doublingWorld context.symbols
    let σ := calledMachine.store.withMemory
      (w.bind (w.symbols.params "f") (Reg.arguments.map calledMachine.regs) calledMachine.store.memory)
    name == "f" && (Frame.layout context.symbols "f").2 == 16 && body.stackUse == 48 &&
      (context.symbols.global? "f").any (·.ty == .int) &&
      (ended (generate [.prototype first, .function "f" body] context)).isSome &&
      (w.execute 10 body σ).any (·.1 == .returned (some 323))
  | _ => false

theorem emitted_function_runs_loop :
    ∃ program context listing context' entry after s',
      parseSource doublingSource (buildSources [] {}).2 = .ok program context ∧
      generate program context = .ok listing context' ∧
      linesFrom (.name "f") (textLines true listing.toList) = some entry ∧
      Reaches (doublingWorld context.symbols).toLinkage doubling (textLines true listing.toList) ⟨entry, calledMachine⟩
        ⟨.instr .ret :: after, s'⟩ ∧
      s'.regs .rsp = 0x8008 ∧ s'.regs .rbp = 0x9000 ∧ s'.regs .r12 = 12 ∧ s'.regs .r13 = 13 ∧
      Width.long.low (s'.regs .rax) = 323 := by
  have hchecked : returnsSum (parseSource doublingSource (buildSources [] {}).2) = true := by decide +kernel
  unfold returnsSum at hchecked
  split at hchecked
  · next first name body context hparse =>
    simp only [Bool.and_eq_true, beq_iff_eq] at hchecked
    obtain ⟨⟨⟨⟨⟨rfl, hsize⟩, huse⟩, htype⟩, hgenerate⟩, hexecute⟩ := hchecked
    obtain ⟨listing, context', hlisting⟩ := exists_of_ended hgenerate
    obtain ⟨⟨o, σ'⟩, hexec, ho⟩ := (Option.any_eq_true _ _).1 hexecute
    obtain rfl : o = .returned (some 323) := eq_of_beq ho
    have hframed : (doublingWorld context.symbols).Framed (Frame.layout context.symbols "f").2.toNat
        (body.stackUse + 64) := by
      rw [hsize, huse]
      exact doubling_framed _
    obtain ⟨entry, inner, s₁, symbol, hentry, hsymbol, henters, -, hruns⟩ :=
      emitted_function_runs (w := doublingWorld context.symbols) (s := calledMachine) hparse
        (show _ = [Stmt.prototype first] ++ .function "f" body :: [] from rfl) hlisting rfl rfl hframed
        (fun _ g _ _ => doubling_global _ g.ty) (doubling_honours _) rfl rfl
    obtain ⟨after, s', hreaches, hrsp, hrbp, hr12, hr13, -, -, -, hrax⟩ := hruns _ _ (execute_sound hexec)
    have hty : symbol.ty = .int := by
      rw [hsymbol] at htype
      exact eq_of_beq htype
    have hrax := hrax 323 rfl
    rw [hty] at hrax
    exact ⟨_, context, listing, context', entry, after, s', hparse, hlisting, hentry, henters.trans hreaches, hrsp, hrbp,
      hr12, hr13, hrax⟩
  · cases hchecked

end MiniC
