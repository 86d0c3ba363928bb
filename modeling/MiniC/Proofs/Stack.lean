import MiniC.Proofs.Evaluator
import MiniC.RegisterPool

/-!
# The stack below the frame

Code keeps registers and arguments on the stack while it computes. The bytes it may use for that, `room` bytes below the
stack pointer, are reserved: no pointer of the program reaches them.

* `Running`: the machine is in the midst of a body, and its memory is that of a store of the evaluator, except for
  reserved bytes.
* `Keeps`: what straight code leaves alone: the live registers, the stack and frame pointers, and every reserved byte
  that is not in the room below the stack pointer.
* `Held`: values on the stack, from the top down, that straight code leaves there; `pushAll_runs` and `popAll_runs` say
  what pushing and popping do.
-/

namespace MiniC

/-! ## Places below the stack pointer -/

/-- `a` is one of the `n` bytes below `sp`. -/
def Below (sp : Word) (n : Nat) (a : Word) : Prop := (sp - 1 - a).toNat < n

theorem Below.mono {sp a : Word} {n k : Nat} (h : Below sp n a) (hle : n ≤ k) : Below sp k a := Nat.lt_of_lt_of_le h hle

/-- What is below a lower stack pointer is below a higher one. -/
theorem Below.lift {sp a : Word} {n k : Nat} (h : Below (sp - BitVec.ofNat 64 k) n a) (hle : n + k ≤ 2 ^ 64) :
    Below sp (n + k) a := by
  unfold Below at *
  bv_omega

/-- What is on the stack is not below it. -/
theorem not_below_add {sp : Word} {n i : Nat} (h : n + i < 2 ^ 64) : ¬ Below sp n (sp + BitVec.ofNat 64 i) := by
  unfold Below
  bv_omega

theorem below_of_push {sp b : Word} (h : (b - (sp - 8)).toNat < 8) : Below sp 8 b := by
  unfold Below
  bv_omega

/-- The bytes below a stack pointer, counted from the lowest one. -/
theorem below_sub_add {sp : Word} {n i : Nat} (h : i < n) : Below sp n (sp - BitVec.ofNat 64 n + BitVec.ofNat 64 i) := by
  obtain ⟨d, rfl⟩ := Nat.exists_eq_add_of_le (show i + 1 ≤ n from h)
  have hoffset : sp - 1 - (sp - BitVec.ofNat 64 (i + 1 + d) + BitVec.ofNat 64 i) = BitVec.ofNat 64 d := by
    rw [BitVec.ofNat_add, BitVec.ofNat_add]
    grind
  unfold Below
  rw [hoffset, BitVec.toNat_ofNat]
  have hmod := Nat.mod_le d (2 ^ 64)
  omega

theorem Below.exists_add {sp a : Word} {n : Nat} (h : Below sp n a) :
    ∃ i, i < n ∧ a = sp - BitVec.ofNat 64 n + BitVec.ofNat 64 i := by
  obtain ⟨d, hd⟩ := Nat.exists_eq_add_of_le (show (sp - 1 - a).toNat + 1 ≤ n from h)
  have hoffset : sp - 1 - a = BitVec.ofNat 64 (sp - 1 - a).toNat := by rw [BitVec.ofNat_toNat, BitVec.setWidth_eq]
  refine ⟨d, by omega, ?_⟩
  rw [hd, BitVec.ofNat_add, BitVec.ofNat_add, ← hoffset]
  grind

/-! ## Values on the stack -/

/-- The words from `sp` upwards. -/
def Stacked (m : Memory) (sp : Word) : List Word → Prop
  | [] => True
  | v :: vs => m.read sp 8 = v ∧ Stacked m (sp + 8) vs

theorem Stacked.congr {m m' : Memory} : ∀ {sp : Word} {vs : List Word}, Stacked m sp vs →
    (∀ i, i < 8 * vs.length → m' (sp + BitVec.ofNat 64 i) = m (sp + BitVec.ofNat 64 i)) → Stacked m' sp vs
  | _, [], _, _ => trivial
  | sp, v :: vs, h, heq => by
    rw [List.length_cons] at heq
    refine ⟨?_, h.2.congr fun i hi => ?_⟩
    · rw [Memory.read_congr fun i hi => heq i (by omega)]
      exact h.1
    · have hi' := heq (i + 8) (by omega)
      have haddr : sp + BitVec.ofNat 64 (i + 8) = sp + 8 + BitVec.ofNat 64 i := by
        bv_omega
      rwa [haddr] at hi'

theorem stacked_append {m : Memory} : ∀ {sp : Word} {vs us : List Word},
    Stacked m sp (vs ++ us) ↔ Stacked m sp vs ∧ Stacked m (sp + BitVec.ofNat 64 (8 * vs.length)) us
  | sp, [], us => by simp [Stacked]
  | sp, v :: vs, us => by
    have haddr : sp + BitVec.ofNat 64 (8 * (v :: vs).length) = sp + 8 + BitVec.ofNat 64 (8 * vs.length) := by
      rw [List.length_cons]
      bv_omega
    rw [List.cons_append, Stacked, Stacked, stacked_append, haddr, and_assoc]

/-! ## Machines in the midst of a body -/

/-- The registers that hold values only inside a construct. -/
def Reg.volatile : List Reg := [rax, rcx, rdx, rsi, rdi, r8, r9]

/-- The registers that the code of an expression has to leave alone. -/
def RegisterPool.Kept (pool : RegisterPool) (q : Reg) : Prop :=
  q = .rsp ∨ q = .rbp ∨ ∃ r : Scratch, pool.isLive r = true ∧ r.reg = q

section Running

variable {Ω : Type} {w : World Ω} {pool pool' : RegisterPool} {pushed room : Nat} {σ σ' : Store Ω}
  {s s' s'' : Machine Ω}

/-- The body of `w.function` is running with `pushed` values on the stack. The store is `σ` except for reserved bytes,
and the `room` bytes below the stack pointer are reserved. -/
structure Running (w : World Ω) (pushed room : Nat) (σ : Store Ω) (s : Machine Ω) : Prop where
  frame : s.regs .rbp = w.frame
  memory : ∀ a, w.reserved a = false → s.store.memory a = σ.memory a
  outside : s.store.outside = σ.outside
  aligned : ((s.regs .rsp).toNat + 8 * pushed) % 16 = 0
  fits : room ≤ 2 ^ 64
  room : ∀ a, Below (s.regs .rsp) room a → w.reserved a = true

/-- What straight code leaves alone on the way from `s` to `s'`. -/
structure Keeps (w : World Ω) (pool : RegisterPool) (room : Nat) (s s' : Machine Ω) : Prop where
  regs : ∀ q, pool.Kept q → s'.regs q = s.regs q
  stack : ∀ a, w.reserved a = true → ¬ Below (s.regs .rsp) room a → s'.store.memory a = s.store.memory a

theorem Scratch.reg_injective {r q : Scratch} (h : r.reg = q.reg) : r = q := by
  cases r <;> cases q <;> first | rfl | cases h

theorem Scratch.reg_ne_rsp (r : Scratch) : r.reg ≠ .rsp := by cases r <;> decide

theorem Scratch.reg_ne_rbp (r : Scratch) : r.reg ≠ .rbp := by cases r <;> decide

/-- A free register need not be kept. -/
theorem RegisterPool.Kept.ne_reg {q : Reg} {r : Scratch} (h : pool.Kept q) (hr : pool.isLive r = false) : q ≠ r.reg := by
  rcases h with rfl | rfl | ⟨p, hp, rfl⟩
  · exact r.reg_ne_rsp.symm
  · exact r.reg_ne_rbp.symm
  · intro heq
    rw [Scratch.reg_injective heq, hr] at hp
    cases hp

theorem Scratch.reg_not_volatile (r : Scratch) : r.reg ∉ Reg.volatile := by cases r <;> decide

theorem RegisterPool.Kept.not_volatile {q : Reg} (h : pool.Kept q) : q ∉ Reg.volatile := by
  rcases h with rfl | rfl | ⟨r, -, rfl⟩
  · decide
  · decide
  · exact r.reg_not_volatile

theorem Keeps.refl (s : Machine Ω) : Keeps w pool room s s := ⟨fun _ _ => rfl, fun _ _ _ => rfl⟩

/-- Code after code; the second part may have more registers to keep. -/
theorem Keeps.trans (h : Keeps w pool room s s') (h' : Keeps w pool' room s' s'')
    (hpool : ∀ q, pool.Kept q → pool'.Kept q) : Keeps w pool room s s'' := by
  have hsp : s'.regs .rsp = s.regs .rsp := h.regs .rsp (.inl rfl)
  refine ⟨fun q hq => (h'.regs q (hpool q hq)).trans (h.regs q hq), fun a ha hb => ?_⟩
  rw [h'.stack a ha (by rw [hsp]; exact hb), h.stack a ha hb]

/-- Code that needs less room leaves more alone. -/
theorem Keeps.mono {n : Nat} (h : Keeps w pool n s s') (hle : n ≤ room) : Keeps w pool room s s' :=
  ⟨h.regs, fun a ha hb => h.stack a ha fun hbelow => hb (hbelow.mono hle)⟩

theorem RegisterPool.Kept.set {q : Reg} {r : Scratch} (h : pool.Kept q) : (pool.set true r).Kept q := by
  rcases h with h | h | ⟨p, hp, hq⟩
  · exact .inl h
  · exact .inr (.inl h)
  · exact .inr (.inr ⟨p, by rw [isLive_set, hp]; split <;> rfl, hq⟩)

theorem RegisterPool.kept_set (pool : RegisterPool) (r : Scratch) : (pool.set true r).Kept r.reg :=
  .inr (.inr ⟨r, by simp, rfl⟩)

/-- Only registers that need not be kept have changed. -/
theorem Keeps.of_regs (hregs : ∀ q, pool.Kept q → s'.regs q = s.regs q) (hstore : s'.store = s.store) :
    Keeps w pool room s s' := ⟨hregs, fun _ _ _ => by rw [hstore]⟩

theorem Running.of_keeps (h : Running w pushed room σ s) (hk : Keeps w pool room s s')
    (hmemory : ∀ a, w.reserved a = false → s'.store.memory a = σ'.memory a)
    (houtside : s'.store.outside = σ'.outside) : Running w pushed room σ' s' := by
  have hsp : s'.regs .rsp = s.regs .rsp := hk.regs .rsp (.inl rfl)
  exact ⟨(hk.regs .rbp (.inr (.inl rfl))).trans h.frame, hmemory, houtside, by rw [hsp]; exact h.aligned, h.fits,
    by rw [hsp]; exact h.room⟩

/-- The store is the same. -/
theorem Running.of_store (h : Running w pushed room σ s) (hk : Keeps w pool room s s') (hstore : s'.store = s.store) :
    Running w pushed room σ s' := h.of_keeps hk (by rw [hstore]; exact h.memory) (by rw [hstore]; exact h.outside)

/-! ## Memory that the program reaches -/

/-- A byte that is reserved is not among bytes that are clear. -/
theorem World.Clear.le_of_reserved {a b : Word} {n : Nat} (hc : w.Clear a n) (hb : w.reserved b = true) :
    n ≤ (b - a).toNat := by
  rcases Nat.lt_or_ge (b - a).toNat n with hlt | hge
  · have haddr : a + BitVec.ofNat 64 (b - a).toNat = b := by
      rw [BitVec.ofNat_toNat, BitVec.setWidth_eq]
      bv_omega
    have hfree := hc _ hlt
    rw [haddr, hb] at hfree
    cases hfree
  · exact hge

/-- What is clear is read from the store. -/
theorem Running.read (h : Running w pushed room σ s) {a : Word} {n : Nat} (hc : w.Clear a n) :
    s.read a n = σ.memory.read a n := Memory.read_congr fun i hi => h.memory _ (hc i hi)

/-- What is clear is written to the store. -/
theorem Running.write (h : Running w pushed room σ s) {a : Word} {n : Nat} (hc : w.Clear a n) (v : Word) :
    Keeps w pool room s (s.write a n v) ∧
      Running w pushed room (σ.withMemory (σ.memory.write a n v)) (s.write a n v) := by
  have hk : Keeps w pool room s (s.write a n v) :=
    ⟨fun _ _ => rfl, fun b hb _ => Memory.write_of_ge (hc.le_of_reserved hb)⟩
  refine ⟨hk, h.of_keeps hk (fun b hb => ?_) h.outside⟩
  have hsame := h.memory b hb
  simp only [Machine.memory_write, Store.withMemory, Memory.write]
  split
  · rfl
  · exact hsame

end Running

/-! ## Pushing and popping -/

namespace Machine

variable {Ω : Type}

/-- The machine after `v` has been pushed. -/
def push (s : Machine Ω) (v : Word) : Machine Ω := (s.write (s.regs .rsp - 8) 8 v).set .rsp (s.regs .rsp - 8)

/-- The machine after a value has been popped. -/
def pop (s : Machine Ω) (r : Reg) : Machine Ω := (s.set .rsp (s.regs .rsp + 8)).set r (s.read (s.regs .rsp) 8)

@[simp] theorem rsp_push (s : Machine Ω) (v : Word) : (s.push v).regs .rsp = s.regs .rsp - 8 := rfl

theorem regs_push (s : Machine Ω) (v : Word) {q : Reg} (hq : q ≠ .rsp) : (s.push v).regs q = s.regs q := if_neg hq

theorem regs_pop (s : Machine Ω) {r q : Reg} (hq : q ≠ .rsp) (hr : q ≠ r) : (s.pop r).regs q = s.regs q := by
  simp [pop, hq, hr]

theorem rsp_pop (s : Machine Ω) {r : Reg} (hr : r ≠ .rsp) : (s.pop r).regs .rsp = s.regs .rsp + 8 := by
  simp [pop, hr.symm]

@[simp] theorem store_pop (s : Machine Ω) (r : Reg) : (s.pop r).store = s.store := rfl

/-- A push changes the eight bytes below the stack pointer. -/
theorem memory_push (s : Machine Ω) (v : Word) {a : Word} (ha : ¬ Below (s.regs .rsp) 8 a) :
    (s.push v).store.memory a = s.store.memory a := by
  refine Memory.write_of_ge ?_
  rcases Nat.lt_or_ge (a - (s.regs .rsp - 8)).toNat 8 with hlt | hge
  · exact absurd (below_of_push hlt) ha
  · exact hge

theorem read_push (s : Machine Ω) (v : Word) : (s.push v).store.memory.read (s.regs .rsp - 8) 8 = v :=
  Memory.read_write s.store.memory (s.regs .rsp - 8) v .quad

end Machine

section Stack

variable {Ω : Type} {w : World Ω} {link : Linkage} {callees : Callees Ω} {pool : RegisterPool} {pushed room : Nat}
  {σ : Store Ω} {s s' : Machine Ω}

/-- What is below a stack pointer that was moved down is below it. -/
theorem Below.of_lowered {sp a : Word} {n : Nat} (h : Below (sp - 8) (n - 8) a) (hle : 8 ≤ n) (hfits : n ≤ 2 ^ 64) :
    Below sp n a := by
  have hup := Below.lift (k := 8) h (by omega)
  rwa [Nat.sub_add_cancel hle] at hup

/-- The stack pointer moves down by a word. -/
theorem Running.lowered (h : Running w pushed room σ s) (hroom : 8 ≤ room) (hsp : s'.regs .rsp = s.regs .rsp - 8)
    (hbp : s'.regs .rbp = s.regs .rbp)
    (hmemory : ∀ a, ¬ Below (s.regs .rsp) 8 a → s'.store.memory a = s.store.memory a)
    (houtside : s'.store.outside = s.store.outside) : Running w (pushed + 1) (room - 8) σ s' := by
  have hfits := h.fits
  have haligned := h.aligned
  refine ⟨hbp.trans h.frame, fun a ha => ?_, houtside.trans h.outside, ?_, by omega, fun a ha => ?_⟩
  · rw [hmemory a]
    · exact h.memory a ha
    · intro hb
      rw [h.room a (hb.mono hroom)] at ha
      cases ha
  · rw [hsp]
    bv_omega
  · rw [hsp] at ha
    exact h.room a (ha.of_lowered hroom hfits)

theorem Running.push (h : Running w pushed room σ s) (v : Word) (hroom : 8 ≤ room) :
    Running w (pushed + 1) (room - 8) σ (s.push v) :=
  h.lowered hroom rfl (s.regs_push v (by decide)) (fun _ ha => s.memory_push v ha) rfl

/-- The words `vs` are on the stack, in reserved bytes, with `room` bytes below them. -/
structure Held (w : World Ω) (room : Nat) (vs : List Word) (s : Machine Ω) : Prop where
  values : Stacked s.store.memory (s.regs .rsp) vs
  reserved : ∀ i, i < 8 * vs.length → w.reserved (s.regs .rsp + BitVec.ofNat 64 i) = true
  fits : room + 8 * vs.length ≤ 2 ^ 64

theorem Running.held (h : Running w pushed room σ s) : Held w room [] s := ⟨trivial, fun _ hi => absurd hi (by simp), h.fits⟩

/-- Straight code leaves what is on the stack alone. -/
theorem Held.keeps {vs : List Word} (h : Held w room vs s) (hk : Keeps w pool room s s') : Held w room vs s' := by
  have hfits := h.fits
  have hsp : s'.regs .rsp = s.regs .rsp := hk.regs .rsp (.inl rfl)
  refine ⟨?_, by rw [hsp]; exact h.reserved, h.fits⟩
  rw [hsp]
  exact h.values.congr fun i hi => hk.stack _ (h.reserved i hi) (not_below_add (by omega))

theorem Held.push {vs : List Word} (h : Held w room vs s) (hrunning : Running w pushed room σ s) (v : Word)
    (hroom : 8 ≤ room) : Held w (room - 8) (v :: vs) (s.push v) := by
  have hfits := h.fits
  refine ⟨⟨s.read_push v, ?_⟩, fun i hi => ?_, by rw [List.length_cons]; omega⟩
  · rw [Machine.rsp_push, show s.regs .rsp - 8 + 8 = s.regs .rsp by bv_omega]
    exact h.values.congr fun i hi => s.memory_push v (not_below_add (by omega))
  · rw [List.length_cons] at hi
    rw [Machine.rsp_push]
    rcases Nat.lt_or_ge i 8 with hlt | hge
    · refine hrunning.room _ (Below.mono (below_of_push ?_) hroom)
      bv_omega
    · have haddr : s.regs .rsp - 8 + BitVec.ofNat 64 i = s.regs .rsp + BitVec.ofNat 64 (i - 8) := by bv_omega
      rw [haddr]
      exact h.reserved (i - 8) (by omega)

variable (link callees)

/-- Registers are pushed one after another, so the last one ends up on top. -/
theorem pushAll_runs : ∀ {rs : List Reg} {vs : List Word} {pushed room : Nat} {s : Machine Ω}, .rsp ∉ rs →
    Running w pushed room σ s → Held w room vs s → 8 * rs.length ≤ room →
    ∃ s', run link callees (rs.map .push) s = some s' ∧ Running w (pushed + rs.length) (room - 8 * rs.length) σ s' ∧
      s'.regs .rsp = s.regs .rsp - BitVec.ofNat 64 (8 * rs.length) ∧ (∀ q, q ≠ .rsp → s'.regs q = s.regs q) ∧
      Held w (room - 8 * rs.length) (rs.reverse.map s.regs ++ vs) s' ∧
      ∀ a, ¬ Below (s.regs .rsp) room a → s'.store.memory a = s.store.memory a
  | [], vs, pushed, room, s, _, h, hheld, _ => ⟨s, rfl, h, by simp, fun _ _ => rfl, hheld, fun _ _ => rfl⟩
  | r :: rs, vs, pushed, room, s, hrsp, h, hheld, hroom => by
    rw [List.length_cons] at hroom
    have hfits := h.fits
    obtain ⟨s', hrun, hrunning, hsp, hregs, hstacked, hmem⟩ :=
      pushAll_runs (fun hmem => hrsp (List.mem_cons_of_mem _ hmem)) (h.push (s.regs r) (by omega))
        (hheld.push h (s.regs r) (by omega)) (by omega)
    have hcount : room - 8 - 8 * rs.length = room - 8 * (rs.length + 1) := by omega
    rw [hcount] at hrunning hstacked
    refine ⟨s', hrun, ?_, ?_, fun q hq => ?_, ?_, fun a ha => ?_⟩
    · rwa [Nat.add_assoc, Nat.add_comm 1] at hrunning
    · rw [hsp, Machine.rsp_push, List.length_cons]
      bv_omega
    · rw [hregs q hq, s.regs_push _ hq]
    · have hmap : rs.reverse.map (s.push (s.regs r)).regs = rs.reverse.map s.regs := by
        refine List.map_congr_left fun q hq => s.regs_push _ fun heq => hrsp ?_
        exact List.mem_cons_of_mem _ (heq ▸ List.mem_reverse.1 hq)
      rw [hmap] at hstacked
      simpa using hstacked
    · rw [hmem a fun hb => ha (hb.of_lowered (by omega) hfits), s.memory_push _ fun hb => ha (hb.mono (by omega))]

/-- Values are popped from the top down. -/
theorem popAll_runs : ∀ {rs : List Reg} {vs : List Word} {s : Machine Ω}, rs.Nodup → .rsp ∉ rs →
    vs.length = rs.length → Stacked s.store.memory (s.regs .rsp) vs →
    ∃ s', run link callees (rs.map .pop) s = some s' ∧ s'.store = s.store ∧
      s'.regs .rsp = s.regs .rsp + BitVec.ofNat 64 (8 * rs.length) ∧ rs.map s'.regs = vs ∧
      ∀ q, q ≠ .rsp → q ∉ rs → s'.regs q = s.regs q
  | [], [], s, _, _, _, _ => ⟨s, rfl, rfl, by simp, rfl, fun _ _ _ => rfl⟩
  | r :: rs, v :: vs, s, hnodup, hrsp, hlength, hvs => by
    have hr : r ≠ .rsp := fun heq => hrsp (heq ▸ List.mem_cons_self)
    obtain ⟨hfresh, hnodup⟩ := List.nodup_cons.1 hnodup
    obtain ⟨s', hrun, hstore, hsp, hvalues, hregs⟩ :=
      popAll_runs (s := s.pop r) hnodup (fun hmem => hrsp (List.mem_cons_of_mem _ hmem)) (Nat.succ.inj hlength)
        (by rw [s.rsp_pop hr]; exact hvs.2)
    refine ⟨s', hrun, hstore, ?_, ?_, fun q hq hmem => ?_⟩
    · rw [hsp, s.rsp_pop hr, List.length_cons]
      bv_omega
    · rw [List.map_cons, hvalues, hregs r hr hfresh]
      have hpop : (s.pop r).regs r = s.read (s.regs .rsp) 8 := by simp [Machine.pop]
      rw [hpop]
      exact congrArg (· :: vs) hvs.1
    · rw [hregs q hq fun h => hmem (List.mem_cons_of_mem _ h), s.regs_pop hq fun heq => hmem (heq ▸ List.mem_cons_self)]

end Stack

end MiniC
