import MiniC.Proofs.Machine

/-!
# Memory effects

What code does to memory, one access after another, with the addresses, the widths and the values: `effects` of a list of
instructions, up to the end or to an instruction that traps. What a call does to memory is its own affair, so it counts
as one effect, with the machine that the callee finds.

* `exec_effects`, `run_effects`: the store after code is the store before it with the effects of the code carried out,
  so code with the same effects leaves the same store.
-/

namespace MiniC

/-- An access to memory, or a call. -/
inductive Effect (Ω : Type) where
  | read (a : Word) (n : Nat)
  | write (a : Word) (n : Nat) (v : Word)
  | call (name : String) (s : Machine Ω)

section Effects

variable {Ω : Type} (link : Linkage) (callees : Callees Ω)

/-- The store after an effect. -/
def Effect.apply (σ : Store Ω) : Effect Ω → Option (Store Ω)
  | read .. => some σ
  | write a n v => some { σ with memory := σ.memory.write a n v }
  | call name s => (callees name s).map (·.store)

/-- What one instruction does to memory. -/
def Instr.effects (s : Machine Ω) : Instr → List (Effect Ω)
  | push src => [.write (s.regs .rsp - 8) 8 (s.regs src)]
  | pop _ => [.read (s.regs .rsp) 8]
  | load width src _ => [.read (src.address link s) width.bytes]
  | store width src dst => [.write (dst.address link s) width.bytes (s.regs src)]
  | update direction width value dst =>
    let a := dst.address link s
    [.read a width.bytes, .write a width.bytes (direction.move (s.read a width.bytes) (.ofNat 64 value))]
  | call name => [.call name s]
  | _ => []

/-- What instructions one after another do to memory. -/
def effects : List Instr → Machine Ω → List (Effect Ω)
  | [], _ => []
  | i :: code, s => i.effects link s ++ ((i.exec link callees s).map (effects code)).getD []

variable {link callees} {s s' : Machine Ω} {code code' : List Instr}

theorem effects_append (code code' : List Instr) (s : Machine Ω) :
    effects link callees (code ++ code') s =
      effects link callees code s ++ ((run link callees code s).map (effects link callees code')).getD [] := by
  induction code generalizing s with
  | nil => rfl
  | cons i code ih =>
    rw [List.cons_append, effects, effects, run, List.append_assoc]
    cases i.exec link callees s with
    | none => rfl
    | some s₁ =>
      rw [Option.map_some, Option.getD_some, ih]
      rfl

/-- An instruction changes the store by its effects only. -/
theorem exec_effects {i : Instr} (h : i.exec link callees s = some s') :
    (i.effects link s).foldlM (Effect.apply callees) s.store = some s'.store := by
  cases i with
  | call name =>
    rw [Instr.exec] at h
    simp [Instr.effects, Effect.apply, h]
  | idiv divisor =>
    simp only [Instr.exec, divide?] at h
    split at h
    · cases h
    split at h
    · cases h
      rfl
    · cases h
  | set cond dst =>
    obtain ⟨flags, -, rfl⟩ := Option.map_eq_some_iff.1 h
    rfl
  | jump | jumpIf | ret => cases h
  | _ =>
    cases h
    rfl

/-- **Effects.** Code changes the store by its effects only. -/
theorem run_effects (h : run link callees code s = some s') :
    (effects link callees code s).foldlM (Effect.apply callees) s.store = some s'.store := by
  induction code generalizing s with
  | nil =>
    cases h
    rfl
  | cons i code ih =>
    obtain ⟨s₁, hi, hcode⟩ := Option.bind_eq_some_iff.1 h
    rw [effects, List.foldlM_append, exec_effects hi, hi]
    exact ih hcode

end Effects

end MiniC
