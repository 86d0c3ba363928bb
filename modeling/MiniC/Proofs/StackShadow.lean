import Mathlib.Data.List.Forall2
import MiniC.Proofs.LabelUse

/-!
# What stands on the stack

The text of a function tells what stands on its stack: what was pushed and not popped, and the room that was made. The
shadow of the stack (`Shadow`) is that account, and `Instr.shadow` keeps it. It is strict: a register other than those that
pass arguments may be popped only where its own value lies, room is given back as it was made, nothing else touches the
stack and frame pointers, and a function returns with nothing left.

* `Code.scans`: the code of an expression keeps the account, leaves it as it found it, and calls with the stack aligned.
* `StmtCode.scans`: so does the code of a statement, and at its labels and jumps nothing of an expression is left.
* `function_scans`: from the name of a function to its return.
-/

namespace MiniC

/-! ## Shadows -/

/-- What stands on the stack of a function. -/
inductive Outstanding where
  /-- The value that a register had. -/
  | saved (r : Reg)
  /-- Bytes that room was made for. -/
  | room (bytes : Int)
  deriving DecidableEq

def Outstanding.bytes : Outstanding → Int
  | saved _ => 8
  | room bytes => bytes

/-- The bytes that all of it takes. -/
def outstandingBytes : List Outstanding → Int
  | [] => 0
  | x :: held => x.bytes + outstandingBytes held

/-- What stands on the stack below the return address. -/
@[ext] structure Shadow where
  /-- The top comes first. -/
  held : List Outstanding := []
  /-- What was held when the frame pointer was set, if it has been. -/
  base : Option (List Outstanding) := none

namespace Shadow

/-- How far the stack pointer is below the return address. -/
def bytes (σ : Shadow) : Int := outstandingBytes σ.held

/-- The values of registers on top, the last one pushed first. -/
def saving (σ : Shadow) (rs : List Reg) : Shadow := { σ with held := rs.map .saved ++ σ.held }

/-- Room on top. -/
def making (σ : Shadow) (bytes : Int) : Shadow := { σ with held := .room bytes :: σ.held }

variable (σ : Shadow)

@[simp] theorem saving_nil : σ.saving [] = σ := rfl

@[simp] theorem saving_saving (rs qs : List Reg) : (σ.saving qs).saving rs = σ.saving (rs ++ qs) := by
  simp [saving]

@[simp] theorem bytes_saving (rs : List Reg) : (σ.saving rs).bytes = σ.bytes + 8 * rs.length := by
  induction rs with
  | nil => exact (Int.add_zero _).symm
  | cons r rs ih =>
    have hcons : (σ.saving (r :: rs)).bytes = 8 + (σ.saving rs).bytes := rfl
    rw [hcons, ih, List.length_cons]
    omega

@[simp] theorem bytes_making (bytes : Int) : (σ.making bytes).bytes = σ.bytes + bytes := Int.add_comm _ _

theorem suffix_saving (rs : List Reg) : σ.held <:+ (σ.saving rs).held := List.suffix_append _ _

theorem suffix_making (bytes : Int) : σ.held <:+ (σ.making bytes).held := List.suffix_cons _ _

end Shadow

/-- The register that an instruction names as its target. -/
def Instr.target? : Instr → Option Reg
  | pop dst | mov _ dst | movLong _ dst | zeroExtendLong _ dst | zeroExtend _ dst | signExtend _ dst | movImm _ dst
  | lea _ dst | load _ _ dst | alu _ _ dst | aluImm _ _ dst | neg dst | shiftImm _ dst | shift _ dst | set _ dst => some dst
  | _ => none

/-- The value that `src` had may be popped into `dst`: it comes back to its register, or it is passed as an argument. -/
def Reg.Restores (dst src : Reg) : Prop := dst ∈ arguments ∨ dst = src ∧ dst ≠ .rsp

instance (dst src : Reg) : Decidable (dst.Restores src) := inferInstanceAs (Decidable (_ ∨ _))

/-- What an instruction does to the shadow, if it keeps the account. -/
def Instr.shadow (σ : Shadow) : Instr → Option Shadow
  | push src => some (σ.saving [src])
  | pop dst =>
    match σ.held with
    | .saved src :: held =>
      -- The frame pointer is that of the caller again.
      if dst.Restores src then some { held, base := if dst = .rbp then none else σ.base } else none
    | _ => none
  | aluImm .sub bytes .rsp => some (σ.making bytes)
  | aluImm .add bytes .rsp =>
    match σ.held with
    | .room made :: held => if made = bytes then some { σ with held } else none
    | _ => none
  | mov .rsp .rbp => some { σ with base := some σ.held }
  | mov .rbp .rsp => σ.base.bind fun held => if held <:+ σ.held then some { σ with held } else none
  | ret => if σ.held = [] then some σ else none
  | i => if i.target? = some .rsp ∨ i.target? = some .rbp then none else some σ

/-- What a line does to the shadow. -/
def Line.shadow (σ : Shadow) : Line → Option Shadow
  | .instr i => i.shadow σ
  | _ => some σ

/-- The shadow after lines one after another. -/
def shadowAfter (lines : List Line) (σ : Shadow) : Option Shadow := lines.foldlM Line.shadow σ

/-! ## Lines that keep the account -/

/-- The lines lead from `σ` to `σ'`, and before each of them `ok` holds. -/
def Scans (ok : Line → Shadow → Prop) : List Line → Shadow → Shadow → Prop
  | [], σ, σ' => σ = σ'
  | line :: lines, σ, σ' => ok line σ ∧ ∃ σ₁, line.shadow σ = some σ₁ ∧ Scans ok lines σ₁ σ'

section Scans

variable {ok ok' : Line → Shadow → Prop} {lines lines' : List Line} {σ σ₁ σ' : Shadow}

theorem Scans.append (h : Scans ok lines σ σ₁) (h' : Scans ok lines' σ₁ σ') : Scans ok (lines ++ lines') σ σ' := by
  induction lines generalizing σ with
  | nil =>
    cases h
    exact h'
  | cons line lines ih =>
    obtain ⟨hok, σ₂, hline, hlines⟩ := h
    exact ⟨hok, σ₂, hline, ih hlines⟩

theorem Scans.mono (h : Scans ok lines σ σ') (hok : ∀ line ∈ lines, ∀ σ, ok line σ → ok' line σ) :
    Scans ok' lines σ σ' := by
  induction lines generalizing σ with
  | nil => exact h
  | cons line lines ih =>
    obtain ⟨hline, σ₁, hstep, hlines⟩ := h
    exact ⟨hok line List.mem_cons_self σ hline, σ₁, hstep, ih hlines fun l hl => hok l (List.mem_cons_of_mem _ hl)⟩

/-- At each place the lines before it tell the shadow, and the lines from it on go on from there. -/
theorem Scans.split (h : Scans ok (lines ++ lines') σ σ') :
    ∃ σ₁, shadowAfter lines σ = some σ₁ ∧ Scans ok lines' σ₁ σ' := by
  induction lines generalizing σ with
  | nil => exact ⟨σ, rfl, h⟩
  | cons line lines ih =>
    obtain ⟨-, σ₁, hline, hlines⟩ := h
    obtain ⟨σ₂, hafter, hrest⟩ := ih hlines
    refine ⟨σ₂, ?_, hrest⟩
    rw [shadowAfter, List.foldlM_cons, hline]
    exact hafter

theorem Scans.after (h : Scans ok lines σ σ') : shadowAfter lines σ = some σ' := by
  rw [← List.append_nil lines] at h
  obtain ⟨σ₁, hafter, hnil⟩ := h.split
  cases hnil
  exact hafter

theorem shadowAfter_append (lines lines' : List Line) (σ : Shadow) :
    shadowAfter (lines ++ lines') σ = (shadowAfter lines σ).bind (shadowAfter lines') := List.foldlM_append

end Scans

/-! ## Instructions that leave the stack alone -/

/-- Whether an instruction leaves the stack and frame pointers alone, and neither jumps nor calls. -/
def Instr.calm : Instr → Bool
  | push _ | pop _ | jump _ | jumpIf _ _ | call _ | ret => false
  | i => i.target? != some .rsp && i.target? != some .rbp

theorem shadow_of_calm {i : Instr} (h : i.calm = true) (σ : Shadow) : i.shadow σ = some σ := by
  have hother : i.target? ≠ some .rsp ∧ i.target? ≠ some .rbp := by
    cases i <;> simp_all [Instr.calm, Instr.target?]
  cases i with
  | push | pop | jump | jumpIf | call | ret => cases h
  | mov src dst | aluImm op value dst =>
    unfold Instr.shadow
    split <;> simp_all [Instr.target?]
  | _ =>
    simp only [Instr.shadow]
    exact if_neg (not_or.2 hother)

section Calm

variable {ok : Line → Shadow → Prop} {code : List Instr} {σ : Shadow}

theorem scans_calm (h : ∀ i ∈ code, i.calm = true) (hok : ∀ i ∈ code, ok (.instr i) σ) :
    Scans ok (instrLines code) σ σ := by
  induction code with
  | nil => rfl
  | cons i code ih =>
    simp only [List.forall_mem_cons] at h hok
    exact ⟨hok.1, σ, shadow_of_calm h.1 σ, ih h.2 hok.2⟩

theorem calm_of_computing (h : ∀ i ∈ code, i.computing = true) : ∀ i ∈ code, i.calm = true := by
  intro i hi
  have hcomputing := h i hi
  cases i with
  | push | pop | lea | load | store | update | jump | jumpIf | call | ret => cases hcomputing
  | cqo | idiv | cmp | cmpZero => rfl
  | _ => simpa [Instr.calm, Instr.target?, Instr.computing] using hcomputing

end Calm

/-! ## Pushes and pops -/

section Moves

variable {ok : Line → Shadow → Prop} {σ : Shadow}

/-- Registers are pushed one by one; the last one comes to lie on top. -/
theorem scans_pushes (hok : ∀ r qs, ok (.instr (.push r)) (σ.saving qs)) : ∀ (rs : List Scratch) (qs : List Reg),
    Scans ok (instrLines (rs.map (.push ·.reg))) (σ.saving qs) (σ.saving ((rs.map Scratch.reg).reverse ++ qs))
  | [], _ => rfl
  | r :: rs, qs => by
    refine ⟨hok _ _, σ.saving (r.reg :: qs), rfl, ?_⟩
    have hrest := scans_pushes hok rs (r.reg :: qs)
    rw [List.map_cons, List.reverse_cons, List.append_assoc]
    exact hrest

/-- What was pushed is popped again, each value into a register that may take it. -/
theorem scans_pops (hok : ∀ r qs, ok (.instr (.pop r)) (σ.saving qs)) : ∀ {targets sources : List Reg},
    .rbp ∉ targets → List.Forall₂ Reg.Restores targets sources →
    Scans ok (instrLines (targets.map .pop)) (σ.saving sources) σ
  | [], _, _, .nil => rfl
  | target :: targets, source :: sources, hbp, .cons hrestores hrest => by
    rw [List.mem_cons, not_or] at hbp
    refine ⟨hok _ _, σ.saving sources, ?_, scans_pops hok hbp.2 hrest⟩
    show (if target.Restores source then some _ else none) = some _
    rw [if_pos hrestores, if_neg (Ne.symm hbp.1)]
    rfl

/-- Every register comes back to where it was. -/
theorem restores_self (rs : List Scratch) : List.Forall₂ Reg.Restores (rs.map Scratch.reg) (rs.map Scratch.reg) := by
  rw [List.forall₂_map_left_iff, List.forall₂_map_right_iff, List.forall₂_same]
  exact fun r _ => .inr ⟨rfl, r.reg_ne_rsp⟩

/-- Arguments are passed in registers that hold nothing. -/
theorem restores_arguments {targets sources : List Reg} (hargs : ∀ r ∈ targets, r ∈ Reg.arguments)
    (hlength : targets.length = sources.length) : List.Forall₂ Reg.Restores targets sources := by
  refine List.forall₂_iff_get.2 ⟨hlength, fun i h _ => .inl (hargs _ (List.get_mem _ _))⟩

end Moves

/-! ## Expressions -/

/-- Before `line` all of `σ` is on the stack, when `pushed` values were pushed on it since it was aligned; a call is made
with the stack aligned. -/
structure Within (σ : Shadow) (pushed : Nat) (line : Line) (σ' : Shadow) : Prop where
  above : σ.held <:+ σ'.held
  aligned : ∀ name, line = .instr (.call name) → (8 * pushed + (σ'.bytes - σ.bytes)) % 16 = 0

/-- What a piece of code leaves on the stack: nothing of a value, and the values of arguments. -/
def Task.Leaves (σ σ' : Shadow) : Task → Prop
  | value _ => σ = σ'
  | push args => ∃ regs : List Reg, regs.length = args.length ∧ σ' = σ.saving regs

section Expressions

variable {t : SymbolTable} {f : String} {pool : RegisterPool} {pushed target : Nat} {task : Task} {r? : Option Scratch}
  {code : List Instr} {σ σ' σ₁ : Shadow} {line : Line}

theorem Within.here (hline : ∀ name, line ≠ .instr (.call name)) : Within σ pushed line σ :=
  ⟨List.suffix_rfl, fun name h => absurd h (hline name)⟩

theorem Within.saving (hline : ∀ name, line ≠ .instr (.call name)) (rs : List Reg) :
    Within σ pushed line (σ.saving rs) := ⟨σ.suffix_saving rs, fun name h => absurd h (hline name)⟩

/-- What is pushed for a part of an expression lies on what was pushed before. -/
theorem Within.lift (rs : List Reg) (h : Within (σ.saving rs) (pushed + rs.length) line σ') : Within σ pushed line σ' := by
  refine ⟨(σ.suffix_saving rs).trans h.above, fun name hcall => ?_⟩
  have haligned := h.aligned name hcall
  rw [Shadow.bytes_saving] at haligned
  omega

theorem calm_ne_call {i : Instr} (h : i.calm = true) (name : String) : Line.instr i ≠ .instr (.call name) := by
  rintro ⟨⟩
  cases h

theorem scans_of_calm (h : ∀ i ∈ code, i.calm = true) : Scans (Within σ pushed) (instrLines code) σ σ :=
  scans_calm h fun i hi => .here (calm_ne_call (h i hi))

/-- A call is made with the stack aligned, and the room made for that is given back. -/
theorem scans_padded (pushed : Nat) (name : String) (σ : Shadow) :
    Scans (Within σ pushed) (instrLines (padded pushed name)) σ σ := by
  unfold padded
  split
  · refine ⟨.here (by simp), σ.making 8, rfl, ⟨σ.suffix_making 8, fun _ _ => ?_⟩, σ.making 8, rfl, ?_⟩
    · rw [Shadow.bytes_making]
      omega
    · exact ⟨⟨σ.suffix_making 8, by simp⟩, σ, rfl, rfl⟩
  · refine ⟨⟨List.suffix_rfl, fun _ _ => ?_⟩, σ, rfl, rfl⟩
    omega

/-- The values of arguments are pushed and popped into the registers that pass them. -/
theorem scans_arguments {args : List Expr} (limit : args.length ≤ Typing.maxParams)
    (hargs : ∃ σ', Scans (Within σ pushed) (instrLines code) σ σ' ∧ (Task.push args).Leaves σ σ') :
    Scans (Within σ pushed) (instrLines (code ++ (Reg.arguments.take args.length).reverse.map .pop)) σ σ := by
  obtain ⟨_, hscan, regs, hregs, rfl⟩ := hargs
  have htake : ∀ r ∈ (Reg.arguments.take args.length).reverse, r ∈ Reg.arguments := fun r hr =>
    List.mem_of_mem_take (List.mem_reverse.1 hr)
  have hlength : (Reg.arguments.take args.length).reverse.length = regs.length := by
    rw [List.length_reverse, List.length_take, hregs]
    exact Nat.min_eq_left limit
  rw [instrLines_append]
  exact hscan.append (scans_pops (fun _ _ => .saving (by simp) _) (fun hbp => absurd (htake _ hbp) (by decide))
    (restores_arguments htake hlength))

/-- **Expressions.** The code of an expression keeps the account of the stack. -/
theorem Code.scans (h : Code t f pool pushed task r? code) (σ : Shadow) :
    ∃ σ', Scans (Within σ pushed) (instrLines code) σ σ' ∧ task.Leaves σ σ' := by
  induction h generalizing σ with
  | @number pool pushed info value r | @string pool pushed info label bytes r | @array pool pushed info name scope s place r
  | @scalar pool pushed info name scope s place r | @addressOf pool pushed info operand name scope place r
  | @stepBefore pool pushed info operand direction name scope s place r
  | @stepAfter pool pushed info operand direction name scope s place r =>
    exact ⟨σ, scans_of_calm (by simp [Instr.calm, Instr.target?, r.reg_ne_rsp, r.reg_ne_rbp]), rfl⟩
  | @deref pool pushed info operand r code _ ih | @negate pool pushed info operand r code _ ih
  | @not pool pushed info operand r code _ ih | @assignName pool pushed info left name scope s right place r code _ _ _ _ ih =>
    obtain ⟨_, hscan, rfl⟩ := ih σ
    rw [instrLines_append]
    exact ⟨_, hscan.append (scans_of_calm (by simp [Instr.calm, Instr.target?, r.reg_ne_rsp, r.reg_ne_rbp])), rfl⟩
  | widen _ ih => exact ih σ
  | scale _ ih =>
    obtain ⟨_, hscan, rfl⟩ := ih σ
    rw [instrLines_append]
    exact ⟨_, hscan.append (scans_of_calm (calm_of_computing (computing_scaling _ _))), rfl⟩
  | assignAt _ _ ih ih' =>
    obtain ⟨_, hscan, rfl⟩ := ih σ
    obtain ⟨_, hscan', rfl⟩ := ih' σ
    rw [instrLines_append, instrLines_append]
    exact ⟨_, hscan.append (hscan'.append (scans_of_calm (by simp [Instr.calm, Instr.target?]))), rfl⟩
  | arithmetic _ _ _ ih ih' =>
    obtain ⟨_, hscan, rfl⟩ := ih σ
    obtain ⟨_, hscan', rfl⟩ := ih' σ
    rw [instrLines_append, instrLines_append]
    exact ⟨_, hscan.append (hscan'.append (scans_of_calm (calm_of_computing (computing_instrs _ _ _)))), rfl⟩
  | @call pool pushed info name args r? code limit _ _ ih =>
    -- The live registers lie under everything that the arguments push.
    let saved := (pool.live.map Scratch.reg).reverse
    have hlength : saved.length = pool.live.length := by simp [saved]
    have hlift : ∀ {lines σ₁ σ₂}, Scans (Within (σ.saving saved) (pushed + pool.live.length)) lines σ₁ σ₂ →
        Scans (Within σ pushed) lines σ₁ σ₂ := fun h => h.mono fun _ _ _ hline => .lift saved (hlength ▸ hline)
    have hpush : Scans (Within σ pushed) (instrLines (pool.live.map (.push ·.reg))) σ (σ.saving saved) := by
      have hsave : Scans (Within σ pushed) _ σ _ := scans_pushes (fun _ _ => .saving (by simp) _) pool.live []
      rwa [List.append_nil] at hsave
    have hpop : Scans (Within σ pushed) (instrLines (pool.live.reverse.map (.pop ·.reg))) (σ.saving saved) σ := by
      have hback : Scans (Within σ pushed) _ (σ.saving (pool.live.reverse.map Scratch.reg)) σ :=
        scans_pops (fun _ _ => .saving (by simp) _) (by simp [Scratch.reg_ne_rbp]) (restores_self pool.live.reverse)
      rw [List.map_map, List.map_reverse (f := Scratch.reg)] at hback
      exact hback
    have hargs := hlift (scans_arguments limit (ih (σ.saving saved)))
    rw [instrLines_append] at hargs
    simp only [instrLines_append]
    rw [← List.append_assoc (instrLines code)]
    exact ⟨σ, hpush.append (hargs.append ((hlift (scans_padded _ _ _)).append
      (hpop.append (scans_of_calm (calm_of_computing (computing_taking _ _)))))), rfl⟩
  | pushNone => exact ⟨σ, rfl, [], rfl, rfl⟩
  | @pushMore pool pushed arg args r code code' _ _ ih ih' =>
    obtain ⟨_, hscan, rfl⟩ := ih σ
    obtain ⟨_, hrest, regs, hregs, rfl⟩ := ih' (_ : Shadow)
    rw [instrLines_append]
    refine ⟨_, hscan.append ⟨.here (by simp), _, rfl, hrest.mono fun _ _ _ hline => .lift [r.reg] hline⟩, regs ++ [r.reg], ?_, ?_⟩
    · simp [hregs]
    · rw [Shadow.saving_saving]

/-! ## Conditions -/

/-- Labels and jumps, where paths meet and part. -/
def Line.crossing : Line → Bool
  | .label _ => true
  | .instr i => i.jump?.isSome
  | _ => false

/-- Before `line` all of `σ₀` is on the stack; paths meet and part when nothing else is, and a call is made when what else
is there is a multiple of sixteen bytes. -/
structure Orderly (σ₀ : Shadow) (line : Line) (σ : Shadow) : Prop where
  above : σ₀.held <:+ σ.held
  level : line.crossing = true → σ = σ₀
  aligned : ∀ name, line = .instr (.call name) → (σ.bytes - σ₀.bytes) % 16 = 0

theorem Within.orderly (h : Within σ 0 line σ') (hline : line.crossing = false) : Orderly σ line σ' := by
  refine ⟨h.above, fun hcross => ?_, fun name hcall => ?_⟩
  · rw [hline] at hcross
    cases hcross
  · simpa using h.aligned name hcall

theorem orderly_here (hline : ∀ name, line ≠ .instr (.call name)) : Orderly σ line σ :=
  ⟨List.suffix_rfl, fun _ => rfl, fun name h => absurd h (hline name)⟩

theorem scans_orderly_calm (h : ∀ i ∈ code, i.calm = true) : Scans (Orderly σ) (instrLines code) σ σ :=
  scans_calm h fun i hi => orderly_here (calm_ne_call (h i hi))

theorem crossing_of_straight (h : ∀ i ∈ code, i.Straight) : ∀ line ∈ instrLines code, line.crossing = false := by
  intro line hline
  obtain ⟨i, hi, rfl⟩ := List.mem_map.1 hline
  rw [Line.crossing, (h i hi).1]
  rfl

/-- An expression whose code starts from what a statement leaves on the stack. -/
theorem Code.scans_orderly {e : Expr} (h : Code t f pool 0 (.value e) r? code) :
    Scans (Orderly σ) (instrLines code) σ σ := by
  obtain ⟨_, hscan, rfl⟩ := h.scans σ
  exact hscan.mono fun line hline _ hwithin => hwithin.orderly (crossing_of_straight h.straight line hline)

theorem scans_test {cmp : Instr} {cond : Cond} (h : cmp.calm = true) :
    Scans (Orderly σ) (instrLines [cmp, .jumpIf cond target]) σ σ :=
  ⟨orderly_here (calm_ne_call h), σ, shadow_of_calm h σ, orderly_here (by simp), σ, rfl, rfl⟩

theorem TestCode.scans {cond : Expr} (h : TestCode t f target cond code) : Scans (Orderly σ) (instrLines code) σ σ := by
  cases h with
  | comparison _ first second =>
    rw [instrLines_append, instrLines_append]
    exact first.scans_orderly.append (second.scans_orderly.append (scans_test rfl))
  | value value =>
    rw [instrLines_append]
    exact value.scans_orderly.append (scans_test rfl)

theorem AsideCode.scans {e : Option Expr} (h : AsideCode t f e code) : Scans (Orderly σ) (instrLines code) σ σ := by
  cases h with
  | none => rfl
  | some value => exact value.scans_orderly

theorem GuardCode.scans {e : Option Expr} (h : GuardCode t f target e code) :
    Scans (Orderly σ) (instrLines code) σ σ := by
  cases h with
  | none => rfl
  | some test => exact test.scans

end Expressions

/-! ## Statements -/

section Statements

variable {t : SymbolTable} {f : String} {ret : Ty} {exit n n' : Nat} {stmt : Stmt} {lines : List Line} {σ : Shadow}

theorem Scans.label (h : Scans (Orderly σ) lines σ σ) (n : Nat) : Scans (Orderly σ) (.label n :: lines) σ σ :=
  ⟨orderly_here (by simp), σ, rfl, h⟩

theorem Scans.jump (h : Scans (Orderly σ) lines σ σ) (n : Nat) : Scans (Orderly σ) (.instr (.jump n) :: lines) σ σ :=
  ⟨orderly_here (by simp), σ, rfl, h⟩

/-- **Statements.** The code of a statement keeps the account of the stack. -/
theorem StmtCode.scans (h : StmtCode t f ret exit n stmt lines n') : Scans (Orderly σ) (textLines true lines) σ σ := by
  have hnil : Scans (Orderly σ) [] σ σ := rfl
  induction h with
  | retNone => exact hnil.jump exit
  | varDecl | blockNil => exact hnil
  | @retValue n e r code value =>
    rw [(textLines_of_plain switches?_instrLines true).1, if_pos rfl, instrLines_append]
    have hnarrow : (Instr.narrow ret.width r.reg .rax).calm = true := by
      unfold Instr.narrow
      cases ret.width <;> rfl
    exact value.scans_orderly.append ⟨orderly_here (calm_ne_call hnarrow), σ, shadow_of_calm hnarrow σ, hnil.jump exit⟩
  | expr value =>
    rw [(textLines_of_plain switches?_instrLines true).1, if_pos rfl]
    exact value.scans_orderly
  | globalDecl =>
    rw [textLines_globalDecl]
    exact hnil
  | blockCons first others ih ih' =>
    rw [first.text_append]
    exact ih.append ih'
  | ifThen test body ih =>
    rw [textLines_instrLines, body.text_append]
    exact test.scans.append (ih.append (hnil.label _))
  | ifElse test body other ih ih' =>
    rw [textLines_ifElse body.ends_in_text other.ends_in_text]
    exact test.scans.append (ih.append (((ih'.append (hnil.label _)).label _).jump _))
  | whileLoop test rounds ih =>
    rw [textLines_label, textLines_instrLines, rounds.text_append]
    exact (test.scans.append (ih.append ((hnil.label _).jump _))).label _
  | forLoop start test rounds next ih =>
    rw [textLines_instrLines, textLines_label, textLines_instrLines, rounds.text_append, textLines_instrLines]
    exact start.scans.append ((test.scans.append (ih.append (next.scans.append ((hnil.label _).jump _)))).label _)

end Statements

/-! ## Functions -/

/-- The shadow in the body of a function with a frame of `size` bytes. -/
def framed (size : Int) : Shadow where
  held := [.saved .r13, .saved .r12] ++ ((if 0 < size then [.room size] else []) ++ [.saved .rbp])
  base := some [.saved .rbp]

theorem bytes_framed {size : Int} (hsize : 0 ≤ size) : (framed size).bytes = size + 24 := by
  unfold framed Shadow.bytes
  split
  · simp [outstandingBytes, Outstanding.bytes]
    omega
  · simp [outstandingBytes, Outstanding.bytes]
    omega

/-- The lines of a function: a frame is set up before its body, and given back behind the label of its epilogue. -/
def functionLines (f : String) (size : Int) (body : List Line) (exit : Nat) : List Line :=
  .name f :: (instrLines (Lower.prologue size) ++ (body ++ .label exit :: instrLines Lower.epilogue))

/-- The line is neither a label, nor a jump, nor a call. -/
def Ordinary (line : Line) (_ : Shadow) : Prop := line.crossing = false ∧ ∀ name, line ≠ .instr (.call name)

theorem scans_prologue (f : String) (size : Int) :
    Scans Ordinary (.name f :: instrLines (Lower.prologue size)) {} (framed size) := by
  unfold Lower.prologue framed
  split
  · simp [instrLines, Scans, Ordinary, Line.crossing, Instr.jump?, Line.shadow, Instr.shadow, Shadow.saving, Shadow.making]
  · simp [instrLines, Scans, Ordinary, Line.crossing, Instr.jump?, Line.shadow, Instr.shadow, Shadow.saving]

/-- Before `line` paths meet and part with the frame and nothing else on the stack, and calls are made when what else is
there is a multiple of sixteen bytes. -/
structure Tidy (size : Int) (line : Line) (σ : Shadow) : Prop where
  level : line.crossing = true → σ = framed size
  aligned : ∀ name, line = .instr (.call name) → (σ.bytes - (framed size).bytes) % 16 = 0

theorem Ordinary.tidy {size : Int} {line : Line} {σ : Shadow} (h : Ordinary line σ) : Tidy size line σ := by
  refine ⟨fun hcross => ?_, fun name hcall => absurd hcall (h.2 name)⟩
  rw [h.1] at hcross
  cases hcross

theorem scans_epilogue (size : Int) : Scans Ordinary (instrLines Lower.epilogue) (framed size) {} := by
  unfold Lower.epilogue framed
  simp [instrLines, Scans, Ordinary, Line.crossing, Instr.jump?, Line.shadow, Instr.shadow, Reg.Restores]

/-- **Functions.** From its name to its return a function keeps the account of the stack. -/
theorem function_scans {f : String} {size : Int} {body : List Line} {exit : Nat}
    (h : Scans (Orderly (framed size)) body (framed size) (framed size)) :
    Scans (Tidy size) (functionLines f size body exit) {} {} := by
  have hlabel : Scans (Orderly (framed size)) [.label exit] (framed size) (framed size) :=
    ⟨orderly_here (by simp), framed size, rfl, rfl⟩
  have hbody : Scans (Tidy size) (body ++ [.label exit]) (framed size) (framed size) :=
    (h.append hlabel).mono fun _ _ _ hline => ⟨hline.level, hline.aligned⟩
  have hstart : Scans (Tidy size) _ {} (framed size) := (scans_prologue f size).mono fun _ _ _ hline => hline.tidy
  have hfinish : Scans (Tidy size) _ (framed size) {} := (scans_epilogue size).mono fun _ _ _ hline => hline.tidy
  have hwhole := hstart.append (hbody.append hfinish)
  rwa [List.append_assoc] at hwhole

end MiniC
