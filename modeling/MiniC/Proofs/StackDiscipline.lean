import MiniC.Proofs.CallBrackets
import MiniC.Proofs.PushedCount
import MiniC.Proofs.ProgramCode

/-!
# The stack on every path

A path through a function goes on at the next line, or where a label stands; at a conditional jump it may do either. Along
every path the account of the stack is kept, and what stands on the stack at a line is what the text before it tells
(`Disciplined`), so it does not depend on the path. A machine that runs the function takes such a path, and its stack
pointer is where the account says (`Describes.step`).

* `stack_discipline`: for every function of an accepted program that is lowered.
-/

namespace MiniC

/-! ## Paths -/

/-- A place on a path: the lines ahead, and what stands on the stack. -/
structure Visit where
  ahead : List Line
  stack : Shadow

/-- One step of a path through the text section `text`. There is none from a return. -/
inductive Visit.Next (text : List Line) : Visit → Visit → Prop where
  | pass {line : Line} {lines : List Line} {σ σ' : Shadow} (account : line.shadow σ = some σ')
      (returns : line ≠ .instr .ret) (jumps : ∀ n, line ≠ .instr (.jump n)) : Next text ⟨line :: lines, σ⟩ ⟨lines, σ'⟩
  | leap {i : Instr} {n : Nat} {lines target : List Line} {σ σ' : Shadow} (account : i.shadow σ = some σ')
      (jumps : i.jump? = some n) (found : linesFrom (.label n) text = some target) :
      Next text ⟨.instr i :: lines, σ⟩ ⟨target, σ'⟩

def Path (text : List Line) : Visit → Visit → Prop := Relation.ReflTransGen (Visit.Next text)

/-! ## The discipline -/

/-- The stack of a function with a frame of `size` bytes, between its name and its return: `body` stands between the lines
that set the frame up and the label `exit` of the epilogue, and `after` follows the return. -/
structure Disciplined (text : List Line) (f : String) (size : Int) (body : List Line) (exit : Nat) (after : List Line) :
    Prop where
  found : linesFrom (.name f) text = some (functionLines f size body exit ++ after)
  once : .instr .ret ∉ body
  /-- The text before a line tells what stands on the stack, and the line keeps the account. At labels and jumps it is the
  frame with the two saved registers, and at calls the stack is aligned. -/
  told : ∀ before line ahead, functionLines f size body exit = before ++ line :: ahead →
    ∃ σ, shadowAfter before {} = some σ ∧ (line.shadow σ).isSome ∧ (line.crossing = true → σ = framed size) ∧
      ∀ name, line = .instr (.call name) → σ.bytes % 16 = 8
  /-- In the body the frame and the two saved registers are always on the stack. -/
  kept : ∀ before ahead, body = before ++ ahead →
    ∃ σ, shadowAfter (.name f :: instrLines (Lower.prologue size) ++ before) {} = some σ ∧
      (framed size).held <:+ σ.held
  /-- Every path stays in the function, and finds on the stack what the text tells. -/
  paths : ∀ v, Path text ⟨functionLines f size body exit ++ after, {}⟩ v →
    ∃ before ahead, functionLines f size body exit = before ++ ahead ∧ ahead ≠ [] ∧ v.ahead = ahead ++ after ∧
      shadowAfter before {} = some v.stack
  calls : Bracketed [] (functionLines f size body exit) after

section Discipline

variable {text body after : List Line} {f : String} {size : Int} {exit : Nat}

theorem functionLines_last (before : List Line) (line : Line) (h : functionLines f size body exit = before ++ [line]) :
    line = .instr .ret := by
  have hlast := congrArg List.getLast? h
  rw [List.getLast?_append] at hlast
  simpa [functionLines, Lower.epilogue, instrLines, List.getLast?_cons, List.getLast?_append] using hlast.symm

/-- Jumps and labels do nothing to the stack. -/
theorem shadow_of_jump {i : Instr} {n : Nat} (h : i.jump? = some n) (σ : Shadow) : i.shadow σ = some σ := by
  cases i with
  | jump | jumpIf => rfl
  | _ => cases h

/-- Where every line keeps the account, and jumps lead to labels in the function with the same on the stack, every path
finds what the text tells. -/
theorem paths_told {own : List Line} {σ₀ : Shadow} (hown : own ≠ [])
    (hlast : ∀ before line, own = before ++ [line] → line = .instr .ret)
    (htold : ∀ before line ahead, own = before ++ line :: ahead →
      ∃ σ, shadowAfter before {} = some σ ∧ (line.crossing = true → σ = σ₀))
    (hjumps : ∀ i n, .instr i ∈ own → i.jump? = some n → ∃ before ahead, own = before ++ .label n :: ahead ∧
      linesFrom (.label n) text = some (.label n :: (ahead ++ after)))
    {v : Visit} (h : Path text ⟨own ++ after, {}⟩ v) :
    ∃ before ahead, own = before ++ ahead ∧ ahead ≠ [] ∧ v.ahead = ahead ++ after ∧ shadowAfter before {} = some v.stack := by
  induction h with
  | refl => exact ⟨[], own, rfl, hown, rfl, rfl⟩
  | tail _ hnext ih =>
    obtain ⟨before, ahead, hlines, hne, hahead, hstack⟩ := ih
    obtain ⟨line, ahead, rfl⟩ := List.exists_cons_of_ne_nil hne
    cases hnext with
    | @pass line' lines σ σ' account returns jumps =>
      obtain ⟨rfl, rfl⟩ := List.cons.inj hahead
      refine ⟨before ++ [line'], ahead, by simpa using hlines, ?_, rfl, ?_⟩
      · -- The last line of the function is its return.
        rintro rfl
        exact returns (hlast before line' hlines)
      · rw [shadowAfter_append, hstack]
        show shadowAfter [line'] σ = some σ'
        rw [shadowAfter, List.foldlM_cons, account]
        rfl
    | @leap i n lines target σ σ' account jumps found =>
      obtain ⟨rfl, -⟩ := List.cons.inj hahead
      obtain ⟨before', ahead', hlabel, hplace⟩ := hjumps i n (by rw [hlines]; simp) jumps
      obtain ⟨σ₁, hhere, hcross⟩ := htold before _ ahead hlines
      obtain ⟨σ₂, hthere, hcross'⟩ := htold before' _ ahead' hlabel
      obtain rfl : σ' = σ := Option.some.inj (account.symm.trans (shadow_of_jump jumps σ))
      obtain rfl : σ₁ = σ' := Option.some.inj (hhere.symm.trans hstack)
      refine ⟨before', .label n :: ahead', hlabel, by simp, ?_, ?_⟩
      · exact Option.some.inj (found.symm.trans hplace)
      · rw [hthere, hcross' rfl, hcross (by rw [Line.crossing, jumps]; rfl)]

/-- At one line every path finds the same on the stack. -/
theorem Disciplined.same (h : Disciplined text f size body exit after) {v v' : Visit}
    (hv : Path text ⟨functionLines f size body exit ++ after, {}⟩ v)
    (hv' : Path text ⟨functionLines f size body exit ++ after, {}⟩ v') (heq : v.ahead = v'.ahead) : v.stack = v'.stack := by
  obtain ⟨before, ahead, hlines, -, hahead, hstack⟩ := h.paths v hv
  obtain ⟨before', ahead', hlines', -, hahead', hstack'⟩ := h.paths v' hv'
  obtain rfl : ahead = ahead' := List.append_cancel_right (hahead.symm.trans (heq.trans hahead'))
  obtain rfl : before = before' := List.append_cancel_right (hlines.symm.trans hlines')
  exact Option.some.inj (hstack.symm.trans hstack')

end Discipline

/-! ## The machine -/

section Machine

variable {Ω : Type} {link : Linkage} {callees : Callees Ω} {text lines : List Line} {top : Word} {σ σ' : Shadow}
  {s s' : Machine Ω}

/-- What is called leaves the stack and frame pointers as it found them. -/
def KeepsStack (callees : Callees Ω) : Prop :=
  ∀ name s s', callees name s = some s' → s'.regs .rsp = s.regs .rsp ∧ s'.regs .rbp = s.regs .rbp

/-- The stack and frame pointers are where the shadow says, below the return address at `top`. -/
structure Describes (top : Word) (σ : Shadow) (s : Machine Ω) : Prop where
  rsp : s.regs .rsp = top - BitVec.ofInt 64 σ.bytes
  rbp : ∀ held, σ.base = some held → s.regs .rbp = top - BitVec.ofInt 64 (outstandingBytes held)

/-- An instruction that neither pushes nor pops writes of the two pointers only its target. -/
theorem regs_of_exec (hkeeps : KeepsStack callees) {i : Instr} {q : Reg} (hq : q = .rsp ∨ q = .rbp)
    (htarget : i.target? ≠ some q) (hpush : ∀ r, i ≠ .push r) (hpop : ∀ r, i ≠ .pop r)
    (hexec : i.exec link callees s = some s') : s'.regs q = s.regs q := by
  cases i with
  | push r => exact absurd rfl (hpush r)
  | pop r => exact absurd rfl (hpop r)
  | call name => exact hq.elim (fun h => h ▸ (hkeeps _ _ _ hexec).1) fun h => h ▸ (hkeeps _ _ _ hexec).2
  | jump | jumpIf | ret => cases hexec
  | idiv divisor =>
    simp only [Instr.exec, divide?] at hexec
    split at hexec
    · cases hexec
    split at hexec
    · cases hexec
      rcases hq with rfl | rfl <;> rfl
    · cases hexec
  | set cond dst =>
    obtain ⟨flags, -, rfl⟩ := Option.map_eq_some_iff.1 hexec
    exact if_neg fun h => htarget (by rw [h]; rfl)
  | cqo =>
    cases hexec
    rcases hq with rfl | rfl <;> rfl
  | store | update | cmp | cmpZero =>
    cases hexec
    rfl
  | _ =>
    cases hexec
    exact if_neg fun h => htarget (by rw [h]; rfl)

theorem Describes.push (h : Describes top σ s) {src : Reg} (hexec : (Instr.push src).exec link callees s = some s') :
    Describes top (σ.saving [src]) s' := by
  have hrsp := h.rsp
  cases hexec
  refine ⟨?_, fun held hbase => ?_⟩
  · simp [hrsp, BitVec.ofInt_add]
    bv_omega
  · exact h.rbp held hbase

/-- A register that was saved is popped, and the frame pointer is that of the caller where it was popped. -/
theorem Describes.pop (h : Describes top σ s) {dst src : Reg} {held : List Outstanding} (hheld : σ.held = .saved src :: held)
    (hrestores : dst.Restores src) (hexec : (Instr.pop dst).exec link callees s = some s') :
    Describes top { held, base := if dst = .rbp then none else σ.base } s' := by
  have hrsp := h.rsp
  cases hexec
  have hdst : Reg.rsp ≠ dst := by
    rintro rfl
    rcases hrestores with harg | ⟨-, hne⟩
    · exact absurd harg (by decide)
    · exact hne rfl
  have hbytes : σ.bytes = 8 + outstandingBytes held := by rw [Shadow.bytes, hheld]; rfl
  refine ⟨?_, fun held' hbase => ?_⟩
  · rw [hbytes, BitVec.ofInt_add] at hrsp
    simp only [Machine.regs_set, hdst, ↓reduceIte, hrsp, Shadow.bytes]
    bv_omega
  · simp only at hbase
    split at hbase
    · cases hbase
    · next hrbp =>
      simp only [Machine.regs_set, Ne.symm hrbp, reduceCtorEq, ↓reduceIte]
      exact h.rbp held' hbase

theorem Describes.makeRoom (h : Describes top σ s) {bytes : Int}
    (hexec : (Instr.aluImm .sub bytes .rsp).exec link callees s = some s') : Describes top (σ.making bytes) s' := by
  have hrsp := h.rsp
  cases hexec
  refine ⟨?_, fun held hbase => ?_⟩
  · rw [Shadow.bytes_making, BitVec.ofInt_add]
    simp only [Machine.regs_lose, Machine.regs_set, ↓reduceIte, AluOp.apply, hrsp]
    bv_omega
  · exact h.rbp held hbase

theorem Describes.giveBack (h : Describes top σ s) {made : Int} {held : List Outstanding} (hheld : σ.held = .room made :: held)
    (hexec : (Instr.aluImm .add made .rsp).exec link callees s = some s') : Describes top { σ with held } s' := by
  have hrsp := h.rsp
  cases hexec
  have hbytes : σ.bytes = made + outstandingBytes held := by rw [Shadow.bytes, hheld]; rfl
  refine ⟨?_, fun held' hbase => ?_⟩
  · rw [hbytes, BitVec.ofInt_add] at hrsp
    simp only [Machine.regs_lose, Machine.regs_set, ↓reduceIte, AluOp.apply, hrsp, Shadow.bytes]
    bv_omega
  · exact h.rbp held' hbase

/-- The account says where the pointers are after an instruction. -/
theorem Describes.exec (h : Describes top σ s) (hkeeps : KeepsStack callees) {i : Instr} (haccount : i.shadow σ = some σ')
    (hexec : i.exec link callees s = some s') : Describes top σ' s' := by
  unfold Instr.shadow at haccount
  split at haccount
  · cases haccount
    exact h.push hexec
  · split at haccount
    · next hheld =>
      split at haccount
      · next hrestores =>
        cases haccount
        exact h.pop hheld hrestores hexec
      · cases haccount
    · cases haccount
  · cases haccount
    exact h.makeRoom hexec
  · split at haccount
    · next hheld =>
      split at haccount
      · next heq =>
        subst heq
        cases haccount
        exact h.giveBack hheld hexec
      · cases haccount
    · cases haccount
  · -- The frame pointer is set.
    cases haccount
    cases hexec
    refine ⟨h.rsp, ?_⟩
    rintro _ ⟨⟩
    exact h.rsp
  · -- The stack pointer goes back to the frame pointer.
    obtain ⟨held, hbase, hsuffix⟩ := Option.bind_eq_some_iff.1 haccount
    split at hsuffix
    · cases hsuffix
      cases hexec
      exact ⟨h.rbp held hbase, fun held' hbase' => h.rbp held' hbase'⟩
    · cases hsuffix
  · cases hexec
  · -- Any other instruction.
    next hpush hpop _ _ _ _ _ =>
    split at haccount
    · cases haccount
    · next htarget =>
      cases haccount
      rw [not_or] at htarget
      refine ⟨?_, fun held hbase => ?_⟩
      · rw [regs_of_exec hkeeps (.inl rfl) htarget.1 hpush hpop hexec]
        exact h.rsp
      · rw [regs_of_exec hkeeps (.inr rfl) htarget.2 hpush hpop hexec]
        exact h.rbp held hbase

/-- A step at an instruction that does not jump executes it. -/
theorem exec_of_step {i : Instr} (hi : i.jump? = none) {c' : Config Ω}
    (hstep : step link callees text ⟨.instr i :: lines, s⟩ = some c') :
    ∃ s', i.exec link callees s = some s' ∧ c' = ⟨lines, s'⟩ := by
  have hexec : step link callees text ⟨.instr i :: lines, s⟩ = (i.exec link callees s).map (⟨lines, ·⟩) := by
    cases i with
    | jump | jumpIf => cases hi
    | _ => rfl
  rw [hexec] at hstep
  obtain ⟨s', hs', rfl⟩ := Option.map_eq_some_iff.1 hstep
  exact ⟨s', hs', rfl⟩

/-- **Steps.** A step of the machine is one of a path, and keeps the pointers where the account says. -/
theorem Describes.step (h : Describes top σ s) (hkeeps : KeepsStack callees) {line : Line}
    (haccount : line.shadow σ = some σ') {c' : Config Ω} (hstep : step link callees text ⟨line :: lines, s⟩ = some c') :
    Visit.Next text ⟨line :: lines, σ⟩ ⟨c'.lines, σ'⟩ ∧ Describes top σ' c'.machine := by
  cases line with
  | directive d => cases hstep
  | label n =>
    cases haccount
    cases hstep
    exact ⟨.pass rfl (by simp) (by simp), h⟩
  | name g =>
    cases haccount
    cases hstep
    exact ⟨.pass rfl (by simp) (by simp), h⟩
  | instr i =>
    cases hjump : i.jump? with
    | none =>
      obtain ⟨s₁, hexec, rfl⟩ := exec_of_step hjump hstep
      refine ⟨.pass haccount ?_ ?_, h.exec hkeeps haccount hexec⟩
      · rintro ⟨⟩
        cases hexec
      · rintro n ⟨⟩
        cases hjump
    | some n =>
      cases i with
      | jump n =>
        cases haccount
        obtain ⟨target, hfound, rfl⟩ := Option.map_eq_some_iff.1 hstep
        exact ⟨.leap rfl rfl hfound, h⟩
      | jumpIf cond n =>
        cases haccount
        obtain ⟨flags, -, hbranch⟩ := Option.bind_eq_some_iff.1 hstep
        split at hbranch
        · obtain ⟨target, hfound, rfl⟩ := Option.map_eq_some_iff.1 hbranch
          exact ⟨.leap rfl rfl hfound, h⟩
        · cases hbranch
          exact ⟨.pass rfl (by simp) (by simp), h⟩
      | _ => cases hjump

variable {body after : List Line} {f : String} {size : Int} {exit : Nat}

/-- **Runs.** A machine that runs a function takes a path through it. -/
theorem Disciplined.run (h : Disciplined text f size body exit after) (hkeeps : KeepsStack callees) {c : Config Ω}
    (hreaches : Reaches link callees text ⟨functionLines f size body exit ++ after, s⟩ c) :
    ∃ σ, Path text ⟨functionLines f size body exit ++ after, {}⟩ ⟨c.lines, σ⟩ ∧
      Describes (s.regs .rsp) σ c.machine := by
  induction hreaches with
  | refl =>
    refine ⟨{}, .refl, ?_, nofun⟩
    exact (BitVec.sub_zero _).symm
  | @tail c c' _ hstep ih =>
    obtain ⟨σ, hpath, hdescribes⟩ := ih
    obtain ⟨before, ahead, hlines, hne, hahead, hstack⟩ := h.paths _ hpath
    obtain ⟨line, ahead, rfl⟩ := List.exists_cons_of_ne_nil hne
    obtain ⟨σ₁, htold, haccount, -⟩ := h.told before line ahead hlines
    obtain rfl : σ₁ = σ := Option.some.inj (htold.symm.trans hstack)
    obtain ⟨σ', hσ'⟩ := Option.isSome_iff_exists.1 haccount
    obtain ⟨lines, m⟩ := c
    obtain rfl : lines = line :: ahead ++ after := hahead
    obtain ⟨hnext, hthere⟩ := hdescribes.step hkeeps hσ' hstep
    exact ⟨σ', hpath.tail hnext, hthere⟩

/-- Calls are made with the stack aligned, if the function was called so. -/
theorem Disciplined.aligned (h : Disciplined text f size body exit after) (hkeeps : KeepsStack callees) {name : String}
    (hentry : (s.regs .rsp).toNat % 16 = 8)
    (hreaches : Reaches link callees text ⟨functionLines f size body exit ++ after, s⟩ ⟨.instr (.call name) :: lines, s'⟩) :
    (s'.regs .rsp).toNat % 16 = 0 := by
  obtain ⟨σ, hpath, hdescribes⟩ := h.run hkeeps hreaches
  obtain ⟨before, ahead, hlines, hne, hahead, hstack⟩ := h.paths _ hpath
  obtain ⟨line, ahead, rfl⟩ := List.exists_cons_of_ne_nil hne
  obtain ⟨rfl, -⟩ := List.cons.inj hahead
  obtain ⟨σ₁, htold, -, -, hbytes⟩ := h.told before _ ahead hlines
  obtain rfl : σ₁ = σ := Option.some.inj (htold.symm.trans hstack)
  have hcall := hbytes name rfl
  rw [hdescribes.rsp, BitVec.toNat_sub, BitVec.toNat_ofInt]
  omega

end Machine

/-! ## Functions -/

section Functions

variable {text body after : List Line} {f : String} {size : Int} {exit : Nat}

/-- What is above the frame anywhere in a body. -/
theorem Scans.above {lines : List Line} {σ σ₀ : Shadow} (h : Scans (Orderly σ₀) lines σ σ₀) : σ₀.held <:+ σ.held := by
  cases lines with
  | nil =>
    cases h
    exact List.suffix_rfl
  | cons => exact h.1.above

/-- A function whose body keeps the account, with jumps that lead to its own labels and calls that are bracketed. -/
theorem disciplined_of_scans (hsize : 0 ≤ size) (hmultiple : size % 16 = 0)
    (hfound : linesFrom (.name f) text = some (functionLines f size body exit ++ after)) (honce : .instr .ret ∉ body)
    (hbody : Scans (Orderly (framed size)) body (framed size) (framed size))
    (hjumps : ∀ i n, .instr i ∈ functionLines f size body exit → i.jump? = some n →
      ∃ before ahead, functionLines f size body exit = before ++ .label n :: ahead ∧
        linesFrom (.label n) text = some (.label n :: (ahead ++ after)))
    (hcalls : ∀ {start} tail, Unpopped tail → Bracketed start body tail) : Disciplined text f size body exit after := by
  have hwhole : Scans (Tidy size) (functionLines f size body exit) {} {} := function_scans hbody
  have htold : ∀ before line ahead, functionLines f size body exit = before ++ line :: ahead →
      ∃ σ, shadowAfter before {} = some σ ∧ (line.shadow σ).isSome ∧ (line.crossing = true → σ = framed size) ∧
        ∀ name, line = .instr (.call name) → σ.bytes % 16 = 8 := by
    intro before line ahead heq
    rw [heq] at hwhole
    obtain ⟨σ, hafter, htidy, σ', hline, -⟩ := hwhole.split
    refine ⟨σ, hafter, by rw [hline]; rfl, htidy.level, fun name hcall => ?_⟩
    have haligned := htidy.aligned name hcall
    rw [bytes_framed hsize] at haligned
    omega
  refine ⟨hfound, honce, htold, fun before ahead heq => ?_, fun v hv => ?_, ?_⟩
  · rw [heq] at hbody
    obtain ⟨σ, hafter, hrest⟩ := hbody.split
    refine ⟨σ, ?_, hrest.above⟩
    rw [shadowAfter_append, (scans_prologue f size).after]
    exact hafter
  · have hcrossing : ∀ before line ahead, functionLines f size body exit = before ++ line :: ahead →
        ∃ σ, shadowAfter before {} = some σ ∧ (line.crossing = true → σ = framed size) := by
      intro before line ahead heq
      obtain ⟨σ, hafter, -, hcross, -⟩ := htold before line ahead heq
      exact ⟨σ, hafter, hcross⟩
    exact paths_told (by simp [functionLines]) functionLines_last hcrossing hjumps hv
  · have hprologue : ∀ i ∈ Lower.prologue size, ∀ name, i ≠ .call name := by
      unfold Lower.prologue
      split <;> simp
    have hname : ∀ {tail : List Line}, Bracketed [] [.name f] tail := bracketed_of_no_call (by simp)
    have hlabel : ∀ {start tail : List Line}, Bracketed start [.label exit] tail := bracketed_of_no_call (by simp)
    exact hname.append ((bracketed_quiet hprologue).append ((hcalls _ (unpopped_label exit _)).append
      (hlabel.append (bracketed_quiet (by simp [Lower.epilogue])))))

end Functions

/-! ## Bodies -/

section Bodies

variable {t : SymbolTable} {f : String} {ret : Ty} {exit n n' : Nat} {stmt : Stmt} {lines : List Line}

/-- All labels of a statement stand in the text section. -/
theorem StmtCode.labels_text (h : StmtCode t f ret exit n stmt lines n') : labels (textLines true lines) = labels lines := by
  induction h with
  | retNone | varDecl | blockNil => rfl
  | retValue | expr => rw [(textLines_of_plain switches?_instrLines true).1, if_pos rfl]
  | globalDecl =>
    rw [textLines_globalDecl]
    simp
  | blockCons first others ih ih' => rw [first.text_append, labels_append, labels_append, ih, ih']
  | ifThen test body ih =>
    rw [textLines_instrLines, body.text_append]
    simp [ih]
  | ifElse test body other ih ih' =>
    rw [textLines_ifElse body.ends_in_text other.ends_in_text]
    simp [ih, ih']
  | whileLoop test rounds ih =>
    rw [textLines_label, textLines_instrLines, rounds.text_append]
    simp [ih]
  | forLoop init test rounds next ih =>
    rw [textLines_instrLines, textLines_label, textLines_instrLines, rounds.text_append, textLines_instrLines]
    simp [ih]

theorem calm_paramStores (params : List Symbol) (regs : List Reg) : ∀ i ∈ paramStores params regs, i.calm = true := by
  simp only [paramStores, List.mem_map]
  rintro _ ⟨_, -, rfl⟩
  rfl

theorem jump?_of_calm {i : Instr} (h : i.calm = true) : i.jump? = none := by
  cases i with
  | jump | jumpIf => cases h
  | _ => rfl

variable {size : Int} {params : List Symbol} {text after : List Line}

/-- A jump of a function leads to a label of it. -/
theorem StmtCode.jumps_inside (h : StmtCode t f ret exit n stmt lines n')
    (hexit : linesFrom (.label exit) text = some (.label exit :: (instrLines Lower.epilogue ++ after)))
    (hplaced : Placed text (textLines true lines) (.label exit :: (instrLines Lower.epilogue ++ after))) {i : Instr} {k : Nat}
    (hi : .instr i ∈ functionLines f size (instrLines (paramStores params Reg.arguments) ++ textLines true lines) exit)
    (hjump : i.jump? = some k) :
    ∃ before ahead, functionLines f size (instrLines (paramStores params Reg.arguments) ++ textLines true lines) exit =
      before ++ .label k :: ahead ∧ linesFrom (.label k) text = some (.label k :: (ahead ++ after)) := by
  let start := .name f :: (instrLines (Lower.prologue size) ++ instrLines (paramStores params Reg.arguments))
  have hlines : functionLines f size (instrLines (paramStores params Reg.arguments) ++ textLines true lines) exit =
      start ++ (textLines true lines ++ .label exit :: instrLines Lower.epilogue) := by simp [functionLines, start]
  have hstraight : ∀ {code : List Instr}, (∀ j ∈ code, j.jump? = none) → .instr i ∉ instrLines code := by
    intro code hcode hin
    obtain ⟨j, hj, heq⟩ := List.mem_map.1 hin
    cases heq
    rw [hcode i hj] at hjump
    cases hjump
  have hprologue : ∀ j ∈ Lower.prologue size, j.jump? = none := by
    unfold Lower.prologue
    split <;> simp [Instr.jump?]
  have hstores : ∀ j ∈ paramStores params Reg.arguments, j.jump? = none := fun j hj =>
    jump?_of_calm (calm_paramStores _ _ j hj)
  have hin : .instr i ∈ textLines true lines := by
    rw [hlines] at hi
    have hepilogue : ∀ j ∈ Lower.epilogue, j.jump? = none := by simp [Lower.epilogue, Instr.jump?]
    simpa [start, hstraight hprologue, hstraight hstores, hstraight hepilogue] using hi
  rcases List.mem_cons.1 (h.jumps i ((sublist_textLines true lines).subset hin) k hjump) with rfl | hlabel
  · exact ⟨start ++ textLines true lines, instrLines Lower.epilogue, by rw [hlines, List.append_assoc], hexit⟩
  · rw [← h.labels_text] at hlabel
    obtain ⟨before, ahead, hsplit⟩ := List.append_of_mem (mem_labels.1 hlabel)
    refine ⟨start ++ before, ahead ++ .label exit :: instrLines Lower.epilogue, ?_, ?_⟩
    · rw [hlines, hsplit]
      simp
    · rw [hplaced k before ahead hsplit]
      simp

/-- The code of a function whose labels lead to where they stand. -/
theorem StmtCode.disciplined (h : StmtCode t f ret exit n stmt lines n') (hsize : 0 ≤ size) (hmultiple : size % 16 = 0)
    (hentry : linesFrom (.name f) text = some (.name f ::
      (instrLines (Lower.prologue size ++ paramStores params Reg.arguments) ++
        (textLines true lines ++ .label exit :: (instrLines Lower.epilogue ++ after)))))
    (hexit : linesFrom (.label exit) text = some (.label exit :: (instrLines Lower.epilogue ++ after)))
    (hplaced : Placed text (textLines true lines) (.label exit :: (instrLines Lower.epilogue ++ after))) :
    Disciplined text f size (instrLines (paramStores params Reg.arguments) ++ textLines true lines) exit after := by
  have hstores := calm_paramStores params Reg.arguments
  refine disciplined_of_scans hsize hmultiple ?_ ?_ ((scans_orderly_calm hstores).append h.scans)
    (fun i k hi hjump => h.jumps_inside hexit hplaced hi hjump) ?_
  · rw [hentry]
    simp [functionLines]
  · intro hret
    rcases List.mem_append.1 hret with hret | hret
    · obtain ⟨i, hi, heq⟩ := List.mem_map.1 hret
      cases heq
      cases hstores _ hi
    · exact (h.inner _ ((sublist_textLines true lines).subset hret)).1 rfl
  · exact fun tail htail => (bracketed_calm hstores).append (h.bracketed htail)

end Bodies

/-- **The stack.** Take a function of an accepted program that is lowered. On every path through it the stack is
disciplined: at a line every path finds the same on it. A machine whose stack pointer is eight bytes off a multiple of
sixteen when the function is called makes every call with the stack pointer at a multiple of sixteen, if what it calls
leaves the stack and frame pointers as they were. Behind this is that the lowering of an expression leaves the count of
pushed values as it found it; functions, which start a count of their own, do not stand in bodies. -/
theorem stack_discipline {earlier : List String} {source f : String} {program before rest : Program}
    {context context' : Context} {listing : Listing} {body : Stmt}
    (hparse : parseSource source (buildSources earlier {}).2 = .ok program context)
    (hprogram : program = before ++ .function f body :: rest) (hgenerate : generate program context = .ok listing context') :
    let text := textLines true listing.toList
    let size := (Frame.layout (Frame.layouts context.symbols (before.filterMap Parse.defines?)) f).2
    (∃ inner exit after, Disciplined text f size inner exit after ∧
      (∀ v v', Path text ⟨functionLines f size inner exit ++ after, {}⟩ v →
        Path text ⟨functionLines f size inner exit ++ after, {}⟩ v' → v.ahead = v'.ahead → v.stack = v'.stack) ∧
      ∀ {Ω : Type} {link : Linkage} {callees : Callees Ω} {s s' : Machine Ω} {name : String} {lines : List Line},
        KeepsStack callees → (s.regs .rsp).toNat % 16 = 8 →
        Reaches link callees text ⟨functionLines f size inner exit ++ after, s⟩ ⟨.instr (.call name) :: lines, s'⟩ →
        (s'.regs .rsp).toNat % 16 = 0) ∧
    Functionless body.definitions ∧
    ∀ e, Functionless e.definitions → ∀ st r? st', Lower.expr e st = .ok r? st' → st'.pushed = st.pushed := by
  intro text size
  subst hprogram
  have hread := ends_of_ok (parseSource_read source (sound_session earlier)) hparse
  obtain ⟨-, new, segment, strings, hitems, hlisting⟩ := ends_of_ok (generate_emits hread.sound hread.typed) hgenerate
  obtain ⟨symbol, exit, n, n', lines, exits, after, -, hlines, rfl, hentry, hexit, hplaced⟩ :=
    function_placed (stringLines strings ++ [.directive .stackNote]) hread.sound hread.once hitems
  rw [← hlisting] at hentry hexit hplaced
  obtain ⟨hsize, hmultiple⟩ := Frame.size_layout ((hread.sound.layouts (before.filterMap Parse.defines?)).namespaces f)
  have hdisciplined := hlines.disciplined hsize hmultiple hentry hexit hplaced
  refine ⟨⟨_, exit, after, hdisciplined, fun v v' => hdisciplined.same, fun hkeeps => hdisciplined.aligned hkeeps⟩, ?_, ?_⟩
  · cases hread.typed (.function f body) (by simp) with
    | function _ _ typed => exact typed.functionless
  · intro e he st r? st' hok
    have hlevel := Lower.pushed_trees.1 e he st.pushed st rfl
    exact (ends_of_ok hlevel hok :)

/-! ### Calls in arguments of calls -/

/-- Two calls are arguments of a third one, which is an operand with another operand live. -/
def nestedCalls : String :=
  "func f(int a, int b) -> int \x7b while (a) a = a * f(f(a, b) + 1, f(b, a)); return a; \x7d"

def Listing.callsThrice (listing : Listing) : Bool :=
  (textLines true listing.toList).count (.instr (.call "f")) == 3

/-- The only item is the function `f`, and lowered it makes three calls. -/
def callsNested : EStateM.Result Fault Context Program → Bool
  | .ok [.function name body] context =>
    name == "f" && (ended (generate [.function "f" body] context)).any (·.1.callsThrice)
  | _ => false

theorem callsNested_cases {result : EStateM.Result Fault Context Program} (h : callsNested result = true) :
    ∃ body context listing context', result = .ok [.function "f" body] context ∧
      generate [.function "f" body] context = .ok listing context' ∧ listing.callsThrice = true := by
  unfold callsNested at h
  split at h
  · next name body context =>
    rw [Bool.and_eq_true, beq_iff_eq] at h
    obtain ⟨rfl, hgenerate⟩ := h
    obtain ⟨listing, context', hlisting, hcalls⟩ := exists_of_ended_any hgenerate
    exact ⟨body, context, listing, context', rfl, hlisting, hcalls⟩
  · cases h

theorem stack_discipline_nested :
    ∃ program context listing context' size inner exit after,
      parseSource nestedCalls (buildSources [] {}).2 = .ok program context ∧
      generate program context = .ok listing context' ∧
      (textLines true listing.toList).count (.instr (.call "f")) = 3 ∧
      Disciplined (textLines true listing.toList) "f" size inner exit after ∧
      ∀ {link : Linkage} {s s' : Machine Unit} {lines : List Line}, (s.regs .rsp).toNat % 16 = 8 →
        Reaches link (fun _ s => some s) (textLines true listing.toList) ⟨functionLines "f" size inner exit ++ after, s⟩
          ⟨.instr (.call "f") :: lines, s'⟩ →
        (s'.regs .rsp).toNat % 16 = 0 := by
  have hchecked : callsNested (parseSource nestedCalls (buildSources [] {}).2) = true := by decide +kernel
  obtain ⟨body, context, listing, context', hparse, hlisting, hcalls⟩ := callsNested_cases hchecked
  obtain ⟨⟨inner, exit, after, hdisciplined, -, haligned⟩, -⟩ :=
    stack_discipline hparse (show [Stmt.function "f" body] = [] ++ .function "f" body :: [] from rfl) hlisting
  have hkeeps : KeepsStack (fun _ (s : Machine Unit) => some s) := by
    rintro _ s _ ⟨⟩
    exact ⟨rfl, rfl⟩
  exact ⟨_, context, listing, context', _, inner, exit, after, hparse, hlisting, eq_of_beq hcalls, hdisciplined,
    haligned hkeeps⟩

end MiniC
