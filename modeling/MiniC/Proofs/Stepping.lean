import Mathlib.Logic.Relation
import MiniC.Assembly.Listing
import MiniC.Proofs.Machine

/-!
# The machine on a listing

A machine that runs a listing stands before a line of its text section, so the lines that are left say where it is. In a
listing code and data may be mixed; its text section is what is left when the lines of other sections are taken out
(`textLines`). A jump goes on at the line with its label. Labels and names are passed over. At `ret` the machine has got
where it has to: there is no step from there.

* `reaches_run`: straight code runs on a listing as it does on its own.
* `linesFrom_append`: a label leads to the place where it stands, if it does not stand before that place.
-/

namespace MiniC

/-! ## Sections -/

/-- Whether the lines after a directive belong to the text section, for a directive that starts a section. -/
def Line.switches? : Line → Option Bool
  | .directive .text => some true
  | .directive .data | .directive .rodata | .directive .stackNote => some false
  | _ => none

/-- The lines of the text section; `inside` says whether the first line belongs to it. -/
def textLines : Bool → List Line → List Line
  | _, [] => []
  | inside, line :: lines =>
    match line.switches? with
    | some inside => textLines inside lines
    | none => if inside then line :: textLines inside lines else textLines inside lines

/-- Whether what follows `lines` belongs to the text section. -/
def textAfter : Bool → List Line → Bool
  | inside, [] => inside
  | inside, line :: lines => textAfter (line.switches?.getD inside) lines

theorem textLines_append (inside : Bool) (lines lines' : List Line) :
    textLines inside (lines ++ lines') = textLines inside lines ++ textLines (textAfter inside lines) lines' := by
  induction lines generalizing inside with
  | nil => rfl
  | cons line lines ih =>
    rw [List.cons_append, textLines, textLines, textAfter]
    cases line.switches? with
    | some inside' => exact ih inside'
    | none =>
      cases inside with
      | true => exact congrArg (line :: ·) (ih true)
      | false => exact ih false

theorem textAfter_append (inside : Bool) (lines lines' : List Line) :
    textAfter inside (lines ++ lines') = textAfter (textAfter inside lines) lines' := by
  induction lines generalizing inside with
  | nil => rfl
  | cons line lines ih => exact ih _

/-- Lines that start no section are all in the text section or all outside. -/
theorem textLines_of_plain {lines : List Line} (h : ∀ line ∈ lines, line.switches? = none) (inside : Bool) :
    textLines inside lines = (if inside then lines else []) ∧ textAfter inside lines = inside := by
  induction lines with
  | nil => simp [textLines, textAfter]
  | cons line lines ih =>
    obtain ⟨hlines, hafter⟩ := ih fun l hl => h l (List.mem_cons_of_mem _ hl)
    rw [textLines, textAfter, h line List.mem_cons_self, hlines]
    refine ⟨?_, hafter⟩
    cases inside <;> rfl

/-! ## Places -/

/-- The lines from the first `line` on. -/
def linesFrom (line : Line) : List Line → Option (List Line)
  | [] => none
  | first :: lines => if first = line then some (first :: lines) else linesFrom line lines

theorem linesFrom_append {line : Line} {before : List Line} (h : line ∉ before) (lines : List Line) :
    linesFrom line (before ++ line :: lines) = some (line :: lines) := by
  induction before with
  | nil => rw [List.nil_append, linesFrom, if_pos rfl]
  | cons first before ih =>
    rw [List.cons_append, linesFrom, if_neg (List.ne_of_not_mem_cons h).symm]
    exact ih (List.not_mem_of_not_mem_cons h)

/-! ## Steps -/

/-- A machine and the lines it has before it. -/
structure Config (Ω : Type) where
  lines : List Line
  machine : Machine Ω

section Steps

variable {Ω : Type} (link : Linkage) (callees : Callees Ω) (text : List Line)

/-- One step of a machine that runs the text section `text`. -/
def step : Config Ω → Option (Config Ω)
  | ⟨.instr (.jump n) :: _, s⟩ => (linesFrom (.label n) text).map (⟨·, s⟩)
  | ⟨.instr (.jumpIf cond n) :: lines, s⟩ => s.flags.bind fun flags =>
    if cond.holds flags then (linesFrom (.label n) text).map (⟨·, s⟩) else some ⟨lines, s⟩
  | ⟨.instr i :: lines, s⟩ => (i.exec link callees s).map (⟨lines, ·⟩)
  | ⟨.label _ :: lines, s⟩ => some ⟨lines, s⟩
  | ⟨.name _ :: lines, s⟩ => some ⟨lines, s⟩
  | _ => none

/-- From one place the machine gets to another. -/
def Reaches : Config Ω → Config Ω → Prop := Relation.ReflTransGen fun c c' => step link callees text c = some c'

variable {link callees text} {s s' : Machine Ω} {lines lines' : List Line} {c c' : Config Ω}

theorem Reaches.refl (c : Config Ω) : Reaches link callees text c c := Relation.ReflTransGen.refl

theorem Reaches.trans {c'' : Config Ω} (h : Reaches link callees text c c') (h' : Reaches link callees text c' c'') :
    Reaches link callees text c c'' := Relation.ReflTransGen.trans h h'

theorem reaches_step (h : step link callees text c = some c') : Reaches link callees text c c' :=
  Relation.ReflTransGen.single h

/-- An instruction that does something is no jump. -/
theorem step_instr {i : Instr} (h : i.exec link callees s = some s') :
    step link callees text ⟨.instr i :: lines, s⟩ = some ⟨lines, s'⟩ := by
  cases i with
  | jump | jumpIf => cases h
  | _ =>
    rw [step, h]
    · rfl
    all_goals exact fun _ => nofun

/-- **Straight code.** What runs on its own runs on a listing. -/
theorem reaches_run : ∀ {code : List Instr} {s : Machine Ω}, run link callees code s = some s' →
    Reaches link callees text ⟨code.map .instr ++ lines, s⟩ ⟨lines, s'⟩
  | [], s, h => by
    cases h
    exact .refl _
  | i :: code, s, h => by
    obtain ⟨s₁, hi, hcode⟩ := Option.bind_eq_some_iff.1 h
    exact (reaches_step (step_instr hi)).trans (reaches_run hcode)

theorem reaches_label (n : Nat) : Reaches link callees text ⟨.label n :: lines, s⟩ ⟨lines, s⟩ := reaches_step rfl

theorem reaches_name (f : String) : Reaches link callees text ⟨.name f :: lines, s⟩ ⟨lines, s⟩ := reaches_step rfl

theorem reaches_jump {n : Nat} (h : linesFrom (.label n) text = some lines') :
    Reaches link callees text ⟨.instr (.jump n) :: lines, s⟩ ⟨lines', s⟩ := by
  refine reaches_step ?_
  rw [step, h]
  rfl

/-- A conditional jump after a comparison. -/
theorem reaches_jumpIf {cond : Cond} {n : Nat} {x y : Word} (hflags : s.flags = some (.compare x y))
    (h : linesFrom (.label n) text = some lines') :
    Reaches link callees text ⟨.instr (.jumpIf cond n) :: lines, s⟩ ⟨if cond.test x y then lines' else lines, s⟩ := by
  refine reaches_step ?_
  rw [step, hflags, Option.bind_some, Cond.holds_compare, h]
  cases cond.test x y <;> rfl

end Steps

end MiniC
