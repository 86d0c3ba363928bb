import MiniC.Proofs.ProgramCode

/-!
# The slots of a frame

Every parameter and local has a slot of its own in the frame of its function: below the frame pointer, inside the frame,
large enough for the symbol, aligned to its width, and apart from every other slot. The frame is no larger than it has to
be for a multiple of sixteen bytes.

* `Frame.wellLaid_layout`: all of this, for any table in which arrays have elements.
* `Frame.core_members_layouts`: every symbol of the namespace is placed, and nothing else about it changes.
-/

namespace MiniC

namespace Frame

/-! ## Rounding up -/

theorem roundUp_emod (value align : Int) : roundUp value align % align = 0 := Int.mul_emod_left _ _

theorem roundUp_lt {value align : Int} (hv : 0 ≤ value) (ha : 0 < align) : roundUp value align < value + align := by
  unfold roundUp
  rw [Int.tdiv_eq_ediv_of_nonneg (by omega)]
  have hmod := Int.emod_nonneg (value + align - 1) (by omega : align ≠ 0)
  have hdiv := Int.mul_ediv_add_emod (value + align - 1) align
  rw [Int.mul_comm] at hdiv
  omega

/-! ## Widths -/

variable {s : Symbol}

theorem storage_pos (harray : s.isArray = true) (hs : s.ArrayOk) : 0 < s.storage := by
  have hkind : s.kind = .array := by simpa [Symbol.isArray] using harray
  obtain ⟨hcount, base, hbase, hty⟩ := hs hkind
  have hpointee : 0 < s.ty.pointeeSize := by
    rw [hty]
    cases base with
    | void => exact absurd rfl hbase
    | _ => decide
  unfold Symbol.storage
  rw [hkind]
  exact Int.mul_pos (by omega) hcount

theorem storage_scalar (hscalar : s.isArray = false) : s.storage = s.ty.size := by
  unfold Symbol.storage
  split
  · next hkind => simp [Symbol.isArray, hkind] at hscalar
  · rfl

theorem size_le (ty : Ty) : ty.size ≤ 8 := by
  rcases ty with (_ | _ | _ | _) | base
  all_goals first | decide | exact Nat.le_refl 8

/-- The slot of an array takes its storage, rounded up to eight bytes; that of a scalar takes four or eight. -/
theorem slotWidth_cases (hs : s.ArrayOk) :
    0 < slotWidth s ∧ s.storage ≤ slotWidth s ∧
      (if s.isArray then slotWidth s % 8 = 0 ∧ slotWidth s < s.storage + 8 else slotWidth s = 4 ∨ slotWidth s = 8) := by
  unfold slotWidth
  cases harray : s.isArray with
  | true =>
    have hpos := storage_pos harray hs
    have hle := le_roundUp (Int.le_of_lt hpos) (show (0 : Int) < 8 by decide)
    simp only [↓reduceIte]
    exact ⟨by omega, hle, roundUp_emod _ _, roundUp_lt (Int.le_of_lt hpos) (by decide)⟩
  | false =>
    have hsize := size_le s.ty
    rw [storage_scalar harray]
    simp only [Bool.false_eq_true, ↓reduceIte]
    split <;> omega

/-- Slots of four bytes are aligned to four, all others to eight. -/
theorem slotAlign_eq (hs : s.ArrayOk) : slotAlign s = if slotWidth s = 4 then 4 else 8 := by
  have hwidth := (slotWidth_cases hs).2.2
  unfold slotAlign
  cases harray : s.isArray with
  | true =>
    rw [harray, if_pos rfl] at hwidth
    rw [if_pos (.inl rfl), if_neg (by omega)]
  | false =>
    have hnot : ¬ false = true := Bool.false_ne_true
    unfold slotWidth
    rw [harray, if_neg hnot]
    split <;> simp_all

/-! ## Placing symbols -/

/-- The slot of `s` starts at `p`, in a frame of `size` bytes below zero: it is in the frame, it has room for the symbol,
and it is aligned to its width. -/
structure SlotAt (size : Int) (s : Symbol) (p : Int) : Prop where
  position : s.position = some p
  below : p < 0
  inside : -size ≤ p ∧ p + slotWidth s ≤ 0
  holds : s.storage ≤ slotWidth s
  width : if s.isArray then slotWidth s % 8 = 0 ∧ slotWidth s < s.storage + 8 else slotWidth s = 4 ∨ slotWidth s = 8
  aligned : p % (if slotWidth s = 4 then 4 else 8) = 0

/-- The slots of two symbols have no byte in common. -/
def Apart (s s' : Symbol) : Prop :=
  ∀ p p', s.position = some p → s'.position = some p' → p + slotWidth s ≤ p' ∨ p' + slotWidth s' ≤ p

theorem apart_of_under {s s' : Symbol} (h : Under s s') : Apart s s' := by
  intro p p' hp hp'
  have hunder := h (-p) (-p') (by rw [Int.neg_neg]; exact hp) (by rw [Int.neg_neg]; exact hp')
  exact .inr (by omega)

theorem aligned_of_place : ∀ {offset : Int} {symbols : List Symbol},
    ∀ s ∈ (place offset symbols).1, ∀ p, s.position = some p → p % slotAlign s = 0
  | _, [], s, hs, _, _ => by cases hs
  | offset, q :: symbols, s, hs, p, hp => by
    rw [place] at hs
    rcases List.mem_cons.1 hs with rfl | hs
    · cases hp
      exact Int.emod_eq_zero_of_dvd (Int.dvd_neg.2 (Int.dvd_of_emod_eq_zero (roundUp_emod _ _)))
    · exact aligned_of_place s hs p hp

/-- The symbol that is placed last has the lowest slot. -/
theorem last_of_place : ∀ (offset : Int) (symbols : List Symbol), symbols ≠ [] →
    ∃ s ∈ (place offset symbols).1, s.position = some (-(place offset symbols).2)
  | _, [], h => absurd rfl h
  | offset, [q], _ => ⟨_, List.mem_singleton_self _, rfl⟩
  | offset, q :: q' :: symbols, _ => by
    obtain ⟨s, hs, hp⟩ := last_of_place (roundUp (offset + slotWidth q) (slotAlign q)) (q' :: symbols) (by simp)
    rw [place]
    exact ⟨s, List.mem_cons_of_mem _ hs, hp⟩

/-! ## Laying a frame out -/

/-- A frame of `size` bytes for the parameters and locals of `f`: each has a slot in it and no two share a byte, and it is
the smallest multiple of sixteen bytes that holds them. -/
structure WellLaid (t : SymbolTable) (f : String) (size : Int) : Prop where
  slots : ∀ s ∈ t.members f, ∃ p, SlotAt size s p
  apart : (t.members f).Pairwise Apart
  sixteen : size % 16 = 0
  lowest : (t.members f = [] ∧ size = 0) ∨ ∃ s ∈ t.members f, ∃ p, s.position = some p ∧ size + p < 16 ∧
    ∀ s' ∈ t.members f, ∀ p', s'.position = some p' → p ≤ p'

section Layout

variable {c : Context} (hc : c.Sound) (f : String)

include hc

theorem memberOk_of_layout {s : Symbol} (hs : s ∈ (layout c.symbols f).1.members f) : s.MemberOk := by
  obtain ⟨symbols, hsymbols, hin⟩ := SymbolTable.mem_members hs
  exact ((hc.layout f).namespaces f symbols hsymbols).members s hin

theorem arrayOk_of_member {s : Symbol} (hs : s ∈ c.symbols.members f) : s.ArrayOk := by
  obtain ⟨symbols, hsymbols, hin⟩ := SymbolTable.mem_members hs
  exact ((hc.namespaces f symbols hsymbols).members s hin).array

/-- Every parameter and local has a slot in the frame. -/
theorem slotAt_of_layout {s : Symbol} (hs : s ∈ (layout c.symbols f).1.members f) :
    ∃ p, SlotAt (layout c.symbols f).2 s p := by
  have hok := (memberOk_of_layout hc f hs).array
  obtain ⟨hpos, hholds, hwidth⟩ := slotWidth_cases hok
  obtain ⟨p, hp, hlow, hhigh⟩ := fits_of_layout (hc.namespaces f) hs
  rw [members_layout] at hs
  have haligned := aligned_of_place s hs (-p) hp
  rw [slotAlign_eq hok] at haligned
  exact ⟨-p, hp, by omega, ⟨by omega, by omega⟩, hholds, hwidth, haligned⟩

/-- No two slots have a byte in common. -/
theorem apart_of_layout : ((layout c.symbols f).1.members f).Pairwise Apart := by
  rw [members_layout]
  exact (under_of_place (Int.le_refl 0) fun s hs => arrayOk_of_member hc f hs).imp apart_of_under

/-- The frame ends less than sixteen bytes below the lowest slot. -/
theorem lowest_of_layout :
    ((layout c.symbols f).1.members f = [] ∧ (layout c.symbols f).2 = 0) ∨
      ∃ s ∈ (layout c.symbols f).1.members f, ∃ p, s.position = some p ∧ (layout c.symbols f).2 + p < 16 ∧
        ∀ s' ∈ (layout c.symbols f).1.members f, ∀ p', s'.position = some p' → p ≤ p' := by
  have hsize : (layout c.symbols f).2 = roundUp (place 0 (c.symbols.members f)).2 16 := by
    unfold SymbolTable.members
    obtain ⟨hnone, h⟩ | ⟨symbols, hsome, h⟩ := layout_cases c.symbols f <;> rw [h]
    · rw [hnone]
      rfl
    · rw [hsome]
      rfl
  obtain ⟨hlast, hfits⟩ := fits_of_place (Int.le_refl 0) fun s hs => arrayOk_of_member hc f hs
  rw [members_layout, hsize]
  cases hmembers : c.symbols.members f with
  | nil => exact .inl ⟨rfl, rfl⟩
  | cons first others =>
    rw [hmembers] at hlast hfits
    obtain ⟨s, hs, hp⟩ := last_of_place 0 (first :: others) (by simp)
    have hround := roundUp_lt hlast (show (0 : Int) < 16 by decide)
    refine .inr ⟨s, hs, _, hp, by omega, fun s' hs' p' hp' => ?_⟩
    obtain ⟨q, hq, -, hhigh⟩ := hfits s' hs'
    cases hq.symm.trans hp'
    omega

/-- **Frames.** The frame of a function, laid out in any sound context. -/
theorem wellLaid_layout : WellLaid (layout c.symbols f).1 f (layout c.symbols f).2 where
  slots := fun _ hs => slotAt_of_layout hc f hs
  apart := apart_of_layout hc f
  sixteen := (size_layout (hc.namespaces f)).2
  lowest := lowest_of_layout hc f

end Layout

/-- Laying frames out changes nothing about a symbol but its position. -/
theorem core_members_layout (t : SymbolTable) (g f : String) :
    ((layout t g).1.members f).map Symbol.core = (t.members f).map Symbol.core := by
  by_cases hg : f = g
  · subst hg
    rw [members_layout, core_of_place]
  · obtain ⟨-, h⟩ | ⟨symbols, -, h⟩ := layout_cases t g <;> rw [h]
    simp only [SymbolTable.members, SymbolTable.namespace?_setNamespace, if_neg hg]

theorem core_members_layouts (functions : List String) (t : SymbolTable) (f : String) :
    ((layouts t functions).members f).map Symbol.core = (t.members f).map Symbol.core := by
  induction functions generalizing t with
  | nil => rfl
  | cons g functions ih => exact (ih _).trans (core_members_layout t g f)

end Frame

end MiniC
