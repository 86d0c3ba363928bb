import MiniC.Frame
import MiniC.Proofs.Tables

/-!
# What laying a frame out does

Positions are the only thing that changes. Slots lie one below the other: a symbol placed at `-p` has its slot in
`[-p, -p + slotWidth)`, below everything placed before it and inside the frame.

* `Frame.fits_of_layout`: every parameter and local has a position, and its slot lies inside the frame.
* `Frame.under_of_layout`: the slots of parameters do not overlap.
* `Context.Sound.layout`, `SymbolTable.later_layout`: the context stays sound, and everything stays in place.
-/

namespace MiniC

/-! ## Positions -/

namespace Frame

theorem le_roundUp {value align : Int} (hv : 0 ≤ value) (ha : 0 < align) : value ≤ roundUp value align := by
  unfold roundUp
  rw [Int.tdiv_eq_ediv_of_nonneg (by omega)]
  have hmod := Int.emod_lt_of_pos (value + align - 1) ha
  have hdiv := Int.mul_ediv_add_emod (value + align - 1) align
  rw [Int.mul_comm] at hdiv
  omega

/-- No slot has a negative width. -/
theorem slotWidth_nonneg {s : Symbol} (hs : s.ArrayOk) : 0 ≤ slotWidth s := by
  unfold slotWidth
  split
  · next harray =>
    have hkind : s.kind = .array := by simpa [Symbol.isArray] using harray
    obtain ⟨hcount, -⟩ := hs hkind
    have hstorage : 0 ≤ s.storage := by
      unfold Symbol.storage
      rw [hkind]
      exact Int.mul_nonneg (by omega) (by omega)
    exact Int.le_trans hstorage (le_roundUp hstorage (by decide))
  · split <;> decide

theorem slotAlign_pos (s : Symbol) : 0 < slotAlign s := by
  unfold slotAlign
  split <;> decide

theorem core_of_place : ∀ (offset : Int) (symbols : List Symbol),
    (place offset symbols).1.map Symbol.core = symbols.map Symbol.core
  | _, [] => rfl
  | offset, s :: symbols => by
    rw [place]
    simp only [List.map_cons, core_of_place]
    rfl

/-- The slot of a symbol lies below the `offset` bytes that were taken before, and inside those that are taken then. -/
def Fits (offset last : Int) (s : Symbol) : Prop := ∃ p, s.position = some (-p) ∧ offset + slotWidth s ≤ p ∧ p ≤ last

theorem fits_of_place : ∀ {offset : Int} {symbols : List Symbol}, 0 ≤ offset → (∀ s ∈ symbols, s.ArrayOk) →
    offset ≤ (place offset symbols).2 ∧ ∀ s ∈ (place offset symbols).1, Fits offset (place offset symbols).2 s
  | offset, [], _, _ => ⟨Int.le_refl _, by simp [place]⟩
  | offset, s :: symbols, hoffset, hok => by
    have hwidth := slotWidth_nonneg (hok s List.mem_cons_self)
    have hnext := le_roundUp (show 0 ≤ offset + slotWidth s by omega) (slotAlign_pos s)
    obtain ⟨hlast, hrest⟩ := fits_of_place (show 0 ≤ roundUp (offset + slotWidth s) (slotAlign s) by omega)
      fun q hq => hok q (List.mem_cons_of_mem _ hq)
    rw [place]
    refine ⟨by simp only; omega, fun q hq => ?_⟩
    rcases List.mem_cons.1 hq with rfl | hq
    · exact ⟨_, rfl, hnext, hlast⟩
    · obtain ⟨p, hp, hlow, hhigh⟩ := hrest q hq
      exact ⟨p, hp, by omega, hhigh⟩

/-- The slot of `s'` lies below that of `s`. -/
def Under (s s' : Symbol) : Prop := ∀ p p', s.position = some (-p) → s'.position = some (-p') → p + slotWidth s' ≤ p'

theorem under_of_place : ∀ {offset : Int} {symbols : List Symbol}, 0 ≤ offset → (∀ s ∈ symbols, s.ArrayOk) →
    (place offset symbols).1.Pairwise Under
  | _, [], _, _ => .nil
  | offset, s :: symbols, hoffset, hok => by
    have hwidth := slotWidth_nonneg (hok s List.mem_cons_self)
    have hnext := le_roundUp (show 0 ≤ offset + slotWidth s by omega) (slotAlign_pos s)
    have hrest : ∀ q ∈ symbols, q.ArrayOk := fun q hq => hok q (List.mem_cons_of_mem _ hq)
    have hfits := (fits_of_place (show 0 ≤ roundUp (offset + slotWidth s) (slotAlign s) by omega) hrest).2
    rw [place]
    refine List.pairwise_cons.2 ⟨fun q hq p p' hp hp' => ?_, under_of_place (by omega) hrest⟩
    obtain ⟨p'', hp'', hlow, -⟩ := hfits q hq
    rw [hp''] at hp'
    simp only [Option.some.injEq] at hp hp'
    omega

end Frame

/-! ## Tables that differ in positions only -/

section Core

variable {symbols symbols' : List Symbol} (h : symbols'.map Symbol.core = symbols.map Symbol.core)

include h

theorem find?_of_core (name : String) :
    (symbols'.find? (·.name == name)).map Symbol.core = (symbols.find? (·.name == name)).map Symbol.core := by
  have hmap : ∀ l : List Symbol, (l.map Symbol.core).find? (·.name == name) = (l.find? (·.name == name)).map Symbol.core :=
    fun l => by rw [List.find?_map]; rfl
  rw [← hmap, ← hmap, h]

theorem length_params_of_core :
    (symbols'.filter (·.scope == .parameter)).length = (symbols.filter (·.scope == .parameter)).length := by
  have hmap : ∀ l : List Symbol,
      ((l.map Symbol.core).filter (·.scope == .parameter)).length = (l.filter (·.scope == .parameter)).length :=
    fun l => by rw [List.filter_map, List.length_map]; rfl
  rw [← hmap symbols', h, hmap]

theorem NamespaceOk.of_core (hs : NamespaceOk symbols) : NamespaceOk symbols' := by
  refine ⟨fun s hs' => ?_, ?_, by rw [length_params_of_core h]; exact hs.limit⟩
  · have hmem : s.core ∈ symbols.map Symbol.core := h ▸ List.mem_map_of_mem hs'
    obtain ⟨s₀, hs₀, hcore⟩ := List.mem_map.1 hmem
    exact Symbol.memberOk_of_core hcore.symm (hs.members s₀ hs₀)
  · have hnames : ∀ l : List Symbol, l.map (·.name) = (l.map Symbol.core).map (·.name) := fun l => by
      rw [List.map_map]; rfl
    rw [hnames, h, ← hnames]
    exact hs.names

end Core

namespace Frame

variable {t : SymbolTable} {f : String}

/-- Either there is nothing to lay out, or the namespace is placed from the top of the frame. -/
theorem layout_cases (t : SymbolTable) (f : String) :
    (t.namespace? f = none ∧ layout t f = (t, 0)) ∨
      ∃ symbols, t.namespace? f = some symbols ∧
        layout t f = (t.setNamespace f (place 0 symbols).1, roundUp (place 0 symbols).2 16) := by
  unfold layout
  cases h : t.namespace? f with
  | none => exact .inl ⟨rfl, rfl⟩
  | some symbols => exact .inr ⟨symbols, rfl, rfl⟩

theorem globals_layout (t : SymbolTable) (f : String) : (layout t f).1.globals = t.globals := by
  obtain ⟨-, h⟩ | ⟨symbols, -, h⟩ := layout_cases t f <;> rw [h]
  rfl

theorem global?_layout (t : SymbolTable) (f name : String) : (layout t f).1.global? name = t.global? name := by
  unfold SymbolTable.global?
  rw [globals_layout]

/-- The size of a frame is a multiple of sixteen. -/
theorem size_layout (hok : ∀ symbols, t.namespace? f = some symbols → NamespaceOk symbols) :
    0 ≤ (layout t f).2 ∧ (layout t f).2 % 16 = 0 := by
  obtain ⟨-, h⟩ | ⟨symbols, hsome, h⟩ := layout_cases t f <;> rw [h]
  · exact ⟨Int.le_refl 0, rfl⟩
  · obtain ⟨hlast, -⟩ := fits_of_place (Int.le_refl 0) fun s hs => ((hok symbols hsome).members s hs).array
    exact ⟨Int.le_trans hlast (le_roundUp hlast (by decide)), Int.mul_emod_left _ _⟩

/-- The symbols of a namespace after it has been laid out are as before but for their positions. -/
theorem members_layout (t : SymbolTable) (f : String) : (layout t f).1.members f = (place 0 (t.members f)).1 := by
  unfold SymbolTable.members
  obtain ⟨hnone, h⟩ | ⟨symbols, hsome, h⟩ := layout_cases t f <;> rw [h]
  · rw [hnone]
    rfl
  · rw [SymbolTable.namespace?_setNamespace, if_pos rfl, hsome]
    rfl

/-- Every parameter and local has a position, and its slot lies inside the frame. -/
theorem fits_of_layout (hok : ∀ symbols, t.namespace? f = some symbols → NamespaceOk symbols) {s : Symbol}
    (hs : s ∈ (layout t f).1.members f) : Fits 0 (layout t f).2 s := by
  rw [members_layout] at hs
  unfold SymbolTable.members at hs
  obtain ⟨hnone, h⟩ | ⟨symbols, hsome, h⟩ := layout_cases t f
  · rw [hnone] at hs
    cases hs
  · rw [h]
    rw [hsome, Option.getD_some] at hs
    obtain ⟨hlast, hfits⟩ := fits_of_place (Int.le_refl 0) fun s hs => ((hok symbols hsome).members s hs).array
    obtain ⟨p, hp, hlow, hhigh⟩ := hfits s hs
    exact ⟨p, hp, hlow, Int.le_trans hhigh (le_roundUp hlast (by decide))⟩

/-- The slot of each parameter lies below those of the parameters before it. -/
theorem under_of_layout (hok : ∀ symbols, t.namespace? f = some symbols → NamespaceOk symbols) :
    ((layout t f).1.params f).Pairwise Under := by
  unfold SymbolTable.params
  rw [members_layout]
  refine (under_of_place (Int.le_refl 0) fun s hs => ?_).filter _
  obtain ⟨symbols, hsome, hs⟩ := SymbolTable.mem_members hs
  exact ((hok symbols hsome).members s hs).array

/-- The table after the frames of several functions have been laid out, one after another. -/
def layouts (t : SymbolTable) (functions : List String) : SymbolTable := functions.foldl (fun t f => (layout t f).1) t

theorem global?_layouts (functions : List String) (t : SymbolTable) (name : String) :
    (layouts t functions).global? name = t.global? name := by
  induction functions generalizing t with
  | nil => rfl
  | cons f functions ih => exact (ih _).trans (global?_layout t f name)

end Frame

/-- Laying a frame out leaves everything in place. -/
theorem SymbolTable.later_layout (t : SymbolTable) (f : String) : t.Later (Frame.layout t f).1 := by
  obtain ⟨-, h⟩ | ⟨symbols, hsome, h⟩ := Frame.layout_cases t f <;> rw [h]
  · exact .refl t
  · have hcore := Frame.core_of_place 0 symbols
    refine ⟨fun _ s hs => ⟨s, hs, rfl, id⟩, fun g _ name s hs => ?_, fun g _ => ?_⟩
    · by_cases hg : g = f
      · subst hg
        have hfind := find?_of_core hcore name
        simp only [local?, members, hsome, Option.getD_some] at hs
        rw [hs, Option.map_some] at hfind
        obtain ⟨s', hs', hcore'⟩ := Option.map_eq_some_iff.1 hfind
        exact ⟨s', by simpa [local?, members] using hs', hcore'⟩
      · rw [local?_congr (t := t) (by simp [hg])]
        exact ⟨s, hs, rfl⟩
    · by_cases hg : g = f
      · subst hg
        simpa [params, members, hsome] using length_params_of_core hcore
      · rw [params_congr (t := t) (by simp [hg])]

theorem Context.Sound.layout {c : Context} (h : c.Sound) (f : String) :
    Sound { c with symbols := (Frame.layout c.symbols f).1 } := by
  obtain ⟨-, hl⟩ | ⟨symbols, hsome, hl⟩ := Frame.layout_cases c.symbols f <;> rw [hl]
  · exact h
  · exact h.setNamespace ((h.namespaces f symbols hsome).of_core (Frame.core_of_place 0 symbols))

theorem SymbolTable.later_layouts (functions : List String) (t : SymbolTable) : t.Later (Frame.layouts t functions) := by
  induction functions generalizing t with
  | nil => exact .refl t
  | cons f functions ih => exact (t.later_layout f).trans (ih _)

theorem Context.Sound.layouts (functions : List String) {c : Context} (h : c.Sound) :
    Sound { c with symbols := Frame.layouts c.symbols functions } := by
  induction functions generalizing c with
  | nil => exact h
  | cons f functions ih => exact ih (h.layout f)

end MiniC
