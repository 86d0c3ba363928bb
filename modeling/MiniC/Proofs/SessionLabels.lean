import Mathlib.Data.List.Nodup
import MiniC.Proofs.LabelUse

/-!
# The labels of a session

Sources that are compiled one after another draw their labels from one counter: for functions and string literals while
they are parsed, for control structures while they are lowered.

* `listing_closed`: a listing defines every label that it uses, and no jump leaves its function.
* `listing_labels`: the labels of a listing are those that lowering drew, those of its functions and those of its literals.
* `Owned`: what a session keeps of the labels that its listings have used; `owned_buildSource` is the step from one source
  to the next, `owned_session` the run.
-/

namespace MiniC

/-! ## Lowering -/

namespace Lower

/-- The literals that the lines refer to are those that are noted for the end of the listing. -/
def Tied (st : State) : Prop := literalUses st.lines.toList = st.strings.toList.map (·.1)

theorem stable_tied : Stable Tied fun _ => True where
  fails _ := trivial
  lines := by
    intro st line hline h
    show literalUses (st.lines.push line).toList = _
    have hnone : literalUses [line] = [] := List.filterMap_cons_none hline
    rw [Array.toList_push, literalUses_append, hnone, List.append_nil]
    exact h
  pad _ _ h := h
  inside _ _ h := h
  layout _ h := h
  draw h := h
  literal := by
    intro st label bytes r h
    show literalUses (st.lines.push _).toList = (st.strings.push (label, bytes)).toList.map (·.1)
    rw [Array.toList_push, Array.toList_push, literalUses_append, List.map_append, h]
    rfl
  literalFails _ _ _ := trivial

end Lower

/-- Lowering lays out frames and draws labels. -/
structure Relabels (c c' : Context) : Prop where
  globals : c'.symbols.globals = c.symbols.globals
  draws : ∃ ls, Draws c ls c'

theorem Relabels.grows {c c' : Context} (h : Relabels c c') : Grows c c' := .of_globals h.globals h.draws

theorem Relabels.claims {c c' : Context} (h : Relabels c c') {g : String} {l : Nat} (hclaims : c'.Claims g l) :
    c.Claims g l := by
  obtain ⟨s, hs, hl⟩ := hclaims
  refine ⟨s, ?_, hl⟩
  unfold SymbolTable.global? at hs ⊢
  rwa [h.globals] at hs

namespace Lower

theorem stable_relabels (c : Context) :
    Stable (fun st => Relabels c st.context) (fun st => Relabels c st.context) where
  fails h := h
  lines _ h := h
  pad _ _ h := h
  inside _ _ h := h
  layout f h := by
    obtain ⟨ls, hdraws⟩ := h.draws
    exact ⟨(Frame.globals_layout _ f).trans h.globals, ls, hdraws.symbols _⟩
  draw h := by
    obtain ⟨ls, hdraws⟩ := h.draws
    exact ⟨h.globals, _, hdraws.label⟩
  literal _ _ _ h := h
  literalFails _ _ h := h

/-- The lines of a program, with the literals that follow them. -/
theorem program_tied {program : Program} {c : Context} (hc : c.Sound) (htyped : ∀ item ∈ program, TypedItem c.symbols item) :
    Ends (Lower.program program) { context := c } (fun _ st' => Relabels c st'.context ∧ ∃ new segment strings,
      ItemsCode c.symbols none c.nextLabel program new st'.context.symbols segment st'.context.nextLabel ∧
      st'.lines.toList = new ++ (stringLines strings ++ [.directive .stackNote]) ∧ literalUses new = strings.map (·.1))
      (fun _ st' => Relabels c st'.context) := by
  unfold Lower.program
  have hstart : Between c.symbols none c.nextLabel [] { context := c } := ⟨hc, rfl, rfl, rfl, rfl, rfl⟩
  have hitems := stmtList_emits htyped hstart
  have htied := stable_tied.items program { context := c } rfl
  have hrelabels := (stable_relabels c).items program { context := c } ⟨rfl, _, .nil⟩
  refine ends_bind (ends_mono (ends_and hrelabels (ends_and hitems htied)) (fun _ _ h => h) fun _ _ h => h.1) ?_
  rintro _ st₁ ⟨hrelabels, ⟨new, t', segment', n', hcode, h₁⟩, htied⟩
  refine ends_bind (strings_ends st₁) ?_
  rintro _ _ rfl
  unfold Tied at htied
  rw [h₁.lines] at htied
  refine ⟨hrelabels, new, segment', st₁.strings.toList, ?_, by simp [h₁.lines], htied⟩
  rw [h₁.symbols, h₁.labels]
  exact hcode

end Lower

/-- **Listings.** The lines of a listing, and what lowering leaves of the context. -/
theorem generate_tied {program : Program} {c : Context} (hc : c.Sound) (htyped : ∀ item ∈ program, TypedItem c.symbols item) :
    Ends (generate program) c (fun listing c' => Relabels c c' ∧ ∃ new segment strings,
      ItemsCode c.symbols none c.nextLabel program new c'.symbols segment c'.nextLabel ∧
      listing.toList = new ++ (stringLines strings ++ [.directive .stackNote]) ∧ literalUses new = strings.map (·.1))
      (fun _ c' => Relabels c c') := by
  have h := Lower.program_tied hc htyped
  unfold Ends generate
  unfold Ends at h
  cases hres : Lower.program program { context := c } <;> rw [hres] at h <;> exact h

/-! ## Listings -/

theorem stringLines_cases (strings : List (Nat × List UInt8)) :
    labels (stringLines strings) = strings.map (·.1) ∧ ∀ i, .instr i ∉ stringLines strings := by
  have hbytes : ∀ bytes : List UInt8, labels (bytes.map fun byte => .directive (.byte byte)) = [] := by
    intro bytes
    induction bytes with
    | nil => rfl
    | cons byte bytes ih => exact ih
  unfold stringLines
  cases strings with
  | nil => simp
  | cons literal strings =>
    simp only [List.isEmpty_cons, Bool.false_eq_true, ↓reduceIte, labels_directive]
    constructor
    · induction literal :: strings with
      | nil => rfl
      | cons literal strings ih =>
        rw [List.flatMap_cons, labels_append, ih, labels_label, hbytes]
        rfl
    · simp

section Source

variable {c c₁ c₂ : Context} {program : Program} {listing : Listing}

/-- A listing defines the labels that it uses, and no jump leaves its function. -/
theorem listing_closed (hc : c₁.Sound) (htyped : ∀ item ∈ program, TypedItem c₁.symbols item)
    (hgen : generate program c₁ = .ok listing c₂) :
    JumpsInside listing.toList ∧ ∀ l ∈ literalUses listing.toList, l ∈ labels listing.toList := by
  obtain ⟨-, new, segment, strings, hcode, hlines, htied⟩ := ends_of_ok (generate_tied hc htyped) hgen
  obtain ⟨hstrings, hplain⟩ := stringLines_cases strings
  have hplain' : ∀ i, .instr i ∉ stringLines strings ++ [.directive .stackNote] := by simp [hplain]
  constructor
  · rw [hlines]
    exact hcode.jumpsInside.append (jumpsInside_plain fun i hi => absurd hi (hplain' i))
  · have huses : literalUses (stringLines strings ++ [.directive .stackNote]) = [] := by
      refine List.filterMap_eq_nil_iff.2 fun line hline => ?_
      cases line with
      | instr i => exact absurd hline (hplain' i)
      | _ => rfl
    rw [hlines, literalUses_append, huses, List.append_nil, htied, labels_append, labels_append, hstrings]
    exact fun l hl => List.mem_append_right _ (List.mem_append_left _ hl)

/-- The labels of a listing: those that lowering drew, those of the functions and those of the literals. -/
theorem listing_labels (hc : c₁.Sound) (htyped : ∀ item ∈ program, TypedItem c₁.symbols item)
    (hgen : generate program c₁ = .ok listing c₂) : ∃ ls, Draws c₁ ls c₂ ∧
      (labels listing.toList).Perm (ls ++ (exits c₁.symbols program ++ stmtLiterals program)) := by
  obtain ⟨hrelabels, new, segment, strings, hcode, hlines, htied⟩ := ends_of_ok (generate_tied hc htyped) hgen
  obtain ⟨ls, hdraws⟩ := hrelabels.draws
  refine ⟨ls, hdraws, ?_⟩
  rw [hlines, labels_append, labels_append, (stringLines_cases strings).1, ← htied, hdraws.labels_eq.2]
  simp only [labels_directive, labels_nil, List.append_nil]
  rw [← List.append_assoc]
  exact hcode.labels_perm.append hcode.literals

/-! ## One source -/

/-- What parsing does to labels. -/
structure ParsedLabels (c : Context) (program : Program) (c₁ : Context) : Prop where
  read : ReadProgram c program c₁
  grows : Grows c c₁
  literals : Rising c.nextLabel (stmtLiterals program) c₁.nextLabel
  unclaimed : ∀ l ∈ stmtLiterals program, ∀ g, ¬ c₁.Claims g l

theorem parseSource_labels (source : String) (hc : c.Sound) :
    Ends (parseSource source) c (ParsedLabels c) (fun _ c₁ => c₁.Sound ∧ Grows c c₁) := by
  have hread := parseSource_read source hc
  have hgrows := defining_grows.parseSource source c
  unfold Ends at hread hgrows ⊢
  cases hparse : parseSource source c with
  | error fault c₁ =>
    rw [hparse] at hread hgrows
    exact ⟨hread, hgrows⟩
  | ok program c₁ =>
    rw [hparse] at hread hgrows
    obtain ⟨tokens, -, hparsed⟩ := parseSource_cases hparse
    have hitems := Parse.items_build (.start tokens c) (List.suffix_refl tokens)
    unfold parse at hparsed
    cases hres : Parse.items (.start tokens c) with
    | fail fault last => rw [hres] at hparsed; cases hparsed
    | ok items last _ =>
      rw [hres] at hparsed hitems
      cases hparsed
      obtain ⟨hrising, hunclaimed⟩ := BuildsItems.literals_unclaimed hitems hc.drawn
      exact ⟨hread, hgrows, hrising, hunclaimed⟩

theorem claims_iff {g : String} {l : Nat} : c.Claims g l ↔ c.symbols.label? g = some l :=
  (Option.bind_eq_some_iff (x := c.symbols.global? g) (f := Symbol.label)).symm

theorem mem_exits {l : Nat} : l ∈ exits c.symbols program ↔ ∃ f ∈ program.filterMap Parse.defines?, c.Claims f l := by
  unfold exits
  rw [List.mem_filterMap]
  simp only [claims_iff]

/-- Two functions never have the same label. -/
theorem Context.Sound.claims_inj (hc : c.Sound) {f g : String} {l : Nat} (hf : c.Claims f l) (hg : c.Claims g l) : f = g := by
  obtain ⟨s, hs, hl⟩ := hf
  obtain ⟨s', hs', hl'⟩ := hg
  exact hc.labels f g s s' l hs hs' hl hl'

theorem ParsedLabels.nodup_exits (h : ParsedLabels c program c₁) : (exits c₁.symbols program).Nodup :=
  List.Nodup.filterMap (fun _ _ _ hf hg => h.read.sound.claims_inj (claims_iff.2 hf) (claims_iff.2 hg)) h.read.once

/-- The functions that a program defines have bodies. -/
theorem ParsedLabels.defined (h : ParsedLabels c program c₁) {f : String} (hf : f ∈ program.filterMap Parse.defines?) :
    c₁.symbols.IsDefined f := by
  obtain ⟨item, hitem, hdefines⟩ := List.mem_filterMap.1 hf
  cases h.read.typed item hitem with
  | globalDecl => cases hdefines
  | prototype => cases hdefines
  | function defined => cases hdefines; exact defined

/-- The labels of a listing are distinct. -/
theorem nodup_listing (h : ParsedLabels c program c₁) (hgen : generate program c₁ = .ok listing c₂) :
    (labels listing.toList).Nodup := by
  obtain ⟨ls, hdraws, hperm⟩ := listing_labels h.read.sound h.read.typed hgen
  rw [hperm.nodup_iff, List.nodup_append, List.nodup_append]
  refine ⟨hdraws.rising.nodup, ⟨h.nodup_exits, h.literals.nodup, ?_⟩, ?_⟩
  · rintro l hexit _ hliteral rfl
    obtain ⟨f, -, hclaims⟩ := mem_exits.1 hexit
    exact h.unclaimed l hliteral f hclaims
  · rintro l hl _ hother rfl
    have hge := (hdraws.mem_iff.1 hl).1
    rcases List.mem_append.1 hother with hexit | hliteral
    · obtain ⟨f, -, hclaims⟩ := mem_exits.1 hexit
      have := h.read.sound.drawn f l hclaims
      omega
    · have := h.literals.within l hliteral
      omega

/-- A listing defines every label that it uses exactly once, and no jump leaves its function. -/
structure Closed (listing : Listing) : Prop where
  defined : ∀ i l, .instr i ∈ listing.toList → i.jump? = some l ∨ i.literal? = some l →
    (labels listing.toList).count l = 1
  inside : JumpsInside listing.toList

theorem ParsedLabels.closed (h : ParsedLabels c program c₁) (hgen : generate program c₁ = .ok listing c₂) :
    Closed listing := by
  obtain ⟨hinside, hliterals⟩ := listing_closed h.read.sound h.read.typed hgen
  refine ⟨fun i l hi huse => List.count_eq_one_of_mem (nodup_listing h hgen) ?_, hinside⟩
  rcases huse with hjump | hliteral
  · obtain ⟨before, after, hlines⟩ := List.append_of_mem hi
    obtain ⟨f, outer, start, rest, more, rfl, rfl, -, hlabel⟩ := hinside before i after l hlines hjump
    rw [mem_labels, hlines]
    rcases List.mem_append.1 hlabel with hlabel | hlabel <;> simp [hlabel]
  · exact hliterals l (List.mem_filterMap.2 ⟨_, hi, hliteral⟩)

end Source

/-! ## Sessions -/

/-- The listing of a source, if it has one. -/
def Build.listing? : Build → Option Listing
  | lowered _ (.ok listing) _ => some listing
  | _ => none

/-- The labels that the listing of a source defines. -/
def Build.labels (build : Build) : List Nat := (build.listing?.map fun listing => MiniC.labels listing.toList).getD []

/-- The listings so far have `used` labels, each one once; a function whose label is among them has its body. -/
structure Owned (used : List Nat) (c : Context) : Prop where
  nodup : used.Nodup
  drawn : ∀ l ∈ used, l < c.nextLabel
  defined : ∀ l ∈ used, ∀ g, c.Claims g l → c.symbols.IsDefined g

section Session

variable {c c₁ c₂ : Context} {program : Program} {listing : Listing} {used : List Nat}

theorem Owned.grows (h : Owned used c) (hgrows : Grows c c₁) : Owned used c₁ := by
  refine ⟨h.nodup, fun l hl => Nat.lt_of_lt_of_le (h.drawn l hl) hgrows.le, fun l hl g hclaims => ?_⟩
  rcases hgrows.claims g l hclaims with ⟨hclaims, hkeeps⟩ | hnew
  · exact hkeeps (h.defined l hl g hclaims)
  · have := h.drawn l hl
    omega

/-- The labels of a new listing have not been used. -/
theorem Owned.fresh (h : Owned used c) (hparsed : ParsedLabels c program c₁) (hgen : generate program c₁ = .ok listing c₂)
    {l : Nat} (hl : l ∈ used) : l ∉ labels listing.toList := by
  obtain ⟨ls, hdraws, hperm⟩ := listing_labels hparsed.read.sound hparsed.read.typed hgen
  have hlt := h.drawn l hl
  have hle := hparsed.grows.le
  rw [hperm.mem_iff, List.mem_append, List.mem_append]
  rintro (hdrawn | hexit | hliteral)
  · have := hdraws.mem_iff.1 hdrawn
    omega
  · obtain ⟨f, hf, hclaims⟩ := mem_exits.1 hexit
    -- a function that had this label before has its body already
    rcases hparsed.grows.claims f l hclaims with ⟨hbefore, -⟩ | hnew
    · exact hparsed.read.undefined f hf (h.defined l hl f hbefore)
    · omega
  · have := hparsed.literals.within l hliteral
    omega

theorem Owned.lowered (h : Owned used c) (hparsed : ParsedLabels c program c₁)
    (hgen : generate program c₁ = .ok listing c₂) : Owned (used ++ labels listing.toList) c₂ := by
  obtain ⟨hrelabels, -⟩ := ends_of_ok (generate_tied hparsed.read.sound hparsed.read.typed) hgen
  have hused := h.grows (hparsed.grows.trans hrelabels.grows)
  have hle := hrelabels.grows.le
  have hsound := hparsed.read.sound
  obtain ⟨ls, hdraws, hperm⟩ := listing_labels hsound hparsed.read.typed hgen
  refine ⟨List.nodup_append.2 ⟨h.nodup, nodup_listing hparsed hgen, ?_⟩, fun l hl => ?_, fun l hl g hclaims => ?_⟩
  · rintro l hl _ hnew rfl
    exact h.fresh hparsed hgen hl hnew
  · rcases List.mem_append.1 hl with hl | hl
    · exact hused.drawn l hl
    · rw [hperm.mem_iff, List.mem_append, List.mem_append] at hl
      rcases hl with hdrawn | hexit | hliteral
      · exact (hdraws.mem_iff.1 hdrawn).2
      · obtain ⟨f, -, hclaims⟩ := mem_exits.1 hexit
        exact Nat.lt_of_lt_of_le (hsound.drawn f l hclaims) hle
      · exact Nat.lt_of_lt_of_le (hparsed.literals.within l hliteral).2 hle
  · rcases List.mem_append.1 hl with hl | hl
    · exact hused.defined l hl g hclaims
    · have hbefore := hrelabels.claims hclaims
      rw [hperm.mem_iff, List.mem_append, List.mem_append] at hl
      rcases hl with hdrawn | hexit | hliteral
      · have := hsound.drawn g l hbefore
        have := hdraws.mem_iff.1 hdrawn
        omega
      · obtain ⟨f, hf, hexits⟩ := mem_exits.1 hexit
        obtain rfl := hsound.claims_inj hexits hbefore
        obtain ⟨s, hs, hdefined⟩ := hparsed.defined hf
        refine ⟨s, ?_, hdefined⟩
        unfold SymbolTable.global? at hs ⊢
        rwa [hrelabels.globals]
      · exact absurd hbefore (hparsed.unclaimed l hliteral g)

/-- **One source.** Whatever becomes of it, a source uses labels that no listing before it has used. -/
theorem owned_buildSource (source : String) (hc : c.Sound) (h : Owned used c) :
    Grows c (buildSource source c).2 ∧ Owned (used ++ (buildSource source c).1.labels) (buildSource source c).2 := by
  have hparse := parseSource_labels source hc
  have hnone : used ++ [] = used := List.append_nil used
  unfold buildSource
  cases hp : parseSource source c with
  | error fault c₁ =>
    obtain ⟨-, hgrows⟩ := ends_of_error hparse hp
    exact ⟨hgrows, hnone.symm ▸ h.grows hgrows⟩
  | ok program c₁ =>
    have hparsed := ends_of_ok hparse hp
    have hgen := generate_tied hparsed.read.sound hparsed.read.typed
    cases hg : generate program c₁ with
    | error fault c₂ =>
      have hgrows := hparsed.grows.trans (ends_of_error hgen hg).grows
      simp only [hg]
      exact ⟨hgrows, hnone.symm ▸ h.grows hgrows⟩
    | ok listing c₂ =>
      simp only [hg]
      exact ⟨hparsed.grows.trans (ends_of_ok hgen hg).1.grows, h.lowered hparsed hg⟩

/-- **Sessions.** -/
theorem owned_buildSources : ∀ (sources : List String) {c : Context} {used : List Nat}, c.Sound → Owned used c →
    Grows c (buildSources sources c).2 ∧
      Owned (used ++ (buildSources sources c).1.flatMap Build.labels) (buildSources sources c).2
  | [], c, used, _, h => ⟨.refl c, by rw [buildSources, List.flatMap_nil, List.append_nil]; exact h⟩
  | source :: sources, c, used, hc, h => by
    obtain ⟨hgrows, hsource⟩ := owned_buildSource source hc h
    obtain ⟨hgrows', hsources⟩ := owned_buildSources sources (sound_buildSource source hc) hsource
    rw [List.append_assoc] at hsources
    exact ⟨hgrows.trans hgrows', hsources⟩

theorem owned_session (sources : List String) : Grows {} (buildSources sources {}).2 ∧
    Owned ((buildSources sources {}).1.flatMap Build.labels) (buildSources sources {}).2 := by
  have hempty : Owned [] {} := ⟨List.nodup_nil, by simp, by simp⟩
  simpa only [List.nil_append] using owned_buildSources sources .empty hempty

theorem closed_buildSource (source : String) (hc : c.Sound) (hlisting : (buildSource source c).1.listing? = some listing) :
    Closed listing := by
  have hparse := parseSource_labels source hc
  unfold buildSource at hlisting
  cases hp : parseSource source c with
  | error fault c₁ => rw [hp] at hlisting; cases hlisting
  | ok program c₁ =>
    simp only [hp] at hlisting
    cases hg : generate program c₁ with
    | error fault c₂ => rw [hg] at hlisting; cases hlisting
    | ok listing c₂ =>
      rw [hg] at hlisting
      cases hlisting
      exact (ends_of_ok hparse hp).closed hg

theorem closed_buildSources : ∀ (sources : List String) {c : Context}, c.Sound → ∀ build ∈ (buildSources sources c).1,
    ∀ listing, build.listing? = some listing → Closed listing
  | [], _, _, _, hbuild => by cases hbuild
  | source :: sources, c, hc, build, hbuild => by
    rcases List.mem_cons.1 hbuild with rfl | hbuild
    · exact fun listing => closed_buildSource source hc
    · exact closed_buildSources sources (sound_buildSource source hc) build hbuild

end Session

/-! ## The order in which labels are drawn -/

/-- After the labels of `before`, parsing a source and lowering it draw larger and larger labels. The literals get labels
from the parser, and so do the functions, unless they had theirs before; the listing defines what lowering drew, the
labels of its functions and those of its literals. -/
def DrawnInOrder (before : List Nat) (source : String) (c : Context) : Prop :=
  Ends (parseSource source) c
    (fun program c₁ => ∃ parsed, Draws c parsed c₁ ∧ (∀ l ∈ stmtLiterals program, l ∈ parsed) ∧
      (∀ g l, c₁.Claims g l → l ∈ before ++ parsed) ∧
      Ends (generate program) c₁
        (fun listing c₂ => ∃ drawn, Draws c₁ drawn c₂ ∧ (before ++ (parsed ++ drawn)).Pairwise (· < ·) ∧
          (labels listing.toList).Perm (drawn ++ (exits c₁.symbols program ++ stmtLiterals program)))
        (fun _ c₂ => ∃ drawn, Draws c₁ drawn c₂ ∧ (before ++ (parsed ++ drawn)).Pairwise (· < ·)))
    (fun _ c₁ => ∃ parsed, Draws c parsed c₁ ∧ (before ++ parsed).Pairwise (· < ·))

theorem drawnInOrder {before : List Nat} {c : Context} (source : String) (hc : c.Sound) (hbefore : Draws {} before c) :
    DrawnInOrder before source c := by
  refine ends_mono (parseSource_labels source hc) (fun program c₁ hparsed => ?_) ?_
  · obtain ⟨parsed, hdraws⟩ := hparsed.grows.draws
    refine ⟨parsed, hdraws, fun l hl => hdraws.mem_iff.2 (hparsed.literals.within l hl), fun g l hclaims => ?_, ?_⟩
    · have hlt := hparsed.read.sound.drawn g l hclaims
      exact (hbefore.append hdraws).mem_iff.2 ⟨Nat.zero_le l, hlt⟩
    have hgen := generate_tied hparsed.read.sound hparsed.read.typed
    unfold Ends at hgen ⊢
    cases hg : generate program c₁ with
    | ok listing c₂ =>
      obtain ⟨drawn, hdrawn, hperm⟩ := listing_labels hparsed.read.sound hparsed.read.typed hg
      exact ⟨drawn, hdrawn, (hbefore.append (hdraws.append hdrawn)).rising.rising, hperm⟩
    | error fault c₂ =>
      rw [hg] at hgen
      obtain ⟨drawn, hdrawn⟩ := hgen.draws
      exact ⟨drawn, hdrawn, (hbefore.append (hdraws.append hdrawn)).rising.rising⟩
  · rintro _ c₁ ⟨-, hgrows⟩
    obtain ⟨parsed, hdraws⟩ := hgrows.draws
    exact ⟨parsed, hdraws, (hbefore.append hdraws).rising.rising⟩

/-- **Labels are unique and closed.** Over all listings of a session, whatever became of its other sources, no label is
defined twice; every listing defines the labels that it uses exactly once, and no jump leaves its function; and every
label that is drawn for a source is larger than all that were drawn before it, those that lowering draws also than those
that the parser drew for the functions and literals of that source. -/
theorem session_labels_unique (sources : List String) :
    ((buildSources sources {}).1.flatMap Build.labels).Nodup ∧
    (∀ build ∈ (buildSources sources {}).1, ∀ listing, build.listing? = some listing → Closed listing) ∧
    (∀ earlier source later, sources = earlier ++ source :: later → ∃ before, Draws {} before (buildSources earlier {}).2 ∧
      (buildSources earlier {}).1.flatMap Build.labels ⊆ before ∧
      DrawnInOrder before source (buildSources earlier {}).2) := by
  refine ⟨(owned_session sources).2.nodup, closed_buildSources sources .empty, fun earlier source _ _ => ?_⟩
  obtain ⟨hgrows, howned⟩ := owned_session earlier
  obtain ⟨before, hbefore⟩ := hgrows.draws
  refine ⟨before, hbefore, fun l hl => ?_, drawnInOrder source (sound_session earlier) hbefore⟩
  exact hbefore.mem_iff.2 ⟨Nat.zero_le l, howned.drawn l hl⟩

/-- A program, a source that fails after labels were drawn for it, one that needs a fifth register, and a program that
uses what the first one declared. -/
def interrupted : List String :=
  ["func put(char *s) -> void; func f(int n) -> int \x7b while (n > 0) \x7b put(\"a\"); n--; \x7d return n; \x7d",
    "func g() -> int \x7b put(\"b\"); return x; \x7d",
    "func h(int a) -> int \x7b if (a) return 0; return a + (a + (a + (a + (a + a)))); \x7d",
    "func k(int n) -> int \x7b if (n == 0) put(\"c\"); else put(\"d\"); return f(n); \x7d"]

theorem session_labels_unique_interrupted :
    (buildSources interrupted {}).1.map (fun build => build.listing?.map fun listing => labels listing.toList) =
      [some [3, 4, 1, 2], none, none, some [12, 13, 9, 10, 11]] ∧
    ((buildSources interrupted {}).1.flatMap Build.labels).Nodup ∧
    (∃ build ∈ (buildSources interrupted {}).1, ∃ listing, build.listing? = some listing ∧
      labels listing.toList = [12, 13, 9, 10, 11] ∧ Closed listing) ∧
    ∃ before, Draws {} before (buildSources (interrupted.take 3) {}).2 ∧
      (buildSources (interrupted.take 3) {}).1.flatMap Build.labels ⊆ before ∧
      DrawnInOrder before "func k(int n) -> int \x7b if (n == 0) put(\"c\"); else put(\"d\"); return f(n); \x7d"
        (buildSources (interrupted.take 3) {}).2 := by
  have hlabels : (buildSources interrupted {}).1.map (fun build => build.listing?.map fun listing => labels listing.toList) =
      [some [3, 4, 1, 2], none, none, some [12, 13, 9, 10, 11]] := by decide +kernel
  obtain ⟨hnodup, hclosed, hdrawn⟩ := session_labels_unique interrupted
  refine ⟨hlabels, hnodup, ?_, hdrawn _ _ [] rfl⟩
  have hlast : some [12, 13, 9, 10, 11] ∈
      (buildSources interrupted {}).1.map (fun build => build.listing?.map fun listing => labels listing.toList) := by
    rw [hlabels]
    simp
  obtain ⟨build, hbuild, hlisting⟩ := List.mem_map.1 hlast
  obtain ⟨listing, hlisting, heq⟩ := Option.map_eq_some_iff.1 hlisting
  exact ⟨build, hbuild, listing, hlisting, heq, hclosed build hbuild listing hlisting⟩

end MiniC
