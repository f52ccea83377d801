import WaterBuffalo.Vmm.Acceptance

/-!
# Range calls and the page calls they stand for

A range call should do what the page calls it stands for do, and it should refuse bad arguments
before it maps anything.  Both hold up to the edges of its argument checks.  The check against
wrapping refuses a range that ends exactly at the top of the address space, which the page calls
accept; and the checks look at the two ends of the virtual range only, so a range across the
canonical hole, or one whose frames leave the `2 ^ 52` bytes an entry can name, is mapped up to
the first page that is refused.
-/

namespace WaterBuffalo.Vmm

open Pmm TableForest

/-! ## One call per page -/

/-- One call per page, each made whatever the earlier ones returned: whether all of them
succeeded, and the state after the last. -/
def callEach (call : State → Word → Word → Bool × State) (stride : Word) :
    ℕ → Word → Word → State → Bool × State
  | 0, _, _, s => (true, s)
  | count + 1, virt, phys, s =>
    let (returned, s) := call s virt phys
    let (rest, s) := callEach call stride count (virt + stride) (phys + stride) s
    (returned && rest, s)

/-- `map_page`, or `map_page_large`, on each page of the range in order. -/
def pageCalls (s : State) (pml4 : Word) (request : RangeRequest) : Bool × State :=
  if request.large then
    callEach (fun s virt phys ↦ mapPageLarge s pml4 virt phys request.flags) kLargePageSize
      (request.size.toNat / 2 ^ 21) request.virt request.phys s
  else
    callEach (fun s virt phys ↦ mapPage s pml4 virt phys request.flags) kPageSize
      (request.size.toNat / 2 ^ 12) request.virt request.phys s

/-- `map_range`, or `map_range_large`, on the range. -/
def rangeCall (s : State) (space : AddressSpace) (request : RangeRequest) : Bool × State :=
  if request.large then
    mapRangeLarge s space request.virt request.phys request.size request.flags
  else mapRange s space request.virt request.phys request.size request.flags

/-- The range call returns true exactly when every page call does, and then leaves the same
state. -/
def StandsFor (range pages : Bool × State) : Prop :=
  (range.1 = true ↔ pages.1 = true) ∧ (range.1 = true → range.2 = pages.2)

theorem rangeCall_eq (s : State) (space : AddressSpace) (request : RangeRequest) :
    rangeCall s space request = mapAll s space request.virt request.phys request.size
      request.flags request.large := by
  unfold rangeCall
  cases hlarge : request.large with
  | true => rw [if_pos rfl, mapRangeLarge_eq]
  | false => rw [if_neg Bool.false_ne_true, mapRange_eq]

/-- The page size as the source has it. -/
def strideWord (request : RangeRequest) : Word :=
  if request.large then kLargePageSize else kPageSize

theorem pageCalls_eq (s : State) (pml4 : Word) (request : RangeRequest) :
    pageCalls s pml4 request =
      callEach (fun s virt phys ↦ mapOne s pml4 ⟨virt, phys, request.flags, request.large⟩)
        (strideWord request) (request.size.toNat / (strideWord request).toNat) request.virt
        request.phys s := by
  unfold pageCalls strideWord
  cases request.large with
  | true =>
    simp only [if_true, mapPageLarge_eq]
    rfl
  | false =>
    simp only [Bool.false_eq_true, if_false, mapPage_eq]
    rfl

section Loop

variable {pml4 : Word} {flags : PageFlags} {large : Bool} {stride : Word}

/-- The pages of a sequence of calls. -/
def pagesFrom (flags : PageFlags) (large : Bool) (stride : Word) (count : ℕ) (virt phys : Word) :
    List Page :=
  (List.range count).map fun index ↦ ⟨virt + BitVec.ofNat 64 (index * stride.toNat),
    phys + BitVec.ofNat 64 (index * stride.toNat), flags, large⟩

theorem pagesFrom_succ (count : ℕ) (virt phys : Word) :
    pagesFrom flags large stride (count + 1) virt phys =
      ⟨virt, phys, flags, large⟩ ::
        pagesFrom flags large stride count (virt + stride) (phys + stride) := by
  have hshift : ∀ (base : Word) (index : ℕ),
      base + BitVec.ofNat 64 ((index + 1) * stride.toNat) =
        base + stride + BitVec.ofNat 64 (index * stride.toNat) := by
    intro base index
    rw [Nat.succ_mul, BitVec.ofNat_add, BitVec.ofNat_toNat, BitVec.setWidth_eq]
    ring
  rw [pagesFrom, List.range_succ_eq_map, List.map_cons, List.map_map]
  simp only [Nat.zero_mul, BitVec.add_zero, Function.comp_def,
    Nat.succ_eq_add_one, hshift]
  rfl

theorem callEach_succ (call : State → Word → Word → Bool × State) (count : ℕ) (virt phys : Word)
    (s : State) :
    callEach call stride (count + 1) virt phys s =
      let rest := callEach call stride count (virt + stride) (phys + stride) (call s virt phys).2
      ((call s virt phys).1 && rest.1, rest.2) := rfl

theorem mapPages_cons (page : Page) (pages : List Page) (s : State) :
    mapPages pml4 (page :: pages) s =
      if (mapOne s pml4 page).1 then mapPages pml4 pages (mapOne s pml4 page).2
      else (false, (mapOne s pml4 page).2) := by
  rw [mapPages]
  generalize mapOne s pml4 page = result
  obtain ⟨returned, later⟩ := result
  cases returned <;> rfl

theorem callEach_grows (call : State → Word → Word → Bool × State)
    (hcall : ∀ s virt phys, State.Grows s (call s virt phys).2) (stride : Word) (count : ℕ)
    (virt phys : Word) (s : State) : State.Grows s (callEach call stride count virt phys s).2 := by
  induction count generalizing virt phys s with
  | zero => exact ⟨[], rfl⟩
  | succ count ih => exact (hcall s virt phys).trans (ih _ _ _)

/-- Making every call and stopping at the first failure come to the same, by induction over the
calls still to make. -/
theorem callEach_spec (count : ℕ) (virt phys : Word) (s : State) :
    let calls := callEach (fun s virt phys ↦ mapOne s pml4 ⟨virt, phys, flags, large⟩) stride
      count virt phys s
    let loop := mapPages pml4 (pagesFrom flags large stride count virt phys) s
    calls.1 = loop.1 ∧ (loop.1 = true → calls.2 = loop.2) ∧
      (State.Calm s calls.2 → State.Calm s loop.2) := by
  induction count generalizing virt phys s with
  | zero => exact ⟨rfl, fun _ ↦ rfl, fun hcalm ↦ hcalm⟩
  | succ count ih =>
    have hgrows := (mapOne_proceeds s pml4 ⟨virt, phys, flags, large⟩).grows
    have hrest := callEach_grows (fun s virt phys ↦ mapOne s pml4 ⟨virt, phys, flags, large⟩)
      (fun s virt phys ↦ (mapOne_proceeds s pml4 _).grows) stride count (virt + stride)
      (phys + stride)
      (mapOne s pml4 ⟨virt, phys, flags, large⟩).2
    obtain ⟨hreturned, hstate, hcalmRest⟩ := ih (virt + stride) (phys + stride)
      (mapOne s pml4 ⟨virt, phys, flags, large⟩).2
    rw [pagesFrom_succ, mapPages_cons, callEach_succ]
    simp only
    rw [State.calm_trans hgrows hrest]
    cases hfirst : (mapOne s pml4 ⟨virt, phys, flags, large⟩).1 with
    | true =>
      rw [if_pos rfl, Bool.true_and]
      refine ⟨hreturned, hstate, fun hcalm ↦ ?_⟩
      exact (State.calm_trans hgrows (mapPages_proceeds _ _ _).grows).mpr
        ⟨hcalm.1, hcalmRest hcalm.2⟩
    | false =>
      rw [if_neg Bool.false_ne_true, Bool.false_and]
      exact ⟨rfl, fun hfalse ↦ Bool.noConfusion hfalse, fun hcalm ↦ hcalm.1⟩

end Loop

/-! ## A range stands for its pages -/

section Standing

variable {s : State} {space : AddressSpace} {request : RangeRequest}

/-- The pages of a range are the pages of its page calls. -/
theorem RangeRequest.pages_eq (request : RangeRequest) :
    request.pages = pagesFrom request.flags request.large (strideWord request)
      (request.size.toNat / (strideWord request).toNat) request.virt request.phys := by
  rw [RangeRequest.pages, rangePages, rangeOffsets, List.map_map]
  rfl

/-- Page calls and the loop of a range call. -/
theorem pageCalls_spec (s : State) (pml4 : Word) (request : RangeRequest) :
    (pageCalls s pml4 request).1 = (mapPages pml4 request.pages s).1 ∧
      ((mapPages pml4 request.pages s).1 = true →
        (pageCalls s pml4 request).2 = (mapPages pml4 request.pages s).2) ∧
      (State.Calm s (pageCalls s pml4 request).2 →
        State.Calm s (mapPages pml4 request.pages s).2) := by
  rw [pageCalls_eq, request.pages_eq]
  exact callEach_spec _ _ _ _

/-- Only admissible pages are ever mapped, in any state. -/
theorem mapPages_admissible {pml4 : Word} {pages : List Page}
    (h : (mapPages pml4 pages s).1 = true) : ∀ page ∈ pages, Page.Admissible page := by
  induction pages generalizing s with
  | nil => simp
  | cons page pages ih =>
    rw [mapPages_cons] at h
    split_ifs at h with hfirst
    rw [List.forall_mem_cons]
    refine ⟨?_, ih h⟩
    by_contra hpage
    rw [mapOne_of_refused (Or.inr hpage)] at hfirst
    cases hfirst

/-- Away from the top of the address space the end checks refuse nothing the pages accept. -/
theorem RangeRequest.admissible_of_pages (hfits : request.Fits)
    (hend : request.virt.toNat + request.size.toNat < 2 ^ 64)
    (hpages : ∀ page ∈ request.pages, Page.Admissible page) : request.Admissible := by
  obtain ⟨hhalf, hbound, -⟩ := (RangeRequest.pages_admissible_iff hfits).mp hpages
  have hpos := hfits.size_pos
  have hlast : (request.virt + request.size - 1).toNat =
      request.virt.toNat + request.size.toNat - 1 := by
    bv_omega
  rw [RangeRequest.admissible_iff, isCanonical_iff, isCanonical_iff, hlast]
  exact ⟨hpos, hfits.virt_aligned, hfits.phys_aligned, hfits.size_aligned, hend, by omega,
    by omega, by omega⟩

theorem rangeCall_of_admissible (hpointer : space.pml4 ≠ 0) (h : request.Admissible) :
    rangeCall s space request = mapPages space.pml4 request.pages s := by
  have hadmitted : ¬ (space.pml4 = 0 ∨
      ¬ RangeAdmissible request.virt request.phys request.size request.large) := by
    rw [not_or, not_not]
    exact ⟨hpointer, h⟩
  rw [rangeCall_eq, mapAll, if_neg hadmitted]
  rfl

theorem rangeCall_of_refused (h : ¬ request.Admissible) :
    rangeCall s space request = (false, s) := by
  have hrefused : space.pml4 = 0 ∨
      ¬ RangeAdmissible request.virt request.phys request.size request.large := Or.inr h
  rw [rangeCall_eq, mapAll, if_pos hrefused]

/-- A range that ends below the top stands for its pages, in any state and for any flags. -/
theorem rangeCall_standsFor (hpointer : space.pml4 ≠ 0) (hfits : request.Fits)
    (hend : request.virt.toNat + request.size.toNat < 2 ^ 64) :
    StandsFor (rangeCall s space request) (pageCalls s space.pml4 request) := by
  obtain ⟨hreturned, hstate, -⟩ := pageCalls_spec s space.pml4 request
  rw [StandsFor, hreturned]
  by_cases hadmissible : request.Admissible
  · rw [rangeCall_of_admissible hpointer hadmissible]
    exact ⟨Iff.rfl, fun htrue ↦ (hstate htrue).symm⟩
  · rw [rangeCall_of_refused hadmissible]
    refine ⟨iff_of_false Bool.false_ne_true fun htrue ↦ hadmissible ?_, fun hfalse ↦
      Bool.noConfusion hfalse⟩
    exact RangeRequest.admissible_of_pages hfits hend (mapPages_admissible htrue)

/-- Page calls at the very top of the address space. -/
theorem Ready.pageCalls_iff {stock held roots : Set ℕ} {root : ℕ}
    (hready : Ready stock held roots s root) (hspace : space.pml4 = tableAddress s.toStatics root)
    (hfits : request.Fits) (hflags : PageFlags.Named request.flags)
    (hcalm : State.Calm s (pageCalls s space.pml4 request).2) :
    (pageCalls s space.pml4 request).1 = true ↔
      ((request.virt.toNat + request.size.toNat ≤ 2 ^ 47 ∨
          2 ^ 64 - 2 ^ 47 ≤ request.virt.toNat) ∧
        request.phys.toNat + request.size.toNat ≤ 2 ^ 52 ∧
        (request.large = false → has request.flags PageFlags.huge = false)) ∧
        request.Vacant (installed s space.pml4) := by
  obtain ⟨hreturned, -, hcalmLoop⟩ := pageCalls_spec s space.pml4 request
  have hnamed : ∀ page ∈ request.pages, PageFlags.Named page.flags := by
    intro page hpage
    rw [rangePages_flags hpage]
    exact hflags
  have hloop := hcalmLoop hcalm
  rw [hreturned, ← RangeRequest.pages_admissible_iff hfits, RangeRequest.vacant_iff hfits, hspace]
  rw [hspace] at hloop
  rw [hready.mapPages_iff hnamed (RangeRequest.pages_pairwise hfits) hloop]
  exact forall₂_and

/-- A range stands for its pages unless it ends at the top and all of them can be mapped. -/
theorem Ready.standsFor_iff {stock held roots : Set ℕ} {root : ℕ}
    (hready : Ready stock held roots s root) (hspace : space.pml4 = tableAddress s.toStatics root)
    (hfits : request.Fits) (hflags : PageFlags.Named request.flags)
    (hcalm : State.Calm s (pageCalls s space.pml4 request).2) :
    StandsFor (rangeCall s space request) (pageCalls s space.pml4 request) ↔
      request.virt.toNat + request.size.toNat < 2 ^ 64 ∨
        request.virt.toNat < 2 ^ 64 - 2 ^ 47 ∨
        2 ^ 52 < request.phys.toNat + request.size.toNat ∨
        (request.large = false ∧ has request.flags PageFlags.huge = true) ∨
        ∃ address, request.Contains address ∧
          ∃ page ∈ installed s space.pml4, Page.Covers page address := by
  have hpointer : space.pml4 ≠ 0 := by
    rw [hspace]
    exact hready.nonNull root
      (hready.inv.table_mem_stock (hready.inv.forest.roots_subset_taken hready.root_mem))
  by_cases hend : request.virt.toNat + request.size.toNat < 2 ^ 64
  · exact iff_of_true (rangeCall_standsFor hpointer hfits hend) (Or.inl hend)
  -- The range ends at the top: the guard refuses it.
  have hrefused : ¬ request.Admissible := fun hadmissible ↦
    hend ((RangeRequest.admissible_iff request).mp hadmissible).2.2.2.2.1
  have hpages := hready.pageCalls_iff hspace hfits hflags hcalm
  have hstands : StandsFor (rangeCall s space request) (pageCalls s space.pml4 request) ↔
      ¬ (pageCalls s space.pml4 request).1 = true := by
    rw [rangeCall_of_refused hrefused, StandsFor]
    simp
  have hsize := hfits.size_pos
  have hhalf : (request.virt.toNat + request.size.toNat ≤ 2 ^ 47 ∨
      2 ^ 64 - 2 ^ 47 ≤ request.virt.toNat) ↔ ¬ request.virt.toNat < 2 ^ 64 - 2 ^ 47 := by
    omega
  have hsmall : (request.large = false → has request.flags PageFlags.huge = false) ↔
      ¬ (request.large = false ∧ has request.flags PageFlags.huge = true) := by
    rw [not_and, Bool.not_eq_true]
  have hvacant : request.Vacant (installed s space.pml4) ↔
      ¬ ∃ address, request.Contains address ∧
        ∃ page ∈ installed s space.pml4, Page.Covers page address := by
    rw [RangeRequest.Vacant]
    push Not
    exact Iff.rfl
  refine hstands.trans ⟨fun hpagesRefused ↦ ?_, fun hcause hpagesAccepted ↦ ?_⟩
  · by_contra hnone
    rw [not_or, not_or, not_or, not_or] at hnone
    obtain ⟨-, hupper, hbound, hflag, hcovered⟩ := hnone
    exact hpagesRefused (hpages.mpr ⟨⟨hhalf.mpr hupper, not_lt.mp hbound, hsmall.mpr hflag⟩,
      hvacant.mpr hcovered⟩)
  · obtain ⟨⟨hupper, hbound, hflag⟩, hfree⟩ := hpages.mp hpagesAccepted
    rcases hcause with htop | hlow | hfar | hhuge | hcovered
    · exact hend htop
    · exact hhalf.mp hupper hlow
    · exact absurd hfar (not_lt.mpr hbound)
    · exact hsmall.mp hflag hhuge
    · exact hvacant.mp hfree hcovered

end Standing

/-- **When a range stands for its pages.** A range that ends below the top of the address space
does so in every state and for all flags.  In a state reached without exhaustion, with named flags
and a frame for each table the page calls miss, it does so exactly if it ends below the top or the
page calls are refused too. -/
theorem range_stands_for_pages {regions : List MemoryRegion} {hhdmOffset : Word}
    {memory : Memory} {s : State} (hmap : LimineMap regions)
    (hnonnull : NonNullMap regions hhdmOffset) (hinit : init regions hhdmOffset memory = .ok s)
    {operations : List Operation}
    (hlegal : Run.Legal World.step World.Permits (World.start s) operations)
    (hcalm : Event.exhausted ∉ (Run.final World.step (World.start s) operations).state.trace) :
    let world := Run.final World.step (World.start s) operations
    (∀ (state : State) (space : AddressSpace) (request : RangeRequest), space.pml4 ≠ 0 →
      request.Fits → request.virt.toNat + request.size.toNat < 2 ^ 64 →
      StandsFor (rangeCall state space request) (pageCalls state space.pml4 request)) ∧
    ∀ space ∈ world.spaces, ∀ request : RangeRequest, request.Fits →
      PageFlags.Named request.flags →
      State.Calm world.state (pageCalls world.state space.pml4 request).2 →
      (StandsFor (rangeCall world.state space request)
          (pageCalls world.state space.pml4 request) ↔
        request.virt.toNat + request.size.toNat < 2 ^ 64 ∨
          request.virt.toNat < 2 ^ 64 - 2 ^ 47 ∨
          2 ^ 52 < request.phys.toNat + request.size.toNat ∨
          (request.large = false ∧ has request.flags PageFlags.huge = true) ∨
          ∃ address, request.Contains address ∧
            ∃ page ∈ installed world.state space.pml4, Page.Covers page address) := by
  intro world
  refine ⟨fun state space request hpointer hfits hend ↦ rangeCall_standsFor hpointer hfits hend, ?_⟩
  intro space hspace request hfits hflags hcalmCalls
  obtain ⟨root, hready, hpml4⟩ := ready_of_run hmap hnonnull hinit hlegal hcalm hspace
  exact hready.standsFor_iff (congrArg AddressSpace.pml4 hpml4) hfits hflags hcalmCalls

/-- The last page of the address space. -/
def topRequest : RangeRequest where
  virt := 0xfffffffffffff000
  phys := 0x8000
  size := 0x1000
  flags := PageFlags.writable
  large := false

/-- In a fresh space `map_range` refuses the last page of the address space and `map_page` maps
it. -/
theorem exists_bootMap_top :
    ∃ s, init bootMap 0xffff800000000000 (fun _ ↦ 0) = .ok s ∧
      let operations : List Operation := [.paging (.createAddressSpace ⟨0, 0⟩)]
      Run.Legal World.step World.Permits (World.start s) operations ∧
      let world := Run.final World.step (World.start s) operations
      let space : AddressSpace := ⟨0xffff800000002000, 0x2000⟩
      space ∈ world.spaces ∧ (rangeCall world.state space topRequest).1 = false ∧
        (pageCalls world.state space.pml4 topRequest).1 = true ∧
        Event.exhausted ∉ (pageCalls world.state space.pml4 topRequest).2.trace := by
  exact Run.exists_of_succeedsWith (by decide +kernel)

theorem pageCalls_grows (s : State) (pml4 : Word) (request : RangeRequest) :
    State.Grows s (pageCalls s pml4 request).2 := by
  rw [pageCalls_eq]
  exact callEach_grows _ (fun s virt phys ↦ (mapOne_proceeds s pml4 _).grows) _ _ _ _ _

theorem topRequest_fits : topRequest.Fits := by
  constructor <;> decide

theorem range_stands_for_pages_bootMap :
    ∃ s, init bootMap 0xffff800000000000 (fun _ ↦ 0) = .ok s ∧
      let world := Run.final World.step (World.start s)
        [.paging (.createAddressSpace ⟨0, 0⟩)]
      let space : AddressSpace := ⟨0xffff800000002000, 0x2000⟩
      (StandsFor (rangeCall world.state space topRequest)
          (pageCalls world.state space.pml4 topRequest) ↔
        topRequest.virt.toNat + topRequest.size.toNat < 2 ^ 64 ∨
          topRequest.virt.toNat < 2 ^ 64 - 2 ^ 47 ∨
          2 ^ 52 < topRequest.phys.toNat + topRequest.size.toNat ∨
          (topRequest.large = false ∧ has topRequest.flags PageFlags.huge = true) ∨
          ∃ address, topRequest.Contains address ∧
            ∃ page ∈ installed world.state space.pml4, Page.Covers page address) := by
  obtain ⟨s, hinit, hlegal, hspace, -, -, hcalm⟩ := exists_bootMap_top
  exact ⟨s, hinit, (range_stands_for_pages (by decide) bootMap_nonNull hinit hlegal
    ((pageCalls_grows _ _ _).calm_before hcalm)).2 _ hspace topRequest topRequest_fits (by decide)
    (State.calm_of_not_mem hcalm)⟩

/-- The last page of the address space is refused as a range and mapped as a page. -/
theorem range_misses_top :
    ¬ ∀ (regions : List MemoryRegion) (hhdmOffset : Word) (memory : Memory) (s : State)
      (operations : List Operation) (space : AddressSpace) (request : RangeRequest),
      LimineMap regions → NonNullMap regions hhdmOffset → init regions hhdmOffset memory = .ok s →
      Run.Legal World.step World.Permits (World.start s) operations →
      let world := Run.final World.step (World.start s) operations
      Event.exhausted ∉ (pageCalls world.state space.pml4 request).2.trace →
      space ∈ world.spaces → request.Fits →
      StandsFor (rangeCall world.state space request)
        (pageCalls world.state space.pml4 request) := by
  intro hall
  obtain ⟨s, hinit, hlegal, hspace, hrefused, haccepted, hcalm⟩ := exists_bootMap_top
  have hstands := hall _ _ _ _ _ _ topRequest (by decide) bootMap_nonNull hinit hlegal hcalm hspace
    topRequest_fits
  rw [hstands.1.mpr haccepted] at hrefused
  cases hrefused

/-! ## Bad arguments -/

namespace RangeRequest

/-- The page `index` of the range, wrapping as the source does. -/
def page (request : RangeRequest) (index : ℕ) : Page where
  virt := request.virt + BitVec.ofNat 64 (index * request.stride)
  phys := request.phys + BitVec.ofNat 64 (index * request.stride)
  flags := request.flags
  large := request.large

/-- The page the range starts with. -/
def firstPage (request : RangeRequest) : Page where
  virt := request.virt
  phys := request.phys
  flags := request.flags
  large := request.large

/-- Some page of the range is inadmissible by its arguments alone, or the range wraps. -/
def HasBadPage (request : RangeRequest) : Prop :=
  (∃ index, index * request.stride < request.size.toNat ∧
      ¬ Page.Admissible (request.page index)) ∨
    2 ^ 64 < request.virt.toNat + request.size.toNat ∨
    2 ^ 64 < request.phys.toNat + request.size.toNat

variable {request : RangeRequest}

theorem exists_bad_page (h : request.Admissible) (hbad : request.HasBadPage) :
    ∃ page ∈ request.pages, ¬ Page.Admissible page := by
  have hvirt := h.fits.virt_le
  have hphys := h.fits.phys_le
  rcases hbad with ⟨index, hindex, hpage⟩ | hwrap | hwrap
  · refine ⟨request.page index, mem_pages.mpr ⟨index, ?_, rfl⟩, hpage⟩
    rw [Nat.lt_div_iff_mul_lt' (Nat.dvd_of_mod_eq_zero h.fits.size_aligned), Nat.mul_comm]
    exact hindex
  · omega
  · omega

theorem exists_pages_cons (h : request.Fits) :
    ∃ rest, request.pages = request.firstPage :: rest := by
  have hcount := count_pos h
  have hstride : (strideWord request).toNat = request.stride := by
    unfold strideWord stride
    split <;> rfl
  obtain ⟨count, hsucc⟩ := Nat.exists_eq_succ_of_ne_zero hcount.ne'
  rw [pages_eq, hstride, hsucc, Nat.succ_eq_add_one, pagesFrom_succ]
  exact ⟨_, rfl⟩

end RangeRequest

section Bad

variable {stock held roots : Set ℕ} {s later : State} {space : AddressSpace}
  {request : RangeRequest}

theorem Unchanged.refl (s : State) : Unchanged s s :=
  ⟨rfl, rfl, fun _ _ ↦ rfl, rfl, fun _ _ ↦ rfl⟩

theorem rangeCall_of_null (hpointer : space.pml4 = 0) : rangeCall s space request = (false, s) := by
  rw [rangeCall_eq, mapAll, if_pos (Or.inl hpointer)]

/-- Arguments refused at the first look, by the range call or by its first page call. -/
theorem rangeCall_of_bad_start (s : State) (space : AddressSpace)
    (h : space.pml4 = 0 ∨ ¬ request.Admissible ∨ ¬ Page.Admissible request.firstPage) :
    rangeCall s space request = (false, s) := by
  by_cases hpointer : space.pml4 = 0
  · exact rangeCall_of_null hpointer
  by_cases hadmissible : request.Admissible
  · obtain ⟨rest, hrest⟩ := RangeRequest.exists_pages_cons hadmissible.fits
    have hfirst := (h.resolve_left hpointer).resolve_left (not_not.mpr hadmissible)
    rw [rangeCall_of_admissible hpointer hadmissible, hrest, mapPages_cons,
      mapOne_of_refused (Or.inr hfirst)]
    rfl
  · exact rangeCall_of_refused hadmissible

/-- A range with a bad page is never accepted, in any state. -/
theorem rangeCall_of_bad_page (hbad : request.HasBadPage) :
    (rangeCall s space request).1 = false := by
  by_cases hadmissible : request.Admissible
  · by_cases hpointer : space.pml4 = 0
    · rw [rangeCall_of_null hpointer]
    · obtain ⟨page, hpage, hinadmissible⟩ := RangeRequest.exists_bad_page hadmissible hbad
      rw [rangeCall_of_admissible hpointer hadmissible, ← Bool.not_eq_true]
      exact fun htrue ↦ hinadmissible (mapPages_admissible htrue page hpage)
  · rw [rangeCall_of_refused hadmissible]

/-- A newly installed page shows in the tables. -/
theorem KernelInv.not_unchanged (h : KernelInv stock held roots s)
    (hlater : KernelInv stock held roots later) (hpopulated : Populated (tables s) roots)
    (root : ℕ) (page : Page) (hpage : page ∈ framePages later root)
    (hvacant : ∀ other ∈ framePages s root, ¬ Page.Overlaps page other) :
    ¬ Unchanged s later := by
  intro hunchanged
  have hroot := hlater.forest.pages_root root page hpage
  have hadmissible := (hlater.forest.pages_ok root page hpage).1
  have hsame : ∀ frame, Reached link (tables s) roots 3 frame →
      tables later frame = tables s frame :=
    fun frame hframe ↦ hunchanged.tables_eq frame ((h.forest.taken_iff frame).mpr hframe)
  obtain ⟨table, hdescend, hentry⟩ := entryAt_eq_some.mp (hlater.forest.installed root page hpage)
  rw [descend_congr_of_eqOn hroot hsame (Page.length_slots_le page)] at hdescend
  rw [hsame table ⟨root, hroot, _, Page.length_slots_le page, hdescend⟩] at hentry
  obtain ⟨other, hother, hoverlaps⟩ := h.exists_overlapping_of_occupied hpopulated hroot
    hadmissible ⟨table, hdescend, by rw [hentry]; exact Page.leafEntry_ne_zero page⟩
  exact hvacant other hother hoverlaps

/-- When a range with a bad page leaves no trace. -/
theorem Ready.bad_range_iff {root : ℕ} (hready : Ready stock held roots s root)
    (hspace : space.pml4 = tableAddress s.toStatics root) (hflags : PageFlags.Named request.flags)
    (hbad : request.HasBadPage) (hcalm : State.Calm s (rangeCall s space request).2) :
    ((rangeCall s space request).1 = false ∧ Unchanged s (rangeCall s space request).2) ↔
      ¬ request.Admissible ∨ ¬ Page.Admissible request.firstPage ∨
        (∃ other ∈ installed s space.pml4, Page.Overlaps request.firstPage other) ∧
          ∀ table index, Widens s root request.firstPage table index →
            has (tables s table index) PageFlags.user = true := by
  rw [and_iff_right (rangeCall_of_bad_page hbad), ← or_assoc]
  by_cases hstart : ¬ request.Admissible ∨ ¬ Page.Admissible request.firstPage
  · rw [rangeCall_of_bad_start s space (Or.inr hstart)]
    exact iff_of_true (Unchanged.refl s) (Or.inl hstart)
  rw [or_iff_right hstart]
  rw [not_or, not_not, not_not] at hstart
  obtain ⟨hadmissible, hfirst⟩ := hstart
  have hbound := hready.inv.root_lt hready.root_mem
  have hpointer : space.pml4 ≠ 0 := by
    rw [hspace]
    exact hready.nonNull root
      (hready.inv.table_mem_stock (hready.inv.forest.roots_subset_taken hready.root_mem))
  have hfirstFlags : PageFlags.Named request.firstPage.flags := hflags
  have hspec := mapPages_spec hready.inv hready.root_mem
    (fun page hpage ↦ by rw [rangePages_flags hpage]; exact hflags : ∀ page ∈ request.pages,
      PageFlags.Named page.flags)
  obtain ⟨rest, hrest⟩ := RangeRequest.exists_pages_cons hadmissible.fits
  have hgrows := (mapOne_proceeds s (tableAddress s.toStatics root) request.firstPage).grows
  have hloopGrows := (mapPages_proceeds (tableAddress s.toStatics root) rest
    (Vmm.mapOne s (tableAddress s.toStatics root) request.firstPage).2).grows
  rw [rangeCall_of_admissible hpointer hadmissible, hspace] at hcalm ⊢
  obtain ⟨hinv, hstatics, -, -⟩ := hspec hcalm
  rw [hrest, mapPages_cons] at hcalm hinv hstatics ⊢
  have hfirstCalm : State.Calm s (Vmm.mapOne s (tableAddress s.toStatics root)
      request.firstPage).2 := by
    split_ifs at hcalm
    · exact ((State.calm_trans hgrows hloopGrows).mp hcalm).1
    · exact hcalm
  have hone := hready.mapOne_iff hfirstFlags hfirstCalm
  by_cases hcollides : ∃ other ∈ installed s (tableAddress s.toStatics root),
      Page.Overlaps request.firstPage other
  · have hrefused : (Vmm.mapOne s (tableAddress s.toStatics root) request.firstPage).1 = false := by
      rw [← Bool.not_eq_true, hone]
      rintro ⟨-, hfree⟩
      obtain ⟨other, hother, hoverlaps⟩ := hcollides
      exact hfree other hother hoverlaps
    rw [and_iff_right hcollides, hrefused, if_neg Bool.false_ne_true]
    exact (hready.mapOne_refused hfirstCalm hrefused).unchanged_iff hready.inv hready.root_mem
  · have haccepted := hone.mpr ⟨hfirst, fun other hother hoverlaps ↦
      hcollides ⟨other, hother, hoverlaps⟩⟩
    rw [haccepted, if_pos rfl] at hinv hstatics ⊢
    have hone' := (mapOne_spec hready.inv hready.root_mem hfirstFlags hfirstCalm).success haccepted
    refine iff_of_false (hready.inv.not_unchanged hinv hready.populated root request.firstPage
      ?_ ?_) fun hboth ↦ hcollides hboth.1
    · rw [mem_framePages hbound, hstatics]
      apply installed_of_grows hloopGrows
      rw [hone']
      exact List.mem_cons_self
    · intro other hother hoverlaps
      exact hcollides ⟨other, (mem_framePages hbound).mp hother, hoverlaps⟩

/-- What is left of a range with a bad page whose ends are accepted: the pages before the first one
that is inadmissible or collides, and they translate. -/
theorem Ready.bad_range_left {root : ℕ} (hready : Ready stock held roots s root)
    (hspace : space.pml4 = tableAddress s.toStatics root) (hflags : PageFlags.Named request.flags)
    (hbad : request.HasBadPage) (hadmissible : request.Admissible)
    (hcalm : State.Calm s (rangeCall s space request).2) :
    ∃ done obstacle rest, request.pages = done ++ obstacle :: rest ∧
      (∀ page ∈ done, Page.Mappable (installed s space.pml4) page) ∧
      ¬ Page.Mappable (installed s space.pml4) obstacle ∧
      installed (rangeCall s space request).2 space.pml4 =
        done.reverse ++ installed s space.pml4 ∧
      ∀ address, translate (rangeCall s space request).2 space address =
        lookup (done.reverse ++ installed s space.pml4) address := by
  have hpointer : space.pml4 ≠ 0 := by
    rw [hspace]
    exact hready.nonNull root
      (hready.inv.table_mem_stock (hready.inv.forest.roots_subset_taken hready.root_mem))
  have hreturned : (rangeCall s space request).1 = false := rangeCall_of_bad_page hbad
  have hcall : rangeCall s space request = mapPages space.pml4 request.pages s :=
    rangeCall_of_admissible hpointer hadmissible
  have hnamed : ∀ page ∈ request.pages, PageFlags.Named page.flags := by
    intro page hpage
    rw [rangePages_flags hpage]
    exact hflags
  have hinstalled := mapPages_installed space.pml4 request.pages s space.pml4
  obtain ⟨rest, hpages, hall⟩ :=
    exists_pages_eq_mappedPages_append space.pml4 request.pages s
  rw [hcall] at hcalm hreturned ⊢
  rw [if_pos rfl] at hinstalled
  rw [hspace] at hcalm
  obtain ⟨hmapped, hobstacle⟩ := hready.mapPages_mapped hnamed
    (RangeRequest.pages_pairwise hadmissible.fits) hcalm
  have hspec := mapPages_spec hready.inv hready.root_mem hnamed hcalm
  rw [← hspace] at hmapped hobstacle hspec
  cases rest with
  | nil =>
    rw [hall.mpr rfl] at hreturned
    cases hreturned
  | cons obstacle rest =>
    refine ⟨_, obstacle, rest, hpages, hmapped, hobstacle obstacle rest hpages, hinstalled,
      fun address ↦ ?_⟩
    rw [← hinstalled]
    refine hspec.inv.translate_eq_lookup hready.root_mem ?_ hpointer address
    rw [hspec.statics]
    exact hspace

end Bad

/-- **When bad range arguments are caught before anything is mapped.** A range with a bad page is
refused in every state, and arguments refused at the first look leave every state alone.  In a state
reached without exhaustion, a range with a bad page leaves the tables and the allocator unchanged
exactly if it is refused at the first look, or if its first page collides with an installed page and
there is no right to add on the way.  If its ends are accepted, the pages before the first one that
is bad or collides stay mapped. -/
theorem bad_range_caught {regions : List MemoryRegion} {hhdmOffset : Word}
    {memory : Memory} {s : State} (hmap : LimineMap regions)
    (hnonnull : NonNullMap regions hhdmOffset) (hinit : init regions hhdmOffset memory = .ok s)
    {operations : List Operation}
    (hlegal : Run.Legal World.step World.Permits (World.start s) operations)
    (hcalm : Event.exhausted ∉ (Run.final World.step (World.start s) operations).state.trace) :
    let world := Run.final World.step (World.start s) operations
    (∀ (state : State) (space : AddressSpace) (request : RangeRequest),
      request.HasBadPage → (rangeCall state space request).1 = false) ∧
    (∀ (state : State) (space : AddressSpace) (request : RangeRequest),
      space.pml4 = 0 ∨ ¬ request.Admissible ∨ ¬ Page.Admissible request.firstPage →
      rangeCall state space request = (false, state)) ∧
    ∀ space ∈ world.spaces, ∀ request : RangeRequest, PageFlags.Named request.flags →
      request.HasBadPage →
      let later := (rangeCall world.state space request).2
      State.Calm world.state later →
      ((rangeCall world.state space request).1 = false ∧ Unchanged world.state later ↔
        ¬ request.Admissible ∨ ¬ Page.Admissible request.firstPage ∨
          (∃ other ∈ installed world.state space.pml4,
            Page.Overlaps request.firstPage other) ∧
          ∀ table index, Widens world.state (space.pml4Physical.toNat / 4096) request.firstPage
            table index → has (tables world.state table index) PageFlags.user = true) ∧
      (request.Admissible →
        ∃ done obstacle rest, request.pages = done ++ obstacle :: rest ∧
          (∀ page ∈ done, Page.Mappable (installed world.state space.pml4) page) ∧
          ¬ Page.Mappable (installed world.state space.pml4) obstacle ∧
          installed later space.pml4 = done.reverse ++ installed world.state space.pml4 ∧
          ∀ address, translate later space address =
            lookup (done.reverse ++ installed world.state space.pml4) address) := by
  intro world
  refine ⟨fun state space request hbad ↦ rangeCall_of_bad_page hbad,
    fun state space request hstart ↦ rangeCall_of_bad_start state space hstart, ?_⟩
  intro space hspace request hflags hbad later hcalmCall
  obtain ⟨root, hready, rfl⟩ := ready_of_run hmap hnonnull hinit hlegal hcalm hspace
  have hbound := hready.inv.root_lt hready.root_mem
  have hroot : (BitVec.ofNat 64 (4096 * root)).toNat / 4096 = root := by
    rw [BitVec.toNat_ofNat]
    omega
  rw [hroot]
  exact ⟨hready.bad_range_iff rfl hflags hbad hcalmCall, fun hadmissible ↦
    hready.bad_range_left rfl hflags hbad hadmissible hcalmCall⟩

/-- Two pages of which the second lies beyond the last physical address. -/
def crossingRequest : RangeRequest where
  virt := 0x400000
  phys := 0xffffffffff000
  size := 0x2000
  flags := 0
  large := false

theorem crossingRequest_hasBadPage : crossingRequest.HasBadPage := by
  left
  use 1
  decide

theorem exists_bootMap_crossing :
    ∃ s, init bootMap 0xffff800000000000 (fun _ ↦ 0) = .ok s ∧
      let operations : List Operation := [.paging (.createAddressSpace ⟨0, 0⟩)]
      Run.Legal World.step World.Permits (World.start s) operations ∧
      let world := Run.final World.step (World.start s) operations
      let space : AddressSpace := ⟨0xffff800000002000, 0x2000⟩
      space ∈ world.spaces ∧
        (rangeCall world.state space crossingRequest).2.freeFrameCount ≠
          world.state.freeFrameCount ∧
        Event.exhausted ∉ (rangeCall world.state space crossingRequest).2.trace ∧
        installed world.state space.pml4 = [] := by
  exact Run.exists_of_succeedsWith (by decide +kernel)

theorem rangeCall_grows (s : State) (space : AddressSpace) (request : RangeRequest) :
    State.Grows s (rangeCall s space request).2 := by
  rw [rangeCall_eq]
  exact (mapAll_proceeds s space _ _ _ _ _).grows

/-- The first page of `crossingRequest` stays mapped. -/
theorem bad_range_caught_bootMap :
    ∃ s, init bootMap 0xffff800000000000 (fun _ ↦ 0) = .ok s ∧
      let world := Run.final World.step (World.start s)
        [.paging (.createAddressSpace ⟨0, 0⟩)]
      let space : AddressSpace := ⟨0xffff800000002000, 0x2000⟩
      (rangeCall world.state space crossingRequest).1 = false ∧
        translate (rangeCall world.state space crossingRequest).2 space 0x400123 =
          0xffffffffff123 := by
  obtain ⟨s, hinit, hlegal, hspace, -, hcalm, hempty⟩ := exists_bootMap_crossing
  obtain ⟨hrefused, -, hreached⟩ := bad_range_caught (by decide) bootMap_nonNull hinit hlegal
    ((rangeCall_grows _ _ _).calm_before hcalm)
  obtain ⟨done, obstacle, rest, hpages, -, hobstacle, -, htranslate⟩ :=
    (hreached _ hspace crossingRequest (by decide) crossingRequest_hasBadPage
      (State.calm_of_not_mem hcalm)).2 (by unfold RangeRequest.Admissible; decide)
  refine ⟨s, hinit, hrefused _ _ crossingRequest crossingRequest_hasBadPage, ?_⟩
  have hboth : crossingRequest.pages = [crossingRequest.page 0, crossingRequest.page 1] := by decide
  rw [htranslate, hempty, List.append_nil]
  rw [hempty] at hobstacle
  rw [hboth] at hpages
  -- The first page could be mapped, so it is not the obstacle.
  cases done with
  | nil =>
    obtain rfl : crossingRequest.page 0 = obstacle := (List.cons.inj hpages).1
    exact absurd ⟨by decide, fun other hother ↦ absurd hother List.not_mem_nil⟩ hobstacle
  | cons first others =>
    obtain ⟨rfl, htail⟩ := List.cons.inj hpages
    cases others with
    | nil => decide
    | cons second others => simp at htail

/-- The first page of a range whose second page has no physical address is left mapped. -/
theorem bad_range_half_mapped :
    ¬ ∀ (regions : List MemoryRegion) (hhdmOffset : Word) (memory : Memory) (s : State)
      (operations : List Operation) (space : AddressSpace) (request : RangeRequest),
      LimineMap regions → NonNullMap regions hhdmOffset → init regions hhdmOffset memory = .ok s →
      Run.Legal World.step World.Permits (World.start s) operations →
      let world := Run.final World.step (World.start s) operations
      space ∈ world.spaces → PageFlags.Named request.flags → request.HasBadPage →
      Event.exhausted ∉ (rangeCall world.state space request).2.trace →
      (rangeCall world.state space request).1 = false ∧
        Unchanged world.state (rangeCall world.state space request).2 := by
  intro hall
  obtain ⟨s, hinit, hlegal, hspace, hcount, hcalm, -⟩ := exists_bootMap_crossing
  have hunchanged := (hall _ _ _ _ _ _ crossingRequest (by decide) bootMap_nonNull hinit hlegal
    hspace (by decide) crossingRequest_hasBadPage hcalm).2
  exact hcount hunchanged.freeFrameCount

end WaterBuffalo.Vmm
