import WaterBuffalo.Vmm.Ranges

/-!
# The kernel address space

What `build_kernel_address_space` builds when it succeeds: the direct map of everything the memory
map describes, and the four segments of the kernel image with their own rights.
-/

namespace WaterBuffalo.Vmm

open Pmm TableForest

/-- The size of the direct map: the highest end of any region, rounded up to 2 MiB. -/
def directMapSize (regions : List MemoryRegion) : Word :=
  alignUp (highestEnd regions) kLargePageSize

/-- The end of the kernel image, rounded up to a page. -/
def imageEnd (layout : KernelLayout) : Word :=
  alignUp layout.dataEnd kPageSize

def directMapRequest (regions : List MemoryRegion) (hhdmOffset : Word) : RangeRequest where
  virt := hhdmOffset
  phys := 0
  size := directMapSize regions
  flags := PageFlags.writable ||| PageFlags.noExecute
  large := true

/-- The call `map_segment` makes. -/
def segmentRequest (layout : KernelLayout) (start stop : Word) (flags : PageFlags) :
    RangeRequest where
  virt := start
  phys := start - layout.virtualBase + layout.physicalBase
  size := stop - start
  flags := flags
  large := false

/-- The four segments: boot requests, text, read-only data, data. -/
def segmentRequests (layout : KernelLayout) : List RangeRequest :=
  [segmentRequest layout layout.imageStart layout.textStart PageFlags.noExecute,
    segmentRequest layout layout.textStart layout.rodataStart PageFlags.none,
    segmentRequest layout layout.rodataStart layout.dataStart PageFlags.noExecute,
    segmentRequest layout layout.dataStart (imageEnd layout)
      (PageFlags.writable ||| PageFlags.noExecute)]

/-- The range calls of `build_kernel_address_space`. -/
def kernelRequests (regions : List MemoryRegion) (hhdmOffset : Word) (layout : KernelLayout) :
    List RangeRequest :=
  directMapRequest regions hhdmOffset :: segmentRequests layout

/-- The function is a sequence of range calls on a new space.  That the highest end is not zero
is also checked by the first of them. -/
theorem buildKernelAddressSpace_eq (s : State) (out : AddressSpace) (regions : List MemoryRegion)
    (hhdmOffset : Word) (layout : KernelLayout) :
    buildKernelAddressSpace s out (some regions) hhdmOffset layout =
      if regions.length = 0 ∨ hhdmOffset &&& (kLargePageSize - 1) ≠ 0 then (false, out, s)
      else
        match createAddressSpace s out with
        | (false, space, middle) => (false, space, middle)
        | (true, space, middle) =>
          ((mapRequests space (kernelRequests regions hhdmOffset layout) middle).1, space,
            (mapRequests space (kernelRequests regions hhdmOffset layout) middle).2) := by
  simp only [buildKernelAddressSpace, enableNx, mapRangeLarge_eq, mapSegment, mapRange_eq]
  by_cases hlength : regions.length = 0
  · rw [if_pos hlength, if_pos (Or.inl hlength)]
  by_cases haligned : hhdmOffset &&& (kLargePageSize - 1) ≠ 0
  · rw [if_neg hlength, if_pos haligned, if_pos (Or.inr haligned)]
  rw [if_neg hlength, if_neg haligned, if_neg (not_or.mpr ⟨hlength, haligned⟩)]
  generalize createAddressSpace s out = created
  obtain ⟨_ | _, space, middle⟩ := created
  · rfl
  simp only [kernelRequests, segmentRequests, mapRequests, directMapRequest, segmentRequest,
    directMapSize, imageEnd]
  by_cases hhighest : highestEnd regions = 0
  · have hzero : ¬ RangeAdmissible hhdmOffset 0 (alignUp (highestEnd regions) kLargePageSize)
        true := by
      rw [hhighest]
      exact fun hadmissible ↦ hadmissible.1 (by decide)
    rw [if_pos hhighest, mapAll, if_pos (Or.inr hzero)]
  rw [if_neg hhighest]
  -- One range call after the other: a failing one ends both sides alike.
  generalize mapAll middle space _ _ _ _ true = first
  obtain ⟨_ | _, s₁⟩ := first
  · rfl
  simp only
  generalize mapAll s₁ space _ _ _ _ false = second
  obtain ⟨_ | _, s₂⟩ := second
  · rfl
  simp only
  generalize mapAll s₂ space _ _ _ _ false = third
  obtain ⟨_ | _, s₃⟩ := third
  · rfl
  simp only
  generalize mapAll s₃ space _ _ _ _ false = fourth
  obtain ⟨_ | _, s₄⟩ := fourth
  · rfl
  simp only
  generalize mapAll s₄ space _ _ _ _ false = fifth
  obtain ⟨_ | _, s₅⟩ := fifth
  · rfl
  · rfl

/-- What a successful call has done. -/
theorem buildKernelAddressSpace_of_returned {s : State} {out : AddressSpace}
    {regions : List MemoryRegion} {hhdmOffset : Word} {layout : KernelLayout}
    (hreturned : (buildKernelAddressSpace s out (some regions) hhdmOffset layout).1 = true) :
    ∃ space middle, createAddressSpace s out = (true, space, middle) ∧
      buildKernelAddressSpace s out (some regions) hhdmOffset layout =
        ((mapRequests space (kernelRequests regions hhdmOffset layout) middle).1, space,
          (mapRequests space (kernelRequests regions hhdmOffset layout) middle).2) := by
  rw [buildKernelAddressSpace_eq] at hreturned ⊢
  split at hreturned
  · cases hreturned
  rename_i hguards
  rw [if_neg hguards]
  generalize createAddressSpace s out = created at hreturned ⊢
  obtain ⟨_ | _, space, middle⟩ := created
  · cases hreturned
  · exact ⟨space, middle, rfl, rfl⟩

theorem kernelRequests_named (regions : List MemoryRegion) (hhdmOffset : Word)
    (layout : KernelLayout) :
    ∀ request ∈ kernelRequests regions hhdmOffset layout, PageFlags.Named request.flags := by
  simp only [kernelRequests, segmentRequests, directMapRequest, segmentRequest,
    List.forall_mem_cons, List.not_mem_nil, false_implies, implies_true, and_true]
  decide

/-- A fresh frame has no pages installed below it. -/
theorem KernelInv.installed_fresh {stock held roots : Set ℕ} {s : State}
    (h : KernelInv stock held roots s) {fresh : ℕ} (hbound : fresh < 2 ^ 40)
    (hfresh : fresh ∉ tableFrames s) (page : Page) :
    page ∉ installed s (tableAddress s.toStatics fresh) := by
  intro hpage
  rw [← mem_framePages hbound] at hpage
  exact hfresh (h.forest.roots_subset_taken (h.forest.pages_root fresh page hpage))

/-- A successful `build_kernel_address_space` creates a space that maps exactly its ranges. -/
structure KernelSpaceBuilt (stock held roots : Set ℕ) (regions : List MemoryRegion)
    (hhdmOffset : Word) (layout : KernelLayout) (s later : State) (space : AddressSpace)
    (fresh : ℕ) : Prop where
  inv : KernelInv stock held (insert fresh roots) later
  statics : later.toStatics = s.toStatics
  space_eq : space = ⟨tableAddress s.toStatics fresh, BitVec.ofNat 64 (4096 * fresh)⟩
  nonnull : space.pml4 ≠ 0
  maps : MapsRequests (kernelRequests regions hhdmOffset layout) space later

theorem buildKernelAddressSpace_spec {stock held roots : Set ℕ} {s : State}
    (h : KernelInv stock held roots s) {out : AddressSpace} {regions : List MemoryRegion}
    {hhdmOffset : Word} {layout : KernelLayout}
    (hreturned : (buildKernelAddressSpace s out (some regions) hhdmOffset layout).1 = true)
    (hcalm : State.Calm s
      (buildKernelAddressSpace s out (some regions) hhdmOffset layout).2.2) :
    ∃ fresh ∈ stock, KernelSpaceBuilt stock held roots regions hhdmOffset layout s
      (buildKernelAddressSpace s out (some regions) hhdmOffset layout).2.2
      (buildKernelAddressSpace s out (some regions) hhdmOffset layout).2.1 fresh := by
  obtain ⟨space, middle, hcreate, hbuild⟩ :=
    buildKernelAddressSpace_of_returned hreturned
  rw [hbuild] at hreturned hcalm ⊢
  have hfirst := (createAddressSpace_proceeds s out).grows
  rw [hcreate] at hfirst
  have hsecond := (mapRequests_proceeds space (kernelRequests regions hhdmOffset layout)
    middle).grows
  obtain ⟨hcalmFirst, hcalmSecond⟩ := (State.calm_trans hfirst hsecond).mp hcalm
  have hcalmCreate : State.Calm s (createAddressSpace s out).2.2 := by
    rw [hcreate]
    exact hcalmFirst
  obtain ⟨fresh, hfresh, -, hspace, htaken, hinv⟩ := createAddressSpace_spec h hcalmCreate
  rw [hcreate] at hspace htaken hinv
  simp only at hspace htaken hinv
  have hpml4 : space.pml4 = tableAddress middle.toStatics fresh := by
    rw [hspace, htaken.statics]
  obtain ⟨hinv', hstatics, hadmissible, hmem⟩ := mapRequests_spec hinv (Set.mem_insert _ _) hpml4
    (kernelRequests_named regions hhdmOffset layout) hreturned hcalmSecond
  refine ⟨fresh, hfresh, hinv', hstatics.trans htaken.statics, hspace,
    (hadmissible _ List.mem_cons_self).1, fun request hrequest ↦ (hadmissible request hrequest).2,
    fun page ↦ ?_⟩
  have hempty : page ∉ installed middle space.pml4 := by
    rw [htaken.installed_eq, hspace]
    exact h.installed_fresh (h.stock_ok fresh hfresh).1 (htaken.notTaken h.toAccounts) page
  simp only
  rw [hmem page, or_iff_left hempty]

/-! ## The ranges in natural numbers -/

/-- A number rounded up to a multiple of the unit. -/
def roundUp (value unit : ℕ) : ℕ :=
  (value + (unit - 1)) / unit * unit

/-- Rounding up gives zero when the sum wraps. -/
theorem toNat_alignUp {value alignment : Word} (width : ℕ) (hwidth : width < 64)
    (halignment : alignment.toNat = 2 ^ width) :
    (alignUp value alignment).toNat =
      if value.toNat + (2 ^ width - 1) < 2 ^ 64 then roundUp value.toNat (2 ^ width) else 0 := by
  have hpower : 2 ^ width < 2 ^ 64 := Nat.pow_lt_pow_right (by decide) hwidth
  have hpos : 0 < 2 ^ width := Nat.two_pow_pos width
  have hmask : (alignment - 1).toNat = 2 ^ width - 1 := by
    rw [BitVec.toNat_sub_of_le (by rw [BitVec.le_def, halignment]; exact hpos), halignment]
    rfl
  have hvalue := value.isLt
  have hsum : (value + alignment - 1).toNat = (value.toNat + (2 ^ width - 1)) % 2 ^ 64 := by
    rw [← hmask, ← BitVec.toNat_add]
    congr 1
    ring
  rw [alignUp, Bits.toNat_and_notLowMask (value + alignment - 1) (alignment - 1) width hmask, hsum]
  split_ifs with hnowrap
  · rw [Nat.mod_eq_of_lt hnowrap, roundUp]
  · have hmod : (value.toNat + (2 ^ width - 1)) % 2 ^ 64 =
        value.toNat + (2 ^ width - 1) - 2 ^ 64 := by omega
    rw [hmod, Nat.div_eq_of_lt (by omega), Nat.zero_mul]

theorem le_highestEnd {regions : List MemoryRegion} (hnonwrapping : MemoryMap.NonWrapping regions)
    {region : MemoryRegion} (hregion : region ∈ regions) :
    region.base.toNat + region.length.toNat ≤ (highestEnd regions).toNat := by
  have hle := (Bits.foldl_highest (fun region : MemoryRegion ↦ region.base + region.length)
    regions 0).1.2 region hregion
  rw [BitVec.le_def, BitVec.toNat_add, Nat.mod_eq_of_lt (hnonwrapping region hregion)] at hle
  exact hle

/-- An admissible segment request is a range between its two ends. -/
theorem segmentRequest_contains {layout : KernelLayout} {start stop : Word} {flags : PageFlags}
    (h : (segmentRequest layout start stop flags).Admissible) :
    start.toNat < stop.toNat ∧ ∀ address : Word,
      (segmentRequest layout start stop flags).Contains address ↔
        start.toNat ≤ address.toNat ∧ address.toNat < stop.toNat := by
  obtain ⟨hsize, -, -, -, hwrap, -, -, -⟩ := (RangeRequest.admissible_iff _).mp h
  simp only [segmentRequest] at hsize hwrap
  have hstop : start.toNat + (stop - start).toNat = stop.toNat := by
    bv_omega
  refine ⟨by omega, fun address ↦ ?_⟩
  simp only [RangeRequest.Contains, segmentRequest, hstop]

/-- Where a segment request puts an address. -/
theorem segmentRequest_place (layout : KernelLayout) (start stop : Word) (flags : PageFlags)
    (address : Word) :
    (segmentRequest layout start stop flags).phys +
        (address - (segmentRequest layout start stop flags).virt) =
      address - layout.virtualBase + layout.physicalBase := by
  simp only [segmentRequest]
  ring

/-! ## What the built space means -/

/-- The address is in the direct map. -/
def InDirectMap (regions : List MemoryRegion) (hhdmOffset address : Word) : Prop :=
  hhdmOffset.toNat ≤ address.toNat ∧
    address.toNat < hhdmOffset.toNat + (directMapSize regions).toNat

/-- The address is in the kernel image. -/
def InImage (layout : KernelLayout) (address : Word) : Prop :=
  layout.imageStart.toNat ≤ address.toNat ∧ address.toNat < (imageEnd layout).toNat

/-- The rights of an address of the image: those of the segment it is in. -/
def segmentRights (layout : KernelLayout) (address : Word) : Rights :=
  -- Boot requests and read-only data are neither writable nor executable.
  if address < layout.textStart then ⟨false, false, true⟩
  else if address < layout.rodataStart then ⟨false, false, false⟩
  else if address < layout.dataStart then ⟨false, false, true⟩
  else ⟨true, false, true⟩

/-- The space maps the direct map and the image, each with its rights, and nothing else. -/
structure KernelSpaceExact (regions : List MemoryRegion) (hhdmOffset : Word)
    (layout : KernelLayout) (s : State) (space : AddressSpace) : Prop where
  directMap : ∀ address, InDirectMap regions hhdmOffset address →
    translate s space address = address - hhdmOffset ∧
      effectiveRights s space.pml4 address = ⟨true, false, true⟩ ∧
      leafPresent s space.pml4 address = true
  image : ∀ address, InImage layout address →
    translate s space address = address - layout.virtualBase + layout.physicalBase ∧
      effectiveRights s space.pml4 address = segmentRights layout address ∧
      leafPresent s space.pml4 address = true
  outside : ∀ address, ¬ InDirectMap regions hhdmOffset address → ¬ InImage layout address →
    translate s space address = 0 ∧ leafPresent s space.pml4 address = false

theorem ofFlags_readOnly : Rights.ofFlags PageFlags.noExecute = ⟨false, false, true⟩ := by
  decide

theorem ofFlags_none : Rights.ofFlags PageFlags.none = ⟨false, false, false⟩ := by
  decide

theorem ofFlags_data :
    Rights.ofFlags (PageFlags.writable ||| PageFlags.noExecute) = ⟨true, false, true⟩ := by
  decide

section Meaning

variable {stock held roots : Set ℕ} {regions : List MemoryRegion} {hhdmOffset : Word}
  {layout : KernelLayout} {s later : State} {space : AddressSpace} {fresh : ℕ}

theorem inDirectMap_iff (address : Word) :
    InDirectMap regions hhdmOffset address ↔
      (directMapRequest regions hhdmOffset).Contains address := Iff.rfl

theorem toNat_directMapSize (regions : List MemoryRegion) :
    (directMapSize regions).toNat =
      if (highestEnd regions).toNat + (2 ^ 21 - 1) < 2 ^ 64 then
        roundUp (highestEnd regions).toNat (2 ^ 21)
      else 0 :=
  toNat_alignUp 21 (by decide) (by decide)

theorem toNat_imageEnd (layout : KernelLayout) :
    (imageEnd layout).toNat =
      if layout.dataEnd.toNat + (2 ^ 12 - 1) < 2 ^ 64 then roundUp layout.dataEnd.toNat (2 ^ 12)
      else 0 :=
  toNat_alignUp 12 (by decide) (by decide)

/-- Rounding up has not wrapped when the direct map could be built. -/
theorem directMapSize_spec (hdirect : (directMapRequest regions hhdmOffset).Admissible) :
    0 < (directMapSize regions).toNat ∧ (directMapSize regions).toNat % 2 ^ 21 = 0 ∧
      (highestEnd regions).toNat ≤ (directMapSize regions).toNat := by
  obtain ⟨hsize, -, -, hmultiple, -, -, -, -⟩ := (RangeRequest.admissible_iff _).mp hdirect
  have hround := toNat_directMapSize regions
  have hpos : 0 < (directMapSize regions).toNat := hsize
  refine ⟨hsize, hmultiple, ?_⟩
  rw [hround] at hpos ⊢
  split_ifs at hpos ⊢
  · unfold roundUp
    omega
  · cases hpos

/-- The direct map shows every byte below its size. -/
theorem inDirectMap_of_lt (hdirect : (directMapRequest regions hhdmOffset).Admissible)
    {byte : Word} (hbyte : byte.toNat < (directMapSize regions).toNat) :
    InDirectMap regions hhdmOffset (hhdmOffset + byte) := by
  obtain ⟨-, -, -, -, hwrap, -, -, -⟩ := (RangeRequest.admissible_iff _).mp hdirect
  simp only [directMapRequest] at hwrap
  have hsum : (hhdmOffset + byte).toNat = hhdmOffset.toNat + byte.toNat := by
    rw [BitVec.toNat_add]
    exact Nat.mod_eq_of_lt (by omega)
  rw [InDirectMap, hsum]
  omega

/-- The four segments lie one after the other and make up the image. -/
theorem inImage_iff
    (hadmissible : ∀ request ∈ segmentRequests layout, request.Admissible) (address : Word) :
    InImage layout address ↔ ∃ request ∈ segmentRequests layout, request.Contains address := by
  simp only [segmentRequests, List.forall_mem_cons, List.exists_mem_cons_iff, List.not_mem_nil,
    false_and, exists_false, or_false] at hadmissible ⊢
  obtain ⟨hrequests, htext, hrodata, hdata, -⟩ := hadmissible
  obtain ⟨hfirst, hfirstIff⟩ := segmentRequest_contains hrequests
  obtain ⟨hsecond, hsecondIff⟩ := segmentRequest_contains htext
  obtain ⟨hthird, hthirdIff⟩ := segmentRequest_contains hrodata
  obtain ⟨hfourth, hfourthIff⟩ := segmentRequest_contains hdata
  rw [hfirstIff, hsecondIff, hthirdIff, hfourthIff, InImage]
  omega

/-- Each segment has its own rights. -/
theorem rights_of_segment
    (hadmissible : ∀ request ∈ segmentRequests layout, request.Admissible)
    {request : RangeRequest} (hrequest : request ∈ segmentRequests layout) {address : Word}
    (hcontains : request.Contains address) :
    Rights.ofFlags request.flags = segmentRights layout address := by
  simp only [segmentRequests, List.forall_mem_cons] at hadmissible
  obtain ⟨hrequests, htext, hrodata, hdata, -⟩ := hadmissible
  obtain ⟨hfirst, hfirstIff⟩ := segmentRequest_contains hrequests
  obtain ⟨hsecond, hsecondIff⟩ := segmentRequest_contains htext
  obtain ⟨hthird, hthirdIff⟩ := segmentRequest_contains hrodata
  obtain ⟨hfourth, hfourthIff⟩ := segmentRequest_contains hdata
  simp only [segmentRights, BitVec.lt_def]
  simp only [segmentRequests, List.mem_cons, List.not_mem_nil, or_false] at hrequest
  obtain rfl | rfl | rfl | rfl := hrequest
  · rw [hfirstIff] at hcontains
    rw [if_pos hcontains.2]
    exact ofFlags_readOnly
  · rw [hsecondIff] at hcontains
    rw [if_neg (by omega), if_pos hcontains.2]
    exact ofFlags_none
  · rw [hthirdIff] at hcontains
    rw [if_neg (by omega), if_neg (by omega), if_pos hcontains.2]
    exact ofFlags_readOnly
  · rw [hfourthIff] at hcontains
    rw [if_neg (by omega), if_neg (by omega), if_neg (by omega)]
    exact ofFlags_data

theorem KernelSpaceBuilt.exact
    (h : KernelSpaceBuilt stock held roots regions hhdmOffset layout s later space fresh) :
    KernelSpaceExact regions hhdmOffset layout later space := by
  have hroot : fresh ∈ insert fresh roots := Set.mem_insert _ _
  have hpml4 : space.pml4 = tableAddress later.toStatics fresh := by
    rw [h.space_eq, h.statics]
  have hsegments : ∀ request ∈ segmentRequests layout, request.Admissible :=
    fun request hrequest ↦ h.maps.admissible request (List.mem_cons_of_mem _ hrequest)
  refine ⟨fun address haddress ↦ ?_, fun address haddress ↦ ?_,
    fun address hdirect himage ↦ ?_⟩
  · have hrequest : directMapRequest regions hhdmOffset ∈
        kernelRequests regions hhdmOffset layout := List.mem_cons_self
    obtain ⟨htranslate, hrights, hpresent⟩ := h.inv.translate_range hroot hpml4 h.nonnull
      (h.maps.admissible _ hrequest) (h.maps.installed hrequest)
      ((inDirectMap_iff address).mp haddress)
    refine ⟨?_, hrights.trans ofFlags_data, hpresent⟩
    calc
      translate later space address = 0 + (address - hhdmOffset) := htranslate
      _ = address - hhdmOffset := zero_add _
  · obtain ⟨request, hrequest, hcontains⟩ := (inImage_iff hsegments address).mp haddress
    obtain ⟨htranslate, hrights, hpresent⟩ := h.inv.translate_range hroot hpml4 h.nonnull
      (hsegments request hrequest) (h.maps.installed (List.mem_cons_of_mem _ hrequest)) hcontains
    refine ⟨?_, hrights.trans (rights_of_segment hsegments hrequest hcontains), hpresent⟩
    rw [htranslate]
    simp only [segmentRequests, List.mem_cons, List.not_mem_nil, or_false] at hrequest
    obtain rfl | rfl | rfl | rfl := hrequest <;> exact segmentRequest_place _ _ _ _ _
  · refine h.maps.translate_outside h.inv hroot hpml4 ?_
    rw [kernelRequests, List.forall_mem_cons]
    exact ⟨fun hcontains ↦ hdirect hcontains,
      fun request hrequest hcontains ↦
        himage ((inImage_iff hsegments address).mpr ⟨request, hrequest, hcontains⟩)⟩

/-- Every byte below its size is reached through the direct map. -/
theorem KernelSpaceExact.translate_below
    (h : KernelSpaceExact regions hhdmOffset layout s space)
    (hdirect : (directMapRequest regions hhdmOffset).Admissible) {byte : Word}
    (hbyte : byte.toNat < (directMapSize regions).toNat) :
    translate s space (hhdmOffset + byte) = byte ∧
      effectiveRights s space.pml4 (hhdmOffset + byte) = ⟨true, false, true⟩ := by
  obtain ⟨htranslate, hrights, -⟩ :=
    h.directMap (hhdmOffset + byte) (inDirectMap_of_lt hdirect hbyte)
  refine ⟨?_, hrights⟩
  calc
    translate s space (hhdmOffset + byte) = hhdmOffset + byte - hhdmOffset := htranslate
    _ = byte := by ring

/-- No page of the space is both writable and executable. -/
theorem KernelSpaceExact.writeXorExecute
    (h : KernelSpaceExact regions hhdmOffset layout s space) {address : Word}
    (hpresent : leafPresent s space.pml4 address = true)
    (hwritable : (effectiveRights s space.pml4 address).writable = true) :
    (effectiveRights s space.pml4 address).noExecute = true := by
  by_cases hdirect : InDirectMap regions hhdmOffset address
  · rw [(h.directMap address hdirect).2.1]
  by_cases himage : InImage layout address
  · rw [(h.image address himage).2.1] at hwritable ⊢
    unfold segmentRights at hwritable ⊢
    split_ifs at hwritable ⊢
    rfl
  · rw [(h.outside address hdirect himage).2] at hpresent
    cases hpresent

/-- The first address of the direct map maps to frame 0. -/
theorem inDirectMap_hhdmOffset (hdirect : (directMapRequest regions hhdmOffset).Admissible) :
    InDirectMap regions hhdmOffset hhdmOffset := by
  have hsize := (directMapSize_spec hdirect).1
  exact ⟨le_rfl, by omega⟩

/-- Zero means unmapped, but at the addresses that map to physical zero. -/
theorem KernelSpaceExact.translate_eq_zero_iff
    (h : KernelSpaceExact regions hhdmOffset layout s space)
    (hdirect : (directMapRequest regions hhdmOffset).Admissible) (address : Word) :
    (translate s space address = 0 ↔ leafPresent s space.pml4 address = false) ↔
      ¬ (address = hhdmOffset ∨
        InImage layout address ∧ address - layout.virtualBase + layout.physicalBase = 0) := by
  have hstart := inDirectMap_hhdmOffset hdirect
  by_cases hinDirect : InDirectMap regions hhdmOffset address
  · obtain ⟨htranslate, -, hpresent⟩ := h.directMap address hinDirect
    have hplace : InImage layout address →
        address - layout.virtualBase + layout.physicalBase = address - hhdmOffset := by
      intro himage
      rw [← htranslate, (h.image address himage).1]
    have hsame : address - hhdmOffset = 0 ↔ address = hhdmOffset := sub_eq_zero
    rw [htranslate, hpresent]
    constructor
    · rintro hmeans (heq | ⟨himage, hzero⟩)
      · exact Bool.false_ne_true (hmeans.mp (hsame.mpr heq)).symm
      · rw [hplace himage] at hzero
        exact Bool.false_ne_true (hmeans.mp hzero).symm
    · intro hnot
      exact iff_of_false (fun hzero ↦ hnot (Or.inl (hsame.mp hzero)))
        fun htrue ↦ Bool.false_ne_true htrue.symm
  have hne : address ≠ hhdmOffset := by
    rintro rfl
    exact hinDirect hstart
  rw [or_iff_right hne]
  by_cases himage : InImage layout address
  · obtain ⟨htranslate, -, hpresent⟩ := h.image address himage
    rw [htranslate, hpresent, and_iff_right himage]
    simp
  · obtain ⟨htranslate, hpresent⟩ := h.outside address hinDirect himage
    exact iff_of_true (iff_of_true htranslate hpresent) fun hboth ↦ himage hboth.1

end Meaning

/-- The paging code works from any state of the allocator, whatever the trace says. -/
theorem WellFormedAllocator.restartTrace {s : State} (h : WellFormedAllocator s) :
    WellFormedAllocator s.restartTrace :=
  ⟨⟨h.sound.layout, h.sound.padded⟩, h.frame_lt, h.clear⟩

/-- **The kernel address space is exactly what was asked for.** The ghost trace is started afresh
at the call, so that it speaks of this call only. -/
theorem kernel_space_exact {s : State} (hallocator : WellFormedAllocator s) (out : AddressSpace)
    {regions : List MemoryRegion} (hnonwrapping : MemoryMap.NonWrapping regions)
    {hhdmOffset : Word} {layout : KernelLayout}
    (hreturned : (buildKernelAddressSpace s.restartTrace out (some regions) hhdmOffset
      layout).1 = true)
    (hcalm : Event.exhausted ∉ (buildKernelAddressSpace s.restartTrace out (some regions)
      hhdmOffset layout).2.2.trace) :
    let space := (buildKernelAddressSpace s.restartTrace out (some regions) hhdmOffset layout).2.1
    let later := (buildKernelAddressSpace s.restartTrace out (some regions) hhdmOffset layout).2.2
    KernelSpaceExact regions hhdmOffset layout later space ∧
      (∀ region ∈ regions, ∀ byte : Word, region.base.toNat ≤ byte.toNat →
        byte.toNat < region.base.toNat + region.length.toNat →
        translate later space (hhdmOffset + byte) = byte ∧
          effectiveRights later space.pml4 (hhdmOffset + byte) = ⟨true, false, true⟩) ∧
      ∀ address, leafPresent later space.pml4 address = true →
        (effectiveRights later space.pml4 address).writable = true →
          (effectiveRights later space.pml4 address).noExecute = true := by
  intro space later
  have hinv := (hallocator.restartTrace.worldInv rfl).kernel
  obtain ⟨fresh, -, hbuilt⟩ :=
    buildKernelAddressSpace_spec hinv hreturned (State.calm_of_not_mem hcalm)
  have hexact := hbuilt.exact
  have hdirect := hbuilt.maps.admissible _ List.mem_cons_self
  refine ⟨hexact, fun region hregion byte _ hupper ↦ ?_,
    fun address hpresent hwritable ↦ hexact.writeXorExecute hpresent hwritable⟩
  apply hexact.translate_below hdirect
  calc
    byte.toNat < region.base.toNat + region.length.toNat := hupper
    _ ≤ (highestEnd regions).toNat := le_highestEnd hnonwrapping hregion
    _ ≤ (directMapSize regions).toNat := (directMapSize_spec hdirect).2.2

/-- An image of four pages right above the direct map of `bootMap`. -/
def bootLayout : KernelLayout where
  virtualBase := 0xffff800000200000
  physicalBase := 0x100000
  imageStart := 0xffff800000200000
  textStart := 0xffff800000201000
  rodataStart := 0xffff800000202000
  dataStart := 0xffff800000203000
  dataEnd := 0xffff800000203100

theorem exists_bootMap_build :
    ∃ s, init bootMap 0xffff800000000000 (fun _ ↦ 0) = .ok s ∧
      (buildKernelAddressSpace s ⟨0, 0⟩ (some bootMap) 0xffff800000000000 bootLayout).1 = true ∧
      Event.exhausted ∉ (buildKernelAddressSpace s ⟨0, 0⟩ (some bootMap) 0xffff800000000000
        bootLayout).2.2.trace := by
  exact Run.exists_of_succeedsWith (by decide +kernel)

theorem kernel_space_exact_bootMap :
    ∃ s, init bootMap 0xffff800000000000 (fun _ ↦ 0) = .ok s ∧
      KernelSpaceExact bootMap 0xffff800000000000 bootLayout
        (buildKernelAddressSpace s ⟨0, 0⟩ (some bootMap) 0xffff800000000000 bootLayout).2.2
        (buildKernelAddressSpace s ⟨0, 0⟩ (some bootMap) 0xffff800000000000 bootLayout).2.1 := by
  obtain ⟨s, hinit, hreturned, hcalm⟩ := exists_bootMap_build
  have hfresh : s.restartTrace = s := State.restartTrace_of_nil (init_spec hinit).2.2.1
  refine ⟨s, hinit, ?_⟩
  rw [← hfresh] at hreturned hcalm ⊢
  exact (kernel_space_exact (init_wellFormed (by decide) hinit) ⟨0, 0⟩ (by decide) hreturned
    hcalm).1

/-- **Where zero means unmapped.** In the kernel's address space `translate` returns zero exactly
at the addresses without a present leaf, but for the first address of the direct map, which maps
to frame 0, and the address of the image that its bases put there, if any. -/
theorem translate_zero_means_unmapped {s : State} (hallocator : WellFormedAllocator s)
    (out : AddressSpace) {regions : List MemoryRegion} {hhdmOffset : Word} {layout : KernelLayout}
    (hreturned : (buildKernelAddressSpace s.restartTrace out (some regions) hhdmOffset
      layout).1 = true)
    (hcalm : Event.exhausted ∉ (buildKernelAddressSpace s.restartTrace out (some regions)
      hhdmOffset layout).2.2.trace) :
    let space := (buildKernelAddressSpace s.restartTrace out (some regions) hhdmOffset layout).2.1
    let later := (buildKernelAddressSpace s.restartTrace out (some regions) hhdmOffset layout).2.2
    ∀ address, (translate later space address = 0 ↔
        leafPresent later space.pml4 address = false) ↔
      ¬ (address = hhdmOffset ∨
        InImage layout address ∧ address - layout.virtualBase + layout.physicalBase = 0) := by
  intro space later address
  have hinv := (hallocator.restartTrace.worldInv rfl).kernel
  obtain ⟨fresh, -, hbuilt⟩ :=
    buildKernelAddressSpace_spec hinv hreturned (State.calm_of_not_mem hcalm)
  exact hbuilt.exact.translate_eq_zero_iff (hbuilt.maps.admissible _ List.mem_cons_self) address

theorem translate_zero_means_unmapped_bootMap :
    ∃ s, init bootMap 0xffff800000000000 (fun _ ↦ 0) = .ok s ∧
      let built := buildKernelAddressSpace s ⟨0, 0⟩ (some bootMap) 0xffff800000000000 bootLayout
      ((translate built.2.2 built.2.1 0xffff800000001000 = 0 ↔
          leafPresent built.2.2 built.2.1.pml4 0xffff800000001000 = false) ↔
        ¬ ((0xffff800000001000 : Word) = 0xffff800000000000 ∨
          InImage bootLayout 0xffff800000001000 ∧
            0xffff800000001000 - bootLayout.virtualBase + bootLayout.physicalBase = 0)) := by
  obtain ⟨s, hinit, hreturned, hcalm⟩ := exists_bootMap_build
  have hfresh : s.restartTrace = s := State.restartTrace_of_nil (init_spec hinit).2.2.1
  refine ⟨s, hinit, ?_⟩
  rw [← hfresh] at hreturned hcalm ⊢
  exact translate_zero_means_unmapped (init_wellFormed (by decide) hinit) ⟨0, 0⟩ hreturned hcalm _

/-- Frame 0 is mapped at the start of the direct map. -/
theorem translate_zero_ambiguous :
    ¬ ∀ (s : State) (out : AddressSpace) (regions : List MemoryRegion) (hhdmOffset : Word)
      (layout : KernelLayout), WellFormedAllocator s →
      let built := buildKernelAddressSpace s.restartTrace out (some regions) hhdmOffset layout
      built.1 = true → Event.exhausted ∉ built.2.2.trace →
      ∀ address, isCanonical address = true →
        (translate built.2.2 built.2.1 address = 0 ↔
          leafPresent built.2.2 built.2.1.pml4 address = false) := by
  intro hall
  obtain ⟨s, hinit, hreturned, hcalm⟩ := exists_bootMap_build
  have hfresh : s.restartTrace = s := State.restartTrace_of_nil (init_spec hinit).2.2.1
  rw [← hfresh] at hreturned hcalm
  have hallocator := init_wellFormed (by decide) hinit
  have hmeans := hall s ⟨0, 0⟩ bootMap 0xffff800000000000 bootLayout hallocator hreturned hcalm
    0xffff800000000000 (by decide)
  have hinv := (hallocator.restartTrace.worldInv rfl).kernel
  obtain ⟨fresh, -, hbuilt⟩ :=
    buildKernelAddressSpace_spec hinv hreturned (State.calm_of_not_mem hcalm)
  have hdirect := hbuilt.maps.admissible _ List.mem_cons_self
  exact (hbuilt.exact.translate_eq_zero_iff hdirect _).mp hmeans (Or.inl rfl)

end WaterBuffalo.Vmm
