import WaterBuffalo.Vmm.Acceptance
import WaterBuffalo.Vmm.KernelSpace

/-!
# Which inputs `build_kernel_address_space` accepts

The function checks little itself and leaves the rest to its five range calls, whose sizes come
from wrapping subtractions of the layout's fields.  A size that wraps makes a range that wraps, and
the range calls refuse those, so together they accept exactly the inputs that make sense as natural
numbers.
-/

namespace WaterBuffalo.Vmm

open Pmm TableForest

/-! ## Well-formed inputs -/

/-- The largest end of any region. -/
def largestEnd (regions : List MemoryRegion) : ℕ :=
  (regions.map fun region ↦ region.base.toNat + region.length.toNat).foldr max 0

/-- The addresses from `start` up to `stop` lie in one canonical half. -/
def InOneHalf (start stop : ℕ) : Prop :=
  stop ≤ 2 ^ 47 ∨ 2 ^ 64 - 2 ^ 47 ≤ start

/-- Where the image starts in physical memory. -/
def imagePhys (layout : KernelLayout) : Word :=
  layout.imageStart - layout.virtualBase + layout.physicalBase

/-- The direct map fits into the address space. -/
structure WellFormedDirectMap (regions : List MemoryRegion) (hhdmOffset : Word) : Prop where
  highest_pos : 0 < largestEnd regions
  size_lt : roundUp (largestEnd regions) (2 ^ 21) < 2 ^ 64
  aligned : hhdmOffset.toNat % 2 ^ 21 = 0
  stop_lt : hhdmOffset.toNat + roundUp (largestEnd regions) (2 ^ 21) < 2 ^ 64
  oneHalf : InOneHalf hhdmOffset.toNat
    (hhdmOffset.toNat + roundUp (largestEnd regions) (2 ^ 21))

/-- The segments follow each other, in the address space and in physical memory. -/
structure WellFormedLayout (layout : KernelLayout) : Prop where
  stop_lt : roundUp layout.dataEnd.toNat (2 ^ 12) < 2 ^ 64
  image_lt : layout.imageStart.toNat < layout.textStart.toNat
  text_lt : layout.textStart.toNat < layout.rodataStart.toNat
  rodata_lt : layout.rodataStart.toNat < layout.dataStart.toNat
  data_lt : layout.dataStart.toNat < roundUp layout.dataEnd.toNat (2 ^ 12)
  image_aligned : layout.imageStart.toNat % 2 ^ 12 = 0
  text_aligned : layout.textStart.toNat % 2 ^ 12 = 0
  rodata_aligned : layout.rodataStart.toNat % 2 ^ 12 = 0
  data_aligned : layout.dataStart.toNat % 2 ^ 12 = 0
  oneHalf : InOneHalf layout.imageStart.toNat (roundUp layout.dataEnd.toNat (2 ^ 12))
  phys_aligned : (imagePhys layout).toNat % 2 ^ 12 = 0
  phys_le : (imagePhys layout).toNat +
    (roundUp layout.dataEnd.toNat (2 ^ 12) - layout.imageStart.toNat) ≤ 2 ^ 52

/-- Inputs that make sense: a direct map and an image, apart from each other. -/
structure WellFormedInput (regions : List MemoryRegion) (hhdmOffset : Word)
    (layout : KernelLayout) : Prop where
  nonempty : regions ≠ []
  directMap : WellFormedDirectMap regions hhdmOffset
  image : WellFormedLayout layout
  disjoint : ∀ address : ℕ,
    ¬ ((hhdmOffset.toNat ≤ address ∧
        address < hhdmOffset.toNat + roundUp (largestEnd regions) (2 ^ 21)) ∧
      layout.imageStart.toNat ≤ address ∧ address < roundUp layout.dataEnd.toNat (2 ^ 12))

/-! ## One range call -/

theorem toNat_highestEnd {regions : List MemoryRegion}
    (hnonwrapping : MemoryMap.NonWrapping regions) :
    (highestEnd regions).toNat = largestEnd regions := by
  have hfold : ∀ start : Word,
      (regions.foldl (fun highest region ↦ if highest < region.base + region.length then
        region.base + region.length else highest) start).toNat =
        max start.toNat (largestEnd regions) := by
    induction regions with
    | nil => simp [largestEnd]
    | cons region regions ih =>
      intro start
      have hregion : (region.base + region.length).toNat =
          region.base.toNat + region.length.toNat := by
        rw [BitVec.toNat_add]
        exact Nat.mod_eq_of_lt (hnonwrapping region List.mem_cons_self)
      have hlargest : largestEnd (region :: regions) =
          max (region.base.toNat + region.length.toNat) (largestEnd regions) := rfl
      rw [List.foldl_cons, ih fun other hother ↦ hnonwrapping other (List.mem_cons_of_mem _ hother),
        hlargest]
      split_ifs with hlt
      · rw [BitVec.lt_def, hregion] at hlt
        rw [hregion]
        omega
      · rw [BitVec.lt_def, hregion] at hlt
        omega
  calc
    (highestEnd regions).toNat = max (0 : Word).toNat (largestEnd regions) := hfold 0
    _ = largestEnd regions := Nat.zero_max _

/-- The two ends of a range in one half are canonical. -/
theorem RangeRequest.admissible_of_oneHalf {request : RangeRequest}
    (hsize : 0 < request.size.toNat) (hvirt : request.virt.toNat % request.stride = 0)
    (hphys : request.phys.toNat % request.stride = 0)
    (haligned : request.size.toNat % request.stride = 0)
    (hstop : request.virt.toNat + request.size.toNat < 2 ^ 64)
    (hbound : request.phys.toNat + request.size.toNat ≤ 2 ^ 52)
    (hhalf : InOneHalf request.virt.toNat (request.virt.toNat + request.size.toNat)) :
    request.Admissible := by
  have hlast : (request.virt + request.size - 1).toNat =
      request.virt.toNat + request.size.toNat - 1 := by
    bv_omega
  rw [admissible_iff, isCanonical_iff, isCanonical_iff, hlast]
  unfold InOneHalf at hhalf
  refine ⟨hsize, hvirt, hphys, haligned, hstop, by omega, ?_, ?_⟩
  · rcases hhalf with hlower | hupper
    · exact Or.inl (by omega)
    · exact Or.inr hupper
  · rcases hhalf with hlower | hupper
    · exact Or.inl (by omega)
    · exact Or.inr (by omega)

theorem WellFormedDirectMap.toNat_size {regions : List MemoryRegion} {hhdmOffset : Word}
    (h : WellFormedDirectMap regions hhdmOffset) (hnonwrapping : MemoryMap.NonWrapping regions) :
    (directMapSize regions).toNat = roundUp (largestEnd regions) (2 ^ 21) := by
  have hlt := h.size_lt
  rw [toNat_directMapSize, toNat_highestEnd hnonwrapping, if_pos]
  unfold roundUp at hlt
  omega

theorem WellFormedLayout.toNat_stop {layout : KernelLayout} (h : WellFormedLayout layout) :
    (imageEnd layout).toNat = roundUp layout.dataEnd.toNat (2 ^ 12) := by
  have hlt := h.stop_lt
  rw [toNat_imageEnd, if_pos]
  unfold roundUp at hlt
  omega

theorem directMapRequest_wellFormed_iff {regions : List MemoryRegion} {hhdmOffset : Word}
    (hnonwrapping : MemoryMap.NonWrapping regions) :
    (directMapRequest regions hhdmOffset).WellFormed ↔ WellFormedDirectMap regions hhdmOffset := by
  constructor
  · rintro ⟨hends, hhalf, -, -⟩
    obtain ⟨hsize, hvirt, -, -, hstop, -, -, -⟩ := (RangeRequest.admissible_iff _).mp hends
    simp only [directMapRequest, RangeRequest.stride, if_true] at hsize hvirt hstop hhalf
    rw [toNat_directMapSize, toNat_highestEnd hnonwrapping] at hsize hstop hhalf
    split_ifs at hsize hstop hhalf with hnowrap
    · refine ⟨?_, by omega, hvirt, hstop, hhalf⟩
      unfold roundUp at hsize
      omega
    · cases hsize
  · intro hdirect
    have hsize := hdirect.toNat_size hnonwrapping
    obtain ⟨hpos, hlt, haligned, hstop, hhalf⟩ := hdirect
    have hsmall : roundUp (largestEnd regions) (2 ^ 21) ≤ 2 ^ 47 := by
      unfold InOneHalf at hhalf
      omega
    have hmultiple : roundUp (largestEnd regions) (2 ^ 21) % 2 ^ 21 = 0 := Nat.mul_mod_left _ _
    have hsizePos : 0 < roundUp (largestEnd regions) (2 ^ 21) := by
      unfold roundUp
      omega
    rw [← hsize] at hstop hhalf hsmall hmultiple hsizePos
    have hphys : (directMapRequest regions hhdmOffset).phys.toNat +
        (directMapRequest regions hhdmOffset).size.toNat ≤ 2 ^ 52 := by
      calc
        0 + (directMapSize regions).toNat = (directMapSize regions).toNat := Nat.zero_add _
        _ ≤ 2 ^ 52 := by omega
    exact ⟨RangeRequest.admissible_of_oneHalf hsizePos haligned (Nat.zero_mod _) hmultiple hstop
      hphys hhalf, hhalf, hphys, fun hlarge ↦ by cases hlarge⟩

/-- What a segment needs: a size that wraps is refused. -/
structure WellFormedSegment (layout : KernelLayout) (start stop : Word) : Prop where
  lt : start.toNat < stop.toNat
  start_aligned : start.toNat % 2 ^ 12 = 0
  stop_aligned : stop.toNat % 2 ^ 12 = 0
  oneHalf : InOneHalf start.toNat stop.toNat
  phys_aligned : (start - layout.virtualBase + layout.physicalBase).toNat % 2 ^ 12 = 0
  phys_le : (start - layout.virtualBase + layout.physicalBase).toNat +
    (stop.toNat - start.toNat) ≤ 2 ^ 52

theorem segmentRequest_wellFormed_iff {layout : KernelLayout} {start stop : Word}
    {flags : PageFlags} (hsmall : has flags PageFlags.huge = false) :
    (segmentRequest layout start stop flags).WellFormed ↔
      WellFormedSegment layout start stop := by
  constructor
  · rintro ⟨hends, hhalf, hbound, -⟩
    obtain ⟨hlt, -⟩ := segmentRequest_contains hends
    obtain ⟨hsize, hvirt, hphys, haligned, hstop, -, -, -⟩ :=
      (RangeRequest.admissible_iff _).mp hends
    simp only [segmentRequest, RangeRequest.stride, Bool.false_eq_true, if_false]
      at hvirt hphys haligned hhalf hbound
    have hlength : (stop - start).toNat = stop.toNat - start.toNat := by
      bv_omega
    rw [hlength] at haligned hhalf hbound
    refine ⟨hlt, hvirt, by omega, ?_, hphys, hbound⟩
    unfold InOneHalf
    omega
  · rintro ⟨hlt, hvirt, hstop, hhalf, hphys, hbound⟩
    have hlength : (stop - start).toNat = stop.toNat - start.toNat := by
      bv_omega
    have hsum : start.toNat + (stop - start).toNat = stop.toNat := by
      omega
    have hstopLt := stop.isLt
    rw [← hsum] at hhalf
    rw [← hlength] at hbound
    refine ⟨RangeRequest.admissible_of_oneHalf ?_ hvirt hphys ?_ ?_ hbound hhalf, hhalf, hbound,
      fun _ ↦ hsmall⟩
    · simp only [segmentRequest]
      omega
    · simp only [segmentRequest, RangeRequest.stride, Bool.false_eq_true, if_false]
      omega
    · simp only [segmentRequest]
      omega

/-! ## The sequence of range calls -/

/-- Physical memory runs along with the addresses. -/
theorem toNat_segment_phys {layout : KernelLayout} {start stop : Word}
    (h : WellFormedSegment layout start stop) :
    (stop - layout.virtualBase + layout.physicalBase).toNat =
      (start - layout.virtualBase + layout.physicalBase).toNat + (stop.toNat - start.toNat) := by
  have hlt := h.lt
  have hbound := h.phys_le
  have hlength : (stop - start).toNat = stop.toNat - start.toNat := by
    bv_omega
  calc
    (stop - layout.virtualBase + layout.physicalBase).toNat =
        (start - layout.virtualBase + layout.physicalBase + (stop - start)).toNat := by
      congr 1
      ring
    _ = (start - layout.virtualBase + layout.physicalBase).toNat + (stop.toNat - start.toNat) := by
      rw [BitVec.toNat_add, hlength]
      exact Nat.mod_eq_of_lt (by omega)

/-- Two segments that follow each other are one. -/
theorem wellFormedSegment_append {layout : KernelLayout} {start middle stop : Word} :
    WellFormedSegment layout start middle ∧ WellFormedSegment layout middle stop ↔
      WellFormedSegment layout start stop ∧ start.toNat < middle.toNat ∧
        middle.toNat < stop.toNat ∧ middle.toNat % 2 ^ 12 = 0 := by
  constructor
  · rintro ⟨hfirst, hsecond⟩
    have hphys := toNat_segment_phys hfirst
    obtain ⟨hlt, hstart, hmiddle, hhalf, haligned, hbound⟩ := hfirst
    obtain ⟨hlt', -, hstop, hhalf', -, hbound'⟩ := hsecond
    have hstopLt := stop.isLt
    unfold InOneHalf at hhalf hhalf'
    refine ⟨⟨by omega, hstart, hstop, ?_, haligned, by omega⟩, hlt, hlt', hmiddle⟩
    unfold InOneHalf
    omega
  · rintro ⟨⟨-, hstart, hstop, hhalf, haligned, hbound⟩, hlt, hlt', hmiddle⟩
    unfold InOneHalf at hhalf
    have hfirst : WellFormedSegment layout start middle := by
      refine ⟨hlt, hstart, hmiddle, ?_, haligned, by omega⟩
      unfold InOneHalf
      omega
    have hphys := toNat_segment_phys hfirst
    refine ⟨hfirst, hlt', hmiddle, hstop, ?_, by omega, by omega⟩
    unfold InOneHalf
    omega

theorem segmentRequests_wellFormed_iff (layout : KernelLayout) :
    (∀ request ∈ segmentRequests layout, request.WellFormed) ↔ WellFormedLayout layout := by
  simp only [segmentRequests, List.forall_mem_cons, List.not_mem_nil, false_implies, implies_true,
    and_true]
  rw [segmentRequest_wellFormed_iff (by decide), segmentRequest_wellFormed_iff (by decide),
    segmentRequest_wellFormed_iff (by decide), segmentRequest_wellFormed_iff (by decide)]
  constructor
  · rintro ⟨hfirst, hsecond, hthird, hfourth⟩
    obtain ⟨hlower, himage, htext, htextAligned⟩ := wellFormedSegment_append.mp ⟨hfirst, hsecond⟩
    obtain ⟨hupper, hrodata, hdata, hdataAligned⟩ := wellFormedSegment_append.mp ⟨hthird, hfourth⟩
    obtain ⟨⟨-, hstart, -, hhalf, hphys, hbound⟩, -, -, hrodataAligned⟩ :=
      wellFormedSegment_append.mp ⟨hlower, hupper⟩
    rw [toNat_imageEnd] at hdata hhalf hbound
    split_ifs at hdata hhalf hbound with hnowrap
    · refine ⟨?_, himage, htext, hrodata, hdata, hstart, htextAligned, hrodataAligned, hdataAligned,
        hhalf, hphys, hbound⟩
      unfold roundUp
      omega
    · cases hdata
  · intro hlayout
    have hstop := hlayout.toNat_stop
    obtain ⟨-, himage, htext, hrodata, hdata, hstart, htextAligned, hrodataAligned, hdataAligned,
      hhalf, hphys, hbound⟩ := hlayout
    have hmultiple : roundUp layout.dataEnd.toNat (2 ^ 12) % 2 ^ 12 = 0 := Nat.mul_mod_left _ _
    rw [← hstop] at hdata hhalf hbound hmultiple
    have hwhole : WellFormedSegment layout layout.imageStart (imageEnd layout) :=
      ⟨by omega, hstart, hmultiple, hhalf, hphys, hbound⟩
    obtain ⟨hlower, hupper⟩ := wellFormedSegment_append.mpr
      ⟨hwhole, (by omega : layout.imageStart.toNat < layout.rodataStart.toNat), by omega,
        hrodataAligned⟩
    obtain ⟨hfirst, hsecond⟩ := wellFormedSegment_append.mpr ⟨hlower, himage, htext, htextAligned⟩
    obtain ⟨hthird, hfourth⟩ := wellFormedSegment_append.mpr ⟨hupper, hrodata, hdata, hdataAligned⟩
    exact ⟨hfirst, hsecond, hthird, hfourth⟩

/-- Segments that follow each other share no address. -/
theorem segmentRequests_pairwise {layout : KernelLayout}
    (hadmissible : ∀ request ∈ segmentRequests layout, request.Admissible) :
    (segmentRequests layout).Pairwise RangeRequest.Apart := by
  simp only [segmentRequests, List.forall_mem_cons, List.pairwise_cons, List.not_mem_nil,
    false_implies, implies_true, and_true, List.Pairwise.nil] at hadmissible ⊢
  obtain ⟨hrequests, htext, hrodata, hdata⟩ := hadmissible
  obtain ⟨hfirst, hfirstIff⟩ := segmentRequest_contains hrequests
  obtain ⟨hsecond, hsecondIff⟩ := segmentRequest_contains htext
  obtain ⟨hthird, hthirdIff⟩ := segmentRequest_contains hrodata
  obtain ⟨hfourth, hfourthIff⟩ := segmentRequest_contains hdata
  simp only [RangeRequest.Apart, hfirstIff, hsecondIff, hthirdIff, hfourthIff]
  refine ⟨⟨?_, ?_, ?_⟩, ⟨?_, ?_⟩, ?_⟩ <;> intro address <;> omega

/-- The direct map meets no segment when it does not meet the image. -/
theorem apart_iff_disjoint {regions : List MemoryRegion} {hhdmOffset : Word}
    {layout : KernelLayout} (hnonwrapping : MemoryMap.NonWrapping regions)
    (hdirect : WellFormedDirectMap regions hhdmOffset) (hlayout : WellFormedLayout layout) :
    (∀ request ∈ segmentRequests layout, (directMapRequest regions hhdmOffset).Apart request) ↔
      ∀ address : ℕ,
        ¬ ((hhdmOffset.toNat ≤ address ∧
            address < hhdmOffset.toNat + roundUp (largestEnd regions) (2 ^ 21)) ∧
          layout.imageStart.toNat ≤ address ∧
            address < roundUp layout.dataEnd.toNat (2 ^ 12)) := by
  have hsegments := (segmentRequests_wellFormed_iff layout).mpr hlayout
  have hsize := hdirect.toNat_size hnonwrapping
  have hstop := hlayout.toNat_stop
  have hmeets : (∀ request ∈ segmentRequests layout,
        (directMapRequest regions hhdmOffset).Apart request) ↔
      ∀ address, ¬ (InDirectMap regions hhdmOffset address ∧ InImage layout address) := by
    simp only [inImage_iff fun request hrequest ↦ (hsegments request hrequest).admissible]
    constructor
    · rintro hapart address ⟨hdirect, request, hrequest, hcontains⟩
      exact hapart request hrequest address ⟨hdirect, hcontains⟩
    · rintro hdisjoint request hrequest address ⟨hdirect, hcontains⟩
      exact hdisjoint address ⟨hdirect, request, hrequest, hcontains⟩
  rw [hmeets]
  simp only [InDirectMap, InImage, hsize, hstop]
  constructor
  · rintro hdisjoint address ⟨hinDirect, hinImage⟩
    have hlt : address < 2 ^ 64 := lt_trans hinImage.2 hlayout.stop_lt
    have hword : (BitVec.ofNat 64 address).toNat = address := by
      rw [BitVec.toNat_ofNat]
      exact Nat.mod_eq_of_lt hlt
    apply hdisjoint (BitVec.ofNat 64 address)
    rw [hword]
    exact ⟨hinDirect, hinImage⟩
  · intro hdisjoint address
    exact hdisjoint address.toNat

/-- The range calls are well formed and apart exactly for well-formed inputs. -/
theorem kernelRequests_accepted_iff {regions : List MemoryRegion} {hhdmOffset : Word}
    {layout : KernelLayout} (hnonwrapping : MemoryMap.NonWrapping regions) :
    (∀ request ∈ kernelRequests regions hhdmOffset layout, request.WellFormed) ∧
        (kernelRequests regions hhdmOffset layout).Pairwise RangeRequest.Apart ↔
      WellFormedInput regions hhdmOffset layout := by
  rw [kernelRequests, List.forall_mem_cons, List.pairwise_cons,
    directMapRequest_wellFormed_iff hnonwrapping, segmentRequests_wellFormed_iff]
  constructor
  · rintro ⟨⟨hdirect, hlayout⟩, hapart, -⟩
    refine ⟨?_, hdirect, hlayout, (apart_iff_disjoint hnonwrapping hdirect hlayout).mp hapart⟩
    rintro rfl
    exact (Nat.lt_irrefl 0) hdirect.highest_pos
  · rintro ⟨-, hdirect, hlayout, hdisjoint⟩
    refine ⟨⟨hdirect, hlayout⟩, (apart_iff_disjoint hnonwrapping hdirect hlayout).mpr hdisjoint, ?_⟩
    exact segmentRequests_pairwise fun request hrequest ↦
      ((segmentRequests_wellFormed_iff layout).mpr hlayout request hrequest).admissible

/-! ## The whole function -/

/-- A new space can be mapped in, and has nothing installed. -/
theorem createAddressSpace_ready {stock held roots : Set ℕ} {s : State}
    (h : KernelInv stock held roots s) (hnonnull : NonNull stock s.toStatics)
    (hpopulated : Populated (tables s) roots) (out : AddressSpace)
    (hcalm : State.Calm s (createAddressSpace s out).2.2) :
    ∃ fresh space middle, createAddressSpace s out = (true, space, middle) ∧
      Ready stock held (insert fresh roots) middle fresh ∧
      space.pml4 = tableAddress middle.toStatics fresh ∧
      ∀ page, page ∉ installed middle space.pml4 := by
  obtain ⟨fresh, hfresh, hreturned, hspace, htaken, hinv⟩ := createAddressSpace_spec h hcalm
  refine ⟨fresh, (createAddressSpace s out).2.1, (createAddressSpace s out).2.2,
    Prod.ext hreturned rfl, ⟨hinv, ?_, ?_, Set.mem_insert _ _⟩, ?_, ?_⟩
  · rw [htaken.statics]
    exact hnonnull
  · apply Populated.addRoot _ htaken.tables_fresh
    rw [← populatedBut_nil_iff 0] at hpopulated ⊢
    exact hpopulated.congr fun frame hframe ↦
      htaken.tables_eq h ((h.forest.taken_iff frame).mpr hframe)
  · rw [hspace, htaken.statics]
  · intro page
    rw [htaken.installed_eq, hspace]
    exact h.installed_fresh (h.stock_ok fresh hfresh).1 (htaken.notTaken h.toAccounts) page

theorem buildKernelAddressSpace_accepts_iff {stock held roots : Set ℕ} {s : State}
    {out : AddressSpace} (h : KernelInv stock held roots s) (hnonnull : NonNull stock s.toStatics)
    (hpopulated : Populated (tables s) roots) {regions : List MemoryRegion}
    (hnonwrapping : MemoryMap.NonWrapping regions) {hhdmOffset : Word} {layout : KernelLayout}
    (hcalm : State.Calm s (buildKernelAddressSpace s out (some regions) hhdmOffset layout).2.2) :
    (buildKernelAddressSpace s out (some regions) hhdmOffset layout).1 = true ↔
      WellFormedInput regions hhdmOffset layout := by
  rw [buildKernelAddressSpace_eq] at hcalm ⊢
  by_cases hguards : regions.length = 0 ∨ hhdmOffset &&& (kLargePageSize - 1) ≠ 0
  · rw [if_pos hguards]
    refine iff_of_false Bool.false_ne_true fun hinput ↦ ?_
    rcases hguards with hlength | hmisaligned
    · exact hinput.nonempty (List.length_eq_zero_iff.mp hlength)
    · apply hmisaligned
      rw [Bits.eq_zero_iff_toNat,
        Bits.toNat_and_lowMask hhdmOffset (kLargePageSize - 1) 21 (by decide)]
      exact hinput.directMap.aligned
  rw [if_neg hguards] at hcalm ⊢
  have hcreated := (createAddressSpace_proceeds s out).grows
  have hready := fun hcalm ↦ createAddressSpace_ready h hnonnull hpopulated out hcalm
  generalize createAddressSpace s out = created at hcalm hcreated hready ⊢
  obtain ⟨returned, space, middle⟩ := created
  have hcalmCreate : State.Calm s middle := by
    cases returned with
    | false => exact hcalm
    | true =>
      exact ((State.calm_trans hcreated (mapRequests_proceeds space _ middle).grows).mp hcalm).1
  obtain ⟨fresh, _, _, hsame, hreadySpace, hspace, hempty⟩ := hready hcalmCreate
  obtain ⟨rfl, rfl, rfl⟩ : returned = true ∧ space = _ ∧ middle = _ := by
    simpa only [Prod.mk.injEq] using hsame
  simp only at hcalm ⊢
  have hcalmRest := ((State.calm_trans hcreated (mapRequests_proceeds space _ middle).grows).mp
    hcalm).2
  have hvacant : ∀ request : RangeRequest, request.Vacant (installed middle space.pml4) :=
    fun _ _ _ page hpage ↦ absurd hpage (hempty page)
  rw [hreadySpace.mapRequests_iff hspace (kernelRequests_named regions hhdmOffset layout) hcalmRest]
  simp only [hvacant, and_true]
  exact kernelRequests_accepted_iff hnonwrapping

/-- **`build_kernel_address_space` accepts exactly the well-formed inputs.** The ghost trace is
started afresh at the call, so that it speaks of this call only. -/
theorem kernel_inputs_accepted {s : State} (hallocator : WellFormedAllocator s)
    (hnonnull : NonNull {frame | Free s frame} s.toStatics) (out : AddressSpace)
    {regions : Option (List MemoryRegion)}
    (hnonwrapping : ∀ array ∈ regions, MemoryMap.NonWrapping array) {hhdmOffset : Word}
    {layout : KernelLayout}
    (hcalm : Event.exhausted ∉ (buildKernelAddressSpace s.restartTrace out regions hhdmOffset
      layout).2.2.trace) :
    (buildKernelAddressSpace s.restartTrace out regions hhdmOffset layout).1 = true ↔
      ∃ array, regions = some array ∧ WellFormedInput array hhdmOffset layout := by
  cases regions with
  | none => simp [buildKernelAddressSpace]
  | some array =>
    have hinv := (hallocator.restartTrace.worldInv rfl).kernel
    have hpopulated : Populated (tables s.restartTrace) (World.start s.restartTrace).roots := by
      simp [Populated, World.roots, World.start]
    calc
      _ ↔ WellFormedInput array hhdmOffset layout :=
        buildKernelAddressSpace_accepts_iff hinv hnonnull hpopulated (hnonwrapping array rfl)
          (State.calm_of_not_mem hcalm)
      _ ↔ _ := by simp only [Option.some.injEq, exists_eq_left']

theorem kernel_inputs_accepted_bootMap :
    ∃ s, init bootMap 0xffff800000000000 (fun _ ↦ 0) = .ok s ∧
      (buildKernelAddressSpace s ⟨0, 0⟩ (some bootMap) 0xffff800000000000 bootLayout).1 = true ∧
      ∃ array, some bootMap = some array ∧
        WellFormedInput array 0xffff800000000000 bootLayout := by
  obtain ⟨s, hinit, hreturned, hcalm⟩ := exists_bootMap_build
  have hfresh : s.restartTrace = s := State.restartTrace_of_nil (init_spec hinit).2.2.1
  refine ⟨s, hinit, hreturned, ?_⟩
  rw [← hfresh] at hreturned hcalm
  have hnonwrapping : ∀ array ∈ some bootMap, MemoryMap.NonWrapping array := by
    intro array harray
    cases harray
    decide
  exact (kernel_inputs_accepted (init_wellFormed (by decide) hinit)
    (bootMap_nonNull.nonNull (by decide) hinit) ⟨0, 0⟩ hnonwrapping hcalm).mp hreturned

end WaterBuffalo.Vmm
