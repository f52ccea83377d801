import Mathlib.Algebra.Order.BigOperators.Group.Finset
import WaterBuffalo.Foundation.Radix
import WaterBuffalo.Vmm.Budget
import WaterBuffalo.Vmm.KernelAcceptance
import WaterBuffalo.Vmm.OutOfMemory

/-!
# What the kernel address space costs

The tables a set of pages needs are counted by the blocks of 512 GiB, 1 GiB and 2 MiB its addresses
lie in.  For `build_kernel_address_space` these are intervals of blocks, so the number of frames it
takes is a number that can be computed from the memory map and the layout of the image.
-/

namespace WaterBuffalo.Vmm

open Pmm TableForest Radix

instance : NeZero kPageTableEntries := ⟨by decide⟩

/-- The bytes a table of a level covers, from 1 for a PDPT to 3 for a PT. -/
def coverage (level : ℕ) : ℕ :=
  2 ^ (48 - 9 * level)

/-- The slots of a page are the leading digits of its address. -/
theorem Page.slots_eq_digitPath (page : Page) :
    Page.slots page = digitPath kPageTableEntries (Page.slots page).length
      (page.virt.toNat / coverage (Page.slots page).length) := by
  have hslot : ∀ (index : BitVec 16) (value : ℕ), index.toNat = value % 512 →
      slot index = Fin.ofNat kPageTableEntries value := by
    intro index value hindex
    have hlt : index.toNat < 512 := by omega
    rw [Fin.ext_iff, slot_val hlt]
    exact hindex
  cases hlarge : page.large with
  | true =>
    rw [Page.slots_large hlarge]
    simp only [List.length_cons, List.length_nil, digitPath, coverage, List.nil_append,
      List.cons_append]
    rw [hslot _ (page.virt.toNat / 2 ^ 30 / 512), hslot _ (page.virt.toNat / 2 ^ 30)]
    · rfl
    · rw [toNat_pdptIndex]
    · rw [toNat_pml4Index]
      omega
  | false =>
    rw [Page.slots_small hlarge]
    simp only [List.length_cons, List.length_nil, digitPath, coverage, List.nil_append,
      List.cons_append]
    rw [hslot _ (page.virt.toNat / 2 ^ 21 / 512 / 512), hslot _ (page.virt.toNat / 2 ^ 21 / 512),
      hslot _ (page.virt.toNat / 2 ^ 21)]
    · rfl
    · rw [toNat_pdIndex]
    · rw [toNat_pdptIndex]
      omega
    · rw [toNat_pml4Index]
      omega

/-- The tables of a level that pages need, by the blocks they cover. -/
def spanned (level : ℕ) (pages : List Page) : Finset ℕ :=
  ((pages.filter fun page ↦ level ≤ (Page.slots page).length).map fun page ↦
    page.virt.toNat / coverage level).toFinset

theorem mem_spanned {level block : ℕ} {pages : List Page} :
    block ∈ spanned level pages ↔ ∃ page ∈ pages, level ≤ (Page.slots page).length ∧
      page.virt.toNat / coverage level = block := by
  simp only [spanned, List.mem_toFinset, List.mem_map, List.mem_filter, decide_eq_true_eq,
    and_assoc]

theorem tablePaths_eq_biUnion (pages : List Page) :
    tablePaths pages = (Finset.Icc 1 3).biUnion fun level ↦
      (spanned level pages).image (digitPath kPageTableEntries level) := by
  ext path
  simp only [mem_tablePaths, Finset.mem_biUnion, Finset.mem_image, mem_spanned, Finset.mem_Icc]
  have hcoverage : ∀ level depth value : ℕ, level ≤ depth → depth ≤ 3 →
      value / coverage depth / kPageTableEntries ^ (depth - level) = value / coverage level := by
    intro level depth value hlevel hdepth
    rw [Nat.div_div_eq_div_mul, coverage, coverage, kPageTableEntries,
      show (512 : ℕ) = 2 ^ 9 from rfl, ← pow_mul, ← pow_add]
    congr 2
    omega
  constructor
  · rintro ⟨hne, page, hpage, hprefix⟩
    rw [Page.slots_eq_digitPath, prefix_digitPath_iff] at hprefix
    obtain ⟨level, hlevel, rfl⟩ := hprefix
    have hdepth := Page.length_slots_le page
    refine ⟨level, ⟨?_, hlevel.trans hdepth⟩, _, ⟨page, hpage, hlevel, rfl⟩, ?_⟩
    · rw [Nat.one_le_iff_ne_zero]
      rintro rfl
      exact hne rfl
    · rw [hcoverage level _ _ hlevel hdepth]
  · rintro ⟨level, ⟨hpos, -⟩, -, ⟨page, hpage, hlevel, rfl⟩, rfl⟩
    refine ⟨?_, page, hpage, ?_⟩
    · rw [← List.length_pos_iff, length_digitPath]
      exact hpos
    · rw [Page.slots_eq_digitPath, prefix_digitPath_iff]
      exact ⟨level, hlevel, by rw [hcoverage level _ _ hlevel (Page.length_slots_le page)]⟩

/-- Canonical addresses with the same leading index digits lie in the same block. -/
theorem block_eq_of_digits {level left right : ℕ} (hlevel : 1 ≤ level ∧ level ≤ 3)
    (hleft : left < 2 ^ 47 ∨ 2 ^ 64 - 2 ^ 47 ≤ left) (hleftLt : left < 2 ^ 64)
    (hright : right < 2 ^ 47 ∨ 2 ^ 64 - 2 ^ 47 ≤ right) (hrightLt : right < 2 ^ 64)
    (h : left / coverage level % kPageTableEntries ^ level =
      right / coverage level % kPageTableEntries ^ level) :
    left / coverage level = right / coverage level := by
  unfold kPageTableEntries at h
  unfold coverage at h ⊢
  obtain rfl | rfl | rfl : level = 1 ∨ level = 2 ∨ level = 3 := by omega
  · omega
  · omega
  · omega

theorem card_tablePaths {pages : List Page} (hpages : ∀ page ∈ pages, Page.Admissible page) :
    (tablePaths pages).card = ∑ level ∈ Finset.Icc 1 3, (spanned level pages).card := by
  rw [tablePaths_eq_biUnion, Finset.card_biUnion]
  · refine Finset.sum_congr rfl fun level hlevel ↦ Finset.card_image_of_injOn ?_
    intro left hleft right hright heq
    obtain ⟨first, hfirst, -, rfl⟩ := mem_spanned.mp hleft
    obtain ⟨second, hsecond, -, rfl⟩ := mem_spanned.mp hright
    exact block_eq_of_digits (Finset.mem_Icc.mp hlevel)
      ((Page.admissible_iff first).mp (hpages first hfirst)).1 first.virt.isLt
      ((Page.admissible_iff second).mp (hpages second hsecond)).1 second.virt.isLt
      (digitPath_eq_iff.mp heq)
  · intro level _ other _ hne
    rw [Function.onFun, Finset.disjoint_left]
    rintro path hlevel hother
    obtain ⟨block, -, rfl⟩ := Finset.mem_image.mp hlevel
    obtain ⟨other, -, heq⟩ := Finset.mem_image.mp hother
    have hlength := congrArg List.length heq
    rw [length_digitPath, length_digitPath] at hlength
    exact hne hlength.symm

/-- The blocks that pages need are those that hold an address of theirs. -/
theorem mem_spanned_iff_covers {level block : ℕ} {pages : List Page} (hlevel : level ≤ 3)
    (hpages : ∀ page ∈ pages, Page.Admissible page) :
    block ∈ spanned level pages ↔ ∃ page ∈ pages, level ≤ (Page.slots page).length ∧
      ∃ address, Page.Covers page address ∧ address.toNat / coverage level = block := by
  have hsame : ∀ page ∈ pages, level ≤ (Page.slots page).length → ∀ address,
      Page.Covers page address →
        address.toNat / coverage level = page.virt.toNat / coverage level := by
    intro page hpage hdepth address ⟨hlower, hupper⟩
    obtain ⟨-, haligned, -⟩ := (Page.admissible_iff page).mp (hpages page hpage)
    rw [Page.toNat_size] at haligned hupper
    rw [Page.length_slots] at hdepth
    unfold coverage
    split at hdepth
    · rename_i hlarge
      rw [if_pos hlarge] at haligned hupper
      obtain rfl | rfl | rfl : level = 0 ∨ level = 1 ∨ level = 2 := by omega
      · omega
      · omega
      · omega
    · rename_i hsmall
      rw [if_neg hsmall] at haligned hupper
      obtain rfl | rfl | rfl | rfl : level = 0 ∨ level = 1 ∨ level = 2 ∨ level = 3 := by omega
      · omega
      · omega
      · omega
      · omega
  rw [mem_spanned]
  constructor
  · rintro ⟨page, hpage, hdepth, rfl⟩
    exact ⟨page, hpage, hdepth, page.virt, Page.covers_self page, rfl⟩
  · rintro ⟨page, hpage, hdepth, address, hcovers, rfl⟩
    exact ⟨page, hpage, hdepth, (hsame page hpage hdepth address hcovers).symm⟩

/-- The blocks that a range call needs are those that meet its range. -/
theorem spanned_pages {request : RangeRequest} (h : request.WellFormed) {level : ℕ}
    (hlevel : level ≤ 3) :
    spanned level request.pages =
      if request.large ∧ level = 3 then ∅
      else blocks (coverage level) request.virt.toNat
        (request.virt.toNat + request.size.toNat) := by
  obtain ⟨hends, hadmissible⟩ := RangeRequest.wellFormed_iff.mp h
  have hfits := hends.fits
  have hdepth : ∀ page ∈ request.pages,
      (level ≤ (Page.slots page).length ↔ ¬ (request.large ∧ level = 3)) := by
    intro page hpage
    obtain ⟨index, -, rfl⟩ := RangeRequest.mem_pages.mp hpage
    rw [Page.length_slots]
    split
    · simp_all
      omega
    · simp_all
  have hpos : 0 < coverage level := Nat.two_pow_pos _
  ext block
  rw [mem_spanned_iff_covers hlevel hadmissible]
  split_ifs with hnone
  · refine iff_of_false ?_ (Finset.notMem_empty block)
    rintro ⟨page, hpage, hle, -⟩
    exact (hdepth page hpage).mp hle hnone
  · rw [mem_blocks_iff hpos (Nat.lt_add_of_pos_right hfits.size_pos)]
    constructor
    · rintro ⟨page, hpage, -, address, hcovers, rfl⟩
      exact ⟨address.toNat, RangeRequest.contains_of_page hfits hpage hcovers, rfl⟩
    · rintro ⟨number, hnumber, rfl⟩
      have hlt : number < 2 ^ 64 := by
        have hstop := ((RangeRequest.admissible_iff request).mp hends).2.2.2.2.1
        omega
      have hword : (BitVec.ofNat 64 number).toNat = number := by
        rw [BitVec.toNat_ofNat]
        exact Nat.mod_eq_of_lt hlt
      have hcontains : request.Contains (BitVec.ofNat 64 number) := by
        rw [RangeRequest.Contains, hword]
        exact hnumber
      obtain ⟨page, hpage, hcovers, -, -⟩ := RangeRequest.exists_page hfits hcontains
      exact ⟨page, hpage, (hdepth page hpage).mpr hnone, _, hcovers, by rw [hword]⟩

theorem spanned_append (level : ℕ) (pages others : List Page) :
    spanned level (pages ++ others) = spanned level pages ∪ spanned level others := by
  rw [spanned, spanned, spanned, List.filter_append, List.map_append, List.toFinset_append]

/-! ## The kernel address space -/

/-- The blocks of a level that meet the direct map. -/
def directBlocks (regions : List MemoryRegion) (hhdmOffset : Word) (level : ℕ) : Finset ℕ :=
  blocks (coverage level) hhdmOffset.toNat
    (hhdmOffset.toNat + roundUp (largestEnd regions) (2 ^ 21))

/-- The blocks of a level that meet the image. -/
def imageBlocks (layout : KernelLayout) (level : ℕ) : Finset ℕ :=
  blocks (coverage level) layout.imageStart.toNat (roundUp layout.dataEnd.toNat (2 ^ 12))

/-- The frames `build_kernel_address_space` takes: a PML4, the PDPTs and PDs of the direct map and
the image, and the PTs of the image. -/
def kernelTables (regions : List MemoryRegion) (hhdmOffset : Word) (layout : KernelLayout) : ℕ :=
  1 + (directBlocks regions hhdmOffset 1 ∪ imageBlocks layout 1).card +
    (directBlocks regions hhdmOffset 2 ∪ imageBlocks layout 2).card + (imageBlocks layout 3).card

/-- The segments together need what the image needs. -/
theorem spanned_segments {layout : KernelLayout} (h : WellFormedLayout layout) {level : ℕ}
    (hlevel : level ≤ 3) :
    spanned level (requestPages (segmentRequests layout)) = imageBlocks layout level := by
  have hformed := (segmentRequests_wellFormed_iff layout).mpr h
  have hstop := h.toNat_stop
  obtain ⟨-, himage, htext, hrodata, hdata, -⟩ := h
  have hpos : 0 < coverage level := Nat.two_pow_pos _
  have hsegment : ∀ (start stop : Word) (flags : PageFlags),
      (segmentRequest layout start stop flags).WellFormed → start.toNat < stop.toNat →
      spanned level (segmentRequest layout start stop flags).pages =
        blocks (coverage level) start.toNat stop.toNat := by
    intro start stop flags hrequest hlt
    have hsum : start.toNat + (stop - start).toNat = stop.toNat := by
      bv_omega
    rw [spanned_pages hrequest hlevel]
    simp only [segmentRequest, Bool.false_eq_true, false_and, if_false, hsum]
  rw [← hstop] at hdata
  simp only [segmentRequests, List.forall_mem_cons, List.not_mem_nil, false_implies, implies_true,
    and_true] at hformed
  obtain ⟨hfirst, hsecond, hthird, hfourth⟩ := hformed
  simp only [requestPages, segmentRequests, List.flatMap_cons, List.flatMap_nil, List.append_nil,
    spanned_append]
  rw [hsegment _ _ _ hfirst himage, hsegment _ _ _ hsecond htext, hsegment _ _ _ hthird hrodata,
    hsegment _ _ _ hfourth hdata, blocks_union hpos hrodata hdata,
    blocks_union hpos htext (hrodata.trans hdata),
    blocks_union hpos himage (htext.trans (hrodata.trans hdata)), hstop]
  rfl

theorem card_kernelPaths {regions : List MemoryRegion} {hhdmOffset : Word} {layout : KernelLayout}
    (hnonwrapping : MemoryMap.NonWrapping regions)
    (hinput : WellFormedInput regions hhdmOffset layout) :
    1 + (tablePaths (requestPages (kernelRequests regions hhdmOffset layout))).card =
      kernelTables regions hhdmOffset layout := by
  have hformed := ((kernelRequests_accepted_iff hnonwrapping).mpr hinput).1
  have hadmissible : ∀ page ∈ requestPages (kernelRequests regions hhdmOffset layout),
      Page.Admissible page := by
    intro page hpage
    obtain ⟨request, hrequest, hmem⟩ := List.mem_flatMap.mp hpage
    exact (RangeRequest.wellFormed_iff.mp (hformed request hrequest)).2 page hmem
  have hdirect : ∀ level ≤ 3, spanned level (directMapRequest regions hhdmOffset).pages =
      if level = 3 then ∅ else directBlocks regions hhdmOffset level := by
    intro level hlevel
    rw [spanned_pages (hformed _ List.mem_cons_self) hlevel]
    simp only [directMapRequest, true_and, hinput.directMap.toNat_size hnonwrapping]
    rfl
  have hlevels : ∀ level ≤ 3,
      spanned level (requestPages (kernelRequests regions hhdmOffset layout)) =
        (if level = 3 then ∅ else directBlocks regions hhdmOffset level) ∪
          imageBlocks layout level := by
    intro level hlevel
    rw [requestPages, kernelRequests, List.flatMap_cons, spanned_append, hdirect level hlevel,
      ← spanned_segments hinput.image hlevel]
    rfl
  have hsum : Finset.Icc 1 3 = {1, 2, 3} := rfl
  rw [card_tablePaths hadmissible, hsum, Finset.sum_insert (by decide),
    Finset.sum_insert (by decide), Finset.sum_singleton, hlevels 1 (by decide),
    hlevels 2 (by decide), hlevels 3 le_rfl, if_neg (by decide), if_neg (by decide), if_pos rfl,
    Finset.empty_union, kernelTables]
  omega

/-- The function's own checks pass on well-formed inputs. -/
theorem WellFormedInput.passes {regions : List MemoryRegion} {hhdmOffset : Word}
    {layout : KernelLayout} (hinput : WellFormedInput regions hhdmOffset layout) :
    ¬ (regions.length = 0 ∨ hhdmOffset &&& (kLargePageSize - 1) ≠ 0) := by
  rintro (hlength | hmisaligned)
  · exact hinput.nonempty (List.length_eq_zero_iff.mp hlength)
  · apply hmisaligned
    rw [Bits.eq_zero_iff_toNat,
      Bits.toNat_and_lowMask hhdmOffset (kLargePageSize - 1) 21 (by decide)]
    exact hinput.directMap.aligned

theorem WellFormedInput.build_eq {regions : List MemoryRegion} {hhdmOffset : Word}
    {layout : KernelLayout} (hinput : WellFormedInput regions hhdmOffset layout) {s : State}
    {out space : AddressSpace} {middle : State}
    (hcreate : createAddressSpace s out = (true, space, middle)) :
    buildKernelAddressSpace s out (some regions) hhdmOffset layout =
      ((mapRequests space (kernelRequests regions hhdmOffset layout) middle).1, space,
        (mapRequests space (kernelRequests regions hhdmOffset layout) middle).2) := by
  rw [buildKernelAddressSpace_eq, if_neg hinput.passes, hcreate]

theorem createAddressSpace_state (s : State) (out : AddressSpace) :
    (createAddressSpace s out).2.2 = (allocateTable s).2 := by
  unfold createAddressSpace
  split <;> simp_all

/-- A new space has none of the tables. -/
theorem missing_of_fresh {s : State} {fresh : ℕ} (hzero : ∀ index, tables s fresh index = 0)
    (pages : List Page) : missing (tablePaths pages) fresh s = tablePaths pages := by
  rw [missing, Finset.filter_eq_self]
  intro path hpath
  have hchildless : ∀ position, link (tables s fresh position) = none := by
    intro position
    rw [hzero]
    exact link_zero
  rw [Option.eq_none_iff_forall_ne_some]
  intro target htarget
  exact (mem_tablePaths.mp hpath).1 ((descend_of_childless hchildless).mp htarget).1

theorem buildKernelAddressSpace_cost {stock held roots : Set ℕ} {s : State}
    (h : KernelInv stock held roots s) (hnonnull : NonNull stock s.toStatics)
    (hpopulated : Populated (tables s) roots) (out : AddressSpace) {regions : List MemoryRegion}
    (hnonwrapping : MemoryMap.NonWrapping regions) {hhdmOffset : Word} {layout : KernelLayout}
    (hinput : WellFormedInput regions hhdmOffset layout) :
    let cost := kernelTables regions hhdmOffset layout
    let result := buildKernelAddressSpace s out (some regions) hhdmOffset layout
    (State.Calm s result.2.2 ↔ cost ≤ (freeFrames s).card) ∧
      (cost ≤ (freeFrames s).card →
        result.1 = true ∧ (freeFrames result.2.2).card + cost = (freeFrames s).card) := by
  intro cost result
  have hcost : 1 + (tablePaths (requestPages (kernelRequests regions hhdmOffset layout))).card =
      cost := card_kernelPaths hnonwrapping hinput
  have hgrows := (createAddressSpace_proceeds s out).grows
  by_cases hscan : scanBitmap s = none
  · -- No frame is free: the root itself is placed in frame 0.
    have hnone : freeFrames s = ∅ := by
      rw [Finset.eq_empty_iff_forall_notMem]
      intro frame hframe
      exact (scanBitmap_eq_none_iff h.sound).mp hscan frame (mem_freeFrames.mp hframe)
    have hexhausted : ¬ State.Calm s (createAddressSpace s out).2.2 := by
      rw [createAddressSpace_state]
      exact exhausted_of_scan_none hscan
    have hreturned := (createAddressSpace_of_scan_none hscan out).1
    obtain ⟨space, middle, hcreate⟩ : ∃ space middle,
        createAddressSpace s out = (true, space, middle) := ⟨_, _, Prod.ext hreturned rfl⟩
    have hresult : result = _ := hinput.build_eq hcreate
    rw [hcreate] at hexhausted hgrows
    rw [hnone, Finset.card_empty, hresult]
    refine ⟨iff_of_false (fun hcalm ↦ hexhausted ?_) (by omega), fun hle ↦ absurd hle (by omega)⟩
    exact ((State.calm_trans hgrows (mapRequests_proceeds space _ middle).grows).mp hcalm).1
  · have hcalm : State.Calm s (createAddressSpace s out).2.2 := by
      rw [createAddressSpace_state]
      exact calm_allocateTable hscan
    obtain ⟨fresh, space, middle, hcreate, hready, hspace, hempty⟩ :=
      createAddressSpace_ready h hnonnull hpopulated out hcalm
    obtain ⟨taken, hmem, -, hcreated, htaken, -⟩ := createAddressSpace_spec h hcalm
    have hresult : result = _ := hinput.build_eq hcreate
    rw [hcreate] at hcalm hgrows hcreated htaken
    simp only at hcalm hgrows hcreated htaken
    obtain rfl : fresh = taken := by
      rw [hcreated, htaken.statics] at hspace
      exact ((tableAddress_inj s.toStatics (h.stock_ok taken hmem).1
        (hready.inv.root_lt hready.root_mem)).mp hspace).symm
    have hframes : (freeFrames middle).card + 1 = (freeFrames s).card := by
      have herase : freeFrames middle = (freeFrames s).erase fresh := by
        ext frame
        rw [Finset.mem_erase, mem_freeFrames, mem_freeFrames, htaken.free_iff, and_comm]
      rw [herase]
      exact Finset.card_erase_add_one (mem_freeFrames.mpr htaken.free)
    obtain ⟨hformed, hapart⟩ := (kernelRequests_accepted_iff hnonwrapping).mpr hinput
    have hvacant : ∀ request : RangeRequest, request.Vacant (installed middle space.pml4) :=
      fun _ _ _ page hpage ↦ absurd hpage (hempty page)
    obtain ⟨hcalmIff, hspent⟩ := hready.mapRequests_cost hspace
      (kernelRequests_named regions hhdmOffset layout)
      ⟨fun request hrequest ↦ ⟨hformed request hrequest, hvacant request⟩, hapart⟩
    rw [missing_of_fresh htaken.tables_fresh] at hcalmIff hspent
    rw [hresult]
    refine ⟨?_, fun hle ↦ ?_⟩
    · rw [State.calm_trans hgrows (mapRequests_proceeds space _ middle).grows,
        and_iff_right hcalm, hcalmIff]
      omega
    · obtain ⟨hreturned, hleft⟩ := hspent (by omega)
      exact ⟨hreturned, by simp only; omega⟩

/-- With enough frames the space is built from any allocator. -/
theorem WellFormedAllocator.build {s : State} (hallocator : WellFormedAllocator s)
    (hnonnull : NonNull {frame | Free s frame} s.toStatics) (out : AddressSpace)
    {regions : List MemoryRegion} (hnonwrapping : MemoryMap.NonWrapping regions)
    {hhdmOffset : Word} {layout : KernelLayout}
    (hinput : WellFormedInput regions hhdmOffset layout)
    (hcost : kernelTables regions hhdmOffset layout ≤ (freeFrames s).card) :
    let result := buildKernelAddressSpace s.restartTrace out (some regions) hhdmOffset layout
    result.1 = true ∧ ∃ fresh, Free s fresh ∧
      KernelSpaceBuilt {frame | Free s frame} ∅ ∅ regions hhdmOffset layout s.restartTrace
        result.2.2 result.2.1 fresh := by
  intro result
  have hroots : (World.start s.restartTrace).roots = ∅ := by
    simp [World.roots, World.start]
  have hheld : (↑(World.start s.restartTrace).held : Set ℕ) = ∅ := by
    simp [World.start, Client.start]
  have hinv : KernelInv {frame | Free s frame} ∅ ∅ s.restartTrace := by
    have hkernel := (hallocator.restartTrace.worldInv rfl).kernel
    rwa [hheld, hroots] at hkernel
  have hpopulated : Populated (tables s.restartTrace) ∅ :=
    fun root hroot ↦ absurd hroot (Set.notMem_empty root)
  obtain ⟨hcalm, hspent⟩ :=
    buildKernelAddressSpace_cost hinv hnonnull hpopulated out hnonwrapping hinput
  have hreturned := (hspent hcost).1
  exact ⟨hreturned, buildKernelAddressSpace_spec hinv hreturned (hcalm.mpr hcost)⟩

/-- **What `build_kernel_address_space` costs.** On well-formed inputs the call takes exactly
`kernelTables` frames: it exhausts the allocator if and only if fewer are free, and otherwise it
succeeds and leaves that many frames fewer. -/
theorem kernel_space_cost {s : State} (hallocator : WellFormedAllocator s)
    (hnonnull : NonNull {frame | Free s frame} s.toStatics) (out : AddressSpace)
    {regions : List MemoryRegion} (hnonwrapping : MemoryMap.NonWrapping regions)
    {hhdmOffset : Word} {layout : KernelLayout}
    (hinput : WellFormedInput regions hhdmOffset layout) :
    let cost := kernelTables regions hhdmOffset layout
    let result := buildKernelAddressSpace s.restartTrace out (some regions) hhdmOffset layout
    (Event.exhausted ∉ result.2.2.trace ↔ cost ≤ (freeFrames s).card) ∧
      (cost ≤ (freeFrames s).card →
        result.1 = true ∧ (freeFrames result.2.2).card + cost = (freeFrames s).card) := by
  intro cost result
  have hinv := (hallocator.restartTrace.worldInv rfl).kernel
  have hpopulated : Populated (tables s.restartTrace) (World.start s.restartTrace).roots := by
    simp [Populated, World.roots, World.start]
  have hcost := buildKernelAddressSpace_cost hinv hnonnull hpopulated out hnonwrapping hinput
  have hcalm : State.Calm s.restartTrace result.2.2 ↔ Event.exhausted ∉ result.2.2.trace := by
    rw [State.Calm, State.since_eq (List.append_nil _).symm]
  rw [← hcalm]
  exact hcost

theorem bootLayout_wellFormed : WellFormedInput bootMap 0xffff800000000000 bootLayout where
  nonempty := List.cons_ne_nil _ _
  directMap := ⟨by decide, by decide, by decide, by decide, Or.inr (by decide)⟩
  image := ⟨by decide, by decide, by decide, by decide, by decide, by decide, by decide,
    by decide, by decide, Or.inr (by decide), by decide, by decide⟩
  disjoint := by
    rintro address ⟨⟨-, hdirect⟩, himage, -⟩
    have hend : (0xffff800000000000 : Word).toNat + roundUp (largestEnd bootMap) (2 ^ 21) ≤
        bootLayout.imageStart.toNat := by decide
    omega

theorem exists_bootMap_free :
    ∃ s, init bootMap 0xffff800000000000 (fun _ ↦ 0) = .ok s ∧ (freeFrames s).card = 5 := by
  exact Run.exists_of_succeedsWith (by decide +kernel)

/-- The image of `bootLayout` and the direct map of `bootMap` share their upper tables: four
frames in all. -/
theorem kernel_space_cost_bootMap :
    ∃ s, init bootMap 0xffff800000000000 (fun _ ↦ 0) = .ok s ∧
      (buildKernelAddressSpace s ⟨0, 0⟩ (some bootMap) 0xffff800000000000 bootLayout).1 = true ∧
      (freeFrames (buildKernelAddressSpace s ⟨0, 0⟩ (some bootMap) 0xffff800000000000
        bootLayout).2.2).card = 1 := by
  obtain ⟨s, hinit, hfree⟩ := exists_bootMap_free
  have hfresh : s.restartTrace = s := State.restartTrace_of_nil (init_spec hinit).2.2.1
  have htables : kernelTables bootMap 0xffff800000000000 bootLayout = 4 := by decide
  obtain ⟨-, hcost⟩ := kernel_space_cost (init_wellFormed (by decide) hinit)
    (bootMap_nonNull.nonNull (by decide) hinit) ⟨0, 0⟩ (by decide) bootLayout_wellFormed
  rw [hfresh, htables, hfree] at hcost
  obtain ⟨hreturned, hleft⟩ := hcost (by decide)
  exact ⟨s, hinit, hreturned, by omega⟩

end WaterBuffalo.Vmm
