import WaterBuffalo.Vmm.KernelBudget

/-!
# Large and small ranges agree

What a space means to the processor is a function of its installed pages: where an address goes is
`lookup`, and the rights it has are those of the covering page.  The pages of a range give every
address of it the same place and the same rights, whatever their size.  So the two range functions,
called with the same 2 MiB aligned arguments in the same state, accept the same calls and leave
spaces that cannot be told apart by translation or by rights.
-/

namespace WaterBuffalo.Vmm

open Pmm TableForest

/-! ## Rights as a function of the installed pages -/

/-- The rights the installed pages give an address: those of the page that covers it, or none. -/
def rightsOf (pages : List Page) (address : Word) : Rights :=
  match pages.find? fun page ↦ Page.Covers page address with
  | some page => Rights.ofFlags page.flags
  | none => ⟨false, false, false⟩

/-- The canonical address with the same indices: bit 47 repeated in the upper bits. -/
def canonicalForm (address : Word) : Word :=
  if address.toNat % 2 ^ 48 < 2 ^ 47 then BitVec.ofNat 64 (address.toNat % 2 ^ 48)
  else BitVec.ofNat 64 (address.toNat % 2 ^ 48 + (2 ^ 64 - 2 ^ 48))

theorem toNat_canonicalForm (address : Word) :
    (canonicalForm address).toNat = if address.toNat % 2 ^ 48 < 2 ^ 47 then address.toNat % 2 ^ 48
      else address.toNat % 2 ^ 48 + (2 ^ 64 - 2 ^ 48) := by
  unfold canonicalForm
  split <;> rw [BitVec.toNat_ofNat] <;> omega

theorem isCanonical_canonicalForm (address : Word) :
    isCanonical (canonicalForm address) = true := by
  rw [isCanonical_iff, toNat_canonicalForm]
  split <;> omega

/-- The processor walks the same entries for both addresses. -/
theorem walkEntries_canonicalForm (s : State) (pml4 address : Word) :
    walkEntries s pml4 (canonicalForm address) = walkEntries s pml4 address := by
  have hlow : (canonicalForm address).toNat % 2 ^ 48 = address.toNat % 2 ^ 48 := by
    rw [toNat_canonicalForm]
    split <;> omega
  have hpml4 : (decomposeAddress (canonicalForm address)).pml4Index =
      (decomposeAddress address).pml4Index := by
    apply BitVec.eq_of_toNat_eq
    rw [toNat_pml4Index, toNat_pml4Index]
    omega
  have hpdpt : (decomposeAddress (canonicalForm address)).pdptIndex =
      (decomposeAddress address).pdptIndex := by
    apply BitVec.eq_of_toNat_eq
    rw [toNat_pdptIndex, toNat_pdptIndex]
    omega
  have hpd : (decomposeAddress (canonicalForm address)).pdIndex =
      (decomposeAddress address).pdIndex := by
    apply BitVec.eq_of_toNat_eq
    rw [toNat_pdIndex, toNat_pdIndex]
    omega
  have hpt : (decomposeAddress (canonicalForm address)).ptIndex =
      (decomposeAddress address).ptIndex := by
    apply BitVec.eq_of_toNat_eq
    rw [toNat_ptIndex, toNat_ptIndex]
    omega
  simp only [walkEntries, hpml4, hpdpt, hpd, hpt]

section Rights

variable {stock held roots : Set ℕ} {s : State} {root node : ℕ} {path : Path}
  {space : AddressSpace}

/-- A walk that ends in an absent entry grants nothing, by induction over the levels to go. -/
theorem KernelInv.walk_absent {indices : List (BitVec 16)} (h : KernelInv stock held roots s)
    (hroot : root ∈ roots) (hlength : path.length + indices.length = 4)
    (hdescend : descend link (tables s) root path = some node) (hpath : path.length ≤ 3)
    (hindices : ∀ index ∈ indices, index.toNat < 512)
    (habsent :
      (walk s (tableAddress s.toStatics node) indices).all (has · PageFlags.present) = false) :
    (walk s (tableAddress s.toStatics node) indices).all (has · PageFlags.writable) = false ∧
      (walk s (tableAddress s.toStatics node) indices).all (has · PageFlags.user) = false ∧
      (walk s (tableAddress s.toStatics node) indices).any (has · PageFlags.noExecute) = false := by
  induction indices generalizing node path with
  | nil => simp [walk] at habsent
  | cons index indices ih =>
    rw [List.length_cons] at hlength
    rw [List.forall_mem_cons] at hindices
    have hbound := h.descend_lt hroot hpath hdescend
    have hok := h.forest.entries root hroot path (slot index) _ hpath
      (entryAt_eq_some.mpr ⟨node, hdescend, rfl⟩)
    rcases hok.cases with hempty | hhuge | ⟨next, hlink⟩
    · have hend : link (tables s node (slot index)) = none := by
        rw [hempty]
        exact link_zero
      rw [walk_end hbound hindices.1 (Or.inl hend), hempty]
      simp
    · rw [walk_end hbound hindices.1 (Or.inl (link_eq_none_of_huge hhuge))] at habsent
      simp [hok.present (ne_zero_of_has hhuge)] at habsent
    · obtain ⟨hpresent, hsmall, -⟩ := link_eq_some_iff.mp hlink
      rw [walk_link hbound hindices.1 hlink, List.all_cons, hpresent, Bool.true_and] at habsent
      -- Below the last level there is nothing left to be absent.
      have hlevel : path.length < 3 := by
        by_contra hlast
        obtain rfl : indices = [] := List.length_eq_zero_iff.mp (by omega)
        simp [walk] at habsent
      have hreached : descend link (tables s) root (path ++ [slot index]) = some next :=
        descend_concat_eq_some.mpr ⟨node, hdescend, hlink⟩
      have hlength' : (path ++ [slot index]).length = path.length + 1 := by
        rw [List.length_append, List.length_singleton]
      obtain ⟨hwritable, huser, hnoExecute⟩ := ih (by omega) hreached (by omega) hindices.2 habsent
      have hrights := hok.rights hlevel hsmall (PagingForest.ne_zero_of_link hlink)
      rw [walk_link hbound hindices.1 hlink, List.all_cons, List.all_cons, List.any_cons,
        hwritable, huser, hnoExecute, hrights.2]
      simp

/-- Under the invariant, rights are a function of the installed pages. -/
theorem KernelInv.rights_eq_rightsOf (h : KernelInv stock held roots s) (hroot : root ∈ roots)
    (hspace : space.pml4 = tableAddress s.toStatics root) (address : Word) :
    effectiveRights s space.pml4 address =
      rightsOf (installed s space.pml4) (canonicalForm address) := by
  have hcanonical := isCanonical_canonicalForm address
  have hsame : effectiveRights s space.pml4 address =
      effectiveRights s space.pml4 (canonicalForm address) := by
    simp only [effectiveRights, walkEntries_canonicalForm]
  rw [hsame]
  generalize canonicalForm address = form at hcanonical
  rw [rightsOf]
  split
  · rename_i page hfind
    have hpage := List.mem_of_find?_eq_some hfind
    have hcovers := List.find?_some hfind
    rw [hspace] at hpage ⊢
    rw [← mem_framePages (h.root_lt hroot)] at hpage
    exact (h.rights_covered hroot hpage (of_decide_eq_true hcovers)).1
  · rename_i hfind
    have hnoLeaf := (h.translate_uncovered hroot hspace fun page hpage hcovers ↦ by
      rw [List.find?_eq_none] at hfind
      rw [mem_framePages (h.root_lt hroot), ← hspace] at hpage
      exact hfind page hpage (decide_eq_true hcovers)).2
    rw [leafPresent, hcanonical, Bool.true_and, walkEntries, hspace] at hnoLeaf
    obtain ⟨hfirst, hsecond, hthird, hfourth⟩ := index_lt form
    obtain ⟨hwritable, huser, hnoExecute⟩ := h.walk_absent hroot rfl (descend_nil root) (by simp)
      (by simp [hfirst, hsecond, hthird, hfourth]) hnoLeaf
    simp only [effectiveRights, walkEntries, hspace, hwritable, huser, hnoExecute]

end Rights

/-! ## Ranges and the installed pages -/

namespace RangeRequest

instance (request : RangeRequest) (address : Word) : Decidable (request.Contains address) :=
  inferInstanceAs (Decidable (_ ∧ _))

/-- Every page of a range puts its addresses where the range puts them, with the range's flags. -/
theorem place_of_page {request : RangeRequest} {page : Page} (hpage : page ∈ request.pages)
    (address : Word) :
    page.flags = request.flags ∧
      page.phys + (address - page.virt) = request.phys + (address - request.virt) := by
  obtain ⟨index, -, rfl⟩ := mem_pages.mp hpage
  refine ⟨rfl, ?_⟩
  simp only
  ring

/-- The page that covers an address after a range was mapped: one of the range inside it, and as
before outside. -/
theorem find?_pages_append {request : RangeRequest} (h : request.Fits) (pages : List Page)
    (address : Word) :
    (request.Contains address → ∃ page ∈ request.pages,
        (request.pages.reverse ++ pages).find? (fun page ↦ Page.Covers page address) = some page) ∧
      (¬ request.Contains address →
        (request.pages.reverse ++ pages).find? (fun page ↦ Page.Covers page address) =
          pages.find? fun page ↦ Page.Covers page address) := by
  rw [List.find?_append]
  constructor
  · intro hcontains
    obtain ⟨page, hpage, hcovers, -, -⟩ := exists_page h hcontains
    have hsome : (request.pages.reverse.find? fun page ↦ Page.Covers page address).isSome := by
      rw [List.find?_isSome]
      exact ⟨page, List.mem_reverse.mpr hpage, decide_eq_true hcovers⟩
    obtain ⟨found, hfound⟩ := Option.isSome_iff_exists.mp hsome
    refine ⟨found, List.mem_reverse.mp (List.mem_of_find?_eq_some hfound), ?_⟩
    rw [hfound]
    rfl
  · intro houtside
    have hnone : (request.pages.reverse.find? fun page ↦ Page.Covers page address) = none := by
      rw [List.find?_eq_none]
      intro page hpage hcovers
      exact houtside (contains_of_page h (List.mem_reverse.mp hpage) (of_decide_eq_true hcovers))
    rw [hnone]
    rfl

theorem lookup_pages_append {request : RangeRequest} (h : request.Fits) (pages : List Page)
    (address : Word) :
    lookup (request.pages.reverse ++ pages) address =
      if request.Contains address then request.phys + (address - request.virt)
      else lookup pages address := by
  obtain ⟨hinside, houtside⟩ := find?_pages_append h pages address
  unfold lookup
  split_ifs with hcontains
  · obtain ⟨page, hpage, hfind⟩ := hinside hcontains
    rw [hfind]
    exact (place_of_page hpage address).2
  · rw [houtside hcontains]

theorem rightsOf_pages_append {request : RangeRequest} (h : request.Fits)
    (pages : List Page) (address : Word) :
    rightsOf (request.pages.reverse ++ pages) address =
      if request.Contains address then Rights.ofFlags request.flags
      else rightsOf pages address := by
  obtain ⟨hinside, houtside⟩ := find?_pages_append h pages address
  unfold rightsOf
  split_ifs with hcontains
  · obtain ⟨page, hpage, hfind⟩ := hinside hcontains
    rw [hfind]
    exact congrArg Rights.ofFlags (place_of_page hpage address).1
  · rw [houtside hcontains]

/-- For 2 MiB aligned arguments the page size makes no difference to well-formedness. -/
theorem wellFormed_large_iff {virt phys size : Word} {flags : PageFlags}
    (hvirt : virt.toNat % 2 ^ 21 = 0) (hphys : phys.toNat % 2 ^ 21 = 0)
    (hsize : size.toNat % 2 ^ 21 = 0) (hflags : has flags PageFlags.huge = false) :
    (⟨virt, phys, size, flags, true⟩ : RangeRequest).WellFormed ↔
      (⟨virt, phys, size, flags, false⟩ : RangeRequest).WellFormed := by
  have hadmissible : (⟨virt, phys, size, flags, true⟩ : RangeRequest).Admissible ↔
      (⟨virt, phys, size, flags, false⟩ : RangeRequest).Admissible := by
    simp only [admissible_iff, stride, if_true, Bool.false_eq_true, if_false, hvirt, hphys, hsize]
    have hvirt' : virt.toNat % 2 ^ 12 = 0 := by omega
    have hphys' : phys.toNat % 2 ^ 12 = 0 := by omega
    have hsize' : size.toNat % 2 ^ 12 = 0 := by omega
    simp only [hvirt', hphys', hsize']
  constructor
  · rintro ⟨hends, hhalf, hbound, -⟩
    exact ⟨hadmissible.mp hends, hhalf, hbound, fun _ ↦ hflags⟩
  · rintro ⟨hends, hhalf, hbound, -⟩
    exact ⟨hadmissible.mpr hends, hhalf, hbound, fun hsmall ↦ Bool.noConfusion hsmall⟩

end RangeRequest

section Meaning

variable {stock held roots : Set ℕ} {s : State} {root : ℕ} {space : AddressSpace}

/-- What a space means after a range call that succeeded. -/
theorem Ready.mapAll_meaning (hready : Ready stock held roots s root) (request : RangeRequest)
    (hspace : space.pml4 = tableAddress s.toStatics root) (hflags : PageFlags.Named request.flags)
    (hcalm : State.Calm s (Vmm.mapAll s space request.virt request.phys request.size request.flags
      request.large).2)
    (hreturned : (Vmm.mapAll s space request.virt request.phys request.size request.flags
      request.large).1 = true) (address : Word) :
    let later := (Vmm.mapAll s space request.virt request.phys request.size request.flags
      request.large).2
    (translate later space address =
        if request.Contains address then request.phys + (address - request.virt)
        else lookup (installed s space.pml4) address) ∧
      effectiveRights later space.pml4 address =
        if request.Contains (canonicalForm address) then Rights.ofFlags request.flags
        else rightsOf (installed s space.pml4) (canonicalForm address) := by
  intro later
  have hspec : MapResult stock held roots _ space.pml4 request.pages s _ :=
    mapAll_spec hready.inv hready.root_mem hspace hflags hcalm
  have hadmissible := ((hready.mapAll_iff request hspace hflags hcalm).mp hreturned).1.admissible
  have hpml4 : space.pml4 = tableAddress later.toStatics root := by
    rw [hspace]
    exact congrArg (tableAddress · root) hspec.statics.symm
  have hpointer : space.pml4 ≠ 0 := (admissible_of_mapAll hreturned).1
  have hpages : installed later space.pml4 = request.pages.reverse ++ installed s space.pml4 :=
    hspec.success hreturned
  rw [hspec.inv.translate_eq_lookup hready.root_mem hpml4 hpointer,
    hspec.inv.rights_eq_rightsOf hready.root_mem hpml4, hpages]
  exact ⟨RangeRequest.lookup_pages_append hadmissible.fits _ _,
    RangeRequest.rightsOf_pages_append hadmissible.fits _ _⟩

end Meaning

/-- **Large and small range mapping agree.** -/
theorem range_forms_agree {regions : List MemoryRegion} {hhdmOffset : Word}
    {memory : Memory} {s : State} (hmap : LimineMap regions)
    (hnonnull : NonNullMap regions hhdmOffset) (hinit : init regions hhdmOffset memory = .ok s)
    {operations : List Operation}
    (hlegal : Run.Legal World.step World.Permits (World.start s) operations)
    (hcalm : Event.exhausted ∉ (Run.final World.step (World.start s) operations).state.trace) :
    let world := Run.final World.step (World.start s) operations
    ∀ space ∈ world.spaces, ∀ (virt phys size : Word) (flags : PageFlags),
      virt.toNat % 2 ^ 21 = 0 → phys.toNat % 2 ^ 21 = 0 → size.toNat % 2 ^ 21 = 0 →
      PageFlags.Named flags → has flags PageFlags.huge = false →
      let large := mapRangeLarge world.state space virt phys size flags
      let small := mapRange world.state space virt phys size flags
      State.Calm world.state large.2 → State.Calm world.state small.2 →
        (large.1 = true ↔ small.1 = true) ∧
          (large.1 = true → ∀ address,
            translate large.2 space address = translate small.2 space address ∧
              effectiveRights large.2 space.pml4 address =
                effectiveRights small.2 space.pml4 address) := by
  intro world space hspace virt phys size flags hvirt hphys hsize hflags hhuge large small
    hcalmLarge hcalmSmall
  obtain ⟨root, hready, rfl⟩ := ready_of_run hmap hnonnull hinit hlegal hcalm hspace
  have hlarge : large = mapAll _ _ _ _ _ _ _ := mapRangeLarge_eq _ _ _ _ _ _
  have hsmall : small = mapAll _ _ _ _ _ _ _ := mapRange_eq _ _ _ _ _ _
  rw [hlarge] at hcalmLarge ⊢
  rw [hsmall] at hcalmSmall ⊢
  have hlargeIff := hready.mapAll_iff ⟨virt, phys, size, flags, true⟩ rfl hflags hcalmLarge
  have hsmallIff := hready.mapAll_iff ⟨virt, phys, size, flags, false⟩ rfl hflags hcalmSmall
  have hagree := hlargeIff.trans ((and_congr
    (RangeRequest.wellFormed_large_iff hvirt hphys hsize hhuge) Iff.rfl).trans hsmallIff.symm)
  refine ⟨hagree, fun hreturned address ↦ ?_⟩
  have hlargeMeans := hready.mapAll_meaning ⟨virt, phys, size, flags, true⟩ rfl hflags hcalmLarge
    hreturned address
  have hsmallMeans := hready.mapAll_meaning ⟨virt, phys, size, flags, false⟩ rfl hflags hcalmSmall
    (hagree.mp hreturned) address
  exact ⟨hlargeMeans.1.trans hsmallMeans.1.symm, hlargeMeans.2.trans hsmallMeans.2.symm⟩

/-- A block of 2 MiB, as one large page or as 512 small ones. -/
def blockRequest (large : Bool) : RangeRequest where
  virt := 0x400000
  phys := 0x200000
  size := 0x200000
  flags := PageFlags.writable
  large := large

theorem blockRequest_wellFormed (large : Bool) : (blockRequest large).WellFormed where
  admissible := by
    unfold RangeRequest.Admissible
    cases large <;> decide
  oneHalf := Or.inl (by cases large <;> decide)
  phys_le := by cases large <;> decide
  small := fun _ ↦ by cases large <;> decide

/-- The block needs at most one table at each of the three levels. -/
theorem card_tablePaths_block (large : Bool) :
    (tablePaths (blockRequest large).pages).card ≤ 3 := by
  have hformed := blockRequest_wellFormed large
  have hlevel : ∀ level ∈ Finset.Icc 1 3,
      (spanned level (blockRequest large).pages).card ≤ 1 := by
    intro level hmem
    rw [spanned_pages hformed (Finset.mem_Icc.mp hmem).2]
    split_ifs
    · exact Nat.zero_le 1
    · revert level
      cases large <;> decide
  rw [card_tablePaths (RangeRequest.wellFormed_iff.mp hformed).2]
  exact Finset.sum_le_card_nsmul _ _ 1 hlevel

theorem exists_bootMap_block :
    ∃ s, init bootMap 0xffff800000000000 (fun _ ↦ 0) = .ok s ∧
      let operations : List Operation := [.paging (.createAddressSpace ⟨0, 0⟩)]
      Run.Legal World.step World.Permits (World.start s) operations ∧
      let world := Run.final World.step (World.start s) operations
      Event.exhausted ∉ world.state.trace ∧ firstSpace ∈ world.spaces ∧
        installed world.state firstSpace.pml4 = [] ∧ (freeFrames world.state).card = 4 := by
  exact Run.exists_of_succeedsWith (by decide +kernel)

/-- Both forms map the block, and then the two spaces agree. -/
theorem range_forms_agree_bootMap :
    ∃ s, init bootMap 0xffff800000000000 (fun _ ↦ 0) = .ok s ∧
      let world := Run.final World.step (World.start s) [.paging (.createAddressSpace ⟨0, 0⟩)]
      let large := mapRangeLarge world.state firstSpace 0x400000 0x200000 0x200000
        PageFlags.writable
      let small := mapRange world.state firstSpace 0x400000 0x200000 0x200000 PageFlags.writable
      large.1 = true ∧ small.1 = true ∧ translate small.2 firstSpace 0x412345 = 0x212345 ∧
        ∀ address, translate large.2 firstSpace address = translate small.2 firstSpace address ∧
          effectiveRights large.2 firstSpace.pml4 address =
            effectiveRights small.2 firstSpace.pml4 address := by
  obtain ⟨s, hinit, hlegal, hcalm, hspace, hempty, hfree⟩ := exists_bootMap_block
  obtain ⟨root, hready, hcreated⟩ := ready_of_run (by decide) bootMap_nonNull hinit hlegal hcalm
    hspace
  have hpml4 := congrArg AddressSpace.pml4 hcreated
  have hvacant (large : Bool) : (blockRequest large).Vacant [] :=
    fun _ _ page hpage ↦ absurd hpage List.not_mem_nil
  rw [← hempty] at hvacant
  have hcost (large : Bool) : (missing (tablePaths (blockRequest large).pages) root
      (Run.final World.step (World.start s) [.paging (.createAddressSpace ⟨0, 0⟩)]).state).card ≤
        (freeFrames (Run.final World.step (World.start s)
          [.paging (.createAddressSpace ⟨0, 0⟩)]).state).card := by
    rw [hfree]
    exact (Finset.card_filter_le _ _).trans
      ((card_tablePaths_block large).trans (Nat.le_succ 3))
  obtain ⟨hcalmLarge, hlarge⟩ := hready.mapAll_cost hpml4 (by decide) (blockRequest_wellFormed true)
    (hvacant true)
  obtain ⟨hcalmSmall, hsmall⟩ := hready.mapAll_cost hpml4 (by decide)
    (blockRequest_wellFormed false) (hvacant false)
  replace hcalmLarge := hcalmLarge.mpr (hcost true)
  replace hcalmSmall := hcalmSmall.mpr (hcost false)
  replace hlarge := (hlarge (hcost true)).1
  replace hsmall := (hsmall (hcost false)).1
  have hmeaning := (hready.mapAll_meaning (blockRequest true) hpml4 (by decide) hcalmLarge
    hlarge 0x412345).1
  simp only [blockRequest, ← mapRangeLarge_eq] at hcalmLarge hlarge hmeaning
  simp only [blockRequest, ← mapRange_eq] at hcalmSmall hsmall
  obtain ⟨-, hagree⟩ := range_forms_agree (by decide) bootMap_nonNull hinit hlegal hcalm firstSpace
    hspace 0x400000 0x200000 0x200000 PageFlags.writable (by decide) (by decide) (by decide)
    (by decide) (by decide) hcalmLarge hcalmSmall
  replace hagree := hagree hlarge
  refine ⟨s, hinit, hlarge, hsmall, ?_, hagree⟩
  exact ((hagree 0x412345).1.symm.trans hmeaning).trans (if_pos (by decide))

end WaterBuffalo.Vmm
