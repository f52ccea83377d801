import WaterBuffalo.Vmm.Spaces

/-!
# Sequences of range requests

`build_kernel_address_space` is one `create_address_space` and a fixed sequence of range calls.
If they all succeed, the space maps exactly the union of the ranges: every address of a range goes
to its place with the range's rights, and nothing else is mapped.
-/

namespace WaterBuffalo.Vmm

open Pmm TableForest

/-- The arguments of one range call. -/
structure RangeRequest where
  virt : Word
  phys : Word
  size : Word
  flags : PageFlags
  large : Bool
  deriving DecidableEq, Repr

namespace RangeRequest

/-- The pages the call maps. -/
def pages (request : RangeRequest) : List Page :=
  rangePages request.virt request.phys request.size request.flags request.large

/-- The call passes the argument checks. -/
def Admissible (request : RangeRequest) : Prop :=
  RangeAdmissible request.virt request.phys request.size request.large

/-- The range contains the address. -/
def Contains (request : RangeRequest) (address : Word) : Prop :=
  request.virt.toNat ≤ address.toNat ∧
    address.toNat < request.virt.toNat + request.size.toNat

/-- The page size of the call. -/
def stride (request : RangeRequest) : ℕ :=
  if request.large then 2 ^ 21 else 2 ^ 12

/-- The argument checks, in natural numbers. -/
theorem admissible_iff (request : RangeRequest) :
    request.Admissible ↔ 0 < request.size.toNat ∧ request.virt.toNat % request.stride = 0 ∧
      request.phys.toNat % request.stride = 0 ∧ request.size.toNat % request.stride = 0 ∧
      request.virt.toNat + request.size.toNat < 2 ^ 64 ∧
      request.phys.toNat + request.size.toNat < 2 ^ 64 ∧
      isCanonical request.virt = true ∧
      isCanonical (request.virt + request.size - 1) = true := by
  have hmask : ∀ word : Word,
      word &&& ((if request.large then kLargePageSize else kPageSize) - 1) = 0 ↔
        word.toNat % request.stride = 0 := by
    intro word
    unfold stride
    split
    · rw [Bits.eq_zero_iff_toNat,
        Bits.toNat_and_lowMask word (kLargePageSize - 1) 21 (by decide)]
    · rw [Bits.eq_zero_iff_toNat, Bits.toNat_and_lowMask word (kPageSize - 1) 12 (by decide)]
  have hwrap : ∀ word : Word, ¬ BitVec.allOnes 64 - request.size < word ↔
      word.toNat + request.size.toNat < 2 ^ 64 := by
    intro word
    have hword := word.isLt
    have hsize := request.size.isLt
    rw [BitVec.lt_def, BitVec.toNat_sub_of_le (by
      rw [BitVec.le_def, BitVec.toNat_allOnes]
      omega), BitVec.toNat_allOnes]
    omega
  simp only [Admissible, RangeAdmissible, hmask, hwrap, ne_eq, Bits.eq_zero_iff_toNat,
    Nat.pos_iff_ne_zero]

theorem mem_pages {request : RangeRequest} {page : Page} :
    page ∈ request.pages ↔ ∃ index < request.size.toNat / request.stride,
      page = ⟨request.virt + BitVec.ofNat 64 (index * request.stride),
        request.phys + BitVec.ofNat 64 (index * request.stride), request.flags, request.large⟩ := by
  have hstride : (if request.large then kLargePageSize else kPageSize).toNat = request.stride := by
    unfold stride
    split <;> rfl
  rw [pages, rangePages, rangeOffsets, hstride, List.map_map, List.mem_map]
  constructor
  · rintro ⟨index, hindex, rfl⟩
    exact ⟨index, List.mem_range.mp hindex, rfl⟩
  · rintro ⟨index, hindex, rfl⟩
    exact ⟨index, List.mem_range.mpr hindex, rfl⟩

theorem stride_pos (request : RangeRequest) : 0 < request.stride := by
  unfold stride
  split <;> decide

theorem toNat_size {request : RangeRequest} {page : Page} (h : page.large = request.large) :
    (Page.size page).toNat = request.stride := by
  rw [Page.toNat_size, h, stride]

/-- The range is a non-empty sequence of aligned pages that does not wrap. -/
structure Fits (request : RangeRequest) : Prop where
  size_pos : 0 < request.size.toNat
  virt_aligned : request.virt.toNat % request.stride = 0
  phys_aligned : request.phys.toNat % request.stride = 0
  size_aligned : request.size.toNat % request.stride = 0
  virt_le : request.virt.toNat + request.size.toNat ≤ 2 ^ 64
  phys_le : request.phys.toNat + request.size.toNat ≤ 2 ^ 64

theorem Admissible.fits {request : RangeRequest} (h : request.Admissible) : request.Fits := by
  obtain ⟨hpos, hvirt, hphys, hsize, hvirtEnd, hphysEnd, -, -⟩ := (admissible_iff request).mp h
  exact ⟨hpos, hvirt, hphys, hsize, hvirtEnd.le, hphysEnd.le⟩

/-- Where the page `index` of a range starts. -/
theorem toNat_virt_page {request : RangeRequest} (h : request.Fits) {index : ℕ}
    (hindex : index < request.size.toNat / request.stride) :
    (index + 1) * request.stride ≤ request.size.toNat ∧
      (BitVec.ofNat 64 (index * request.stride)).toNat = index * request.stride ∧
      (request.virt + BitVec.ofNat 64 (index * request.stride)).toNat =
        request.virt.toNat + index * request.stride := by
  have hsize := h.size_pos
  have hwrap := h.virt_le
  have hpos := request.stride_pos
  have hend : (index + 1) * request.stride ≤ request.size.toNat := by
    calc
      (index + 1) * request.stride ≤
          request.size.toNat / request.stride * request.stride := Nat.mul_le_mul_right _ hindex
      _ ≤ request.size.toNat := Nat.div_mul_le_self _ _
  have hstep : (index + 1) * request.stride = index * request.stride + request.stride :=
    Nat.succ_mul _ _
  have hoffset : (BitVec.ofNat 64 (index * request.stride)).toNat = index * request.stride := by
    rw [BitVec.toNat_ofNat]
    exact Nat.mod_eq_of_lt (by omega)
  refine ⟨hend, hoffset, ?_⟩
  rw [BitVec.toNat_add, hoffset]
  exact Nat.mod_eq_of_lt (by omega)

/-- Every address of a range is in one of its pages. -/
theorem exists_page {request : RangeRequest} (h : request.Fits) {address : Word}
    (hcontains : request.Contains address) :
    ∃ page ∈ request.pages, Page.Covers page address ∧ page.flags = request.flags ∧
      page.phys + (address - page.virt) = request.phys + (address - request.virt) := by
  have hsize := h.size_aligned
  obtain ⟨hlower, hupper⟩ := hcontains
  set index := (address.toNat - request.virt.toNat) / request.stride with hindexDef
  have hindex : index < request.size.toNat / request.stride := by
    rw [hindexDef, Nat.div_lt_iff_lt_mul (stride_pos request),
      Nat.div_mul_cancel (Nat.dvd_of_mod_eq_zero hsize)]
    omega
  obtain ⟨-, -, hvirt⟩ := toNat_virt_page h hindex
  have hle : index * request.stride ≤ address.toNat - request.virt.toNat :=
    Nat.div_mul_le_self _ _
  have hlt : address.toNat - request.virt.toNat < index * request.stride + request.stride :=
    Nat.lt_div_mul_add (stride_pos request)
  refine ⟨_, mem_pages.mpr ⟨index, hindex, rfl⟩, ⟨?_, ?_⟩, rfl, ?_⟩
  · rw [hvirt]
    omega
  · rw [hvirt, toNat_size rfl]
    omega
  · simp only
    ring

/-- Every page of a range lies in it. -/
theorem contains_of_page {request : RangeRequest} (h : request.Fits) {address : Word}
    {page : Page} (hpage : page ∈ request.pages) (hcovers : Page.Covers page address) :
    request.Contains address := by
  obtain ⟨index, hindex, rfl⟩ := mem_pages.mp hpage
  obtain ⟨hend, -, hvirt⟩ := toNat_virt_page h hindex
  obtain ⟨hlower, hupper⟩ := hcovers
  rw [hvirt] at hlower hupper
  rw [toNat_size rfl] at hupper
  rw [Nat.add_mul, Nat.one_mul] at hend
  exact ⟨by omega, by omega⟩

end RangeRequest

/-! ## Sequences of requests -/

/-- Range calls in turn, up to the first that fails. -/
def mapRequests (space : AddressSpace) : List RangeRequest → State → Bool × State
  | [], s => (true, s)
  | request :: requests, s =>
    match mapAll s space request.virt request.phys request.size request.flags request.large with
    | (true, s) => mapRequests space requests s
    | (false, s) => (false, s)

theorem mapRequests_proceeds (space : AddressSpace) (requests : List RangeRequest) (s : State) :
    Proceeds s (mapRequests space requests s).2 := by
  induction requests generalizing s with
  | nil => exact Proceeds.refl s
  | cons request requests ih =>
    have h := mapAll_proceeds s space request.virt request.phys request.size request.flags
      request.large
    rw [mapRequests]
    generalize mapAll s space request.virt request.phys request.size request.flags
      request.large = result at h
    obtain ⟨returned, later⟩ := result
    cases returned with
    | true => exact h.trans (ih later)
    | false => exact h

/-- What a sequence of range calls that all succeed has done. -/
structure RequestsMapped (stock held roots : Set ℕ) (space : AddressSpace)
    (requests : List RangeRequest) (s later : State) : Prop where
  inv : KernelInv stock held roots later
  statics : later.toStatics = s.toStatics
  admissible : ∀ request ∈ requests, space.pml4 ≠ 0 ∧ request.Admissible
  mem_installed_iff : ∀ page, page ∈ installed later space.pml4 ↔
    (∃ request ∈ requests, page ∈ request.pages) ∨ page ∈ installed s space.pml4

theorem admissible_of_mapAll {s : State} {space : AddressSpace} {request : RangeRequest}
    (h : (mapAll s space request.virt request.phys request.size request.flags
      request.large).1 = true) : space.pml4 ≠ 0 ∧ request.Admissible := by
  unfold mapAll at h
  split at h
  · cases h
  · rename_i hadmitted
    rwa [not_or, not_not] at hadmitted

theorem mapRequests_spec {stock held roots : Set ℕ} {s : State} {root : ℕ} {space : AddressSpace}
    {requests : List RangeRequest} (h : KernelInv stock held roots s) (hroot : root ∈ roots)
    (hspace : space.pml4 = tableAddress s.toStatics root)
    (hflags : ∀ request ∈ requests, PageFlags.Named request.flags)
    (hreturned : (mapRequests space requests s).1 = true)
    (hcalm : State.Calm s (mapRequests space requests s).2) :
    RequestsMapped stock held roots space requests s (mapRequests space requests s).2 := by
  induction requests generalizing s with
  | nil => exact ⟨h, rfl, by simp, by simp [mapRequests]⟩
  | cons request requests ih =>
    rw [List.forall_mem_cons] at hflags
    have hgrows := (mapAll_proceeds s space request.virt request.phys request.size request.flags
      request.large).grows
    have hone : State.Calm s (mapAll s space request.virt request.phys request.size request.flags
          request.large).2 →
        MapResult stock held roots (Populated (tables s) roots) space.pml4 request.pages s
          (mapAll s space request.virt request.phys request.size request.flags request.large) :=
      mapAll_spec h hroot hspace hflags.1
    have hadmissible : (mapAll s space request.virt request.phys request.size request.flags
        request.large).1 = true → space.pml4 ≠ 0 ∧ request.Admissible := admissible_of_mapAll
    rw [mapRequests] at hreturned hcalm ⊢
    generalize mapAll s space request.virt request.phys request.size request.flags
      request.large = result at hreturned hcalm hgrows hone hadmissible
    obtain ⟨returned, middle⟩ := result
    cases returned with
    | false => cases hreturned
    | true =>
      have hrest := (mapRequests_proceeds space requests middle).grows
      obtain ⟨hfirst, hsecond⟩ := (State.calm_trans hgrows hrest).mp hcalm
      obtain ⟨hinv, hstatics, hsuccess, -⟩ := hone hfirst
      have hpages : installed middle space.pml4 =
          request.pages.reverse ++ installed s space.pml4 := hsuccess rfl
      have hspace' : space.pml4 = tableAddress middle.toStatics root := by
        rw [hspace]
        exact congrArg (tableAddress · root) hstatics.symm
      obtain ⟨hinv', hstatics', hadmissible', hmem⟩ :=
        ih hinv hspace' hflags.2 hreturned hsecond
      refine ⟨hinv', hstatics'.trans hstatics, ?_, fun page ↦ ?_⟩
      · rw [List.forall_mem_cons]
        exact ⟨hadmissible rfl, hadmissible'⟩
      · rw [hmem, hpages, List.mem_append, List.mem_reverse, List.exists_mem_cons_iff, or_assoc]
        exact or_left_comm

/-! ## What the ranges mean -/

section Meaning

variable {stock held roots : Set ℕ} {space : AddressSpace} {requests : List RangeRequest}
  {s : State} {root : ℕ}

/-- An address of a range whose pages are all installed goes to its place in the range, with the
range's rights. -/
theorem KernelInv.translate_range (h : KernelInv stock held roots s) (hroot : root ∈ roots)
    (hspace : space.pml4 = tableAddress s.toStatics root) (hnonnull : space.pml4 ≠ 0)
    {request : RangeRequest} (hadmissible : request.Admissible)
    (hinstalled : ∀ page ∈ request.pages, page ∈ installed s space.pml4) {address : Word}
    (hcontains : request.Contains address) :
    translate s space address = request.phys + (address - request.virt) ∧
      effectiveRights s space.pml4 address = Rights.ofFlags request.flags ∧
      leafPresent s space.pml4 address = true := by
  obtain ⟨page, hpage, hcovers, hflags, hplace⟩ := RangeRequest.exists_page hadmissible.fits
    hcontains
  have hmem := hinstalled page hpage
  rw [hspace, ← mem_framePages (h.root_lt hroot)] at hmem
  obtain ⟨hrights, hpresent⟩ := h.rights_covered hroot hmem hcovers
  rw [← hspace, hflags] at hrights
  rw [← hspace] at hpresent
  refine ⟨?_, hrights, hpresent⟩
  calc
    translate s space address = page.phys + (address - page.virt) :=
      h.translate_covered hroot hspace hnonnull hmem hcovers
    _ = request.phys + (address - request.virt) := hplace

/-- The pages of a space are the pages of a list of admissible ranges. -/
structure MapsRequests (requests : List RangeRequest) (space : AddressSpace) (s : State) :
    Prop where
  admissible : ∀ request ∈ requests, request.Admissible
  mem_installed_iff : ∀ page, page ∈ installed s space.pml4 ↔
    ∃ request ∈ requests, page ∈ request.pages

theorem MapsRequests.installed (hmaps : MapsRequests requests space s) {request : RangeRequest}
    (hrequest : request ∈ requests) :
    ∀ page ∈ request.pages, page ∈ Vmm.installed s space.pml4 :=
  fun page hpage ↦ (hmaps.mem_installed_iff page).mpr ⟨request, hrequest, hpage⟩

/-- An address outside all ranges is not mapped. -/
theorem MapsRequests.translate_outside (hmaps : MapsRequests requests space s)
    (h : KernelInv stock held roots s) (hroot : root ∈ roots)
    (hspace : space.pml4 = tableAddress s.toStatics root) {address : Word}
    (houtside : ∀ request ∈ requests, ¬ request.Contains address) :
    translate s space address = 0 ∧ leafPresent s space.pml4 address = false := by
  refine h.translate_uncovered hroot hspace fun page hpage hcovers ↦ ?_
  rw [mem_framePages (h.root_lt hroot), ← hspace] at hpage
  obtain ⟨request, hrequest, hmem⟩ := (hmaps.mem_installed_iff page).mp hpage
  exact houtside request hrequest
    (RangeRequest.contains_of_page (hmaps.admissible request hrequest).fits hmem hcovers)

end Meaning

end WaterBuffalo.Vmm
