import WaterBuffalo.Vmm.World

/-!
# Both page sizes at once

`map_page` and `map_page_large` differ in the number of levels they walk, the alignment they ask
for and the leaf entry they write.  `mapOne` is the common part, with the walk as a recursion over
the indices of the directory levels; the two source functions and their range loops are instances
of it.  All later proofs go by induction over that recursion.
-/

namespace WaterBuffalo.Vmm

open Pmm

namespace Page

/-- The size of a page in bytes. -/
def size (page : Page) : Word :=
  if page.large then kLargePageSize else kPageSize

/-- The arguments a mapping function accepts. -/
def Admissible (page : Page) : Prop :=
  isCanonical page.virt = true ∧ page.virt &&& (size page - 1) = 0 ∧
    page.phys &&& (size page - 1) = 0 ∧ page.phys &&& ~~~kPhysicalAddressMask = 0 ∧
    (page.large = false → page.flags &&& PageFlags.huge = 0)

instance (page : Page) : Decidable (Admissible page) :=
  inferInstanceAs (Decidable (_ ∧ _))

/-- The indices of the levels above the leaf's table. -/
def directory (page : Page) : List (BitVec 16) :=
  let address := decomposeAddress page.virt
  if page.large then [address.pml4Index, address.pdptIndex]
  else [address.pml4Index, address.pdptIndex, address.pdIndex]

/-- The index of the leaf in its table. -/
def leafIndex (page : Page) : BitVec 16 :=
  let address := decomposeAddress page.virt
  if page.large then address.pdIndex else address.ptIndex

/-- The entry that maps the page. -/
def leafEntry (page : Page) : Word :=
  if page.large then
    makePageEntry page.phys (page.flags ||| PageFlags.present ||| PageFlags.huge)
  else makePageEntry page.phys (page.flags ||| PageFlags.present)

end Page

/-- `ensure_table` at each level in turn, stopping at the first null pointer. -/
def ensurePath (middleFlags : PageFlags) : State → Word → List (BitVec 16) → Word × State
  | s, table, [] => (table, s)
  | s, table, index :: indices =>
    let (next, s) := ensureTable s (entryAddress table index) middleFlags
    if next = 0 then (0, s) else ensurePath middleFlags s next indices

/-- The last step of a mapping function: write the leaf unless one is present. -/
def installLeaf (s : State) (pml4 table : Word) (page : Page) : Bool × State :=
  let entry := entryAddress table (Page.leafIndex page)
  if s.load entry &&& PageFlags.present ≠ 0 then (false, s)
  else (true, (s.store entry (Page.leafEntry page)).record (.mapped pml4 page))

/-- The common part of `map_page` and `map_page_large`. -/
def mapOne (s : State) (pml4 : Word) (page : Page) : Bool × State :=
  if pml4 = 0 ∨ ¬ Page.Admissible page then (false, s)
  else
    let (table, s) := ensurePath (intermediateFlags page.flags) s pml4 (Page.directory page)
    if table = 0 then (false, s) else installLeaf s pml4 table page

theorem mapOne_of_refused {s : State} {pml4 : Word} {page : Page}
    (h : pml4 = 0 ∨ ¬ Page.Admissible page) : mapOne s pml4 page = (false, s) := by
  rw [mapOne, if_pos h]

theorem mapPage_eq (s : State) (pml4 virt phys : Word) (flags : PageFlags) :
    mapPage s pml4 virt phys flags = mapOne s pml4 ⟨virt, phys, flags, false⟩ := by
  by_cases hpml4 : pml4 = 0
  · rw [mapOne_of_refused (Or.inl hpml4), mapPage, if_pos hpml4]
  by_cases hadmissible : Page.Admissible ⟨virt, phys, flags, false⟩
  · have hguards := hadmissible
    simp only [Page.Admissible, Page.size, Bool.false_eq_true, if_false, forall_const]
      at hguards
    obtain ⟨hcanonical, hvirt, hphys, hmask, hhuge⟩ := hguards
    simp only [mapPage, mapOne, hpml4, hadmissible, hcanonical, hvirt, hphys, hmask, hhuge,
      Bool.not_true, Bool.false_eq_true, ne_eq, not_true_eq_false, or_self, if_false,
      Page.directory, ensurePath]
    generalize ensureTable s _ _ = first
    by_cases hfirst : first.1 = 0
    · simp only [hfirst, if_true]
    generalize ensureTable first.2 _ _ = second
    by_cases hsecond : second.1 = 0
    · simp only [hfirst, hsecond, if_true, if_false]
    generalize ensureTable second.2 _ _ = third
    by_cases hthird : third.1 = 0
    · simp only [hfirst, hsecond, hthird, if_true, if_false]
    · simp only [hfirst, hsecond, hthird, if_false]
      rfl
  · rw [mapOne_of_refused (Or.inr hadmissible), mapPage, if_neg hpml4]
    -- One guard of the source after the other: the last case is an admissible page.
    iterate 5
      split
      · rfl
    rename_i hcanonical hvirt hphys hmask hhuge
    exact absurd ⟨by simpa using hcanonical, not_not.mp hvirt, not_not.mp hphys,
      not_not.mp hmask, fun _ ↦ not_not.mp hhuge⟩ hadmissible

theorem mapPageLarge_eq (s : State) (pml4 virt phys : Word) (flags : PageFlags) :
    mapPageLarge s pml4 virt phys flags = mapOne s pml4 ⟨virt, phys, flags, true⟩ := by
  by_cases hpml4 : pml4 = 0
  · rw [mapOne_of_refused (Or.inl hpml4), mapPageLarge, if_pos hpml4]
  by_cases hadmissible : Page.Admissible ⟨virt, phys, flags, true⟩
  · have hguards := hadmissible
    simp only [Page.Admissible, Page.size, if_true] at hguards
    obtain ⟨hcanonical, hvirt, hphys, hmask, -⟩ := hguards
    simp only [mapPageLarge, mapOne, hpml4, hadmissible, hcanonical, hvirt, hphys, hmask,
      Bool.not_true, Bool.false_eq_true, ne_eq, not_true_eq_false, or_self, if_false, if_true,
      Page.directory, ensurePath]
    generalize ensureTable s _ _ = first
    by_cases hfirst : first.1 = 0
    · simp only [hfirst, if_true]
    generalize ensureTable first.2 _ _ = second
    by_cases hsecond : second.1 = 0
    · simp only [hfirst, hsecond, if_true, if_false]
    · simp only [hfirst, hsecond, if_false]
      rfl
  · rw [mapOne_of_refused (Or.inr hadmissible), mapPageLarge, if_neg hpml4]
    iterate 4
      split
      · rfl
    rename_i hcanonical hvirt hphys hmask
    exact absurd ⟨by simpa using hcanonical, not_not.mp hvirt, not_not.mp hphys,
      not_not.mp hmask, by simp⟩ hadmissible

/-! ## Ranges -/

/-- The pages of a range of `size` bytes. -/
def rangePages (virt phys size : Word) (flags : PageFlags) (large : Bool) : List Page :=
  (rangeOffsets size (if large then kLargePageSize else kPageSize)).map fun offset ↦
    ⟨virt + offset, phys + offset, flags, large⟩

/-- The loop of both range functions. -/
def mapPages (pml4 : Word) : List Page → State → Bool × State
  | [], s => (true, s)
  | page :: pages, s =>
    match mapOne s pml4 page with
    | (true, s) => mapPages pml4 pages s
    | (false, s) => (false, s)

/-- The arguments a range function accepts before its loop. -/
def RangeAdmissible (virt phys size : Word) (large : Bool) : Prop :=
  let mask := (if large then kLargePageSize else kPageSize) - 1
  size ≠ 0 ∧ virt &&& mask = 0 ∧ phys &&& mask = 0 ∧ size &&& mask = 0 ∧
    ¬ BitVec.allOnes 64 - size < virt ∧ ¬ BitVec.allOnes 64 - size < phys ∧
    isCanonical virt = true ∧ isCanonical (virt + size - 1) = true

instance (virt phys size : Word) (large : Bool) :
    Decidable (RangeAdmissible virt phys size large) :=
  inferInstanceAs (Decidable (_ ∧ _))

/-- The common part of `map_range` and `map_range_large`. -/
def mapAll (s : State) (space : AddressSpace) (virt phys size : Word) (flags : PageFlags)
    (large : Bool) : Bool × State :=
  if space.pml4 = 0 ∨ ¬ RangeAdmissible virt phys size large then (false, s)
  else mapPages space.pml4 (rangePages virt phys size flags large) s

theorem mapEach_eq (mapOffset : State → Word → Bool × State) (pml4 : Word)
    (pageAt : Word → Page) (h : ∀ s offset, mapOffset s offset = mapOne s pml4 (pageAt offset))
    (offsets : List Word) (s : State) :
    mapEach mapOffset offsets s = mapPages pml4 (offsets.map pageAt) s := by
  induction offsets generalizing s with
  | nil => rfl
  | cons offset offsets ih =>
    rw [List.map_cons, mapEach, mapPages, h]
    obtain ⟨returned, later⟩ := mapOne s pml4 (pageAt offset)
    cases returned with
    | true => exact ih later
    | false => rfl

theorem mapRange_eq (s : State) (space : AddressSpace) (virt phys size : Word)
    (flags : PageFlags) :
    mapRange s space virt phys size flags = mapAll s space virt phys size flags false := by
  have hloop := mapEach_eq
    (fun s offset ↦ mapPage s space.pml4 (virt + offset) (phys + offset) flags) space.pml4
    (fun offset ↦ ⟨virt + offset, phys + offset, flags, false⟩)
    (fun s offset ↦ mapPage_eq s space.pml4 (virt + offset) (phys + offset) flags)
    (rangeOffsets size kPageSize) s
  by_cases hpml4 : space.pml4 = 0
  · rw [mapRange, if_pos hpml4, mapAll, if_pos (Or.inl hpml4)]
  by_cases hadmissible : RangeAdmissible virt phys size false
  · have hguards := hadmissible
    simp only [RangeAdmissible, Bool.false_eq_true, if_false] at hguards
    obtain ⟨hsize, hvirt, hphys, haligned, hwrapVirt, hwrapPhys, hfirst, hlast⟩ := hguards
    simp only [mapRange, mapAll, hpml4, hsize, hvirt, hphys, haligned, hwrapVirt, hwrapPhys,
      hfirst, hlast, hadmissible, ne_eq, not_true_eq_false, Bool.not_true, Bool.false_eq_true,
      or_self, if_false, hloop, rangePages]
  · rw [mapAll, if_pos (Or.inr hadmissible), mapRange, if_neg hpml4]
    iterate 8
      split
      · rfl
    rename_i hsize hvirt hphys haligned hwrapVirt hwrapPhys hfirst hlast
    exact absurd ⟨hsize, not_not.mp hvirt, not_not.mp hphys, not_not.mp haligned, hwrapVirt,
      hwrapPhys, by simpa using hfirst, by simpa using hlast⟩ hadmissible

theorem mapRangeLarge_eq (s : State) (space : AddressSpace) (virt phys size : Word)
    (flags : PageFlags) :
    mapRangeLarge s space virt phys size flags = mapAll s space virt phys size flags true := by
  have hloop := mapEach_eq
    (fun s offset ↦ mapPageLarge s space.pml4 (virt + offset) (phys + offset) flags) space.pml4
    (fun offset ↦ ⟨virt + offset, phys + offset, flags, true⟩)
    (fun s offset ↦ mapPageLarge_eq s space.pml4 (virt + offset) (phys + offset) flags)
    (rangeOffsets size kLargePageSize) s
  by_cases hpml4 : space.pml4 = 0
  · rw [mapRangeLarge, if_pos hpml4, mapAll, if_pos (Or.inl hpml4)]
  by_cases hadmissible : RangeAdmissible virt phys size true
  · have hguards := hadmissible
    simp only [RangeAdmissible, if_true] at hguards
    obtain ⟨hsize, hvirt, hphys, haligned, hwrapVirt, hwrapPhys, hfirst, hlast⟩ := hguards
    simp only [mapRangeLarge, mapAll, hpml4, hsize, hvirt, hphys, haligned, hwrapVirt,
      hwrapPhys, hfirst, hlast, hadmissible, ne_eq, not_true_eq_false, Bool.not_true,
      Bool.false_eq_true, or_self, if_false, if_true, hloop, rangePages]
  · rw [mapAll, if_pos (Or.inr hadmissible), mapRangeLarge, if_neg hpml4]
    iterate 8
      split
      · rfl
    rename_i hsize hvirt hphys haligned hwrapVirt hwrapPhys hfirst hlast
    exact absurd ⟨hsize, not_not.mp hvirt, not_not.mp hphys, not_not.mp haligned, hwrapVirt,
      hwrapPhys, by simpa using hfirst, by simpa using hlast⟩ hadmissible

end WaterBuffalo.Vmm
