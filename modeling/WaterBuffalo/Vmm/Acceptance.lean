import WaterBuffalo.Vmm.Collision
import WaterBuffalo.Vmm.Ranges

/-!
# Which ranges are accepted

A range call checks its two ends and then maps page by page.  It succeeds exactly when the range is
well formed (it passes the checks, lies in one canonical half, its frames are below `2 ^ 52`, and
the flags suit the page size) and no address of it is covered by an installed page.  The condition
does not mention the page size except for alignment.
-/

namespace WaterBuffalo.Vmm

open Pmm TableForest

namespace RangeRequest

/-- Every page of the range is admissible, and so are its ends. -/
structure WellFormed (request : RangeRequest) : Prop where
  admissible : request.Admissible
  oneHalf : request.virt.toNat + request.size.toNat ≤ 2 ^ 47 ∨
    2 ^ 64 - 2 ^ 47 ≤ request.virt.toNat
  phys_le : request.phys.toNat + request.size.toNat ≤ 2 ^ 52
  small : request.large = false → has request.flags PageFlags.huge = false

/-- No page covers an address of the range. -/
def Vacant (request : RangeRequest) (pages : List Page) : Prop :=
  ∀ address, request.Contains address → ∀ page ∈ pages, ¬ Page.Covers page address

/-- The ranges share no address. -/
def Apart (request other : RangeRequest) : Prop :=
  ∀ address, ¬ (request.Contains address ∧ other.Contains address)

/-- Where the page `index` of a range is in physical memory. -/
theorem toNat_phys_page {request : RangeRequest} (h : request.Fits) {index : ℕ}
    (hindex : index < request.size.toNat / request.stride) :
    (request.phys + BitVec.ofNat 64 (index * request.stride)).toNat =
      request.phys.toNat + index * request.stride := by
  have hwrap := h.phys_le
  have hpos := request.stride_pos
  obtain ⟨hend, hoffset, -⟩ := toNat_virt_page h hindex
  rw [Nat.succ_mul] at hend
  rw [BitVec.toNat_add, hoffset]
  exact Nat.mod_eq_of_lt (by omega)

theorem stride_eq (request : RangeRequest) :
    request.stride = 2 ^ 12 ∨ request.stride = 2 ^ 21 := by
  unfold stride
  split <;> simp

/-- A range across the hole has a page that starts at the lower end of the hole. -/
theorem exists_page_at_hole {virt size stride : ℕ} (hstride : stride = 2 ^ 12 ∨ stride = 2 ^ 21)
    (hvirt : virt % stride = 0) (hsize : size % stride = 0) (hlower : virt < 2 ^ 47)
    (hupper : 2 ^ 47 < virt + size) :
    ∃ index < size / stride, virt + index * stride = 2 ^ 47 := by
  refine ⟨(2 ^ 47 - virt) / stride, ?_, ?_⟩
  · rcases hstride with rfl | rfl <;> omega
  · rcases hstride with rfl | rfl <;> omega

/-- The last page of a range ends at the range's end. -/
theorem end_le_of_last_page {phys size stride : ℕ} (hstride : stride = 2 ^ 12 ∨ stride = 2 ^ 21)
    (hphys : phys % stride = 0) (hsize : size % stride = 0) (hpos : 0 < size)
    (hlast : phys + (size / stride - 1) * stride < 2 ^ 52) : phys + size ≤ 2 ^ 52 := by
  rcases hstride with rfl | rfl <;> omega

theorem count_pos {request : RangeRequest} (h : request.Fits) :
    0 < request.size.toNat / request.stride := by
  apply Nat.div_pos _ request.stride_pos
  exact Nat.le_of_dvd h.size_pos (Nat.dvd_of_mod_eq_zero h.size_aligned)

/-- When every page of a range is admissible. -/
theorem pages_admissible_iff {request : RangeRequest} (h : request.Fits) :
    (∀ page ∈ request.pages, Page.Admissible page) ↔
      (request.virt.toNat + request.size.toNat ≤ 2 ^ 47 ∨
          2 ^ 64 - 2 ^ 47 ≤ request.virt.toNat) ∧
        request.phys.toNat + request.size.toNat ≤ 2 ^ 52 ∧
        (request.large = false → has request.flags PageFlags.huge = false) := by
  have hvirt := h.virt_aligned
  have hphys := h.phys_aligned
  have hsize := h.size_aligned
  constructor
  · intro hpages
    have hpage : ∀ index < request.size.toNat / request.stride,
        (request.virt.toNat + index * request.stride < 2 ^ 47 ∨
            2 ^ 64 - 2 ^ 47 ≤ request.virt.toNat + index * request.stride) ∧
          request.phys.toNat + index * request.stride < 2 ^ 52 ∧
          (request.large = false → has request.flags PageFlags.huge = false) := by
      intro index hindex
      obtain ⟨hcanonical, -, -, hbound, hhuge⟩ := (Page.admissible_iff _).mp
        (hpages _ (mem_pages.mpr ⟨index, hindex, rfl⟩))
      simp only at hcanonical hbound hhuge
      rw [(toNat_virt_page h hindex).2.2] at hcanonical
      rw [toNat_phys_page h hindex] at hbound
      exact ⟨hcanonical, hbound, hhuge⟩
    have hcount := count_pos h
    obtain ⟨hfirst, -, hsmall⟩ := hpage 0 hcount
    refine ⟨?_, ?_, hsmall⟩
    · by_contra hhole
      obtain ⟨index, hindex, hstart⟩ := exists_page_at_hole request.stride_eq hvirt hsize
        (by omega) (by omega)
      have hcanonical := (hpage index hindex).1
      omega
    · exact end_le_of_last_page request.stride_eq hphys hsize h.size_pos
        (hpage (request.size.toNat / request.stride - 1) (by omega)).2.1
  · rintro ⟨hhalf, hbound, hsmall⟩ page hpage
    obtain ⟨index, hindex, rfl⟩ := mem_pages.mp hpage
    obtain ⟨hend, -, hvirtPage⟩ := toNat_virt_page h hindex
    have hphysPage := toNat_phys_page h hindex
    have hstep : (index + 1) * request.stride = index * request.stride + request.stride :=
      Nat.succ_mul _ _
    have hpos := request.stride_pos
    rw [Page.admissible_iff, hvirtPage, hphysPage, toNat_size rfl, Nat.add_mul_mod_self_right,
      Nat.add_mul_mod_self_right]
    refine ⟨?_, hvirt, hphys, by omega, hsmall⟩
    rcases hhalf with hlower | hupper
    · exact Or.inl (by omega)
    · exact Or.inr (by omega)

theorem wellFormed_iff {request : RangeRequest} :
    request.WellFormed ↔ request.Admissible ∧ ∀ page ∈ request.pages, Page.Admissible page := by
  constructor
  · rintro ⟨hends, hhalf, hbound, hsmall⟩
    exact ⟨hends, (pages_admissible_iff hends.fits).mpr ⟨hhalf, hbound, hsmall⟩⟩
  · rintro ⟨hends, hpages⟩
    obtain ⟨hhalf, hbound, hsmall⟩ := (pages_admissible_iff hends.fits).mp hpages
    exact ⟨hends, hhalf, hbound, hsmall⟩

/-- The pages of a range share no address with each other. -/
theorem pages_pairwise {request : RangeRequest} (h : request.Fits) :
    request.pages.Pairwise fun page later ↦ ¬ Page.Overlaps later page := by
  have hstride : (if request.large then kLargePageSize else kPageSize).toNat = request.stride := by
    unfold stride
    split <;> rfl
  rw [pages, rangePages, rangeOffsets, hstride, List.map_map, List.pairwise_map]
  refine List.pairwise_lt_range.imp_of_mem ?_
  rintro index later hindex hlater hlt ⟨address, ⟨hlower, -⟩, -, hupper⟩
  rw [List.mem_range] at hindex hlater
  have hnext : (index + 1) * request.stride ≤ later * request.stride :=
    Nat.mul_le_mul_right _ hlt
  simp only [Function.comp_apply] at hlower hupper
  rw [(toNat_virt_page h hlater).2.2] at hlower
  rw [(toNat_virt_page h hindex).2.2, toNat_size rfl] at hupper
  rw [Nat.succ_mul] at hnext
  omega

theorem vacant_iff {request : RangeRequest} (h : request.Fits) (pages : List Page) :
    request.Vacant pages ↔
      ∀ page ∈ request.pages, ∀ other ∈ pages, ¬ Page.Overlaps page other := by
  constructor
  · rintro hvacant page hpage other hother ⟨address, hcovers, hcovers'⟩
    exact hvacant address (contains_of_page h hpage hcovers) other hother hcovers'
  · intro hfree address hcontains other hother hcovers
    obtain ⟨page, hpage, hcovers', -, -⟩ := exists_page h hcontains
    exact hfree page hpage other hother ⟨address, hcovers', hcovers⟩

/-- A range is vacant after another one was mapped if the two are apart. -/
theorem vacant_append_iff {request mapped : RangeRequest} (hmapped : mapped.Fits)
    (pages : List Page) :
    request.Vacant (mapped.pages.reverse ++ pages) ↔
      mapped.Apart request ∧ request.Vacant pages := by
  constructor
  · intro hvacant
    refine ⟨?_, fun address hcontains page hpage ↦
      hvacant address hcontains page (List.mem_append_right _ hpage)⟩
    rintro address ⟨hinMapped, hcontains⟩
    obtain ⟨page, hpage, hcovers, -, -⟩ := exists_page hmapped hinMapped
    exact hvacant address hcontains page
      (List.mem_append_left _ (List.mem_reverse.mpr hpage)) hcovers
  · rintro ⟨hapart, hvacant⟩ address hcontains page hpage hcovers
    rw [List.mem_append, List.mem_reverse] at hpage
    rcases hpage with hnew | hold
    · exact hapart address ⟨contains_of_page hmapped hnew hcovers, hcontains⟩
    · exact hvacant address hcontains page hold hcovers

end RangeRequest

section Accepted

variable {stock held roots : Set ℕ} {s : State} {root : ℕ} {space : AddressSpace}

/-- The loop of a range call maps the pages before the first one that could not be mapped on its
own. -/
theorem Ready.mapPages_mapped {pages : List Page} (hready : Ready stock held roots s root)
    (hflags : ∀ page ∈ pages, PageFlags.Named page.flags)
    (hpairwise : pages.Pairwise fun page later ↦ ¬ Page.Overlaps later page)
    (hcalm : State.Calm s (mapPages (tableAddress s.toStatics root) pages s).2) :
    (∀ page ∈ mappedPages (tableAddress s.toStatics root) pages s,
        Page.Mappable (installed s (tableAddress s.toStatics root)) page) ∧
      ∀ obstacle rest,
        pages = mappedPages (tableAddress s.toStatics root) pages s ++ obstacle :: rest →
          ¬ Page.Mappable (installed s (tableAddress s.toStatics root)) obstacle := by
  induction pages generalizing s with
  | nil => exact ⟨List.forall_mem_nil _, fun obstacle rest hsplit ↦ by simp at hsplit⟩
  | cons page pages ih =>
    rw [List.forall_mem_cons] at hflags
    rw [List.pairwise_cons] at hpairwise
    have hgrows := (mapOne_proceeds s (tableAddress s.toStatics root) page).grows
    have hone := fun hcalm ↦ hready.mapOne_iff hflags.1 hcalm
    have hnext := fun hcalm ↦ hready.mapOne hflags.1 hcalm
    have hspec := fun hcalm ↦ mapOne_spec hready.inv hready.root_mem hflags.1 hcalm
    rw [mapPages] at hcalm
    rw [mappedPages]
    generalize Vmm.mapOne s (tableAddress s.toStatics root) page = result at *
    obtain ⟨returned, middle⟩ := result
    cases returned with
    | false =>
      refine ⟨List.forall_mem_nil _, fun obstacle rest hsplit ↦ ?_⟩
      obtain rfl : page = obstacle := (List.cons.inj hsplit).1
      exact (hone hcalm).not.mp Bool.false_ne_true
    | true =>
      have hrest := (mapPages_proceeds (tableAddress s.toStatics root) pages middle).grows
      obtain ⟨hfirst, hsecond⟩ := (State.calm_trans hgrows hrest).mp hcalm
      obtain ⟨-, hstatics, hsuccess, -⟩ := hspec hfirst
      have hpages : installed middle (tableAddress s.toStatics root) =
          page :: installed s (tableAddress s.toStatics root) := hsuccess rfl
      have hloop := ih (hnext hfirst) hflags.2 hpairwise.2
      simp only at hstatics hloop
      rw [hstatics, hpages] at hloop
      obtain ⟨hmapped, hobstacle⟩ := hloop hsecond
      refine ⟨List.forall_mem_cons.mpr ⟨(hone hfirst).mp rfl, fun later hlater ↦ ?_⟩,
        fun obstacle rest hsplit hfree ↦ ?_⟩
      · exact ⟨(hmapped later hlater).1, fun other hother ↦
          (hmapped later hlater).2 other (List.mem_cons_of_mem _ hother)⟩
      · have hsplit' := (List.cons.inj hsplit).2
        have hmember : obstacle ∈ pages := by
          rw [hsplit']
          exact List.mem_append_right _ List.mem_cons_self
        exact hobstacle obstacle rest hsplit' ⟨hfree.1, List.forall_mem_cons.mpr
          ⟨hpairwise.1 obstacle hmember, hfree.2⟩⟩

/-- The loop of a range call succeeds when every page could be mapped on its own. -/
theorem Ready.mapPages_iff {pages : List Page} (hready : Ready stock held roots s root)
    (hflags : ∀ page ∈ pages, PageFlags.Named page.flags)
    (hpairwise : pages.Pairwise fun page later ↦ ¬ Page.Overlaps later page)
    (hcalm : State.Calm s (mapPages (tableAddress s.toStatics root) pages s).2) :
    (mapPages (tableAddress s.toStatics root) pages s).1 = true ↔
      ∀ page ∈ pages, Page.Mappable (installed s (tableAddress s.toStatics root)) page := by
  obtain ⟨hmapped, hobstacle⟩ := hready.mapPages_mapped hflags hpairwise hcalm
  obtain ⟨rest, hpages, hreturned⟩ :=
    exists_pages_eq_mappedPages_append (tableAddress s.toStatics root) pages s
  rw [hreturned]
  cases rest with
  | nil =>
    rw [List.append_nil] at hpages
    rw [← hpages] at hmapped
    exact iff_of_true rfl hmapped
  | cons obstacle rest =>
    refine iff_of_false (List.cons_ne_nil _ _) fun hall ↦ hobstacle obstacle rest hpages ?_
    apply hall
    rw [hpages]
    exact List.mem_append_right _ List.mem_cons_self

/-- **Accepted ranges.** -/
theorem Ready.mapAll_iff (hready : Ready stock held roots s root) (request : RangeRequest)
    (hspace : space.pml4 = tableAddress s.toStatics root) (hflags : PageFlags.Named request.flags)
    (hcalm : State.Calm s (mapAll s space request.virt request.phys request.size request.flags
      request.large).2) :
    (mapAll s space request.virt request.phys request.size request.flags request.large).1 = true ↔
      request.WellFormed ∧ request.Vacant (installed s space.pml4) := by
  have hroot := hready.inv.table_mem_stock (hready.inv.forest.roots_subset_taken hready.root_mem)
  have hpointer : space.pml4 ≠ 0 := by
    rw [hspace]
    exact hready.nonNull root hroot
  by_cases hadmissible : request.Admissible
  · have hadmitted : ¬ (space.pml4 = 0 ∨
        ¬ RangeAdmissible request.virt request.phys request.size request.large) := by
      rw [not_or, not_not]
      exact ⟨hpointer, hadmissible⟩
    rw [mapAll, if_neg hadmitted, hspace] at hcalm ⊢
    have hnamed : ∀ page ∈ request.pages, PageFlags.Named page.flags := by
      intro page hpage
      rw [rangePages_flags hpage]
      exact hflags
    have hloop := hready.mapPages_iff hnamed (RangeRequest.pages_pairwise hadmissible.fits) hcalm
    calc
      _ ↔ ∀ page ∈ request.pages,
          Page.Mappable (installed s (tableAddress s.toStatics root)) page := hloop
      _ ↔ (∀ page ∈ request.pages, Page.Admissible page) ∧ ∀ page ∈ request.pages,
          ∀ other ∈ installed s (tableAddress s.toStatics root), ¬ Page.Overlaps page other :=
        forall₂_and
      _ ↔ request.WellFormed ∧ request.Vacant (installed s (tableAddress s.toStatics root)) := by
        rw [RangeRequest.wellFormed_iff, and_iff_right hadmissible,
          RangeRequest.vacant_iff hadmissible.fits]
  · have hrefused : space.pml4 = 0 ∨
        ¬ RangeAdmissible request.virt request.phys request.size request.large :=
      Or.inr hadmissible
    rw [mapAll, if_pos hrefused]
    exact iff_of_false Bool.false_ne_true fun haccepted ↦ hadmissible haccepted.1.admissible

/-- A range call leaves the space ready for the next one. -/
theorem Ready.mapAll (hready : Ready stock held roots s root) (request : RangeRequest)
    (hspace : space.pml4 = tableAddress s.toStatics root) (hflags : PageFlags.Named request.flags)
    (hcalm : State.Calm s (Vmm.mapAll s space request.virt request.phys request.size request.flags
      request.large).2) :
    Ready stock held roots (Vmm.mapAll s space request.virt request.phys request.size request.flags
      request.large).2 root := by
  obtain ⟨h, hnonnull, hpopulated, hroot⟩ := hready
  have hspec := mapAll_spec h hroot hspace hflags hcalm
  refine ⟨hspec.inv, ?_, hspec.populated hnonnull hpopulated, hroot⟩
  rw [hspec.statics]
  exact hnonnull

/-- **Accepted sequences of ranges**: well formed, apart from what is installed and from each
other. -/
theorem Ready.mapRequests_iff {requests : List RangeRequest}
    (hready : Ready stock held roots s root)
    (hspace : space.pml4 = tableAddress s.toStatics root)
    (hflags : ∀ request ∈ requests, PageFlags.Named request.flags)
    (hcalm : State.Calm s (mapRequests space requests s).2) :
    (mapRequests space requests s).1 = true ↔
      (∀ request ∈ requests, request.WellFormed ∧ request.Vacant (installed s space.pml4)) ∧
        requests.Pairwise RangeRequest.Apart := by
  induction requests generalizing s with
  | nil => simp [mapRequests]
  | cons request requests ih =>
    rw [List.forall_mem_cons] at hflags
    have hgrows := (mapAll_proceeds s space request.virt request.phys request.size request.flags
      request.large).grows
    have hone := fun hcalm ↦ hready.mapAll_iff request hspace hflags.1 hcalm
    have hnext := fun hcalm ↦ hready.mapAll request hspace hflags.1 hcalm
    have hspec : State.Calm s (Vmm.mapAll s space request.virt request.phys request.size
          request.flags request.large).2 →
        MapResult stock held roots (Populated (tables s) roots) space.pml4 request.pages s
          (Vmm.mapAll s space request.virt request.phys request.size request.flags request.large) :=
      mapAll_spec hready.inv hready.root_mem hspace hflags.1
    rw [List.forall_mem_cons, List.pairwise_cons]
    rw [mapRequests] at hcalm ⊢
    generalize Vmm.mapAll s space request.virt request.phys request.size request.flags
      request.large = result at hcalm hgrows hone hnext hspec
    obtain ⟨returned, middle⟩ := result
    cases returned with
    | false =>
      have hrefused := (hone hcalm).not.mp Bool.false_ne_true
      exact iff_of_false Bool.false_ne_true fun hall ↦ hrefused hall.1.1
    | true =>
      have hrest := (mapRequests_proceeds space requests middle).grows
      obtain ⟨hfirst, hsecond⟩ := (State.calm_trans hgrows hrest).mp hcalm
      have haccepted := (hone hfirst).mp rfl
      obtain ⟨-, hstatics, hsuccess, -⟩ := hspec hfirst
      have hpages : installed middle space.pml4 =
          request.pages.reverse ++ installed s space.pml4 := hsuccess rfl
      have hspace' : space.pml4 = tableAddress middle.toStatics root := by
        rw [hspace]
        exact congrArg (tableAddress · root) hstatics.symm
      rw [ih (hnext hfirst) hspace' hflags.2 hsecond, hpages, and_iff_right haccepted]
      simp only [RangeRequest.vacant_append_iff haccepted.1.admissible.fits, forall₂_and]
      tauto

end Accepted

end WaterBuffalo.Vmm
