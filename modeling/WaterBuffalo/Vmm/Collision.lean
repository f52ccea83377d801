import WaterBuffalo.Vmm.Refusal
import WaterBuffalo.Vmm.Spaces

/-!
# Collisions

A mapping call looks at tables, not at pages: it is refused when it meets an entry in use.  Since
every table below a root has an entry in use, and every entry in use that is no link is the leaf
of an installed page, an entry in the way always means an installed page that shares an address
with the new one.  So the calls accept exactly the admissible pages that overlap no installed one.
-/

namespace WaterBuffalo.Vmm

open Pmm TableForest

namespace Page

/-- The pages share an address. -/
def Overlaps (page other : Page) : Prop :=
  ∃ address, Covers page address ∧ Covers other address

/-- The page could be mapped next to these. -/
def Mappable (pages : List Page) (page : Page) : Prop :=
  Admissible page ∧ ∀ other ∈ pages, ¬ Overlaps page other

theorem covers_self (page : Page) : Covers page page.virt := by
  refine ⟨le_rfl, ?_⟩
  rw [toNat_size]
  split <;> omega

/-- A small page that overlaps another one lies in it. -/
theorem overlaps_small_iff {page other : Page} (hpage : Admissible page)
    (hother : Admissible other) (hsmall : page.large = false) :
    Overlaps page other ↔ Covers other page.virt := by
  constructor
  · rintro ⟨address, ⟨hlower, hupper⟩, hlower', hupper'⟩
    obtain ⟨-, haligned, -, -, -⟩ := (admissible_iff page).mp hpage
    obtain ⟨-, haligned', -, -, -⟩ := (admissible_iff other).mp hother
    rw [toNat_size, hsmall] at haligned hupper
    rw [toNat_size] at haligned' hupper'
    rw [Covers, toNat_size]
    cases hsize : other.large
    all_goals
      simp only [hsize, Bool.false_eq_true, if_false,
        if_true] at haligned haligned' hupper hupper' ⊢
      omega
  · intro hcovers
    exact ⟨page.virt, covers_self page, hcovers⟩

end Page

/-- What a mapping call on the space of the frame `root` relies on. -/
structure Ready (stock held roots : Set ℕ) (s : State) (root : ℕ) : Prop where
  inv : KernelInv stock held roots s
  nonNull : NonNull stock s.toStatics
  populated : Populated (tables s) roots
  root_mem : root ∈ roots

/-- Every space of a state reached by a history without exhaustion can be mapped in. -/
theorem ready_of_run {regions : List MemoryRegion} {hhdmOffset : Word} {memory : Memory}
    {s : State} (hmap : LimineMap regions) (hnonnull : NonNullMap regions hhdmOffset)
    (hinit : init regions hhdmOffset memory = .ok s) {operations : List Operation}
    (hlegal : Run.Legal World.step World.Permits (World.start s) operations)
    (hcalm : Event.exhausted ∉ (Run.final World.step (World.start s) operations).state.trace)
    {space : AddressSpace}
    (hspace : space ∈ (Run.final World.step (World.start s) operations).spaces) :
    let world := Run.final World.step (World.start s) operations
    ∃ root, Ready {frame | Free s frame} ↑world.held world.roots world.state root ∧
      space = ⟨tableAddress world.state.toStatics root, BitVec.ofNat 64 (4096 * root)⟩ := by
  intro world
  obtain ⟨hinv, -⟩ := run_worldInv hmap hinit hlegal hcalm
  obtain ⟨root, hroot, hpml4⟩ := hinv.spaces space hspace
  have hpointers : NonNull {frame | Free s frame} world.state.toStatics := by
    rw [hinv.statics_eq]
    exact hnonnull.nonNull hmap hinit
  refine ⟨root, ⟨hinv.kernel, hpointers, run_populated hmap hnonnull hinit hlegal hcalm, hroot⟩, ?_⟩
  rw [hinv.statics_eq]
  exact hpml4

section Exact

variable {stock held roots : Set ℕ} {s : State} {root : ℕ} {page : Page}

/-- A large page where the way should go on covers the new page. -/
theorem KernelInv.exists_overlapping_of_shadowed (h : KernelInv stock held roots s)
    (hroot : root ∈ roots) (hpage : Page.Admissible page)
    (hshadowed : Shadowed (tables s) root page) :
    ∃ other ∈ framePages s root, Page.Overlaps page other := by
  obtain ⟨before, index, table, hbefore, hdescend, hhuge⟩ := hshadowed
  have hlevel := (h.forest.entries root hroot before index _
    ((Page.length_before_le hbefore).2.trans (by omega))
    (entryAt_eq_some.mpr ⟨table, hdescend, rfl⟩)).huge hhuge
  have hslots : before ++ [index] = Page.slots page := by
    apply hbefore.eq_of_length_le
    rw [List.length_append, List.length_singleton, hlevel]
    exact Page.length_slots_le page
  have hsmall : page.large = false := by
    have hlength := congrArg List.length hslots
    rw [List.length_append, List.length_singleton, hlevel, Page.length_slots] at hlength
    cases hlarge : page.large <;> simp_all
  have hsplit : before ++ [index] = Page.slots ⟨page.virt, 0, 0, true⟩ ++
      [Page.leafSlot ⟨page.virt, 0, 0, true⟩] := hslots.trans (Page.slots_small hsmall)
  obtain ⟨rfl, hindex⟩ := List.append_inj' hsplit rfl
  obtain rfl : index = Page.leafSlot ⟨page.virt, 0, 0, true⟩ := by simpa using hindex
  obtain ⟨other, hother, hcovers⟩ := h.exists_covering hroot hpage.1 true hdescend
    ⟨ne_zero_of_has hhuge, Or.inr hhuge⟩
  exact ⟨other, hother, page.virt, Page.covers_self page, hcovers⟩

/-- An entry in the page's slot is the leaf of a page there, or links to a table of small pages
inside the new large page. -/
theorem KernelInv.exists_overlapping_of_occupied (h : KernelInv stock held roots s)
    (hpopulated : Populated (tables s) roots) (hroot : root ∈ roots)
    (hpage : Page.Admissible page) (hoccupied : Occupied (tables s) root page) :
    ∃ other ∈ framePages s root, Page.Overlaps page other := by
  obtain ⟨table, hdescend, hentry⟩ := hoccupied
  have hok := h.forest.entries root hroot _ (Page.leafSlot page) _ (Page.length_slots_le page)
    (entryAt_eq_some.mpr ⟨table, hdescend, rfl⟩)
  by_cases hleaf : IsLeaf (Page.slots page).length (tables s table (Page.leafSlot page))
  · obtain ⟨other, hother, hcovers⟩ := h.exists_covering hroot hpage.1 page.large hdescend hleaf
    exact ⟨other, hother, page.virt, Page.covers_self page, hcovers⟩
  · rw [IsLeaf, not_and, not_or] at hleaf
    obtain ⟨hlevel, hhuge⟩ := hleaf hentry
    obtain ⟨next, hlink⟩ := (hok.cases.resolve_left hentry).resolve_left hhuge
    have hlarge : page.large = true := by
      rw [Page.length_slots] at hlevel
      cases hlarge : page.large <;> simp_all
    have hnext : descend link (tables s) root (Page.slots page ++ [Page.leafSlot page]) =
        some next := descend_concat_eq_some.mpr ⟨table, hdescend, hlink⟩
    have hlength : (Page.slots page ++ [Page.leafSlot page]).length = 3 := by
      rw [List.length_append, List.length_singleton, Page.length_slots, hlarge]
      rfl
    obtain ⟨index, hbelow⟩ := hpopulated root hroot _ next (by simp) hlength.le hnext
    obtain ⟨other, hother, hslots, -⟩ := h.forest.accounted root hroot _ index _ hlength.le
      (entryAt_eq_some.mpr ⟨next, hnext, rfl⟩) ⟨hbelow, Or.inl hlength⟩
    have hotherSmall : other.large = false := by
      have hotherLength := congrArg List.length hslots
      rw [hlength, Page.length_slots] at hotherLength
      cases hsize : other.large <;> simp_all
    refine ⟨other, hother, other.virt, ?_, Page.covers_self other⟩
    rw [Page.covers_iff hpage (h.forest.pages_ok root other hother).1.1]
    have hlarge' : ({ page with virt := other.virt } : Page).large = true := hlarge
    rw [Page.slots_small hotherSmall, Page.slots_large hlarge] at hslots
    rw [Page.slots_large hlarge, Page.slots_large hlarge']
    simp only [Page.leafSlot, Page.leafIndex, hlarge, if_true, List.cons_append, List.nil_append,
      List.cons.injEq, and_true] at hslots ⊢
    exact ⟨⟨hslots.1.symm, hslots.2.1.symm⟩, hslots.2.2.symm⟩

/-- **Exact collision detection**, for both page sizes. -/
theorem Ready.mapOne_iff (hready : Ready stock held roots s root)
    (hflags : PageFlags.Named page.flags)
    (hcalm : State.Calm s (mapOne s (tableAddress s.toStatics root) page).2) :
    (mapOne s (tableAddress s.toStatics root) page).1 = true ↔
      Page.Mappable (installed s (tableAddress s.toStatics root)) page := by
  obtain ⟨h, hnonnull, hpopulated, hroot⟩ := hready
  have hbound := h.root_lt hroot
  simp only [Page.Mappable, ← mem_framePages hbound]
  by_cases hpage : Page.Admissible page
  · rcases mapOne_outcome h hnonnull hroot hpage hcalm with
      ⟨hreturned, hvacant⟩ | ⟨hreturned, hblocked, -⟩
    · have hspec := mapOne_spec h hroot hflags hcalm
      have hinstalled : ∀ other, other ∈ framePages s root ∨ other = page →
          other ∈ framePages (mapOne s (tableAddress s.toStatics root) page).2 root := by
        intro other hother
        rw [mem_framePages hbound, hspec.statics, hspec.success hreturned]
        rw [mem_framePages hbound] at hother
        simpa [or_comm] using hother
      refine iff_of_true hreturned ⟨hpage, ?_⟩
      rintro other hother ⟨address, hcovers, hcovers'⟩
      -- Two pages of the later state that cover one address are one page.
      obtain rfl : page = other := hspec.inv.covers_unique (hinstalled page (Or.inr rfl)) hcovers
        (hinstalled other (Or.inl hother)) hcovers'
      obtain ⟨table, hdescend, hentry⟩ := entryAt_eq_some.mp (h.forest.installed root page hother)
      refine hvacant ⟨table, hdescend, ?_⟩
      rw [hentry]
      exact Page.leafEntry_ne_zero page
    · have hoverlaps : ∃ other ∈ framePages s root, Page.Overlaps page other := by
        rcases hblocked with hshadowed | hoccupied
        · exact h.exists_overlapping_of_shadowed hroot hpage hshadowed
        · exact h.exists_overlapping_of_occupied hpopulated hroot hpage hoccupied
      refine iff_of_false (by simp [hreturned]) fun hfree ↦ ?_
      obtain ⟨other, hother, hoverlap⟩ := hoverlaps
      exact hfree.2 other hother hoverlap
  · rw [mapOne_of_refused (Or.inr hpage)]
    exact iff_of_false (by simp) fun hfree ↦ hpage hfree.1

/-- A mapping call leaves the space ready for the next one. -/
theorem Ready.mapOne (hready : Ready stock held roots s root)
    (hflags : PageFlags.Named page.flags)
    (hcalm : State.Calm s (Vmm.mapOne s (tableAddress s.toStatics root) page).2) :
    Ready stock held roots (Vmm.mapOne s (tableAddress s.toStatics root) page).2 root := by
  obtain ⟨h, hnonnull, hpopulated, hroot⟩ := hready
  have hspec := mapOne_spec h hroot hflags hcalm
  refine ⟨hspec.inv, ?_, hspec.populated hnonnull hpopulated, hroot⟩
  rw [hspec.statics]
  exact hnonnull

end Exact

/-- **Collision detection is exact.** In every state reached without exhaustion, a mapping call
that finds a frame for each missing table succeeds if and only if its arguments are good and no
installed page of the space is in the way. -/
theorem collision_detection_exact {regions : List MemoryRegion} {hhdmOffset : Word}
    {memory : Memory} {s : State} (hmap : LimineMap regions)
    (hnonnull : NonNullMap regions hhdmOffset) (hinit : init regions hhdmOffset memory = .ok s)
    {operations : List Operation}
    (hlegal : Run.Legal World.step World.Permits (World.start s) operations)
    (hcalm : Event.exhausted ∉ (Run.final World.step (World.start s) operations).state.trace) :
    let world := Run.final World.step (World.start s) operations
    ∀ space ∈ world.spaces, ∀ virt phys flags, PageFlags.Named flags →
      (State.Calm world.state (mapPage world.state space.pml4 virt phys flags).2 →
        ((mapPage world.state space.pml4 virt phys flags).1 = true ↔
          isCanonical virt = true ∧ virt.toNat % 4096 = 0 ∧ phys.toNat % 4096 = 0 ∧
            phys.toNat < 2 ^ 52 ∧ has flags PageFlags.huge = false ∧
            ∀ page ∈ installed world.state space.pml4, ¬ Page.Covers page virt)) ∧
      (State.Calm world.state (mapPageLarge world.state space.pml4 virt phys flags).2 →
        ((mapPageLarge world.state space.pml4 virt phys flags).1 = true ↔
          isCanonical virt = true ∧ virt.toNat % 2 ^ 21 = 0 ∧ phys.toNat % 2 ^ 21 = 0 ∧
            phys.toNat < 2 ^ 52 ∧
            ∀ address : Word, virt.toNat ≤ address.toNat → address.toNat < virt.toNat + 2 ^ 21 →
              ∀ page ∈ installed world.state space.pml4, ¬ Page.Covers page address)) := by
  intro world space hspace virt phys flags hflags
  obtain ⟨root, hready, rfl⟩ := ready_of_run hmap hnonnull hinit hlegal hcalm hspace
  have hbound := hready.inv.root_lt hready.root_mem
  have hinstalled : ∀ page ∈ installed world.state (tableAddress world.state.toStatics root),
      Page.Admissible page := by
    intro page hpage
    rw [← mem_framePages hbound] at hpage
    exact (hready.inv.forest.pages_ok root page hpage).1
  constructor
  · intro hcalmCall
    rw [mapPage_eq] at hcalmCall ⊢
    rw [hready.mapOne_iff hflags hcalmCall]
    constructor
    · rintro ⟨hpage, hfree⟩
      obtain ⟨hcanonical, hvirt, hphys, hphysBound, hhuge⟩ := (Page.admissible_iff _).mp hpage
      refine ⟨(isCanonical_iff virt).mpr hcanonical, hvirt, hphys, hphysBound, hhuge rfl, ?_⟩
      intro page hmem hcovers
      exact hfree page hmem ((Page.overlaps_small_iff hpage (hinstalled page hmem) rfl).mpr hcovers)
    · rintro ⟨hcanonical, hvirt, hphys, hphysBound, hhuge, hfree⟩
      have hpage : Page.Admissible ⟨virt, phys, flags, false⟩ := (Page.admissible_iff _).mpr
        ⟨(isCanonical_iff virt).mp hcanonical, hvirt, hphys, hphysBound, fun _ ↦ hhuge⟩
      refine ⟨hpage, fun page hmem hoverlaps ↦ hfree page hmem ?_⟩
      exact (Page.overlaps_small_iff hpage (hinstalled page hmem) rfl).mp hoverlaps
  · intro hcalmCall
    rw [mapPageLarge_eq] at hcalmCall ⊢
    rw [hready.mapOne_iff hflags hcalmCall]
    constructor
    · rintro ⟨hpage, hfree⟩
      obtain ⟨hcanonical, hvirt, hphys, hphysBound, -⟩ := (Page.admissible_iff _).mp hpage
      refine ⟨(isCanonical_iff virt).mpr hcanonical, hvirt, hphys, hphysBound, ?_⟩
      intro address hlower hupper page hmem hcovers
      exact hfree page hmem ⟨address, ⟨hlower, hupper⟩, hcovers⟩
    · rintro ⟨hcanonical, hvirt, hphys, hphysBound, hfree⟩
      have hpage : Page.Admissible ⟨virt, phys, flags, true⟩ := (Page.admissible_iff _).mpr
        ⟨(isCanonical_iff virt).mp hcanonical, hvirt, hphys, hphysBound, fun hsmall ↦
          Bool.noConfusion hsmall⟩
      refine ⟨hpage, ?_⟩
      rintro page hmem ⟨address, ⟨hlower, hupper⟩, hcovers⟩
      exact hfree address hlower hupper page hmem hcovers

/-- The space of `firstCalls`, and the second call that can be made in it. -/
theorem exists_bootMap_call :
    ∃ s, init bootMap 0xffff800000000000 (fun _ ↦ 0) = .ok s ∧
      Run.Legal World.step World.Permits (World.start s) firstCalls ∧
      let world := Run.final World.step (World.start s) firstCalls
      Event.exhausted ∉ world.state.trace ∧
      ∃ space ∈ world.spaces, State.Calm world.state (mapPage world.state space.pml4 0x401000 0x9000
        (PageFlags.writable ||| PageFlags.user)).2 := by
  obtain ⟨s, hinit, hlegal, hcalm, -⟩ := exists_bootMap_run
  obtain ⟨hfirst, ⟨⟨space, hspace, hpml4⟩, -⟩, -⟩ := Run.legal_append.mp hlegal
  refine ⟨s, hinit, hfirst, calm_of_append hcalm, space, hspace, ?_⟩
  rw [Run.final_append] at hcalm
  rw [hpml4]
  exact State.calm_of_not_mem hcalm

theorem collision_detection_exact_bootMap :
    ∃ s, init bootMap 0xffff800000000000 (fun _ ↦ 0) = .ok s ∧
      let world := Run.final World.step (World.start s) firstCalls
      ∃ space ∈ world.spaces,
        ((mapPage world.state space.pml4 0x401000 0x9000
            (PageFlags.writable ||| PageFlags.user)).1 = true ↔
          isCanonical 0x401000 = true ∧ (0x401000 : Word).toNat % 4096 = 0 ∧
            (0x9000 : Word).toNat % 4096 = 0 ∧ (0x9000 : Word).toNat < 2 ^ 52 ∧
            has (PageFlags.writable ||| PageFlags.user) PageFlags.huge = false ∧
            ∀ page ∈ installed world.state space.pml4, ¬ Page.Covers page 0x401000) := by
  obtain ⟨s, hinit, hlegal, hcalm, space, hspace, hcall⟩ := exists_bootMap_call
  exact ⟨s, hinit, space, hspace, (collision_detection_exact (by decide) bootMap_nonNull hinit
    hlegal hcalm space hspace _ _ _ (by decide)).1 hcall⟩

/-! ## Refused calls -/

/-- The allocator and every page table are as they were. -/
structure Unchanged (s later : State) : Prop where
  statics : later.toStatics = s.toStatics
  freeFrameCount : later.freeFrameCount = s.freeFrameCount
  bitmap : ∀ position < 64 * s.bitmapWords.toNat, used later position = used s position
  tableFrames_eq : tableFrames later = tableFrames s
  tables_eq : ∀ frame ∈ tableFrames s, tables later frame = tables s frame

/-- A call for the page widens this entry: its arguments are good, it asks for user access, and
the entry is a link on its way. -/
def Widens (s : State) (root : ℕ) (page : Page) (table : ℕ) (index : Fin kPageTableEntries) :
    Prop :=
  Page.Admissible page ∧ has page.flags PageFlags.user = true ∧
    Follows link (tables s) root (Page.slots page) table index

/-- What a refused call leaves: everything as it was, but user access added to links on its way. -/
structure RefusalKept (root : ℕ) (page : Page) (s later : State) : Prop where
  statics : later.toStatics = s.toStatics
  freeFrameCount : later.freeFrameCount = s.freeFrameCount
  bitmap : ∀ position < 64 * s.bitmapWords.toNat, used later position = used s position
  tableFrames_eq : tableFrames later = tableFrames s
  widened : ∀ table index, Widens s root page table index →
    tables later table index = tables s table index ||| PageFlags.user
  kept : ∀ table index, ¬ Widens s root page table index →
    tables later table index = tables s table index

/-- Links have all rights of an intermediate entry but possibly user access. -/
theorem or_intermediateFlags {entry : Word} (hpresent : has entry PageFlags.present = true)
    (hwritable : has entry PageFlags.writable = true) (flags : PageFlags) :
    entry ||| intermediateFlags flags =
      if has flags PageFlags.user then entry ||| PageFlags.user else entry := by
  have hpresent' : entry ||| PageFlags.present = entry :=
    (Bits.or_bit_eq_self_iff entry (by decide)).mpr (has_eq_true_iff.mp hpresent)
  have hwritable' : entry ||| PageFlags.writable = entry :=
    (Bits.or_bit_eq_self_iff entry (by decide)).mpr (has_eq_true_iff.mp hwritable)
  unfold intermediateFlags
  cases huser : has flags PageFlags.user with
  | true =>
    rw [if_pos (has_eq_true_iff.mp huser), if_pos rfl, ← BitVec.or_assoc, ← BitVec.or_assoc,
      hpresent', hwritable']
  | false =>
    rw [if_neg (not_not.mpr (has_eq_false_iff.mp huser)), if_neg Bool.false_ne_true,
      ← BitVec.or_assoc, hpresent', hwritable']

section Refused

variable {stock held roots : Set ℕ} {s later : State} {root : ℕ} {page : Page}

/-- A link on the way of a page is in a table of the space and writable. -/
theorem KernelInv.follows_spec (h : KernelInv stock held roots s) (hroot : root ∈ roots)
    {table : ℕ} {index : Fin kPageTableEntries}
    (hfollows : Follows link (tables s) root (Page.slots page) table index) :
    table ∈ tableFrames s ∧ has (tables s table index) PageFlags.present = true ∧
      has (tables s table index) PageFlags.writable = true := by
  obtain ⟨before, next, hbefore, hdescend, hlink⟩ := hfollows
  have hlength := (Page.length_before_le hbefore).2
  obtain ⟨hpresent, hhuge, -⟩ := link_eq_some_iff.mp hlink
  have hok := h.forest.entries root hroot before index _ (by omega)
    (entryAt_eq_some.mpr ⟨table, hdescend, rfl⟩)
  exact ⟨h.descend_mem hroot (by omega) hdescend, hpresent,
    (hok.rights (by omega) hhuge (PagingForest.ne_zero_of_link hlink)).1⟩

theorem Ready.mapOne_refused (hready : Ready stock held roots s root)
    (hcalm : State.Calm s (Vmm.mapOne s (tableAddress s.toStatics root) page).2)
    (hrefused : (Vmm.mapOne s (tableAddress s.toStatics root) page).1 = false) :
    RefusalKept root page s (Vmm.mapOne s (tableAddress s.toStatics root) page).2 := by
  obtain ⟨h, hnonnull, -, hroot⟩ := hready
  by_cases hpage : Page.Admissible page
  · rcases mapOne_outcome h hnonnull hroot hpage hcalm with ⟨hreturned, -⟩ | ⟨-, -, hwidened⟩
    · rw [hreturned] at hrefused
      cases hrefused
    · obtain ⟨hstatics, hcount, hbitmap, hframes, hlinks, hkept⟩ := hwidened
      refine ⟨hstatics, hcount, hbitmap, hframes, ?_, ?_⟩
      · rintro table index ⟨-, huser, hfollows⟩
        obtain ⟨-, hpresent, hwritable⟩ := h.follows_spec hroot hfollows
        rw [hlinks table index hfollows, or_intermediateFlags hpresent hwritable, huser,
          if_pos rfl]
      · intro table index hnot
        by_cases hfollows : Follows link (tables s) root (Page.slots page) table index
        · obtain ⟨-, hpresent, hwritable⟩ := h.follows_spec hroot hfollows
          have huser : ¬ has page.flags PageFlags.user = true := fun huser ↦
            hnot ⟨hpage, huser, hfollows⟩
          rw [hlinks table index hfollows, or_intermediateFlags hpresent hwritable,
            if_neg huser]
        · exact hkept table index hfollows
  · rw [mapOne_of_refused (Or.inr hpage)]
    exact ⟨rfl, rfl, fun _ _ ↦ rfl, rfl, fun _ _ hwidens ↦ absurd hwidens.1 hpage,
      fun _ _ _ ↦ rfl⟩

/-- A refused call leaves no trace exactly when every link it would widen has user access. -/
theorem RefusalKept.unchanged_iff (hkept : RefusalKept root page s later)
    (h : KernelInv stock held roots s) (hroot : root ∈ roots) :
    Unchanged s later ↔ ∀ table index, Widens s root page table index →
      has (tables s table index) PageFlags.user = true := by
  have hbit : ∀ entry : Word, entry ||| PageFlags.user = entry ↔
      has entry PageFlags.user = true := by
    intro entry
    rw [has_eq_true_iff]
    exact Bits.or_bit_eq_self_iff entry (by decide)
  constructor
  · intro hunchanged table index hwidens
    obtain ⟨hmem, -, -⟩ := h.follows_spec hroot hwidens.2.2
    rw [← hbit, ← hkept.widened table index hwidens, hunchanged.tables_eq table hmem]
  · intro huser
    refine ⟨hkept.statics, hkept.freeFrameCount, hkept.bitmap, hkept.tableFrames_eq, ?_⟩
    intro frame _
    funext index
    by_cases hwidens : Widens s root page frame index
    · rw [hkept.widened frame index hwidens]
      exact (hbit _).mpr (huser frame index hwidens)
    · exact hkept.kept frame index hwidens

end Refused

/-- **What a refused call leaves behind.** In every state reached without exhaustion, a mapping
call that is refused while frames remain takes no frame and changes no entry but the links on its
way, which gain user access if the arguments are good and ask for it. -/
theorem refused_call_effect {regions : List MemoryRegion} {hhdmOffset : Word}
    {memory : Memory} {s : State} (hmap : LimineMap regions)
    (hnonnull : NonNullMap regions hhdmOffset) (hinit : init regions hhdmOffset memory = .ok s)
    {operations : List Operation}
    (hlegal : Run.Legal World.step World.Permits (World.start s) operations)
    (hcalm : Event.exhausted ∉ (Run.final World.step (World.start s) operations).state.trace) :
    let world := Run.final World.step (World.start s) operations
    ∀ space ∈ world.spaces, ∀ virt phys flags,
      ((mapPage world.state space.pml4 virt phys flags).1 = false →
        State.Calm world.state (mapPage world.state space.pml4 virt phys flags).2 →
        let later := (mapPage world.state space.pml4 virt phys flags).2
        RefusalKept (space.pml4Physical.toNat / 4096) ⟨virt, phys, flags, false⟩ world.state later ∧
          (¬ Page.Admissible ⟨virt, phys, flags, false⟩ ∨ has flags PageFlags.user = false →
            Unchanged world.state later)) ∧
      ((mapPageLarge world.state space.pml4 virt phys flags).1 = false →
        State.Calm world.state (mapPageLarge world.state space.pml4 virt phys flags).2 →
        let later := (mapPageLarge world.state space.pml4 virt phys flags).2
        RefusalKept (space.pml4Physical.toNat / 4096) ⟨virt, phys, flags, true⟩ world.state later ∧
          (¬ Page.Admissible ⟨virt, phys, flags, true⟩ ∨ has flags PageFlags.user = false →
            Unchanged world.state later)) := by
  intro world space hspace virt phys flags
  obtain ⟨root, hready, rfl⟩ := ready_of_run hmap hnonnull hinit hlegal hcalm hspace
  have hbound := hready.inv.root_lt hready.root_mem
  have hroot : (BitVec.ofNat 64 (4096 * root)).toNat / 4096 = root := by
    rw [BitVec.toNat_ofNat]
    omega
  have hone : ∀ large, let page : Page := ⟨virt, phys, flags, large⟩
      let result := mapOne world.state (tableAddress world.state.toStatics root) page
      result.1 = false → State.Calm world.state result.2 →
        RefusalKept root page world.state result.2 ∧
          (¬ Page.Admissible page ∨ has flags PageFlags.user = false →
            Unchanged world.state result.2) := by
    intro large page result hrefused hcalmCall
    have hkept := hready.mapOne_refused hcalmCall hrefused
    refine ⟨hkept, fun hnothing ↦ ?_⟩
    rw [hkept.unchanged_iff hready.inv hready.root_mem]
    rintro table index ⟨hpage, huser, -⟩
    rcases hnothing with hbad | hsupervisor
    · exact absurd hpage hbad
    · exact absurd (huser.symm.trans hsupervisor) (by decide)
  rw [hroot, mapPage_eq, mapPageLarge_eq]
  exact ⟨hone false, hone true⟩

/-- After `firstCalls`, the page at `0x400000` is asked for again, now for user access: the call is
refused, and the PML4 entry has gained `User`. -/
theorem exists_bootMap_refused :
    ∃ s, init bootMap 0xffff800000000000 (fun _ ↦ 0) = .ok s ∧
      Run.Legal World.step World.Permits (World.start s) firstCalls ∧
      let world := Run.final World.step (World.start s) firstCalls
      let result := mapPage world.state 0xffff800000002000 0x400000 0x8000 PageFlags.user
      Event.exhausted ∉ result.2.trace ∧ ⟨0xffff800000002000, 0x2000⟩ ∈ world.spaces ∧
        result.1 = false ∧ Event.tableTaken 0x2000 ∈ world.state.trace ∧
        tables result.2 2 (slot 0) ≠ tables world.state 2 (slot 0) := by
  exact Run.exists_of_succeedsWith (by decide +kernel)

theorem mapPage_grows (s : State) (pml4 virt phys : Word) (flags : PageFlags) :
    State.Grows s (mapPage s pml4 virt phys flags).2 := by
  rw [mapPage_eq]
  exact (mapOne_proceeds _ _ _).grows

theorem refused_call_effect_bootMap :
    ∃ s, init bootMap 0xffff800000000000 (fun _ ↦ 0) = .ok s ∧
      let world := Run.final World.step (World.start s) firstCalls
      RefusalKept 2 ⟨0x400000, 0x8000, PageFlags.user, false⟩ world.state
        (mapPage world.state 0xffff800000002000 0x400000 0x8000 PageFlags.user).2 := by
  obtain ⟨s, hinit, hlegal, hcalm, hspace, hrefused, -, -⟩ := exists_bootMap_refused
  have hbefore := (mapPage_grows _ _ _ _ _).calm_before hcalm
  exact ⟨s, hinit, ((refused_call_effect (by decide) bootMap_nonNull hinit hlegal hbefore _ hspace
    _ _ _).1 hrefused (State.calm_of_not_mem hcalm)).1⟩

/-- The refused call for user access has left a trace. -/
theorem refused_call_leaves_trace :
    ¬ ∀ (regions : List MemoryRegion) (hhdmOffset : Word) (memory : Memory) (s : State)
      (operations : List Operation) (space : AddressSpace) (virt phys : Word) (flags : PageFlags),
      LimineMap regions → NonNullMap regions hhdmOffset → init regions hhdmOffset memory = .ok s →
      Run.Legal World.step World.Permits (World.start s) operations →
      let world := Run.final World.step (World.start s) operations
      Event.exhausted ∉ world.state.trace → space ∈ world.spaces → PageFlags.Named flags →
      (mapPage world.state space.pml4 virt phys flags).1 = false →
      State.Calm world.state (mapPage world.state space.pml4 virt phys flags).2 →
      Unchanged world.state (mapPage world.state space.pml4 virt phys flags).2 := by
  intro hall
  obtain ⟨s, hinit, hlegal, hcalm, hspace, hrefused, htaken, hentry⟩ := exists_bootMap_refused
  have hbefore := (mapPage_grows _ _ _ _ _).calm_before hcalm
  have hunchanged := hall _ _ _ _ _ _ _ _ _ (by decide) bootMap_nonNull hinit hlegal hbefore
    hspace (by decide) hrefused (State.calm_of_not_mem hcalm)
  exact hentry (congrFun (hunchanged.tables_eq 2 ⟨0x2000, htaken, rfl⟩) (slot 0))

end WaterBuffalo.Vmm
