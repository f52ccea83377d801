import WaterBuffalo.Vmm.Installed
import WaterBuffalo.Vmm.Translation

/-!
# Address spaces along histories

Three statements about every state reached from `init` by a history that never exhausts the
allocator: `translate` refines the partial map of the installed pages, the tables form a forest
that owns exactly the frames taken for it, and the rights of an installed page are the ones it was
installed with, forever.
-/

namespace WaterBuffalo.Vmm

open Pmm TableForest

theorem mem_framePages {s : State} {root : ℕ} (hroot : root < 2 ^ 40) {page : Page} :
    page ∈ framePages s root ↔ page ∈ installed s (tableAddress s.toStatics root) :=
  and_iff_right hroot

/-! ## Translation -/

/-- Under the invariant, translation is lookup. -/
theorem KernelInv.translate_eq_lookup {stock held roots : Set ℕ} {s : State} {root : ℕ}
    {space : AddressSpace} (h : KernelInv stock held roots s) (hroot : root ∈ roots)
    (hspace : space.pml4 = tableAddress s.toStatics root) (hnonnull : space.pml4 ≠ 0)
    (address : Word) :
    translate s space address = lookup (installed s space.pml4) address := by
  rw [lookup]
  split
  · rename_i page hfind
    have hpage := List.mem_of_find?_eq_some hfind
    have hcovers := List.find?_some hfind
    rw [hspace, ← mem_framePages (h.root_lt hroot)] at hpage
    exact h.translate_covered hroot hspace hnonnull hpage (of_decide_eq_true hcovers)
  · rename_i hfind
    refine (h.translate_uncovered hroot hspace fun page hpage hcovers ↦ ?_).1
    rw [List.find?_eq_none] at hfind
    rw [mem_framePages (h.root_lt hroot), ← hspace] at hpage
    exact hfind page hpage (decide_eq_true hcovers)

/-- The invariant at the end of a history without exhaustion. -/
theorem run_worldInv {regions : List MemoryRegion} {hhdmOffset : Word} {memory : Memory}
    {s : State} (hmap : LimineMap regions) (hinit : init regions hhdmOffset memory = .ok s)
    {operations : List Operation}
    (hlegal : Run.Legal World.step World.Permits (World.start s) operations)
    (hcalm : Event.exhausted ∉ (Run.final World.step (World.start s) operations).state.trace) :
    WorldInv {frame | Free s frame} s.toStatics
        (Run.final World.step (World.start s) operations) ∧
      Run.Legal World.step World.Admits (World.start s) operations := by
  have hgrows := ((World.start s).run_extends operations).grows
  have hadmits : Run.Legal World.step World.Admits (World.start s) operations := by
    refine World.legal_admits hlegal fun hexhausted ↦ hcalm ?_
    rw [hgrows.trace_eq]
    exact List.mem_append_left _ hexhausted
  exact ⟨(init_worldInv hmap hinit).run hadmits, hadmits⟩

/-- No table but a root is empty at the end of a history without exhaustion. -/
theorem run_populated {regions : List MemoryRegion} {hhdmOffset : Word} {memory : Memory}
    {s : State} (hmap : LimineMap regions) (hnonnull : NonNullMap regions hhdmOffset)
    (hinit : init regions hhdmOffset memory = .ok s) {operations : List Operation}
    (hlegal : Run.Legal World.step World.Permits (World.start s) operations)
    (hcalm : Event.exhausted ∉ (Run.final World.step (World.start s) operations).state.trace) :
    Populated (tables (Run.final World.step (World.start s) operations).state)
      (Run.final World.step (World.start s) operations).roots := by
  have hstart : Populated (tables (World.start s).state) (World.start s).roots := by
    simp [Populated, World.roots, World.start]
  exact (init_worldInv hmap hinit).populated_run (hnonnull.nonNull hmap hinit) hstart
    (run_worldInv hmap hinit hlegal hcalm).2

/-- A history cut short has exhausted the allocator at most as often. -/
theorem calm_of_append {world : World} {earlier later : List Operation}
    (hcalm : Event.exhausted ∉ (Run.final World.step world (earlier ++ later)).state.trace) :
    Event.exhausted ∉ (Run.final World.step world earlier).state.trace := by
  rw [Run.final_append] at hcalm
  exact ((Run.final World.step world earlier).run_extends later).grows.calm_before hcalm

/-- **Translation refinement.** After every history that never exhausts the allocator, `translate`
is the partial map of the pages installed in the space, and at most one page covers an address. -/
theorem translate_refines_installed {regions : List MemoryRegion} {hhdmOffset : Word}
    {memory : Memory} {s : State} (hmap : LimineMap regions)
    (hnonnull : NonNullMap regions hhdmOffset) (hinit : init regions hhdmOffset memory = .ok s)
    {operations : List Operation}
    (hlegal : Run.Legal World.step World.Permits (World.start s) operations)
    (hcalm : Event.exhausted ∉ (Run.final World.step (World.start s) operations).state.trace) :
    let world := Run.final World.step (World.start s) operations
    ∀ space ∈ world.spaces, ∀ address,
      translate world.state space address = lookup (installed world.state space.pml4) address ∧
        ∀ page ∈ installed world.state space.pml4, ∀ other ∈ installed world.state space.pml4,
          Page.Covers page address → Page.Covers other address → page = other := by
  intro world space hspace address
  obtain ⟨hinv, -⟩ := run_worldInv hmap hinit hlegal hcalm
  obtain ⟨root, hroot, hpml4⟩ := hinv.exists_root hspace
  have hstock := hinv.kernel.table_mem_stock (hinv.kernel.forest.roots_subset_taken hroot)
  have hpointer : space.pml4 ≠ 0 := by
    rw [hpml4, hinv.statics_eq]
    exact hnonnull.nonNull hmap hinit root hstock
  refine ⟨hinv.kernel.translate_eq_lookup hroot hpml4 hpointer address, ?_⟩
  intro page hpage other hother hcovers hcovers'
  rw [hpml4, ← mem_framePages (hinv.kernel.root_lt hroot)] at hpage hother
  exact hinv.kernel.covers_unique hpage hcovers hother hcovers'

theorem translate_refines_installed_bootMap :
    ∃ s, init bootMap 0xffff800000000000 (fun _ ↦ 0) = .ok s ∧
      let world := Run.final World.step (World.start s) (firstCalls ++ secondCalls)
      translate world.state firstSpace 0x400123 = 0x8123 ∧
        translate world.state firstSpace 0x401456 = 0x9456 ∧
        translate world.state firstSpace 0x402000 = 0 := by
  obtain ⟨s, hinit, hlegal, hcalm, -, hspace, -, hinstalled⟩ := exists_bootMap_run
  have hlookup := fun address ↦ (translate_refines_installed (by decide) bootMap_nonNull hinit
    hlegal hcalm firstSpace hspace address).1
  simp only [hinstalled] at hlookup
  refine ⟨s, hinit, ?_, ?_, ?_⟩
  · exact (hlookup 0x400123).trans (by decide)
  · exact (hlookup 0x401456).trans (by decide)
  · exact (hlookup 0x402000).trans (by decide)

/-! ## The forest -/

/-- The entry `index` of a table above the last level links to the frame. -/
def LinkedFrom (world : World) (frame : ℕ) (origin : ℕ × Fin kPageTableEntries) : Prop :=
  Reached link (tables world.state) world.roots 2 origin.1 ∧
    link (tables world.state origin.1 origin.2) = some frame

/-- The table in `frame` is in the forest of the roots: a PML4, PDPT, PD or PT. -/
def InForest (world : World) (frame : ℕ) : Prop :=
  Reached link (tables world.state) world.roots 3 frame

/-- The page-table forest invariant. -/
structure ForestInvariant (world : World) : Prop where
  /-- Every table is a root that nothing links to, or linked from exactly one entry. -/
  linkedOnce : ∀ frame, InForest world frame →
    (frame ∈ world.roots ∧ ∀ origin, ¬ LinkedFrom world frame origin) ∨
      (frame ∉ world.roots ∧ ∃! origin, LinkedFrom world frame origin)
  /-- Tables at different places are in different frames. -/
  distinct : Unshared link (tables world.state) world.roots 3
  /-- A link from above the last level leads to a table of the forest. -/
  closed : ∀ frame origin, LinkedFrom world frame origin → InForest world frame
  markedUsed : ∀ frame, InForest world frame → used world.state frame = true
  clearOfBitmap : ∀ frame, InForest world frame →
    4096 * (frame + 1) ≤ world.state.bitmapPhys.toNat ∨
      world.state.bitmapPhys.toNat + world.state.bitmapBytes.toNat ≤ 4096 * frame
  notHeld : ∀ frame, InForest world frame → frame ∉ world.held
  zeroOrPresent : ∀ frame, InForest world frame → ∀ index,
    tables world.state frame index = 0 ∨
      has (tables world.state frame index) PageFlags.present = true
  /-- An entry with `Huge` is in a table two links below its root. -/
  hugeInPd : ∀ root ∈ world.roots, ∀ path frame, path.length ≤ 3 →
    descend link (tables world.state) root path = some frame → ∀ index,
    has (tables world.state frame index) PageFlags.huge = true → path.length = 2
  populated : ∀ frame, InForest world frame → frame ∉ world.roots →
    ∃ index, has (tables world.state frame index) PageFlags.present = true
  /-- Nothing the paging functions took is leaked, and nothing else is used. -/
  taken : ∀ frame, frame ∈ tableFrames world.state ↔ InForest world frame

theorem forest_linkedOnce {stock held : Set ℕ} {world : World}
    (h : KernelInv stock held world.roots world.state) {frame : ℕ} (hframe : InForest world frame) :
    (frame ∈ world.roots ∧ ∀ origin, ¬ LinkedFrom world frame origin) ∨
      (frame ∉ world.roots ∧ ∃! origin, LinkedFrom world frame origin) := by
  have hunshared := h.forest.unshared
  -- The way to a frame through a link is longer than the way to a root.
  have hway : ∀ origin, LinkedFrom world frame origin → ∃ root ∈ world.roots, ∃ path : Path,
      path.length ≤ 2 ∧ descend link (tables world.state) root path = some origin.1 ∧
        descend link (tables world.state) root (path ++ [origin.2]) = some frame := by
    rintro ⟨table, index⟩ ⟨⟨root, hroot, path, hpath, hdescend⟩, hlink⟩
    exact ⟨root, hroot, path, hpath, hdescend,
      descend_concat_eq_some.mpr ⟨table, hdescend, hlink⟩⟩
  obtain ⟨root, hroot, path, hpath, hdescend⟩ := hframe
  rcases List.eq_nil_or_concat' path with rfl | ⟨before, index, rfl⟩
  · refine Or.inl ⟨?_, fun origin horigin ↦ ?_⟩
    · rwa [← Option.some.inj hdescend]
    · obtain ⟨other, hother, route, hroute, -, hconcat⟩ := hway origin horigin
      have hlength : (route ++ [origin.2]).length ≤ 3 := by
        rw [List.length_append, List.length_singleton]
        omega
      obtain ⟨-, hnil⟩ := hunshared hroot hother hpath hlength hdescend hconcat
      simp at hnil
  · obtain ⟨table, htable, hlink⟩ := descend_concat_eq_some.mp hdescend
    rw [List.length_append, List.length_singleton] at hpath
    have hlength : (before ++ [index]).length ≤ 3 := by
      rw [List.length_append, List.length_singleton]
      exact hpath
    refine Or.inr ⟨fun hmem ↦ ?_, (table, index), ⟨⟨root, hroot, before, by omega, htable⟩, hlink⟩,
      fun origin horigin ↦ ?_⟩
    · obtain ⟨-, hnil⟩ := hunshared hmem hroot (Nat.zero_le _) hlength (descend_nil frame) hdescend
      simp at hnil
    · obtain ⟨other, hother, route, hroute, htable', hconcat⟩ := hway origin horigin
      have hlength' : (route ++ [origin.2]).length ≤ 3 := by
        rw [List.length_append, List.length_singleton]
        omega
      obtain ⟨rfl, hpaths⟩ := hunshared hother hroot hlength' hlength hconcat hdescend
      obtain ⟨rfl, hindices⟩ := List.append_inj' hpaths rfl
      exact Prod.ext (Option.some.inj (htable'.symm.trans htable)) (by simpa using hindices)

/-- **The page-table forest.** -/
theorem page_table_forest {regions : List MemoryRegion} {hhdmOffset : Word} {memory : Memory}
    {s : State} (hmap : LimineMap regions) (hnonnull : NonNullMap regions hhdmOffset)
    (hinit : init regions hhdmOffset memory = .ok s) {operations : List Operation}
    (hlegal : Run.Legal World.step World.Permits (World.start s) operations)
    (hcalm : Event.exhausted ∉ (Run.final World.step (World.start s) operations).state.trace) :
    ForestInvariant (Run.final World.step (World.start s) operations) := by
  obtain ⟨hinv, -⟩ := run_worldInv hmap hinit hlegal hcalm
  have hpopulated := run_populated hmap hnonnull hinit hlegal hcalm
  set world := Run.final World.step (World.start s) operations with hworld
  have hkernel := hinv.kernel
  have htaken : ∀ frame, frame ∈ tableFrames world.state ↔ InForest world frame :=
    hkernel.forest.taken_iff
  have hstock : ∀ frame, InForest world frame → Free s frame := fun frame hframe ↦
    hkernel.table_mem_stock ((htaken frame).mpr hframe)
  have hentries : ∀ frame, InForest world frame → ∀ index, ∃ level,
      EntryOk level (tables world.state frame index) := by
    rintro frame ⟨root, hroot, path, hpath, hdescend⟩ index
    exact ⟨path.length, hkernel.forest.entries root hroot path index _ hpath
      (entryAt_eq_some.mpr ⟨frame, hdescend, rfl⟩)⟩
  refine ⟨fun frame ↦ forest_linkedOnce hkernel, hkernel.forest.unshared, ?_, ?_, ?_, ?_, ?_, ?_,
    ?_, htaken⟩
  · rintro frame ⟨table, index⟩ ⟨⟨root, hroot, path, hpath, hdescend⟩, hlink⟩
    refine ⟨root, hroot, path ++ [index], ?_, descend_concat_eq_some.mpr ⟨table, hdescend, hlink⟩⟩
    rw [List.length_append, List.length_singleton]
    omega
  · intro frame hframe
    have hnotFree : ¬ Free world.state frame := fun hfree ↦
      hkernel.free_not_table frame hfree ((htaken frame).mpr hframe)
    have hvalid := (hkernel.stock_ok frame (hstock frame hframe)).2.1
    rw [← Bool.not_eq_false]
    exact fun hbit ↦ hnotFree ⟨hvalid, hbit⟩
  · intro frame hframe
    rw [hinv.statics_eq]
    exact init_free_apart hmap hinit (hstock frame hframe)
  · intro frame hframe hheld
    exact hkernel.held_not_table frame hheld ((htaken frame).mpr hframe)
  · intro frame hframe index
    obtain ⟨level, hok⟩ := hentries frame hframe index
    exact or_iff_not_imp_left.mpr hok.present
  · intro root hroot path frame hpath hdescend index hhuge
    exact (hkernel.forest.entries root hroot path index _ hpath
      (entryAt_eq_some.mpr ⟨frame, hdescend, rfl⟩)).huge hhuge
  · intro frame hframe hnotRoot
    obtain ⟨root, hroot, path, hpath, hdescend⟩ := hframe
    have hne : path ≠ [] := by
      rintro rfl
      rw [descend_nil, Option.some.injEq] at hdescend
      exact hnotRoot (hdescend ▸ hroot)
    obtain ⟨index, hentry⟩ := hpopulated root hroot path frame hne hpath hdescend
    exact ⟨index, (hkernel.forest.entries root hroot path index _ hpath
      (entryAt_eq_some.mpr ⟨frame, hdescend, rfl⟩)).present hentry⟩

theorem page_table_forest_bootMap :
    ∃ s, init bootMap 0xffff800000000000 (fun _ ↦ 0) = .ok s ∧
      ForestInvariant (Run.final World.step (World.start s) (firstCalls ++ secondCalls)) := by
  obtain ⟨s, hinit, hlegal, hcalm, -⟩ := exists_bootMap_run
  exact ⟨s, hinit, page_table_forest (by decide) bootMap_nonNull hinit hlegal hcalm⟩

/-! ## Rights -/

theorem WorldInv.rights_installed {stock : Set ℕ} {statics : Statics} {world : World}
    (h : WorldInv stock statics world) {space : AddressSpace} (hspace : space ∈ world.spaces)
    {page : Page} (hpage : page ∈ installed world.state space.pml4) {address : Word}
    (hcovers : Page.Covers page address) :
    effectiveRights world.state space.pml4 address = Rights.ofFlags page.flags := by
  obtain ⟨root, hroot, hpml4⟩ := h.exists_root hspace
  rw [hpml4] at hpage ⊢
  rw [← mem_framePages (h.kernel.root_lt hroot)] at hpage
  exact (h.kernel.rights_covered hroot hpage hcovers).1

/-- Spaces and installed pages are never forgotten. -/
theorem World.run_spaces (world : World) (operations : List Operation) {space : AddressSpace}
    (h : space ∈ world.spaces) : space ∈ (Run.final World.step world operations).spaces := by
  refine Run.invariant (motive := fun reached : World ↦ space ∈ reached.spaces) ?_ operations h
  intro reached operation hspace
  cases operation with
  | paging call => exact List.mem_append_right _ hspace
  | client call => exact hspace

theorem installed_of_grows {s later : State} (h : State.Grows s later) {pml4 : Word} {page : Page}
    (hpage : page ∈ installed s pml4) : page ∈ installed later pml4 := by
  rw [mem_installed] at hpage ⊢
  rw [h.trace_eq]
  exact List.mem_append_right _ hpage

/-- **The leaf alone decides the rights, forever.** A page installed by the first part of a history
without exhaustion has the rights it was installed with, both then and after the rest. -/
theorem rights_of_installed {regions : List MemoryRegion} {hhdmOffset : Word} {memory : Memory}
    {s : State} (hmap : LimineMap regions) (hinit : init regions hhdmOffset memory = .ok s)
    {earlier later : List Operation}
    (hlegal : Run.Legal World.step World.Permits (World.start s) (earlier ++ later))
    (hcalm : Event.exhausted ∉
      (Run.final World.step (World.start s) (earlier ++ later)).state.trace) :
    let before := Run.final World.step (World.start s) earlier
    let after := Run.final World.step (World.start s) (earlier ++ later)
    ∀ space ∈ before.spaces, ∀ page ∈ installed before.state space.pml4, ∀ address,
      Page.Covers page address →
        effectiveRights before.state space.pml4 address = Rights.ofFlags page.flags ∧
          effectiveRights after.state space.pml4 address = Rights.ofFlags page.flags := by
  intro before after space hspace page hpage address hcovers
  have hafter : after = Run.final World.step before later := Run.final_append _ _ _
  have hgrows : State.Grows before.state after.state := by
    rw [hafter]
    exact (before.run_extends later).grows
  obtain ⟨hinvBefore, -⟩ := run_worldInv hmap hinit (Run.legal_append.mp hlegal).1
    (calm_of_append hcalm)
  obtain ⟨hinvAfter, -⟩ := run_worldInv hmap hinit hlegal hcalm
  refine ⟨hinvBefore.rights_installed hspace hpage hcovers,
    hinvAfter.rights_installed ?_ (installed_of_grows hgrows hpage) hcovers⟩
  change space ∈ after.spaces
  rw [hafter]
  exact before.run_spaces later hspace

theorem rights_of_installed_bootMap :
    ∃ s, init bootMap 0xffff800000000000 (fun _ ↦ 0) = .ok s ∧
      let before := Run.final World.step (World.start s) firstCalls
      let after := Run.final World.step (World.start s) (firstCalls ++ secondCalls)
      effectiveRights before.state firstSpace.pml4 0x400123 = ⟨false, false, true⟩ ∧
        effectiveRights after.state firstSpace.pml4 0x400123 = ⟨false, false, true⟩ := by
  obtain ⟨s, hinit, hlegal, hcalm, hspace, -, hinstalled, -⟩ := exists_bootMap_run
  have hpage : firstPage ∈ installed (Run.final World.step (World.start s) firstCalls).state
      firstSpace.pml4 := by
    rw [hinstalled]
    exact List.mem_singleton_self _
  exact ⟨s, hinit, rights_of_installed (by decide) hinit hlegal hcalm firstSpace hspace firstPage
    hpage 0x400123 (by decide)⟩

end WaterBuffalo.Vmm
