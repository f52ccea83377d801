import WaterBuffalo.Pmm.Counter
import WaterBuffalo.Vmm.RangeCalls

/-!
# What a mapping costs

A mapping call takes one frame for every table that its pages need and the space does not have,
and no other frame.  The number can be read off the addresses before the call, and since a call
that finds no frame free puts a table into frame 0, it is what decides whether the call is safe.
-/

namespace WaterBuffalo.Vmm

open Pmm TableForest

/-! ## Needed tables -/

/-- Where the tables of the pages are, below the root. -/
def tablePaths (pages : List Page) : Finset Path :=
  (pages.flatMap fun page ↦ (Page.slots page).inits).toFinset.erase []

theorem mem_tablePaths {pages : List Page} {path : Path} :
    path ∈ tablePaths pages ↔ path ≠ [] ∧ ∃ page ∈ pages, path <+: Page.slots page := by
  rw [tablePaths, Finset.mem_erase, List.mem_toFinset, List.mem_flatMap]
  simp only [List.mem_inits]

theorem length_le_of_mem_tablePaths {pages : List Page} {path : Path}
    (h : path ∈ tablePaths pages) : path.length ≤ 3 := by
  obtain ⟨-, page, -, hprefix⟩ := mem_tablePaths.mp h
  exact hprefix.length_le.trans (Page.length_slots_le page)

/-- The needed tables that the space does not have. -/
def missing (needed : Finset Path) (root : ℕ) (s : State) : Finset Path :=
  needed.filter fun path ↦ descend link (tables s) root path = none

theorem mem_missing {needed : Finset Path} {root : ℕ} {s : State} {path : Path} :
    path ∈ missing needed root s ↔
      path ∈ needed ∧ descend link (tables s) root path = none :=
  Finset.mem_filter

/-- There is a free frame for every missing table. -/
def Funded (needed : Finset Path) (root : ℕ) (s : State) : Prop :=
  (missing needed root s).card ≤ (freeFrames s).card

/-- Frames were taken for missing tables only, and there was one for each. -/
structure Paid (needed : Finset Path) (root : ℕ) (s later : State) : Prop where
  calm : State.Calm s later
  balance : (missing needed root later).card + (freeFrames s).card =
    (missing needed root s).card + (freeFrames later).card

namespace Paid

variable {needed : Finset Path} {root : ℕ} {s middle later : State}

theorem refl (needed : Finset Path) (root : ℕ) (s : State) : Paid needed root s s := by
  refine ⟨?_, rfl⟩
  rw [State.Calm, State.since_eq (List.nil_append s.trace).symm]
  exact List.not_mem_nil

theorem funded (h : Paid needed root s later) (hfunded : Funded needed root s) :
    Funded needed root later := by
  have hbalance := h.balance
  unfold Funded at hfunded ⊢
  omega

/-- One piece of code after another: what the second may assume follows from what the whole
may. -/
theorem trans (hgrows : State.Grows s middle) (hgrows' : State.Grows middle later)
    (hassumed : Funded needed root s ∨ State.Calm s later)
    (hfirst : Funded needed root s ∨ State.Calm s middle → Paid needed root s middle)
    (hsecond : State.Calm s middle → Funded needed root middle ∨ State.Calm middle later →
      Paid needed root middle later) : Paid needed root s later := by
  have hcalm := State.calm_trans hgrows hgrows'
  have hpaid := hfirst (hassumed.imp_right fun h ↦ (hcalm.mp h).1)
  have hpaid' := hsecond hpaid.calm (hassumed.imp hpaid.funded fun h ↦ (hcalm.mp h).2)
  have hbalance := hpaid.balance
  have hbalance' := hpaid'.balance
  exact ⟨hcalm.mpr ⟨hpaid.calm, hpaid'.calm⟩, by omega⟩

/-- A step that adds no table and takes no frame. -/
theorem of_unchanged (hcalm : State.Calm s later)
    (hdescend : ∀ path ∈ needed,
      descend link (tables later) root path = descend link (tables s) root path)
    (hfree : ∀ frame, Free later frame ↔ Free s frame) : Paid needed root s later := by
  have hmissing : missing needed root later = missing needed root s := by
    ext path
    rw [mem_missing, mem_missing]
    exact and_congr_right fun hpath ↦ by rw [hdescend path hpath]
  have hframes : freeFrames later = freeFrames s := by
    ext frame
    rw [mem_freeFrames, mem_freeFrames, hfree]
  exact ⟨hcalm, by rw [hmissing, hframes]⟩

/-- A step that takes a frame for a missing table. -/
theorem of_taken {taken : Path} {fresh : ℕ} (hcalm : State.Calm s later)
    (hmissing : taken ∈ missing needed root s)
    (hdescend : ∀ path ∈ needed, descend link (tables later) root path = none ↔
      descend link (tables s) root path = none ∧ path ≠ taken)
    (hfresh : Free s fresh) (hfree : ∀ frame, Free later frame ↔ Free s frame ∧ frame ≠ fresh) :
    Paid needed root s later := by
  have hpaths : missing needed root later = (missing needed root s).erase taken := by
    ext path
    rw [Finset.mem_erase, mem_missing, mem_missing]
    constructor
    · rintro ⟨hpath, hnone⟩
      obtain ⟨hnone, hne⟩ := (hdescend path hpath).mp hnone
      exact ⟨hne, hpath, hnone⟩
    · rintro ⟨hne, hpath, hnone⟩
      exact ⟨hpath, (hdescend path hpath).mpr ⟨hnone, hne⟩⟩
  have hframes : freeFrames later = (freeFrames s).erase fresh := by
    ext frame
    rw [Finset.mem_erase, mem_freeFrames, mem_freeFrames, hfree, and_comm]
  have hpathCard := Finset.card_erase_add_one hmissing
  have hframeCard := Finset.card_erase_add_one (mem_freeFrames.mpr hfresh)
  refine ⟨hcalm, ?_⟩
  rw [hpaths, hframes]
  omega

end Paid

/-! ## Walking -/

theorem calm_of_quiet {s later : State} {new : List Event} (hquiet : Quiet new)
    (htrace : later.trace = new ++ s.trace) : State.Calm s later := by
  rw [State.Calm, State.since_eq htrace]
  exact hquiet.1

theorem calm_store (s : State) (address value : Word) : State.Calm s (s.store address value) :=
  calm_of_quiet (quiet_stored address value) rfl

/-- With a frame free, a table is allocated without exhaustion. -/
theorem calm_allocateTable {s : State} (hfree : scanBitmap s ≠ none) :
    State.Calm s (allocateTable s).2 := by
  obtain ⟨new, htrace, -, hexhausted⟩ := allocFrame_trace s
  have halloc : State.Calm s (allocFrame s).2 := by
    rw [State.Calm, State.since_eq htrace]
    exact fun hmem ↦ hfree (hexhausted hmem)
  unfold allocateTable
  simp only
  split_ifs
  · exact halloc
  · obtain ⟨-, cleared, hcleared, hquiet, -⟩ := clearTable_trace (allocFrame s).2
      (physicalToVirtual (allocFrame s).2 (allocFrame s).1)
    have htrace' := congrArg (Event.tableTaken (allocFrame s).1 :: ·) hcleared
    have hrest : Quiet (.tableTaken (allocFrame s).1 :: cleared) :=
      hquiet.cons (by simp) (by simp)
    rw [← List.cons_append] at htrace'
    exact (State.calm_trans ⟨new, htrace⟩ ⟨_, htrace'⟩).mpr ⟨halloc, calm_of_quiet hrest htrace'⟩

theorem calm_ensureTable_of_free {s : State} (hfree : scanBitmap s ≠ none) (entry : Word)
    (middleFlags : PageFlags) : State.Calm s (ensureTable s entry middleFlags).2 := by
  have halloc := calm_allocateTable hfree
  have hgrows := (allocateTable_proceeds s).grows
  unfold ensureTable
  split_ifs
  · exact (Paid.refl ∅ 0 s).calm
  · generalize allocateTable s = result at halloc hgrows
    obtain ⟨_ | table, middle⟩ := result
    · exact halloc
    · exact (State.calm_trans hgrows (Proceeds.store _ _ _).grows).mpr
        ⟨halloc, calm_store _ _ _⟩
  · exact calm_store _ _ _

section Walk

variable {stock held roots : Set ℕ} {s : State} {root node : ℕ} {path : Path} {index : BitVec 16}
  {needed : Finset Path}

/-- Assigning an entry of a table frees no frame and takes none. -/
theorem free_store_entry (h : Accounts stock held s) (hnode : node ∈ stock)
    (hindex : index.toNat < 512) (value : Word) (frame : ℕ) :
    Free (s.store (entryAddress (tableAddress s.toStatics node) index) value) frame ↔
      Free s frame := by
  rw [entryAddress_tableAddress _ _ hindex]
  exact (sound_of_used h.sound (State.store_toStatics _ _ _) fun position hposition ↦
    used_store_entry (h.stock_ok node hnode).2.2 _ _ hposition).2 frame

/-- Linking a fresh table adds one descent. -/
theorem descend_link_eq_none_iff (h : KernelInv stock held roots s) (hroot : root ∈ roots)
    (hpath : path.length < 3) (hdescend : descend link (tables s) root path = some node)
    (hindex : index.toNat < 512) (flags : PageFlags) (hempty : tables s node (slot index) = 0)
    {middle : State} {fresh : ℕ} (hfresh : fresh ∈ stock)
    (htaken : TableTaken stock s middle fresh) {route : Path} (hroute : route.length ≤ 3) :
    descend link (tables (middle.store (entryAddress (tableAddress s.toStatics node) index)
        (makePageEntry (BitVec.ofNat 64 (4096 * fresh)) (intermediateFlags flags)))) root route =
        none ↔
      descend link (tables s) root route = none ∧ route ≠ path ++ [slot index] := by
  have hnode := h.descend_mem hroot (Nat.le_of_lt hpath) hdescend
  have hframes : ∀ frame, Reached link (tables s) roots 3 frame →
      tables middle frame = tables s frame :=
    fun frame hframe ↦ htaken.tables_eq h ((h.forest.taken_iff frame).mpr hframe)
  have hmiddle : PagingForest (tables middle) roots (tableFrames s) (framePages s) :=
    h.forest.congr fun frame hframe ↦ htaken.tables_eq h hframe
  have hdescend' : descend link (tables middle) root path = some node := by
    rw [descend_congr_of_eqOn hroot hframes (Nat.le_of_lt hpath), hdescend]
  have hempty' : tables middle node (slot index) = 0 := by
    rw [htaken.tables_eq h hnode, hempty]
  have hlinks := hmiddle.links hroot hpath hdescend' hempty' (h.stock_ok fresh hfresh).1
    (htaken.notTaken h.toAccounts) htaken.tables_fresh flags
  have htables := tables_store middle (h.stock_ok node (h.table_mem_stock hnode)).1 (slot index)
    (makePageEntry (BitVec.ofNat 64 (4096 * fresh)) (intermediateFlags flags))
  rw [htaken.statics] at htables
  rw [entryAddress_tableAddress _ _ hindex, htables,
    ← descend_congr_of_eqOn hroot hframes hroute]
  simp only [Option.eq_none_iff_forall_ne_some, Ne, hlinks.descend_put hroot hroute, not_or,
    forall_and, true_and, not_and]
  exact and_congr_right fun _ ↦ ⟨fun hne heq ↦ hne fresh heq rfl, fun hne _ heq _ ↦ hne heq⟩

/-- `ensure_table` takes a frame exactly if the table is missing. -/
theorem ensureTable_paid (h : KernelInv stock held roots s) (hroot : root ∈ roots)
    (hpath : path.length < 3) (hdescend : descend link (tables s) root path = some node)
    (hindex : index.toNat < 512) (flags : PageFlags)
    (hneeded : path ++ [slot index] ∈ needed) (hshort : ∀ path ∈ needed, path.length ≤ 3)
    (hassumed : Funded needed root s ∨ State.Calm s (ensureTable s
      (entryAddress (tableAddress s.toStatics node) index) (intermediateFlags flags)).2) :
    Paid needed root s (ensureTable s (entryAddress (tableAddress s.toStatics node) index)
      (intermediateFlags flags)).2 := by
  have hbound := h.descend_lt hroot (Nat.le_of_lt hpath) hdescend
  have hnode := h.table_mem_stock (h.descend_mem hroot (Nat.le_of_lt hpath) hdescend)
  have hok := h.forest.entries root hroot path (slot index) _ (Nat.le_of_lt hpath)
    (entryAt_eq_some.mpr ⟨node, hdescend, rfl⟩)
  rcases hok.cases with hempty | hhuge | ⟨next, hlink⟩
  · have hmissing : path ++ [slot index] ∈ missing needed root s := by
      rw [mem_missing, Option.eq_none_iff_forall_ne_some]
      refine ⟨hneeded, fun target htarget ↦ ?_⟩
      obtain ⟨found, hfound, hlink⟩ := descend_concat_eq_some.mp htarget
      obtain rfl : node = found := Option.some.inj (hdescend.symm.trans hfound)
      rw [hempty] at hlink
      exact absurd (link_zero.symm.trans hlink) (by simp)
    -- The table is missing, so with the call funded a frame is free.
    have hcalm : State.Calm s (ensureTable s (entryAddress (tableAddress s.toStatics node) index)
        (intermediateFlags flags)).2 := by
      refine hassumed.elim (fun hfunded ↦ calm_ensureTable_of_free (fun hnone ↦ ?_) _ _) id
      have hpos := (Finset.card_pos.mpr ⟨_, hmissing⟩).trans_le hfunded
      obtain ⟨frame, hframe⟩ := Finset.card_pos.mp hpos
      exact (scanBitmap_eq_none_iff h.sound).mp hnone frame (mem_freeFrames.mp hframe)
    obtain ⟨fresh, hfresh, middle, htaken, hresult⟩ :=
      ensureTable_of_empty h.toAccounts hbound hindex hempty flags hcalm
    rw [hresult] at hcalm ⊢
    refine Paid.of_taken hcalm hmissing (fun route hroute ↦ ?_) htaken.free fun frame ↦ ?_
    · exact descend_link_eq_none_iff h hroot hpath hdescend hindex flags hempty hfresh htaken
        (hshort route hroute)
    · rw [← htaken.statics, free_store_entry (htaken.accounts h.toAccounts) hnode hindex,
        htaken.free_iff]
  · rw [ensureTable_of_huge hbound hindex hhuge]
    exact Paid.refl needed root s
  · rw [ensureTable_of_link hbound hindex hlink]
    refine Paid.of_unchanged (calm_store _ _ _) (fun route _ ↦ ?_) fun frame ↦ ?_
    · exact descend_widened hbound hindex hlink flags root route
    · exact free_store_entry h.toAccounts hnode hindex _ frame

/-- A walk takes a frame for each missing table on its way. -/
theorem ensurePath_paid {indices : List (BitVec 16)} (h : KernelInv stock held roots s)
    (hroot : root ∈ roots) (hlength : path.length + indices.length ≤ 3)
    (hdescend : descend link (tables s) root path = some node)
    (hindices : ∀ index ∈ indices, index.toNat < 512) (flags : PageFlags)
    (hneeded : ∀ front, front ≠ [] → front <+: indices.map slot → path ++ front ∈ needed)
    (hshort : ∀ path ∈ needed, path.length ≤ 3)
    (hassumed : Funded needed root s ∨ State.Calm s (ensurePath (intermediateFlags flags) s
      (tableAddress s.toStatics node) indices).2) :
    Paid needed root s (ensurePath (intermediateFlags flags) s (tableAddress s.toStatics node)
      indices).2 := by
  induction indices generalizing s node path with
  | nil => exact Paid.refl needed root s
  | cons index indices ih =>
    rw [List.length_cons] at hlength
    rw [List.forall_mem_cons] at hindices
    have hnext : path ++ [slot index] ∈ needed :=
      hneeded [slot index] (List.cons_ne_nil _ _) (List.prefix_append _ _)
    have hrest : ∀ front, front ≠ [] → front <+: indices.map slot →
        path ++ [slot index] ++ front ∈ needed := by
      intro front _ hprefix
      rw [List.append_assoc, List.singleton_append]
      exact hneeded _ (List.cons_ne_nil _ _) ((List.prefix_cons_inj _).mpr hprefix)
    have hgrows := (ensureTable_proceeds s (entryAddress (tableAddress s.toStatics node) index)
      (intermediateFlags flags)).grows
    have hpaid := ensureTable_paid h hroot (by omega) hdescend hindices.1 flags hnext hshort
    have hspec := fun hcalm ↦ ensureTable_spec h hroot (by omega) hdescend hindices.1 flags hcalm
    simp only [ensurePath] at hassumed ⊢
    generalize ensureTable s (entryAddress (tableAddress s.toStatics node) index)
      (intermediateFlags flags) = result at hassumed hgrows hpaid hspec
    obtain ⟨pointer, middle⟩ := result
    simp only at hassumed hgrows hpaid hspec ⊢
    by_cases hzero : pointer = 0
    · rw [if_pos hzero] at hassumed ⊢
      exact hpaid hassumed
    · rw [if_neg hzero] at hassumed ⊢
      refine Paid.trans hgrows (ensurePath_proceeds _ _ _ _).grows hassumed hpaid
        fun hcalm hassumed' ↦ ?_
      obtain ⟨hinv, -, -, houtcome⟩ := hspec hcalm
      obtain hwalked := houtcome.resolve_right fun hstopped ↦ hzero hstopped.1
      obtain ⟨next, -, rfl, hreached⟩ := hwalked.target
      have hlength' : (path ++ [slot index]).length + indices.length ≤ 3 := by
        rw [List.length_append, List.length_singleton]
        omega
      exact ih hinv hlength' hreached hindices.2 hrest hassumed'

end Walk

/-! ## Mapping -/

section Map

variable {stock held roots : Set ℕ} {s : State} {root node : ℕ} {needed : Finset Path}

/-- Writing a leaf takes no frame. -/
theorem installLeaf_paid (h : KernelInv stock held roots s) (hroot : root ∈ roots) {page : Page}
    (hpage : Page.Admissible page)
    (hdescend : descend link (tables s) root (Page.slots page) = some node)
    (hshort : ∀ path ∈ needed, path.length ≤ 3) (pml4 : Word) :
    Paid needed root s (installLeaf s pml4 (tableAddress s.toStatics node) page).2 := by
  have hlength := Page.length_slots_le page
  have hnode := h.table_mem_stock (h.descend_mem hroot hlength hdescend)
  have hbound := (h.stock_ok node hnode).1
  have hok := h.forest.entries root hroot (Page.slots page) (Page.leafSlot page) _ hlength
    (entryAt_eq_some.mpr ⟨node, hdescend, rfl⟩)
  unfold installLeaf
  simp only
  rw [load_entryAddress s hbound (Page.leafIndex_lt page)]
  split_ifs with hpresent
  · exact Paid.refl needed root s
  · have hempty : tables s node (Page.leafSlot page) = 0 := by
      by_contra hne
      exact has_eq_true_iff.mp (hok.present hne) (not_not.mp hpresent)
    refine Paid.of_unchanged ?_ (fun path hpath ↦ ?_) fun frame ↦ ?_
    · exact calm_of_quiet ((quiet_stored _ _).cons (by simp) (by simp)) rfl
    · rw [tables_record, entryAddress_tableAddress _ _ (Page.leafIndex_lt page),
        tables_store s hbound]
      exact h.forest.descend_install hroot hpage hdescend hempty hroot (hshort path hpath)
    · rw [free_record]
      exact free_store_entry h.toAccounts hnode (Page.leafIndex_lt page) _ frame

/-- `map_page` and `map_page_large` take a frame for each missing table of their page. -/
theorem mapOne_paid (h : KernelInv stock held roots s) (hroot : root ∈ roots) {page : Page}
    (hneeded : ∀ path, path ≠ [] → path <+: Page.slots page → path ∈ needed)
    (hshort : ∀ path ∈ needed, path.length ≤ 3)
    (hassumed : Funded needed root s ∨
      State.Calm s (mapOne s (tableAddress s.toStatics root) page).2) :
    Paid needed root s (mapOne s (tableAddress s.toStatics root) page).2 := by
  by_cases hrefused : tableAddress s.toStatics root = 0 ∨ ¬ Page.Admissible page
  · rw [mapOne, if_pos hrefused]
    exact Paid.refl needed root s
  · have hpage : Page.Admissible page := not_not.mp fun hnot ↦ hrefused (Or.inr hnot)
    have hlength : ([] : Path).length + (Page.directory page).length ≤ 3 := by
      rw [List.length_nil, Nat.zero_add]
      exact Page.length_directory page
    have hgrows := (ensurePath_proceeds (intermediateFlags page.flags) s
      (tableAddress s.toStatics root) (Page.directory page)).grows
    have hpaid := ensurePath_paid h hroot hlength rfl (Page.directory_lt page) page.flags
      hneeded hshort
    have hspec := fun hcalm ↦ ensurePath_spec h hroot hlength rfl (Page.directory_lt page)
      page.flags hcalm
    rw [mapOne, if_neg hrefused] at hassumed ⊢
    generalize ensurePath (intermediateFlags page.flags) s (tableAddress s.toStatics root)
      (Page.directory page) = result at hassumed hgrows hpaid hspec
    obtain ⟨pointer, middle⟩ := result
    simp only at hassumed hgrows hpaid hspec ⊢
    by_cases hzero : pointer = 0
    · rw [if_pos hzero] at hassumed ⊢
      exact hpaid hassumed
    · rw [if_neg hzero] at hassumed ⊢
      refine Paid.trans hgrows (installLeaf_proceeds _ _ _ _).grows hassumed hpaid
        fun hcalm _ ↦ ?_
      obtain ⟨hinv, hstatics, -, houtcome⟩ := hspec hcalm
      obtain hwalked := houtcome.resolve_right fun hstopped ↦ hzero hstopped.1
      obtain ⟨next, -, rfl, hreached⟩ := hwalked.target
      exact installLeaf_paid hinv hroot hpage hreached hshort _

/-- The loop of a range call. -/
theorem mapPages_paid {pages : List Page} (h : KernelInv stock held roots s)
    (hroot : root ∈ roots) (hflags : ∀ page ∈ pages, PageFlags.Named page.flags)
    (hneeded : tablePaths pages ⊆ needed) (hshort : ∀ path ∈ needed, path.length ≤ 3)
    (hassumed : Funded needed root s ∨
      State.Calm s (mapPages (tableAddress s.toStatics root) pages s).2) :
    Paid needed root s (mapPages (tableAddress s.toStatics root) pages s).2 := by
  induction pages generalizing s with
  | nil => exact Paid.refl needed root s
  | cons page pages ih =>
    rw [List.forall_mem_cons] at hflags
    have hpage : ∀ path, path ≠ [] → path <+: Page.slots page → path ∈ needed :=
      fun path hpath hprefix ↦
        hneeded (mem_tablePaths.mpr ⟨hpath, page, List.mem_cons_self, hprefix⟩)
    have hpages : tablePaths pages ⊆ needed := by
      intro path hpath
      obtain ⟨hne, other, hother, hprefix⟩ := mem_tablePaths.mp hpath
      exact hneeded (mem_tablePaths.mpr ⟨hne, other, List.mem_cons_of_mem _ hother, hprefix⟩)
    have hgrows := (mapOne_proceeds s (tableAddress s.toStatics root) page).grows
    have hpaid := mapOne_paid h hroot hpage hshort
    have hspec := fun hcalm ↦ mapOne_spec h hroot hflags.1 hcalm
    rw [mapPages] at hassumed ⊢
    generalize mapOne s (tableAddress s.toStatics root) page = result
      at hassumed hgrows hpaid hspec
    obtain ⟨returned, middle⟩ := result
    cases returned with
    | false => exact hpaid hassumed
    | true =>
      refine Paid.trans hgrows (mapPages_proceeds _ pages middle).grows hassumed hpaid
        fun hcalm hassumed' ↦ ?_
      obtain ⟨hinv, hstatics, -, -⟩ := hspec hcalm
      simp only at hinv hstatics hassumed' ⊢
      rw [← hstatics] at hassumed' ⊢
      exact ih hinv hflags.2 hpages hassumed'

variable {space : AddressSpace}

/-- `map_range` and `map_range_large`. -/
theorem mapAll_paid {request : RangeRequest} (h : KernelInv stock held roots s)
    (hroot : root ∈ roots) (hspace : space.pml4 = tableAddress s.toStatics root)
    (hflags : PageFlags.Named request.flags) (hneeded : tablePaths request.pages ⊆ needed)
    (hshort : ∀ path ∈ needed, path.length ≤ 3)
    (hassumed : Funded needed root s ∨ State.Calm s (mapAll s space request.virt request.phys
      request.size request.flags request.large).2) :
    Paid needed root s (mapAll s space request.virt request.phys request.size request.flags
      request.large).2 := by
  unfold mapAll at hassumed ⊢
  split at hassumed
  · rename_i hrefused
    rw [if_pos hrefused]
    exact Paid.refl needed root s
  · rename_i hadmitted
    rw [if_neg hadmitted, hspace] at *
    refine mapPages_paid h hroot (fun page hpage ↦ ?_) hneeded hshort hassumed
    rw [rangePages_flags hpage]
    exact hflags

/-- The pages of a sequence of range calls. -/
def requestPages (requests : List RangeRequest) : List Page :=
  requests.flatMap RangeRequest.pages

theorem tablePaths_mono {pages others : List Page} (h : pages ⊆ others) :
    tablePaths pages ⊆ tablePaths others := by
  intro path hpath
  obtain ⟨hne, page, hpage, hprefix⟩ := mem_tablePaths.mp hpath
  exact mem_tablePaths.mpr ⟨hne, page, h hpage, hprefix⟩

/-- Range calls in turn. -/
theorem mapRequests_paid {requests : List RangeRequest} (h : KernelInv stock held roots s)
    (hroot : root ∈ roots) (hspace : space.pml4 = tableAddress s.toStatics root)
    (hflags : ∀ request ∈ requests, PageFlags.Named request.flags)
    (hneeded : tablePaths (requestPages requests) ⊆ needed)
    (hshort : ∀ path ∈ needed, path.length ≤ 3)
    (hassumed : Funded needed root s ∨ State.Calm s (mapRequests space requests s).2) :
    Paid needed root s (mapRequests space requests s).2 := by
  induction requests generalizing s with
  | nil => exact Paid.refl needed root s
  | cons request requests ih =>
    rw [List.forall_mem_cons] at hflags
    rw [requestPages, List.flatMap_cons] at hneeded
    have hgrows := (mapAll_proceeds s space request.virt request.phys request.size request.flags
      request.large).grows
    have hpaid := mapAll_paid h hroot hspace hflags.1
      ((tablePaths_mono (List.subset_append_left _ _)).trans hneeded) hshort
    have hspec : State.Calm s (mapAll s space request.virt request.phys request.size request.flags
          request.large).2 →
        MapResult stock held roots (Populated (tables s) roots) space.pml4 request.pages s
          (mapAll s space request.virt request.phys request.size request.flags request.large) :=
      mapAll_spec h hroot hspace hflags.1
    rw [mapRequests] at hassumed ⊢
    generalize mapAll s space request.virt request.phys request.size request.flags
      request.large = result at hassumed hgrows hpaid hspec
    obtain ⟨returned, middle⟩ := result
    cases returned with
    | false => exact hpaid hassumed
    | true =>
      refine Paid.trans hgrows (mapRequests_proceeds space requests middle).grows hassumed hpaid
        fun hcalm hassumed' ↦ ?_
      obtain ⟨hinv, hstatics, -, -⟩ := hspec hcalm
      have hspace' : space.pml4 = tableAddress middle.toStatics root := by
        rw [hspace]
        exact congrArg (tableAddress · root) hstatics.symm
      exact ih hinv hspace' hflags.2
        ((tablePaths_mono (List.subset_append_right _ _)).trans hneeded) hassumed'

/-- The tables of installed pages are there. -/
theorem missing_of_installed (h : KernelInv stock held roots s) (hroot : root ∈ roots)
    {pages : List Page}
    (hpages : ∀ page ∈ pages, page ∈ installed s (tableAddress s.toStatics root)) :
    missing (tablePaths pages) root s = ∅ := by
  rw [missing, Finset.filter_eq_empty_iff]
  intro path hpath hnone
  obtain ⟨-, page, hpage, hprefix⟩ := mem_tablePaths.mp hpath
  have hinstalled := (mem_framePages (h.root_lt hroot)).mpr (hpages page hpage)
  obtain ⟨node, hnode, -⟩ := entryAt_eq_some.mp (h.forest.installed root page hinstalled)
  obtain ⟨target, htarget⟩ := exists_descend_before hprefix hnode
  rw [hnone] at htarget
  cases htarget

/-- **What accepted range calls cost.** -/
theorem Ready.mapRequests_cost {requests : List RangeRequest}
    (hready : Ready stock held roots s root)
    (hspace : space.pml4 = tableAddress s.toStatics root)
    (hflags : ∀ request ∈ requests, PageFlags.Named request.flags)
    (haccepted : (∀ request ∈ requests,
        request.WellFormed ∧ request.Vacant (installed s space.pml4)) ∧
      requests.Pairwise RangeRequest.Apart) :
    let cost := (missing (tablePaths (requestPages requests)) root s).card
    let result := mapRequests space requests s
    (State.Calm s result.2 ↔ cost ≤ (freeFrames s).card) ∧
      (cost ≤ (freeFrames s).card →
        result.1 = true ∧ (freeFrames result.2).card + cost = (freeFrames s).card) := by
  intro cost result
  have hpaid := mapRequests_paid hready.inv hready.root_mem hspace hflags Finset.Subset.rfl
    fun path hpath ↦ length_le_of_mem_tablePaths hpath
  -- A calm run succeeds, so in the end no table is missing.
  have hspent : State.Calm s result.2 →
      result.1 = true ∧ (freeFrames result.2).card + cost = (freeFrames s).card := by
    intro hcalm
    have hreturned := (hready.mapRequests_iff hspace hflags hcalm).mpr haccepted
    obtain ⟨hinv, hstatics, -, hmem⟩ :=
      mapRequests_spec hready.inv hready.root_mem hspace hflags hreturned hcalm
    have hnone : missing (tablePaths (requestPages requests)) root result.2 = ∅ := by
      refine missing_of_installed hinv hready.root_mem fun page hpage ↦ ?_
      rw [hstatics, ← hspace, hmem]
      exact Or.inl (List.mem_flatMap.mp hpage)
    have hbalance := (hpaid (Or.inr hcalm)).balance
    rw [hnone, Finset.card_empty, Nat.zero_add] at hbalance
    exact ⟨hreturned, (Nat.add_comm _ _).trans hbalance.symm⟩
  refine ⟨⟨fun hcalm ↦ ?_, fun hfunded ↦ (hpaid (Or.inl hfunded)).calm⟩, fun hfunded ↦ ?_⟩
  · rw [← (hspent hcalm).2]
    exact Nat.le_add_left _ _
  · exact hspent (hpaid (Or.inl hfunded)).calm

/-- What one accepted range call costs. -/
theorem Ready.mapAll_cost {request : RangeRequest} (hready : Ready stock held roots s root)
    (hspace : space.pml4 = tableAddress s.toStatics root) (hflags : PageFlags.Named request.flags)
    (hformed : request.WellFormed) (hvacant : request.Vacant (installed s space.pml4)) :
    let cost := (missing (tablePaths request.pages) root s).card
    let result := Vmm.mapAll s space request.virt request.phys request.size request.flags
      request.large
    (State.Calm s result.2 ↔ cost ≤ (freeFrames s).card) ∧
      (cost ≤ (freeFrames s).card →
        result.1 = true ∧ (freeFrames result.2).card + cost = (freeFrames s).card) := by
  have hspent := hready.mapRequests_cost hspace (List.forall_mem_singleton.mpr hflags)
    ⟨List.forall_mem_singleton.mpr ⟨hformed, hvacant⟩, List.pairwise_singleton _ _⟩
  have hone : mapRequests space [request] s =
      Vmm.mapAll s space request.virt request.phys request.size request.flags request.large := by
    rw [mapRequests]
    generalize Vmm.mapAll s space request.virt request.phys request.size request.flags
      request.large = mapped
    obtain ⟨_ | _, later⟩ := mapped <;> rfl
  rwa [hone, requestPages, List.flatMap_singleton] at hspent

end Map

/-- The frames a range call would take: one for each table its pages need and the space lacks. -/
def rangeCost (s : State) (space : AddressSpace) (request : RangeRequest) : ℕ :=
  (missing (tablePaths request.pages) (space.pml4Physical.toNat / 4096) s).card

/-- **A range call takes exactly the frames its cost says.** After every history that never
exhausts the allocator, a call whose cost is covered by the free frames does not exhaust it either,
whatever its arguments; and a call that asks for a well-formed range where nothing is installed
exhausts the allocator exactly if its cost is not covered, and otherwise succeeds and leaves that
many frames fewer. -/
theorem range_cost_exact {regions : List MemoryRegion} {hhdmOffset : Word}
    {memory : Memory} {s : State} (hmap : LimineMap regions)
    (hnonnull : NonNullMap regions hhdmOffset) (hinit : init regions hhdmOffset memory = .ok s)
    {operations : List Operation}
    (hlegal : Run.Legal World.step World.Permits (World.start s) operations)
    (hcalm : Event.exhausted ∉ (Run.final World.step (World.start s) operations).state.trace) :
    let world := Run.final World.step (World.start s) operations
    ∀ space ∈ world.spaces, ∀ request : RangeRequest, PageFlags.Named request.flags →
      let cost := rangeCost world.state space request
      let result := rangeCall world.state space request
      (cost ≤ (freeFrames world.state).card → State.Calm world.state result.2) ∧
      (request.WellFormed → request.Vacant (installed world.state space.pml4) →
        (State.Calm world.state result.2 ↔ cost ≤ (freeFrames world.state).card) ∧
        (cost ≤ (freeFrames world.state).card → result.1 = true ∧
          (freeFrames result.2).card + cost = (freeFrames world.state).card)) := by
  intro world space hspace request hflags cost result
  obtain ⟨root, hready, hcreated⟩ := ready_of_run hmap hnonnull hinit hlegal hcalm hspace
  have hpml4 : space.pml4 = tableAddress world.state.toStatics root :=
    congrArg AddressSpace.pml4 hcreated
  have hroot : space.pml4Physical.toNat / 4096 = root := by
    have hbound := hready.inv.root_lt hready.root_mem
    rw [congrArg AddressSpace.pml4Physical hcreated, BitVec.toNat_ofNat]
    omega
  have hcost : cost = (missing (tablePaths request.pages) root world.state).card := by
    rw [← hroot]
    rfl
  have hresult : result = mapAll world.state space request.virt request.phys request.size
      request.flags request.large := rangeCall_eq world.state space request
  rw [hcost, hresult]
  refine ⟨fun hfunded ↦ ?_, fun hformed hvacant ↦ ?_⟩
  · exact (mapAll_paid hready.inv hready.root_mem hpml4 hflags Finset.Subset.rfl
      (fun path hpath ↦ length_le_of_mem_tablePaths hpath) (Or.inl hfunded)).calm
  · exact hready.mapAll_cost hpml4 hflags hformed hvacant

/-- Two small pages. -/
def pairRequest : RangeRequest where
  virt := 0x400000
  phys := 0x8000
  size := 0x2000
  flags := PageFlags.writable
  large := false

theorem exists_bootMap_pair :
    ∃ s, init bootMap 0xffff800000000000 (fun _ ↦ 0) = .ok s ∧
      let operations : List Operation := [.paging (.createAddressSpace ⟨0, 0⟩)]
      Run.Legal World.step World.Permits (World.start s) operations ∧
      let world := Run.final World.step (World.start s) operations
      let space : AddressSpace := ⟨0xffff800000002000, 0x2000⟩
      space ∈ world.spaces ∧ Event.exhausted ∉ world.state.trace ∧
        installed world.state space.pml4 = [] ∧ rangeCost world.state space pairRequest = 3 ∧
        (freeFrames world.state).card = 4 := by
  exact Run.exists_of_succeedsWith (by decide +kernel)

theorem pairRequest_wellFormed : pairRequest.WellFormed where
  admissible := by
    unfold RangeRequest.Admissible
    decide
  oneHalf := Or.inl (by decide)
  phys_le := by decide
  small := fun _ ↦ by decide

/-- Two pages of a new space need three tables, and one of the four free frames is left. -/
theorem range_cost_exact_bootMap :
    ∃ s, init bootMap 0xffff800000000000 (fun _ ↦ 0) = .ok s ∧
      let world := Run.final World.step (World.start s) [.paging (.createAddressSpace ⟨0, 0⟩)]
      let space : AddressSpace := ⟨0xffff800000002000, 0x2000⟩
      (rangeCall world.state space pairRequest).1 = true ∧
        (freeFrames (rangeCall world.state space pairRequest).2).card = 1 := by
  obtain ⟨s, hinit, hlegal, hspace, hcalm, hempty, hcost, hfree⟩ := exists_bootMap_pair
  have hvacant : pairRequest.Vacant [] :=
    fun _ _ page hpage ↦ absurd hpage List.not_mem_nil
  rw [← hempty] at hvacant
  have hexact := (range_cost_exact (by decide) bootMap_nonNull hinit hlegal hcalm _ hspace
    pairRequest (by decide)).2 pairRequest_wellFormed hvacant
  rw [hcost, hfree] at hexact
  obtain ⟨hreturned, hleft⟩ := hexact.2 (by decide)
  exact ⟨s, hinit, hreturned, by omega⟩

end WaterBuffalo.Vmm
