import WaterBuffalo.Vmm.Invariant

/-!
# Mapping functions keep the invariant

`ensure_table` either finds a huge entry, widens a link or links a fresh table; a walk composes
such steps; a mapping function is a walk and a leaf.  The statements also carry what later results
need along the way: which rights the links on the path have, and which table may still be empty.
-/

namespace WaterBuffalo.Vmm

open Pmm TableForest

/-- No frame of the stock is shown by the direct map at the null pointer. -/
def NonNull (stock : Set ℕ) (s : Statics) : Prop :=
  ∀ frame ∈ stock, tableAddress s frame ≠ 0

/-- A walk led from the table at `path` in `s` to the table at `route` in `later`. -/
structure Walked (stock roots : Set ℕ) (flags : PageFlags) (root : ℕ) (s : State) (path : Path)
    (later : State) (route : Path) (pointer : Word) : Prop where
  target : ∃ next ∈ stock, pointer = tableAddress later.toStatics next ∧
    descend link (tables later) root route = some next
  user : has flags PageFlags.user = true → LinksHave (tables s) root path PageFlags.user →
    LinksHave (tables later) root route PageFlags.user
  populated : PopulatedBut (tables s) roots root path →
    PopulatedBut (tables later) roots root route

/-- The result of a walk: the invariant and the installed pages are kept, and the walk reached
its goal or was stopped at a table that has an entry in use. -/
structure WalkResult (stock held roots : Set ℕ) (flags : PageFlags) (root : ℕ) (s : State)
    (path : Path) (later : State) (route : Path) (pointer : Word) : Prop where
  inv : KernelInv stock held roots later
  statics : later.toStatics = s.toStatics
  installed_eq : ∀ pml4, installed later pml4 = installed s pml4
  outcome : Walked stock roots flags root s path later route pointer ∨
    (pointer = 0 ∧ (NonNull stock s.toStatics → PopulatedBut (tables s) roots root path →
      Populated (tables later) roots))

section Ensure

variable {stock held roots : Set ℕ} {s : State} {root node : ℕ} {path : Path} {index : BitVec 16}

/-- The rights along a path one link further, when only that link or what is below it changed. -/
theorem walked_user (entry : Word) {flags : PageFlags} {changed : Store}
    {position : Fin kPageTableEntries}
    (hentry : ∀ before index, before.length ≤ path.length →
      entryAt link changed root before index =
        if root = root ∧ before = path ∧ index = position then some entry
        else entryAt link (tables s) root before index)
    (hflag : has flags PageFlags.user = true → has entry PageFlags.user = true)
    (hflags : has flags PageFlags.user = true)
    (h : LinksHave (tables s) root path PageFlags.user) :
    LinksHave changed root (path ++ [position]) PageFlags.user := by
  apply h.extend
  · intro before index hbefore
    rw [hentry before index (Nat.le_of_lt hbefore), if_neg]
    rintro ⟨-, rfl, -⟩
    exact Nat.lt_irrefl _ hbefore
  · intro found hfound
    rw [hentry path position le_rfl, if_pos ⟨rfl, rfl, rfl⟩] at hfound
    rw [← Option.some.inj hfound]
    exact hflag hflags

/-- Assigning an entry of a table: the bitmap is untouched. -/
theorem Accounts.store_entry (h : Accounts stock held s) (hnode : node ∈ stock)
    (hindex : index.toNat < 512) (value : Word) (later : State)
    (hstatics : later.toStatics = s.toStatics)
    (hmemory : later.memory =
      (s.store (entryAddress (tableAddress s.toStatics node) index) value).memory)
    (hframes : tableFrames later = tableFrames s)
    (hforest : PagingForest (put (tables s) node (slot index) value) roots (tableFrames s)
      (framePages later)) :
    KernelInv stock held roots later ∧
      tables later = put (tables s) node (slot index) value := by
  obtain ⟨hbound, -, hclear⟩ := h.stock_ok node hnode
  rw [entryAddress_tableAddress _ _ hindex] at hmemory
  have htables : tables later = put (tables s) node (slot index) value := by
    rw [tables_congr (s := s.store _ _) hstatics hmemory, tables_store s hbound]
  refine ⟨h.kernelInv hstatics (fun position hposition ↦ ?_) hframes (htables ▸ hforest), htables⟩
  rw [used_congr (s := s.store _ _) hstatics hmemory, used_store_entry hclear _ _ hposition]

theorem framePages_store (address value : Word) :
    framePages (s.store address value) = framePages s := by
  funext other
  simp only [framePages, installed_store, State.store_toStatics]

/-- The case of `ensure_table` that finds a table. -/
theorem ensureTable_widen (h : KernelInv stock held roots s) (hroot : root ∈ roots)
    (hpath : path.length < 3) (hdescend : descend link (tables s) root path = some node)
    (hindex : index.toNat < 512) (flags : PageFlags) {next : ℕ}
    (hlink : link (tables s node (slot index)) = some next) :
    WalkResult stock held roots flags root s path
      (s.store (entryAddress (tableAddress s.toStatics node) index)
        (tables s node (slot index) ||| intermediateFlags flags)) (path ++ [slot index])
      (tableAddress s.toStatics next) := by
  have hnode := h.table_mem_stock (h.descend_mem hroot (Nat.le_of_lt hpath) hdescend)
  have hforest := h.forest.widen hroot hpath hdescend hlink flags
  rw [← framePages_store] at hforest
  obtain ⟨hinv, htables⟩ := h.toAccounts.store_entry hnode hindex _ (s.store _ _) rfl rfl
    (tableFrames_store _ _ _) hforest
  have hsame := descend_put_of_child_eq
    ((PagingForest.link_widen hlink flags).trans hlink.symm)
  have hnext : descend link (tables s) root (path ++ [slot index]) = some next :=
    descend_concat_eq_some.mpr ⟨node, hdescend, hlink⟩
  have hlength : (path ++ [slot index]).length ≤ 3 := by
    rw [List.length_append, List.length_singleton]
    exact hpath
  refine ⟨hinv, State.store_toStatics _ _ _, fun pml4 ↦ installed_store _ _ _ _, Or.inl ?_⟩
  refine ⟨⟨next, h.table_mem_stock (h.descend_mem hroot hlength hnext), rfl, ?_⟩, ?_, ?_⟩
  · rw [htables, hsame, hnext]
  · rw [htables]
    refine walked_user (tables s node (slot index) ||| intermediateFlags flags)
      (fun before position hbefore ↦ ?_) fun hflags ↦ ?_
    · exact entryAt_put h.forest.unshared hroot (Nat.le_of_lt hpath) hdescend
        (hsame root before) hroot (by omega)
    · rw [has_or, has_user_intermediateFlags, hflags, Bool.or_true]
  · intro hpopulated other hother route target hroute hrouteLength htarget
    rw [htables] at htarget ⊢
    refine Or.inl (PopulatedBut.write hpopulated hdescend ?_ (fun other _ route _ ↦
      hsame other route) other hother route target hroute hrouteLength htarget)
    exact PagingForest.ne_zero_of_link (PagingForest.link_widen hlink flags)

/-- The case of `ensure_table` that allocates a table. -/
theorem ensureTable_link (h : KernelInv stock held roots s) (hroot : root ∈ roots)
    (hpath : path.length < 3) (hdescend : descend link (tables s) root path = some node)
    (hindex : index.toNat < 512) (flags : PageFlags) (hempty : tables s node (slot index) = 0)
    {middle : State} {fresh : ℕ} (hfresh : fresh ∈ stock)
    (htaken : TableTaken stock s middle fresh) :
    WalkResult stock held roots flags root s path
      (middle.store (entryAddress (tableAddress s.toStatics node) index)
        (makePageEntry (BitVec.ofNat 64 (4096 * fresh)) (intermediateFlags flags)))
      (path ++ [slot index]) (tableAddress s.toStatics fresh) := by
  have hnode := h.descend_mem hroot (Nat.le_of_lt hpath) hdescend
  obtain ⟨hbound, -, hclear⟩ := h.stock_ok fresh hfresh
  have hframes : ∀ frame, Reached link (tables s) roots 3 frame →
      tables middle frame = tables s frame :=
    fun frame hframe ↦ htaken.tables_eq h ((h.forest.taken_iff frame).mpr hframe)
  have hmiddle : PagingForest (tables middle) roots (tableFrames s) (framePages s) :=
    h.forest.congr fun frame hframe ↦ htaken.tables_eq h hframe
  have hdescend' : descend link (tables middle) root path = some node := by
    rw [descend_congr_of_eqOn hroot hframes (Nat.le_of_lt hpath), hdescend]
  have hempty' : tables middle node (slot index) = 0 := by
    rw [htaken.tables_eq h hnode, hempty]
  have hlinks := hmiddle.links hroot hpath hdescend' hempty' hbound
    (htaken.notTaken h.toAccounts) htaken.tables_fresh flags
  have hforest := hmiddle.linkFresh hroot hpath hdescend' hempty' hbound
    (htaken.notTaken h.toAccounts) htaken.tables_fresh flags
  rw [← htaken.tableFrames_eq, ← htaken.framePages_eq, ← framePages_store] at hforest
  obtain ⟨hinv, htables⟩ := (htaken.accounts h.toAccounts).store_entry (h.table_mem_stock hnode)
    hindex _ (middle.store _ _) rfl rfl (tableFrames_store _ _ _) hforest
  rw [htaken.statics] at hinv htables
  have hlength : (path ++ [slot index]).length ≤ 3 := by
    rw [List.length_append, List.length_singleton]
    exact hpath
  refine ⟨hinv, by rw [State.store_toStatics, htaken.statics], ?_, Or.inl ?_⟩
  · intro pml4
    rw [installed_store, htaken.installed_eq]
  refine ⟨⟨fresh, hfresh, ?_, ?_⟩, ?_, ?_⟩
  · rw [State.store_toStatics, htaken.statics]
  · rw [htables, hlinks.descend_put hroot hlength]
    exact Or.inr ⟨rfl, rfl, rfl⟩
  · rw [htables]
    refine walked_user
      (makePageEntry (BitVec.ofNat 64 (4096 * fresh)) (intermediateFlags flags))
      (fun before position hbefore ↦ ?_) fun hflags ↦ ?_
    · have hne : ¬ (root = root ∧ before = path ++ [slot index]) := by
        rintro ⟨-, rfl⟩
        rw [List.length_append, List.length_singleton] at hbefore
        omega
      rw [hlinks.entryAt_put hroot (by omega), if_neg hne, entryAt, entryAt,
        descend_congr_of_eqOn hroot hframes (by omega)]
      cases hfound : descend link (tables s) root before with
      | none => rfl
      | some found =>
        rw [Option.map_some, Option.map_some,
          hframes found ⟨root, hroot, before, by omega, hfound⟩]
    · rw [has_makePageEntry _ _ outsideAddress_flag.2.2.1, has_user_intermediateFlags, hflags]
  · intro hpopulated
    rw [htables]
    exact PopulatedBut.linkFresh (hpopulated.congr hframes) hlinks
      (PagingForest.ne_zero_of_link hlinks.child_eq)

/-- An entry of the forest is empty, maps a large page or is a link. -/
theorem EntryOk.cases {level : ℕ} {entry : Word} (h : EntryOk level entry) :
    entry = 0 ∨ has entry PageFlags.huge = true ∨ ∃ next, link entry = some next := by
  by_cases hempty : entry = 0
  · exact Or.inl hempty
  · cases hhuge : has entry PageFlags.huge with
    | true => exact Or.inr (Or.inl rfl)
    | false =>
      exact Or.inr (Or.inr ⟨_, link_eq_some_iff.mpr ⟨h.present hempty, hhuge, rfl⟩⟩)

theorem ensureTable_of_huge (hnode : node < 2 ^ 40) (hindex : index.toNat < 512)
    (hhuge : has (tables s node (slot index)) PageFlags.huge = true) (middleFlags : PageFlags) :
    ensureTable s (entryAddress (tableAddress s.toStatics node) index) middleFlags = (0, s) := by
  rw [ensureTable, load_entryAddress s hnode hindex, if_pos (has_eq_true_iff.mp hhuge)]

theorem ensureTable_of_link (hnode : node < 2 ^ 40) (hindex : index.toNat < 512) {next : ℕ}
    (hlink : link (tables s node (slot index)) = some next) (flags : PageFlags) :
    ensureTable s (entryAddress (tableAddress s.toStatics node) index)
        (intermediateFlags flags) =
      (tableAddress s.toStatics next,
        s.store (entryAddress (tableAddress s.toStatics node) index)
          (tables s node (slot index) ||| intermediateFlags flags)) := by
  obtain ⟨hpresent, hhuge, rfl⟩ := link_eq_some_iff.mp hlink
  rw [ensureTable, load_entryAddress s hnode hindex,
    if_neg (not_not.mpr (has_eq_false_iff.mp hhuge)), if_neg (has_eq_true_iff.mp hpresent)]
  simp only [State.load_store_self, physicalToVirtual, State.store_toStatics,
    pageEntryAddress_or (outsideAddress_intermediateFlags flags), pageEntryAddress_eq_ofNat]
  rfl

/-- With a frame to spare, a missing table is allocated and linked. -/
theorem ensureTable_of_empty (h : Accounts stock held s) (hnode : node < 2 ^ 40)
    (hindex : index.toNat < 512) (hempty : tables s node (slot index) = 0) (flags : PageFlags)
    (hcalm : State.Calm s (ensureTable s (entryAddress (tableAddress s.toStatics node) index)
      (intermediateFlags flags)).2) :
    ∃ fresh ∈ stock, ∃ middle, TableTaken stock s middle fresh ∧
      ensureTable s (entryAddress (tableAddress s.toStatics node) index)
          (intermediateFlags flags) =
        (tableAddress s.toStatics fresh,
          middle.store (entryAddress (tableAddress s.toStatics node) index)
            (makePageEntry (BitVec.ofNat 64 (4096 * fresh)) (intermediateFlags flags))) := by
  have hhuge : ¬ ((0 : Word) &&& PageFlags.huge ≠ 0) := by decide
  have hpresent : (0 : Word) &&& PageFlags.present = 0 := by decide
  unfold ensureTable at hcalm ⊢
  rw [load_entryAddress s hnode hindex, hempty, if_neg hhuge, if_pos hpresent] at hcalm ⊢
  have hcalm' : State.Calm s (allocateTable s).2 := by
    have hgrows := (allocateTable_proceeds s).grows
    generalize allocateTable s = result at hcalm hgrows
    obtain ⟨_ | table, middle⟩ := result
    · exact hcalm
    · exact ((State.calm_trans hgrows (Proceeds.store _ _ _).grows).mp hcalm).1
  obtain ⟨fresh, hfresh, hresult, htaken⟩ := allocateTable_spec h hcalm'
  have hpair : allocateTable s = (some ⟨BitVec.ofNat 64 (4096 * fresh),
      tableAddress s.toStatics fresh⟩, (allocateTable s).2) := Prod.ext hresult rfl
  refine ⟨fresh, hfresh, (allocateTable s).2, htaken, ?_⟩
  rw [hpair]

/-- `ensure_table` on an entry of a table of the forest. -/
theorem ensureTable_spec (h : KernelInv stock held roots s) (hroot : root ∈ roots)
    (hpath : path.length < 3) (hdescend : descend link (tables s) root path = some node)
    (hindex : index.toNat < 512) (flags : PageFlags)
    (hcalm : State.Calm s (ensureTable s (entryAddress (tableAddress s.toStatics node) index)
      (intermediateFlags flags)).2) :
    WalkResult stock held roots flags root s path
      (ensureTable s (entryAddress (tableAddress s.toStatics node) index)
        (intermediateFlags flags)).2 (path ++ [slot index])
      (ensureTable s (entryAddress (tableAddress s.toStatics node) index)
        (intermediateFlags flags)).1 := by
  have hbound := h.descend_lt hroot (Nat.le_of_lt hpath) hdescend
  have hok := h.forest.entries root hroot path (slot index) _ (Nat.le_of_lt hpath)
    (entryAt_eq_some.mpr ⟨node, hdescend, rfl⟩)
  rcases hok.cases with hempty | hhuge | ⟨next, hlink⟩
  · obtain ⟨fresh, hfresh, middle, htaken, hresult⟩ :=
      ensureTable_of_empty h.toAccounts hbound hindex hempty flags hcalm
    rw [hresult]
    exact ensureTable_link h hroot hpath hdescend hindex flags hempty hfresh htaken
  · rw [ensureTable_of_huge hbound hindex hhuge]
    refine ⟨h, rfl, fun _ ↦ rfl, Or.inr ⟨rfl, fun _ hpopulated ↦ ?_⟩⟩
    exact PopulatedBut.populated (slot index) hpopulated hdescend (ne_zero_of_has hhuge)
  · rw [ensureTable_of_link hbound hindex hlink]
    exact ensureTable_widen h hroot hpath hdescend hindex flags hlink

/-- A walk of several levels, by induction over the levels still to go. -/
theorem ensurePath_spec {indices : List (BitVec 16)} (h : KernelInv stock held roots s)
    (hroot : root ∈ roots) (hlength : path.length + indices.length ≤ 3)
    (hdescend : descend link (tables s) root path = some node)
    (hindices : ∀ index ∈ indices, index.toNat < 512) (flags : PageFlags)
    (hcalm : State.Calm s (ensurePath (intermediateFlags flags) s
      (tableAddress s.toStatics node) indices).2) :
    WalkResult stock held roots flags root s path
      (ensurePath (intermediateFlags flags) s (tableAddress s.toStatics node) indices).2
      (path ++ indices.map slot)
      (ensurePath (intermediateFlags flags) s (tableAddress s.toStatics node) indices).1 := by
  induction indices generalizing s node path with
  | nil =>
    have hmem := h.table_mem_stock (h.descend_mem hroot (by omega) hdescend)
    rw [List.map_nil, List.append_nil]
    exact ⟨h, rfl, fun _ ↦ rfl, Or.inl ⟨⟨node, hmem, rfl, hdescend⟩, fun _ hlinks ↦ hlinks,
      fun hpopulated ↦ hpopulated⟩⟩
  | cons index indices ih =>
    rw [List.length_cons] at hlength
    rw [List.forall_mem_cons] at hindices
    have hgrows := (ensureTable_proceeds s (entryAddress (tableAddress s.toStatics node) index)
      (intermediateFlags flags)).grows
    have hstep := fun hcalm ↦ ensureTable_spec h hroot (by omega) hdescend hindices.1 flags hcalm
    simp only [ensurePath] at hcalm ⊢
    generalize ensureTable s (entryAddress (tableAddress s.toStatics node) index)
      (intermediateFlags flags) = result at hcalm hgrows hstep
    obtain ⟨pointer, middle⟩ := result
    simp only at hcalm hgrows hstep ⊢
    by_cases hzero : pointer = 0
    · rw [if_pos hzero] at hcalm ⊢
      obtain ⟨hinv, hstatics, hinstalled, houtcome⟩ := hstep hcalm
      refine ⟨hinv, hstatics, hinstalled, Or.inr ⟨rfl, fun hnonnull hpopulated ↦ ?_⟩⟩
      rcases houtcome with hwalked | ⟨-, hstopped⟩
      · obtain ⟨next, hnext, hpointer, -⟩ := hwalked.target
        rw [hstatics, hzero] at hpointer
        exact absurd hpointer.symm (hnonnull next hnext)
      · exact hstopped hnonnull hpopulated
    · rw [if_neg hzero] at hcalm ⊢
      have hrest := (ensurePath_proceeds (intermediateFlags flags) middle pointer indices).grows
      obtain ⟨hfirst, hsecond⟩ := (State.calm_trans hgrows hrest).mp hcalm
      obtain ⟨hinv, hstatics, hinstalled, houtcome⟩ := hstep hfirst
      obtain hwalked := houtcome.resolve_right fun hstopped ↦ hzero hstopped.1
      obtain ⟨next, hnext, rfl, hreached⟩ := hwalked.target
      have hlength' : (path ++ [slot index]).length + indices.length ≤ 3 := by
        rw [List.length_append, List.length_singleton]
        omega
      obtain ⟨hinv', hstatics', hinstalled', houtcome'⟩ :=
        ih hinv hlength' hreached hindices.2 hsecond
      rw [List.append_assoc, List.singleton_append] at houtcome'
      rw [List.map_cons]
      refine ⟨hinv', hstatics'.trans hstatics, fun pml4 ↦ (hinstalled' pml4).trans
        (hinstalled pml4), ?_⟩
      rcases houtcome' with hwalked' | ⟨hstop, hstopped⟩
      · exact Or.inl ⟨hwalked'.target, fun hflags hlinks ↦ hwalked'.user hflags
          (hwalked.user hflags hlinks), fun hpopulated ↦
            hwalked'.populated (hwalked.populated hpopulated)⟩
      · exact Or.inr ⟨hstop, fun hnonnull hpopulated ↦
          hstopped (hstatics ▸ hnonnull) (hwalked.populated hpopulated)⟩

end Ensure

/-! ## Mapping one page -/

theorem Page.length_directory (page : Page) : (Page.directory page).length ≤ 3 := by
  have hslots := Page.length_slots_le page
  rwa [Page.slots, List.length_map] at hslots

theorem Page.directory_lt (page : Page) : ∀ index ∈ Page.directory page, index.toNat < 512 := by
  unfold Page.directory
  simp only
  split
  · simp only [List.forall_mem_cons, List.not_mem_nil, false_implies, implies_true, and_true,
      toNat_pml4Index, toNat_pdptIndex]
    omega
  · simp only [List.forall_mem_cons, List.not_mem_nil, false_implies, implies_true, and_true,
      toNat_pml4Index, toNat_pdptIndex, toNat_pdIndex]
    omega

theorem Page.leafIndex_lt (page : Page) : (Page.leafIndex page).toNat < 512 := by
  unfold Page.leafIndex
  simp only
  split
  · rw [toNat_pdIndex]
    omega
  · rw [toNat_ptIndex]
    omega

theorem tableAddress_inj (s : Statics) {left right : ℕ} (hleft : left < 2 ^ 40)
    (hright : right < 2 ^ 40) : tableAddress s left = tableAddress s right ↔ left = right := by
  constructor
  · unfold tableAddress
    intro h
    bv_omega
  · rintro rfl
    rfl

/-- What a mapping call does: it keeps the invariant, installs all its pages if it succeeds, and
leaves every table populated if `before` held. -/
structure MapResult (stock held roots : Set ℕ) (before : Prop) (pml4 : Word) (pages : List Page)
    (s : State) (result : Bool × State) : Prop where
  inv : KernelInv stock held roots result.2
  statics : result.2.toStatics = s.toStatics
  success : result.1 = true → installed result.2 pml4 = pages.reverse ++ installed s pml4
  populated : NonNull stock s.toStatics → before → Populated (tables result.2) roots

section MapOne

variable {stock held roots : Set ℕ} {s : State} {root node : ℕ}

/-- The leaf step of a mapping call. -/
theorem installLeaf_spec (h : KernelInv stock held roots s) (hroot : root ∈ roots)
    {page : Page} (hpage : Page.Admissible page) (hflags : PageFlags.Named page.flags)
    (hdescend : descend link (tables s) root (Page.slots page) = some node)
    (huser : has page.flags PageFlags.user = true →
      LinksHave (tables s) root (Page.slots page) PageFlags.user) :
    MapResult stock held roots (PopulatedBut (tables s) roots root (Page.slots page))
      (tableAddress s.toStatics root) [page] s
      (installLeaf s (tableAddress s.toStatics root) (tableAddress s.toStatics node) page) := by
  have hlength := Page.length_slots_le page
  have hrootBound := h.root_lt hroot
  have hnode := h.table_mem_stock (h.descend_mem hroot hlength hdescend)
  have hload := load_entryAddress s (h.stock_ok node hnode).1 (Page.leafIndex_lt page)
  have hok := h.forest.entries root hroot (Page.slots page) (Page.leafSlot page) _ hlength
    (entryAt_eq_some.mpr ⟨node, hdescend, rfl⟩)
  unfold installLeaf
  simp only
  rw [hload]
  by_cases hpresent : tables s node (slot (Page.leafIndex page)) &&& PageFlags.present = 0
  · rw [if_neg (not_not.mpr hpresent)]
    have hempty : tables s node (Page.leafSlot page) = 0 := by
      by_contra hne
      exact has_eq_true_iff.mp (hok.present hne) hpresent
    have hadded : ∀ other found, found ∈ framePages
        ((s.store (entryAddress (tableAddress s.toStatics node) (Page.leafIndex page))
          (Page.leafEntry page)).record (.mapped (tableAddress s.toStatics root) page)) other ↔
        found ∈ framePages s other ∨ (other = root ∧ found = page) := by
      intro other found
      simp only [framePages, State.record_toStatics, State.store_toStatics,
        installed_record_mapped, installed_store, Set.mem_ofPred_eq]
      by_cases hother : other < 2 ^ 40
      · by_cases hsame : root = other
        · subst hsame
          simp only [hother, true_and, if_true, List.mem_cons]
          exact or_comm
        · have hne := (tableAddress_inj s.toStatics hrootBound hother).not.mpr hsame
          simp only [hne, if_false, Ne.symm hsame, false_and, or_false]
      · have hne : other ≠ root := fun heq ↦ hother (heq ▸ hrootBound)
        simp only [hother, hne, false_and, or_false]
    have hforest := h.forest.install hroot hpage hflags hdescend hempty huser hadded
    obtain ⟨hinv, htables⟩ := h.toAccounts.store_entry hnode (Page.leafIndex_lt page)
      (Page.leafEntry page) ((s.store _ _).record _) rfl rfl
      (by rw [tableFrames_record_mapped, tableFrames_store]) hforest
    refine ⟨hinv, rfl, fun _ ↦ ?_, fun _ hpopulated ↦ ?_⟩
    · rw [installed_record_mapped, if_pos rfl, installed_store]
      rfl
    · rw [htables]
      exact PopulatedBut.write hpopulated hdescend (Page.leafEntry_ne_zero page)
        fun other hother route hroute ↦
          h.forest.descend_install hroot hpage hdescend hempty hother hroute
  · rw [if_pos hpresent]
    refine ⟨h, rfl, fun hfalse ↦ Bool.noConfusion hfalse, fun _ hpopulated ↦ ?_⟩
    refine PopulatedBut.populated (Page.leafSlot page) hpopulated hdescend
      fun hzero ↦ hpresent ?_
    rw [← Page.leafSlot, hzero]
    exact BitVec.zero_and

/-- A mapping call that meets no exhaustion walks to its last table without one. -/
theorem calm_ensurePath {pml4 : Word} {page : Page}
    (hadmitted : ¬ (pml4 = 0 ∨ ¬ Page.Admissible page))
    (hcalm : State.Calm s (mapOne s pml4 page).2) :
    State.Calm s (ensurePath (intermediateFlags page.flags) s pml4 (Page.directory page)).2 := by
  have hgrows := (ensurePath_proceeds (intermediateFlags page.flags) s pml4
    (Page.directory page)).grows
  simp only [mapOne, if_neg hadmitted] at hcalm
  split_ifs at hcalm
  · exact hcalm
  · exact ((State.calm_trans hgrows (installLeaf_proceeds _ _ _ _).grows).mp hcalm).1

/-- `map_page` and `map_page_large`. -/
theorem mapOne_spec (h : KernelInv stock held roots s) (hroot : root ∈ roots) {page : Page}
    (hflags : PageFlags.Named page.flags)
    (hcalm : State.Calm s (mapOne s (tableAddress s.toStatics root) page).2) :
    MapResult stock held roots (Populated (tables s) roots) (tableAddress s.toStatics root) [page]
      s (mapOne s (tableAddress s.toStatics root) page) := by
  by_cases hrefused : tableAddress s.toStatics root = 0 ∨ ¬ Page.Admissible page
  · rw [mapOne, if_pos hrefused]
    exact ⟨h, rfl, fun hfalse ↦ Bool.noConfusion hfalse, fun _ hpopulated ↦ hpopulated⟩
  · have hpage : Page.Admissible page := not_not.mp fun hnot ↦ hrefused (Or.inr hnot)
    have hlength : ([] : Path).length + (Page.directory page).length ≤ 3 := by
      rw [List.length_nil, Nat.zero_add]
      exact Page.length_directory page
    obtain ⟨hinv, hstatics, hinstalled, houtcome⟩ := ensurePath_spec h hroot hlength rfl
      (Page.directory_lt page) page.flags (calm_ensurePath hrefused hcalm)
    rw [List.nil_append] at houtcome
    rw [mapOne, if_neg hrefused]
    generalize ensurePath (intermediateFlags page.flags) s (tableAddress s.toStatics root)
      (Page.directory page) = result at hinv hstatics hinstalled houtcome
    obtain ⟨pointer, middle⟩ := result
    simp only at hinv hstatics hinstalled houtcome ⊢
    by_cases hzero : pointer = 0
    · rw [if_pos hzero]
      refine ⟨hinv, hstatics, fun hfalse ↦ Bool.noConfusion hfalse, fun hnonnull hpopulated ↦ ?_⟩
      rcases houtcome with hwalked | ⟨-, hstopped⟩
      · obtain ⟨next, hnext, hpointer, -⟩ := hwalked.target
        rw [hstatics, hzero] at hpointer
        exact absurd hpointer.symm (hnonnull next hnext)
      · exact hstopped hnonnull ((populatedBut_nil_iff root).mpr hpopulated)
    · rw [if_neg hzero]
      have hwalked := houtcome.resolve_right fun hstopped ↦ hzero hstopped.1
      obtain ⟨next, hnext, rfl, hreached⟩ := hwalked.target
      have hleaf := installLeaf_spec hinv hroot hpage hflags hreached fun huser ↦
        hwalked.user huser (linksHave_nil _ _ _)
      rw [hstatics] at hleaf ⊢
      refine ⟨hleaf.inv, hleaf.statics.trans hstatics, fun htrue ↦ ?_, fun hnonnull hpopulated ↦ ?_⟩
      · rw [hleaf.success htrue, hinstalled]
      · exact hleaf.populated (hstatics ▸ hnonnull)
          (hwalked.populated ((populatedBut_nil_iff root).mpr hpopulated))

/-- The loop of a range call, by induction over its pages. -/
theorem mapPages_spec {pages : List Page} (h : KernelInv stock held roots s)
    (hroot : root ∈ roots) (hflags : ∀ page ∈ pages, PageFlags.Named page.flags)
    (hcalm : State.Calm s (mapPages (tableAddress s.toStatics root) pages s).2) :
    MapResult stock held roots (Populated (tables s) roots) (tableAddress s.toStatics root) pages
      s (mapPages (tableAddress s.toStatics root) pages s) := by
  induction pages generalizing s with
  | nil => exact ⟨h, rfl, fun _ ↦ rfl, fun _ hpopulated ↦ hpopulated⟩
  | cons page pages ih =>
    rw [List.forall_mem_cons] at hflags
    have hgrows := (mapOne_proceeds s (tableAddress s.toStatics root) page).grows
    have hone := fun hcalm ↦ mapOne_spec h hroot hflags.1 hcalm
    rw [mapPages] at hcalm ⊢
    generalize mapOne s (tableAddress s.toStatics root) page = result at hcalm hgrows hone
    obtain ⟨returned, middle⟩ := result
    cases returned with
    | false =>
      obtain ⟨hinv, hstatics, -, hpopulated⟩ := hone hcalm
      exact ⟨hinv, hstatics, fun hfalse ↦ Bool.noConfusion hfalse, hpopulated⟩
    | true =>
      have hrest := (mapPages_proceeds (tableAddress s.toStatics root) pages middle).grows
      obtain ⟨hfirst, hsecond⟩ := (State.calm_trans hgrows hrest).mp hcalm
      obtain ⟨hinv, hstatics, hsuccess, hpopulated⟩ := hone hfirst
      have hpages := hsuccess rfl
      rw [← hstatics] at hsecond hpages ⊢
      have hloop := ih hinv hflags.2 hsecond
      refine ⟨hloop.inv, hloop.statics.trans hstatics, fun htrue ↦ ?_, fun hnonnull hbefore ↦ ?_⟩
      · rw [hloop.success htrue, hpages]
        simp
      · exact hloop.populated (hstatics ▸ hnonnull) (hpopulated hnonnull hbefore)

theorem rangePages_flags {virt phys size : Word} {flags : PageFlags} {large : Bool} {page : Page}
    (h : page ∈ rangePages virt phys size flags large) : page.flags = flags := by
  rw [rangePages, List.mem_map] at h
  obtain ⟨offset, -, rfl⟩ := h
  rfl

/-- `map_range` and `map_range_large`. -/
theorem mapAll_spec {space : AddressSpace} {virt phys size : Word} {flags : PageFlags}
    {large : Bool} (h : KernelInv stock held roots s) (hroot : root ∈ roots)
    (hspace : space.pml4 = tableAddress s.toStatics root) (hflags : PageFlags.Named flags)
    (hcalm : State.Calm s (mapAll s space virt phys size flags large).2) :
    MapResult stock held roots (Populated (tables s) roots) space.pml4
      (rangePages virt phys size flags large) s
      (mapAll s space virt phys size flags large) := by
  unfold mapAll at hcalm ⊢
  split at hcalm
  · rename_i hrefused
    rw [if_pos hrefused]
    exact ⟨h, rfl, fun hfalse ↦ Bool.noConfusion hfalse, fun _ hpopulated ↦ hpopulated⟩
  · rename_i hadmitted
    rw [if_neg hadmitted, hspace] at *
    refine mapPages_spec h hroot (fun page hpage ↦ ?_) hcalm
    rw [rangePages_flags hpage]
    exact hflags

end MapOne

end WaterBuffalo.Vmm
