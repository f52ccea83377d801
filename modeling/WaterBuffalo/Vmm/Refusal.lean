import WaterBuffalo.Vmm.Mapping

/-!
# What a refused call leaves behind

The walk of a mapping function either ends in a fresh table, where the leaf is free, or follows
existing links all the way.  A call that is refused is of the second kind: it has taken no frame
and installed no table, and the only entries it has touched are the links on its way, which may
have gained the `User` flag before the last check refused the page.
-/

namespace WaterBuffalo.Vmm

open Pmm TableForest

/-- Nothing differs between the two states but the links a descent from `node` along `path`
follows; these have gained the flags of an intermediate entry. -/
structure OnlyWidened (flags : PageFlags) (node : ℕ) (path : Path) (s later : State) : Prop where
  statics : later.toStatics = s.toStatics
  freeFrameCount : later.freeFrameCount = s.freeFrameCount
  used_eq : ∀ position < 64 * s.bitmapWords.toNat, used later position = used s position
  tableFrames_eq : tableFrames later = tableFrames s
  widened : ∀ table index, Follows link (tables s) node path table index →
    tables later table index = tables s table index ||| intermediateFlags flags
  kept : ∀ table index, ¬ Follows link (tables s) node path table index →
    tables later table index = tables s table index

/-- How a walk from `node` along `path` ends. -/
inductive WalkOutcome (stock : Set ℕ) (flags : PageFlags) (node : ℕ) (path : Path) (s : State)
    (result : Word × State) : Prop where
  /-- A table was missing, and the last one allocated is empty. -/
  | fresh (next : ℕ) (hmem : next ∈ stock) (hpointer : result.1 = tableAddress s.toStatics next)
      (hempty : ∀ index, tables result.2 next index = 0)
      (hmissing : descend link (tables s) node path = none)
  /-- All tables were there. -/
  | found (next : ℕ) (hmem : next ∈ stock) (hpointer : result.1 = tableAddress s.toStatics next)
      (hdescend : descend link (tables s) node path = some next)
      (hwidened : OnlyWidened flags node path s result.2)
  /-- A large page is in the way. -/
  | stopped (before : Path) (index : Fin kPageTableEntries) (table : ℕ)
      (hpointer : result.1 = 0) (hbefore : before ++ [index] <+: path)
      (hdescend : descend link (tables s) node before = some table)
      (hhuge : has (tables s table index) PageFlags.huge = true)
      (hmissing : descend link (tables s) node path = none)
      (hwidened : OnlyWidened flags node path s result.2)

section Walk

variable {stock held roots : Set ℕ} {s : State} {root node : ℕ} {path : Path} {index : BitVec 16}
  {indices : List (BitVec 16)} {flags : PageFlags}

theorem OnlyWidened.of_not_follows {node : ℕ} {path : Path}
    (h : ∀ table index, ¬ Follows link (tables s) node path table index) :
    OnlyWidened flags node path s s where
  statics := rfl
  freeFrameCount := rfl
  used_eq := fun _ _ ↦ rfl
  tableFrames_eq := rfl
  widened := fun table index hfollows ↦ absurd hfollows (h table index)
  kept := fun _ _ _ ↦ rfl

/-- One link is widened, and then the links below it. -/
theorem OnlyWidened.cons {later : State} {next : ℕ} {rest : Path}
    (hrest : OnlyWidened flags next rest
      (s.store (entryAddress (tableAddress s.toStatics node) index)
        (tables s node (slot index) ||| intermediateFlags flags)) later)
    (h : KernelInv stock held roots s) (hnode : node ∈ stock) (hindex : index.toNat < 512)
    (hlink : link (tables s node (slot index)) = some next)
    (habove : ¬ Follows link (tables s) next rest node (slot index)) :
    OnlyWidened flags node (slot index :: rest) s later := by
  obtain ⟨hbound, -, hclear⟩ := h.stock_ok node hnode
  rw [entryAddress_tableAddress _ _ hindex] at hrest
  have htables := tables_store s hbound (slot index)
    (tables s node (slot index) ||| intermediateFlags flags)
  have hsame : ∀ table position, link (put (tables s) node (slot index)
      (tables s node (slot index) ||| intermediateFlags flags) table position) =
        link (tables s table position) := by
    intro table position
    by_cases heq : table = node ∧ position = slot index
    · obtain ⟨rfl, rfl⟩ := heq
      rw [put_self, PagingForest.link_widen hlink flags, hlink]
    · rw [put_of_ne heq]
  obtain ⟨hstatics, hcount, hused, hframes, hwidened, hkept⟩ := hrest
  rw [htables] at hwidened hkept
  simp only [follows_congr hsame] at hwidened hkept
  refine ⟨hstatics, hcount, fun position hposition ↦ ?_, ?_, fun table position hfollows ↦ ?_,
    fun table position hfollows ↦ ?_⟩
  · rw [hused position hposition, used_store_entry hclear _ _ hposition]
  · rw [hframes, tableFrames_store]
  · rcases (follows_cons hlink).mp hfollows with ⟨rfl, rfl⟩ | hbelow
    · rw [hkept table _ habove, put_self]
    · rw [hwidened table position hbelow, put_of_ne]
      rintro ⟨rfl, rfl⟩
      exact habove hbelow
  · rw [follows_cons hlink, not_or] at hfollows
    rw [hkept table position hfollows.2, put_of_ne hfollows.1]

/-- Widening a link changes no descent. -/
theorem descend_widened {next : ℕ} (hnode : node < 2 ^ 40) (hindex : index.toNat < 512)
    (hlink : link (tables s node (slot index)) = some next) (flags : PageFlags) (start : ℕ)
    (route : Path) :
    descend link (tables (s.store (entryAddress (tableAddress s.toStatics node) index)
        (tables s node (slot index) ||| intermediateFlags flags))) start route =
      descend link (tables s) start route := by
  rw [entryAddress_tableAddress _ _ hindex, tables_store s hnode]
  exact descend_put_of_child_eq ((PagingForest.link_widen hlink flags).trans hlink.symm) start route

/-- A walk that widens a link first. -/
theorem WalkOutcome.cons {next : ℕ} {rest : Path} {result : Word × State}
    (h : KernelInv stock held roots s) (hnode : node ∈ stock) (hindex : index.toNat < 512)
    (hlink : link (tables s node (slot index)) = some next)
    (habove : ¬ Follows link (tables s) next rest node (slot index))
    (hrest : WalkOutcome stock flags next rest
      (s.store (entryAddress (tableAddress s.toStatics node) index)
        (tables s node (slot index) ||| intermediateFlags flags)) result) :
    WalkOutcome stock flags node (slot index :: rest) s result := by
  have hbound := (h.stock_ok node hnode).1
  have hsame := descend_widened hbound hindex hlink flags
  have hdescends : ∀ route, descend link (tables s) node (slot index :: route) =
      descend link (tables s) next route := by
    intro route
    rw [descend, hlink, Option.bind_some]
  rcases hrest with ⟨last, hlast, hpointer, hempty, hmissing⟩ |
    ⟨last, hlast, hpointer, hdescend, hwidened⟩ |
    ⟨before, position, table, hpointer, hbefore, hdescend, hhuge, hmissing, hwidened⟩
  · refine .fresh last hlast hpointer hempty ?_
    rw [hdescends, ← hsame, hmissing]
  · refine .found last hlast hpointer ?_ (hwidened.cons h hnode hindex hlink habove)
    rw [hdescends, ← hsame, hdescend]
  · refine .stopped (slot index :: before) position table hpointer ?_ ?_ ?_ ?_
      (hwidened.cons h hnode hindex hlink habove)
    · rw [List.cons_append, List.cons_prefix_cons]
      exact ⟨rfl, hbefore⟩
    · rw [hdescends, ← hsame, hdescend]
    · rw [entryAddress_tableAddress _ _ hindex, tables_store s hbound] at hhuge
      by_cases heq : table = node ∧ position = slot index
      · obtain ⟨rfl, rfl⟩ := heq
        rwa [put_self, has_or, has_huge_intermediateFlags, Bool.or_false] at hhuge
      · rwa [put_of_ne heq] at hhuge
    · rw [hdescends, ← hsame, hmissing]

/-- The first step of a walk that does not run out of frames. -/
theorem calm_ensureTable {middleFlags : PageFlags} {table : Word}
    (hcalm : State.Calm s (ensurePath middleFlags s table (index :: indices)).2) :
    State.Calm s (ensureTable s (entryAddress table index) middleFlags).2 := by
  have hgrows := (ensureTable_proceeds s (entryAddress table index) middleFlags).grows
  simp only [ensurePath] at hcalm
  split_ifs at hcalm
  · exact hcalm
  · exact ((State.calm_trans hgrows (ensurePath_proceeds _ _ _ _).grows).mp hcalm).1

/-- A walk after its first step. -/
theorem ensurePath_cons {middleFlags : PageFlags} {table pointer : Word} {middle : State}
    (hstep : ensureTable s (entryAddress table index) middleFlags = (pointer, middle))
    (hpointer : pointer ≠ 0)
    (hcalm : State.Calm s (ensurePath middleFlags s table (index :: indices)).2) :
    ensurePath middleFlags s table (index :: indices) =
        ensurePath middleFlags middle pointer indices ∧
      State.Calm middle (ensurePath middleFlags middle pointer indices).2 := by
  have hgrows := (ensureTable_proceeds s (entryAddress table index) middleFlags).grows
  have hwalk : ensurePath middleFlags s table (index :: indices) =
      ensurePath middleFlags middle pointer indices := by
    simp only [ensurePath, hstep, hpointer, if_false]
  rw [hstep] at hgrows
  rw [hwalk] at hcalm
  exact ⟨hwalk, ((State.calm_trans hgrows (ensurePath_proceeds _ _ _ _).grows).mp hcalm).2⟩

/-- A missing table is linked: the way goes on in it, and it is empty. -/
theorem ensureTable_fresh (h : KernelInv stock held roots s)
    (hnonnull : NonNull stock s.toStatics) (hroot : root ∈ roots)
    (hpath : path.length < 3) (hdescend : descend link (tables s) root path = some node)
    (hindex : index.toNat < 512) (hempty : tables s node (slot index) = 0)
    (hcalm : State.Calm s (ensureTable s (entryAddress (tableAddress s.toStatics node) index)
      (intermediateFlags flags)).2) :
    ∃ fresh ∈ stock, ∃ later,
      ensureTable s (entryAddress (tableAddress s.toStatics node) index)
        (intermediateFlags flags) = (tableAddress s.toStatics fresh, later) ∧
      KernelInv stock held roots later ∧ later.toStatics = s.toStatics ∧
      descend link (tables later) root (path ++ [slot index]) = some fresh ∧
      ∀ position, tables later fresh position = 0 := by
  have hbound := h.descend_lt hroot (Nat.le_of_lt hpath) hdescend
  have hspec := ensureTable_spec h hroot hpath hdescend hindex flags hcalm
  obtain ⟨fresh, hfresh, middle, htaken, hresult⟩ :=
    ensureTable_of_empty h.toAccounts hbound hindex hempty flags hcalm
  rw [hresult] at hspec
  have hwalked := hspec.outcome.resolve_right fun hstopped ↦ hnonnull fresh hfresh hstopped.1
  obtain ⟨next, hnext, hpointer, hreached⟩ := hwalked.target
  have hfreshBound := (h.stock_ok fresh hfresh).1
  obtain rfl : fresh = next := by
    rw [hspec.statics] at hpointer
    exact (tableAddress_inj _ hfreshBound (h.stock_ok next hnext).1).mp hpointer
  refine ⟨fresh, hfresh, _, hresult, hspec.inv, hspec.statics, hreached, fun position ↦ ?_⟩
  have hne : ¬ (fresh = node ∧ position = slot index) := fun heq ↦
    htaken.notTaken h.toAccounts
      (heq.1 ▸ h.descend_mem hroot (Nat.le_of_lt hpath) hdescend)
  rw [← htaken.statics, entryAddress_tableAddress _ _ hindex, tables_store middle hbound,
    put_of_ne hne, htaken.tables_fresh]

/-- A walk that starts in an empty table ends in an empty table. -/
theorem ensurePath_of_empty (h : KernelInv stock held roots s)
    (hnonnull : NonNull stock s.toStatics) (hroot : root ∈ roots)
    (hlength : path.length + indices.length ≤ 3)
    (hdescend : descend link (tables s) root path = some node)
    (hempty : ∀ index, tables s node index = 0)
    (hindices : ∀ index ∈ indices, index.toNat < 512)
    (hcalm : State.Calm s (ensurePath (intermediateFlags flags) s
      (tableAddress s.toStatics node) indices).2) :
    ∃ next ∈ stock, (ensurePath (intermediateFlags flags) s (tableAddress s.toStatics node)
        indices).1 = tableAddress s.toStatics next ∧
      ∀ index, tables (ensurePath (intermediateFlags flags) s (tableAddress s.toStatics node)
        indices).2 next index = 0 := by
  induction indices generalizing s node path with
  | nil => exact ⟨node, h.table_mem_stock (h.descend_mem hroot (by omega) hdescend), rfl, hempty⟩
  | cons index indices ih =>
    rw [List.length_cons] at hlength
    rw [List.forall_mem_cons] at hindices
    obtain ⟨fresh, hfresh, later, hstep, hinv, hstatics, hreached, hzero⟩ := ensureTable_fresh h
      hnonnull hroot (by omega) hdescend hindices.1 (hempty (slot index)) (calm_ensureTable hcalm)
    obtain ⟨hwalk, hrest⟩ := ensurePath_cons hstep (hnonnull fresh hfresh) hcalm
    have hlength' : (path ++ [slot index]).length + indices.length ≤ 3 := by
      rw [List.length_append, List.length_singleton]
      omega
    rw [hwalk]
    rw [← hstatics] at hnonnull hrest ⊢
    exact ih hinv hnonnull hlength' hreached hzero hindices.2 hrest

/-- **How a walk ends**, by induction over the levels still to go. -/
theorem ensurePath_outcome (h : KernelInv stock held roots s) (hnonnull : NonNull stock s.toStatics)
    (hroot : root ∈ roots) (hlength : path.length + indices.length ≤ 3)
    (hdescend : descend link (tables s) root path = some node)
    (hindices : ∀ index ∈ indices, index.toNat < 512)
    (hcalm : State.Calm s (ensurePath (intermediateFlags flags) s
      (tableAddress s.toStatics node) indices).2) :
    WalkOutcome stock flags node (indices.map slot) s
      (ensurePath (intermediateFlags flags) s (tableAddress s.toStatics node) indices) := by
  induction indices generalizing s node path with
  | nil =>
    exact .found node (h.table_mem_stock (h.descend_mem hroot (by omega) hdescend)) rfl rfl
      (OnlyWidened.of_not_follows fun table index ↦ not_follows_nil node table index)
  | cons index indices ih =>
    rw [List.length_cons] at hlength
    rw [List.forall_mem_cons] at hindices
    rw [List.map_cons]
    have hbound := h.descend_lt hroot (by omega) hdescend
    have hnode := h.table_mem_stock (h.descend_mem hroot (by omega) hdescend)
    have hfirst := calm_ensureTable hcalm
    have hlength' : (path ++ [slot index]).length + indices.length ≤ 3 := by
      rw [List.length_append, List.length_singleton]
      omega
    have hok := h.forest.entries root hroot path (slot index) _ (by omega)
      (entryAt_eq_some.mpr ⟨node, hdescend, rfl⟩)
    rcases hok.cases with hempty | hhuge | ⟨next, hlink⟩
    · obtain ⟨fresh, hfresh, later, hstep, hinv, hstatics, hreached, hzero⟩ :=
        ensureTable_fresh h hnonnull hroot (by omega) hdescend hindices.1 hempty hfirst
      obtain ⟨hwalk, hrest⟩ := ensurePath_cons hstep (hnonnull fresh hfresh) hcalm
      rw [← hstatics] at hrest
      obtain ⟨last, hlast, hpointer, hlastEmpty⟩ := ensurePath_of_empty hinv (hstatics ▸ hnonnull)
        hroot hlength' hreached hzero hindices.2 hrest
      rw [hstatics] at hpointer hlastEmpty
      rw [hwalk]
      refine .fresh last hlast hpointer hlastEmpty ?_
      rw [descend, hempty]
      rfl
    · have hstep := ensureTable_of_huge hbound hindices.1 hhuge (intermediateFlags flags)
      have hnone := link_eq_none_of_huge hhuge
      have hwalk : ensurePath (intermediateFlags flags) s (tableAddress s.toStatics node)
          (index :: indices) = (0, s) := by
        rw [ensurePath, hstep]
        rfl
      rw [hwalk]
      refine .stopped [] (slot index) node rfl (by simp) rfl hhuge ?_
        (OnlyWidened.of_not_follows fun table position ↦ not_follows_of_unlinked hnone)
      rw [descend, hnone]
      rfl
    · have hstep := ensureTable_of_link hbound hindices.1 hlink flags
      have hwiden := ensureTable_widen h hroot (by omega) hdescend hindices.1 flags hlink
      have habove := h.forest.unshared.not_follows_above (slot index) hroot
        (by rw [List.length_map]; omega : path.length + 1 + (indices.map slot).length ≤ 3)
        hdescend hlink
      have hreached : descend link (tables s) root (path ++ [slot index]) = some next :=
        descend_concat_eq_some.mpr ⟨node, hdescend, hlink⟩
      have hnext := h.table_mem_stock (h.descend_mem hroot (by omega) hreached)
      obtain ⟨hwalk, hrest⟩ := ensurePath_cons hstep (hnonnull next hnext) hcalm
      rw [hwalk]
      rw [← descend_widened hbound hindices.1 hlink flags] at hreached
      exact WalkOutcome.cons h hnode hindices.1 hlink habove
        (ih hwiden.inv hnonnull hlength' hreached hindices.2 hrest)

end Walk

/-! ## Refused pages -/

/-- The page's own slot is taken. -/
def Occupied (store : Store) (root : ℕ) (page : Page) : Prop :=
  ∃ table, descend link store root (Page.slots page) = some table ∧
    store table (Page.leafSlot page) ≠ 0

/-- A large page is where the page's way should go on. -/
def Shadowed (store : Store) (root : ℕ) (page : Page) : Prop :=
  ∃ before index table, before ++ [index] <+: Page.slots page ∧
    descend link store root before = some table ∧ has (store table index) PageFlags.huge = true

section MapOne

variable {stock held roots : Set ℕ} {s : State} {root : ℕ} {page : Page}

/-- The leaf step succeeds exactly at an empty slot. -/
theorem installLeaf_fst {later : State} {next : ℕ} (hnext : next < 2 ^ 40)
    (hstatics : later.toStatics = s.toStatics) (pml4 : Word) (page : Page) :
    (installLeaf later pml4 (tableAddress s.toStatics next) page).1 =
      !has (tables later next (Page.leafSlot page)) PageFlags.present := by
  have hload := load_entryAddress later hnext (Page.leafIndex_lt page)
  rw [hstatics] at hload
  unfold installLeaf has
  simp only [hload, Page.leafSlot]
  split_ifs with hpresent
  · exact (congrArg (!·) (decide_eq_true hpresent)).symm
  · exact (congrArg (!·) (decide_eq_false hpresent)).symm

/-- Only a successful leaf step changes anything. -/
theorem installLeaf_snd {pml4 table : Word} (h : (installLeaf s pml4 table page).1 = false) :
    (installLeaf s pml4 table page).2 = s := by
  unfold installLeaf at h ⊢
  simp only at h ⊢
  split_ifs at h ⊢
  rfl

/-- **What one mapping call does.** It succeeds at a free slot; otherwise something is in the way
and only links on the way have changed. -/
theorem mapOne_outcome (h : KernelInv stock held roots s) (hnonnull : NonNull stock s.toStatics)
    (hroot : root ∈ roots) (hpage : Page.Admissible page)
    (hcalm : State.Calm s (mapOne s (tableAddress s.toStatics root) page).2) :
    ((mapOne s (tableAddress s.toStatics root) page).1 = true ∧
        ¬ Occupied (tables s) root page) ∨
      ((mapOne s (tableAddress s.toStatics root) page).1 = false ∧
        (Shadowed (tables s) root page ∨ Occupied (tables s) root page) ∧
        OnlyWidened page.flags root (Page.slots page) s
          (mapOne s (tableAddress s.toStatics root) page).2) := by
  have hstock := h.table_mem_stock (h.forest.roots_subset_taken hroot)
  have hadmitted : ¬ (tableAddress s.toStatics root = 0 ∨ ¬ Page.Admissible page) := by
    rw [not_or, not_not]
    exact ⟨hnonnull root hstock, hpage⟩
  have hlength : ([] : Path).length + (Page.directory page).length ≤ 3 := by
    rw [List.length_nil, Nat.zero_add]
    exact Page.length_directory page
  have hfirst := calm_ensurePath hadmitted hcalm
  have houtcome := ensurePath_outcome h hnonnull hroot hlength (descend_nil root)
    (Page.directory_lt page) hfirst
  obtain ⟨hinv, hstatics, -, -⟩ := ensurePath_spec h hroot hlength (descend_nil root)
    (Page.directory_lt page) page.flags hfirst
  simp only [mapOne, if_neg hadmitted]
  generalize ensurePath (intermediateFlags page.flags) s (tableAddress s.toStatics root)
    (Page.directory page) = result at houtcome hinv hstatics ⊢
  obtain ⟨pointer, later⟩ := result
  simp only at hinv hstatics ⊢
  rcases houtcome with ⟨next, hnext, hpointer, hempty, hmissing⟩ |
    ⟨next, hnext, hpointer, hdescend, hwidened⟩ |
    ⟨before, index, table, hpointer, hbefore, hdescend, hhuge, -, hwidened⟩
  · simp only at hpointer hempty
    rw [hpointer, if_neg (hnonnull next hnext)]
    refine Or.inl ⟨?_, ?_⟩
    · rw [installLeaf_fst (h.stock_ok next hnext).1 hstatics _ page, hempty]
      exact congrArg (!·) (has_zero _)
    · rintro ⟨table, htable, -⟩
      rw [Page.slots, hmissing] at htable
      cases htable
  · simp only at hpointer hwidened
    -- The leaf's own slot is below every link of the way, so the walk has not touched it.
    have hslot := hwidened.kept next (Page.leafSlot page)
      (h.forest.unshared.not_follows_end hroot (Page.length_slots_le page) hdescend)
    have hreturned := installLeaf_fst (h.stock_ok next hnext).1 hstatics
      (tableAddress s.toStatics root) page
    rw [hslot] at hreturned
    rw [hpointer, if_neg (hnonnull next hnext)]
    by_cases hempty : tables s next (Page.leafSlot page) = 0
    · refine Or.inl ⟨?_, ?_⟩
      · rw [hreturned, hempty]
        exact congrArg (!·) (has_zero _)
      · rintro ⟨table, htable, hoccupied⟩
        obtain rfl : next = table := Option.some.inj (hdescend.symm.trans htable)
        exact hoccupied hempty
    · have hok := h.forest.entries root hroot (Page.slots page) (Page.leafSlot page) _
        (Page.length_slots_le page) (entryAt_eq_some.mpr ⟨next, hdescend, rfl⟩)
      rw [hok.present hempty] at hreturned
      refine Or.inr ⟨hreturned, Or.inr ⟨next, hdescend, hempty⟩, ?_⟩
      rw [installLeaf_snd hreturned]
      exact hwidened
  · simp only at hpointer hwidened
    rw [if_pos hpointer]
    exact Or.inr ⟨rfl, Or.inl ⟨before, index, table, hbefore, hdescend, hhuge⟩, hwidened⟩

end MapOne

end WaterBuffalo.Vmm
