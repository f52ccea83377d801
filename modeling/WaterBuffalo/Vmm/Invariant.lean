import WaterBuffalo.Vmm.Exhaustion
import WaterBuffalo.Vmm.Forest

/-!
# The memory manager's invariant

The frames of the allocator's stock are free, held by clients or used for tables, and the tables
form a forest whose leaves are the installed pages.  Every paging function keeps the invariant as
long as no table is needed when no frame is free.  One lemma per function says which change of the
store of tables it makes; the forest's own lemmas do the rest.
-/

namespace WaterBuffalo.Vmm

open Pmm TableForest

/-! ## Ghost state -/

/-- The pages installed in the space whose PML4 is in the frame `root`. -/
def framePages (s : State) (root : ℕ) : Set Page :=
  {page | root < 2 ^ 40 ∧ page ∈ installed s (tableAddress s.toStatics root)}

section Ghost

variable (s : State) (address value : Word)

@[simp] theorem tableFrames_store : tableFrames (s.store address value) = tableFrames s := by
  simp [tableFrames]

@[simp] theorem installed_store (pml4 : Word) :
    installed (s.store address value) pml4 = installed s pml4 := by
  simp [installed]

@[simp] theorem tableFrames_record_mapped (pml4 : Word) (page : Page) :
    tableFrames (s.record (.mapped pml4 page)) = tableFrames s := by
  simp [tableFrames]

theorem installed_record_mapped (pml4 table : Word) (page : Page) :
    installed (s.record (.mapped pml4 page)) table =
      if pml4 = table then page :: installed s table else installed s table := by
  simp only [installed, State.record_trace, List.filterMap_cons]
  split_ifs <;> rfl

theorem tableFrames_record_tableTaken (physical : Word) :
    tableFrames (s.record (.tableTaken physical)) =
      insert (physical.toNat / 4096) (tableFrames s) := by
  ext frame
  simp only [tableFrames, State.record_trace, List.mem_cons, Event.tableTaken.injEq,
    Set.mem_ofPred_eq, Set.mem_insert_iff]
  constructor
  · rintro ⟨other, rfl | hold, rfl⟩
    · exact Or.inl rfl
    · exact Or.inr ⟨other, hold, rfl⟩
  · rintro (rfl | ⟨other, hold, rfl⟩)
    · exact ⟨physical, Or.inl rfl, rfl⟩
    · exact ⟨other, Or.inr hold, rfl⟩

@[simp] theorem installed_record_tableTaken (physical pml4 : Word) :
    installed (s.record (.tableTaken physical)) pml4 = installed s pml4 := by
  simp [installed]

theorem clearTable_ghost (table : Word) :
    tableFrames (clearTable s table) = tableFrames s ∧
      ∀ pml4, installed (clearTable s table) pml4 = installed s pml4 := by
  apply Run.foldl_range_induction
    (fun (t : State) index ↦ t.store (table + 8 * BitVec.ofNat 64 index) 0)
    (fun _ t ↦ tableFrames t = tableFrames s ∧ ∀ pml4, installed t pml4 = installed s pml4)
  · exact ⟨rfl, fun _ ↦ rfl⟩
  · rintro index t - ⟨hframes, hinstalled⟩
    exact ⟨by rw [tableFrames_store, hframes], fun pml4 ↦ by rw [installed_store, hinstalled]⟩

theorem allocFrame_ghost :
    tableFrames (allocFrame s).2 = tableFrames s ∧
      ∀ pml4, installed (allocFrame s).2 pml4 = installed s pml4 := by
  unfold allocFrame
  split
  · simp [tableFrames, installed]
  · unfold setFrameUsed
    split <;> simp [tableFrames, installed]

end Ghost

/-! ## The invariant -/

/-- Every frame of the stock is free, held by a client or used for a table, and in a place where
tables and bitmap do not meet. -/
structure Accounts (stock held : Set ℕ) (s : State) : Prop where
  sound : Sound s
  stock_ok : ∀ frame ∈ stock, frame < 2 ^ 40 ∧ frame < s.frameCount.toNat ∧
    ClearOfBitmap s.toStatics frame
  stock_iff : ∀ frame, frame ∈ stock ↔ Free s frame ∨ frame ∈ held ∨ frame ∈ tableFrames s
  free_not_held : ∀ frame, Free s frame → frame ∉ held
  free_not_table : ∀ frame, Free s frame → frame ∉ tableFrames s
  held_not_table : ∀ frame ∈ held, frame ∉ tableFrames s

/-- The invariant of the memory manager. -/
structure KernelInv (stock held roots : Set ℕ) (s : State) : Prop
    extends Accounts stock held s where
  forest : PagingForest (tables s) roots (tableFrames s) (framePages s)

namespace KernelInv

variable {stock held roots : Set ℕ} {s : State}

theorem table_mem_stock (h : KernelInv stock held roots s) {frame : ℕ}
    (hframe : frame ∈ tableFrames s) : frame ∈ stock :=
  (h.stock_iff frame).mpr (Or.inr (Or.inr hframe))

/-- A table of the forest is in a frame taken for a table. -/
theorem descend_mem (h : KernelInv stock held roots s) {root node : ℕ} {path : Path}
    (hroot : root ∈ roots) (hpath : path.length ≤ 3)
    (hdescend : descend link (tables s) root path = some node) : node ∈ tableFrames s :=
  (h.forest.taken_iff node).mpr ⟨root, hroot, path, hpath, hdescend⟩

theorem descend_lt (h : KernelInv stock held roots s) {root node : ℕ} {path : Path}
    (hroot : root ∈ roots) (hpath : path.length ≤ 3)
    (hdescend : descend link (tables s) root path = some node) : node < 2 ^ 40 :=
  (h.stock_ok node (h.table_mem_stock (h.descend_mem hroot hpath hdescend))).1

theorem root_lt (h : KernelInv stock held roots s) {root : ℕ} (hroot : root ∈ roots) :
    root < 2 ^ 40 :=
  h.descend_lt hroot (Nat.zero_le _) (descend_nil root)

end KernelInv

/-- The invariant after a change that leaves the frames' owners alone. -/
theorem Accounts.kernelInv {stock held roots : Set ℕ} {s later : State} (h : Accounts stock held s)
    (hstatics : later.toStatics = s.toStatics)
    (hused : ∀ position < 64 * s.bitmapWords.toNat, used later position = used s position)
    (hframes : tableFrames later = tableFrames s)
    (hforest : PagingForest (tables later) roots (tableFrames s) (framePages later)) :
    KernelInv stock held roots later := by
  obtain ⟨hsound, hfree⟩ := sound_of_used h.sound hstatics hused
  refine ⟨⟨hsound, ?_, ?_, ?_, ?_, ?_⟩, ?_⟩
  · rw [hstatics]
    exact h.stock_ok
  · intro frame
    rw [hfree, hframes]
    exact h.stock_iff frame
  · intro frame hframe
    exact h.free_not_held frame ((hfree frame).mp hframe)
  · intro frame hframe
    rw [hframes]
    exact h.free_not_table frame ((hfree frame).mp hframe)
  · rw [hframes]
    exact h.held_not_table
  · rw [hframes]
    exact hforest

/-! ## Allocating a table -/

theorem exhausted_of_scan_none {s : State} (hscan : scanBitmap s = none) :
    ¬ State.Calm s (allocateTable s).2 := by
  have hstate : (allocateTable s).2 = (clearTable (s.record .exhausted)
      (physicalToVirtual s 0)).record (.tableTaken 0) := by
    unfold allocateTable
    rw [allocFrame_of_scan_none hscan]
    rfl
  obtain ⟨-, new, htrace, -, -⟩ := clearTable_trace (s.record .exhausted) (physicalToVirtual s 0)
  have hnew : (allocateTable s).2.trace = (.tableTaken 0 :: (new ++ [.exhausted])) ++ s.trace := by
    rw [hstate, State.record_trace, htrace, State.record_trace]
    simp
  rw [State.Calm, State.since_eq hnew]
  simp

theorem tables_allocFrame {s : State} (hs : Sound s) {offered : Word}
    (hscan : scanBitmap s = some offered) {frame : ℕ} (hclear : ClearOfBitmap s.toStatics frame) :
    tables (allocFrame s).2 frame = tables s frame := by
  have hvalid := (isLeast_of_scan_some hs hscan).1.1
  have hword : (offered / kWordBits).toNat < s.bitmapWords.toNat := by
    have hbits := hs.layout.lt_bits hvalid
    rw [BitVec.toNat_udiv, toNat_kWordBits]
    omega
  have hstore : tables (allocFrame s).2 = tables (setFrameUsed s offered) := by
    simp only [allocFrame, hscan]
    rfl
  rw [hstore, setFrameUsed, (frameValid_iff s offered).mpr hvalid]
  exact tables_store_bitmap hclear hword _

/-- What a successful `allocate_table` did. -/
structure TableTaken (stock : Set ℕ) (s later : State) (fresh : ℕ) : Prop where
  free : Free s fresh
  statics : later.toStatics = s.toStatics
  sound : Sound later
  free_iff : ∀ frame, Free later frame ↔ Free s frame ∧ frame ≠ fresh
  tables_fresh : ∀ index, tables later fresh index = 0
  tables_other : ∀ frame ∈ stock, frame ≠ fresh → tables later frame = tables s frame
  tableFrames_eq : tableFrames later = insert fresh (tableFrames s)
  installed_eq : ∀ pml4, installed later pml4 = installed s pml4

theorem allocateTable_spec {stock held : Set ℕ} {s : State} (h : Accounts stock held s)
    (hcalm : State.Calm s (allocateTable s).2) :
    ∃ fresh, fresh ∈ stock ∧
      (allocateTable s).1 =
        some ⟨BitVec.ofNat 64 (4096 * fresh), tableAddress s.toStatics fresh⟩ ∧
      TableTaken stock s (allocateTable s).2 fresh := by
  cases hscan : scanBitmap s with
  | none => exact absurd hcalm (exhausted_of_scan_none hscan)
  | some offered =>
    have hfree := (isLeast_of_scan_some h.sound hscan).1
    have hmem : offered.toNat ∈ stock := (h.stock_iff _).mpr (Or.inl hfree)
    obtain ⟨hbound, hvalid, hclear⟩ := h.stock_ok _ hmem
    have hphysical : (allocFrame s).1 = BitVec.ofNat 64 (4096 * offered.toNat) := by
      apply BitVec.eq_of_toNat_eq
      rw [toNat_allocFrame_fst h.sound hscan, BitVec.toNat_ofNat]
      omega
    have hne : (allocFrame s).1 ≠ BitVec.allOnes 64 := by
      rw [hphysical]
      intro heq
      have := congrArg BitVec.toNat heq
      rw [BitVec.toNat_ofNat, BitVec.toNat_allOnes] at this
      omega
    have hvirtual : physicalToVirtual (allocFrame s).2 (allocFrame s).1 =
        tableAddress s.toStatics offered.toNat := by
      rw [physicalToVirtual, allocFrame_toStatics, hphysical, tableAddress]
    have halloc : allocateTable s =
        (some ⟨(allocFrame s).1, tableAddress s.toStatics offered.toNat⟩,
          (clearTable (allocFrame s).2 (tableAddress (allocFrame s).2.toStatics
            offered.toNat)).record (.tableTaken (allocFrame s).1)) := by
      simp only [allocateTable, hne, if_false, hvirtual, allocFrame_toStatics]
    have hstatics := allocFrame_toStatics s
    have hclear' : ClearOfBitmap (allocFrame s).2.toStatics offered.toNat := hstatics ▸ hclear
    have hcleared := tables_clearTable (allocFrame s).2 hbound
    have hclearStatics := (clearTable_trace (allocFrame s).2
      (tableAddress (allocFrame s).2.toStatics offered.toNat)).1
    obtain ⟨hsound, hfreeIff⟩ := sound_of_used (allocFrame_sound h.sound) hclearStatics
      fun position hposition ↦ used_clearTable hclear' hposition
    obtain ⟨hallocFrames, hallocInstalled⟩ := allocFrame_ghost s
    obtain ⟨hclearFrames, hclearInstalled⟩ := clearTable_ghost (allocFrame s).2
      (tableAddress (allocFrame s).2.toStatics offered.toNat)
    refine ⟨offered.toNat, hmem, by rw [halloc, hphysical], ?_⟩
    rw [halloc]
    refine ⟨hfree, ?_, ?_, ?_, ?_, ?_, ?_, ?_⟩
    · rw [State.record_toStatics, hclearStatics, hstatics]
    · exact (sound_of_used hsound (State.record_toStatics _ _) fun position _ ↦
        used_record _ _ position).1
    · intro frame
      rw [free_record, hfreeIff, free_allocFrame h.sound hscan]
    · intro index
      rw [tables_record, hcleared]
      exact if_pos rfl
    · intro frame hframe hother
      rw [tables_record, hcleared, ← tables_allocFrame h.sound hscan (h.stock_ok frame hframe).2.2]
      funext index
      exact if_neg hother
    · have hframe : (BitVec.ofNat 64 (4096 * offered.toNat)).toNat / 4096 = offered.toNat := by
        rw [BitVec.toNat_ofNat]
        omega
      rw [tableFrames_record_tableTaken, hclearFrames, hallocFrames, hphysical, hframe]
    · intro pml4
      rw [installed_record_tableTaken, hclearInstalled, hallocInstalled]

namespace TableTaken

variable {stock held roots : Set ℕ} {s later : State} {fresh : ℕ}

/-- The fresh frame has moved from the free ones to the tables. -/
theorem accounts (h : Accounts stock held s) (htaken : TableTaken stock s later fresh) :
    Accounts stock held later := by
  refine ⟨htaken.sound, ?_, ?_, ?_, ?_, ?_⟩
  · rw [htaken.statics]
    exact h.stock_ok
  · intro frame
    rw [h.stock_iff, htaken.free_iff, htaken.tableFrames_eq, Set.mem_insert_iff]
    by_cases hframe : frame = fresh
    · subst hframe
      simp [htaken.free]
    · simp [hframe]
  · intro frame hframe
    exact h.free_not_held frame ((htaken.free_iff frame).mp hframe).1
  · intro frame hframe
    obtain ⟨hfree, hne⟩ := (htaken.free_iff frame).mp hframe
    rw [htaken.tableFrames_eq, Set.mem_insert_iff, not_or]
    exact ⟨hne, h.free_not_table frame hfree⟩
  · intro frame hframe
    rw [htaken.tableFrames_eq, Set.mem_insert_iff, not_or]
    refine ⟨?_, h.held_not_table frame hframe⟩
    rintro rfl
    exact h.free_not_held frame htaken.free hframe

theorem notTaken (h : Accounts stock held s) (htaken : TableTaken stock s later fresh) :
    fresh ∉ tableFrames s :=
  h.free_not_table fresh htaken.free

/-- The forest as it was stands in the later memory. -/
theorem tables_eq (h : KernelInv stock held roots s) (htaken : TableTaken stock s later fresh)
    {frame : ℕ} (hframe : frame ∈ tableFrames s) : tables later frame = tables s frame :=
  htaken.tables_other frame (h.table_mem_stock hframe) fun heq ↦
    htaken.notTaken h.toAccounts (heq ▸ hframe)

theorem framePages_eq (htaken : TableTaken stock s later fresh) :
    framePages later = framePages s := by
  funext root
  simp only [framePages, htaken.statics, htaken.installed_eq]

end TableTaken

/-- `create_address_space` adds a root in a fresh frame. -/
theorem createAddressSpace_spec {stock held roots : Set ℕ} {s : State} {out : AddressSpace}
    (h : KernelInv stock held roots s) (hcalm : State.Calm s (createAddressSpace s out).2.2) :
    ∃ fresh ∈ stock, (createAddressSpace s out).1 = true ∧
      (createAddressSpace s out).2.1 =
        ⟨tableAddress s.toStatics fresh, BitVec.ofNat 64 (4096 * fresh)⟩ ∧
      TableTaken stock s (createAddressSpace s out).2.2 fresh ∧
      KernelInv stock held (insert fresh roots) (createAddressSpace s out).2.2 := by
  have hstate : (createAddressSpace s out).2.2 = (allocateTable s).2 := by
    unfold createAddressSpace
    split <;> simp_all
  rw [hstate] at hcalm
  obtain ⟨fresh, hmem, hresult, htaken⟩ := allocateTable_spec h.toAccounts hcalm
  rw [hstate]
  refine ⟨fresh, hmem, ?_, ?_, htaken, htaken.accounts h.toAccounts, ?_⟩
  · unfold createAddressSpace
    split <;> simp_all
  · unfold createAddressSpace
    split <;> simp_all
  · rw [htaken.framePages_eq, htaken.tableFrames_eq]
    refine (h.forest.congr fun frame hframe ↦ htaken.tables_eq h hframe).addRoot
      (htaken.notTaken h.toAccounts) htaken.tables_fresh

end WaterBuffalo.Vmm
