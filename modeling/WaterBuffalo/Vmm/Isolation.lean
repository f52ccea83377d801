import WaterBuffalo.Foundation.Words
import WaterBuffalo.Pmm.FirstFit
import WaterBuffalo.Vmm.Spaces

/-!
# Clients and the memory manager keep apart

The memory manager works in the same memory as everybody else.  It writes its bitmap and the frames
it has taken for tables, and nothing else; and a client that writes only into frames it holds
reaches neither.  So in every interleaving of calls and writes the translations are those of the
installed pages, and a frame that a client holds has the content the clients gave it.
-/

namespace WaterBuffalo.Vmm

open Pmm TableForest

/-! ## The memory manager's own memory -/

/-- The bytes of a frame, through the direct map. -/
def InFrame (s : Statics) (frame : ℕ) (byte : Word) : Prop :=
  ByteMemory.Within (tableAddress s frame) 4096 byte

/-- The bytes of the bitmap and of the tables. -/
def Managed (s : State) (byte : Word) : Prop :=
  ByteMemory.Within s.bitmap (8 * s.bitmapWords.toNat) byte ∨
    ∃ frame ∈ tableFrames s, InFrame s.toStatics frame byte

/-- What a piece of the memory manager does: it writes into its own memory only. -/
structure Confined (s later : State) : Prop where
  statics : later.toStatics = s.toStatics
  grows : State.Grows s later
  kept : ∀ byte, ¬ Managed later byte → later.memory byte = s.memory byte

theorem tableFrames_mono {s later : State} (h : State.Grows s later) :
    tableFrames s ⊆ tableFrames later := by
  rintro frame ⟨physical, hevent, rfl⟩
  refine ⟨physical, ?_, rfl⟩
  rw [h.trace_eq]
  exact List.mem_append_right _ hevent

/-- A table is never given back. -/
theorem Managed.mono {s later : State} {byte : Word} (hstatics : later.toStatics = s.toStatics)
    (hgrows : State.Grows s later) (h : Managed s byte) : Managed later byte := by
  unfold Managed at h ⊢
  rw [hstatics]
  exact h.imp_right fun ⟨frame, hframe, hbyte⟩ ↦ ⟨frame, tableFrames_mono hgrows hframe, hbyte⟩

namespace Confined

theorem of_memory {s later : State} (hstatics : later.toStatics = s.toStatics)
    (hgrows : State.Grows s later) (hmemory : later.memory = s.memory) : Confined s later :=
  ⟨hstatics, hgrows, fun _ _ ↦ by rw [hmemory]⟩

theorem refl (s : State) : Confined s s :=
  of_memory rfl ⟨[], rfl⟩ rfl

theorem trans {s middle later : State} (hfirst : Confined s middle)
    (hsecond : Confined middle later) : Confined s later where
  statics := hsecond.statics.trans hfirst.statics
  grows := hfirst.grows.trans hsecond.grows
  kept := by
    intro byte houtside
    rw [hsecond.kept byte houtside, hfirst.kept byte]
    exact fun hmanaged ↦ houtside (hmanaged.mono hsecond.statics hsecond.grows)

theorem record (s : State) (event : Event) : Confined s (s.record event) :=
  of_memory rfl ⟨[event], rfl⟩ rfl

/-- A store reaches eight bytes. -/
theorem store {s : State} {address : Word} (value : Word)
    (h : ∀ byte, ByteMemory.Within address 8 byte → Managed s byte) :
    Confined s (s.store address value) where
  statics := rfl
  grows := ⟨[.stored address value], rfl⟩
  kept := by
    intro byte houtside
    refine ByteMemory.store64_of_not_within fun hbyte ↦ houtside ?_
    exact Managed.mono (s := s) rfl ⟨[.stored address value], rfl⟩ (h byte hbyte)

theorem store_bitmap {s : State} (hlayout : Layout s.toStatics) {word : Word}
    (hword : word.toNat < s.bitmapWords.toNat) (value : Word) :
    Confined s (s.store (bitmapAddress s word) value) := by
  refine store value fun byte hbyte ↦ Or.inl ?_
  have hcount := hlayout.frameCount_lt
  have hwords := hlayout.bitmapWords_eq
  unfold bitmapAddress at hbyte
  unfold ByteMemory.Within at hbyte ⊢
  bv_omega

theorem store_entry {s : State} {node : ℕ} (hnode : node ∈ tableFrames s) {index : BitVec 16}
    (hindex : index.toNat < 512) (value : Word) :
    Confined s (s.store (entryAddress (tableAddress s.toStatics node) index) value) := by
  refine store value fun byte hbyte ↦ Or.inr ⟨node, hnode, ?_⟩
  unfold entryAddress at hbyte
  unfold InFrame
  unfold ByteMemory.Within at hbyte ⊢
  bv_omega

end Confined

/-! ## Every call is confined -/

section Calls

variable {stock held roots : Set ℕ} {s : State}

theorem allocFrame_confined (hs : Sound s) : Confined s (allocFrame s).2 := by
  obtain ⟨new, htrace, -⟩ := allocFrame_trace s
  refine ⟨allocFrame_toStatics s, ⟨new, htrace⟩, fun byte houtside ↦ ?_⟩
  cases hscan : scanBitmap s with
  | none => rw [allocFrame_of_scan_none hscan, State.record_memory]
  | some frame =>
    apply allocFrame_outside hs hscan
    by_contra hinside
    rw [Nat.not_le] at hinside
    apply houtside
    left
    rwa [allocFrame_toStatics]

theorem freed_confined (hs : Sound s) (address : Word) : Confined s (freed s address) := by
  by_cases haccepts : Accepts s address
  · have hword : (address / kPageSize / kWordBits).toNat < s.bitmapWords.toNat := by
      have hbits := hs.layout.lt_bits haccepts.2.1
      rw [BitVec.toNat_udiv, BitVec.toNat_udiv, toNat_kWordBits, toNat_kPageSize]
      omega
    unfold freed freeFrame
    simp only
    split
    · rename_i later hok
      split_ifs at hok
      cases hok
      exact (Confined.store_bitmap hs.layout hword _).trans (Confined.of_memory rfl ⟨[], rfl⟩ rfl)
    · exact Confined.refl s
  · rw [freed_of_not_accepts haccepts]
    exact Confined.refl s

/-- Zeroing a table writes no byte outside it. -/
theorem clearTable_memory (s : State) (table : Word) {byte : Word}
    (houtside : 4096 ≤ (byte - table).toNat) :
    (clearTable s table).memory byte = s.memory byte := by
  apply Run.foldl_range_induction
    (fun (t : State) index ↦ t.store (table + 8 * BitVec.ofNat 64 index) 0)
    (fun _ t ↦ t.memory byte = s.memory byte)
  · rfl
  · rintro index t hindex hmemory
    rw [← hmemory]
    refine if_neg ?_
    have hlt : index < 512 := hindex
    bv_omega

theorem allocateTable_confined (h : Accounts stock held s)
    (hcalm : State.Calm s (allocateTable s).2) : Confined s (allocateTable s).2 := by
  obtain ⟨fresh, -, hresult, htaken⟩ := allocateTable_spec h hcalm
  have hgrows := (allocateTable_proceeds s).grows
  have halloc := allocFrame_confined h.sound
  refine ⟨htaken.statics, hgrows, fun byte houtside ↦ ?_⟩
  have htable : 4096 ≤ (byte - tableAddress s.toStatics fresh).toNat := by
    by_contra hinside
    rw [Nat.not_le] at hinside
    apply houtside
    right
    rw [htaken.tableFrames_eq, htaken.statics]
    exact ⟨fresh, Set.mem_insert _ _, hinside⟩
  have hbefore : ¬ Managed (allocFrame s).2 byte := by
    rintro (hbitmap | ⟨frame, hframe, hbyte⟩)
    · rw [halloc.statics] at hbitmap
      apply houtside
      left
      rwa [htaken.statics]
    · rw [(allocFrame_ghost s).1] at hframe
      rw [halloc.statics] at hbyte
      apply houtside
      right
      rw [htaken.tableFrames_eq, htaken.statics]
      exact ⟨frame, Set.mem_insert_of_mem _ hframe, hbyte⟩
  unfold allocateTable at hresult ⊢
  simp only at hresult ⊢
  split_ifs at hresult ⊢
  have hvirtual : physicalToVirtual (allocFrame s).2 (allocFrame s).1 =
      tableAddress s.toStatics fresh := by
    simp only [Option.some.injEq, AllocatedTable.mk.injEq] at hresult
    exact hresult.2
  rw [State.record_memory, hvirtual, clearTable_memory _ _ htable, halloc.kept byte hbefore]

theorem ensureTable_confined (h : Accounts stock held s) {node : ℕ}
    (hnode : node ∈ tableFrames s) {index : BitVec 16} (hindex : index.toNat < 512)
    (middleFlags : PageFlags)
    (hcalm : State.Calm s (ensureTable s (entryAddress (tableAddress s.toStatics node) index)
      middleFlags).2) :
    Confined s (ensureTable s (entryAddress (tableAddress s.toStatics node) index)
      middleFlags).2 := by
  have hgrows := (allocateTable_proceeds s).grows
  have halloc := fun hcalm ↦ allocateTable_confined h hcalm
  unfold ensureTable at hcalm ⊢
  split_ifs at hcalm ⊢
  · exact Confined.refl s
  · generalize allocateTable s = result at hcalm hgrows halloc ⊢
    obtain ⟨_ | table, middle⟩ := result
    · exact halloc hcalm
    · have hconfined := halloc
        ((State.calm_trans hgrows (Proceeds.store _ _ _).grows).mp hcalm).1
      simp only at hconfined ⊢
      rw [← hconfined.statics]
      exact hconfined.trans
        (Confined.store_entry (tableFrames_mono hconfined.grows hnode) hindex _)
  · exact Confined.store_entry hnode hindex _

variable {root : ℕ}

theorem ensurePath_confined {indices : List (BitVec 16)} {node : ℕ} {path : Path}
    (h : KernelInv stock held roots s) (hroot : root ∈ roots)
    (hlength : path.length + indices.length ≤ 3)
    (hdescend : descend link (tables s) root path = some node)
    (hindices : ∀ index ∈ indices, index.toNat < 512) (flags : PageFlags)
    (hcalm : State.Calm s (ensurePath (intermediateFlags flags) s
      (tableAddress s.toStatics node) indices).2) :
    Confined s (ensurePath (intermediateFlags flags) s (tableAddress s.toStatics node)
      indices).2 := by
  induction indices generalizing s node path with
  | nil => exact Confined.refl s
  | cons index indices ih =>
    rw [List.length_cons] at hlength
    rw [List.forall_mem_cons] at hindices
    have hnode := h.descend_mem hroot (by omega) hdescend
    have hgrows := (ensureTable_proceeds s (entryAddress (tableAddress s.toStatics node) index)
      (intermediateFlags flags)).grows
    have hconfined := fun hcalm ↦ ensureTable_confined h.toAccounts hnode hindices.1
      (intermediateFlags flags) hcalm
    have hspec := fun hcalm ↦ ensureTable_spec h hroot (by omega) hdescend hindices.1 flags hcalm
    simp only [ensurePath] at hcalm ⊢
    generalize ensureTable s (entryAddress (tableAddress s.toStatics node) index)
      (intermediateFlags flags) = result at hcalm hgrows hconfined hspec
    obtain ⟨pointer, middle⟩ := result
    simp only at hcalm hgrows hconfined hspec ⊢
    by_cases hzero : pointer = 0
    · rw [if_pos hzero] at hcalm ⊢
      exact hconfined hcalm
    · rw [if_neg hzero] at hcalm ⊢
      obtain ⟨hfirst, hsecond⟩ := (State.calm_trans hgrows
        (ensurePath_proceeds _ _ _ _).grows).mp hcalm
      obtain ⟨hinv, -, -, houtcome⟩ := hspec hfirst
      obtain hwalked := houtcome.resolve_right fun hstopped ↦ hzero hstopped.1
      obtain ⟨next, -, rfl, hreached⟩ := hwalked.target
      have hlength' : (path ++ [slot index]).length + indices.length ≤ 3 := by
        rw [List.length_append, List.length_singleton]
        omega
      exact (hconfined hfirst).trans (ih hinv hlength' hreached hindices.2 hsecond)

theorem installLeaf_confined {node : ℕ} (hnode : node ∈ tableFrames s) (pml4 : Word)
    (page : Page) :
    Confined s (installLeaf s pml4 (tableAddress s.toStatics node) page).2 := by
  unfold installLeaf
  simp only
  split_ifs
  · exact Confined.refl s
  · exact (Confined.store_entry hnode (Page.leafIndex_lt page) _).trans (Confined.record _ _)

theorem mapOne_confined (h : KernelInv stock held roots s) (hroot : root ∈ roots) {page : Page}
    (hcalm : State.Calm s (mapOne s (tableAddress s.toStatics root) page).2) :
    Confined s (mapOne s (tableAddress s.toStatics root) page).2 := by
  by_cases hrefused : tableAddress s.toStatics root = 0 ∨ ¬ Page.Admissible page
  · rw [mapOne, if_pos hrefused]
    exact Confined.refl s
  · have hlength : ([] : Path).length + (Page.directory page).length ≤ 3 := by
      rw [List.length_nil, Nat.zero_add]
      exact Page.length_directory page
    have hwalk := calm_ensurePath hrefused hcalm
    have hconfined := ensurePath_confined h hroot hlength rfl (Page.directory_lt page) page.flags
      hwalk
    obtain ⟨hinv, hstatics, -, houtcome⟩ := ensurePath_spec h hroot hlength rfl
      (Page.directory_lt page) page.flags hwalk
    rw [mapOne, if_neg hrefused]
    generalize ensurePath (intermediateFlags page.flags) s (tableAddress s.toStatics root)
      (Page.directory page) = result at hinv houtcome hconfined
    obtain ⟨pointer, middle⟩ := result
    simp only at hinv houtcome hconfined ⊢
    by_cases hzero : pointer = 0
    · rw [if_pos hzero]
      exact hconfined
    · rw [if_neg hzero]
      obtain hwalked := houtcome.resolve_right fun hstopped ↦ hzero hstopped.1
      obtain ⟨next, -, rfl, hreached⟩ := hwalked.target
      have hnext := hinv.descend_mem hroot (Page.length_slots_le page) hreached
      exact hconfined.trans (installLeaf_confined hnext _ page)

theorem mapPages_confined {pages : List Page} (h : KernelInv stock held roots s)
    (hroot : root ∈ roots) (hflags : ∀ page ∈ pages, PageFlags.Named page.flags)
    (hcalm : State.Calm s (mapPages (tableAddress s.toStatics root) pages s).2) :
    Confined s (mapPages (tableAddress s.toStatics root) pages s).2 := by
  induction pages generalizing s with
  | nil => exact Confined.refl s
  | cons page pages ih =>
    rw [List.forall_mem_cons] at hflags
    have hgrows := (mapOne_proceeds s (tableAddress s.toStatics root) page).grows
    have hconfined : State.Calm s (mapOne s (tableAddress s.toStatics root) page).2 →
        Confined s (mapOne s (tableAddress s.toStatics root) page).2 := mapOne_confined h hroot
    have hspec := fun hcalm ↦ mapOne_spec h hroot hflags.1 hcalm
    rw [mapPages] at hcalm ⊢
    generalize mapOne s (tableAddress s.toStatics root) page = result
      at hcalm hgrows hconfined hspec
    obtain ⟨returned, middle⟩ := result
    cases returned with
    | false => exact hconfined hcalm
    | true =>
      obtain ⟨hfirst, hsecond⟩ := (State.calm_trans hgrows
        (mapPages_proceeds _ pages middle).grows).mp hcalm
      obtain ⟨hinv, hstatics, -, -⟩ := hspec hfirst
      simp only at hinv hstatics hsecond ⊢
      rw [← hstatics] at hsecond ⊢
      exact (hconfined hfirst).trans (ih hinv hflags.2 hsecond)

theorem mapAll_confined {space : AddressSpace} {virt phys size : Word} {flags : PageFlags}
    {large : Bool} (h : KernelInv stock held roots s) (hroot : root ∈ roots)
    (hspace : space.pml4 = tableAddress s.toStatics root) (hflags : PageFlags.Named flags)
    (hcalm : State.Calm s (mapAll s space virt phys size flags large).2) :
    Confined s (mapAll s space virt phys size flags large).2 := by
  unfold mapAll at hcalm ⊢
  split at hcalm
  · rename_i hrefused
    rw [if_pos hrefused]
    exact Confined.refl s
  · rename_i hadmitted
    rw [if_neg hadmitted, hspace] at *
    refine mapPages_confined h hroot (fun page hpage ↦ ?_) hcalm
    rw [rangePages_flags hpage]
    exact hflags

end Calls

section World

variable {stock : Set ℕ} {statics : Statics} {world : World}

theorem WorldInv.perform_confined (h : WorldInv stock statics world) {call : PagingCall}
    (hpermits : world.Permits (.paging call))
    (hcalm : State.Calm world.state (call.perform world.state).state) :
    Confined world.state (call.perform world.state).state := by
  cases call with
  | createAddressSpace out =>
    have hstate : (createAddressSpace world.state out).2.2 = (allocateTable world.state).2 := by
      unfold createAddressSpace
      split <;> simp_all
    simp only [PagingCall.perform, hstate] at hcalm ⊢
    exact allocateTable_confined h.kernel.toAccounts hcalm
  | mapPage pml4 virt phys flags =>
    obtain ⟨⟨space, hspace, rfl⟩, -⟩ := hpermits
    obtain ⟨root, hroot, hpml4⟩ := h.exists_root hspace
    simp only [PagingCall.perform, mapPage_eq, hpml4] at hcalm ⊢
    exact mapOne_confined h.kernel hroot hcalm
  | mapPageLarge pml4 virt phys flags =>
    obtain ⟨⟨space, hspace, rfl⟩, -⟩ := hpermits
    obtain ⟨root, hroot, hpml4⟩ := h.exists_root hspace
    simp only [PagingCall.perform, mapPageLarge_eq, hpml4] at hcalm ⊢
    exact mapOne_confined h.kernel hroot hcalm
  | mapRange space virt phys size flags =>
    obtain ⟨hspace, hflags⟩ := hpermits
    obtain ⟨root, hroot, hpml4⟩ := h.exists_root hspace
    simp only [PagingCall.perform, mapRange_eq] at hcalm ⊢
    exact mapAll_confined h.kernel hroot hpml4 hflags hcalm
  | mapRangeLarge space virt phys size flags =>
    obtain ⟨hspace, hflags⟩ := hpermits
    obtain ⟨root, hroot, hpml4⟩ := h.exists_root hspace
    simp only [PagingCall.perform, mapRangeLarge_eq] at hcalm ⊢
    exact mapAll_confined h.kernel hroot hpml4 hflags hcalm

theorem WorldInv.step_confined (h : WorldInv stock statics world) {operation : Operation}
    (hadmits : world.Admits operation) :
    Confined world.state (world.step operation).state := by
  obtain ⟨hpermits, hsupplied⟩ := hadmits
  cases operation with
  | paging call => exact h.perform_confined hpermits hsupplied
  | client call =>
    cases call with
    | alloc => exact allocFrame_confined h.kernel.sound
    | free address => exact freed_confined h.kernel.sound address

end World

/-! ## Interleavings -/

/-- A step of the whole system: a call of the memory manager, or a byte that a client writes. -/
inductive Action where
  | call (operation : Operation)
  | write (address : Word) (value : BitVec 8)
  deriving DecidableEq, Repr

/-- Memory with one byte replaced. -/
def poke (memory : Memory) (address : Word) (value : BitVec 8) : Memory :=
  fun target ↦ if target = address then value else memory target

namespace World

def poke (world : World) (address : Word) (value : BitVec 8) : World :=
  { world with
    toClient :=
      { world.toClient with
        state := { world.state with memory := Vmm.poke world.state.memory address value } } }

def act (world : World) : Action → World
  | .call operation => world.step operation
  | .write address value => world.poke address value

/-- Calls are made as before, and a client writes only into frames it holds. -/
def Allows (world : World) : Action → Prop
  | .call operation => world.Permits operation
  | .write address _ => ∃ frame ∈ world.held, InFrame world.state.toStatics frame address

instance (world : World) : (action : Action) → Decidable (world.Allows action)
  | .call operation => inferInstanceAs (Decidable (world.Permits operation))
  | .write address _ =>
    inferInstanceAs
      (Decidable (∃ frame ∈ world.held, (address - tableAddress _ frame).toNat < 4096))

end World

/-- What memory holds when only the clients write. -/
def written (memory : Memory) : List Action → Memory
  | [] => memory
  | .call _ :: actions => written memory actions
  | .write address value :: actions => written (poke memory address value) actions

section Interleavings

variable {stock : Set ℕ} {statics : Statics} {world : World}

/-- Two frames share no byte. -/
theorem InFrame.unique {left right : ℕ} (hleft : left < 2 ^ 40) (hright : right < 2 ^ 40)
    {byte : Word} (hinLeft : InFrame statics left byte) (hinRight : InFrame statics right byte) :
    left = right := by
  unfold InFrame ByteMemory.Within tableAddress at hinLeft hinRight
  bv_omega

/-- A frame clear of the bitmap has no byte in it. -/
theorem InFrame.not_bitmap {frame : ℕ} (hclear : ClearOfBitmap statics frame) {byte : Word}
    (hbyte : InFrame statics frame byte) :
    ¬ ByteMemory.Within statics.bitmap (8 * statics.bitmapWords.toNat) byte := by
  intro hinside
  apply hclear _ hbyte _ hinside
  bv_omega

/-- The bytes of a held frame are not the memory manager's. -/
theorem KernelInv.not_managed {held roots : Set ℕ} {s : State}
    (h : KernelInv stock held roots s) {frame : ℕ} (hframe : frame ∈ held) {byte : Word}
    (hbyte : InFrame s.toStatics frame byte) : ¬ Managed s byte := by
  have hok : ∀ frame, frame ∈ held ∨ frame ∈ tableFrames s →
      frame < 2 ^ 40 ∧ ClearOfBitmap s.toStatics frame := by
    intro frame hframe
    obtain ⟨hbound, -, hclear⟩ := h.stock_ok frame ((h.stock_iff frame).mpr (Or.inr hframe))
    exact ⟨hbound, hclear⟩
  rintro (hbitmap | ⟨table, htable, hinTable⟩)
  · exact hbyte.not_bitmap (hok frame (Or.inl hframe)).2 hbitmap
  · obtain rfl := hbyte.unique (hok frame (Or.inl hframe)).1 (hok table (Or.inr htable)).1 hinTable
    exact h.held_not_table frame hframe htable

/-- Bytes that are not the memory manager's carry no table and no bitmap. -/
theorem KernelInv.overwrite {held roots : Set ℕ} {s : State} (h : KernelInv stock held roots s)
    {memory : Memory} (hkept : ∀ byte, Managed s byte → memory byte = s.memory byte) :
    KernelInv stock held roots { s with memory := memory } := by
  have htables : ∀ frame ∈ tableFrames s,
      tables { s with memory := memory } frame = tables s frame := by
    intro frame hframe
    funext index
    unfold tables
    refine if_congr Iff.rfl (ByteMemory.load64_congr fun byte hbyte ↦ hkept byte ?_) rfl
    refine Or.inr ⟨frame, hframe, ?_⟩
    have hindex : index.val < 512 := index.isLt
    unfold InFrame
    unfold ByteMemory.Within at hbyte ⊢
    bv_omega
  have hused : ∀ position < 64 * s.bitmapWords.toNat,
      used { s with memory := memory } position = used s position := by
    intro position hposition
    have hcount := h.sound.layout.frameCount_lt
    have hwords := h.sound.layout.bitmapWords_eq
    refine congrArg (BitVec.getLsbD · (position % 64))
      (ByteMemory.load64_congr fun byte hbyte ↦ hkept byte (Or.inl ?_))
    unfold bitmapAddress at hbyte
    unfold ByteMemory.Within at hbyte ⊢
    bv_omega
  exact h.toAccounts.kernelInv rfl hused rfl (h.forest.congr htables)

theorem KernelInv.poke {held roots : Set ℕ} {s : State} (h : KernelInv stock held roots s)
    {address : Word} (houtside : ¬ Managed s address) (value : BitVec 8) :
    KernelInv stock held roots { s with memory := Vmm.poke s.memory address value } := by
  refine h.overwrite fun byte hmanaged ↦ if_neg ?_
  rintro rfl
  exact houtside hmanaged

theorem World.supplied_of_calm {operation : Operation}
    (hcalm : Event.exhausted ∉ (world.step operation).state.trace) :
    world.Supplied operation := by
  cases operation with
  | paging call => exact State.calm_of_not_mem hcalm
  | client call => trivial

/-- One step of the whole system keeps the invariant. -/
theorem WorldInv.act (h : WorldInv stock statics world) {action : Action}
    (hallows : world.Allows action)
    (hcalm : Event.exhausted ∉ (world.act action).state.trace) :
    WorldInv stock statics (world.act action) := by
  cases action with
  | call operation =>
    exact h.step ⟨hallows, World.supplied_of_calm hcalm⟩
  | write address value =>
    obtain ⟨frame, hframe, hbyte⟩ := hallows
    exact ⟨h.kernel.poke (h.kernel.not_managed hframe hbyte) value, h.statics_eq, h.spaces⟩

theorem World.act_extends (world : World) (action : Action) :
    (world.act action).state.toStatics = world.state.toStatics ∧
      State.Grows world.state (world.act action).state := by
  cases action with
  | call operation =>
    exact ⟨(world.step_extends operation).statics, (world.step_extends operation).grows⟩
  | write address value => exact ⟨rfl, [], rfl⟩

theorem World.run_grows (world : World) (actions : List Action) :
    State.Grows world.state (Run.final World.act world actions).state := by
  induction actions generalizing world with
  | nil => exact ⟨[], rfl⟩
  | cons action actions ih => exact (world.act_extends action).2.trans (ih (world.act action))

/-- **Whole interleavings.** The invariant is kept, and what is not the memory manager's holds what
the clients wrote.  The induction carries the clients' view of memory along. -/
theorem WorldInv.run_act (h : WorldInv stock statics world) {memory : Memory}
    (hmemory : ∀ byte, ¬ Managed world.state byte → world.state.memory byte = memory byte)
    {actions : List Action} (hlegal : Run.Legal World.act World.Allows world actions)
    (hcalm : Event.exhausted ∉ (Run.final World.act world actions).state.trace) :
    WorldInv stock statics (Run.final World.act world actions) ∧
      ∀ byte, ¬ Managed (Run.final World.act world actions).state byte →
        (Run.final World.act world actions).state.memory byte = written memory actions byte := by
  induction actions generalizing world memory with
  | nil => exact ⟨h, hmemory⟩
  | cons action actions ih =>
    obtain ⟨hallows, hrest⟩ := hlegal
    have hcalm' : Event.exhausted ∉ (world.act action).state.trace :=
      ((world.act action).run_grows actions).calm_before hcalm
    have hinv := h.act hallows hcalm'
    cases action with
    | call operation =>
      have hconfined := h.step_confined ⟨hallows, World.supplied_of_calm hcalm'⟩
      refine ih hinv (fun byte houtside ↦ ?_) hrest hcalm
      refine (hconfined.kept byte houtside).trans (hmemory byte fun hmanaged ↦ houtside ?_)
      exact hmanaged.mono hconfined.statics hconfined.grows
    | write address value =>
      refine ih hinv (fun byte houtside ↦ ?_) hrest hcalm
      exact if_congr Iff.rfl rfl (hmemory byte houtside)

end Interleavings

/-- **Clients and the memory manager do not disturb each other.** After every interleaving of calls
and of bytes that clients write into frames they hold, without exhaustion: all memory but the
bitmap and the tables has the content the clients gave it, the frames they hold are such memory,
and every space translates as the pages installed in it say. -/
theorem clients_isolated {regions : List MemoryRegion} {hhdmOffset : Word} {memory : Memory}
    {s : State} (hmap : LimineMap regions) (hnonnull : NonNullMap regions hhdmOffset)
    (hinit : init regions hhdmOffset memory = .ok s) {actions : List Action}
    (hlegal : Run.Legal World.act World.Allows (World.start s) actions)
    (hcalm : Event.exhausted ∉ (Run.final World.act (World.start s) actions).state.trace) :
    let world := Run.final World.act (World.start s) actions
    (∀ byte, ¬ Managed world.state byte →
        world.state.memory byte = written s.memory actions byte) ∧
      (∀ frame ∈ world.held, ∀ byte, InFrame world.state.toStatics frame byte →
        ¬ Managed world.state byte) ∧
      ∀ space ∈ world.spaces, ∀ address,
        translate world.state space address =
          lookup (installed world.state space.pml4) address := by
  intro world
  obtain ⟨hinv, hwritten⟩ :=
    (init_worldInv hmap hinit).run_act (fun _ _ ↦ rfl) hlegal hcalm
  refine ⟨hwritten, fun frame hframe byte ↦ hinv.kernel.not_managed hframe, ?_⟩
  intro space hspace address
  obtain ⟨root, hroot, hpml4⟩ := hinv.exists_root hspace
  refine hinv.kernel.translate_eq_lookup hroot hpml4 ?_ address
  rw [hpml4, hinv.statics_eq]
  exact hnonnull.nonNull hmap hinit root
    (hinv.kernel.table_mem_stock (hinv.kernel.forest.roots_subset_taken hroot))

/-- A client writes into its frame before and after a space is made in which the frame is
mapped. -/
def sharedActions : List Action :=
  [.call (.client .alloc), .write 0xffff800000002010 0x2a,
    .call (.paging (.createAddressSpace ⟨0, 0⟩)),
    .call (.paging (.mapPage 0xffff800000003000 0x400000 0x2000 PageFlags.writable)),
    .write 0xffff800000002011 0x2b]

theorem exists_bootMap_shared :
    ∃ s, init bootMap 0xffff800000000000 (fun _ ↦ 0) = .ok s ∧
      Run.Legal World.act World.Allows (World.start s) sharedActions ∧
      let world := Run.final World.act (World.start s) sharedActions
      Event.exhausted ∉ world.state.trace ∧ 2 ∈ world.held ∧
        world.state.hhdmOffset = 0xffff800000000000 := by
  exact Run.exists_of_succeedsWith (by decide +kernel)

theorem clients_isolated_bootMap :
    ∃ s, init bootMap 0xffff800000000000 (fun _ ↦ 0) = .ok s ∧
      let world := Run.final World.act (World.start s) sharedActions
      world.state.memory 0xffff800000002010 = 0x2a ∧
        world.state.memory 0xffff800000002011 = 0x2b := by
  obtain ⟨s, hinit, hlegal, hcalm, hheld, hoffset⟩ := exists_bootMap_shared
  obtain ⟨hmemory, hframes, -⟩ :=
    clients_isolated (by decide) bootMap_nonNull hinit hlegal hcalm
  have hbyte : ∀ byte : Word, (byte - 0xffff800000002000).toNat < 4096 →
      ¬ Managed (Run.final World.act (World.start s) sharedActions).state byte := by
    intro byte hinside
    apply hframes 2 hheld byte
    rw [InFrame, tableAddress, hoffset]
    exact hinside
  refine ⟨s, hinit, ?_, ?_⟩
  · exact (hmemory _ (hbyte _ (by decide))).trans rfl
  · exact (hmemory _ (hbyte _ (by decide))).trans rfl

end WaterBuffalo.Vmm
