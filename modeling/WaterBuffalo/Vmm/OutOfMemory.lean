import WaterBuffalo.Vmm.Runs

/-!
# What a paging call does when no frame is free

The contract a caller would expect of `create_address_space` and the mapping functions when a
table is needed and no frame is free, and the proof that no such call meets it: the failure value
of `alloc_frame` is 0, `allocate_table` compares with `UINT64_MAX`, and so physical frame 0 is
zeroed and used as a table.
-/

namespace WaterBuffalo.Vmm

open Pmm TableForest

/-- A frame that `alloc_frame` handed out and `allocate_table` uses for a table. -/
def HandedOutForTable (s : State) (frame : ℕ) : Prop :=
  frame ∈ tableFrames s ∧ ∃ granted, Event.granted granted ∈ s.trace ∧ granted.toNat = frame

/-- Out of memory is reported and does no harm. -/
structure ExhaustionHarmless (world : World) (call : PagingCall) : Prop where
  refused : (call.perform world.state).returned = false
  outUntouched : (call.perform world.state).out = call.out
  /-- No entry is made to point at a table that `alloc_frame` did not hand out. -/
  linksGranted : ∀ frame,
    Reached link (tables (call.perform world.state).state) world.roots 3 frame →
    ¬ Reached link (tables world.state) world.roots 3 frame →
    HandedOutForTable (call.perform world.state).state frame
  /-- Apart from the bits of frames handed out, only tables are written. -/
  storesContained : ∀ address value,
    Event.stored address value ∈ world.state.since (call.perform world.state).state →
    (∃ frame, HandedOutForTable (call.perform world.state).state frame ∧
        (address - tableAddress world.state.toStatics frame).toNat < 4096) ∨
      ∃ word, word.toNat < world.state.bitmapWords.toNat ∧
        address = bitmapAddress world.state word
  frameZeroKept :
    ¬ ZeroesFrameZero world.state (world.state.since (call.perform world.state).state)
  bitmapKept : ∀ word, word.toNat < world.state.bitmapWords.toNat →
    Event.stored (bitmapAddress world.state word) 0 ∉
      world.state.since (call.perform world.state).state

/-- **No exhausted call is harmless.** Whatever the state, a paging call during which a table is
needed while no frame is free zeroes physical frame 0. -/
theorem exhausted_call_not_harmless (world : World) (call : PagingCall)
    (hexhausted : Event.exhausted ∈ world.state.since (call.perform world.state).state) :
    ¬ ExhaustionHarmless world call := by
  intro hharmless
  exact hharmless.frameZeroKept ((call.perform_proceeds world.state).zeroes hexhausted)

/-- One usable frame, which the bitmap takes. -/
def singleFrameMap : List MemoryRegion := [⟨0, 0x1000, .usable⟩]

/-- Without a free frame `create_address_space` succeeds with a table at physical address 0. -/
theorem createAddressSpace_of_scan_none {s : State} (hscan : scanBitmap s = none)
    (out : AddressSpace) :
    (createAddressSpace s out).1 = true ∧
      (createAddressSpace s out).2.1 = ⟨physicalToVirtual s 0, 0⟩ ∧
      Event.exhausted ∈ s.since (createAddressSpace s out).2.2 := by
  have hresult : (allocateTable s).1 = some ⟨0, physicalToVirtual s 0⟩ := by
    unfold allocateTable
    rw [allocFrame_of_scan_none hscan]
    rfl
  have hpair : allocateTable s = (some ⟨0, physicalToVirtual s 0⟩, (allocateTable s).2) :=
    Prod.ext hresult rfl
  have hcreate : createAddressSpace s out =
      (true, ⟨physicalToVirtual s 0, 0⟩, (allocateTable s).2) := by
    rw [createAddressSpace, hpair]
  rw [hcreate]
  exact ⟨rfl, rfl, not_not.mp (exhausted_of_scan_none hscan)⟩

theorem exists_singleFrame_start :
    ∃ s, init singleFrameMap 0xffff800000000000 (fun _ ↦ 0) = .ok s ∧ scanBitmap s = none := by
  exact Run.exists_of_succeedsWith (by decide +kernel)

theorem exhausted_call_not_harmless_singleFrame :
    ∃ s, init singleFrameMap 0xffff800000000000 (fun _ ↦ 0) = .ok s ∧
      ¬ ExhaustionHarmless (World.start s) (.createAddressSpace ⟨0, 0⟩) := by
  obtain ⟨s, hinit, hscan⟩ := exists_singleFrame_start
  exact ⟨s, hinit, exhausted_call_not_harmless (World.start s) (.createAddressSpace ⟨0, 0⟩)
    (createAddressSpace_of_scan_none hscan ⟨0, 0⟩).2.2⟩

/-- Right after `init` on `singleFrameMap`, `create_address_space` returns true. -/
theorem exhaustion_not_reported :
    ¬ ∀ (regions : List MemoryRegion) (hhdmOffset : Word) (memory : Memory) (s : State)
      (operations : List Operation) (call : PagingCall),
      init regions hhdmOffset memory = .ok s →
      Run.Legal World.step World.Permits (World.start s) operations →
      let world := Run.final World.step (World.start s) operations
      Event.exhausted ∈ world.state.since (call.perform world.state).state →
      ExhaustionHarmless world call := by
  intro hall
  obtain ⟨s, hinit, hscan⟩ := exists_singleFrame_start
  obtain ⟨hreturned, -, hexhausted⟩ := createAddressSpace_of_scan_none hscan ⟨0, 0⟩
  have hharmless := hall singleFrameMap _ _ s [] (.createAddressSpace ⟨0, 0⟩) hinit trivial
    hexhausted
  have hrefused : (createAddressSpace s ⟨0, 0⟩).1 = false := hharmless.refused
  rw [hreturned] at hrefused
  cases hrefused

end WaterBuffalo.Vmm
