import WaterBuffalo.Foundation.TableForest
import WaterBuffalo.Vmm.Walk

/-!
# Running out of frames

`alloc_frame` reports exhaustion by returning 0, and `allocate_table` looks for `UINT64_MAX`.  A
paging call that needs a table when no frame is free therefore takes physical frame 0 for one and
zeroes it.  The relation `Proceeds` says what any piece of the paging code can do to the statics
and the trace; it composes, so the statement about calls follows from the one about
`allocate_table`.
-/

namespace WaterBuffalo.Vmm

open Pmm

/-- The stores that zero the 4 KiB at physical address 0. -/
def ZeroesFrameZero (s : State) (events : List Event) : Prop :=
  ∀ index < kPageTableEntries,
    Event.stored (s.hhdmOffset + 8 * BitVec.ofNat 64 index) 0 ∈ events

/-- Events that are not outcomes of `alloc_frame`. -/
def Quiet (events : List Event) : Prop :=
  Event.exhausted ∉ events ∧ ∀ frame, Event.granted frame ∉ events

theorem Quiet.cons {event : Event} {events : List Event} (h : Quiet events)
    (hexhausted : event ≠ .exhausted) (hgranted : ∀ frame, event ≠ .granted frame) :
    Quiet (event :: events) := by
  refine ⟨?_, fun frame ↦ ?_⟩
  · rw [List.mem_cons, not_or]
    exact ⟨hexhausted.symm, h.1⟩
  · rw [List.mem_cons, not_or]
    exact ⟨(hgranted frame).symm, h.2 frame⟩

theorem quiet_nil : Quiet [] :=
  ⟨by simp, by simp⟩

theorem quiet_stored (address value : Word) : Quiet [.stored address value] :=
  quiet_nil.cons (by simp) (by simp)

/-- What every piece of the memory manager does: it keeps the statics, adds to the trace, and
hands out valid frames only. -/
structure Extends (s later : State) : Prop where
  statics : later.toStatics = s.toStatics
  grows : State.Grows s later
  grants : ∀ frame, Event.granted frame ∈ s.since later → frame.toNat < s.frameCount.toNat

namespace Extends

theorem of_trace {s later : State} (new : List Event) (hstatics : later.toStatics = s.toStatics)
    (htrace : later.trace = new ++ s.trace)
    (hgrants : ∀ frame, Event.granted frame ∈ new → frame.toNat < s.frameCount.toNat) :
    Extends s later where
  statics := hstatics
  grows := ⟨new, htrace⟩
  grants := by
    rw [State.since_eq htrace]
    exact hgrants

theorem trans {s middle later : State} (hfirst : Extends s middle)
    (hsecond : Extends middle later) : Extends s later where
  statics := hsecond.statics.trans hfirst.statics
  grows := hfirst.grows.trans hsecond.grows
  grants := by
    intro frame
    rw [State.since_trans hfirst.grows hsecond.grows, List.mem_append]
    rintro (hgranted | hgranted)
    · have hvalid := hsecond.grants frame hgranted
      rwa [hfirst.statics] at hvalid
    · exact hfirst.grants frame hgranted

end Extends

/-- What every piece of the paging code does: it also zeroes physical frame 0 whenever it finds
the allocator exhausted. -/
structure Proceeds (s later : State) : Prop extends Extends s later where
  zeroes : Event.exhausted ∈ s.since later → ZeroesFrameZero s (s.since later)

namespace Proceeds

theorem of_trace {s later : State} (new : List Event) (hstatics : later.toStatics = s.toStatics)
    (htrace : later.trace = new ++ s.trace)
    (hgrants : ∀ frame, Event.granted frame ∈ new → frame.toNat < s.frameCount.toNat)
    (hzeroes : Event.exhausted ∈ new → ZeroesFrameZero s new) : Proceeds s later where
  toExtends := Extends.of_trace new hstatics htrace hgrants
  zeroes := by
    rw [State.since_eq htrace]
    exact hzeroes

theorem of_quiet {s later : State} {new : List Event} (hquiet : Quiet new)
    (hstatics : later.toStatics = s.toStatics) (htrace : later.trace = new ++ s.trace) :
    Proceeds s later :=
  of_trace new hstatics htrace (fun frame hmem ↦ absurd hmem (hquiet.2 frame))
    fun hmem ↦ absurd hmem hquiet.1

theorem refl (s : State) : Proceeds s s :=
  of_quiet quiet_nil rfl rfl

theorem trans {s middle later : State} (hfirst : Proceeds s middle)
    (hsecond : Proceeds middle later) : Proceeds s later where
  toExtends := hfirst.toExtends.trans hsecond.toExtends
  zeroes := by
    rw [State.since_trans hfirst.grows hsecond.grows, List.mem_append]
    rintro (hexhausted | hexhausted) index hindex
    · have hzero := hsecond.zeroes hexhausted index hindex
      rw [hfirst.statics] at hzero
      exact List.mem_append_left _ hzero
    · exact List.mem_append_right _ (hfirst.zeroes hexhausted index hindex)

theorem store (s : State) (address value : Word) : Proceeds s (s.store address value) :=
  of_quiet (quiet_stored address value) rfl rfl

theorem record (s : State) {event : Event} (hexhausted : event ≠ .exhausted)
    (hgranted : ∀ frame, event ≠ .granted frame) : Proceeds s (s.record event) :=
  of_quiet (quiet_nil.cons hexhausted hgranted) rfl rfl

end Proceeds

/-! ## The trace of each function -/

theorem clearTable_trace (s : State) (table : Word) :
    (clearTable s table).toStatics = s.toStatics ∧
      ∃ new, (clearTable s table).trace = new ++ s.trace ∧ Quiet new ∧
        ∀ index < kPageTableEntries,
          Event.stored (table + 8 * BitVec.ofNat 64 index) 0 ∈ new := by
  apply Run.foldl_range_induction
    (fun (t : State) index ↦ t.store (table + 8 * BitVec.ofNat 64 index) 0)
    (fun count t ↦ t.toStatics = s.toStatics ∧
      ∃ new, t.trace = new ++ s.trace ∧ Quiet new ∧
        ∀ index < count, Event.stored (table + 8 * BitVec.ofNat 64 index) 0 ∈ new)
  · exact ⟨rfl, [], rfl, quiet_nil, by simp⟩
  · rintro count t - ⟨hstatics, new, htrace, hquiet, hstored⟩
    refine ⟨hstatics, .stored (table + 8 * BitVec.ofNat 64 count) 0 :: new, ?_, ?_, ?_⟩
    · rw [State.store_trace, htrace, List.cons_append]
    · exact hquiet.cons (by simp) (by simp)
    · intro index hindex
      by_cases hlast : index = count
      · rw [hlast]
        exact List.mem_cons_self
      · exact List.mem_cons_of_mem _ (hstored index (by omega))

theorem setFrameUsed_trace (s : State) (frame : Word) :
    ∃ new, (setFrameUsed s frame).trace = new ++ s.trace ∧ Quiet new := by
  unfold setFrameUsed
  split
  · exact ⟨[], rfl, quiet_nil⟩
  · exact ⟨[_], rfl, quiet_stored _ _⟩

/-- `alloc_frame` hands out valid frames only, whatever the bitmap holds. -/
theorem frameValid_of_scan_some {s : State} {frame : Word} (h : scanBitmap s = some frame) :
    frame.toNat < s.frameCount.toNat := by
  obtain ⟨word, -, hoffered⟩ := List.exists_of_findSome?_eq_some h
  unfold offeredFrame at hoffered
  simp only at hoffered
  split_ifs at hoffered with hfull hinvalid
  cases hoffered
  rw [← frameValid_iff]
  simpa using hinvalid

/-- The events of one `alloc_frame` call. -/
theorem allocFrame_trace (s : State) :
    ∃ new, (allocFrame s).2.trace = new ++ s.trace ∧
      (∀ frame, Event.granted frame ∈ new → frame.toNat < s.frameCount.toNat) ∧
      (Event.exhausted ∈ new → scanBitmap s = none) := by
  cases hscan : scanBitmap s with
  | none =>
    rw [allocFrame_of_scan_none hscan]
    exact ⟨[.exhausted], rfl, by simp, fun _ ↦ rfl⟩
  | some frame =>
    obtain ⟨new, htrace, hquiet⟩ := setFrameUsed_trace s frame
    refine ⟨.granted frame :: new, ?_, fun other hother ↦ ?_, fun hexhausted ↦ ?_⟩
    · simp only [allocFrame, hscan, State.record_trace, List.cons_append]
      rw [← htrace]
    · rw [List.mem_cons, Event.granted.injEq] at hother
      rcases hother with rfl | hother
      · exact frameValid_of_scan_some hscan
      · exact absurd hother (hquiet.2 other)
    · rw [List.mem_cons] at hexhausted
      rcases hexhausted with hne | hexhausted
      · cases hne
      · exact absurd hexhausted hquiet.1

theorem allocateTable_proceeds (s : State) : Proceeds s (allocateTable s).2 := by
  cases hscan : scanBitmap s with
  | none =>
    -- The address tested against `UINT64_MAX` is 0, so the table is placed in frame 0.
    have hstate : (allocateTable s).2 = (clearTable (s.record .exhausted)
        (physicalToVirtual s 0)).record (.tableTaken 0) := by
      unfold allocateTable
      rw [allocFrame_of_scan_none hscan]
      rfl
    obtain ⟨hstatics, new, htrace, hquiet, hstored⟩ :=
      clearTable_trace (s.record .exhausted) (physicalToVirtual s 0)
    rw [hstate]
    refine Proceeds.of_trace (.tableTaken 0 :: (new ++ [.exhausted])) ?_ ?_ ?_ ?_
    · rw [State.record_toStatics, hstatics, State.record_toStatics]
    · rw [State.record_trace, htrace, State.record_trace]
      simp
    · intro frame hgranted
      simp [hquiet.2 frame] at hgranted
    · intro _ index hindex
      have hzero := hstored index hindex
      rw [physicalToVirtual, add_zero] at hzero
      exact List.mem_cons_of_mem _ (List.mem_append_left _ hzero)
  | some frame =>
    obtain ⟨new, htrace, hgrants, hexhausted⟩ := allocFrame_trace s
    have halloc : Proceeds s (allocFrame s).2 := by
      refine Proceeds.of_trace new (allocFrame_toStatics s) htrace hgrants fun h ↦ ?_
      rw [hexhausted h] at hscan
      cases hscan
    unfold allocateTable
    simp only
    split_ifs
    · exact halloc
    · refine (halloc.trans ?_).trans (Proceeds.record _ (by simp) (by simp))
      obtain ⟨hstatics, new, htrace, hquiet, -⟩ := clearTable_trace (allocFrame s).2
        (physicalToVirtual (allocFrame s).2 (allocFrame s).1)
      exact Proceeds.of_quiet hquiet hstatics htrace

theorem createAddressSpace_proceeds (s : State) (out : AddressSpace) :
    Proceeds s (createAddressSpace s out).2.2 := by
  have h := allocateTable_proceeds s
  unfold createAddressSpace
  split
  · rename_i hresult
    rwa [hresult] at h
  · rename_i hresult
    rwa [hresult] at h

theorem ensureTable_proceeds (s : State) (entry : Word) (middleFlags : PageFlags) :
    Proceeds s (ensureTable s entry middleFlags).2 := by
  have h := allocateTable_proceeds s
  unfold ensureTable
  split_ifs
  · exact Proceeds.refl s
  · split
    · rename_i hresult
      rwa [hresult] at h
    · rename_i hresult
      rw [hresult] at h
      exact h.trans (Proceeds.store _ _ _)
  · exact Proceeds.store _ _ _

theorem ensurePath_proceeds (middleFlags : PageFlags) (s : State) (table : Word)
    (indices : List (BitVec 16)) : Proceeds s (ensurePath middleFlags s table indices).2 := by
  induction indices generalizing s table with
  | nil => exact Proceeds.refl s
  | cons index indices ih =>
    have h := ensureTable_proceeds s (entryAddress table index) middleFlags
    simp only [ensurePath]
    split_ifs
    · exact h
    · exact h.trans (ih _ _)

theorem installLeaf_proceeds (s : State) (pml4 table : Word) (page : Page) :
    Proceeds s (installLeaf s pml4 table page).2 := by
  unfold installLeaf
  simp only
  split_ifs
  · exact Proceeds.refl s
  · exact (Proceeds.store s _ _).trans (Proceeds.record _ (by simp) (by simp))

theorem mapOne_proceeds (s : State) (pml4 : Word) (page : Page) :
    Proceeds s (mapOne s pml4 page).2 := by
  have h := ensurePath_proceeds (intermediateFlags page.flags) s pml4 (Page.directory page)
  unfold mapOne
  simp only
  split_ifs
  · exact Proceeds.refl s
  · exact h
  · exact h.trans (installLeaf_proceeds _ _ _ _)

theorem mapPages_proceeds (pml4 : Word) (pages : List Page) (s : State) :
    Proceeds s (mapPages pml4 pages s).2 := by
  induction pages generalizing s with
  | nil => exact Proceeds.refl s
  | cons page pages ih =>
    have h := mapOne_proceeds s pml4 page
    rw [mapPages]
    generalize mapOne s pml4 page = result at h
    obtain ⟨returned, later⟩ := result
    cases returned with
    | true => exact h.trans (ih later)
    | false => exact h

theorem mapAll_proceeds (s : State) (space : AddressSpace) (virt phys size : Word)
    (flags : PageFlags) (large : Bool) :
    Proceeds s (mapAll s space virt phys size flags large).2 := by
  unfold mapAll
  split_ifs
  · exact Proceeds.refl s
  · exact mapPages_proceeds _ _ _

theorem PagingCall.perform_proceeds (s : State) (call : PagingCall) :
    Proceeds s (call.perform s).state := by
  cases call with
  | createAddressSpace out => exact createAddressSpace_proceeds s out
  | mapPage pml4 virt phys flags =>
    simp only [perform, mapPage_eq]
    exact mapOne_proceeds _ _ _
  | mapPageLarge pml4 virt phys flags =>
    simp only [perform, mapPageLarge_eq]
    exact mapOne_proceeds _ _ _
  | mapRange space virt phys size flags =>
    simp only [perform, mapRange_eq]
    exact mapAll_proceeds _ _ _ _ _ _ _
  | mapRangeLarge space virt phys size flags =>
    simp only [perform, mapRangeLarge_eq]
    exact mapAll_proceeds _ _ _ _ _ _ _

end WaterBuffalo.Vmm
