import WaterBuffalo.Pmm.Conservation

/-!
# The free counter

`free_frame_count` is kept apart from the bitmap: two phases of `init`, `alloc_frame` and
`free_frame` each update a bit and the counter.  The counter is the number of clear bits as long as
no update of the counter goes without one of its bit, so phase 2 must never free a frame twice.
It does not when the usable regions are disjoint.
-/

namespace WaterBuffalo.Pmm

/-- The frames whose bit is clear. -/
def freeFrames (s : State) : Finset ℕ :=
  (Finset.range s.frameCount.toNat).filter fun frame ↦ used s frame = false

/-- The counter is the number of clear bits. -/
def Counted (s : State) : Prop :=
  s.freeFrameCount.toNat = (freeFrames s).card

/-- No two usable regions share a byte. -/
def MemoryMap.UsableDisjoint (regions : List MemoryRegion) : Prop :=
  regions.Pairwise fun region other ↦ region.type = .usable → other.type = .usable →
    ∀ byte : ℕ,
      ¬ ((region.base.toNat ≤ byte ∧ byte < region.base.toNat + region.length.toNat) ∧
        other.base.toNat ≤ byte ∧ byte < other.base.toNat + other.length.toNat)

theorem mem_freeFrames {s : State} {frame : ℕ} : frame ∈ freeFrames s ↔ Free s frame := by
  rw [freeFrames, Finset.mem_filter, Finset.mem_range]
  rfl

section Step

variable {s later : State} {frame : ℕ}

theorem card_freeFrames_le (s : State) : (freeFrames s).card ≤ s.frameCount.toNat := by
  calc
    (freeFrames s).card ≤ (Finset.range s.frameCount.toNat).card := Finset.card_filter_le _ _
    _ = s.frameCount.toNat := Finset.card_range _

theorem Counted.congr (h : Counted s) (hfree : ∀ other, Free later other ↔ Free s other)
    (hcount : later.freeFrameCount = s.freeFrameCount) : Counted later := by
  have hframes : freeFrames later = freeFrames s := by
    ext other
    rw [mem_freeFrames, mem_freeFrames, hfree]
  rw [Counted, hcount, hframes]
  exact h

/-- One more clear bit, and one more counted. -/
theorem Counted.insert (h : Counted s) (hlayout : Layout s.toStatics) (hused : ¬ Free s frame)
    (hfree : ∀ other, Free later other ↔ Free s other ∨ other = frame)
    (hcount : later.freeFrameCount = s.freeFrameCount + 1) :
    Counted later ∧ later.freeFrameCount.toNat = s.freeFrameCount.toNat + 1 := by
  have hframes : freeFrames later = Insert.insert frame (freeFrames s) := by
    ext other
    rw [Finset.mem_insert, mem_freeFrames, mem_freeFrames, hfree, or_comm]
  have hcard : (freeFrames later).card = (freeFrames s).card + 1 := by
    rw [hframes]
    exact Finset.card_insert_of_notMem fun hmem ↦ hused (mem_freeFrames.mp hmem)
  have hbound := card_freeFrames_le s
  have hframeCount := hlayout.frameCount_lt
  unfold Counted at h ⊢
  have hsmall : s.freeFrameCount.toNat < 2 ^ 52 := by omega
  have hsum : later.freeFrameCount.toNat = s.freeFrameCount.toNat + 1 := by
    rw [hcount]
    bv_omega
  exact ⟨by omega, hsum⟩

/-- One clear bit less, and one less counted: the counter was not zero. -/
theorem Counted.erase (h : Counted s) (hmem : Free s frame)
    (hfree : ∀ other, Free later other ↔ Free s other ∧ other ≠ frame)
    (hcount : later.freeFrameCount = s.freeFrameCount - 1) :
    Counted later ∧ later.freeFrameCount.toNat + 1 = s.freeFrameCount.toNat := by
  have hframes : freeFrames later = (freeFrames s).erase frame := by
    ext other
    rw [Finset.mem_erase, mem_freeFrames, mem_freeFrames, hfree, and_comm]
  have hcard : (freeFrames later).card + 1 = (freeFrames s).card := by
    rw [hframes]
    exact Finset.card_erase_add_one (mem_freeFrames.mpr hmem)
  unfold Counted at h ⊢
  have hdifference : later.freeFrameCount.toNat + 1 = s.freeFrameCount.toNat := by
    rw [hcount]
    bv_omega
  exact ⟨by omega, hdifference⟩

end Step

/-! ## Allocating and freeing -/

theorem Counted.allocFrame {s : State} (h : Counted s) (hs : Sound s) :
    Counted (allocFrame s).2 := by
  cases hscan : scanBitmap s with
  | none =>
    rw [allocFrame_of_scan_none hscan]
    exact h.congr (fun _ ↦ Iff.rfl) rfl
  | some frame =>
    exact (h.erase (isLeast_of_scan_some hs hscan).1 (free_allocFrame hs hscan)
      (allocFrame_freeFrameCount hscan)).1

theorem freed_freeFrameCount {s : State} (hs : Sound s) {address : Word} (h : Accepts s address) :
    (freed s address).freeFrameCount = s.freeFrameCount + 1 := by
  obtain ⟨later, hok, -, hcount, -⟩ := freeFrame_of_accepts hs h
  simp only [freed, hok, hcount]

theorem Accepts.not_free {s : State} {address : Word} (h : Accepts s address) :
    ¬ Free s (address.toNat / 4096) := by
  intro hfree
  have hclear := hfree.2
  rw [h.2.2] at hclear
  cases hclear

theorem Counted.freed {s : State} (h : Counted s) (hs : Sound s) (address : Word) :
    Counted (freed s address) := by
  by_cases haccepts : Accepts s address
  · exact (h.insert hs.layout haccepts.not_free (free_freed hs haccepts)
      (freed_freeFrameCount hs haccepts)).1
  · rw [freed_of_not_accepts haccepts]
    exact h

theorem Client.run_counted {client : Client} (hs : Sound client.state)
    (h : Counted client.state) (calls : List Call) :
    Counted (Run.final Client.step client calls).state := by
  refine (Run.invariant (motive := fun reached : Client ↦ Sound reached.state ∧
    Counted reached.state) ?_ calls ⟨hs, h⟩).2
  rintro reached call ⟨hsound, hcounted⟩
  refine ⟨(Client.step_sound hsound call).1, ?_⟩
  cases call with
  | alloc => exact hcounted.allocFrame hsound
  | free address => exact hcounted.freed hsound address

/-! ## Initialization -/

/-- What a new bit for one valid frame makes of the free frames. -/
theorem free_of_bits {s later : State} (hlayout : Layout s.toStatics)
    (hstatics : later.toStatics = s.toStatics) {frame : ℕ} (hvalid : frame < s.frameCount.toNat)
    {bit : Bool} (hbits : ∀ position < 2 ^ 60, used later position =
      if position = frame ∧ position < s.frameCount.toNat then bit else used s position)
    (other : ℕ) :
    Free later other ↔ if other = frame then bit = false else Free s other := by
  have hcount := hlayout.frameCount_lt
  rw [Free, Free, hstatics]
  by_cases hother : other < s.frameCount.toNat
  · rw [hbits other (by omega)]
    by_cases heq : other = frame
    · rw [if_pos ⟨heq, hother⟩, if_pos heq, and_iff_right hother]
    · rw [if_neg fun hboth ↦ heq hboth.1, if_neg heq]
  · rw [if_neg (by omega)]
    simp only [hother, false_and]

/-- Clearing a bit that was set is counted. -/
theorem Counted.releaseFrame {s : State} (h : Counted s) (hlayout : Layout s.toStatics)
    {frame : Word} (hused : ¬ Free s frame.toNat) : Counted (releaseFrame s frame) := by
  obtain ⟨hstatics, hbits⟩ := releaseFrame_spec s frame hlayout
  by_cases hvalid : frame.toNat < s.frameCount.toNat
  · have hcount : (Pmm.releaseFrame s frame).freeFrameCount = s.freeFrameCount + 1 := by
      simp only [Pmm.releaseFrame, (frameValid_iff s frame).mpr hvalid, Bool.not_true,
        Bool.false_eq_true, if_false, setFrameFree_freeFrameCount]
    refine (h.insert hlayout hused (fun other ↦ ?_) hcount).1
    rw [free_of_bits hlayout hstatics hvalid hbits]
    split_ifs with heq
    · exact iff_of_true rfl (Or.inr heq)
    · exact (or_iff_left heq).symm
  · have hinvalid : frameValid s frame = false := by
      rw [← Bool.not_eq_true, frameValid_iff]
      exact hvalid
    simp only [Pmm.releaseFrame, hinvalid, Bool.not_false, if_true]
    exact h

/-- Phase 3 takes a frame from the counter only when its bit was clear, so never below zero. -/
theorem Counted.reserveFrame {s : State} (h : Counted s) (hlayout : Layout s.toStatics)
    (frame : Word) :
    Counted (reserveFrame s frame) ∧
      (reserveFrame s frame).freeFrameCount.toNat ≤ s.freeFrameCount.toNat := by
  obtain ⟨hstatics, hbits⟩ := reserveFrame_spec s frame hlayout
  by_cases hvalid : frame.toNat < s.frameCount.toNat
  · have hfree := free_of_bits hlayout hstatics hvalid hbits
    have hcount : (Pmm.reserveFrame s frame).freeFrameCount =
        if used s frame.toNat = false then s.freeFrameCount - 1 else s.freeFrameCount := by
      simp only [Pmm.reserveFrame, (frameValid_iff s frame).mpr hvalid, Bool.not_true,
        Bool.false_eq_true, if_false, setFrameUsed_freeFrameCount, testFrame_eq_zero_iff]
      split <;> rfl
    by_cases hclear : used s frame.toNat = false
    · rw [if_pos hclear] at hcount
      have hmem : Free s frame.toNat := ⟨hvalid, hclear⟩
      have hleft : ∀ other, Free (Pmm.reserveFrame s frame) other ↔
          Free s other ∧ other ≠ frame.toNat := by
        intro other
        rw [hfree other]
        split_ifs with heq
        · exact iff_of_false not_false fun hboth ↦ hboth.2 heq
        · exact (and_iff_left heq).symm
      obtain ⟨hcounted, hless⟩ := h.erase hmem hleft hcount
      exact ⟨hcounted, by omega⟩
    · rw [if_neg hclear] at hcount
      refine ⟨h.congr (fun other ↦ ?_) hcount, by rw [hcount]⟩
      rw [hfree other]
      split_ifs with heq
      · rw [heq]
        exact iff_of_false not_false fun hboth ↦ hclear hboth.2
      · exact Iff.rfl
  · have hinvalid : frameValid s frame = false := by
      rw [← Bool.not_eq_true, frameValid_iff]
      exact hvalid
    simp only [Pmm.reserveFrame, hinvalid, Bool.not_false, if_true]
    exact ⟨h, le_rfl⟩

/-- Phase 2 counts every frame of a region whose bits are all set. -/
theorem Counted.releaseRegion {s : State} (h : Counted s) (hlayout : Layout s.toStatics)
    {region : MemoryRegion} (hused : ∀ frame, Released region frame → ¬ Free s frame) :
    Counted (releaseRegion s region) := by
  unfold Pmm.releaseRegion
  split_ifs with husable
  · exact h
  rw [ne_eq, not_not] at husable
  simp only
  set first := (region.base + kPageSize - 1) / kPageSize with hfirst
  set stop := (region.base + region.length) / kPageSize with hstop
  have hstopLt := stop.isLt
  have hreleased : ∀ frame, first.toNat ≤ frame → frame < stop.toNat → ¬ Free s frame :=
    fun frame hlower hupper ↦ hused frame ⟨husable, hlower, hupper⟩
  have hloop := Run.foldl_range_induction
    (fun (t : State) index ↦ Pmm.releaseFrame t (first + BitVec.ofNat 64 index))
    (fun index t ↦ t.toStatics = s.toStatics ∧ Counted t ∧
      ∀ frame, first.toNat + index ≤ frame → (Free t frame ↔ Free s frame))
    s (stop.toNat - first.toNat) ⟨rfl, h, fun _ _ ↦ Iff.rfl⟩ (by
      rintro index t hindex ⟨hstatics, hcounted, hrest⟩
      have hframe : (first + BitVec.ofNat 64 index).toNat = first.toNat + index := by
        rw [BitVec.toNat_add, BitVec.toNat_ofNat]
        omega
      have hlayoutNow : Layout t.toStatics := hstatics ▸ hlayout
      obtain ⟨hkeep, hbits⟩ := releaseFrame_spec t (first + BitVec.ofNat 64 index) hlayoutNow
      refine ⟨hkeep.trans hstatics, hcounted.releaseFrame hlayoutNow ?_, ?_⟩
      · rw [hframe, hrest _ le_rfl]
        exact hreleased _ (by omega) (by omega)
      · intro frame hlater
        rw [← hrest frame (by omega), Free, Free, hkeep]
        refine and_congr_right fun hvalid ↦ ?_
        have hcount := hlayoutNow.frameCount_lt
        rw [hbits frame (by omega), if_neg (by omega)])
  exact hloop.2.1

theorem Counted.releaseRegions {regions : List MemoryRegion} {s : State} (h : Counted s)
    (hlayout : Layout s.toStatics)
    (hapart : regions.Pairwise fun region other ↦
      ∀ frame, Released region frame → ¬ Released other frame)
    (hused : ∀ region ∈ regions, ∀ frame, Released region frame → ¬ Free s frame) :
    Counted (regions.foldl Pmm.releaseRegion s) := by
  induction regions generalizing s with
  | nil => exact h
  | cons region regions ih =>
    rw [List.pairwise_cons] at hapart
    rw [List.forall_mem_cons] at hused
    obtain ⟨hstatics, hbits⟩ := releaseRegion_spec s region hlayout
    refine ih (h.releaseRegion hlayout hused.1) (hstatics ▸ hlayout) hapart.2 ?_
    -- A frame of a later region is neither cleared by this region nor clear before.
    rintro other hother frame hreleased ⟨hvalid, hclear⟩
    rw [hstatics] at hvalid
    have hcount := hlayout.frameCount_lt
    rcases (hbits frame (by omega)).mp hclear with ⟨hthis, -⟩ | hbefore
    · exact hapart.1 other hother frame hthis hreleased
    · exact hused.2 other hother frame hreleased ⟨hvalid, hbefore⟩

/-- Disjoint regions have no frame in common. -/
theorem MemoryMap.UsableDisjoint.released_apart {regions : List MemoryRegion}
    (h : MemoryMap.UsableDisjoint regions)
    (hbound : ∀ region ∈ regions, region.base.toNat + region.length.toNat ≤ 2 ^ 64 - 4096) :
    regions.Pairwise fun region other ↦
      ∀ frame, Released region frame → ¬ Released other frame := by
  refine h.imp_of_mem fun {region other} hregion hother hdisjoint frame hreleased hreleased' ↦ ?_
  have hholds := (released_iff_holds hreleased.1 (hbound region hregion) frame).mp hreleased
  have hholds' := (released_iff_holds hreleased'.1 (hbound other hother) frame).mp hreleased'
  obtain ⟨hlower, hupper⟩ := hholds
  obtain ⟨hlower', hupper'⟩ := hholds'
  exact hdisjoint hreleased.1 hreleased'.1 (4096 * frame)
    ⟨⟨hlower, by omega⟩, hlower', by omega⟩

/-- `init` when phase 3 has passed `count` frames, with the bitmap at the base of `region`. -/
def initReserving (regions : List MemoryRegion) (hhdmOffset : Word) (memory : Memory)
    (region : MemoryRegion) (count : ℕ) : State :=
  let start := placeBitmap hhdmOffset memory (frameCountFor (highestUsableEnd regions)) region
  (List.range count).foldl
    (fun s index ↦ reserveFrame s (region.base / kPageSize + BitVec.ofNat 64 index))
    (regions.foldl releaseRegion (markAllUsed start))

theorem initReserving_succ (regions : List MemoryRegion) (hhdmOffset : Word) (memory : Memory)
    (region : MemoryRegion) (count : ℕ) :
    initReserving regions hhdmOffset memory region (count + 1) =
      reserveFrame (initReserving regions hhdmOffset memory region count)
        (region.base / kPageSize + BitVec.ofNat 64 count) := by
  rw [initReserving, List.range_succ, List.foldl_append]
  rfl

theorem markAllUsed_freeFrameCount (s : State) :
    (markAllUsed s).freeFrameCount = s.freeFrameCount := by
  have hloop := Run.foldl_range_induction
    (fun (t : State) word ↦ t.store (bitmapAddress t (BitVec.ofNat 64 word)) (BitVec.allOnes 64))
    (fun _ t ↦ t.freeFrameCount = s.freeFrameCount) s s.bitmapWords.toNat rfl
    (fun _ _ _ hsame ↦ hsame)
  exact hloop

/-- The counter is right at every point of phase 3. -/
theorem initReserving_counted {regions : List MemoryRegion} {region : MemoryRegion}
    (hhdmOffset : Word) (memory : Memory)
    (hbound : ∀ region ∈ regions, region.base.toNat + region.length.toNat ≤ 2 ^ 64 - 4096)
    (hdisjoint : MemoryMap.UsableDisjoint regions)
    (hfind : findBitmapRegion regions (requiredPages regions) = some region) (count : ℕ) :
    Counted (initReserving regions hhdmOffset memory region count) ∧
      Layout (initReserving regions hhdmOffset memory region count).toStatics := by
  induction count with
  | zero =>
    have hlayout := (placeBitmap_initialized hhdmOffset memory hfind).layout
    set start := placeBitmap hhdmOffset memory (frameCountFor (highestUsableEnd regions)) region
      with hstart
    obtain ⟨hstatics, hbits⟩ := markAllUsed_spec start hlayout
    have hmarked : Layout (markAllUsed start).toStatics := hstatics ▸ hlayout
    have hnone : ∀ frame, ¬ Free (markAllUsed start) frame := by
      rintro frame ⟨hvalid, hclear⟩
      rw [hstatics] at hvalid
      rw [hbits frame (hlayout.lt_bits hvalid)] at hclear
      cases hclear
    have hcounted : Counted (markAllUsed start) := by
      have hempty : freeFrames (markAllUsed start) = ∅ :=
        Finset.eq_empty_of_forall_notMem fun frame hmem ↦ hnone frame (mem_freeFrames.mp hmem)
      rw [Counted, markAllUsed_freeFrameCount, hempty]
      rfl
    refine ⟨hcounted.releaseRegions hmarked (hdisjoint.released_apart hbound)
      fun _ _ frame _ ↦ hnone frame, ?_⟩
    have hkeep := (releaseRegions_spec regions (markAllUsed start) hmarked).1
    exact hkeep ▸ hmarked
  | succ count ih =>
    obtain ⟨hcounted, hlayout⟩ := ih
    rw [initReserving_succ]
    refine ⟨(hcounted.reserveFrame hlayout _).1, ?_⟩
    rw [(reserveFrame_spec _ _ hlayout).1]
    exact hlayout

/-- An accepting `init` is phase 3 run to its end. -/
theorem init_eq_initReserving {regions : List MemoryRegion} {hhdmOffset : Word} {memory : Memory}
    {s : State} (hinit : init regions hhdmOffset memory = .ok s) :
    ∃ region, findBitmapRegion regions (requiredPages regions) = some region ∧
      s = (initReserving regions hhdmOffset memory region
        (requiredPages regions).toNat).restartTrace := by
  obtain ⟨region, hfind, hs⟩ := init_eq_ok hinit
  refine ⟨region, hfind, ?_⟩
  have hplaced := placeBitmap_initialized hhdmOffset memory hfind
  have hcount := hplaced.layout.frameCount_lt
  have hwords := hplaced.layout.bitmapWords_eq
  have hpagesEq := hplaced.bitmapPages_eq
  set start := placeBitmap hhdmOffset memory (frameCountFor (highestUsableEnd regions)) region
    with hstart
  have hmarked := (markAllUsed_spec start hplaced.layout).1
  have hreleased := (releaseRegions_spec regions (markAllUsed start)
    (hmarked ▸ hplaced.layout)).1.trans hmarked
  have hphys : (regions.foldl releaseRegion (markAllUsed start)).bitmapPhys = region.base := by
    rw [hreleased]
    rfl
  have hpages : (requiredPages regions).toNat < 2 ^ 52 := by
    have hsame : bitmapPages start.toStatics = requiredPages regions := rfl
    rw [← hsame]
    omega
  have hlength : (region.base / kPageSize + requiredPages regions).toNat -
      (region.base / kPageSize).toNat = (requiredPages regions).toNat := by
    have hbase := region.base.isLt
    rw [BitVec.toNat_add, BitVec.toNat_udiv, toNat_kPageSize]
    omega
  rw [hs, reserveBitmap, hphys, forFrames, hlength]
  rfl

/-- **The counter and the bitmap never drift.** On a memory map with disjoint usable regions,
phase 3 of `init` never takes the counter below zero, and after every history of calls the counter
is the number of clear bits and the padding bits are set.  A call changes the counter by one
exactly when it changes a bit. -/
theorem counter_never_drifts {regions : List MemoryRegion} {hhdmOffset : Word} {memory : Memory}
    {s : State}
    (hbound : ∀ region ∈ regions, region.base.toNat + region.length.toNat ≤ 2 ^ 64 - 4096)
    (hdisjoint : MemoryMap.UsableDisjoint regions)
    (hinit : init regions hhdmOffset memory = .ok s) :
    (∃ region, s = (initReserving regions hhdmOffset memory region
        (requiredPages regions).toNat).restartTrace ∧
      ∀ count, (initReserving regions hhdmOffset memory region (count + 1)).freeFrameCount.toNat ≤
        (initReserving regions hhdmOffset memory region count).freeFrameCount.toNat) ∧
    ∀ calls, let state := (Run.final Client.step (Client.start s) calls).state
      state.freeFrameCount.toNat = (freeFrames state).card ∧
      (∀ position, state.frameCount.toNat ≤ position → position < 64 * state.bitmapWords.toNat →
        used state position = true) ∧
      ((∃ frame, Free state frame) →
        (allocFrame state).2.freeFrameCount.toNat + 1 = state.freeFrameCount.toNat) ∧
      ((¬ ∃ frame, Free state frame) →
        (allocFrame state).2.freeFrameCount = state.freeFrameCount) ∧
      (∀ address later, freeFrame state address = .ok later →
        later.freeFrameCount.toNat = state.freeFrameCount.toNat + 1) ∧
      ∀ address fault, freeFrame state address = .error fault → freed state address = state := by
  obtain ⟨region, hfind, hs⟩ := init_eq_initReserving hinit
  have hreserving := initReserving_counted hhdmOffset memory hbound hdisjoint hfind
  refine ⟨⟨region, hs, fun count ↦ ?_⟩, fun calls ↦ ?_⟩
  · rw [initReserving_succ]
    exact ((hreserving count).1.reserveFrame (hreserving count).2 _).2
  intro state
  have hstart : Counted s := by
    rw [hs]
    exact (hreserving (requiredPages regions).toNat).1.congr (fun _ ↦ Iff.rfl) rfl
  have hinitial : Sound (Client.start s).state := init_sound hinit
  have hsound : Sound state := (Client.run_sound hinitial calls).1
  have hcounted : Counted state := Client.run_counted hinitial hstart calls
  refine ⟨hcounted, hsound.padded, ?_, ?_, ?_, ?_⟩
  · rintro ⟨frame, hfree⟩
    cases hscan : scanBitmap state with
    | none => exact absurd hfree ((scanBitmap_eq_none_iff hsound).mp hscan frame)
    | some offered =>
      exact (hcounted.erase (isLeast_of_scan_some hsound hscan).1 (free_allocFrame hsound hscan)
        (allocFrame_freeFrameCount hscan)).2
  · intro hnone
    have hscan := (scanBitmap_eq_none_iff hsound).mpr fun frame hfree ↦ hnone ⟨frame, hfree⟩
    rw [allocFrame_of_scan_none hscan]
    rfl
  · intro address later hok
    have haccepts : Accepts state address := by
      by_contra hrefused
      obtain ⟨fault, herror⟩ := freeFrame_of_not_accepts hrefused
      rw [herror] at hok
      cases hok
    have hlater : freed state address = later := by simp only [freed, hok]
    rw [← hlater]
    exact (hcounted.insert hsound.layout haccepts.not_free (free_freed hsound haccepts)
      (freed_freeFrameCount hsound haccepts)).2
  · intro address fault herror
    simp only [freed, herror]

theorem counter_never_drifts_probeMap :
    ∃ s, init probeMap 0xffff800000000000 (fun _ ↦ 0) = .ok s ∧
      let state := (Run.final Client.step (Client.start s) [.alloc, .free 0x2000, .free 7]).state
      state.freeFrameCount.toNat = (freeFrames state).card := by
  obtain ⟨s, hinit⟩ := exists_probeMap_init
  have hdisjoint : MemoryMap.UsableDisjoint probeMap := by
    simp [MemoryMap.UsableDisjoint, probeMap]
    omega
  exact ⟨s, hinit, ((counter_never_drifts (by decide) hdisjoint hinit).2 _).1⟩

end WaterBuffalo.Pmm
