import WaterBuffalo.Foundation.Counting
import WaterBuffalo.Pmm.Conservation

/-!
# Bitmap accesses

The functions of `src/mm/pmm.cpp` once more, closer to the machine: every loop has its own 64-bit
counter and may a priori not end, and every `bitmap[word]` that is read or written is noted down.
These functions compute what those of the model do; in addition their loops end, and every index
they note down lies inside the bitmap, for any memory map and any later calls.
-/

namespace WaterBuffalo.Pmm

/-- A state with the indices of the bitmap words read and written so far, latest first. -/
structure Watched where
  state : State
  accesses : List Word

/-- How a run can fail to return: it halts the machine, or a loop does not end. -/
inductive Stop where
  | halted (fault : InitFault)
  | endless
  deriving DecidableEq, Repr

namespace Watched

/-! ## The functions -/

/-- Read `bitmap[word]`. -/
def read (w : Watched) (word : Word) : Word × Watched :=
  (w.state.load (bitmapAddress w.state word), { w with accesses := word :: w.accesses })

/-- Assign `bitmap[word]`. -/
def write (w : Watched) (word value : Word) : Watched where
  state := w.state.store (bitmapAddress w.state word) value
  accesses := word :: w.accesses

/-- Assign `free_frame_count`. -/
def setCount (w : Watched) (count : Word) : Watched :=
  { w with state := { w.state with freeFrameCount := count } }

def setFrameUsed (w : Watched) (frame : Word) : Watched :=
  if !frameValid w.state frame then w
  else
    let word := frame / kWordBits
    let bit := frame % kWordBits
    let (old, w) := w.read word
    w.write word (old ||| 1#64 <<< bit.toNat)

def setFrameFree (w : Watched) (frame : Word) : Watched :=
  if !frameValid w.state frame then w
  else
    let word := frame / kWordBits
    let bit := frame % kWordBits
    let (old, w) := w.read word
    w.write word (old &&& ~~~(1#64 <<< bit.toNat))

/-- The loop that finds the highest usable end. -/
def highestUsableEnd (limit : ℕ) (regions : Word → MemoryRegion) (count : Word) :
    Except Stop Word :=
  Loop.forCounter .endless limit 0 count
    (fun highest i ↦
      let region := regions i
      .next
        (if region.type = .usable then
          if highest < region.base + region.length then region.base + region.length else highest
        else highest)) 0

/-- Body of the loop that finds a region for the bitmap. -/
def considerRegion (bitmapPages : Word) (found : Option MemoryRegion) (region : MemoryRegion) :
    Loop.Outcome (Option MemoryRegion) Stop :=
  if region.type ≠ .usable then .next found
  else if bitmapPages * kPageSize ≤ region.length then .done (some region)
  else .next found

/-- The loop that finds a region for the bitmap. -/
def findBitmapRegion (limit : ℕ) (regions : Word → MemoryRegion) (count bitmapPages : Word) :
    Except Stop (Option MemoryRegion) :=
  Loop.forCounter .endless limit 0 count
    (fun found i ↦ considerRegion bitmapPages found (regions i)) none

/-- Phase 1. -/
def markAllUsed (limit : ℕ) (w : Watched) : Except Stop Watched :=
  Loop.forCounter .endless limit 0 w.state.bitmapWords
    (fun w i ↦ .next (w.write i (BitVec.allOnes 64))) w

/-- Body of the inner loop of phase 2. -/
def releaseFrame (w : Watched) (frame : Word) : Watched :=
  if !frameValid w.state frame then w
  else
    let w := w.setFrameFree frame
    w.setCount (w.state.freeFrameCount + 1)

/-- Body of phase 2. -/
def releaseRegion (limit : ℕ) (w : Watched) (region : MemoryRegion) : Loop.Outcome Watched Stop :=
  if region.type ≠ .usable then .next w
  else
    let firstFrame := (region.base + kPageSize - 1) / kPageSize
    let frameEnd := (region.base + region.length) / kPageSize
    match Loop.forCounter .endless limit firstFrame frameEnd
      (fun w frame ↦ .next (w.releaseFrame frame)) w with
    | .error stop => .stuck stop w
    | .ok w => .next w

/-- Phase 2. -/
def releaseRegions (limit : ℕ) (regions : Word → MemoryRegion) (count : Word) (w : Watched) :
    Except Stop Watched :=
  Loop.forCounter .endless limit 0 count (fun w i ↦ w.releaseRegion limit (regions i)) w

/-- Body of phase 3. -/
def reserveFrame (w : Watched) (frame : Word) : Watched :=
  if !frameValid w.state frame then w
  else
    let word := frame / kWordBits
    let bit := frame % kWordBits
    let (old, w) := w.read word
    let w := if old &&& 1#64 <<< bit.toNat = 0 then w.setCount (w.state.freeFrameCount - 1) else w
    w.setFrameUsed frame

/-- Phase 3. -/
def reserveBitmap (limit : ℕ) (w : Watched) (bitmapPages : Word) : Except Stop Watched :=
  let bitmapFirstFrame := w.state.bitmapPhys / kPageSize
  let bitmapLastFrame := bitmapFirstFrame + bitmapPages
  Loop.forCounter .endless limit bitmapFirstFrame bitmapLastFrame
    (fun w frame ↦ .next (w.reserveFrame frame)) w

/-- `init`, on an array of `count` regions. -/
def init (limit : ℕ) (regions : Word → MemoryRegion) (count hhdmOffset : Word)
    (memory : Memory) : Except Stop Watched := do
  let highest ← highestUsableEnd limit regions count
  if highest = 0 then throw (.halted .noUsableMemory)
  let frameCount := frameCountFor highest
  let bitmapPages := bitmapPagesFor (bitmapWordsFor frameCount * 8)
  match ← findBitmapRegion limit regions count bitmapPages with
  | none => throw (.halted .noRegionForBitmap)
  | some region =>
    let w ← markAllUsed limit ⟨placeBitmap hhdmOffset memory frameCount region, []⟩
    let w ← releaseRegions limit regions count w
    let w ← w.reserveBitmap limit bitmapPages
    return { w with state := w.state.restartTrace }

/-- Body of the scan of `alloc_frame`: go on, or return an address. -/
def scanWord (w : Watched) (wordIndex : Word) : Loop.Outcome (Option Word × Watched) Stop :=
  let (word, w) := w.read wordIndex
  -- Every bit is already used.
  if word = BitVec.allOnes 64 then .next (none, w)
  else
    let freeBits := ~~~word
    let bit := freeBits.ctz
    let frame := wordIndex * kWordBits + bit
    -- The final bitmap word may contain padding bits.
    if !frameValid w.state frame then .next (none, w)
    else
      let w := w.setFrameUsed frame
      let w := w.setCount (w.state.freeFrameCount - 1)
      .done (some (frame * kPageSize), { w with state := w.state.record (.granted frame) })

/-- `alloc_frame`. -/
def allocFrame (limit : ℕ) (w : Watched) : Except Stop (Word × Watched) :=
  match Loop.forCounter .endless limit 0 w.state.bitmapWords
    (fun scan wordIndex ↦ scan.2.scanWord wordIndex) (none, w) with
  | .error stop => .error stop
  | .ok (some address, w) => .ok (address, w)
  -- No physical frames available.
  | .ok (none, w) => .ok (0, { w with state := w.state.record .exhausted })

/-- `free_frame`.  What it prints on the paths that refuse the address is not modelled. -/
def freeFrame (w : Watched) (address : Word) : Watched :=
  if address % kPageSize ≠ 0 then w
  else
    let frame := address / kPageSize
    if !frameValid w.state frame then w
    else
      let word := frame / kWordBits
      let bit := frame % kWordBits
      let mask := 1#64 <<< bit.toNat
      let (old, w) := w.read word
      if old &&& mask = 0 then w
      else
        let (old, w) := w.read word
        let w := w.write word (old &&& ~~~mask)
        w.setCount (w.state.freeFrameCount + 1)

/-- One call. -/
def perform (limit : ℕ) (w : Watched) : Call → Except Stop Watched
  | .alloc => do
    let (_, w) ← w.allocFrame limit
    return w
  | .free address => .ok (w.freeFrame address)

/-! ## One frame -/

/-- The statics are as given, and every bitmap access so far was inside the bitmap. -/
structure Inside (statics : Statics) (w : Watched) : Prop where
  statics_eq : w.state.toStatics = statics
  accesses_lt : ∀ word ∈ w.accesses, word.toNat < statics.bitmapWords.toNat

section Frame

variable {statics : Statics} {w : Watched} {frame word : Word}

theorem Inside.read (h : Inside statics w) (hword : word.toNat < statics.bitmapWords.toNat) :
    Inside statics (w.read word).2 :=
  ⟨h.statics_eq, List.forall_mem_cons.mpr ⟨hword, h.accesses_lt⟩⟩

theorem Inside.write (h : Inside statics w) (hword : word.toNat < statics.bitmapWords.toNat)
    (value : Word) : Inside statics (w.write word value) :=
  ⟨h.statics_eq, List.forall_mem_cons.mpr ⟨hword, h.accesses_lt⟩⟩

theorem Inside.setCount (h : Inside statics w) (count : Word) : Inside statics (w.setCount count) :=
  ⟨h.statics_eq, h.accesses_lt⟩

/-- The check of `frame_valid` keeps the word of a frame inside the bitmap. -/
theorem Inside.word_lt (h : Inside statics w) (hlayout : Layout statics)
    (hvalid : ¬ (!frameValid w.state frame) = true) :
    (frame / kWordBits).toNat < statics.bitmapWords.toNat := by
  rw [Bool.not_eq_true', Bool.not_eq_false, frameValid_iff, h.statics_eq] at hvalid
  have hbits := hlayout.lt_bits hvalid
  rw [BitVec.toNat_udiv, toNat_kWordBits]
  omega

@[simp] theorem setFrameUsed_state (w : Watched) (frame : Word) :
    (w.setFrameUsed frame).state = Pmm.setFrameUsed w.state frame := by
  unfold setFrameUsed Pmm.setFrameUsed
  split <;> rfl

@[simp] theorem setFrameFree_state (w : Watched) (frame : Word) :
    (w.setFrameFree frame).state = Pmm.setFrameFree w.state frame := by
  unfold setFrameFree Pmm.setFrameFree
  split <;> rfl

theorem Inside.setFrameUsed (h : Inside statics w) (hlayout : Layout statics) (frame : Word) :
    Inside statics (w.setFrameUsed frame) := by
  unfold Watched.setFrameUsed
  split_ifs with hvalid
  · exact h
  · have hword := h.word_lt hlayout hvalid
    exact (h.read hword).write hword _

theorem Inside.setFrameFree (h : Inside statics w) (hlayout : Layout statics) (frame : Word) :
    Inside statics (w.setFrameFree frame) := by
  unfold Watched.setFrameFree
  split_ifs with hvalid
  · exact h
  · have hword := h.word_lt hlayout hvalid
    exact (h.read hword).write hword _

theorem releaseFrame_state (w : Watched) (frame : Word) :
    (w.releaseFrame frame).state = Pmm.releaseFrame w.state frame := by
  unfold releaseFrame Pmm.releaseFrame setCount
  split
  · rfl
  · simp only [setFrameFree_state]

theorem Inside.releaseFrame (h : Inside statics w) (hlayout : Layout statics) (frame : Word) :
    Inside statics (w.releaseFrame frame) := by
  unfold Watched.releaseFrame
  split_ifs
  · exact h
  · exact (h.setFrameFree hlayout frame).setCount _

theorem reserveFrame_state (w : Watched) (frame : Word) :
    (w.reserveFrame frame).state = Pmm.reserveFrame w.state frame := by
  unfold reserveFrame Pmm.reserveFrame
  split
  · rfl
  · simp only [setFrameUsed_state]
    refine congrArg (fun s ↦ Pmm.setFrameUsed s frame) ?_
    by_cases hfree : w.state.load (bitmapAddress w.state (frame / kWordBits)) &&&
        1#64 <<< (frame % kWordBits).toNat = 0
    · exact (congrArg Watched.state (if_pos hfree)).trans (if_pos hfree).symm
    · exact (congrArg Watched.state (if_neg hfree)).trans (if_neg hfree).symm

theorem Inside.reserveFrame (h : Inside statics w) (hlayout : Layout statics) (frame : Word) :
    Inside statics (w.reserveFrame frame) := by
  unfold Watched.reserveFrame
  split_ifs with hvalid
  · exact h
  · have hread := h.read (h.word_lt hlayout hvalid)
    apply Inside.setFrameUsed _ hlayout
    split_ifs
    · exact hread.setCount _
    · exact hread

end Frame

/-! ## The loops of `init` -/

/-- The array as a list. -/
def regionList (regions : Word → MemoryRegion) (count : Word) : List MemoryRegion :=
  (List.range count.toNat).map fun i ↦ regions (BitVec.ofNat 64 i)

/-- The watched state is the state of the model, and all accesses were inside the bitmap. -/
def Follows (statics : Statics) (w : Watched) (s : State) : Prop :=
  w.state = s ∧ Inside statics w

section Init

variable {statics : Statics} {w : Watched} {limit : ℕ}

theorem highestUsableEnd_eq_ok (hlimit : 2 ^ 64 ≤ limit) (regions : Word → MemoryRegion)
    (count : Word) :
    highestUsableEnd limit regions count =
      .ok (Pmm.highestUsableEnd (regionList regions count)) := by
  have hloop : ∃ highest, highestUsableEnd limit regions count = .ok highest ∧
      highest = Pmm.highestUsableEnd (regionList regions count) := by
    rw [Pmm.highestUsableEnd, regionList, List.foldl_map]
    apply Loop.forCounter_simulates_zero Stop.endless Eq
      (fun highest i ↦
        if (regions i).type = .usable then
          if highest < (regions i).base + (regions i).length then
            (regions i).base + (regions i).length
          else highest
        else highest) hlimit rfl
    rintro highest _ i - rfl
    exact ⟨_, rfl, rfl⟩
  obtain ⟨highest, hok, rfl⟩ := hloop
  exact hok

/-- The body of the search goes on, or leaves with the region. -/
theorem considerRegion_eq (bitmapPages : Word) (region : MemoryRegion) :
    considerRegion bitmapPages none region =
      if region.type = .usable ∧ bitmapPages * kPageSize ≤ region.length then .done (some region)
      else .next none := by
  unfold considerRegion
  by_cases husable : region.type = .usable
  · simp [husable]
  · simp [husable]

theorem findBitmapRegion_eq_ok (hlimit : 2 ^ 64 ≤ limit) (regions : Word → MemoryRegion)
    (count bitmapPages : Word) :
    findBitmapRegion limit regions count bitmapPages =
      .ok (Pmm.findBitmapRegion (regionList regions count) bitmapPages) := by
  have hfind : Pmm.findBitmapRegion (regionList regions count) bitmapPages =
      (List.range count.toNat).findSome? fun i ↦
        Option.guard (fun region : MemoryRegion ↦
          region.type = .usable ∧ bitmapPages * kPageSize ≤ region.length)
          (regions (BitVec.ofNat 64 i)) := by
    rw [Pmm.findBitmapRegion, regionList, List.find?_eq_findSome?_guard, List.findSome?_map]
    rfl
  have hloop : ∃ found, findBitmapRegion limit regions count bitmapPages = .ok found ∧
      (Pmm.findBitmapRegion (regionList regions count) bitmapPages).elim (found = none)
        (fun region ↦ found = some region) := by
    rw [hfind]
    apply Loop.forCounter_searches Stop.endless (· = none) _
      (fun region found ↦ found = some region) hlimit rfl
    rintro found i - rfl
    rw [considerRegion_eq, Option.guard]
    by_cases hfits : (regions (BitVec.ofNat 64 i)).type = .usable ∧
        bitmapPages * kPageSize ≤ (regions (BitVec.ofNat 64 i)).length
    · simp [hfits]
    · simp [hfits]
  obtain ⟨found, hok, hfound⟩ := hloop
  rw [hok]
  cases hregion : Pmm.findBitmapRegion (regionList regions count) bitmapPages with
  | none =>
    rw [hregion] at hfound
    exact congrArg Except.ok hfound
  | some region =>
    rw [hregion] at hfound
    exact congrArg Except.ok hfound

theorem markAllUsed_follows (hlimit : 2 ^ 64 ≤ limit) (h : Inside statics w) :
    ∃ later, w.markAllUsed limit = .ok later ∧
      Follows statics later (Pmm.markAllUsed w.state) := by
  rw [markAllUsed, h.statics_eq, Pmm.markAllUsed, h.statics_eq]
  apply Loop.forCounter_simulates_zero Stop.endless (Follows statics)
    (fun s i ↦ s.store (bitmapAddress s i) (BitVec.allOnes 64)) hlimit ⟨rfl, h⟩
  rintro current _ i hi ⟨rfl, hcurrent⟩
  exact ⟨_, rfl, rfl, hcurrent.write (Loop.toNat_index_lt hi) _⟩

/-- A loop over frames follows the loop of the model if its body does. -/
theorem forFrames_follows (hlimit : 2 ^ 64 ≤ limit) (first stop : Word)
    {body : Watched → Word → Watched} {step : State → Word → State}
    (hbody : ∀ current frame, Inside statics current →
      Follows statics (body current frame) (step current.state frame)) (h : Inside statics w) :
    ∃ later, Loop.forCounter Stop.endless limit first stop
        (fun w frame ↦ .next (body w frame)) w = .ok later ∧
      Follows statics later (forFrames first stop step w.state) := by
  apply Loop.forCounter_simulates Stop.endless (Follows statics) step hlimit ⟨rfl, h⟩
  rintro current _ i - ⟨rfl, hcurrent⟩
  exact ⟨_, rfl, hbody current _ hcurrent⟩

theorem releaseRegion_follows (hlimit : 2 ^ 64 ≤ limit) (hlayout : Layout statics)
    (region : MemoryRegion) (h : Inside statics w) :
    ∃ later, w.releaseRegion limit region = .next later ∧
      Follows statics later (Pmm.releaseRegion w.state region) := by
  unfold releaseRegion Pmm.releaseRegion
  split_ifs
  · exact ⟨w, rfl, rfl, h⟩
  · obtain ⟨later, hok, hlater⟩ := forFrames_follows hlimit
      ((region.base + kPageSize - 1) / kPageSize) ((region.base + region.length) / kPageSize)
      (fun current frame hcurrent ↦
        ⟨releaseFrame_state current frame, hcurrent.releaseFrame hlayout frame⟩) h
    refine ⟨later, ?_, hlater⟩
    simp only
    rw [hok]

theorem releaseRegions_follows (hlimit : 2 ^ 64 ≤ limit) (hlayout : Layout statics)
    (regions : Word → MemoryRegion) (count : Word) (h : Inside statics w) :
    ∃ later, w.releaseRegions limit regions count = .ok later ∧
      Follows statics later ((regionList regions count).foldl Pmm.releaseRegion w.state) := by
  rw [regionList, List.foldl_map]
  apply Loop.forCounter_simulates_zero Stop.endless (Follows statics)
    (fun s i ↦ Pmm.releaseRegion s (regions i)) hlimit ⟨rfl, h⟩
  rintro current _ i - ⟨rfl, hcurrent⟩
  exact releaseRegion_follows hlimit hlayout _ hcurrent

theorem reserveBitmap_follows (hlimit : 2 ^ 64 ≤ limit) (hlayout : Layout statics)
    (bitmapPages : Word) (h : Inside statics w) :
    ∃ later, w.reserveBitmap limit bitmapPages = .ok later ∧
      Follows statics later (Pmm.reserveBitmap w.state bitmapPages) :=
  forFrames_follows hlimit _ _ (fun current frame hcurrent ↦
    ⟨reserveFrame_state current frame, hcurrent.reserveFrame hlayout frame⟩) h

theorem init_eq_halted (hlimit : 2 ^ 64 ≤ limit) {regions : Word → MemoryRegion}
    {count hhdmOffset : Word} {memory : Memory} {fault : InitFault}
    (h : Pmm.init (regionList regions count) hhdmOffset memory = .error fault) :
    init limit regions count hhdmOffset memory = .error (.halted fault) := by
  rw [init, highestUsableEnd_eq_ok hlimit]
  simp only [Pmm.init] at h
  simp only [bind, Except.bind]
  split_ifs at h ⊢
  · obtain rfl := Except.error.inj h
    rfl
  · rw [findBitmapRegion_eq_ok hlimit]
    split at h
    · rename_i hnone
      obtain rfl := Except.error.inj h
      simp only [hnone]
      rfl
    · cases h

/-- **`init` with its loops.** Where the model returns, every loop ends, the state is the model's,
and all accesses were inside the bitmap. -/
theorem init_follows (hlimit : 2 ^ 64 ≤ limit) {regions : Word → MemoryRegion}
    {count hhdmOffset : Word} {memory : Memory} {s : State}
    (h : Pmm.init (regionList regions count) hhdmOffset memory = .ok s) :
    ∃ w, init limit regions count hhdmOffset memory = .ok w ∧ Follows s.toStatics w s := by
  have hhighest := init_highest_ne_zero h
  obtain ⟨region, hfind, rfl⟩ := init_eq_ok h
  set placed := placeBitmap hhdmOffset memory
    (frameCountFor (Pmm.highestUsableEnd (regionList regions count))) region with hplaced
  have hlayout : Layout placed.toStatics :=
    (placeBitmap_initialized hhdmOffset memory hfind).layout
  have hstart : Inside placed.toStatics ⟨placed, []⟩ := ⟨rfl, by simp⟩
  obtain ⟨marked, hmark, hmarked, hinside⟩ := markAllUsed_follows hlimit hstart
  obtain ⟨released, hrelease, hreleased, hinside⟩ :=
    releaseRegions_follows hlimit hlayout regions count hinside
  obtain ⟨reserved, hreserve, hreserved, hinside⟩ := reserveBitmap_follows hlimit hlayout
    (requiredPages (regionList regions count)) hinside
  rw [hreleased, hmarked] at hreserved
  have hfind' : Pmm.findBitmapRegion (regionList regions count) (bitmapPagesFor (bitmapWordsFor
      (frameCountFor (Pmm.highestUsableEnd (regionList regions count))) * 8)) = some region := hfind
  have hreserve' : released.reserveBitmap limit (bitmapPagesFor (bitmapWordsFor
      (frameCountFor (Pmm.highestUsableEnd (regionList regions count))) * 8)) = .ok reserved :=
    hreserve
  refine ⟨{ reserved with state := reserved.state.restartTrace }, ?_, ?_, ?_⟩
  · rw [init, highestUsableEnd_eq_ok hlimit]
    simp only [bind, Except.bind, if_neg hhighest]
    rw [findBitmapRegion_eq_ok hlimit]
    simp only [hfind', ← hplaced, hmark, hrelease, hreserve']
    rfl
  · exact congrArg State.restartTrace hreserved
  · rw [← hreserved]
    exact ⟨rfl, hinside.statics_eq ▸ hinside.accesses_lt⟩

end Init

/-! ## Later calls -/

section Calls

variable {statics : Statics} {w : Watched} {limit : ℕ}

/-- The end of a scan that finds a frame. -/
def grant (w : Watched) (frame : Word) : Watched :=
  let w := w.setFrameUsed frame
  let w := w.setCount (w.state.freeFrameCount - 1)
  { w with state := w.state.record (.granted frame) }

/-- One word of the scan offers what the model's does. -/
theorem scanWord_eq (w : Watched) (wordIndex : ℕ) :
    w.scanWord (BitVec.ofNat 64 wordIndex) =
      (offeredFrame w.state wordIndex).elim
        (.next (none, (w.read (BitVec.ofNat 64 wordIndex)).2))
        fun frame ↦ .done (some (frame * kPageSize),
          (w.read (BitVec.ofNat 64 wordIndex)).2.grant frame) := by
  unfold offeredFrame
  by_cases hfull : w.state.load (bitmapAddress w.state (BitVec.ofNat 64 wordIndex)) =
      BitVec.allOnes 64
  · simp only [if_pos hfull]
    exact if_pos hfull
  · simp only [if_neg hfull]
    by_cases hvalid : (!frameValid w.state (BitVec.ofNat 64 wordIndex * kWordBits +
        (~~~w.state.load (bitmapAddress w.state (BitVec.ofNat 64 wordIndex))).ctz)) = true
    · simp only [if_pos hvalid]
      exact (if_neg hfull).trans (if_pos hvalid)
    · simp only [if_neg hvalid]
      exact (if_neg hfull).trans (if_neg hvalid)

theorem Inside.grant (h : Inside statics w) (hlayout : Layout statics) (frame : Word) :
    Inside statics (w.grant frame) := by
  have hused := h.setFrameUsed hlayout frame
  exact ⟨hused.statics_eq, hused.accesses_lt⟩

theorem grant_state (w : Watched) (frame : Word) :
    (w.grant frame).state = { Pmm.setFrameUsed w.state frame with
      freeFrameCount := (Pmm.setFrameUsed w.state frame).freeFrameCount - 1 }.record
        (.granted frame) := by
  simp only [Watched.grant, setCount, setFrameUsed_state]

theorem allocFrame_follows (hlimit : 2 ^ 64 ≤ limit) (hlayout : Layout statics)
    (h : Inside statics w) :
    ∃ later, w.allocFrame limit = .ok ((Pmm.allocFrame w.state).1, later) ∧
      Follows statics later (Pmm.allocFrame w.state).2 := by
  have hloop : ∃ scan, Loop.forCounter Stop.endless limit 0 w.state.bitmapWords
      (fun scan wordIndex ↦ scan.2.scanWord wordIndex) (none, w) = .ok scan ∧
      (scanBitmap w.state).elim (scan.1 = none ∧ Follows statics scan.2 w.state)
        fun frame ↦ scan.1 = some (frame * kPageSize) ∧ Inside statics scan.2 ∧
          ∃ before : Watched, before.state = w.state ∧ scan.2 = before.grant frame := by
    apply Loop.forCounter_searches Stop.endless
      (fun scan : Option Word × Watched ↦ scan.1 = none ∧ Follows statics scan.2 w.state)
      (offeredFrame w.state)
      (fun (frame : Word) (scan : Option Word × Watched) ↦
        scan.1 = some (frame * kPageSize) ∧ Inside statics scan.2 ∧
          ∃ before : Watched, before.state = w.state ∧ scan.2 = before.grant frame)
      hlimit ⟨rfl, rfl, h⟩
    rintro ⟨returned, current⟩ wordIndex hindex ⟨-, hstate, hcurrent⟩
    rw [h.statics_eq] at hindex
    have hread := hcurrent.read (Loop.toNat_index_lt hindex)
    simp only
    rw [scanWord_eq, hstate]
    cases offeredFrame w.state wordIndex with
    | none => exact ⟨_, rfl, rfl, hstate, hread⟩
    | some frame =>
      exact ⟨_, rfl, rfl, hread.grant hlayout frame, (current.read _).2, hstate, rfl⟩
  obtain ⟨⟨returned, later⟩, hok, hscan⟩ := hloop
  rw [Watched.allocFrame, hok]
  cases hfound : scanBitmap w.state with
  | none =>
    rw [hfound] at hscan
    obtain ⟨rfl, hstate, hlater⟩ := hscan
    rw [allocFrame_of_scan_none hfound]
    exact ⟨_, rfl, congrArg (State.record · .exhausted) hstate, hlater.statics_eq,
      hlater.accesses_lt⟩
  | some frame =>
    rw [hfound] at hscan
    obtain ⟨rfl, hlater, before, hbefore, rfl⟩ := hscan
    rw [allocFrame_fst_of_scan_some hfound]
    refine ⟨_, rfl, ?_, hlater⟩
    simp only [grant_state, hbefore, Pmm.allocFrame, hfound]

theorem freeFrame_follows (hlayout : Layout statics) (h : Inside statics w) (address : Word) :
    Follows statics (w.freeFrame address) (freed w.state address) := by
  unfold freed Pmm.freeFrame
  by_cases haligned : address % kPageSize ≠ 0
  · have hwatched : w.freeFrame address = w := if_pos haligned
    simp only [hwatched, if_pos haligned]
    exact ⟨rfl, h⟩
  · by_cases hvalid : (!frameValid w.state (address / kPageSize)) = true
    · have hwatched : w.freeFrame address = w := (if_neg haligned).trans (if_pos hvalid)
      simp only [hwatched, if_neg haligned, if_pos hvalid]
      exact ⟨rfl, h⟩
    · have hword := h.word_lt hlayout hvalid
      have hread := h.read hword
      by_cases hfree : w.state.load (bitmapAddress w.state (address / kPageSize / kWordBits)) &&&
          1#64 <<< (address / kPageSize % kWordBits).toNat = 0
      · have hwatched : w.freeFrame address = (w.read (address / kPageSize / kWordBits)).2 :=
          (if_neg haligned).trans ((if_neg hvalid).trans (if_pos hfree))
        simp only [hwatched, if_neg haligned, if_neg hvalid, if_pos hfree]
        exact ⟨rfl, hread⟩
      · have hwatched : w.freeFrame address =
            (((w.read (address / kPageSize / kWordBits)).2.read
              (address / kPageSize / kWordBits)).2.write (address / kPageSize / kWordBits)
              (w.state.load (bitmapAddress w.state (address / kPageSize / kWordBits)) &&&
                ~~~(1#64 <<< (address / kPageSize % kWordBits).toNat))).setCount
              (w.state.freeFrameCount + 1) :=
          (if_neg haligned).trans ((if_neg hvalid).trans (if_neg hfree))
        simp only [hwatched, if_neg haligned, if_neg hvalid, if_neg hfree]
        exact ⟨rfl, ((hread.read hword).write hword _).setCount _⟩

/-- One call, with arbitrary arguments. -/
theorem perform_follows (hlimit : 2 ^ 64 ≤ limit) (hlayout : Layout statics)
    (h : Inside statics w) (client : Client) (hclient : w.state = client.state) (call : Call) :
    ∃ later, w.perform limit call = .ok later ∧
      Follows statics later (client.step call).state := by
  cases call with
  | alloc =>
    obtain ⟨later, hok, hlater⟩ := allocFrame_follows hlimit hlayout h
    rw [hclient] at hlater
    refine ⟨later, ?_, hlater⟩
    rw [perform, hok]
    rfl
  | free address =>
    have hlater := freeFrame_follows hlayout h address
    rw [hclient] at hlater
    exact ⟨_, rfl, hlater⟩

/-- Any sequence of calls, by induction over it. -/
theorem run_follows (hlimit : 2 ^ 64 ≤ limit) (hlayout : Layout statics)
    (h : Inside statics w) (client : Client) (hclient : w.state = client.state)
    (calls : List Call) :
    ∃ later, calls.foldlM (perform limit) w = .ok later ∧
      Follows statics later (Run.final Client.step client calls).state := by
  induction calls generalizing w client with
  | nil => exact ⟨w, rfl, hclient, h⟩
  | cons call calls ih =>
    obtain ⟨middle, hok, hstate, hmiddle⟩ := perform_follows hlimit hlayout h client hclient call
    obtain ⟨later, hrest, hlater⟩ := ih hmiddle _ hstate
    refine ⟨later, ?_, hlater⟩
    rw [List.foldlM_cons, hok]
    exact hrest

end Calls

end Watched

/-- **All bitmap accesses are in bounds.** For every array of regions `init` either halts before the
first access, or all its loops end; then the bitmap fits into the usable region chosen for it, and
every word index that `init`, or any later sequence of calls with arbitrary arguments, reads or
writes is below `bitmap_words`. -/
theorem bitmap_accesses_in_bounds (regions : Word → MemoryRegion) (count hhdmOffset : Word)
    (memory : Memory) {limit : ℕ} (hlimit : 2 ^ 64 ≤ limit) :
    (∃ fault, Watched.init limit regions count hhdmOffset memory = .error (.halted fault)) ∨
    ∃ w, Watched.init limit regions count hhdmOffset memory = .ok w ∧
      (∃ region ∈ Watched.regionList regions count,
        Watched.findBitmapRegion limit regions count (bitmapPages w.state.toStatics) =
          .ok (some region) ∧
        region.type = .usable ∧ w.state.bitmapPhys = region.base ∧
        w.state.bitmapWords.toNat * 8 ≤ (bitmapPages w.state.toStatics).toNat * 4096 ∧
        (bitmapPages w.state.toStatics).toNat * 4096 ≤ region.length.toNat) ∧
      (∀ word ∈ w.accesses, word.toNat < w.state.bitmapWords.toNat) ∧
      ∀ calls : List Call, ∃ later, calls.foldlM (Watched.perform limit) w = .ok later ∧
        later.state.toStatics = w.state.toStatics ∧
        ∀ word ∈ later.accesses, word.toNat < w.state.bitmapWords.toNat := by
  cases hinit : init (Watched.regionList regions count) hhdmOffset memory with
  | error fault => exact Or.inl ⟨fault, Watched.init_eq_halted hlimit hinit⟩
  | ok s =>
    right
    obtain ⟨w, hok, rfl, hinside⟩ := Watched.init_follows hlimit hinit
    have hinitialized := (init_spec hinit).1
    obtain ⟨region, hmem, hchosen, hfits⟩ := hinitialized.exists_chosen
    refine ⟨w, hok, ⟨region, hmem, ?_, hfits⟩, hinside.accesses_lt, ?_⟩
    · rw [Watched.findBitmapRegion_eq_ok hlimit, hchosen]
    · intro calls
      obtain ⟨later, hrun, -, hlater⟩ := Watched.run_follows hlimit hinitialized.layout hinside
        (Client.start w.state) rfl calls
      exact ⟨later, hrun, hlater.statics_eq, hlater.accesses_lt⟩

theorem bitmap_accesses_in_bounds_probeMap :
    ∃ w, Watched.init (2 ^ 64) (fun i ↦ probeMap.getD i.toNat ⟨0, 0, .reserved⟩) 4
        0xffff800000000000 (fun _ ↦ 0) = .ok w ∧
      (∀ word ∈ w.accesses, word.toNat < w.state.bitmapWords.toNat) ∧
      ∀ calls : List Call, ∃ later, calls.foldlM (Watched.perform (2 ^ 64)) w = .ok later ∧
        ∀ word ∈ later.accesses, word.toNat < w.state.bitmapWords.toNat := by
  have hlist : Watched.regionList (fun i ↦ probeMap.getD i.toNat ⟨0, 0, .reserved⟩) 4 =
      probeMap := by decide
  obtain ⟨s, hinit⟩ := exists_probeMap_init
  rw [← hlist] at hinit
  obtain ⟨started, hstarted, -⟩ := Watched.init_follows le_rfl hinit
  rcases bitmap_accesses_in_bounds (fun i ↦ probeMap.getD i.toNat ⟨0, 0, .reserved⟩) 4
    0xffff800000000000 (fun _ ↦ 0) (le_refl (2 ^ 64)) with ⟨fault, hfault⟩ | hreturns
  · rw [hstarted] at hfault
    cases hfault
  · obtain ⟨w, hok, -, haccesses, hcalls⟩ := hreturns
    refine ⟨w, hok, haccesses, ?_⟩
    intro calls
    obtain ⟨later, hrun, -, hlater⟩ := hcalls calls
    exact ⟨later, hrun, hlater⟩

end WaterBuffalo.Pmm
