import WaterBuffalo.Pmm.Conservation

/-!
# First fit

`alloc_frame` looks at 64 frames at a time.  The plain scan it stands for looks at one bit after
the other; the two pick the same frame in every state a history of calls can reach, and the frame
picked can be given back without a trace.
-/

namespace WaterBuffalo.Pmm

/-- The plain scan: the first frame whose bit is clear. -/
def firstFit (s : State) : Option ℕ :=
  (List.range s.frameCount.toNat).find? fun frame ↦ !used s frame

theorem firstFit_eq_none_iff {s : State} : firstFit s = none ↔ ∀ frame, ¬ Free s frame := by
  rw [firstFit, List.find?_range_eq_none]
  constructor
  · rintro hall frame ⟨hvalid, hclear⟩
    have hset := hall frame hvalid
    rw [hclear] at hset
    cases hset
  · intro hnone frame hvalid
    have hset : used s frame = true := by
      rw [← Bool.not_eq_false]
      exact fun hclear ↦ hnone frame ⟨hvalid, hclear⟩
    rw [hset]
    rfl

theorem firstFit_eq_some_iff {s : State} {frame : ℕ} :
    firstFit s = some frame ↔ IsLeast {frame | Free s frame} frame := by
  rw [firstFit, List.find?_range_eq_some]
  constructor
  · rintro ⟨hclear, hvalid, hlower⟩
    refine ⟨⟨List.mem_range.mp hvalid, by simpa using hclear⟩, fun other hother ↦ ?_⟩
    by_contra hlt
    have hset := hlower other (not_le.mp hlt)
    rw [hother.2] at hset
    cases hset
  · rintro ⟨⟨hvalid, hclear⟩, hleast⟩
    refine ⟨by rw [hclear]; rfl, List.mem_range.mpr hvalid, fun other hlt ↦ ?_⟩
    have hset : used s other = true := by
      rw [← Bool.not_eq_false]
      exact fun hclear ↦ absurd (hleast ⟨hlt.trans hvalid, hclear⟩) (not_le.mpr hlt)
    rw [hset]
    rfl

/-- **The word-level search is the plain scan.** -/
theorem scanBitmap_eq_firstFit {s : State} (hs : Sound s) :
    scanBitmap s = (firstFit s).map (BitVec.ofNat 64) := by
  cases hscan : scanBitmap s with
  | none =>
    have hnone := firstFit_eq_none_iff.mpr ((scanBitmap_eq_none_iff hs).mp hscan)
    rw [hnone]
    rfl
  | some frame =>
    rw [firstFit_eq_some_iff.mpr (isLeast_of_scan_some hs hscan), Option.map_some,
      BitVec.ofNat_toNat, BitVec.setWidth_eq]

/-! ## Giving the frame back -/

section Restore

variable {s : State} {frame : Word}

/-- The allocated frame's address names the frame again. -/
theorem allocFrame_address (hs : Sound s) (hscan : scanBitmap s = some frame) :
    (allocFrame s).1 / kPageSize = frame := by
  apply BitVec.eq_of_toNat_eq
  rw [BitVec.toNat_udiv, toNat_allocFrame_fst hs hscan, toNat_kPageSize]
  exact Nat.mul_div_cancel_left _ (by decide)

theorem allocFrame_accepts (hs : Sound s) (hscan : scanBitmap s = some frame) :
    Accepts (allocFrame s).2 (allocFrame s).1 := by
  have hvalid := (isLeast_of_scan_some hs hscan).1.1
  have hcount := hs.layout.frameCount_lt
  rw [Accepts, toNat_allocFrame_fst hs hscan, Nat.mul_div_cancel_left _ (by decide),
    allocFrame_toStatics, used_allocFrame hs hscan _ (by omega), if_pos rfl]
  exact ⟨Nat.mul_mod_right _ _, hvalid, rfl⟩

theorem allocFrame_memory (hs : Sound s) (hscan : scanBitmap s = some frame) :
    (allocFrame s).2.memory = ByteMemory.store64 s.memory (bitmapAddress s (frame / kWordBits))
      (s.load (bitmapAddress s (frame / kWordBits)) ||| 1#64 <<< (frame % kWordBits).toNat) := by
  have hvalid := (frameValid_iff s frame).mpr (isLeast_of_scan_some hs hscan).1.1
  simp only [allocFrame, hscan, setFrameUsed, hvalid, Bool.not_true, Bool.false_eq_true, if_false]
  rfl

/-- Allocating touches no byte outside the bitmap. -/
theorem allocFrame_outside (hs : Sound s) (hscan : scanBitmap s = some frame) {address : Word}
    (houtside : 8 * s.bitmapWords.toNat ≤ (address - s.bitmap).toNat) :
    (allocFrame s).2.memory address = s.memory address := by
  have hvalid := (isLeast_of_scan_some hs hscan).1.1
  have hcount := hs.layout.frameCount_lt
  have hwords := hs.layout.bitmapWords_eq
  have hword : (frame / kWordBits).toNat = frame.toNat / 64 := by
    rw [BitVec.toNat_udiv, toNat_kWordBits]
  rw [allocFrame_memory hs hscan, ByteMemory.store64, ByteMemory.write, if_neg]
  unfold bitmapAddress
  bv_omega

/-- Freeing the frame that was just allocated undoes everything but the ghost trace. -/
theorem freeFrame_allocFrame (hs : Sound s) (hscan : scanBitmap s = some frame) :
    ∃ restored, freeFrame (allocFrame s).2 (allocFrame s).1 = .ok restored ∧
      restored.memory = s.memory ∧ restored.freeFrameCount = s.freeFrameCount ∧
      restored.toStatics = s.toStatics := by
  have hclear := (testFrame_eq_zero_iff s frame).mpr (isLeast_of_scan_some hs hscan).1.2
  rw [Bits.and_bit_eq_zero_iff _ (bit_lt frame)] at hclear
  refine ⟨_, freeFrame_eq_of_accepts (allocFrame_accepts hs hscan), ?_, ?_, ?_⟩
  · rw [allocFrame_address hs hscan]
    have hpointer : bitmapAddress (allocFrame s).2 (frame / kWordBits) =
        bitmapAddress s (frame / kWordBits) := by
      rw [bitmapAddress, bitmapAddress, allocFrame_toStatics]
    have hload : (allocFrame s).2.load (bitmapAddress s (frame / kWordBits)) =
        s.load (bitmapAddress s (frame / kWordBits)) ||| 1#64 <<< (frame % kWordBits).toNat := by
      rw [State.load, allocFrame_memory hs hscan, ByteMemory.load64_store64_self]
    simp only [State.store, hpointer, hload, Bits.or_bit_and_not_bit (bit_lt frame) hclear]
    rw [allocFrame_memory hs hscan]
    exact ByteMemory.store64_restore _ _ _
  · simp only
    rw [allocFrame_freeFrameCount hscan]
    exact sub_add_cancel _ _
  · exact allocFrame_toStatics s

end Restore

/-- **`alloc_frame` is first fit.** After every history of calls the word-level search is the plain
scan.  If the scan finds no frame, nothing changes; else its frame's bit is set and nothing else
changes in the bitmap or outside it, the address handed out is exact, and freeing it at once
restores memory and counter. -/
theorem alloc_is_first_fit {regions : List MemoryRegion} {hhdmOffset : Word} {memory : Memory}
    {s : State} (hinit : init regions hhdmOffset memory = .ok s) (calls : List Call) :
    let state := (Run.final Client.step (Client.start s) calls).state
    scanBitmap state = (firstFit state).map (BitVec.ofNat 64) ∧
    match firstFit state with
    | none => (∀ frame < state.frameCount.toNat, used state frame = true) ∧
        allocFrame state = (0, state.record .exhausted)
    | some frame =>
      let address := (allocFrame state).1
      let later := (allocFrame state).2
      IsLeast {frame | Free state frame} frame ∧ address.toNat = frame * 4096 ∧
        (∀ position < 64 * state.bitmapWords.toNat,
          used later position = if position = frame then true else used state position) ∧
        (∀ other, 8 * state.bitmapWords.toNat ≤ (other - state.bitmap).toNat →
          later.memory other = state.memory other) ∧
        later.toStatics = state.toStatics ∧
        later.freeFrameCount = state.freeFrameCount - 1 ∧
        ∃ restored, freeFrame later address = .ok restored ∧ restored.memory = state.memory ∧
          restored.freeFrameCount = state.freeFrameCount ∧
          restored.toStatics = state.toStatics := by
  intro state
  have hinitial : Sound (Client.start s).state := init_sound hinit
  have hsound : Sound state := (Client.run_sound hinitial calls).1
  have hsame := scanBitmap_eq_firstFit hsound
  refine ⟨hsame, ?_⟩
  cases hfit : firstFit state with
  | none =>
    rw [hfit, Option.map_none] at hsame
    refine ⟨fun frame hvalid ↦ ?_, allocFrame_of_scan_none hsame⟩
    rw [← Bool.not_eq_false]
    exact fun hclear ↦ firstFit_eq_none_iff.mp hfit frame ⟨hvalid, hclear⟩
  | some frame =>
    have hleast := firstFit_eq_some_iff.mp hfit
    have hcount := hsound.layout.frameCount_lt
    have hframe : (BitVec.ofNat 64 frame).toNat = frame := by
      have hvalid := hleast.1.1
      rw [BitVec.toNat_ofNat]
      exact Nat.mod_eq_of_lt (by omega)
    rw [hfit, Option.map_some] at hsame
    have haddress := toNat_allocFrame_fst hsound hsame
    rw [hframe, Nat.mul_comm] at haddress
    refine ⟨hleast, haddress, fun position hposition ↦ ?_,
      fun other houtside ↦ allocFrame_outside hsound hsame houtside, allocFrame_toStatics state,
      allocFrame_freeFrameCount hsame, freeFrame_allocFrame hsound hsame⟩
    rw [used_allocFrame hsound hsame position (hsound.layout.frame_lt hposition), hframe]

theorem alloc_is_first_fit_probeMap :
    ∃ s, init probeMap 0xffff800000000000 (fun _ ↦ 0) = .ok s ∧
      let state := (Run.final Client.step (Client.start s) [.alloc, .free 0x2000, .free 7]).state
      scanBitmap state = (firstFit state).map (BitVec.ofNat 64) := by
  obtain ⟨s, hinit⟩ := exists_probeMap_init
  exact ⟨s, hinit, (alloc_is_first_fit hinit _).1⟩

end WaterBuffalo.Pmm
