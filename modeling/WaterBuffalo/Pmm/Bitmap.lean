import WaterBuffalo.Foundation.Bits
import WaterBuffalo.Pmm.Model
import Mathlib.Order.Bounds.Basic

/-!
# The bitmap as a set of frames

The bitmap is read as one Boolean per frame.  Setting and clearing a frame changes exactly that
Boolean, and the word-level scan of `alloc_frame` (skip full words, complement, count trailing
zeros, check the padding) finds the least free frame.  From here on no proof looks at a bitmap
word again.
-/

namespace WaterBuffalo.Pmm

@[simp] theorem toNat_kPageSize : kPageSize.toNat = 4096 := rfl

@[simp] theorem toNat_kWordBits : kWordBits.toNat = 64 := rfl

/-- The bit of one frame. -/
def used (s : State) (frame : ℕ) : Bool :=
  (s.load (bitmapAddress s (BitVec.ofNat 64 (frame / 64)))).getLsbD (frame % 64)

/-- A frame the allocator can hand out. -/
def Free (s : State) (frame : ℕ) : Prop :=
  frame < s.frameCount.toNat ∧ used s frame = false

instance (s : State) (frame : ℕ) : Decidable (Free s frame) :=
  inferInstanceAs (Decidable (_ ∧ _))

/-- The sizes `init` computes agree with each other. -/
structure Layout (s : Statics) : Prop where
  frameCount_lt : s.frameCount.toNat < 2 ^ 52
  bitmapWords_eq : s.bitmapWords.toNat = (s.frameCount.toNat + 63) / 64

/-- The bits past the last frame are set, so the scan never offers them. -/
def Padded (s : State) : Prop :=
  ∀ frame, s.frameCount.toNat ≤ frame → frame < 64 * s.bitmapWords.toNat → used s frame = true

theorem frameValid_iff (s : State) (frame : Word) :
    frameValid s frame = true ↔ frame.toNat < s.frameCount.toNat := by
  simp [frameValid, BitVec.lt_def]

theorem used_congr {s t : State} (hstatics : t.toStatics = s.toStatics)
    (hmemory : t.memory = s.memory) (frame : ℕ) : used t frame = used s frame := by
  simp only [used, bitmapAddress, State.load, hmemory, hstatics]

theorem bitmapAddress_apart (s : State) {left right : ℕ} (hleft : left < 2 ^ 60)
    (hright : right < 2 ^ 60) (hne : left ≠ right) :
    ByteMemory.Apart (bitmapAddress s (BitVec.ofNat 64 left))
      (bitmapAddress s (BitVec.ofNat 64 right)) := by
  unfold bitmapAddress
  constructor <;> bv_omega

/-- Assigning one bitmap word changes the bits of its 64 frames. -/
theorem used_store (s : State) (word value : Word) (frame : ℕ) (hword : word.toNat < 2 ^ 60)
    (hframe : frame < 2 ^ 60) :
    used (s.store (bitmapAddress s word) value) frame =
      if frame / 64 = word.toNat then value.getLsbD (frame % 64) else used s frame := by
  by_cases hsame : frame / 64 = word.toNat
  · have haddress : BitVec.ofNat 64 (frame / 64) = word := by
      rw [hsame, BitVec.ofNat_toNat, BitVec.setWidth_eq]
    rw [if_pos hsame, used, haddress]
    exact congrArg (fun loaded : Word ↦ loaded.getLsbD (frame % 64)) (State.load_store_self _ _ _)
  · have hapart := bitmapAddress_apart s (by omega : frame / 64 < 2 ^ 60) hword hsame
    rw [BitVec.ofNat_toNat, BitVec.setWidth_eq] at hapart
    rw [if_neg hsame, used, used]
    exact congrArg (fun loaded : Word ↦ loaded.getLsbD (frame % 64))
      (State.load_store_of_apart _ _ hapart)

/-! ## Setting and clearing one frame -/

@[simp] theorem setFrameUsed_toStatics (s : State) (frame : Word) :
    (setFrameUsed s frame).toStatics = s.toStatics := by
  unfold setFrameUsed
  split <;> rfl

@[simp] theorem setFrameFree_toStatics (s : State) (frame : Word) :
    (setFrameFree s frame).toStatics = s.toStatics := by
  unfold setFrameFree
  split <;> rfl

theorem setFrameUsed_freeFrameCount (s : State) (frame : Word) :
    (setFrameUsed s frame).freeFrameCount = s.freeFrameCount := by
  unfold setFrameUsed
  split <;> rfl

theorem setFrameFree_freeFrameCount (s : State) (frame : Word) :
    (setFrameFree s frame).freeFrameCount = s.freeFrameCount := by
  unfold setFrameFree
  split <;> rfl

theorem frame_position (frame : Word) (position : ℕ) :
    (position / 64 = (frame / kWordBits).toNat ∧ position % 64 = (frame % kWordBits).toNat) ↔
      position = frame.toNat := by
  rw [BitVec.toNat_udiv, BitVec.toNat_umod, toNat_kWordBits]
  omega

/-- The three places that rewrite one bit of the bitmap differ in the new bit only. -/
theorem used_store_bit (s : State) (frame value : Word) (bit : Bool) (position : ℕ)
    (hframe : frame.toNat < 2 ^ 52) (hposition : position < 2 ^ 60)
    (hvalue : ∀ index < 64, value.getLsbD index =
      if index = (frame % kWordBits).toNat then bit
      else (s.load (bitmapAddress s (frame / kWordBits))).getLsbD index) :
    used (s.store (bitmapAddress s (frame / kWordBits)) value) position =
      if position = frame.toNat then bit else used s position := by
  have hword : (frame / kWordBits).toNat < 2 ^ 60 := by
    rw [BitVec.toNat_udiv, toNat_kWordBits]
    omega
  rw [used_store s _ _ position hword hposition, hvalue _ (Nat.mod_lt _ (by decide))]
  by_cases hsame : position / 64 = (frame / kWordBits).toNat
  · have hload : s.load (bitmapAddress s (frame / kWordBits)) =
        s.load (bitmapAddress s (BitVec.ofNat 64 (position / 64))) := by
      rw [hsame, BitVec.ofNat_toNat, BitVec.setWidth_eq]
    have hiff := frame_position frame position
    rw [if_pos hsame, hload]
    by_cases hbit : position % 64 = (frame % kWordBits).toNat
    · rw [if_pos hbit, if_pos (hiff.mp ⟨hsame, hbit⟩)]
    · rw [if_neg hbit, if_neg fun heq ↦ hbit (hiff.mpr heq).2]
      rfl
  · rw [if_neg hsame, if_neg fun heq ↦ hsame ((frame_position frame position).mpr heq).1]

theorem bit_lt (frame : Word) : (frame % kWordBits).toNat < 64 := by
  rw [BitVec.toNat_umod, toNat_kWordBits]
  exact Nat.mod_lt _ (by decide)

theorem used_setFrameUsed (s : State) (hlayout : Layout s.toStatics) (frame : Word)
    (hvalid : frame.toNat < s.frameCount.toNat) (position : ℕ) (hposition : position < 2 ^ 60) :
    used (setFrameUsed s frame) position =
      if position = frame.toNat then true else used s position := by
  have hcount := hlayout.frameCount_lt
  rw [setFrameUsed, (frameValid_iff s frame).mpr hvalid]
  apply used_store_bit s frame _ true position (by omega) hposition
  intro index _
  rw [Bits.getLsbD_or_bit _ _ _ (bit_lt frame)]
  by_cases h : index = (frame % kWordBits).toNat
  · rw [if_pos h, decide_eq_true h, Bool.or_true]
  · rw [if_neg h, decide_eq_false h, Bool.or_false]

/-- What clearing one bit of one bitmap word does, shared by `init` and `free_frame`. -/
theorem used_clear (s : State) (frame : Word) (hframe : frame.toNat < 2 ^ 52) (position : ℕ)
    (hposition : position < 2 ^ 60) :
    used (s.store (bitmapAddress s (frame / kWordBits))
        (s.load (bitmapAddress s (frame / kWordBits)) &&&
          ~~~(1#64 <<< (frame % kWordBits).toNat))) position =
      if position = frame.toNat then false else used s position := by
  apply used_store_bit s frame _ false position hframe hposition
  intro index hindex
  rw [Bits.getLsbD_and_not_bit _ _ _ (bit_lt frame) hindex]
  by_cases h : index = (frame % kWordBits).toNat
  · rw [if_pos h, decide_eq_true h, Bool.not_true, Bool.and_false]
  · rw [if_neg h, decide_eq_false h, Bool.not_false, Bool.and_true]

theorem used_setFrameFree (s : State) (hlayout : Layout s.toStatics) (frame : Word)
    (hvalid : frame.toNat < s.frameCount.toNat) (position : ℕ) (hposition : position < 2 ^ 60) :
    used (setFrameFree s frame) position =
      if position = frame.toNat then false else used s position := by
  have hcount := hlayout.frameCount_lt
  rw [setFrameFree, (frameValid_iff s frame).mpr hvalid]
  exact used_clear s frame (by omega) position hposition

/-- The bit test of `init` and `free_frame`. -/
theorem testFrame_eq_zero_iff (s : State) (frame : Word) :
    s.load (bitmapAddress s (frame / kWordBits)) &&& 1#64 <<< (frame % kWordBits).toNat = 0 ↔
      used s frame.toNat = false := by
  rw [Bits.and_bit_eq_zero_iff _ (bit_lt frame), used]
  have hword : BitVec.ofNat 64 (frame.toNat / 64) = frame / kWordBits := by
    apply BitVec.eq_of_toNat_eq
    rw [BitVec.toNat_ofNat, BitVec.toNat_udiv, toNat_kWordBits]
    exact Nat.mod_eq_of_lt (by have := frame.isLt; omega)
  rw [hword, BitVec.toNat_umod, toNat_kWordBits]

/-! ## The scan -/

theorem Layout.frame_lt {s : Statics} (h : Layout s) {frame : ℕ}
    (hframe : frame < 64 * s.bitmapWords.toNat) : frame < 2 ^ 60 := by
  have hcount := h.frameCount_lt
  have hwords := h.bitmapWords_eq
  omega

theorem Layout.lt_bits {s : Statics} (h : Layout s) {frame : ℕ}
    (hframe : frame < s.frameCount.toNat) : frame < 64 * s.bitmapWords.toNat := by
  have hwords := h.bitmapWords_eq
  omega

/-- The position within its word of the frame a non-full bitmap word offers. -/
theorem ctz_complement {word : Word} (hfull : word ≠ BitVec.allOnes 64) :
    (~~~word).ctz.toNat < 64 ∧ word.getLsbD (~~~word).ctz.toNat = false ∧
      ∀ index < (~~~word).ctz.toNat, word.getLsbD index = true := by
  have hne : ~~~word ≠ 0#64 := by
    intro hzero
    apply hfull
    rw [← BitVec.not_not (b := word), hzero]
    rfl
  have hlt : (~~~word).ctz.toNat < 64 := by
    have h := BitVec.ctz_lt_iff_ne_zero.mpr hne
    rw [BitVec.lt_def] at h
    simpa using h
  refine ⟨hlt, ?_, ?_⟩
  · have h := BitVec.getLsbD_true_ctz_of_ne_zero hne
    rw [BitVec.getLsbD_not] at h
    simpa [hlt] using h
  · intro index hindex
    have h := BitVec.getLsbD_false_of_lt_ctz hindex
    rw [BitVec.getLsbD_not] at h
    have hbound : index < 64 := by omega
    simpa [hbound] using h

/-- One step of the scan: the offer of a bitmap word is the least free frame among its 64. -/
theorem offeredFrame_spec (s : State) (hlayout : Layout s.toStatics) (hpadded : Padded s)
    (wordIndex : ℕ) (hindex : wordIndex < s.bitmapWords.toNat) :
    match offeredFrame s wordIndex with
    | none => ∀ frame, frame / 64 = wordIndex → ¬ Free s frame
    | some frame => frame.toNat / 64 = wordIndex ∧ Free s frame.toNat ∧
        ∀ lower, lower / 64 = wordIndex → lower < frame.toNat → ¬ Free s lower := by
  have hwords := hlayout.bitmapWords_eq
  have hcount := hlayout.frameCount_lt
  set word := s.load (bitmapAddress s (BitVec.ofNat 64 wordIndex)) with hword
  have hused : ∀ frame, frame / 64 = wordIndex → used s frame = word.getLsbD (frame % 64) := by
    intro frame hframe
    rw [used, hframe]
  unfold offeredFrame
  simp only [← hword]
  by_cases hfull : word = BitVec.allOnes 64
  · simp only [hfull, if_true]
    intro frame hframe hfree
    have hbit := hfree.2
    rw [hused frame hframe, hfull, BitVec.getLsbD_allOnes] at hbit
    exact absurd (Nat.mod_lt frame (by decide)) (of_decide_eq_false hbit)
  · obtain ⟨hbound, hclear, hlower⟩ := ctz_complement hfull
    have hframe : (BitVec.ofNat 64 wordIndex * kWordBits + (~~~word).ctz).toNat =
        64 * wordIndex + (~~~word).ctz.toNat := by
      rw [BitVec.toNat_add, BitVec.toNat_mul, BitVec.toNat_ofNat, toNat_kWordBits]
      omega
    set frame := BitVec.ofNat 64 wordIndex * kWordBits + (~~~word).ctz with hframeDef
    have hdiv : frame.toNat / 64 = wordIndex := by omega
    have hmod : frame.toNat % 64 = (~~~word).ctz.toNat := by omega
    have hbit : used s frame.toNat = false := by rw [hused _ hdiv, hmod, hclear]
    -- A padding bit is never clear, so the final check of the source always passes.
    have hvalid : frame.toNat < s.frameCount.toNat := by
      by_contra hpadding
      have := hpadded frame.toNat (by omega) (by omega)
      rw [hbit] at this
      exact Bool.noConfusion this
    simp only [hfull, if_false, (frameValid_iff s frame).mpr hvalid, Bool.not_true,
      Bool.false_eq_true]
    refine ⟨hdiv, ⟨hvalid, hbit⟩, ?_⟩
    intro lower hlowerDiv hlt hfree
    have hset := hlower (lower % 64) (by omega)
    rw [← hused lower hlowerDiv, hfree.2] at hset
    exact Bool.noConfusion hset

/-- The scan over the first `count` words finds the least free frame they hold. -/
theorem scan_words (s : State) (hlayout : Layout s.toStatics) (hpadded : Padded s)
    (count : ℕ) (hcount : count ≤ s.bitmapWords.toNat) :
    match (List.range count).findSome? (offeredFrame s) with
    | none => ∀ frame, frame / 64 < count → ¬ Free s frame
    | some frame => IsLeast {frame | Free s frame} frame.toNat := by
  induction count with
  | zero => simp
  | succ count ih =>
    have hprevious := ih (by omega)
    have hoffer := offeredFrame_spec s hlayout hpadded count (by omega)
    rw [List.range_succ, List.findSome?_append]
    cases hscan : (List.range count).findSome? (offeredFrame s) with
    | some frame =>
      rw [hscan] at hprevious
      simpa using hprevious
    | none =>
      rw [hscan] at hprevious
      cases hword : offeredFrame s count with
      | none =>
        rw [hword] at hoffer
        simp only [List.findSome?_cons, hword, List.findSome?_nil, Option.or_none]
        intro frame hframe
        by_cases hlast : frame / 64 = count
        · exact hoffer frame hlast
        · exact hprevious frame (by omega)
      | some frame =>
        rw [hword] at hoffer
        obtain ⟨hdiv, hfree, hleast⟩ := hoffer
        simp only [List.findSome?_cons, hword, Option.none_or]
        refine ⟨hfree, ?_⟩
        intro lower hlower
        by_contra hlt
        by_cases hlast : lower / 64 = count
        · exact hleast lower hlast (by omega) hlower
        · exact hprevious lower (by omega) hlower

/-- **First fit.** The word-level search agrees with the plain scan of all frames. -/
theorem scanBitmap_spec (s : State) (hlayout : Layout s.toStatics) (hpadded : Padded s) :
    match scanBitmap s with
    | none => ∀ frame, ¬ Free s frame
    | some frame => IsLeast {frame | Free s frame} frame.toNat := by
  have h := scan_words s hlayout hpadded s.bitmapWords.toNat le_rfl
  unfold scanBitmap
  cases hscan : (List.range s.bitmapWords.toNat).findSome? (offeredFrame s) with
  | some frame =>
    rw [hscan] at h
    exact h
  | none =>
    rw [hscan] at h
    intro frame hfree
    have hbits := hlayout.lt_bits hfree.1
    exact h frame (by omega) hfree

end WaterBuffalo.Pmm
