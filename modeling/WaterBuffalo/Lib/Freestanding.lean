import WaterBuffalo.Foundation.Copying
import WaterBuffalo.Foundation.CString

/-!
# Freestanding C library functions

The functions of `src/lib/string.cpp`.  Pointers are addresses, a loop over a counter is a fold over
the values the counter takes.  `memmove` picks the direction of its copy by comparing the two
pointers, so that a source byte is read before it is overwritten, however the ranges overlap.
-/

namespace WaterBuffalo.Freestanding

open Copying

/-- `&pointer[index]`. -/
def element (pointer : Word) (index : ℕ) : Word :=
  pointer + BitVec.ofNat 64 index

def memcpy (memory : Memory) (dest src n : Word) : Word × Memory :=
  (dest, copyEach (element dest) (element src) memory (List.range n.toNat))

def memset (memory : Memory) (s : Word) (c : BitVec 32) (n : Word) : Word × Memory :=
  (s, fillEach (element s) (c.setWidth 8) memory (List.range n.toNat))

def memmove (memory : Memory) (dest src n : Word) : Word × Memory :=
  if dest < src then
    (dest, copyEach (element dest) (element src) memory (List.range n.toNat))
  else if src < dest then
    -- The counter runs from `n` down to 1 and the index is one less.
    (dest, copyEach (element dest) (element src) memory (List.range n.toNat).reverse)
  else (dest, memory)

def memcmp (memory : Memory) (s1 s2 n : Word) : ℤ :=
  match (List.range n.toNat).find? fun index ↦
    memory (element s1 index) ≠ memory (element s2 index) with
  | none => 0
  | some index => if memory (element s1 index) < memory (element s2 index) then -1 else 1

/-! ## Ranges -/

/-- The address is one of the `n` bytes from `base` on. -/
def InRange (base n address : Word) : Prop :=
  base.toNat ≤ address.toNat ∧ address.toNat < base.toNat + n.toNat

instance (base n address : Word) : Decidable (InRange base n address) :=
  inferInstanceAs (Decidable (_ ∧ _))

/-- The range does not run past the end of the address space. -/
def Fits (base n : Word) : Prop :=
  base.toNat + n.toNat ≤ 2 ^ 64

section Ranges

variable {base n address : Word} {index : ℕ}

theorem toNat_element (h : Fits base n) (hindex : index < n.toNat) :
    (element base index).toNat = base.toNat + index := by
  unfold Fits at h
  rw [element, BitVec.toNat_add, BitVec.toNat_ofNat]
  omega

theorem inRange_element (h : Fits base n) (hindex : index < n.toNat) :
    InRange base n (element base index) := by
  rw [InRange, toNat_element h hindex]
  omega

/-- The bytes of a range are its elements. -/
theorem exists_element (h : Fits base n) (hrange : InRange base n address) :
    ∃ index < n.toNat, address = element base index := by
  obtain ⟨hle, hlt⟩ := hrange
  have hindex : address.toNat - base.toNat < n.toNat := by omega
  refine ⟨address.toNat - base.toNat, hindex, BitVec.eq_of_toNat_eq ?_⟩
  rw [toNat_element h hindex]
  omega

theorem ne_element (h : Fits base n) (houtside : ¬ InRange base n address)
    (hindex : index < n.toNat) : address ≠ element base index := by
  rintro rfl
  exact houtside (inRange_element h hindex)

end Ranges

/-! ## Copying -/

section Copy

variable {dest src n : Word}

/-- What one step must not overwrite, by offsets. -/
theorem spares_iff (hdest : Fits dest n) (hsrc : Fits src n) {earlier later : ℕ}
    (hearlier : earlier < n.toNat) (hlater : later < n.toNat) :
    (element dest earlier ≠ element src later ∧ element dest earlier ≠ element dest later) ↔
      dest.toNat + earlier ≠ src.toNat + later ∧ earlier ≠ later := by
  rw [← BitVec.toNat_ne_iff_ne, ← BitVec.toNat_ne_iff_ne, toNat_element hdest hearlier,
    toNat_element hdest hlater, toNat_element hsrc hlater]
  omega

/-- Downwards, in ascending order: a target lies below every source still to be read. -/
theorem orderly_ascending (hdest : Fits dest n) (hsrc : Fits src n) (hlt : dest < src) :
    Orderly (element dest) (element src) (List.range n.toNat) := by
  rw [BitVec.lt_def] at hlt
  refine List.pairwise_lt_range.imp_of_mem ?_
  intro earlier later hearlier hlater horder
  rw [List.mem_range] at hearlier hlater
  apply (spares_iff hdest hsrc hearlier hlater).mpr
  omega

/-- Upwards, in descending order: a target lies above every source still to be read. -/
theorem orderly_descending (hdest : Fits dest n) (hsrc : Fits src n) (hlt : src < dest) :
    Orderly (element dest) (element src) (List.range n.toNat).reverse := by
  rw [BitVec.lt_def] at hlt
  rw [Orderly, List.pairwise_reverse]
  refine List.pairwise_lt_range.imp_of_mem ?_
  intro later earlier hlater hearlier horder
  rw [List.mem_range] at hearlier hlater
  apply (spares_iff hdest hsrc hearlier hlater).mpr
  omega

/-- Ranges without a common byte can be copied in any order. -/
theorem orderly_of_disjoint (hdest : Fits dest n) (hsrc : Fits src n)
    (hdisjoint : ∀ address, ¬ (InRange dest n address ∧ InRange src n address)) :
    Orderly (element dest) (element src) (List.range n.toNat) := by
  refine List.pairwise_lt_range.imp_of_mem ?_
  intro earlier later hearlier hlater horder
  rw [List.mem_range] at hearlier hlater
  constructor
  · intro hsame
    apply hdisjoint (element dest earlier)
    refine ⟨inRange_element hdest hearlier, ?_⟩
    rw [hsame]
    exact inRange_element hsrc hlater
  · rw [← BitVec.toNat_ne_iff_ne, toNat_element hdest hearlier, toNat_element hdest hlater]
    omega

/-- What a copy of `n` bytes leaves behind. -/
structure Copied (dest src n : Word) (memory later : Memory) : Prop where
  copied : ∀ index < n.toNat, later (element dest index) = memory (element src index)
  kept : ∀ address, ¬ InRange dest n address → later address = memory address

/-- The memory after a copy is determined. -/
theorem Copied.unique {memory left right : Memory} (hdest : Fits dest n)
    (hleft : Copied dest src n memory left) (hright : Copied dest src n memory right) :
    left = right := by
  funext address
  by_cases hrange : InRange dest n address
  · obtain ⟨index, hindex, rfl⟩ := exists_element hdest hrange
    rw [hleft.copied index hindex, hright.copied index hindex]
  · rw [hleft.kept address hrange, hright.kept address hrange]

/-- Any orderly enumeration of the indices copies the range. -/
theorem copied_of_orderly {indices : List ℕ} (hdest : Fits dest n)
    (horderly : Orderly (element dest) (element src) indices)
    (hindices : ∀ index, index ∈ indices ↔ index < n.toNat) (memory : Memory) :
    Copied dest src n memory (copyEach (element dest) (element src) memory indices) := by
  constructor
  · intro index hindex
    exact copyEach_of_mem horderly ((hindices index).mpr hindex)
  · intro address houtside
    apply copyEach_of_forall_ne
    intro index hindex
    exact ne_element hdest houtside ((hindices index).mp hindex)

theorem memmove_copied (hdest : Fits dest n) (hsrc : Fits src n) (memory : Memory) :
    Copied dest src n memory (memmove memory dest src n).2 := by
  unfold memmove
  split_ifs with hdown hup
  · exact copied_of_orderly hdest (orderly_ascending hdest hsrc hdown)
      (fun _ ↦ List.mem_range) memory
  · apply copied_of_orderly hdest (orderly_descending hdest hsrc hup)
    intro index
    rw [List.mem_reverse, List.mem_range]
  · -- Equal pointers: nothing is copied and nothing has to be.
    have hsame : dest = src := by
      rw [BitVec.lt_def] at hdown hup
      exact BitVec.eq_of_toNat_eq (by omega)
    rw [hsame]
    exact ⟨fun index hindex ↦ rfl, fun address houtside ↦ rfl⟩

theorem memcpy_copied (hdest : Fits dest n) (hsrc : Fits src n)
    (hdisjoint : ∀ address, ¬ (InRange dest n address ∧ InRange src n address))
    (memory : Memory) : Copied dest src n memory (memcpy memory dest src n).2 :=
  copied_of_orderly hdest (orderly_of_disjoint hdest hsrc hdisjoint)
    (fun _ ↦ List.mem_range) memory

end Copy

/-- **`memmove` copies under any overlap.** Every byte of the destination receives the value the
source byte had before the call, nothing else changes, and `memcpy` does the same when the ranges
have no byte in common. -/
theorem memmove_copies {dest src n : Word} (hdest : dest.toNat + n.toNat ≤ 2 ^ 64)
    (hsrc : src.toNat + n.toNat ≤ 2 ^ 64) (memory : Memory) :
    (memmove memory dest src n).1 = dest ∧
    (∀ index < n.toNat, (memmove memory dest src n).2 (dest + BitVec.ofNat 64 index) =
      memory (src + BitVec.ofNat 64 index)) ∧
    (∀ address, ¬ InRange dest n address →
      (memmove memory dest src n).2 address = memory address) ∧
    ((∀ address, ¬ (InRange dest n address ∧ InRange src n address)) →
      memcpy memory dest src n = memmove memory dest src n) := by
  have hmove := memmove_copied hdest hsrc memory
  have hreturned : (memmove memory dest src n).1 = dest := by
    unfold memmove
    split_ifs <;> rfl
  refine ⟨hreturned, hmove.copied, hmove.kept, fun hdisjoint ↦ ?_⟩
  exact Prod.ext hreturned.symm
    ((memcpy_copied hdest hsrc hdisjoint memory).unique hdest hmove)

theorem memmove_copies_overlapping :
    let memory : Memory := fun address ↦ address.setWidth 8
    (memmove memory 0x1001 0x1000 3).2 0x1003 = 0x02 ∧
      (memmove memory 0x1001 0x1000 3).2 0x1004 = 0x04 ∧
      memcpy memory 0x2000 0x1000 3 = memmove memory 0x2000 0x1000 3 := by
  intro memory
  obtain ⟨-, hcopied, hkept, -⟩ :=
    memmove_copies (by decide : (0x1001 : Word).toNat + (3 : Word).toNat ≤ 2 ^ 64)
      (by decide : (0x1000 : Word).toNat + (3 : Word).toNat ≤ 2 ^ 64) memory
  obtain ⟨-, -, -, hdisjoint⟩ :=
    memmove_copies (by decide : (0x2000 : Word).toNat + (3 : Word).toNat ≤ 2 ^ 64)
      (by decide : (0x1000 : Word).toNat + (3 : Word).toNat ≤ 2 ^ 64) memory
  refine ⟨hcopied 2 (by decide), hkept 0x1004 (by decide), hdisjoint ?_⟩
  rintro address ⟨⟨hlow, -⟩, -, hhigh⟩
  exact absurd (lt_of_le_of_lt hlow hhigh) (by decide)

/-! ## Filling and comparing -/

theorem memset_fills {s n : Word} (h : Fits s n) (memory : Memory) (c : BitVec 32)
    (address : Word) :
    (memset memory s c n).2 address =
      if InRange s n address then c.setWidth 8 else memory address := by
  have hiff : (∃ index ∈ List.range n.toNat, address = element s index) ↔
      InRange s n address := by
    constructor
    · rintro ⟨index, hindex, rfl⟩
      exact inRange_element h (List.mem_range.mp hindex)
    · intro hrange
      obtain ⟨index, hindex, heq⟩ := exists_element h hrange
      exact ⟨index, List.mem_range.mpr hindex, heq⟩
  exact (fillEach_apply _ address).trans (if_congr hiff rfl rfl)

/-- `memcmp` decides by the first byte in which the two ranges differ. -/
theorem memcmp_spec (memory : Memory) (s1 s2 n : Word) :
    (memcmp memory s1 s2 n = 0 ↔
      ∀ index < n.toNat, memory (element s1 index) = memory (element s2 index)) ∧
    (memcmp memory s1 s2 n < 0 ↔ ∃ index < n.toNat,
      (∀ lower < index, memory (element s1 lower) = memory (element s2 lower)) ∧
        memory (element s1 index) < memory (element s2 index)) := by
  unfold memcmp
  split
  · rename_i hnone
    rw [List.find?_range_eq_none] at hnone
    simp only [decide_not, Bool.not_not, decide_eq_true_eq] at hnone
    refine ⟨iff_of_true rfl hnone, iff_of_false (by decide) ?_⟩
    rintro ⟨index, hindex, -, hlt⟩
    rw [hnone index hindex, BitVec.lt_def] at hlt
    exact lt_irrefl _ hlt
  · rename_i index hsome
    rw [List.find?_range_eq_some] at hsome
    simp only [decide_not, Bool.not_not, Bool.not_eq_true', decide_eq_false_iff_not,
      decide_eq_true_eq, List.mem_range] at hsome
    obtain ⟨hdiffers, hindex, hequal⟩ := hsome
    constructor
    · refine iff_of_false ?_ fun hall ↦ hdiffers (hall index hindex)
      split_ifs <;> decide
    · split_ifs with hlt
      · exact iff_of_true (by decide) ⟨index, hindex, hequal, hlt⟩
      · refine iff_of_false (by decide) ?_
        rintro ⟨other, hother, hbefore, hless⟩
        rcases Nat.lt_trichotomy index other with hcase | rfl | hcase
        · exact hdiffers (hbefore index hcase)
        · exact hlt hless
        · rw [hequal other hcase, BitVec.lt_def] at hless
          exact lt_irrefl _ hless

/-- The `n` bytes from `base` on. -/
def bytesFrom (memory : Memory) (base n : Word) : List (BitVec 8) :=
  (List.range n.toNat).map fun index ↦ memory (element base index)

theorem bytesFrom_lt_iff (memory : Memory) (s1 s2 n : Word) :
    bytesFrom memory s1 n < bytesFrom memory s2 n ↔ ∃ index < n.toNat,
      (∀ lower < index, memory (element s1 lower) = memory (element s2 lower)) ∧
        memory (element s1 index) < memory (element s2 index) := by
  rw [List.lt_iff_exists]
  have hlength : ∀ base, (bytesFrom memory base n).length = n.toNat := by
    simp [bytesFrom]
  constructor
  · rintro (⟨-, hshorter⟩ | ⟨index, hindex, _, hequal, hless⟩)
    · rw [hlength, hlength] at hshorter
      exact absurd hshorter (lt_irrefl _)
    · have hbound : index < n.toNat := hlength s1 ▸ hindex
      refine ⟨index, hbound, fun lower hlower ↦ ?_, ?_⟩
      · simpa [bytesFrom] using hequal lower hlower
      · simpa [bytesFrom] using hless
  · rintro ⟨index, hindex, hequal, hless⟩
    refine Or.inr ⟨index, by rwa [hlength], by rwa [hlength], fun lower hlower ↦ ?_, ?_⟩
    · simpa [bytesFrom] using hequal lower hlower
    · simpa [bytesFrom] using hless

theorem memcmp_swap (memory : Memory) (s1 s2 n : Word) :
    memcmp memory s2 s1 n = - memcmp memory s1 s2 n := by
  unfold memcmp
  have hfind : ((List.range n.toNat).find? fun index ↦
      memory (element s2 index) ≠ memory (element s1 index)) =
        (List.range n.toNat).find? fun index ↦
          memory (element s1 index) ≠ memory (element s2 index) := by
    simp only [ne_comm]
  rw [hfind]
  split
  · rfl
  · rename_i index hsome
    have hdiffers := List.find?_some hsome
    simp only [ne_eq, decide_not, Bool.not_eq_true', decide_eq_false_iff_not] at hdiffers
    rcases BitVec.lt_trichotomy (memory (element s1 index)) (memory (element s2 index)) with
      hless | hequal | hgreater
    · rw [if_pos hless, if_neg (BitVec.lt_asymm hless)]
      rfl
    · exact absurd hequal hdiffers
    · rw [if_neg (BitVec.lt_asymm hgreater), if_pos hgreater]

/-- **`memcmp` is the lexicographic order of the bytes.** -/
theorem memcmp_lexicographic (memory : Memory) (s1 s2 n : Word) :
    (memcmp memory s1 s2 n = 0 ↔ bytesFrom memory s1 n = bytesFrom memory s2 n) ∧
      (memcmp memory s1 s2 n < 0 ↔ bytesFrom memory s1 n < bytesFrom memory s2 n) ∧
      (0 < memcmp memory s1 s2 n ↔ bytesFrom memory s2 n < bytesFrom memory s1 n) := by
  obtain ⟨hzero, hless⟩ := memcmp_spec memory s1 s2 n
  refine ⟨?_, ?_, ?_⟩
  · rw [hzero, bytesFrom, bytesFrom, List.map_inj_left]
    simp only [List.mem_range]
  · rw [hless, bytesFrom_lt_iff]
  · rw [bytesFrom_lt_iff, ← (memcmp_spec memory s2 s1 n).2, memcmp_swap]
    omega

end WaterBuffalo.Freestanding
