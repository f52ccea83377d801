import WaterBuffalo.Foundation.ByteMemory

/-!
# Ranges and arrays of words

A range of addresses is given by its first byte and its size and may run across the end of the
address space.  What a read sees is decided by the bytes of its range, and a write changes nothing
outside its own; the words of an array are read one after the other.
-/

namespace WaterBuffalo.ByteMemory

/-- The byte is one of the `size` bytes from `start` on. -/
def Within (start : Word) (size : ℕ) (target : Word) : Prop :=
  (target - start).toNat < size

instance (start : Word) (size : ℕ) (target : Word) : Decidable (Within start size target) :=
  inferInstanceAs (Decidable (_ < _))

/-- No byte is in both ranges. -/
def Disjoint (left : Word) (leftSize : ℕ) (right : Word) (rightSize : ℕ) : Prop :=
  ∀ target, Within left leftSize target → ¬ Within right rightSize target

section Ranges

variable {memory other : Memory} {start target : Word} {size count index : ℕ}

theorem within_add (hindex : index < size) :
    Within start size (start + BitVec.ofNat 64 index) := by
  have hoffset : start + BitVec.ofNat 64 index - start = BitVec.ofNat 64 index := by
    rw [BitVec.add_comm, BitVec.add_sub_cancel]
  rw [Within, hoffset, BitVec.toNat_ofNat]
  exact lt_of_le_of_lt (Nat.mod_le _ _) hindex

/-- A part of a range. -/
theorem Within.of_part {offset : ℕ} (h : Within (start + BitVec.ofNat 64 offset) count target)
    (hfits : offset + count ≤ size) (hsize : size ≤ 2 ^ 64) : Within start size target := by
  have hsplit : target - start =
      target - (start + BitVec.ofNat 64 offset) + BitVec.ofNat 64 offset := by
    ring
  unfold Within at h ⊢
  rw [hsplit, BitVec.toNat_add, BitVec.toNat_ofNat]
  omega

/-- One range ends before the other begins. -/
theorem disjoint_of_le {left right : Word} {leftSize rightSize : ℕ}
    (h : left.toNat + leftSize ≤ right.toNat) (hright : right.toNat + rightSize ≤ 2 ^ 64) :
    Disjoint left leftSize right rightSize := by
  intro target
  unfold Within
  rw [BitVec.toNat_sub, BitVec.toNat_sub]
  have hbound := target.isLt
  omega

theorem read_congr {address : Word}
    (h : ∀ index < count, memory (address + BitVec.ofNat 64 index) =
      other (address + BitVec.ofNat 64 index)) :
    read memory address count = read other address count := by
  apply BitVec.eq_of_getLsbD_eq
  intro index hindex
  rw [getLsbD_read _ _ _ _ hindex, getLsbD_read _ _ _ _ hindex, h _ (by omega)]

/-- A write is invisible outside its range. -/
theorem write_of_not_within {address : Word} {value : BitVec (8 * count)}
    (h : ¬ Within address count target) : write memory address count value target = memory target :=
  if_neg h

theorem store64_of_not_within {address value : Word} (h : ¬ Within address 8 target) :
    store64 memory address value target = memory target :=
  write_of_not_within h

theorem load64_congr {address : Word} (h : ∀ target, Within address 8 target →
    memory target = other target) : load64 memory address = load64 other address :=
  read_congr fun _ hindex ↦ h _ (within_add hindex)

end Ranges

/-! ## Arrays of words -/

/-- The `count` words from `pointer` on. -/
def wordsAt (memory : Memory) (pointer : Word) : ℕ → List Word
  | 0 => []
  | count + 1 => load64 memory pointer :: wordsAt memory (pointer + 8) count

section Arrays

variable {memory other : Memory} {pointer : Word} {count index : ℕ}

theorem length_wordsAt (memory : Memory) (pointer : Word) (count : ℕ) :
    (wordsAt memory pointer count).length = count := by
  induction count generalizing pointer with
  | zero => rfl
  | succ count ih => rw [wordsAt, List.length_cons, ih]

theorem add_eight (pointer : Word) (index : ℕ) :
    pointer + 8 + BitVec.ofNat 64 (8 * index) = pointer + BitVec.ofNat 64 (8 * (index + 1)) := by
  have hsum : BitVec.ofNat 64 (8 * (index + 1)) = 8 + BitVec.ofNat 64 (8 * index) := by
    rw [Nat.mul_succ, Nat.add_comm, BitVec.ofNat_add]
    rfl
  rw [hsum, BitVec.add_assoc]

theorem getElem?_wordsAt (hindex : index < count) :
    (wordsAt memory pointer count)[index]? =
      some (load64 memory (pointer + BitVec.ofNat 64 (8 * index))) := by
  induction count generalizing pointer index with
  | zero => cases hindex
  | succ count ih =>
    cases index with
    | zero =>
      rw [Nat.mul_zero, BitVec.add_zero]
      rfl
    | succ index =>
      rw [wordsAt, List.getElem?_cons_succ, ih (Nat.lt_of_succ_lt_succ hindex), add_eight]

/-- One word of an array that is known as a whole. -/
theorem load64_of_wordsAt {words : List Word} (h : wordsAt memory pointer count = words)
    (hindex : index < count) :
    words[index]? = some (load64 memory (pointer + BitVec.ofNat 64 (8 * index))) := by
  rw [← h]
  exact getElem?_wordsAt hindex

theorem wordsAt_congr (hcount : 8 * count ≤ 2 ^ 64)
    (h : ∀ target, Within pointer (8 * count) target → memory target = other target) :
    wordsAt memory pointer count = wordsAt other pointer count := by
  apply List.ext_getElem?
  intro index
  by_cases hindex : index < count
  · rw [getElem?_wordsAt hindex, getElem?_wordsAt hindex]
    refine congrArg some (load64_congr fun target htarget ↦ h target ?_)
    exact htarget.of_part (by omega) hcount
  · rw [List.getElem?_eq_none, List.getElem?_eq_none]
    · rw [length_wordsAt]
      omega
    · rw [length_wordsAt]
      omega

/-- A prefix of an array. -/
theorem wordsAt_take (memory : Memory) (pointer : Word) (first second : ℕ) :
    wordsAt memory pointer first = (wordsAt memory pointer (first + second)).take first := by
  induction first generalizing pointer with
  | zero => rfl
  | succ first ih =>
    rw [Nat.succ_add, wordsAt, wordsAt, List.take_succ_cons, ← ih]

theorem wordsAt_drop (memory : Memory) (pointer : Word) (first second : ℕ) :
    wordsAt memory (pointer + BitVec.ofNat 64 (8 * first)) second =
      (wordsAt memory pointer (first + second)).drop first := by
  induction first generalizing pointer with
  | zero =>
    rw [Nat.zero_add, Nat.mul_zero, BitVec.add_zero]
    rfl
  | succ first ih =>
    rw [Nat.succ_add, wordsAt, List.drop_succ_cons, ← ih, add_eight]

end Arrays

/-! ## Arrays of records -/

/-- The address of the record `index` of an array. -/
def recordAt (base : Word) (size index : ℕ) : Word :=
  base + BitVec.ofNat 64 (size * index)

/-- A loop that assigns the first `count` records of an array. -/
def writeArray (memory : Memory) (base : Word) (size : ℕ) (value : ℕ → BitVec (8 * size))
    (count : ℕ) : Memory :=
  (List.range count).foldl
    (fun memory index ↦ write memory (recordAt base size index) size (value index)) memory

section Records

variable {memory : Memory} {base target : Word} {size count index : ℕ}
  {value : ℕ → BitVec (8 * size)}

theorem writeArray_succ (memory : Memory) (base : Word) (size : ℕ) (value : ℕ → BitVec (8 * size))
    (count : ℕ) :
    writeArray memory base size value (count + 1) =
      write (writeArray memory base size value count) (recordAt base size count) size
        (value count) := by
  rw [writeArray, List.range_succ, List.foldl_append]
  rfl

/-- Two records of an array share no byte. -/
theorem records_disjoint {other : ℕ} (hne : index ≠ other) (hindex : size * (index + 1) ≤ 2 ^ 64)
    (hother : size * (other + 1) ≤ 2 ^ 64) (h : Within (recordAt base size index) size target) :
    ¬ Within (recordAt base size other) size target := by
  have hsplit : target - recordAt base size other = target - recordAt base size index +
      (BitVec.ofNat 64 (size * index) - BitVec.ofNat 64 (size * other)) := by
    rw [recordAt, recordAt]
    ring
  unfold Within at h ⊢
  rw [hsplit]
  generalize target - recordAt base size index = offset at h ⊢
  rw [BitVec.toNat_add, BitVec.toNat_sub, BitVec.toNat_ofNat, BitVec.toNat_ofNat]
  rw [Nat.mul_succ] at hindex hother
  have hpos : 0 < size := by omega
  rw [Nat.mod_eq_of_lt (by omega : size * index < 2 ^ 64),
    Nat.mod_eq_of_lt (by omega : size * other < 2 ^ 64)]
  rcases Nat.lt_or_gt_of_ne hne with hlt | hgt
  · have hstep : size * index + size ≤ size * other := by
      rw [← Nat.mul_succ]
      exact Nat.mul_le_mul_left size hlt
    omega
  · have hstep : size * other + size ≤ size * index := by
      rw [← Nat.mul_succ]
      exact Nat.mul_le_mul_left size hgt
    omega

theorem read_writeArray (hindex : index < count) (hfits : size * count ≤ 2 ^ 64) :
    read (writeArray memory base size value count) (recordAt base size index) size =
      value index := by
  induction count with
  | zero => cases hindex
  | succ count ih =>
    rw [writeArray_succ]
    by_cases hlast : index = count
    · subst hlast
      apply read_write_self
      exact le_trans (Nat.le_mul_of_pos_right size (Nat.succ_pos _)) hfits
    · have hbefore : index < count := by omega
      have hbound : size * (index + 1) ≤ size * (count + 1) := Nat.mul_le_mul_left size (by omega)
      rw [← ih hbefore (le_trans (Nat.mul_le_mul_left size (Nat.le_succ count)) hfits)]
      apply read_congr
      intro offset hoffset
      apply write_of_not_within
      exact records_disjoint hlast (hbound.trans hfits) hfits (within_add hoffset)

theorem read_writeArray_of_le (hindex : count ≤ index) (hfits : size * (index + 1) ≤ 2 ^ 64) :
    read (writeArray memory base size value count) (recordAt base size index) size =
      read memory (recordAt base size index) size := by
  induction count with
  | zero => rfl
  | succ count ih =>
    have hbound : size * (count + 1) ≤ size * (index + 1) := Nat.mul_le_mul_left size (by omega)
    rw [writeArray_succ, ← ih (Nat.le_of_succ_le hindex)]
    apply read_congr
    intro offset hoffset
    apply write_of_not_within
    exact records_disjoint (by omega) hfits (hbound.trans hfits) (within_add hoffset)

theorem writeArray_of_not_within (hfits : size * count ≤ 2 ^ 64)
    (h : ¬ Within base (size * count) target) :
    writeArray memory base size value count target = memory target := by
  induction count with
  | zero => rfl
  | succ count ih =>
    have hless : size * count ≤ size * (count + 1) := Nat.mul_le_mul_left size (Nat.le_succ count)
    rw [writeArray_succ, write_of_not_within, ih (hless.trans hfits)]
    · intro hinside
      exact h (lt_of_lt_of_le hinside hless)
    · intro hinside
      exact h (hinside.of_part (by rw [Nat.mul_succ]) hfits)

end Records

end WaterBuffalo.ByteMemory
