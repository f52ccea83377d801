import WaterBuffalo.Foundation.ByteMemory

/-!
# Bits and masks of a 64-bit word

Single-bit masks test, set and clear one bit; a low mask is a remainder; a shifted field is a
quotient and a remainder.  These are the only bit facts the rest of the development uses, so that
every later argument is about Booleans or about natural numbers.
-/

namespace WaterBuffalo.Bits

/-- A mask with the single bit `index`. -/
theorem getLsbD_bit (index position : ℕ) (hindex : index < 64) :
    (1#64 <<< index).getLsbD position = decide (position = index) := by
  rw [BitVec.getLsbD_shiftLeft, BitVec.getLsbD_one]
  by_cases h : position = index
  · subst h
    simp [hindex]
  · have hne : position - index = 0 → position < index := by omega
    by_cases hlt : position < index
    · simp [h, hlt]
    · have : position - index ≠ 0 := fun hzero ↦ hlt (hne hzero)
      simp [h, this]

theorem and_bit_eq_zero_iff (word : Word) {index : ℕ} (hindex : index < 64) :
    word &&& 1#64 <<< index = 0 ↔ word.getLsbD index = false := by
  constructor
  · intro h
    have hbit := congrArg (fun value : Word ↦ value.getLsbD index) h
    simpa [BitVec.getLsbD_and, getLsbD_bit index index hindex] using hbit
  · intro h
    apply BitVec.eq_of_getLsbD_eq
    intro position hposition
    rw [BitVec.getLsbD_and, getLsbD_bit index position hindex]
    by_cases heq : position = index
    · simp [heq, h]
    · simp [heq]

theorem getLsbD_or_bit (word : Word) (index position : ℕ) (hindex : index < 64) :
    (word ||| 1#64 <<< index).getLsbD position =
      (word.getLsbD position || decide (position = index)) := by
  rw [BitVec.getLsbD_or, getLsbD_bit index position hindex]

/-- Setting a bit that is set changes nothing. -/
theorem or_bit_eq_self_iff (word : Word) {index : ℕ} (hindex : index < 64) :
    word ||| 1#64 <<< index = word ↔ word &&& 1#64 <<< index ≠ 0 := by
  rw [ne_eq, and_bit_eq_zero_iff word hindex, Bool.not_eq_false]
  constructor
  · intro h
    have hbit := congrArg (fun value : Word ↦ value.getLsbD index) h
    simpa [getLsbD_or_bit word index index hindex] using hbit
  · intro h
    apply BitVec.eq_of_getLsbD_eq
    intro position hposition
    rw [getLsbD_or_bit word index position hindex]
    by_cases heq : position = index
    · simp [heq, h]
    · simp [heq]

theorem getLsbD_and_not_bit (word : Word) (index position : ℕ) (hindex : index < 64)
    (hposition : position < 64) :
    (word &&& ~~~(1#64 <<< index)).getLsbD position =
      (word.getLsbD position && !decide (position = index)) := by
  rw [BitVec.getLsbD_and, BitVec.getLsbD_not, getLsbD_bit index position hindex]
  simp [hposition]

/-- Clearing the bit that was just set. -/
theorem or_bit_and_not_bit {word : Word} {index : ℕ} (hindex : index < 64)
    (hclear : word.getLsbD index = false) :
    (word ||| 1#64 <<< index) &&& ~~~(1#64 <<< index) = word := by
  apply BitVec.eq_of_getLsbD_eq
  intro position hposition
  rw [getLsbD_and_not_bit _ index position hindex hposition,
    getLsbD_or_bit word index position hindex]
  by_cases heq : position = index
  · simp [heq, hclear]
  · simp [heq]

/-- A word with no bit outside a mask is its own masked part. -/
theorem and_not_eq_zero_iff (word mask : Word) : word &&& ~~~mask = 0 ↔ word &&& mask = word := by
  have hbits : ∀ index < 64, ((word &&& ~~~mask).getLsbD index = (0 : Word).getLsbD index ↔
      (word &&& mask).getLsbD index = word.getLsbD index) := by
    intro index hindex
    simp only [BitVec.getLsbD_and, BitVec.getLsbD_not, hindex, decide_true, Bool.true_and,
      BitVec.ofNat_eq_ofNat, BitVec.getLsbD_zero]
    cases word.getLsbD index <;> cases mask.getLsbD index <;> decide
  constructor
  · intro h
    apply BitVec.eq_of_getLsbD_eq
    intro index hindex
    exact (hbits index hindex).mp (congrArg (fun value : Word ↦ value.getLsbD index) h)
  · intro h
    apply BitVec.eq_of_getLsbD_eq
    intro index hindex
    exact (hbits index hindex).mpr (congrArg (fun value : Word ↦ value.getLsbD index) h)

theorem or_eq_zero_iff {left right : Word} : left ||| right = 0 ↔ left = 0 ∧ right = 0 := by
  constructor
  · intro h
    have hbits := fun index : ℕ ↦ congrArg (fun word : Word ↦ word.getLsbD index) h
    simp only [BitVec.getLsbD_or, BitVec.ofNat_eq_ofNat, BitVec.getLsbD_zero,
      Bool.or_eq_false_iff] at hbits
    constructor
    · apply BitVec.eq_of_getLsbD_eq
      intro index _
      simp [hbits index]
    · apply BitVec.eq_of_getLsbD_eq
      intro index _
      simp [hbits index]
  · rintro ⟨rfl, rfl⟩
    rfl

theorem or_and_distrib (left right mask : Word) :
    (left ||| right) &&& mask = (left &&& mask) ||| (right &&& mask) := by
  apply BitVec.eq_of_getLsbD_eq
  intro index _
  simp only [BitVec.getLsbD_and, BitVec.getLsbD_or, Bool.and_or_distrib_right]

/-- A low mask is a remainder. -/
theorem toNat_and_lowMask (word mask : Word) (width : ℕ) (hmask : mask.toNat = 2 ^ width - 1) :
    (word &&& mask).toNat = word.toNat % 2 ^ width := by
  rw [BitVec.toNat_and, hmask, Nat.and_two_pow_sub_one_eq_mod]

/-- A field of a word is a quotient and a remainder. -/
theorem toNat_field (word mask : Word) (shift width : ℕ) (hmask : mask.toNat = 2 ^ width - 1) :
    ((word >>> shift) &&& mask).toNat = word.toNat / 2 ^ shift % 2 ^ width := by
  rw [toNat_and_lowMask _ _ width hmask, BitVec.toNat_ushiftRight, Nat.shiftRight_eq_div_pow]

/-- A field put above the bits of another word. -/
theorem toNat_shiftLeft_or {high low : Word} {shift : ℕ} (hlow : low.toNat < 2 ^ shift)
    (hhigh : high.toNat * 2 ^ shift < 2 ^ 64) :
    (high <<< shift ||| low).toNat = high.toNat * 2 ^ shift + low.toNat := by
  rw [← Nat.shiftLeft_eq] at hhigh
  rw [BitVec.toNat_or, BitVec.toNat_shiftLeft, Nat.mod_eq_of_lt hhigh,
    ← Nat.shiftLeft_add_eq_or_of_lt hlow, Nat.shiftLeft_eq]

/-- Clearing the low bits rounds down. -/
theorem toNat_and_notLowMask (word mask : Word) (width : ℕ) (hmask : mask.toNat = 2 ^ width - 1) :
    (word &&& ~~~mask).toNat = word.toNat / 2 ^ width * 2 ^ width := by
  have hsplit : (word &&& ~~~mask) + (word &&& mask) = word := by
    have hdisjoint : (word &&& ~~~mask) &&& (word &&& mask) = 0#64 := by
      apply BitVec.eq_of_getLsbD_eq
      intro index hindex
      simp only [BitVec.getLsbD_and, BitVec.getLsbD_not, hindex, decide_true, Bool.true_and,
        BitVec.getLsbD_zero]
      cases word.getLsbD index <;> cases mask.getLsbD index <;> rfl
    rw [BitVec.add_eq_or_of_and_eq_zero _ _ hdisjoint]
    apply BitVec.eq_of_getLsbD_eq
    intro index hindex
    simp only [BitVec.getLsbD_and, BitVec.getLsbD_or, BitVec.getLsbD_not, hindex, decide_true,
      Bool.true_and]
    cases word.getLsbD index <;> cases mask.getLsbD index <;> rfl
  have hle : (word &&& ~~~mask).toNat ≤ word.toNat := by
    rw [BitVec.toNat_and]
    exact Nat.and_le_left
  have hlow := toNat_and_lowMask word mask width hmask
  have hsum := congrArg BitVec.toNat hsplit
  have hdiv := Nat.div_add_mod word.toNat (2 ^ width)
  have hbound := word.isLt
  rw [BitVec.toNat_add, hlow] at hsum
  rw [Nat.mul_comm] at hdiv
  have hmodLe := Nat.mod_le word.toNat (2 ^ width)
  omega

/-- A loop that keeps the highest key: an upper bound that is the start or one of the keys. -/
theorem foldl_highest {Item : Type*} (key : Item → Word) (items : List Item) (start : Word) :
    let result := items.foldl
      (fun highest item ↦ if highest < key item then key item else highest) start
    (start ≤ result ∧ ∀ item ∈ items, key item ≤ result) ∧
      (result = start ∨ ∃ item ∈ items, result = key item) := by
  induction items generalizing start with
  | nil => exact ⟨⟨BitVec.le_refl _, by simp⟩, Or.inl rfl⟩
  | cons item items ih =>
    simp only [List.foldl_cons, List.forall_mem_cons, List.exists_mem_cons_iff]
    by_cases hlt : start < key item
    · obtain ⟨⟨hge, hall⟩, hattained⟩ := ih (key item)
      simp only [hlt, if_true]
      exact ⟨⟨by bv_omega, hge, hall⟩, Or.inr hattained⟩
    · obtain ⟨⟨hge, hall⟩, hattained⟩ := ih start
      simp only [hlt, if_false]
      exact ⟨⟨hge, by bv_omega, hall⟩, hattained.imp_right Or.inr⟩

theorem eq_zero_iff_toNat {width : ℕ} (word : BitVec width) : word = 0 ↔ word.toNat = 0 := by
  rw [← BitVec.toNat_inj]
  simp

/-! ## Fields -/

theorem getLsbD_lowMask {width count : ℕ} {mask : BitVec width} (hmask : mask.toNat = 2 ^ count - 1)
    (index : ℕ) : mask.getLsbD index = decide (index < count) := by
  rw [BitVec.getLsbD, hmask, Nat.testBit_two_pow_sub_one]

/-- The low bits of a value, moved to another place. -/
theorem getLsbD_placed {width count index : ℕ} (value : BitVec width) {mask : BitVec width}
    (hmask : mask.toNat = 2 ^ count - 1) (shift : ℕ) (hindex : index < 64) :
    ((value &&& mask).setWidth 64 <<< shift).getLsbD index =
      (decide (shift ≤ index ∧ index < shift + count) && value.getLsbD (index - shift)) := by
  rw [BitVec.getLsbD_shiftLeft, BitVec.getLsbD_setWidth, BitVec.getLsbD_and, getLsbD_lowMask hmask]
  by_cases hshift : shift ≤ index
  · have hinside : index - shift < 64 := by omega
    have hcount : index - shift < count ↔ index < shift + count := by omega
    simp [hindex, hinside, hshift, hcount, Nat.not_lt.mpr hshift, Bool.and_comm]
  · simp [hshift, Nat.lt_of_not_le hshift]

end WaterBuffalo.Bits
