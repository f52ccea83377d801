import WaterBuffalo.Lib.Numerals
import Mathlib.Data.Nat.Digits.Lemmas

/-!
# Reading numbers back

A reader that knows nothing of the conversion loops: it takes the characters from left to right and
sums up the digits they stand for.  A numeral is a nonempty string without a superfluous leading
zero, and every number has exactly one.  What the conversion functions send to the sink is that
one, for every 64-bit value and both signed widths.
-/

namespace WaterBuffalo.Print

/-! ## The reader -/

/-- The value of a digit character, lower case above nine. -/
def digitOf (byte : Byte) : Option ℕ :=
  if ascii '0' ≤ byte ∧ byte ≤ ascii '9' then some (byte.toNat - (ascii '0').toNat)
  else if ascii 'a' ≤ byte ∧ byte ≤ ascii 'f' then some (byte.toNat - (ascii 'a').toNat + 10)
  else none

/-- The number the characters denote behind the digits already read, most significant first. -/
def readBack (base : ℕ) : ℕ → List Byte → Option ℕ
  | total, [] => some total
  | total, byte :: bytes =>
    match digitOf byte with
    | none => none
    | some digit => if digit < base then readBack base (total * base + digit) bytes else none

/-- The characters are a numeral of the value: they read as it, without a superfluous zero. -/
structure IsNumeral (base value : ℕ) (bytes : List Byte) : Prop where
  nonempty : bytes ≠ []
  reads : readBack base 0 bytes = some value
  canonical : bytes.head? = some (ascii '0') → bytes = [ascii '0']

/-- The characters are a decimal numeral of the integer, with a sign if it is negative. -/
def IsSignedNumeral (value : ℤ) (bytes : List Byte) : Prop :=
  if value < 0 then ∃ rest, bytes = ascii '-' :: rest ∧ IsNumeral 10 value.natAbs rest
  else IsNumeral 10 value.natAbs bytes

/-! ## Digits -/

theorem digitByte_of_lt_ten {digit : ℕ} (h : digit < 10) :
    digitByte digit = BitVec.ofNat 8 (digit + 48) := by
  interval_cases digit <;> rfl

theorem digitByte_of_le_ten {digit : ℕ} (hlower : 10 ≤ digit) (hupper : digit < 16) :
    digitByte digit = BitVec.ofNat 8 (digit - 10 + 97) := by
  interval_cases digit <;> rfl

theorem digitOf_digitByte {digit : ℕ} (h : digit < 16) :
    digitOf (digitByte digit) = some digit := by
  interval_cases digit <;> rfl

/-- The reader's digits are the ones of the conversion table. -/
theorem digitOf_eq_some_iff {byte : Byte} {digit : ℕ} :
    digitOf byte = some digit ↔ digit < 16 ∧ byte = digitByte digit := by
  constructor
  · intro h
    have hzero : (ascii '0').toNat = 48 := rfl
    have hnine : (ascii '9').toNat = 57 := rfl
    have ha : (ascii 'a').toNat = 97 := rfl
    have hf : (ascii 'f').toNat = 102 := rfl
    have hbyte : BitVec.ofNat 8 byte.toNat = byte := by simp
    simp only [digitOf, BitVec.le_def, hzero, hnine, ha, hf] at h
    split_ifs at h with hdecimal hletter
    · obtain rfl := Option.some.inj h
      have hsum : byte.toNat - 48 + 48 = byte.toNat := by omega
      rw [digitByte_of_lt_ten (by omega), hsum, hbyte]
      exact ⟨by omega, rfl⟩
    · obtain rfl := Option.some.inj h
      have hsum : byte.toNat - 97 + 10 - 10 + 97 = byte.toNat := by omega
      rw [digitByte_of_le_ten (by omega) (by omega), hsum, hbyte]
      exact ⟨by omega, rfl⟩
  · rintro ⟨hdigit, rfl⟩
    exact digitOf_digitByte hdigit

/-- What the reader accepts, and the number it makes of it. -/
theorem readBack_eq_some_iff {base : ℕ} (hsmall : base ≤ 16) {total value : ℕ}
    {bytes : List Byte} :
    readBack base total bytes = some value ↔
      ∃ places : List ℕ, (∀ digit ∈ places, digit < base) ∧ bytes = places.map digitByte ∧
        value = total * base ^ places.length + Nat.ofDigits base places.reverse := by
  induction bytes generalizing total with
  | nil =>
    rw [readBack, Option.some.injEq]
    constructor
    · rintro rfl
      exact ⟨[], by simp, rfl, by simp⟩
    · rintro ⟨places, -, hbytes, rfl⟩
      obtain rfl := List.map_eq_nil_iff.mp hbytes.symm
      simp
  | cons byte bytes ih =>
    have hvalue (digit : ℕ) (places : List ℕ) :
        (total * base + digit) * base ^ places.length + Nat.ofDigits base places.reverse =
          total * base ^ (digit :: places).length +
            Nat.ofDigits base (digit :: places).reverse := by
      rw [List.reverse_cons, Nat.ofDigits_append, Nat.ofDigits_singleton, List.length_reverse,
        List.length_cons, pow_succ]
      ring
    rw [readBack]
    constructor
    · intro h
      split at h
      · cases h
      · rename_i digit hdigit
        obtain ⟨-, rfl⟩ := digitOf_eq_some_iff.mp hdigit
        split_ifs at h with hlt
        obtain ⟨places, hplaces, rfl, rfl⟩ := ih.mp h
        exact ⟨digit :: places, List.forall_mem_cons.mpr ⟨hlt, hplaces⟩, rfl, hvalue digit places⟩
    · rintro ⟨places, hplaces, hbytes, rfl⟩
      cases places with
      | nil => cases hbytes
      | cons digit places =>
        rw [List.forall_mem_cons] at hplaces
        rw [List.map_cons, List.cons.injEq] at hbytes
        obtain ⟨rfl, rfl⟩ := hbytes
        rw [digitOf_digitByte (lt_of_lt_of_le hplaces.1 hsmall)]
        simp only [if_pos hplaces.1]
        exact ih.mpr ⟨places, hplaces.2, rfl, (hvalue digit places).symm⟩

/-! ## Numerals -/

section Numerals

variable {base value : ℕ} {bytes : List Byte}

theorem digitByte_eq_zero_iff {digit : ℕ} (h : digit < 16) :
    digitByte digit = ascii '0' ↔ digit = 0 := by
  interval_cases digit <;> decide

theorem isNumeral_numeral (hbase : 1 < base) (hsmall : base ≤ 16) (value : ℕ) :
    IsNumeral base value (numeral base value) := by
  have hdigits : ∀ digit ∈ (Nat.digits base value).reverse, digit < base := by
    intro digit hdigit
    exact Nat.digits_lt_base hbase (List.mem_reverse.mp hdigit)
  rw [numeral]
  split_ifs with hzero
  · subst hzero
    refine ⟨List.cons_ne_nil _ _, ?_, fun _ ↦ rfl⟩
    exact (readBack_eq_some_iff hsmall).mpr ⟨[0], by simp; omega, rfl, by simp⟩
  · have hne : Nat.digits base value ≠ [] := Nat.digits_ne_nil_iff_ne_zero.mpr hzero
    refine ⟨?_, (readBack_eq_some_iff hsmall).mpr
      ⟨(Nat.digits base value).reverse, hdigits, ?_, ?_⟩, ?_⟩
    · simpa using hne
    · rw [List.map_reverse]
    · rw [Nat.zero_mul, Nat.zero_add, List.reverse_reverse, Nat.ofDigits_digits]
    · -- The first character is the last digit, which is not zero.
      intro hhead
      have hlast := Nat.getLast_digit_ne_zero base hzero
      have hmem : (Nat.digits base value).getLast hne < 16 :=
        lt_of_lt_of_le (Nat.digits_lt_base hbase (List.getLast_mem hne)) hsmall
      rw [List.head?_reverse, List.getLast?_map, List.getLast?_eq_some_getLast hne,
        Option.map_some, Option.some.injEq, digitByte_eq_zero_iff hmem] at hhead
      exact absurd hhead hlast

/-- **Every number has one numeral.** -/
theorem isNumeral_iff (hbase : 1 < base) (hsmall : base ≤ 16) :
    IsNumeral base value bytes ↔ bytes = numeral base value := by
  constructor
  · rintro ⟨hnonempty, hreads, hcanonical⟩
    obtain ⟨places, hplaces, rfl, hvalue⟩ := (readBack_eq_some_iff hsmall).mp hreads
    rw [Nat.zero_mul, Nat.zero_add] at hvalue
    cases places with
    | nil => exact absurd rfl hnonempty
    | cons first rest =>
      have hfirst := lt_of_lt_of_le (hplaces first List.mem_cons_self) hsmall
      by_cases hzero : first = 0
      · have hsingle := hcanonical (by rw [hzero]; rfl)
        rw [List.map_cons, List.cons.injEq, List.map_eq_nil_iff] at hsingle
        obtain ⟨-, rfl⟩ := hsingle
        rw [hvalue, hzero]
        rfl
      · have hdigits : Nat.digits base value = (first :: rest).reverse := by
          rw [hvalue]
          apply Nat.digits_ofDigits base hbase
          · intro digit hdigit
            exact hplaces digit (List.mem_reverse.mp hdigit)
          · intro hne
            rw [List.getLast_reverse]
            exact hzero
        have hpos : value ≠ 0 := by
          rintro rfl
          rw [Nat.digits_zero] at hdigits
          simp at hdigits
        rw [numeral, if_neg hpos, hdigits, ← List.map_reverse, List.reverse_reverse]
  · rintro rfl
    exact isNumeral_numeral hbase hsmall value

theorem isSignedNumeral_iff {value : ℤ} : IsSignedNumeral value bytes ↔
    bytes = signedNumeral value := by
  rw [IsSignedNumeral, signedNumeral]
  split_ifs
  · constructor
    · rintro ⟨rest, rfl, hrest⟩
      rw [(isNumeral_iff (by decide) (by decide)).mp hrest]
    · rintro rfl
      exact ⟨_, rfl, isNumeral_numeral (by decide) (by decide) _⟩
  · exact isNumeral_iff (by decide) (by decide)

theorem length_paddedHex (value count : ℕ) : (paddedHex value count).length = count := by
  induction count with
  | zero => rfl
  | succ count ih => rw [paddedHex, List.length_cons, ih]

/-- All digits of a padded number count, the leading zeros included. -/
theorem readBack_paddedHex (value count total : ℕ) :
    readBack 16 total (paddedHex value count) = some (total * 16 ^ count + value % 16 ^ count) := by
  induction count generalizing total with
  | zero => simp [paddedHex, readBack, Nat.mod_one]
  | succ count ih =>
    have hdigit : value / 16 ^ count % 16 < 16 := Nat.mod_lt _ (by decide)
    rw [paddedHex, readBack, digitOf_digitByte hdigit]
    simp only [if_pos hdigit]
    rw [ih, Option.some.injEq, pow_succ, Nat.mod_mul]
    ring

end Numerals

/-- **Number conversion is exact.** For every value and whatever the console: the conversion loops
end without leaving their buffers or the digit table, no signed operation overflows, and what is
sent is the one numeral of the value; the pointer loop sends sixteen digits that read as the
value. -/
theorem number_conversion_exact (console : Console) :
    (∀ value : Word, ∃ bytes, emitUnsigned console value 10 = .ok (emitAll console bytes) ∧
      ∀ other, IsNumeral 10 value.toNat other ↔ other = bytes) ∧
    (∀ value : Word, ∃ bytes, emitHex console value = .ok (emitAll console bytes) ∧
      ∀ other, IsNumeral 16 value.toNat other ↔ other = bytes) ∧
    (∀ value : BitVec 32, ∃ bytes, emitSigned console value = .ok (emitAll console bytes) ∧
      ∀ other, IsSignedNumeral value.toInt other ↔ other = bytes) ∧
    (∀ value : BitVec 64, ∃ bytes, emitLongSigned console value = .ok (emitAll console bytes) ∧
      ∀ other, IsSignedNumeral value.toInt other ↔ other = bytes) ∧
    ∀ value : Word, ∃ bytes,
      emitPointer console value = .ok (emitAll console ([ascii '0', ascii 'x'] ++ bytes)) ∧
      bytes.length = 16 ∧ readBack 16 0 bytes = some value.toNat := by
  refine ⟨fun value ↦ ?_, fun value ↦ ?_, fun value ↦ ?_, fun value ↦ ?_, fun value ↦ ?_⟩
  · exact ⟨_, emitUnsigned_eq console value, fun _ ↦ isNumeral_iff (by decide) (by decide)⟩
  · exact ⟨_, emitHex_eq console value, fun _ ↦ isNumeral_iff (by decide) (by decide)⟩
  · exact ⟨_, emitSignedOf_eq (by decide) (by decide) console value, fun _ ↦ isSignedNumeral_iff⟩
  · exact ⟨_, emitSignedOf_eq (by decide) (by decide) console value, fun _ ↦ isSignedNumeral_iff⟩
  · refine ⟨_, emitPointer_eq console value, length_paddedHex _ _, ?_⟩
    have hbound : value.toNat < 16 ^ 16 := value.isLt
    rw [readBack_paddedHex, Nat.zero_mul, Nat.zero_add, Nat.mod_eq_of_lt hbound]

end WaterBuffalo.Print
