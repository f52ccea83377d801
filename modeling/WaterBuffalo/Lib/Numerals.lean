import WaterBuffalo.Foundation.Bits
import WaterBuffalo.Lib.Print
import Mathlib.Data.Nat.Digits.Defs
import Mathlib.Tactic.Ring

/-!
# Printed numbers

The conversion loops write the digits of a number into a buffer, least significant first, and send
them back to front.  The buffers are long enough, the loops end, and what is sent is the numeral.
-/

namespace WaterBuffalo.Print

/-! ## Numerals -/

/-- The digit of a number below 16. -/
def digitByte (digit : ℕ) : Byte :=
  digits.getD digit 0

/-- The digits of a number in a base, most significant first. -/
def numeral (base value : ℕ) : List Byte :=
  if value = 0 then [ascii '0'] else ((Nat.digits base value).map digitByte).reverse

/-- A numeral with its sign. -/
def signedNumeral (value : ℤ) : List Byte :=
  if value < 0 then ascii '-' :: numeral 10 value.natAbs else numeral 10 value.natAbs

/-- The hexadecimal digits `count - 1` to `0` of a number, leading zeros included. -/
def paddedHex (value : ℕ) : ℕ → List Byte
  | 0 => []
  | count + 1 => digitByte (value / 16 ^ count % 16) :: paddedHex value count

/-! ## The sink -/

@[simp] theorem emitAll_nil (console : Console) : emitAll console [] = console := rfl

@[simp] theorem emitAll_cons (console : Console) (byte : Byte) (bytes : List Byte) :
    emitAll console (byte :: bytes) = emitAll (emit console byte) bytes := rfl

theorem emitAll_append (console : Console) (first second : List Byte) :
    emitAll console (first ++ second) = emitAll (emitAll console first) second :=
  List.foldl_append

/-! ## The conversion loops -/

theorem digitAt_of_lt {index : Word} (hindex : index.toNat < 16) :
    digitAt index = .ok (digitByte index.toNat) := by
  have hlength : index.toNat < digits.length := hindex
  rw [digitAt, digitByte, List.getD_eq_getElem?_getD, List.getElem?_eq_getElem hlength]
  rfl

/-- The loop writes one byte for each digit, so a buffer with room for them is enough. -/
theorem fillBuffer_eq {size base : ℕ} {digit next : Word → Word} (hbase : 1 < base)
    (hsmall : base ≤ 16) (hdigit : ∀ value, (digit value).toNat = value.toNat % base)
    (hnext : ∀ value, (next value).toNat = value.toNat / base) {width count : ℕ} {value : Word}
    {buffer : List Byte} (hvalue : value.toNat < base ^ width)
    (hroom : buffer.length + width ≤ size) (hcount : width < count) :
    fillBuffer size digit next count value buffer =
      .ok (((Nat.digits base value.toNat).map digitByte).reverse ++ buffer) := by
  induction width generalizing count value buffer with
  | zero =>
    obtain ⟨rest, rfl⟩ := Nat.exists_eq_succ_of_ne_zero hcount.ne'
    have hzero : value.toNat = 0 := by simpa using hvalue
    rw [fillBuffer, if_pos (BitVec.eq_of_toNat_eq hzero), hzero, Nat.digits_zero]
    rfl
  | succ width ih =>
    obtain ⟨rest, rfl⟩ := Nat.exists_eq_succ_of_ne_zero (by omega : count ≠ 0)
    by_cases hzero : value = 0
    · subst hzero
      rw [fillBuffer, if_pos rfl]
      simp
    · have hpos : 0 < value.toNat := by
        rw [Nat.pos_iff_ne_zero]
        exact fun heq ↦ hzero (BitVec.eq_of_toNat_eq heq)
      have hlast : (digit value).toNat < 16 := by
        rw [hdigit]
        exact lt_of_lt_of_le (Nat.mod_lt _ (by omega)) hsmall
      have hrest : (next value).toNat < base ^ width := by
        rw [hnext]
        exact Nat.div_lt_of_lt_mul (by rw [← pow_succ']; exact hvalue)
      rw [fillBuffer, if_neg hzero, if_neg (by omega), digitAt_of_lt hlast]
      simp only
      rw [ih hrest (by rw [List.length_cons]; omega) (by omega), hnext, hdigit,
        Nat.digits_def' hbase hpos, List.map_cons, List.reverse_cons, List.append_assoc]
      rfl

theorem emitDigits_eq (width : ℕ) {size base : ℕ} {digit next : Word → Word} (hbase : 1 < base)
    (hsmall : base ≤ 16) (hdigit : ∀ value, (digit value).toNat = value.toNat % base)
    (hnext : ∀ value, (next value).toNat = value.toNat / base) (hwidth : 2 ^ 64 ≤ base ^ width)
    (hroom : width ≤ size) (hcount : width < 65) (console : Console) (value : Word) :
    emitDigits size digit next console value =
      .ok (emitAll console (numeral base value.toNat)) := by
  rw [emitDigits, numeral]
  by_cases hzero : value = 0
  · rw [if_pos hzero, if_pos (by rw [hzero]; rfl)]
    rfl
  · have hne : value.toNat ≠ 0 := fun heq ↦ hzero (BitVec.eq_of_toNat_eq heq)
    have hvalue : value.toNat < base ^ width := lt_of_lt_of_le value.isLt hwidth
    rw [if_neg hzero, if_neg hne, fillBuffer_eq hbase hsmall hdigit hnext hvalue
      (by rw [List.length_nil]; omega) hcount, List.append_nil]

/-- A 64-bit number has at most 20 decimal digits, and the buffer has 24 bytes. -/
theorem emitUnsigned_eq (console : Console) (value : Word) :
    emitUnsigned console value 10 = .ok (emitAll console (numeral 10 value.toNat)) := by
  have hbase : ((10 : BitVec 32).setWidth 64).toNat = 10 := by decide
  exact emitDigits_eq 20 (by decide) (by decide)
    (fun value ↦ by rw [BitVec.toNat_umod, hbase]) (fun value ↦ by rw [BitVec.toNat_udiv, hbase])
    (by decide) (by decide) (by decide) console value

/-- A 64-bit number has at most 16 hexadecimal digits, all the buffer holds. -/
theorem emitHex_eq (console : Console) (value : Word) :
    emitHex console value = .ok (emitAll console (numeral 16 value.toNat)) := by
  refine emitDigits_eq 16 (by decide) (by decide) (fun value ↦ ?_) (fun value ↦ ?_)
    (by decide) (by decide) (by decide) console value
  · exact Bits.toNat_and_lowMask value 0xF 4 (by decide)
  · rw [BitVec.toNat_ushiftRight, Nat.shiftRight_eq_div_pow]

/-- Neither the sum nor its negation overflows, also for the least value. -/
theorem magnitude_eq {width : ℕ} (hwidth : 0 < width) {value : BitVec width}
    (hnegative : value.toInt < 0) :
    ∃ result, magnitude value = .ok result ∧ result.toNat = value.toInt.natAbs := by
  have hlower := BitVec.le_toInt value
  have hpower : (2 : ℤ) ^ width = 2 * 2 ^ (width - 1) := by
    rw [← pow_succ', Nat.sub_add_cancel hwidth]
  have hpos : (0 : ℤ) < 2 ^ (width - 1) := by positivity
  have hsum : signedResult width (value.toInt + 1) = .ok (value.toInt + 1) := by
    rw [signedResult, if_pos ⟨by omega, by omega⟩]
  have hnegated : signedResult width (-(value.toInt + 1)) = .ok (-(value.toInt + 1)) := by
    rw [signedResult, if_pos ⟨by omega, by omega⟩]
  refine ⟨BitVec.ofInt width (-(value.toInt + 1)) + 1, ?_, ?_⟩
  · simp only [magnitude, hsum, hnegated]
  · have hcast : ((2 ^ width : ℕ) : ℤ) = 2 ^ width := by norm_cast
    have hone : (1 : BitVec width).toNat = 1 :=
      Nat.mod_eq_of_lt (Nat.one_lt_two_pow hwidth.ne')
    have hrest : (BitVec.ofInt width (-(value.toInt + 1))).toNat = (-(value.toInt + 1)).toNat := by
      rw [BitVec.toNat_ofInt, Int.emod_eq_of_lt (by omega) (by omega)]
    rw [BitVec.toNat_add, hone, hrest, Nat.mod_eq_of_lt (by omega)]
    omega

theorem emitSignedOf_eq {width : ℕ} (hwidth : 0 < width) (hbound : width ≤ 64) (console : Console)
    (value : BitVec width) :
    emitSignedOf console value = .ok (emitAll console (signedNumeral value.toInt)) := by
  have hextend : ∀ word : BitVec width, (word.setWidth 64).toNat = word.toNat := by
    intro word
    rw [BitVec.toNat_setWidth]
    exact Nat.mod_eq_of_lt (lt_of_lt_of_le word.isLt (Nat.pow_le_pow_right (by decide) hbound))
  rw [emitSignedOf, signedNumeral]
  by_cases hnegative : value.toInt < 0
  · obtain ⟨result, hresult, htoNat⟩ := magnitude_eq hwidth hnegative
    rw [if_pos hnegative, if_pos hnegative, hresult]
    simp only
    rw [emitUnsigned_eq, hextend, htoNat, emitAll_cons]
  · have htoNat : value.toInt.natAbs = value.toNat := by
      have hlt := value.isLt
      have hcast : ((2 ^ width : ℕ) : ℤ) = 2 ^ width := by norm_cast
      rw [BitVec.toInt_eq_toNat_cond] at hnegative ⊢
      split_ifs at hnegative ⊢ <;> omega
    rw [if_neg hnegative, if_neg hnegative, emitUnsigned_eq, hextend, htoNat]

theorem emitPointerDigits_eq (value : Word) (count : ℕ) (console : Console) :
    emitPointerDigits value count console =
      .ok (emitAll console (paddedHex value.toNat count)) := by
  induction count generalizing console with
  | zero => rfl
  | succ count ih =>
    have hdigit : ((value >>> (count * 4)) &&& 0xF).toNat = value.toNat / 16 ^ count % 16 := by
      rw [Bits.toNat_and_lowMask _ 0xF 4 (by decide), BitVec.toNat_ushiftRight,
        Nat.shiftRight_eq_div_pow, Nat.mul_comm, pow_mul]
      rfl
    have hsmall : ((value >>> (count * 4)) &&& 0xF).toNat < 16 := by
      rw [hdigit]
      exact Nat.mod_lt _ (by decide)
    rw [emitPointerDigits, digitAt_of_lt hsmall, hdigit]
    exact ih _

/-- The pointer branch sends all sixteen digits. -/
theorem emitPointer_eq (console : Console) (value : Word) :
    emitPointer console value =
      .ok (emitAll console ([ascii '0', ascii 'x'] ++ paddedHex value.toNat 16)) := by
  rw [emitPointer, emitPointerDigits_eq, emitAll_append]

end WaterBuffalo.Print
