import WaterBuffalo.Foundation.ByteMemory

/-!
# NUL-terminated strings in memory

A string is a pointer; its text is the bytes up to the first zero byte.  Pointers wrap around the
address space, so a string ends as soon as there is a zero byte anywhere in memory.
-/

namespace WaterBuffalo

abbrev Byte := BitVec 8

namespace CString

/-- The byte `offset` places behind the pointer. -/
def byteAt (memory : Memory) (pointer : Word) (offset : ℕ) : Byte :=
  memory (pointer + BitVec.ofNat 64 offset)

/-- The text stands behind the pointer and is followed by a zero byte. -/
structure Holds (memory : Memory) (pointer : Word) (text : List Byte) : Prop where
  bytes : ∀ offset (h : offset < text.length), byteAt memory pointer offset = text[offset]
  nonzero : ∀ byte ∈ text, byte ≠ 0
  terminated : byteAt memory pointer text.length = 0

/-- The bytes before the first zero byte among the next `count`. -/
def textWithin (memory : Memory) : ℕ → Word → Option (List Byte)
  | 0, _ => none
  | count + 1, pointer =>
    if memory pointer = 0 then some []
    else (textWithin memory count (pointer + 1)).map (memory pointer :: ·)

/-- The bytes before the first zero byte, if there is one in the whole memory. -/
def text (memory : Memory) (pointer : Word) : Option (List Byte) :=
  textWithin memory (2 ^ 64) pointer

theorem byteAt_zero (memory : Memory) (pointer : Word) :
    byteAt memory pointer 0 = memory pointer := by
  rw [byteAt, BitVec.add_zero]

theorem byteAt_succ (memory : Memory) (pointer : Word) (offset : ℕ) :
    byteAt memory pointer (offset + 1) = byteAt memory (pointer + 1) offset := by
  rw [byteAt, byteAt, Nat.add_comm, BitVec.ofNat_add, ← BitVec.add_assoc]
  rfl

theorem exists_textWithin {memory : Memory} {count offset : ℕ} {pointer : Word}
    (hoffset : offset < count) (hzero : byteAt memory pointer offset = 0) :
    ∃ text, textWithin memory count pointer = some text := by
  induction count generalizing pointer offset with
  | zero => cases hoffset
  | succ count ih =>
    rw [textWithin]
    split_ifs with hend
    · exact ⟨[], rfl⟩
    cases offset with
    | zero =>
      rw [byteAt_zero] at hzero
      exact absurd hzero hend
    | succ offset =>
      rw [byteAt_succ] at hzero
      obtain ⟨text, htext⟩ := ih (Nat.lt_of_succ_lt_succ hoffset) hzero
      rw [htext]
      exact ⟨memory pointer :: text, rfl⟩

/-- One zero byte ends every string. -/
theorem exists_text {memory : Memory} {address : Word} (hzero : memory address = 0)
    (pointer : Word) : ∃ bytes, text memory pointer = some bytes := by
  apply exists_textWithin (address - pointer).isLt
  rw [byteAt, BitVec.ofNat_toNat, BitVec.setWidth_eq, add_sub_cancel]
  exact hzero

/-! ## The text of a string -/

theorem Holds.tail {memory : Memory} {pointer : Word} {byte : Byte} {text : List Byte}
    (h : Holds memory pointer (byte :: text)) : Holds memory (pointer + 1) text := by
  refine ⟨fun offset hoffset ↦ ?_, (List.forall_mem_cons.mp h.nonzero).2, ?_⟩
  · have hbyte := h.bytes (offset + 1) (Nat.succ_lt_succ hoffset)
    rwa [byteAt_succ, List.getElem_cons_succ] at hbyte
  · have hend := h.terminated
    rwa [List.length_cons, byteAt_succ] at hend

/-- A text as long as the address space would have no room for its terminator. -/
theorem Holds.length_lt {memory : Memory} {pointer : Word} {text : List Byte}
    (h : Holds memory pointer text) : text.length < 2 ^ 64 := by
  by_contra hlong
  have hinside : text.length % 2 ^ 64 < text.length :=
    lt_of_lt_of_le (Nat.mod_lt _ (by decide)) (Nat.le_of_not_lt hlong)
  have hwrapped : byteAt memory pointer text.length =
      byteAt memory pointer (text.length % 2 ^ 64) := by
    have hoffset : BitVec.ofNat 64 text.length = BitVec.ofNat 64 (text.length % 2 ^ 64) := by
      apply BitVec.eq_of_toNat_eq
      rw [BitVec.toNat_ofNat, BitVec.toNat_ofNat, Nat.mod_mod]
    rw [byteAt, byteAt, hoffset]
  apply h.nonzero _ (List.getElem_mem hinside)
  rw [← h.bytes _ hinside, ← hwrapped, h.terminated]

theorem Holds.textWithin_eq {memory : Memory} {pointer : Word} {text : List Byte} {count : ℕ}
    (h : Holds memory pointer text) (hcount : text.length < count) :
    textWithin memory count pointer = some text := by
  induction text generalizing pointer count with
  | nil =>
    obtain ⟨rest, rfl⟩ := Nat.exists_eq_succ_of_ne_zero hcount.ne'
    have hend := h.terminated
    rw [List.length_nil, byteAt_zero] at hend
    rw [textWithin, if_pos hend]
  | cons byte text ih =>
    rw [List.length_cons] at hcount
    obtain ⟨rest, rfl⟩ := Nat.exists_eq_succ_of_ne_zero (by omega : count ≠ 0)
    have hbyte := h.bytes 0 (Nat.zero_lt_succ _)
    rw [byteAt_zero, List.getElem_cons_zero] at hbyte
    have hnonzero := (List.forall_mem_cons.mp h.nonzero).1
    rw [textWithin, hbyte, if_neg hnonzero, ih h.tail (by omega)]
    rfl

/-- What stands behind a pointer is its text. -/
theorem Holds.text_eq {memory : Memory} {pointer : Word} {text : List Byte}
    (h : Holds memory pointer text) : CString.text memory pointer = some text :=
  h.textWithin_eq h.length_lt

end CString

end WaterBuffalo
