import Mathlib.Data.BitVec
import Mathlib.Tactic.Ring

/-!
# Byte-addressed memory with little-endian words

A memory maps every 64-bit address to a byte.  Multi-byte accesses are little endian and wrap
around the address space, as the processor's do; nothing is assumed about alignment.  The two
access laws are stated for arbitrary widths: a write is read back at its own address, and it is
invisible to a read whose bytes it does not touch.  Separation of the 64-bit accesses is the
relation `Apart`, which later developments discharge by arithmetic on addresses.
-/

namespace WaterBuffalo

/-- The machine word. -/
abbrev Word := BitVec 64

/-- One byte for every 64-bit address. -/
abbrev Memory := Word → BitVec 8

namespace ByteMemory

/-- The `count` bytes at `address`, least significant byte first. -/
def read (memory : Memory) (address : Word) : (count : ℕ) → BitVec (8 * count)
  | 0 => 0
  | count + 1 => read memory (address + 1) count ++ memory address

/-- Overwrite the `count` bytes at `address`. -/
def write (memory : Memory) (address : Word) (count : ℕ) (value : BitVec (8 * count)) : Memory :=
  fun target ↦
    if (target - address).toNat < count then
      value.extractLsb' (8 * (target - address).toNat) 8
    else memory target

theorem getLsbD_read (memory : Memory) (address : Word) (count index : ℕ)
    (hindex : index < 8 * count) :
    (read memory address count).getLsbD index =
      (memory (address + BitVec.ofNat 64 (index / 8))).getLsbD (index % 8) := by
  induction count generalizing address index with
  | zero => omega
  | succ count ih =>
    rw [read, BitVec.getLsbD_append]
    by_cases hlow : index < 8
    · have hdiv : index / 8 = 0 := by omega
      have hmod : index % 8 = index := by omega
      simp [hlow, hdiv, hmod]
    · have haddress : address + 1 + BitVec.ofNat 64 ((index - 8) / 8) =
          address + BitVec.ofNat 64 (index / 8) := by
        have hsucc : index / 8 = 1 + (index - 8) / 8 := by omega
        rw [hsucc, BitVec.ofNat_add, ← BitVec.add_assoc]
        rfl
      have hmod : (index - 8) % 8 = index % 8 := by omega
      rw [if_neg hlow, ih (address + 1) (index - 8) (by omega), haddress, hmod]

/-- A read returns what was written at its own address. -/
theorem read_write_self (memory : Memory) (address : Word) (count : ℕ)
    (value : BitVec (8 * count)) (hcount : count ≤ 2 ^ 64) :
    read (write memory address count value) address count = value := by
  apply BitVec.eq_of_getLsbD_eq
  intro index hindex
  rw [getLsbD_read _ _ _ _ hindex]
  have hoffset : (address + BitVec.ofNat 64 (index / 8) - address).toNat = index / 8 := by
    rw [BitVec.add_comm, BitVec.add_sub_cancel, BitVec.toNat_ofNat]
    exact Nat.mod_eq_of_lt (by omega)
  have hbyte : index / 8 < count := by omega
  simp only [write, hoffset, hbyte, if_true, BitVec.getLsbD_extractLsb']
  have hmod : index % 8 < 8 := Nat.mod_lt _ (by decide)
  simp [hmod, Nat.div_add_mod]

/-- A write is invisible to a read none of whose bytes it covers. -/
theorem read_write_of_disjoint (memory : Memory) (address target : Word) (count : ℕ)
    (value : BitVec (8 * count)) (width : ℕ)
    (hdisjoint : ∀ index < width,
      count ≤ (target + BitVec.ofNat 64 index - address).toNat) :
    read (write memory address count value) target width = read memory target width := by
  apply BitVec.eq_of_getLsbD_eq
  intro index hindex
  rw [getLsbD_read _ _ _ _ hindex, getLsbD_read _ _ _ _ hindex]
  have hfar := hdisjoint (index / 8) (by omega)
  simp only [write, Nat.not_lt.mpr hfar, if_false]

/-- Of two writes to the same bytes the second counts. -/
theorem write_write_self (memory : Memory) (address : Word) (count : ℕ)
    (first second : BitVec (8 * count)) :
    write (write memory address count first) address count second =
      write memory address count second := by
  funext target
  simp only [write]
  split <;> rfl

/-- Writing back what was read changes nothing. -/
theorem write_read_self (memory : Memory) (address : Word) (count : ℕ) :
    write memory address count (read memory address count) = memory := by
  funext target
  simp only [write]
  split_ifs with hcovered
  · apply BitVec.eq_of_getLsbD_eq
    intro index hindex
    have hdiv : (8 * (target - address).toNat + index) / 8 = (target - address).toNat := by omega
    have hmod : (8 * (target - address).toNat + index) % 8 = index := by omega
    rw [BitVec.getLsbD_extractLsb', getLsbD_read _ _ _ _ (by omega), hdiv, hmod,
      BitVec.ofNat_toNat, BitVec.setWidth_eq, add_sub_cancel, decide_eq_true hindex, Bool.true_and]
  · rfl

/-- The little-endian 64-bit word at an address. -/
def load64 (memory : Memory) (address : Word) : Word := read memory address 8

/-- Store a little-endian 64-bit word. -/
def store64 (memory : Memory) (address value : Word) : Memory :=
  write memory address 8 value

/-- Two 64-bit accesses that share no byte, also across the end of the address space. -/
def Apart (left right : Word) : Prop :=
  8 ≤ (left - right).toNat ∧ 8 ≤ (right - left).toNat

theorem Apart.symm {left right : Word} (h : Apart left right) : Apart right left :=
  ⟨h.2, h.1⟩

@[simp]
theorem load64_store64_self (memory : Memory) (address value : Word) :
    load64 (store64 memory address value) address = value :=
  read_write_self memory address 8 value (by decide)

theorem load64_store64_of_apart (memory : Memory) {address target : Word} (value : Word)
    (h : Apart target address) :
    load64 (store64 memory address value) target = load64 memory target := by
  apply read_write_of_disjoint
  intro index hindex
  obtain ⟨hforward, hbackward⟩ := h
  bv_omega

/-- A store undone by storing the old word again. -/
theorem store64_restore (memory : Memory) (address value : Word) :
    store64 (store64 memory address value) address (load64 memory address) = memory := by
  calc
    store64 (store64 memory address value) address (load64 memory address) =
        store64 memory address (load64 memory address) := write_write_self memory address 8 _ _
    _ = memory := write_read_self memory address 8

end ByteMemory

end WaterBuffalo
