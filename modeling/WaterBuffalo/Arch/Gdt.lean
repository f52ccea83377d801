import WaterBuffalo.Foundation.Bits
import WaterBuffalo.Foundation.CString
import WaterBuffalo.Foundation.Words

/-!
# The global descriptor table

The constants of `src/arch/x86_64/gdt.hpp` and the table of `gdt.cpp`.  A descriptor scatters its
base and limit over the word; the processor reads them back as the fields of `Segment`.
-/

namespace WaterBuffalo.Gdt

def makeDescriptor (base limit : BitVec 32) (access flags : Byte) : Word :=
  let descriptor : Word := 0
  let descriptor := descriptor ||| (limit &&& 0xFFFF).setWidth 64
  let descriptor := descriptor ||| (base &&& 0xFFFFFF).setWidth 64 <<< 16
  let descriptor := descriptor ||| access.setWidth 64 <<< 40
  let descriptor := descriptor ||| ((limit >>> 16) &&& 0xF).setWidth 64 <<< 48
  let descriptor := descriptor ||| (flags &&& 0xF).setWidth 64 <<< 52
  let descriptor := descriptor ||| ((base >>> 24) &&& 0xFF).setWidth 64 <<< 56
  descriptor

/-- The fields of a descriptor. -/
structure Segment where
  base : BitVec 32
  limit : BitVec 20
  access : Byte
  flags : BitVec 4
  deriving DecidableEq, Repr

/-- How the processor reads a descriptor. -/
def Segment.ofDescriptor (descriptor : Word) : Segment where
  base := descriptor.extractLsb' 56 8 ++ descriptor.extractLsb' 16 24
  limit := descriptor.extractLsb' 48 4 ++ descriptor.extractLsb' 0 16
  access := descriptor.extractLsb' 40 8
  flags := descriptor.extractLsb' 52 4

theorem getLsbD_makeDescriptor (base limit : BitVec 32) (access flags : Byte) (index : ℕ)
    (hindex : index < 64) :
    (makeDescriptor base limit access flags).getLsbD index =
      if index < 16 then limit.getLsbD index
      else if index < 40 then base.getLsbD (index - 16)
      else if index < 48 then access.getLsbD (index - 40)
      else if index < 52 then limit.getLsbD (index - 32)
      else if index < 56 then flags.getLsbD (index - 52)
      else base.getLsbD (index - 32) := by
  have hlimitLow : ((limit &&& 0xFFFF).setWidth 64).getLsbD index =
      (decide (index < 16) && limit.getLsbD index) := by
    have hplaced := Bits.getLsbD_placed limit
      (by decide : (0xFFFF : BitVec 32).toNat = 2 ^ 16 - 1) 0 hindex
    simpa only [BitVec.shiftLeft_zero, Nat.zero_le, true_and, Nat.zero_add, Nat.sub_zero]
      using hplaced
  have haccess : (access.setWidth 64 <<< 40).getLsbD index =
      (decide (40 ≤ index ∧ index < 48) && access.getLsbD (index - 40)) := by
    have hall : access &&& 0xFF = access := BitVec.and_allOnes
    have hplaced := Bits.getLsbD_placed access
      (by decide : (0xFF : Byte).toNat = 2 ^ 8 - 1) 40 hindex
    rwa [hall] at hplaced
  simp only [makeDescriptor, BitVec.getLsbD_or, hlimitLow, haccess,
    Bits.getLsbD_placed base (by decide : (0xFFFFFF : BitVec 32).toNat = 2 ^ 24 - 1) 16
      hindex, Bits.getLsbD_placed (limit >>> 16) (by decide : (0xF : BitVec 32).toNat = 2 ^ 4 - 1)
      48 hindex, Bits.getLsbD_placed flags (by decide : (0xF : Byte).toNat = 2 ^ 4 - 1) 52 hindex,
    Bits.getLsbD_placed (base >>> 24) (by decide : (0xFF : BitVec 32).toNat = 2 ^ 8 - 1) 56 hindex,
    BitVec.getLsbD_ushiftRight]
  grind

/-- The processor reads what was put in, as far as the fields go. -/
theorem ofDescriptor_makeDescriptor (base limit : BitVec 32) (access flags : Byte) :
    Segment.ofDescriptor (makeDescriptor base limit access flags) =
      ⟨base, limit.setWidth 20, access, flags.setWidth 4⟩ := by
  have hbits := getLsbD_makeDescriptor base limit access flags
  generalize makeDescriptor base limit access flags = descriptor at hbits ⊢
  rw [Segment.ofDescriptor, Segment.mk.injEq]
  refine ⟨?_, ?_, ?_, ?_⟩
  · apply BitVec.eq_of_getLsbD_eq
    intro index hindex
    simp only [BitVec.getLsbD_append, BitVec.getLsbD_extractLsb']
    grind
  · apply BitVec.eq_of_getLsbD_eq
    intro index hindex
    simp only [BitVec.getLsbD_append, BitVec.getLsbD_extractLsb', BitVec.getLsbD_setWidth]
    grind
  · apply BitVec.eq_of_getLsbD_eq
    intro index hindex
    simp only [BitVec.getLsbD_extractLsb']
    grind
  · apply BitVec.eq_of_getLsbD_eq
    intro index hindex
    simp only [BitVec.getLsbD_extractLsb', BitVec.getLsbD_setWidth]
    grind

/-- Every word is the descriptor of its fields. -/
theorem makeDescriptor_ofDescriptor (descriptor : Word) :
    makeDescriptor (Segment.ofDescriptor descriptor).base
      ((Segment.ofDescriptor descriptor).limit.setWidth 32)
      (Segment.ofDescriptor descriptor).access
      ((Segment.ofDescriptor descriptor).flags.setWidth 8) = descriptor := by
  apply BitVec.eq_of_getLsbD_eq
  intro index hindex
  rw [getLsbD_makeDescriptor _ _ _ _ _ hindex]
  simp only [Segment.ofDescriptor, BitVec.getLsbD_append, BitVec.getLsbD_extractLsb',
    BitVec.getLsbD_setWidth]
  grind

/-- **Descriptors are the fields they hold.** Two descriptors are equal exactly if the arguments
agree in the 32 bits of the base, the low 20 of the limit, the access byte and the low nibble of
the flags, and every 64-bit word is a descriptor. -/
theorem descriptor_determines_fields :
    (∀ (base base' limit limit' : BitVec 32) (access access' flags flags' : Byte),
      makeDescriptor base limit access flags = makeDescriptor base' limit' access' flags' ↔
        base = base' ∧ limit.toNat % 2 ^ 20 = limit'.toNat % 2 ^ 20 ∧ access = access' ∧
          flags.toNat % 2 ^ 4 = flags'.toNat % 2 ^ 4) ∧
      ∀ word, ∃ base limit access flags, makeDescriptor base limit access flags = word := by
  refine ⟨fun base base' limit limit' access access' flags flags' ↦ ?_, fun word ↦
    ⟨_, _, _, _, makeDescriptor_ofDescriptor word⟩⟩
  have hinjective : makeDescriptor base limit access flags =
      makeDescriptor base' limit' access' flags' ↔
        Segment.ofDescriptor (makeDescriptor base limit access flags) =
          Segment.ofDescriptor (makeDescriptor base' limit' access' flags') := by
    refine ⟨fun h ↦ by rw [h], fun h ↦ ?_⟩
    rw [← makeDescriptor_ofDescriptor (makeDescriptor base limit access flags), h,
      makeDescriptor_ofDescriptor]
  rw [hinjective, ofDescriptor_makeDescriptor, ofDescriptor_makeDescriptor, Segment.mk.injEq]
  have hlimit : limit.setWidth 20 = limit'.setWidth 20 ↔
      limit.toNat % 2 ^ 20 = limit'.toNat % 2 ^ 20 := by
    rw [← BitVec.toNat_inj, BitVec.toNat_setWidth, BitVec.toNat_setWidth]
  have hflags : flags.setWidth 4 = flags'.setWidth 4 ↔
      flags.toNat % 2 ^ 4 = flags'.toNat % 2 ^ 4 := by
    rw [← BitVec.toNat_inj, BitVec.toNat_setWidth, BitVec.toNat_setWidth]
  rw [hlimit, hflags]

/-! ## The table -/

def nullDescriptor : Word := makeDescriptor 0 0 0x00 0x0

def kernelCode : Word := makeDescriptor 0 0xFFFFF 0x9A 0xA

def kernelData : Word := makeDescriptor 0 0xFFFFF 0x92 0xC

def userData : Word := makeDescriptor 0 0xFFFFF 0xF2 0xC

def userCode : Word := makeDescriptor 0 0xFFFFF 0xFA 0xA

def kKernelCodeSelector : BitVec 16 := 0x08

def kKernelDataSelector : BitVec 16 := 0x10

/-- The array `gdt`, as the image holds it. -/
def gdt : List Word :=
  [nullDescriptor, kernelCode, kernelData, userData, userCode]

end WaterBuffalo.Gdt
