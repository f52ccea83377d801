import WaterBuffalo.Foundation.Bits
import Mathlib.Logic.Function.Basic

/-!
# Model-specific registers

The helpers of `src/arch/x86_64/msr.hpp`.  `rdmsr` and `wrmsr` transfer a register in two halves,
which the helpers join and split.
-/

namespace WaterBuffalo.Msr

/-- The contents of the registers, by number. -/
abbrev Registers := BitVec 32 → Word

def kEferMsr : BitVec 32 := 0xC0000080

def kEferNxe : Word := 1#64 <<< 11

/-- The instruction: EAX and EDX. -/
def rdmsr (registers : Registers) (msr : BitVec 32) : BitVec 32 × BitVec 32 :=
  ((registers msr).extractLsb' 0 32, (registers msr).extractLsb' 32 32)

/-- The instruction, with EAX and EDX as operands. -/
def wrmsr (registers : Registers) (msr lo hi : BitVec 32) : Registers :=
  Function.update registers msr (hi ++ lo)

def readMsr (registers : Registers) (msr : BitVec 32) : Word :=
  let (lo, hi) := rdmsr registers msr
  (hi.setWidth 64 <<< 32) ||| lo.setWidth 64

def writeMsr (registers : Registers) (msr : BitVec 32) (value : Word) : Registers :=
  let lo := value.setWidth 32
  let hi := (value >>> 32).setWidth 32
  wrmsr registers msr lo hi

def enableNx (registers : Registers) : Registers :=
  let efer := readMsr registers kEferMsr
  if efer &&& kEferNxe = 0 then writeMsr registers kEferMsr (efer ||| kEferNxe) else registers

/-! ## The halves make the whole -/

theorem readMsr_eq (registers : Registers) (msr : BitVec 32) :
    readMsr registers msr = registers msr := by
  apply BitVec.eq_of_getLsbD_eq
  intro index hindex
  simp only [readMsr, rdmsr, BitVec.getLsbD_or, BitVec.getLsbD_shiftLeft, BitVec.getLsbD_setWidth,
    BitVec.getLsbD_extractLsb']
  by_cases hlow : index < 32
  · simp [hlow, hindex]
  · have hhigh : index - 32 < 32 := by omega
    have hwide : index - 32 < 64 := by omega
    have hsum : 32 + (index - 32) = index := by omega
    simp [hlow, hindex, hhigh, hwide, hsum]

theorem writeMsr_eq (registers : Registers) (msr : BitVec 32) (value : Word) :
    writeMsr registers msr value = Function.update registers msr value := by
  have hhalves : (value >>> 32).setWidth 32 ++ value.setWidth 32 = value := by
    apply BitVec.eq_of_getLsbD_eq
    intro index hindex
    rw [BitVec.getLsbD_append]
    by_cases hlow : index < 32
    · simp [hlow]
    · have hhigh : index - 32 < 32 := by omega
      have hsum : 32 + (index - 32) = index := by omega
      simp [hlow, hhigh, hsum]
  rw [writeMsr, wrmsr, hhalves]

/-- NXE is set, and nothing else changes. -/
theorem enableNx_eq (registers : Registers) :
    enableNx registers =
      Function.update registers kEferMsr (registers kEferMsr ||| kEferNxe) := by
  simp only [enableNx, readMsr_eq, writeMsr_eq]
  split_ifs with hclear
  · rfl
  · have hset : registers kEferMsr ||| kEferNxe = registers kEferMsr :=
      (Bits.or_bit_eq_self_iff _ (by decide)).mpr fun hzero ↦ hclear hzero
    rw [hset, Function.update_eq_self]

end WaterBuffalo.Msr
