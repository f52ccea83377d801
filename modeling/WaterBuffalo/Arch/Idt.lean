import WaterBuffalo.Arch.Gdt

/-!
# The interrupt descriptor table

The entries of `src/arch/x86_64/idt.hpp` and the two loops of `idt.cpp` that fill the table.  An
entry is a packed record of 16 bytes; the processor reads it as a `Gate`.
-/

namespace WaterBuffalo.Idt

open ByteMemory

structure Entry where
  offsetLow : BitVec 16
  selector : BitVec 16
  ist : Byte
  typeAttr : Byte
  offsetMid : BitVec 16
  offsetHigh : BitVec 32
  zero : BitVec 32
  deriving DecidableEq, Repr

def makeEntry (handler : Word) (selector : BitVec 16) (ist typeAttr : Byte) : Entry where
  offsetLow := (handler &&& 0xFFFF).setWidth 16
  selector := selector
  ist := ist &&& 0x07
  typeAttr := typeAttr
  offsetMid := ((handler >>> 16) &&& 0xFFFF).setWidth 16
  offsetHigh := ((handler >>> 32) &&& 0xFFFFFFFF).setWidth 32
  zero := 0

/-- The value-initialized entry. -/
def Entry.empty : Entry := ⟨0, 0, 0, 0, 0, 0, 0⟩

/-- The record in memory, its first field lowest. -/
def Entry.bytes (entry : Entry) : BitVec (8 * 16) :=
  entry.zero ++ entry.offsetHigh ++ entry.offsetMid ++ entry.typeAttr ++ entry.ist ++
    entry.selector ++ entry.offsetLow

/-- What the processor takes out of an entry. -/
structure Gate where
  offset : Word
  selector : BitVec 16
  ist : BitVec 3
  kind : BitVec 4
  level : BitVec 2
  present : Bool
  deriving DecidableEq, Repr

/-- How the processor reads an entry. -/
def Gate.ofBytes (bytes : BitVec (8 * 16)) : Gate where
  offset := bytes.extractLsb' 64 32 ++ bytes.extractLsb' 48 16 ++ bytes.extractLsb' 0 16
  selector := bytes.extractLsb' 16 16
  ist := bytes.extractLsb' 32 3
  kind := bytes.extractLsb' 40 4
  level := bytes.extractLsb' 45 2
  present := bytes.getLsbD 47

theorem getLsbD_bytes (entry : Entry) (index : ℕ) :
    entry.bytes.getLsbD index =
      if index < 16 then entry.offsetLow.getLsbD index
      else if index < 32 then entry.selector.getLsbD (index - 16)
      else if index < 40 then entry.ist.getLsbD (index - 32)
      else if index < 48 then entry.typeAttr.getLsbD (index - 40)
      else if index < 64 then entry.offsetMid.getLsbD (index - 48)
      else if index < 96 then entry.offsetHigh.getLsbD (index - 64)
      else entry.zero.getLsbD (index - 96) := by
  simp only [Entry.bytes, BitVec.getLsbD_append]
  grind

/-- The processor finds the handler that was put in. -/
theorem gate_makeEntry (handler : Word) (selector : BitVec 16) (ist typeAttr : Byte) :
    Gate.ofBytes (makeEntry handler selector ist typeAttr).bytes =
      { offset := handler
        selector := selector
        ist := ist.setWidth 3
        kind := typeAttr.setWidth 4
        level := typeAttr.extractLsb' 5 2
        present := typeAttr.getLsbD 7 } := by
  have hbits := getLsbD_bytes (makeEntry handler selector ist typeAttr)
  generalize (makeEntry handler selector ist typeAttr).bytes = bytes at hbits ⊢
  have hoffset (index : ℕ) (hindex : index < 64) : handler.getLsbD index =
      if index < 16 then (makeEntry handler selector ist typeAttr).offsetLow.getLsbD index
      else if index < 32 then
        (makeEntry handler selector ist typeAttr).offsetMid.getLsbD (index - 16)
      else (makeEntry handler selector ist typeAttr).offsetHigh.getLsbD (index - 32) := by
    have hword := Bits.getLsbD_lowMask (by decide : (0xFFFF : Word).toNat = 2 ^ 16 - 1)
    have hlong := Bits.getLsbD_lowMask (by decide : (0xFFFFFFFF : Word).toNat = 2 ^ 32 - 1)
    simp only [makeEntry, BitVec.getLsbD_setWidth, BitVec.getLsbD_and, BitVec.getLsbD_ushiftRight,
      hword, hlong]
    grind
  have hist (index : ℕ) : (makeEntry handler selector ist typeAttr).ist.getLsbD index =
      (ist.getLsbD index && decide (index < 3)) := by
    rw [makeEntry, BitVec.getLsbD_and,
      Bits.getLsbD_lowMask (by decide : (0x07 : Byte).toNat = 2 ^ 3 - 1)]
  rw [Gate.ofBytes, Gate.mk.injEq]
  refine ⟨?_, ?_, ?_, ?_, ?_, ?_⟩
  · apply BitVec.eq_of_getLsbD_eq
    intro index hindex
    rw [hoffset index hindex]
    simp only [BitVec.getLsbD_append, BitVec.getLsbD_extractLsb']
    grind
  · apply BitVec.eq_of_getLsbD_eq
    intro index hindex
    have hselector : (makeEntry handler selector ist typeAttr).selector = selector := rfl
    simp only [BitVec.getLsbD_extractLsb']
    grind
  · apply BitVec.eq_of_getLsbD_eq
    intro index hindex
    simp only [BitVec.getLsbD_extractLsb', BitVec.getLsbD_setWidth]
    grind
  · apply BitVec.eq_of_getLsbD_eq
    intro index hindex
    have htype : (makeEntry handler selector ist typeAttr).typeAttr = typeAttr := rfl
    simp only [BitVec.getLsbD_extractLsb', BitVec.getLsbD_setWidth]
    grind
  · apply BitVec.eq_of_getLsbD_eq
    intro index hindex
    have htype : (makeEntry handler selector ist typeAttr).typeAttr = typeAttr := rfl
    simp only [BitVec.getLsbD_extractLsb']
    grind
  · exact hbits 47

/-! ## The table -/

/-- The loops of `init`, on the table at `idt`; `isrStubTable` is the array of `isr.S`. -/
def fill (memory : Memory) (idt : Word) (isrStubTable : ℕ → Word) : Memory :=
  let memory := writeArray memory idt 16 (fun _ ↦ Entry.empty.bytes) 256
  writeArray memory idt 16
    (fun i ↦ (makeEntry (isrStubTable i) Gdt.kKernelCodeSelector 0 0x8E).bytes) 32

/-- The gate of a vector in the table at `idt`. -/
def gateAt (memory : Memory) (idt : Word) (vector : ℕ) : Gate :=
  Gate.ofBytes (read memory (recordAt idt 16 vector) 16)

/-- Each exception has its stub behind a kernel interrupt gate, and the other gates are absent. -/
theorem gateAt_fill (memory : Memory) (idt : Word) (isrStubTable : ℕ → Word) {vector : ℕ}
    (hvector : vector < 256) :
    gateAt (fill memory idt isrStubTable) idt vector =
      if vector < 32 then
        { offset := isrStubTable vector
          selector := Gdt.kKernelCodeSelector
          ist := 0
          kind := 0xE
          level := 0
          present := true }
      else
        { offset := 0, selector := 0, ist := 0, kind := 0, level := 0, present := false } := by
  unfold gateAt fill
  split_ifs with hexception
  · rw [read_writeArray hexception (by decide), gate_makeEntry]
    rfl
  · rw [read_writeArray_of_le (by omega) (by omega), read_writeArray hvector (by decide)]
    rfl

theorem fill_of_not_within (memory : Memory) {idt target : Word} (isrStubTable : ℕ → Word)
    (h : ¬ Within idt 4096 target) : fill memory idt isrStubTable target = memory target := by
  have hpart : ¬ Within idt (16 * 32) target :=
    fun hinside ↦ h (lt_of_lt_of_le hinside (by decide))
  unfold fill
  rw [writeArray_of_not_within (by decide) hpart, writeArray_of_not_within (by decide) h]

end WaterBuffalo.Idt
