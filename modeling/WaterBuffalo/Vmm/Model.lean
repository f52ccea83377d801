import WaterBuffalo.Pmm.Model

/-!
# Four-level paging

The functions of `src/mm/vmm.hpp` and `src/mm/vmm.cpp`.  A `PageTable*` is the address it holds,
with zero for `nullptr`; a reference to an entry is the entry's address.  Every function threads
the whole kernel state, since tables are allocated from, and stored beside, the frame allocator's
own bitmap.
-/

namespace WaterBuffalo.Vmm

open Pmm

def kPageTableEntries : ℕ := 512

def kLargePageSize : Word := 2 * 1024 * 1024

def alignUp (value alignment : Word) : Word :=
  (value + alignment - 1) &&& ~~~(alignment - 1)

/-! ## Page-table entries -/

/-- `PageFlags` is an enumeration used as a bit set over its underlying 64-bit type. -/
abbrev PageFlags := Word

namespace PageFlags

def none : PageFlags := 0
def present : PageFlags := 1#64 <<< 0
def writable : PageFlags := 1#64 <<< 1
def user : PageFlags := 1#64 <<< 2
def accessed : PageFlags := 1#64 <<< 5
def dirty : PageFlags := 1#64 <<< 6
def huge : PageFlags := 1#64 <<< 7
def global : PageFlags := 1#64 <<< 8
def noExecute : PageFlags := 1#64 <<< 63

/-- All named flags together. -/
def all : PageFlags :=
  present ||| writable ||| user ||| accessed ||| dirty ||| huge ||| global ||| noExecute

/-- A bitwise-or of named flags. -/
def Named (flags : PageFlags) : Prop :=
  flags &&& ~~~all = 0

instance (flags : PageFlags) : Decidable (Named flags) :=
  inferInstanceAs (Decidable (flags &&& ~~~all = 0))

end PageFlags

def kPhysicalAddressMask : Word := 0x000FFFFFFFFFF000

def makePageEntry (physicalAddress : Word) (flags : PageFlags) : Word :=
  (physicalAddress &&& kPhysicalAddressMask) ||| flags

def pageEntryAddress (entry : Word) : Word :=
  entry &&& kPhysicalAddressMask

/-! ## Virtual addresses -/

structure VirtualAddress where
  pml4Index : BitVec 16
  pdptIndex : BitVec 16
  pdIndex : BitVec 16
  ptIndex : BitVec 16
  offset : BitVec 16
  deriving DecidableEq, Repr

def decomposeAddress (address : Word) : VirtualAddress where
  pml4Index := ((address >>> 39) &&& 0x1FF).setWidth 16
  pdptIndex := ((address >>> 30) &&& 0x1FF).setWidth 16
  pdIndex := ((address >>> 21) &&& 0x1FF).setWidth 16
  ptIndex := ((address >>> 12) &&& 0x1FF).setWidth 16
  offset := (address &&& 0xFFF).setWidth 16

def reassembleAddress (address : VirtualAddress) : Word :=
  let result :=
    (address.pml4Index.setWidth 64 <<< 39) |||
    (address.pdptIndex.setWidth 64 <<< 30) |||
    (address.pdIndex.setWidth 64 <<< 21) |||
    (address.ptIndex.setWidth 64 <<< 12) |||
    address.offset.setWidth 64
  if result &&& 1#64 <<< 47 ≠ 0 then result ||| 0xFFFF000000000000 else result

def isCanonical (address : Word) : Bool :=
  let upper := address >>> 48
  let sign := (address >>> 47) &&& 1
  if sign = 0 then upper = 0 else upper = 0xFFFF

/-! ## Address spaces -/

structure AddressSpace where
  pml4 : Word
  pml4Physical : Word
  deriving DecidableEq, Repr

structure AllocatedTable where
  physical : Word
  virtualAddress : Word
  deriving DecidableEq, Repr

/-- `&table->entries[index]`. -/
def entryAddress (table : Word) (index : BitVec 16) : Word :=
  table + 8 * index.setWidth 64

/-- The loop that zeroes a new table. -/
def clearTable (s : State) (table : Word) : State :=
  (List.range kPageTableEntries).foldl
    (fun s index ↦ s.store (table + 8 * BitVec.ofNat 64 index) 0) s

def allocateTable (s : State) : Option AllocatedTable × State :=
  let (physical, s) := allocFrame s
  if physical = BitVec.allOnes 64 then (none, s)
  else
    let virtualAddress := physicalToVirtual s physical
    (some ⟨physical, virtualAddress⟩,
      (clearTable s virtualAddress).record (.tableTaken physical))

def createAddressSpace (s : State) (out : AddressSpace) : Bool × AddressSpace × State :=
  match allocateTable s with
  | (none, s) => (false, out, s)
  | (some table, s) => (true, ⟨table.virtualAddress, table.physical⟩, s)

def intermediateFlags (leafFlags : PageFlags) : PageFlags :=
  let result := PageFlags.present ||| PageFlags.writable
  if leafFlags &&& PageFlags.user ≠ 0 then result ||| PageFlags.user else result

/-- `ensure_table(*entry, middle_flags)`: the table below `entry`, or zero. -/
def ensureTable (s : State) (entry : Word) (middleFlags : PageFlags) : Word × State :=
  if s.load entry &&& PageFlags.huge ≠ 0 then (0, s)
  else if s.load entry &&& PageFlags.present = 0 then
    match allocateTable s with
    | (none, s) => (0, s)
    | (some table, s) =>
      (table.virtualAddress, s.store entry (makePageEntry table.physical middleFlags))
  else
    let s := s.store entry (s.load entry ||| middleFlags)
    (physicalToVirtual s (pageEntryAddress (s.load entry)), s)

/-! ## Mapping -/

def mapPage (s : State) (pml4 virt phys : Word) (flags : PageFlags) : Bool × State :=
  if pml4 = 0 then (false, s)
  else if !isCanonical virt then (false, s)
  else if virt &&& (kPageSize - 1) ≠ 0 then (false, s)
  else if phys &&& (kPageSize - 1) ≠ 0 then (false, s)
  else if phys &&& ~~~kPhysicalAddressMask ≠ 0 then (false, s)
  else if flags &&& PageFlags.huge ≠ 0 then (false, s)
  else
    let address := decomposeAddress virt
    let middleFlags := intermediateFlags flags
    let (pdpt, s) := ensureTable s (entryAddress pml4 address.pml4Index) middleFlags
    if pdpt = 0 then (false, s)
    else
      let (pd, s) := ensureTable s (entryAddress pdpt address.pdptIndex) middleFlags
      if pd = 0 then (false, s)
      else
        let (pt, s) := ensureTable s (entryAddress pd address.pdIndex) middleFlags
        if pt = 0 then (false, s)
        else
          let ptEntry := entryAddress pt address.ptIndex
          if s.load ptEntry &&& PageFlags.present ≠ 0 then (false, s)
          else
            let s := s.store ptEntry (makePageEntry phys (flags ||| PageFlags.present))
            (true, s.record (.mapped pml4 ⟨virt, phys, flags, false⟩))

def mapPageLarge (s : State) (pml4 virt phys : Word) (flags : PageFlags) : Bool × State :=
  if pml4 = 0 then (false, s)
  else if !isCanonical virt then (false, s)
  else if virt &&& (kLargePageSize - 1) ≠ 0 then (false, s)
  else if phys &&& (kLargePageSize - 1) ≠ 0 then (false, s)
  else if phys &&& ~~~kPhysicalAddressMask ≠ 0 then (false, s)
  else
    let address := decomposeAddress virt
    let middleFlags := intermediateFlags flags
    let (pdpt, s) := ensureTable s (entryAddress pml4 address.pml4Index) middleFlags
    if pdpt = 0 then (false, s)
    else
      let (pd, s) := ensureTable s (entryAddress pdpt address.pdptIndex) middleFlags
      if pd = 0 then (false, s)
      else
        let pdEntry := entryAddress pd address.pdIndex
        if s.load pdEntry &&& PageFlags.present ≠ 0 then (false, s)
        else
          let s := s.store pdEntry
            (makePageEntry phys (flags ||| PageFlags.present ||| PageFlags.huge))
          (true, s.record (.mapped pml4 ⟨virt, phys, flags, true⟩))

/-- The offsets of `for (offset = 0; offset < size; offset += stride)`.  Both range functions
have checked that `size` is a multiple of `stride` when they reach the loop. -/
def rangeOffsets (size stride : Word) : List Word :=
  (List.range (size.toNat / stride.toNat)).map fun index ↦
    BitVec.ofNat 64 (index * stride.toNat)

/-- A loop that maps one page per offset and returns false at the first failure. -/
def mapEach (mapOne : State → Word → Bool × State) : List Word → State → Bool × State
  | [], s => (true, s)
  | offset :: offsets, s =>
    match mapOne s offset with
    | (true, s) => mapEach mapOne offsets s
    | (false, s) => (false, s)

def mapRange (s : State) (space : AddressSpace) (virt phys size : Word) (flags : PageFlags) :
    Bool × State :=
  if space.pml4 = 0 then (false, s)
  else if size = 0 then (false, s)
  else if virt &&& (kPageSize - 1) ≠ 0 then (false, s)
  else if phys &&& (kPageSize - 1) ≠ 0 then (false, s)
  else if size &&& (kPageSize - 1) ≠ 0 then (false, s)
  else if BitVec.allOnes 64 - size < virt then (false, s)
  else if BitVec.allOnes 64 - size < phys then (false, s)
  else if !isCanonical virt then (false, s)
  else if !isCanonical (virt + size - 1) then (false, s)
  else
    mapEach (fun s offset ↦ mapPage s space.pml4 (virt + offset) (phys + offset) flags)
      (rangeOffsets size kPageSize) s

def mapRangeLarge (s : State) (space : AddressSpace) (virt phys size : Word)
    (flags : PageFlags) : Bool × State :=
  if space.pml4 = 0 then (false, s)
  else if size = 0 then (false, s)
  else if virt &&& (kLargePageSize - 1) ≠ 0 then (false, s)
  else if phys &&& (kLargePageSize - 1) ≠ 0 then (false, s)
  else if size &&& (kLargePageSize - 1) ≠ 0 then (false, s)
  else if BitVec.allOnes 64 - size < virt then (false, s)
  else if BitVec.allOnes 64 - size < phys then (false, s)
  else if !isCanonical virt then (false, s)
  else if !isCanonical (virt + size - 1) then (false, s)
  else
    mapEach (fun s offset ↦ mapPageLarge s space.pml4 (virt + offset) (phys + offset) flags)
      (rangeOffsets size kLargePageSize) s

def translate (s : State) (space : AddressSpace) (virt : Word) : Word :=
  if space.pml4 = 0 then 0
  else if !isCanonical virt then 0
  else
    let address := decomposeAddress virt
    let pml4Entry := s.load (entryAddress space.pml4 address.pml4Index)
    if pml4Entry &&& PageFlags.present = 0 then 0
    else
      let pdpt := physicalToVirtual s (pageEntryAddress pml4Entry)
      let pdptEntry := s.load (entryAddress pdpt address.pdptIndex)
      if pdptEntry &&& PageFlags.present = 0 then 0
      else if pdptEntry &&& PageFlags.huge ≠ 0 then
        pageEntryAddress pdptEntry ||| (virt &&& 0x3FFFFFFF)
      else
        let pd := physicalToVirtual s (pageEntryAddress pdptEntry)
        let pdEntry := s.load (entryAddress pd address.pdIndex)
        if pdEntry &&& PageFlags.present = 0 then 0
        else if pdEntry &&& PageFlags.huge ≠ 0 then
          pageEntryAddress pdEntry ||| (virt &&& 0x1FFFFF)
        else
          let pt := physicalToVirtual s (pageEntryAddress pdEntry)
          let ptEntry := s.load (entryAddress pt address.ptIndex)
          if ptEntry &&& PageFlags.present = 0 then 0
          else pageEntryAddress ptEntry ||| (virt &&& 0xFFF)

/-! ## The kernel address space -/

structure KernelLayout where
  virtualBase : Word
  physicalBase : Word
  imageStart : Word
  textStart : Word
  rodataStart : Word
  dataStart : Word
  dataEnd : Word
  deriving DecidableEq, Repr

/-- `arch::enable_nx` sets EFER.NXE, a processor register outside this state. -/
def enableNx (s : State) : State := s

/-- The highest end of any region of the memory map. -/
def highestEnd (regions : List MemoryRegion) : Word :=
  regions.foldl
    (fun highest region ↦
      if highest < region.base + region.length then region.base + region.length else highest) 0

/-- The lambda `map_segment`. -/
def mapSegment (s : State) (out : AddressSpace) (layout : KernelLayout) (start stop : Word)
    (flags : PageFlags) : Bool × State :=
  let phys := start - layout.virtualBase + layout.physicalBase
  let size := stop - start
  mapRange s out start phys size flags

/-- `build_kernel_address_space`; `regions` is `none` for a null pointer. -/
def buildKernelAddressSpace (s : State) (out : AddressSpace)
    (regions : Option (List MemoryRegion)) (hhdmOffset : Word) (layout : KernelLayout) :
    Bool × AddressSpace × State :=
  match regions with
  | none => (false, out, s)
  | some regions =>
    if regions.length = 0 then (false, out, s)
    else if hhdmOffset &&& (kLargePageSize - 1) ≠ 0 then (false, out, s)
    else
      match createAddressSpace (enableNx s) out with
      | (false, out, s) => (false, out, s)
      | (true, out, s) =>
        if highestEnd regions = 0 then (false, out, s)
        else
          let highest := alignUp (highestEnd regions) kLargePageSize
          match mapRangeLarge s out hhdmOffset 0 highest
              (PageFlags.writable ||| PageFlags.noExecute) with
          | (false, s) => (false, out, s)
          | (true, s) =>
            let dataEndRounded := alignUp layout.dataEnd kPageSize
            match mapSegment s out layout layout.imageStart layout.textStart
                PageFlags.noExecute with
            | (false, s) => (false, out, s)
            | (true, s) =>
              match mapSegment s out layout layout.textStart layout.rodataStart
                  PageFlags.none with
              | (false, s) => (false, out, s)
              | (true, s) =>
                match mapSegment s out layout layout.rodataStart layout.dataStart
                    PageFlags.noExecute with
                | (false, s) => (false, out, s)
                | (true, s) =>
                  match mapSegment s out layout layout.dataStart dataEndRounded
                      (PageFlags.writable ||| PageFlags.noExecute) with
                  | (false, s) => (false, out, s)
                  | (true, s) => (true, out, s)

end WaterBuffalo.Vmm
