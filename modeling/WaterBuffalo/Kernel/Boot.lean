import WaterBuffalo.Arch.Msr
import WaterBuffalo.Foundation.Logged
import WaterBuffalo.Kernel.Framebuffer
import WaterBuffalo.Kernel.Linker
import WaterBuffalo.Kernel.Report

/-!
# Booting

`kmain` of `src/main.cpp` from the banner to the intentional page fault, and the part of `mm::init`
that prints.  What is printed does not depend on the serial port, so the model collects the calls
that print; a check that fails prints its message and halts.
-/

namespace WaterBuffalo.Kernel

open Pmm Vmm

/-! ## What the bootloader leaves -/

/-- `limine_memmap_entry`. -/
structure MemmapEntry where
  base : Word
  length : Word
  type : Word
  deriving DecidableEq, Repr

/-- The fields of the kernel address response. -/
structure KernelAddress where
  virtualBase : Word
  physicalBase : Word
  deriving DecidableEq, Repr

/-- The responses; `none` for a request whose `response` is still null. -/
structure Responses where
  /-- The third word of `limine_base_revision`. -/
  baseRevision : Word
  framebuffers : Option (List Framebuffer)
  memmap : Option (List MemmapEntry)
  hhdm : Option Word
  kernelAddress : Option KernelAddress
  deriving DecidableEq, Repr

/-- What `kmain` finds: memory, the model-specific registers, CR3 and what its stack holds where
`space` will be. -/
structure Machine where
  memory : Memory
  registers : Msr.Registers
  cr3 : Word
  stackSpace : AddressSpace

/-- What `kmain` leaves: the memory manager with its memory, the kernel's address space and the
registers. -/
structure Running where
  state : State
  space : AddressSpace
  registers : Msr.Registers
  cr3 : Word

/-! ## Printing and halting -/

abbrev Printing := Logged Output

def kprintf (format : String) (slots : List Word) : Printing Unit :=
  Logged.record (.kprintf (literal format) slots)

def serialWrite (text : String) : Printing Unit :=
  Logged.record (.write (literal text))

/-- Print the message and halt. -/
def fatal {Value : Type} (message : String) (slots : List Word) : Printing Value :=
  Logged.halt (.kprintf (literal message) slots)

/-- Halt unless the condition holds. -/
def check (condition : Prop) [Decidable condition] (message : String) : Printing Unit :=
  if condition then pure () else fatal message []

/-- Halt if there is no response. -/
def require {Value : Type} (response : Option Value) (message : String) : Printing Value :=
  match response with
  | none => fatal message []
  | some value => pure value

/-! ## The memory map -/

/-- The switch over `entry->type`. -/
def regionTypeOf (type : Word) : Option RegionType :=
  match type.toNat with
  | 0 => some .usable
  | 1 => some .reserved
  | 2 => some .acpiReclaimable
  | 3 => some .acpiNvs
  | 4 => some .bad
  | 5 => some .bootloaderReclaimable
  | 6 => some .kernelAndModules
  | 7 => some .framebuffer
  | _ => none

def translateEntry (entry : MemmapEntry) : Printing MemoryRegion :=
  match regionTypeOf entry.type with
  | none => fatal "fatal: unknown memory map type: %lu\n" [entry.type]
  | some type => pure ⟨entry.base, entry.length, type⟩

/-- The loop that fills `regions`. -/
def translateMap : List MemmapEntry → Printing (List MemoryRegion)
  | [] => pure []
  | entry :: entries => do
    let region ← translateEntry entry
    let regions ← translateMap entries
    pure (region :: regions)

/-- The condition of the loop that sets `kernel_physical_base_valid`. -/
def HoldsBase (physicalBase : Word) (region : MemoryRegion) : Prop :=
  region.type = .kernelAndModules ∧ physicalBase ≥ region.base ∧
    physicalBase < region.base + region.length

instance (physicalBase : Word) (region : MemoryRegion) :
    Decidable (HoldsBase physicalBase region) :=
  inferInstanceAs (Decidable (_ ∧ _))

/-! ## `mm::init` -/

def regionTypeName : RegionType → String
  | .usable => "USABLE"
  | .reserved => "RESERVED"
  | .acpiReclaimable => "ACPI_RECLAIMABLE"
  | .acpiNvs => "ACPI_NVS"
  | .bad => "BAD_MEMORY"
  | .bootloaderReclaimable => "BOOTLOADER_RECLAIMABLE"
  | .kernelAndModules => "KERNEL_AND_MODULES"
  | .framebuffer => "FRAMEBUFFER"

/-- The line of a region. -/
def printRegion (literals : Literals) (region : MemoryRegion) : Printing Unit :=
  kprintf "  %p - %p  length=%lu  type=%s\n"
    [region.base, region.base + region.length, region.length,
      literals.address (literal (regionTypeName region.type))]

/-- The loop that prints the map. -/
def printMap (literals : Literals) : List MemoryRegion → Printing Unit
  | [] => pure ()
  | region :: regions => do
    printRegion literals region
    printMap literals regions

/-- `usable_bytes`. -/
def usableBytes (regions : List MemoryRegion) : Word :=
  regions.foldl
    (fun bytes region ↦ if region.type = .usable then bytes + region.length else bytes) 0

/-- What is printed about the allocator before the bitmap is filled. -/
def printAllocator (regions : List MemoryRegion) (s : State) : Printing Unit :=
  kprintf ("PMM:\n" ++ "  highest usable: %p\n" ++ "  frame count:    %lu\n" ++
      "  bitmap phys:    %p\n" ++ "  bitmap virt:    %p\n" ++ "  bitmap bytes:   %lu\n" ++
      "  bitmap words:   %lu\n" ++ "  bitmap pages:   %lu\n")
    [highestUsableEnd regions, s.frameCount, s.bitmapPhys, s.hhdmOffset + s.bitmapPhys,
      s.bitmapBytes, s.bitmapWords, bitmapPagesFor s.bitmapBytes]

/-- `mm::init` with its printing.  The loops over the bitmap print nothing, and the statics that
are printed before them do not change any more. -/
def initMemory (literals : Literals) (regions : List MemoryRegion) (hhdmOffset : Word)
    (memory : Memory) : Printing State := do
  kprintf "\nMemory map:\n" []
  printMap literals regions
  kprintf "Total usable memory: %lu bytes\n" [usableBytes regions]
  match Pmm.init regions hhdmOffset memory with
  | .error fault => fatal fault.message []
  | .ok s => do
    printAllocator regions s
    kprintf "  free frames:    %lu\n" [s.freeFrameCount]
    kprintf "  free memory:    %lu bytes\n" [s.freeFrameCount * kPageSize]
    kprintf "  bitmap initialized\n" []
    pure s

/-! ## The kernel address space -/

/-- The line about a segment. -/
def printSegment (name : String) (layout : KernelLayout) (start stop : Word) : Printing Unit :=
  kprintf (name ++ "virt=%p-%p size=%lu " ++ "phys=%p-%p\n")
    [start, stop, stop - start, start - layout.virtualBase + layout.physicalBase,
      stop - layout.virtualBase + layout.physicalBase]

/-- The registers after `build_kernel_address_space`: `enable_nx` is called behind the first
checks. -/
def registersAfterBuild (regions : List MemoryRegion) (hhdmOffset : Word)
    (registers : Msr.Registers) : Msr.Registers :=
  if regions.length = 0 ∨ hhdmOffset &&& (kLargePageSize - 1) ≠ 0 then registers
  else Msr.enableNx registers

def printMappings (s : State) (space : AddressSpace) (framebuffer : Framebuffer)
    (hhdmOffset : Word) (layout : KernelLayout) : Printing Unit := do
  kprintf "pml4 physical:   %p\n" [space.pml4Physical]
  kprintf "direct map:      %p -> %p (expect 0x1000)\n"
    [hhdmOffset + 0x1000, translate s space (hhdmOffset + 0x1000)]
  kprintf "framebuffer:     %p -> %p (expect %p)\n"
    [framebuffer.address, translate s space framebuffer.address, framebuffer.address - hhdmOffset]
  kprintf "image:           %p -> %p (expect %p)\n"
    [layout.imageStart, translate s space layout.imageStart,
      layout.imageStart - layout.virtualBase + layout.physicalBase]
  kprintf ".text:           %p -> %p (expect %p)\n"
    [layout.textStart, translate s space layout.textStart,
      layout.textStart - layout.virtualBase + layout.physicalBase]
  kprintf ".data:           %p -> %p (expect %p)\n"
    [layout.dataStart, translate s space layout.dataStart,
      layout.dataStart - layout.virtualBase + layout.physicalBase]

/-- From `build_kernel_address_space` to the end of the drawing. -/
def enterAddressSpace (machine : Machine) (s : State) (regions : List MemoryRegion)
    (framebuffer : Framebuffer) (hhdmOffset : Word) (layout : KernelLayout) :
    Printing Running := do
  let (returned, space, s) :=
    buildKernelAddressSpace s machine.stackSpace (some regions) hhdmOffset layout
  let registers := registersAfterBuild regions hhdmOffset machine.registers
  check (returned = true) "FATAL: failed to build kernel address space\n"
  printMappings s space framebuffer hhdmOffset layout
  kprintf "loading cr3...\n" []
  let running : Running := ⟨s, space, registers, space.pml4Physical⟩
  kprintf "cr3 loaded\n" []
  let running := { running with
    state := { running.state with memory := framebuffer.draw running.state.memory } }
  serialWrite "done\n"
  pure running

/-- The check for at least one framebuffer. -/
def firstFramebuffer (framebuffers : Option (List Framebuffer)) : Printing Framebuffer :=
  require (framebuffers.bind List.head?) "fatal: no framebuffer from bootloader\n"

/-- `kmain` up to the store through the null pointer. -/
def kmain (literals : Literals) (symbols : Symbols) (responses : Responses) (machine : Machine) :
    Printing Running := do
  serialWrite "WaterBuffalo booting\n"
  check (responses.baseRevision = 0) "fatal: bootloader rejected base revision\n"
  let framebuffer ← firstFramebuffer responses.framebuffers
  serialWrite "framebuffer acquired\n"
  let entries ← require responses.memmap "fatal: no memory map from bootloader\n"
  let hhdmOffset ← require responses.hhdm "fatal: no HHDM response from bootloader\n"
  let kernelAddress ← require responses.kernelAddress
    "fatal: no kernel address response from bootloader\n"
  check (entries.length ≤ 64) "fatal: memory map has too many entries\n"
  let regions ← translateMap entries
  let layout := symbols.layout kernelAddress.virtualBase kernelAddress.physicalBase
  kprintf "kernel virtual base:  %p\n" [kernelAddress.virtualBase]
  kprintf "kernel physical base: %p\n" [kernelAddress.physicalBase]
  check (∃ region ∈ regions, HoldsBase kernelAddress.physicalBase region)
    ("fatal: kernel physical base is not inside " ++ "KERNEL_AND_MODULES region\n")
  kprintf "kernel physical base verified\n" []
  printSegment ".text:   " layout layout.textStart (BitVec.ofNat 64 symbols.textEnd)
  printSegment ".rodata: " layout layout.rodataStart (BitVec.ofNat 64 symbols.rodataEnd)
  printSegment ".data:   " layout layout.dataStart layout.dataEnd
  let s ← initMemory literals regions hhdmOffset machine.memory
  enterAddressSpace machine s regions framebuffer hhdmOffset layout

/-- `*p = 1` through the null pointer.  A write to a page that is not present raises a page fault
with error code 2 and the address in `cr2`; `frame` is the rest of what the handler is given. -/
def nullStore (running : Running) (frame : Isr.InterruptFrame) : List Output :=
  if leafPresent running.state running.space.pml4 0 then []
  else isrHandler { frame with vector := 14, errorCode := 2 } 0

end WaterBuffalo.Kernel
