import WaterBuffalo.Kernel.Boot

/-!
# The boot log

The reference for what `kmain` prints on the way to the kernel's own address space, line by line,
and the proof that it prints these lines.
-/

namespace WaterBuffalo.Kernel

open Pmm Vmm Print

/-! ## Computations that print lines -/

/-- The computation has the result and prints the lines. -/
structure Prints {Value : Type} (memory : Memory) (computation : Printing Value)
    (lines : List (List Byte)) (value : Value) : Prop where
  result : computation.result = some value
  log : computation.log.flatMap (Output.printed memory) = joinLines lines

section Rules

variable {Value Next : Type} {memory : Memory}

theorem prints_pure (value : Value) : Prints memory (pure value) [] value :=
  ⟨rfl, rfl⟩

theorem prints_record {output : Output} {lines : List (List Byte)}
    (h : output.printed memory = joinLines lines) :
    Prints memory (Logged.record output) lines () :=
  ⟨rfl, by simp [h]⟩

theorem Prints.bind {first : Printing Value} {second : Value → Printing Next} {value : Value}
    {next : Next} {lines others : List (List Byte)} (hfirst : Prints memory first lines value)
    (hsecond : Prints memory (second value) others next) :
    Prints memory (first >>= second) (lines ++ others) next := by
  refine ⟨?_, ?_⟩
  · rw [Logged.bind_of_some hfirst.result]
    exact hsecond.result
  · rw [Logged.bind_of_some hfirst.result, List.flatMap_append, hfirst.log, hsecond.log,
      joinLines_append]

theorem Prints.seq {first : Printing Unit} {second : Printing Next} {next : Next}
    {lines others : List (List Byte)} (hfirst : Prints memory first lines ())
    (hsecond : Prints memory second others next) :
    Prints memory (first >>= fun _ ↦ second) (lines ++ others) next :=
  hfirst.bind hsecond

theorem Prints.cons {first : Printing Unit} {second : Printing Next} {next : Next}
    {line : List Byte} {lines : List (List Byte)} (hfirst : Prints memory first [line] ())
    (hsecond : Prints memory second lines next) :
    Prints memory (first >>= fun _ ↦ second) (line :: lines) next :=
  hfirst.seq hsecond

theorem prints_check {condition : Prop} [Decidable condition] (h : condition)
    (message : String) : Prints memory (check condition message) [] () := by
  rw [check, if_pos h]
  exact prints_pure ()

theorem prints_require (value : Value) (message : String) :
    Prints memory (require (some value) message) [] value :=
  prints_pure value

end Rules

/-! ## The reference -/

/-- The line of a region. -/
def regionLine (region : MemoryRegion) : List Byte :=
  literal "  " ++ address region.base ++ literal " - " ++ address (region.base + region.length) ++
    literal "  length=" ++ numeral 10 region.length.toNat ++ literal "  type=" ++
    literal (regionTypeName region.type)

/-- The line of a segment: where it is, how large, and where it was loaded. -/
def segmentLine (name : String) (layout : KernelLayout) (start stop : Word) : List Byte :=
  literal name ++ literal "virt=" ++ address start ++ literal "-" ++ address stop ++
    literal " size=" ++ numeral 10 (stop - start).toNat ++ literal " phys=" ++
    address (start - layout.virtualBase + layout.physicalBase) ++ literal "-" ++
    address (stop - layout.virtualBase + layout.physicalBase)

/-- What was looked up, what was found and what should have been. -/
def mappingLine (name : String) (virt found expected : Word) : List Byte :=
  literal name ++ address virt ++ literal " -> " ++ address found ++ literal " (expect " ++
    address expected ++ literal ")"

/-- A line of the allocator with an address. -/
def addressLine (name : String) (value : Word) : List Byte :=
  literal name ++ address value

/-- A line of the allocator with a number. -/
def numberLine (name : String) (value : Word) : List Byte :=
  literal name ++ numeral 10 value.toNat

def memoryLines (regions : List MemoryRegion) (s : State) : List (List Byte) :=
  [[], literal "Memory map:"] ++ regions.map regionLine ++
    [numberLine "Total usable memory: " (usableBytes regions) ++ literal " bytes",
      literal "PMM:",
      addressLine "  highest usable: " (highestUsableEnd regions),
      numberLine "  frame count:    " s.frameCount,
      addressLine "  bitmap phys:    " s.bitmapPhys,
      addressLine "  bitmap virt:    " (s.hhdmOffset + s.bitmapPhys),
      numberLine "  bitmap bytes:   " s.bitmapBytes,
      numberLine "  bitmap words:   " s.bitmapWords,
      numberLine "  bitmap pages:   " (bitmapPagesFor s.bitmapBytes),
      numberLine "  free frames:    " s.freeFrameCount,
      numberLine "  free memory:    " (s.freeFrameCount * kPageSize) ++ literal " bytes",
      literal "  bitmap initialized"]

/-- The lines about the new address space. -/
def mappingLines (s : State) (space : AddressSpace) (framebuffer : Framebuffer)
    (hhdmOffset : Word) (layout : KernelLayout) : List (List Byte) :=
  [addressLine "pml4 physical:   " space.pml4Physical,
    literal "direct map:      " ++ address (hhdmOffset + 0x1000) ++ literal " -> " ++
      address (translate s space (hhdmOffset + 0x1000)) ++ literal " (expect 0x1000)",
    mappingLine "framebuffer:     " framebuffer.address (translate s space framebuffer.address)
      (framebuffer.address - hhdmOffset),
    mappingLine "image:           " layout.imageStart (translate s space layout.imageStart)
      (layout.imageStart - layout.virtualBase + layout.physicalBase),
    mappingLine ".text:           " layout.textStart (translate s space layout.textStart)
      (layout.textStart - layout.virtualBase + layout.physicalBase),
    mappingLine ".data:           " layout.dataStart (translate s space layout.dataStart)
      (layout.dataStart - layout.virtualBase + layout.physicalBase)]

/-! ## Stage by stage -/

section Stages

variable {literals : Literals}

/-- The names of the region types are literals of the image. -/
def Literals.HasNames (literals : Literals) : Prop :=
  ∀ type, literals.Stored (literal (regionTypeName type))

theorem printRegion_prints (hnames : literals.HasNames) (region : MemoryRegion) :
    Prints literals.memory (printRegion literals region) [regionLine region] () := by
  obtain ⟨haddress, hholds⟩ := hnames region.type
  -- What `%s` prints at the name's address.
  have hname : Item.rendering literals.memory
      (literals.address (literal (regionTypeName region.type))) (.directive false (ascii 's')) =
        literal (regionTypeName region.type) := by
    change (if _ then nullText else (CString.text literals.memory _).getD []) = _
    rw [if_neg haddress, hholds.text_eq]
    rfl
  apply prints_record
  generalize literals.address (literal (regionTypeName region.type)) = name at hname ⊢
  rw [regionLine, ← hname]
  simp only [joinLines, List.flatMap_cons, List.flatMap_nil, List.append_assoc, List.append_nil,
    literal, String.reduceToList]
  rfl

theorem printMap_prints (hnames : literals.HasNames) (regions : List MemoryRegion) :
    Prints literals.memory (printMap literals regions) (regions.map regionLine) () := by
  induction regions with
  | nil => exact prints_pure ()
  | cons region regions ih => exact (printRegion_prints hnames region).bind ih

theorem printSegment_prints (memory : Memory) {name : String}
    (hname : name = ".text:   " ∨ name = ".rodata: " ∨ name = ".data:   ")
    (layout : KernelLayout) (start stop : Word) :
    Prints memory (printSegment name layout start stop) [segmentLine name layout start stop]
      () := by
  apply prints_record
  obtain rfl | rfl | rfl := hname
  all_goals
    simp only [String.reduceAppend, segmentLine, joinLines, List.flatMap_cons, List.flatMap_nil,
      List.append_assoc, List.append_nil, literal, String.reduceToList]
    rfl

set_option maxRecDepth 4000 in
theorem printAllocator_prints (memory : Memory) (regions : List MemoryRegion) (s : State) :
    Prints memory (printAllocator regions s)
      [literal "PMM:",
        addressLine "  highest usable: " (highestUsableEnd regions),
        numberLine "  frame count:    " s.frameCount,
        addressLine "  bitmap phys:    " s.bitmapPhys,
        addressLine "  bitmap virt:    " (s.hhdmOffset + s.bitmapPhys),
        numberLine "  bitmap bytes:   " s.bitmapBytes,
        numberLine "  bitmap words:   " s.bitmapWords,
        numberLine "  bitmap pages:   " (bitmapPagesFor s.bitmapBytes)] () := by
  apply prints_record
  simp only [String.reduceAppend, addressLine, numberLine, joinLines, List.flatMap_cons,
    List.flatMap_nil, List.append_assoc, List.append_nil, literal, String.reduceToList]
  rfl

theorem initMemory_prints (hnames : literals.HasNames) {regions : List MemoryRegion}
    {hhdmOffset : Word} {memory : Memory} {s : State}
    (hinit : Pmm.init regions hhdmOffset memory = .ok s) :
    Prints literals.memory (initMemory literals regions hhdmOffset memory)
      (memoryLines regions s) s := by
  have hheading : Prints literals.memory (kprintf "\nMemory map:\n" [])
      [[], literal "Memory map:"] () := by
    apply prints_record
    simp only [literal, String.reduceToList]
    rfl
  have htotal : Prints literals.memory
      (kprintf "Total usable memory: %lu bytes\n" [usableBytes regions])
      [numberLine "Total usable memory: " (usableBytes regions) ++ literal " bytes"] () := by
    apply prints_record
    simp only [numberLine, joinLines, List.flatMap_cons, List.flatMap_nil, List.append_assoc,
      List.append_nil, literal, String.reduceToList]
    rfl
  have hfree : Prints literals.memory (kprintf "  free frames:    %lu\n" [s.freeFrameCount])
      [numberLine "  free frames:    " s.freeFrameCount] () := by
    apply prints_record
    simp only [numberLine, joinLines, List.flatMap_cons, List.flatMap_nil, List.append_assoc,
      List.append_nil, literal, String.reduceToList]
    rfl
  have hbytes : Prints literals.memory
      (kprintf "  free memory:    %lu bytes\n" [s.freeFrameCount * kPageSize])
      [numberLine "  free memory:    " (s.freeFrameCount * kPageSize) ++ literal " bytes"] () := by
    apply prints_record
    simp only [numberLine, joinLines, List.flatMap_cons, List.flatMap_nil, List.append_assoc,
      List.append_nil, literal, String.reduceToList]
    rfl
  have hdone : Prints literals.memory (kprintf "  bitmap initialized\n" [])
      [literal "  bitmap initialized"] () := by
    apply prints_record
    simp only [literal, String.reduceToList]
    rfl
  have hwhole := hheading.seq ((printMap_prints hnames regions).seq (htotal.seq
    ((printAllocator_prints literals.memory regions s).seq (hfree.seq (hbytes.seq
      (hdone.seq (prints_pure s)))))))
  rw [initMemory, hinit]
  exact hwhole

theorem printMappings_prints (memory : Memory) (s : State) (space : AddressSpace)
    (framebuffer : Framebuffer) (hhdmOffset : Word) (layout : KernelLayout) :
    Prints memory (printMappings s space framebuffer hhdmOffset layout)
      (mappingLines s space framebuffer hhdmOffset layout) () := by
  refine Prints.cons ?_ (Prints.cons ?_ (Prints.cons ?_ (Prints.cons ?_ (Prints.cons ?_ ?_))))
  all_goals
    apply prints_record
    simp only [addressLine, mappingLine, literal, String.reduceToList]
    rfl

/-- From the new address space to the end. -/
def enteringLines (s : State) (space : AddressSpace) (framebuffer : Framebuffer)
    (hhdmOffset : Word) (layout : KernelLayout) : List (List Byte) :=
  mappingLines s space framebuffer hhdmOffset layout ++
    [literal "loading cr3...", literal "cr3 loaded", literal "done"]

/-- What `kmain` leaves when `build_kernel_address_space` has left the given space and state. -/
def runningIn (machine : Machine) (s : State) (space : AddressSpace)
    (regions : List MemoryRegion) (framebuffer : Framebuffer) (hhdmOffset : Word) : Running where
  state := { s with memory := framebuffer.draw s.memory }
  space := space
  registers := registersAfterBuild regions hhdmOffset machine.registers
  cr3 := space.pml4Physical

theorem enterAddressSpace_prints (memory : Memory) {machine : Machine} {s later : State}
    {space : AddressSpace} {regions : List MemoryRegion} (framebuffer : Framebuffer)
    {hhdmOffset : Word} {layout : KernelLayout}
    (hbuild : buildKernelAddressSpace s machine.stackSpace (some regions) hhdmOffset layout =
      (true, space, later)) :
    Prints memory (enterAddressSpace machine s regions framebuffer hhdmOffset layout)
      (enteringLines later space framebuffer hhdmOffset layout)
      (runningIn machine later space regions framebuffer hhdmOffset) := by
  have hloading : Prints memory (kprintf "loading cr3...\n" []) [literal "loading cr3..."] () := by
    apply prints_record
    simp only [literal, String.reduceToList]
    rfl
  have hloaded : Prints memory (kprintf "cr3 loaded\n" []) [literal "cr3 loaded"] () := by
    apply prints_record
    simp only [literal, String.reduceToList]
    rfl
  have hdone : Prints memory (serialWrite "done\n") [literal "done"] () := by
    apply prints_record
    simp only [literal, String.reduceToList]
    rfl
  have hwhole := (prints_check (rfl : true = true)
    "FATAL: failed to build kernel address space\n").seq
    ((printMappings_prints memory later space framebuffer hhdmOffset layout).seq
      (hloading.cons (hloaded.cons (hdone.cons
        (prints_pure (runningIn machine later space regions framebuffer hhdmOffset))))))
  rw [enterAddressSpace, hbuild]
  exact hwhole

end Stages

/-! ## The whole way -/

/-- The `LIMINE_MEMMAP` constant of a type. -/
def regionTypeCode : RegionType → Word
  | .usable => 0
  | .reserved => 1
  | .acpiReclaimable => 2
  | .acpiNvs => 3
  | .bad => 4
  | .bootloaderReclaimable => 5
  | .kernelAndModules => 6
  | .framebuffer => 7

/-- The entry that describes a region. -/
def memmapEntry (region : MemoryRegion) : MemmapEntry :=
  ⟨region.base, region.length, regionTypeCode region.type⟩

/-- A bootloader's answers to all requests. -/
structure Answers where
  framebuffer : Framebuffer
  others : List Framebuffer
  regions : List MemoryRegion
  hhdmOffset : Word
  kernelAddress : KernelAddress

namespace Answers

def responses (answers : Answers) : Responses where
  baseRevision := 0
  framebuffers := some (answers.framebuffer :: answers.others)
  memmap := some (answers.regions.map memmapEntry)
  hhdm := some answers.hhdmOffset
  kernelAddress := some answers.kernelAddress

/-- The layout that `kmain` makes of the symbols. -/
def layout (answers : Answers) (symbols : Symbols) : KernelLayout :=
  symbols.layout answers.kernelAddress.virtualBase answers.kernelAddress.physicalBase

end Answers

/-- Up to the memory map. -/
def openingLines (symbols : Symbols) (answers : Answers) : List (List Byte) :=
  let layout := answers.layout symbols
  [literal "WaterBuffalo booting", literal "framebuffer acquired",
    addressLine "kernel virtual base:  " answers.kernelAddress.virtualBase,
    addressLine "kernel physical base: " answers.kernelAddress.physicalBase,
    literal "kernel physical base verified",
    segmentLine ".text:   " layout layout.textStart (BitVec.ofNat 64 symbols.textEnd),
    segmentLine ".rodata: " layout layout.rodataStart (BitVec.ofNat 64 symbols.rodataEnd),
    segmentLine ".data:   " layout layout.dataStart layout.dataEnd]

section Whole

variable {literals : Literals} {symbols : Symbols} {answers : Answers} {machine : Machine}

theorem regionTypeOf_code (type : RegionType) : regionTypeOf (regionTypeCode type) = some type := by
  cases type <;> rfl

theorem translateMap_prints (memory : Memory) (regions : List MemoryRegion) :
    Prints memory (translateMap (regions.map memmapEntry)) [] regions := by
  induction regions with
  | nil => exact prints_pure []
  | cons region regions ih =>
    have hentry : translateEntry (memmapEntry region) = pure region := by
      rw [translateEntry, memmapEntry, regionTypeOf_code]
    rw [List.map_cons, translateMap, hentry]
    exact (prints_pure region).bind (ih.bind (prints_pure (region :: regions)))

/-- `kmain` prints the reference when the memory manager and the address space can be set up. -/
theorem kmain_prints (hnames : literals.HasNames) (hcount : answers.regions.length ≤ 64)
    (hbase : ∃ region ∈ answers.regions, HoldsBase answers.kernelAddress.physicalBase region)
    {s later : State} {space : AddressSpace}
    (hinit : Pmm.init answers.regions answers.hhdmOffset machine.memory = .ok s)
    (hbuild : buildKernelAddressSpace s machine.stackSpace (some answers.regions)
      answers.hhdmOffset (answers.layout symbols) = (true, space, later)) :
    Prints literals.memory (kmain literals symbols answers.responses machine)
      (openingLines symbols answers ++ memoryLines answers.regions s ++
        enteringLines later space answers.framebuffer answers.hhdmOffset (answers.layout symbols))
      (runningIn machine later space answers.regions answers.framebuffer answers.hhdmOffset) := by
  have hbanner : Prints literals.memory (serialWrite "WaterBuffalo booting\n")
      [literal "WaterBuffalo booting"] () := by
    apply prints_record
    simp only [literal, String.reduceToList]
    rfl
  have hacquired : Prints literals.memory (serialWrite "framebuffer acquired\n")
      [literal "framebuffer acquired"] () := by
    apply prints_record
    simp only [literal, String.reduceToList]
    rfl
  have hvirtual (value : Word) :
      Prints literals.memory (kprintf "kernel virtual base:  %p\n" [value])
      [addressLine "kernel virtual base:  " value] () := by
    apply prints_record
    simp only [addressLine, literal, String.reduceToList]
    rfl
  have hphysical (value : Word) :
      Prints literals.memory (kprintf "kernel physical base: %p\n" [value])
        [addressLine "kernel physical base: " value] () := by
    apply prints_record
    simp only [addressLine, literal, String.reduceToList]
    rfl
  have hverified : Prints literals.memory (kprintf "kernel physical base verified\n" [])
      [literal "kernel physical base verified"] () := by
    apply prints_record
    simp only [literal, String.reduceToList]
    rfl
  have hcheck : (answers.regions.map memmapEntry).length ≤ 64 := by
    rwa [List.length_map]
  rw [openingLines, List.append_assoc]
  refine hbanner.cons ((prints_check rfl _).seq ((prints_require answers.framebuffer _).bind
    (hacquired.cons ((prints_require (answers.regions.map memmapEntry) _).bind
    ((prints_require answers.hhdmOffset _).bind ((prints_require answers.kernelAddress _).bind
    ((prints_check hcheck _).seq ((translateMap_prints _ answers.regions).bind
    ((hvirtual _).cons ((hphysical _).cons ((prints_check hbase _).seq (hverified.cons
    ((printSegment_prints _ (Or.inl rfl) _ _ _).cons
    ((printSegment_prints _ (Or.inr (Or.inl rfl)) _ _ _).cons
    ((printSegment_prints _ (Or.inr (Or.inr rfl)) _ _ _).cons
    ((initMemory_prints hnames hinit).bind
    (enterAddressSpace_prints _ answers.framebuffer hbuild)))))))))))))))))

end Whole

end WaterBuffalo.Kernel
