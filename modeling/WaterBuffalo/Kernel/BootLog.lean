import WaterBuffalo.Kernel.BootSpace
import WaterBuffalo.Kernel.ReportReading

/-!
# The boot log on the line

Whatever the bootloader answers, the log of `kmain` reaches the serial line whole, and its end tells
the outcome: the line `done`, or the message of the check that failed.
-/

namespace WaterBuffalo.Kernel

open Pmm Vmm Print Serial

/-! ## The literals -/

/-- The messages without arguments. -/
def fatalMessages : List String :=
  ["fatal: bootloader rejected base revision\n", "fatal: no framebuffer from bootloader\n",
    "fatal: no memory map from bootloader\n", "fatal: no HHDM response from bootloader\n",
    "fatal: no kernel address response from bootloader\n",
    "fatal: memory map has too many entries\n",
    "fatal: kernel physical base is not inside KERNEL_AND_MODULES region\n",
    "fatal: no usable memory\n", "fatal: no usable region large enough for bitmap\n",
    "FATAL: failed to build kernel address space\n"]

/-- The literals of `kmain` and `mm::init`. -/
def kernelTexts : List String :=
  fatalMessages ++
    ["fatal: unknown memory map type: %lu\n", "WaterBuffalo booting\n", "framebuffer acquired\n",
      "kernel virtual base:  %p\n", "kernel physical base: %p\n",
      "kernel physical base verified\n",
      ".text:   virt=%p-%p size=%lu phys=%p-%p\n", ".rodata: virt=%p-%p size=%lu phys=%p-%p\n",
      ".data:   virt=%p-%p size=%lu phys=%p-%p\n", "\nMemory map:\n",
      "  %p - %p  length=%lu  type=%s\n", "Total usable memory: %lu bytes\n",
      "PMM:\n" ++ "  highest usable: %p\n" ++ "  frame count:    %lu\n" ++
        "  bitmap phys:    %p\n" ++ "  bitmap virt:    %p\n" ++ "  bitmap bytes:   %lu\n" ++
        "  bitmap words:   %lu\n" ++ "  bitmap pages:   %lu\n",
      "  free frames:    %lu\n", "  free memory:    %lu bytes\n", "  bitmap initialized\n",
      "pml4 physical:   %p\n", "direct map:      %p -> %p (expect 0x1000)\n",
      "framebuffer:     %p -> %p (expect %p)\n", "image:           %p -> %p (expect %p)\n",
      ".text:           %p -> %p (expect %p)\n", ".data:           %p -> %p (expect %p)\n",
      "loading cr3...\n", "cr3 loaded\n", "done\n"] ++
    ["USABLE", "RESERVED", "ACPI_RECLAIMABLE", "ACPI_NVS", "BAD_MEMORY", "BOOTLOADER_RECLAIMABLE",
      "KERNEL_AND_MODULES", "FRAMEBUFFER"]

/-- The image has the literals of `kmain`. -/
def Literals.HasKernel (literals : Literals) : Prop :=
  ∀ text ∈ kernelTexts, literals.Stored (literal text)

theorem Literals.HasKernel.hasNames {literals : Literals} (h : literals.HasKernel) :
    literals.HasNames := by
  intro type
  apply h
  cases type <;> simp [kernelTexts, regionTypeName]

/-! ## Halting is diagnosed -/

/-- The output is a line with a fatal message. -/
def Fatal (memory : Memory) (output : Output) : Prop :=
  ∃ line, output.printed memory = line ++ [ascii '\n'] ∧ Printable line ∧
    (literal "fatal: " <+: line ∨ literal "FATAL: " <+: line)

/-- The call prints a literal of `kmain` and finds the arguments it asks for. -/
def Output.Proper (output : Output) : Prop :=
  output.Complete ∧ ∃ text ∈ kernelTexts, output.text = literal text

/-- Every call is proper, and a computation that halts prints a fatal message before it does. -/
structure Reports {Value : Type} (memory : Memory) (computation : Printing Value) : Prop where
  proper : Logged.Every Output.Proper computation
  diagnosed : Logged.HaltsWith (Fatal memory) computation

section Rules

variable {Value Next : Type} {memory : Memory}

theorem reports_pure (value : Value) : Reports memory (pure value) :=
  ⟨Logged.every_pure value, Logged.haltsWith_pure value⟩

theorem Reports.bind {first : Printing Value} {second : Value → Printing Next}
    (hfirst : Reports memory first) (hsecond : ∀ value, Reports memory (second value)) :
    Reports memory (first >>= second) :=
  ⟨hfirst.proper.bind fun value ↦ (hsecond value).proper,
    hfirst.diagnosed.bind fun value ↦ (hsecond value).diagnosed⟩

theorem reports_kprintf {format : String} {slots : List Word} (hmember : format ∈ kernelTexts)
    (h : Complete (literal format) slots) : Reports memory (kprintf format slots) :=
  ⟨Logged.every_record ⟨h, format, hmember, rfl⟩, Logged.haltsWith_record _⟩

theorem reports_serialWrite {text : String} (hmember : text ∈ kernelTexts) :
    Reports memory (serialWrite text) :=
  ⟨Logged.every_record ⟨trivial, text, hmember, rfl⟩, Logged.haltsWith_record _⟩

theorem Reports.complete {computation : Printing Value} (h : Reports memory computation) :
    ∀ output ∈ computation.log, output.Complete :=
  fun output houtput ↦ (h.proper output houtput).1

theorem Reports.stored {computation : Printing Value} (h : Reports memory computation)
    {literals : Literals} (hliterals : literals.HasKernel) :
    ∀ output ∈ computation.log, literals.Stored output.text := by
  intro output houtput
  obtain ⟨-, text, hmember, htext⟩ := h.proper output houtput
  rw [htext]
  exact hliterals text hmember

end Rules

/-! ## The messages -/

section Messages

variable {Value : Type} {memory : Memory}

/-- A text without directives is printed as it is. -/
theorem parse_of_plain {text : List Byte} (h : ascii '%' ∉ text) :
    parse text = (text.map Item.literal, .complete) := by
  induction text with
  | nil => rfl
  | cons byte text ih =>
    have hbyte : byte ≠ ascii '%' := fun heq ↦ h (by rw [heq]; exact List.mem_cons_self)
    unfold parse
    rw [if_neg hbyte, ih fun hmember ↦ h (List.mem_cons_of_mem _ hmember)]
    rfl

theorem renderSlots_literals (text : List Byte) (slots : List Word) :
    renderSlots memory (text.map Item.literal) slots = text := by
  induction text with
  | nil => rfl
  | cons byte text ih =>
    rw [List.map_cons, renderSlots]
    exact congrArg (byte :: ·) ih

/-- The characters of a line without directives. -/
def undirected (s : String) : Bool :=
  s.toList.all fun c ↦ !(Nat.beq c.toNat 0x25)

/-- A message as the kernel has them: a plain line that begins with `fatal: `, and a newline. -/
structure Message (message line : String) : Prop where
  text_eq : literal message = literal line ++ [ascii '\n']
  plain_eq : plain line = true
  undirected_eq : undirected line = true
  begins : literal "fatal: " <+: literal line ∨ literal "FATAL: " <+: literal line

theorem Message.percent_notMem {message line : String} (h : Message message line) :
    ascii '%' ∉ literal message := by
  rw [h.text_eq, List.mem_append, not_or]
  refine ⟨fun hmember ↦ ?_, by decide⟩
  rw [literal, List.mem_map] at hmember
  obtain ⟨c, hc, heq⟩ := hmember
  have hother := List.all_eq_true.mp h.undirected_eq c hc
  have hbounds := List.all_eq_true.mp h.plain_eq c hc
  rw [Bool.and_eq_true, Nat.ble_eq, Nat.ble_eq] at hbounds
  rw [Bool.not_eq_true'] at hother
  have hne := Nat.ne_of_beq_eq_false hother
  have hvalue := congrArg BitVec.toNat heq
  rw [ascii, ascii, BitVec.toNat_ofNat, BitVec.toNat_ofNat] at hvalue
  have hpercent : '%'.toNat = 0x25 := rfl
  omega

theorem message_of_mem : ∀ message ∈ fatalMessages, ∃ line, Message message line := by
  simp only [fatalMessages, List.forall_mem_cons]
  refine ⟨⟨"fatal: bootloader rejected base revision", ?_⟩,
    ⟨"fatal: no framebuffer from bootloader", ?_⟩, ⟨"fatal: no memory map from bootloader", ?_⟩,
    ⟨"fatal: no HHDM response from bootloader", ?_⟩,
    ⟨"fatal: no kernel address response from bootloader", ?_⟩,
    ⟨"fatal: memory map has too many entries", ?_⟩,
    ⟨"fatal: kernel physical base is not inside KERNEL_AND_MODULES region", ?_⟩,
    ⟨"fatal: no usable memory", ?_⟩, ⟨"fatal: no usable region large enough for bitmap", ?_⟩,
    ⟨"FATAL: failed to build kernel address space", ?_⟩, List.forall_mem_nil _⟩
  all_goals
    refine ⟨?_, rfl, rfl, ?_⟩
    · simp only [literal, String.reduceToList]
      rfl
    · simp only [literal, String.reduceToList]
      decide

theorem reports_fatal {message : String} (h : message ∈ fatalMessages) :
    Reports memory (fatal message [] : Printing Value) := by
  obtain ⟨line, hmessage⟩ := message_of_mem message h
  have hparse := parse_of_plain hmessage.percent_notMem
  have hmember : message ∈ kernelTexts :=
    List.mem_append_left _ (List.mem_append_left _ h)
  refine ⟨Logged.every_halt ⟨⟨?_, ?_⟩, message, hmember, rfl⟩,
    Logged.haltsWith_halt ⟨literal line, ?_, ?_, hmessage.begins⟩⟩
  · rw [hparse]
  · rw [hparse, List.length_nil, Nat.le_zero, arities]
    simp [Function.comp_def, Item.arity]
  · rw [Output.printed, hparse, renderSlots_literals, hmessage.text_eq]
  · exact printable_literal hmessage.plain_eq

theorem reports_check {condition : Prop} [Decidable condition] {message : String}
    (h : message ∈ fatalMessages) : Reports memory (check condition message) := by
  rw [check]
  split_ifs
  · exact reports_pure ()
  · exact reports_fatal h

theorem reports_require {response : Option Value} {message : String}
    (h : message ∈ fatalMessages) : Reports memory (require response message) := by
  cases response with
  | none => exact reports_fatal h
  | some value => exact reports_pure value

end Messages

/-! ## Every way through `kmain` -/

section Ways

variable {memory : Memory}

theorem translateEntry_reports (entry : MemmapEntry) :
    Reports memory (translateEntry entry) := by
  rw [translateEntry]
  split
  · have hprinted : Output.printed memory
        (.kprintf (literal "fatal: unknown memory map type: %lu\n") [entry.type]) =
          literal "fatal: unknown memory map type: " ++ numeral 10 entry.type.toNat ++
            [ascii '\n'] := by
      simp only [List.append_assoc, literal, String.reduceToList]
      rfl
    refine ⟨Logged.every_halt ⟨?_, _, by simp [kernelTexts], rfl⟩,
      Logged.haltsWith_halt ⟨_, hprinted, ?_, Or.inl ?_⟩⟩
    · simp only [Output.Complete, literal, String.reduceToList]
      exact ⟨rfl, le_rfl⟩
    · exact (printable_literal rfl).append (printable_numeral (by decide) (by decide) _)
    · refine List.IsPrefix.trans ?_ (List.prefix_append _ _)
      simp only [literal, String.reduceToList]
      decide
  · exact reports_pure _

theorem translateMap_reports (entries : List MemmapEntry) :
    Reports memory (translateMap entries) := by
  induction entries with
  | nil => exact reports_pure []
  | cons entry entries ih =>
    exact (translateEntry_reports entry).bind fun region ↦
      ih.bind fun regions ↦ reports_pure (region :: regions)

theorem printMap_reports (literals : Literals) (regions : List MemoryRegion) :
    Reports memory (printMap literals regions) := by
  induction regions with
  | nil => exact reports_pure ()
  | cons region regions ih =>
    refine (reports_kprintf (by simp [kernelTexts]) ?_).bind fun _ ↦ ih
    simp only [literal, String.reduceToList]
    exact ⟨rfl, le_rfl⟩

theorem printSegment_reports {name : String}
    (hname : name = ".text:   " ∨ name = ".rodata: " ∨ name = ".data:   ")
    (layout : KernelLayout) (start stop : Word) :
    Reports memory (printSegment name layout start stop) := by
  obtain rfl | rfl | rfl := hname
  all_goals
    refine reports_kprintf (by simp [kernelTexts]) ?_
    simp only [String.reduceAppend, literal, String.reduceToList]
    exact ⟨rfl, le_rfl⟩

set_option maxRecDepth 4000 in
theorem printAllocator_reports (regions : List MemoryRegion) (s : State) :
    Reports memory (printAllocator regions s) := by
  refine reports_kprintf (by simp [kernelTexts]) ?_
  simp only [String.reduceAppend, literal, String.reduceToList]
  exact ⟨rfl, le_rfl⟩

theorem initMemory_reports (literals : Literals) (regions : List MemoryRegion)
    (hhdmOffset : Word) (start : Memory) :
    Reports memory (initMemory literals regions hhdmOffset start) := by
  refine (reports_kprintf (by simp [kernelTexts]) ?_).bind fun _ ↦
    (printMap_reports literals regions).bind fun _ ↦
    (reports_kprintf (by simp [kernelTexts]) ?_).bind fun _ ↦ ?_
  · simp only [literal, String.reduceToList]
    exact ⟨rfl, le_rfl⟩
  · simp only [literal, String.reduceToList]
    exact ⟨rfl, le_rfl⟩
  split
  · rename_i fault _
    cases fault <;> exact reports_fatal (by simp [fatalMessages, InitFault.message])
  · refine (printAllocator_reports regions _).bind fun _ ↦
      (reports_kprintf (by simp [kernelTexts]) ?_).bind fun _ ↦
      (reports_kprintf (by simp [kernelTexts]) ?_).bind fun _ ↦
      (reports_kprintf (by simp [kernelTexts]) ?_).bind fun _ ↦ reports_pure _
    all_goals
      simp only [literal, String.reduceToList]
      exact ⟨rfl, le_rfl⟩

theorem printMappings_reports (s : State) (space : AddressSpace) (framebuffer : Framebuffer)
    (hhdmOffset : Word) (layout : KernelLayout) :
    Reports memory (printMappings s space framebuffer hhdmOffset layout) := by
  refine (reports_kprintf (by simp [kernelTexts]) ?_).bind fun _ ↦
    (reports_kprintf (by simp [kernelTexts]) ?_).bind fun _ ↦
    (reports_kprintf (by simp [kernelTexts]) ?_).bind fun _ ↦
    (reports_kprintf (by simp [kernelTexts]) ?_).bind fun _ ↦
    (reports_kprintf (by simp [kernelTexts]) ?_).bind fun _ ↦
    reports_kprintf (by simp [kernelTexts]) ?_
  all_goals
    simp only [literal, String.reduceToList]
    exact ⟨rfl, le_rfl⟩

theorem enterAddressSpace_reports (machine : Machine) (s : State) (regions : List MemoryRegion)
    (framebuffer : Framebuffer) (hhdmOffset : Word) (layout : KernelLayout) :
    Reports memory (enterAddressSpace machine s regions framebuffer hhdmOffset layout) := by
  refine (reports_check (by simp [fatalMessages])).bind fun _ ↦
    (printMappings_reports _ _ _ _ _).bind fun _ ↦
    (reports_kprintf (by simp [kernelTexts]) ?_).bind fun _ ↦
    (reports_kprintf (by simp [kernelTexts]) ?_).bind fun _ ↦
    (reports_serialWrite (by simp [kernelTexts])).bind fun _ ↦ reports_pure _
  all_goals
    simp only [literal, String.reduceToList]
    exact ⟨rfl, le_rfl⟩

theorem kmain_reports (literals : Literals) (symbols : Symbols) (responses : Responses)
    (machine : Machine) : Reports memory (kmain literals symbols responses machine) := by
  refine (reports_serialWrite (by simp [kernelTexts])).bind fun _ ↦
    (reports_check (by simp [fatalMessages])).bind fun _ ↦
    (reports_require (by simp [fatalMessages])).bind fun framebuffer ↦
    (reports_serialWrite (by simp [kernelTexts])).bind fun _ ↦
    (reports_require (by simp [fatalMessages])).bind fun entries ↦
    (reports_require (by simp [fatalMessages])).bind fun hhdmOffset ↦
    (reports_require (by simp [fatalMessages])).bind fun kernelAddress ↦
    (reports_check (by simp [fatalMessages])).bind fun _ ↦
    (translateMap_reports entries).bind fun regions ↦
    (reports_kprintf (by simp [kernelTexts]) ?_).bind fun _ ↦
    (reports_kprintf (by simp [kernelTexts]) ?_).bind fun _ ↦
    (reports_check (by simp [fatalMessages])).bind fun _ ↦
    (reports_kprintf (by simp [kernelTexts]) ?_).bind fun _ ↦
    (printSegment_reports (Or.inl rfl) _ _ _).bind fun _ ↦
    (printSegment_reports (Or.inr (Or.inl rfl)) _ _ _).bind fun _ ↦
    (printSegment_reports (Or.inr (Or.inr rfl)) _ _ _).bind fun _ ↦
    (initMemory_reports literals regions hhdmOffset machine.memory).bind fun s ↦
    enterAddressSpace_reports machine s regions framebuffer hhdmOffset _
  all_goals
    simp only [literal, String.reduceToList]
    exact ⟨rfl, le_rfl⟩

end Ways

/-- How a boot can end. -/
inductive Outcome where
  /-- `kmain` reaches its end. -/
  | done
  /-- A check fails. -/
  | halted
  /-- An access raises an exception, and the handler takes over. -/
  | interrupted (frame : Isr.InterruptFrame) (cr2 : Word)

/-- The texts that are printed in this case only. -/
def Outcome.texts : Outcome → List (List Byte)
  | .done => []
  | .halted => []
  | .interrupted frame _ => handlerTexts frame.vector

/-- The tables that were loaded map every pixel writable. -/
def Running.Shows (running : Running) (framebuffer : Framebuffer) : Prop :=
  ∀ x < framebuffer.width.toNat, ∀ y < framebuffer.height.toNat, ∀ byte,
    ByteMemory.Within (framebuffer.pixelAddress (BitVec.ofNat 64 x) (BitVec.ofNat 64 y)) 4 byte →
      leafPresent running.state running.space.pml4 byte = true ∧
        (effectiveRights running.state running.space.pml4 byte).writable = true

/-- The ways a boot goes, with the calls that print.  A wrong direct map, or a framebuffer that the
new tables do not map, makes an access to the bitmap, to a table or to a pixel raise an exception.
Where that happens depends on the tables of the bootloader, so the calls before it may be any that
begin those of `kmain`.  Its accesses are taken to leave the image, the stack and the new tables
alone. -/
inductive Boots (literals : Literals) (symbols : Symbols) (responses : Responses)
    (machine : Machine) : Outcome → List Output → Prop where
  | done (running : Running)
      (hresult : (kmain literals symbols responses machine).result = some running)
      (hshown : ∀ framebuffers, responses.framebuffers = some framebuffers →
        ∀ framebuffer ∈ framebuffers.head?, running.Shows framebuffer) :
    Boots literals symbols responses machine .done (kmain literals symbols responses machine).log
  | halted (hresult : (kmain literals symbols responses machine).result = none) :
    Boots literals symbols responses machine .halted (kmain literals symbols responses machine).log
  | interrupted (before : List Output)
      (hbefore : before <+: (kmain literals symbols responses machine).log)
      (frame : Isr.InterruptFrame) (cr2 : Word) :
    Boots literals symbols responses machine (.interrupted frame cr2)
      (before ++ isrHandler frame cr2)

section Ends

variable {literals : Literals} {symbols : Symbols} {responses : Responses} {machine : Machine}
  {outcome : Outcome} {outputs : List Output}

/-- Every call of a boot prints a stored literal and finds the arguments it asks for. -/
theorem Boots.proper (h : Boots literals symbols responses machine outcome outputs)
    (hliterals : literals.HasKernel) (hhandler : ∀ text ∈ outcome.texts, literals.Stored text) :
    ∀ output ∈ outputs, literals.Stored output.text ∧ output.Complete := by
  have hreports : Reports literals.memory (kmain literals symbols responses machine) :=
    kmain_reports literals symbols responses machine
  have hkernel : ∀ output ∈ (kmain literals symbols responses machine).log,
      literals.Stored output.text ∧ output.Complete := fun output houtput ↦
    ⟨hreports.stored hliterals output houtput, hreports.complete output houtput⟩
  cases h with
  | done running hresult hshown => exact hkernel
  | halted hresult => exact hkernel
  | interrupted before hbefore frame cr2 =>
    rw [List.forall_mem_append]
    refine ⟨fun output houtput ↦ hkernel output (hbefore.subset houtput), fun output houtput ↦ ?_⟩
    exact ⟨hhandler _ (text_mem_handlerTexts houtput), isrHandler_complete frame cr2 output houtput⟩

end Ends

/-- The bootloader keeps the protocol, and the frames that are free after `init` pay for the
tables. -/
structure Payable (image : Image) (answers : Answers) (machine : Machine) (s : State) : Prop where
  linked : image.WellFormed
  conforming : answers.Conforming image
  init : Pmm.init answers.regions answers.hhdmOffset machine.memory = .ok s
  cost : kernelTables answers.regions answers.hhdmOffset (answers.layout (link image)) ≤
    (freeFrames s).card

theorem smallAnswers_payable : ∃ s, Payable smallImage smallAnswers smallMachine s := by
  obtain ⟨s, hinit, hfree⟩ := exists_smallMap_free
  have hcost := smallAnswers_tables
  rw [← hfree] at hcost
  exact ⟨s, smallImage_wellFormed, smallAnswers_conforming, hinit, hcost⟩

/-- An image with the literals of `kmain` and of the handler for page faults. -/
def wholeImage : Literals :=
  literalsOf (kernelTexts.map literal ++ handlerTexts 14)

/-- The bytes of a literal that can be stored: none is zero, and there are not many. -/
def storable (text : List Byte) : Bool :=
  text.all (fun byte ↦ Nat.blt 0 byte.toNat) && Nat.ble text.length 300

theorem stored_wholeImage {text : List Byte}
    (h : text ∈ kernelTexts.map literal ++ handlerTexts 14) : wholeImage.Stored text := by
  have hall : (kernelTexts.map literal ++ handlerTexts 14).all storable = true := by
    decide +kernel
  have hstorable : ∀ text ∈ kernelTexts.map literal ++ handlerTexts 14,
      (∀ byte ∈ text, byte ≠ 0) ∧ text.length ≤ 300 := by
    intro text htext
    have hboth := List.all_eq_true.mp hall text htext
    rw [storable, Bool.and_eq_true, Nat.ble_eq, List.all_eq_true] at hboth
    refine ⟨fun byte hbyte hzero ↦ ?_, hboth.2⟩
    have hpos := hboth.1 byte hbyte
    rw [hzero] at hpos
    exact absurd hpos (by decide)
  refine stored_literalsOf h (hstorable text h).1 ?_
  rw [length_pool]
  calc
    ((kernelTexts.map literal ++ handlerTexts 14).map fun text ↦ text.length + 1).sum ≤
        ((kernelTexts.map literal ++ handlerTexts 14).map
          fun text ↦ text.length + 1).length • 301 := by
      apply List.sum_le_card_nsmul
      intro size hsize
      obtain ⟨text, htext, rfl⟩ := List.mem_map.mp hsize
      exact Nat.succ_le_succ (hstorable text htext).2
    _ < 2 ^ 64 - 0x1000 := by
      rw [List.length_map, List.length_append, List.length_map]
      have hkernel : kernelTexts.length ≤ 60 := by decide
      have hhandler : (handlerTexts 14).length = 24 := rfl
      rw [hhandler]
      change (kernelTexts.length + 24) * 301 < _
      omega

theorem wholeImage_hasKernel : wholeImage.HasKernel :=
  fun _ htext ↦ stored_wholeImage (List.mem_append_left _ (List.mem_map_of_mem htext))

/-- The port after `serial::init` on a device that echoes, with `serial::putc` as the sink. -/
def echoTerminal : Terminal := ⟨1, (init echo Driver.start 115200).2⟩

theorem echoTerminal_speaking : Speaking ⟨0, 0, 0, 0, 0, 0, []⟩ echoTerminal.port := by
  obtain ⟨hprogrammed, -, -, hflag⟩ :=
    init_spec ⟨0, 0, 0, 0, 0, 0, []⟩ echo Driver.start (by decide : Accepted 115200)
  exact ⟨hflag.trans (init_of_loopsBack echo_loopsBack (by decide)), hprogrammed.connected⟩

section Lines

theorem printable_decimal (value : Word) : Printable (numeral 10 value.toNat) :=
  printable_numeral (by decide) (by decide) _

theorem printable_addressLine {name : String} (h : plain name = true) (value : Word) :
    Printable (addressLine name value) :=
  (printable_literal h).append (printable_address value)

theorem printable_numberLine {name : String} (h : plain name = true) (value : Word) :
    Printable (numberLine name value) :=
  (printable_literal h).append (printable_decimal value)

theorem printable_mappingLine {name : String} (h : plain name = true)
    (virt found expected : Word) : Printable (mappingLine name virt found expected) := by
  unfold mappingLine
  have hname := printable_addressLine h virt
  exact ((((hname.append (printable_literal rfl)).append (printable_address found)).append
    (printable_literal rfl)).append (printable_address expected)).append (printable_literal rfl)

theorem printable_regionLine (region : MemoryRegion) : Printable (regionLine region) := by
  have hname : Printable (literal (regionTypeName region.type)) := by
    cases region.type <;> exact printable_literal rfl
  unfold regionLine
  have hbase := printable_addressLine (rfl : plain "  " = true) region.base
  exact (((((hbase.append (printable_literal rfl)).append (printable_address _)).append
    (printable_literal rfl)).append (printable_decimal _)).append (printable_literal rfl)).append
    hname

theorem printable_segmentLine {name : String} (h : plain name = true) (layout : KernelLayout)
    (start stop : Word) : Printable (segmentLine name layout start stop) := by
  unfold segmentLine
  have hvirt : Printable (literal name ++ literal "virt=") :=
    (printable_literal h).append (printable_literal rfl)
  have hstart := (hvirt.append (printable_address start)).append
    (printable_literal (rfl : plain "-" = true))
  exact ((((((hstart.append (printable_address stop)).append (printable_literal rfl)).append
    (printable_decimal _)).append (printable_literal rfl)).append (printable_address _)).append
    (printable_literal rfl)).append (printable_address _)

theorem printable_bootLines (image : Image) (answers : Answers) (s : State) (root : Word) :
    ∀ line ∈ bootLines image answers s root, Printable line := by
  have hregions : ∀ line ∈ answers.regions.map regionLine, Printable line := by
    intro line hline
    obtain ⟨region, -, rfl⟩ := List.mem_map.mp hline
    exact printable_regionLine region
  have hbytes {name : String} (h : plain name = true) (value : Word) :
      Printable (numberLine name value ++ literal " bytes") :=
    (printable_numberLine h value).append (printable_literal rfl)
  have hdirect : Printable (literal "direct map:      " ++ address (answers.hhdmOffset + 0x1000) ++
      literal " -> " ++ address 0x1000 ++ literal " (expect 0x1000)") := by
    have hname := printable_addressLine (rfl : plain "direct map:      " = true)
      (answers.hhdmOffset + 0x1000)
    exact ((hname.append (printable_literal rfl)).append (printable_address _)).append
      (printable_literal rfl)
  simp only [bootLines, openingLines, memoryLines, verifiedLines, List.forall_mem_append,
    List.forall_mem_cons]
  refine ⟨⟨⟨printable_literal rfl, printable_literal rfl, printable_addressLine rfl _,
    printable_addressLine rfl _, printable_literal rfl, printable_segmentLine rfl _ _ _,
    printable_segmentLine rfl _ _ _, printable_segmentLine rfl _ _ _, List.forall_mem_nil _⟩,
    ⟨⟨printable_nil, printable_literal rfl, List.forall_mem_nil _⟩, hregions⟩,
    hbytes rfl _, printable_literal rfl, printable_addressLine rfl _, printable_numberLine rfl _,
    printable_addressLine rfl _, printable_addressLine rfl _, printable_numberLine rfl _,
    printable_numberLine rfl _, printable_numberLine rfl _, printable_numberLine rfl _,
    hbytes rfl _, printable_literal rfl, List.forall_mem_nil _⟩,
    ⟨printable_addressLine rfl _, hdirect, printable_mappingLine rfl _ _ _,
      printable_mappingLine rfl _ _ _, printable_mappingLine rfl _ _ _,
      printable_mappingLine rfl _ _ _, List.forall_mem_nil _⟩,
    printable_literal rfl, printable_literal rfl, printable_literal rfl, List.forall_mem_nil _⟩

end Lines

/-- **The boot on the line.** When the bootloader keeps the protocol and the tables can be paid
for, what arrives is the reference log, and behind it the report of the page fault that the store
through the null pointer raises: a write to address 0, where nothing is present. -/
theorem kernel_boot_on_line {image : Image} (himage : image.WellFormed) {answers : Answers}
    (hanswers : answers.Conforming image) {machine : Machine} {s : State}
    (hinit : Pmm.init answers.regions answers.hhdmOffset machine.memory = .ok s)
    (hcost : kernelTables answers.regions answers.hhdmOffset (answers.layout (link image)) ≤
      (freeFrames s).card)
    {device : Device} (hready : Ready device) {start : Uart} {terminal : Terminal}
    (hspeaking : Speaking start terminal.port) (hsink : terminal.outputSink ≠ 0)
    {literals : Literals} (hkernel : literals.HasKernel)
    (hhandler : ∀ text ∈ handlerTexts 14, literals.Stored text) (frame : Isr.InterruptFrame) :
    ∃ running later,
      (kmain literals (link image) answers.responses machine).result = some running ∧
      Output.runAll device literals terminal
        ((kmain literals (link image) answers.responses machine).log ++ nullStore running frame) =
          .ok later ∧
      (start.after later.port.accesses).line = (start.after terminal.port.accesses).line ++
        wire (bootLines image answers s running.cr3 ++
          reportLines { frame with vector := 14, errorCode := 2 } 0) := by
  obtain ⟨running, harrived, hboot⟩ := kmain_arrives himage hanswers hinit hcost
  have hprints := hboot literals hkernel.hasNames
  have hreports : Reports literals.memory
      (kmain literals (link image) answers.responses machine) := kmain_reports _ _ _ _
  have hnull : nullStore running frame =
      isrHandler { frame with vector := 14, errorCode := 2 } 0 := by
    rw [nullStore, harrived.null, if_neg Bool.false_ne_true]
  have hstored : ∀ output ∈ (kmain literals (link image) answers.responses machine).log ++
      nullStore running frame, literals.Stored output.text := by
    rw [hnull, List.forall_mem_append]
    exact ⟨hreports.stored hkernel,
      fun output houtput ↦ hhandler _ (text_mem_handlerTexts houtput)⟩
  have hcomplete : ∀ output ∈ (kmain literals (link image) answers.responses machine).log ++
      nullStore running frame, output.Complete := by
    rw [hnull, List.forall_mem_append]
    exact ⟨hreports.complete, isrHandler_complete _ 0⟩
  obtain ⟨later, hlater, -, hspoken⟩ :=
    Output.runAll_speaks hready hspeaking hsink hstored hcomplete
  refine ⟨running, later, hprints.result, hlater, ?_⟩
  have hprintable : ∀ line ∈ bootLines image answers s running.cr3 ++
      reportLines { frame with vector := 14, errorCode := 2 } 0, Printable line :=
    List.forall_mem_append.mpr ⟨printable_bootLines _ _ _ _, printable_reportLines⟩
  rw [hspoken.uart_eq, List.flatMap_append, hprints.log, hnull, isrHandler_printed,
    ← joinLines_append, flatMap_lineEnding_joinLines hprintable]

theorem kernel_boot_on_line_smallAnswers :
    let uart : Uart := ⟨0, 0, 0, 0, 0, 0, []⟩
    let frame := Isr.InterruptFrame.ofMemory (fun _ ↦ 0) 0
    ∃ s running later, Pmm.init smallMap 0xffff800000000000 (fun _ ↦ 0) = .ok s ∧
      (kmain wholeImage (link smallImage) smallAnswers.responses smallMachine).result =
        some running ∧
      Output.runAll echo wholeImage echoTerminal
        ((kmain wholeImage (link smallImage) smallAnswers.responses smallMachine).log ++
          nullStore running frame) = .ok later ∧
      (uart.after later.port.accesses).line = (uart.after echoTerminal.port.accesses).line ++
        wire (bootLines smallImage smallAnswers s running.cr3 ++
          reportLines { frame with vector := 14, errorCode := 2 } 0) := by
  intro uart frame
  obtain ⟨s, hinit, hfree⟩ := exists_smallMap_free
  have hcost := smallAnswers_tables
  rw [← hfree] at hcost
  change Pmm.init smallAnswers.regions smallAnswers.hhdmOffset smallMachine.memory = _ at hinit
  obtain ⟨running, later, hboot⟩ := kernel_boot_on_line smallImage_wellFormed
    smallAnswers_conforming hinit hcost echo_ready echoTerminal_speaking (by decide)
    wholeImage_hasKernel (fun _ htext ↦ stored_wholeImage (List.mem_append_right _ htext)) frame
  exact ⟨s, running, later, hinit, hboot⟩

/-! ## Reading the log -/

/-- What tells the names of the types apart: how long they are and how they begin. -/
def nameKey (name : List Byte) : ℕ × Option Byte :=
  (name.length, name.head?)

theorem regionTypeName_injective {left right : RegionType}
    (h : literal (regionTypeName left) = literal (regionTypeName right)) : left = right := by
  have hkey := congrArg nameKey h
  revert hkey
  cases left <;> cases right <;>
    first | exact fun _ ↦ rfl | exact fun hkey ↦ absurd hkey (by decide)

theorem regionLine_injective : Function.Injective regionLine := by
  intro left right h
  simp only [regionLine, List.append_assoc] at h
  obtain ⟨hbase, hrest⟩ :=
    List.append_inj (List.append_cancel_left h) (by simp only [length_address])
  obtain ⟨hend, hrest⟩ :=
    List.append_inj (List.append_cancel_left hrest) (by simp only [length_address])
  replace hbase := address_injective hbase
  replace hend := address_injective hend
  rw [hbase] at hend
  have hlength : left.length = right.length := add_left_cancel hend
  rw [hlength] at hrest
  have htype := regionTypeName_injective (List.append_cancel_left (List.append_cancel_left
    (List.append_cancel_left hrest)))
  cases left
  cases right
  simp_all

theorem bootLines_determine {image other : Image} {answers otherAnswers : Answers}
    {s otherState : State} {root otherRoot : Word}
    (hlines : bootLines image answers s root =
      bootLines other otherAnswers otherState otherRoot) :
    answers.regions = otherAnswers.regions ∧
      answers.kernelAddress = otherAnswers.kernelAddress ∧ root = otherRoot := by
  -- All parts but the map have a fixed number of lines.
  have hcount : answers.regions.length = otherAnswers.regions.length := by
    have hlengths := congrArg List.length hlines
    simp only [bootLines, openingLines, memoryLines, verifiedLines, List.length_append,
      List.length_cons, List.length_nil, List.length_map] at hlengths
    omega
  unfold bootLines at hlines
  obtain ⟨hfirst, hentering⟩ := List.append_inj hlines (by
    simp only [openingLines, memoryLines, List.length_append, List.length_cons, List.length_nil,
      List.length_map, hcount])
  obtain ⟨hopening, hmemory⟩ := List.append_inj hfirst (by
    simp only [openingLines, List.length_cons, List.length_nil])
  simp only [openingLines, List.cons.injEq, true_and, addressLine] at hopening
  obtain ⟨hvirtual, hphysical, -⟩ := hopening
  unfold memoryLines at hmemory
  obtain ⟨hmap, -⟩ := List.append_inj hmemory (by
    simp only [List.length_append, List.length_cons, List.length_nil, List.length_map, hcount])
  have hregions := List.map_injective_iff.mpr regionLine_injective (List.append_cancel_left hmap)
  simp only [verifiedLines, List.cons_append, List.cons.injEq, addressLine] at hentering
  refine ⟨hregions, ?_, address_injective (List.append_cancel_left hentering.1)⟩
  have hbases : answers.kernelAddress.virtualBase = otherAnswers.kernelAddress.virtualBase ∧
      answers.kernelAddress.physicalBase = otherAnswers.kernelAddress.physicalBase :=
    ⟨address_injective (List.append_cancel_left hvirtual),
      address_injective (List.append_cancel_left hphysical)⟩
  rw [← KernelAddress.mk.injEq] at hbases
  exact hbases

/-- The bytes that `kmain` prints. -/
def bootLog (literals : Literals) (image : Image) (answers : Answers) (machine : Machine) :
    List Byte :=
  (kmain literals (link image) answers.responses machine).log.flatMap
    (Output.printed literals.memory)

/-- The root that `kmain` loads, if it comes that far. -/
def bootRoot (literals : Literals) (image : Image) (answers : Answers) (machine : Machine) :
    Option Word :=
  (kmain literals (link image) answers.responses machine).result.map Running.cr3

theorem Payable.bootLog_eq {image : Image} {answers : Answers} {machine : Machine} {s : State}
    (h : Payable image answers machine s) :
    ∃ root, ∀ literals : Literals, literals.HasNames →
      bootRoot literals image answers machine = some root ∧
        bootLog literals image answers machine = joinLines (bootLines image answers s root) := by
  obtain ⟨running, -, hprints⟩ := kmain_arrives h.linked h.conforming h.init h.cost
  refine ⟨running.cr3, fun literals hnames ↦ ⟨?_, (hprints literals hnames).log⟩⟩
  rw [bootRoot, (hprints literals hnames).result, Option.map_some]

/-- **The log can be read back.** Two boots that print the same, of two images and on two machines,
had the same memory map and the same kernel addresses, and loaded the same root. -/
theorem boot_log_determines_map {literals otherLiterals : Literals} (hnames : literals.HasNames)
    (hotherNames : otherLiterals.HasNames) {image other : Image}
    {answers otherAnswers : Answers} {machine otherMachine : Machine} {s otherState : State}
    (h : Payable image answers machine s)
    (hother : Payable other otherAnswers otherMachine otherState)
    (hlog : bootLog literals image answers machine =
      bootLog otherLiterals other otherAnswers otherMachine) :
    answers.regions = otherAnswers.regions ∧
      answers.kernelAddress = otherAnswers.kernelAddress ∧
      bootRoot literals image answers machine =
        bootRoot otherLiterals other otherAnswers otherMachine := by
  obtain ⟨root, hboot⟩ := h.bootLog_eq
  obtain ⟨otherRoot, hotherBoot⟩ := hother.bootLog_eq
  obtain ⟨hroot, hprinted⟩ := hboot literals hnames
  obtain ⟨hotherRoot, hotherPrinted⟩ := hotherBoot otherLiterals hotherNames
  rw [hprinted, hotherPrinted] at hlog
  -- What ends the lines does not occur in them.
  have hwire := congrArg (List.flatMap lineEnding) hlog
  rw [flatMap_lineEnding_joinLines (printable_bootLines _ _ _ _),
    flatMap_lineEnding_joinLines (printable_bootLines _ _ _ _)] at hwire
  have hlines :=
    wire_injective (printable_bootLines _ _ _ _) (printable_bootLines _ _ _ _) hwire
  obtain ⟨hregions, haddress, hroots⟩ := bootLines_determine hlines
  exact ⟨hregions, haddress, by rw [hroot, hotherRoot, hroots]⟩

/-- The same boot with the literals elsewhere, and more of them. -/
theorem boot_log_determines_map_smallAnswers :
    bootRoot namesOnly smallImage smallAnswers smallMachine =
      bootRoot wholeImage smallImage smallAnswers smallMachine := by
  obtain ⟨s, hs⟩ := smallAnswers_payable
  have hnames := wholeImage_hasKernel.hasNames
  obtain ⟨root, hboot⟩ := hs.bootLog_eq
  have hlog : bootLog namesOnly smallImage smallAnswers smallMachine =
      bootLog wholeImage smallImage smallAnswers smallMachine :=
    (hboot namesOnly namesOnly_hasNames).2.trans (hboot wholeImage hnames).2.symm
  exact (boot_log_determines_map namesOnly_hasNames hnames hs hs hlog).2.2

end WaterBuffalo.Kernel
