import WaterBuffalo.Arch.Idt
import WaterBuffalo.Foundation.Machine
import Mathlib.Tactic.IntervalCases

/-!
# Segments and exceptions

What the processor does with the two tables, as far as the kernel relies on it: a segment register
is loaded through the GDT, which sets the accessed bit of the descriptor, and an exception finds
its handler through the IDT.  The kernel runs at privilege level 0 and installs no stack to switch
to, so the model covers delivery and return without a change of level or of stack; what the
processor would answer with another exception is `none`, as is what would leave the level.  `rip`
and `rflags` are the values it saves for the exception at hand.

On top of it, the two functions that install the tables: `gdt::init` and `idt::init`.
-/

namespace WaterBuffalo.Arch

open ByteMemory X86

/-! ## The processor -/

/-- `GdtPointer` and `idt::Pointer`. -/
structure TableRegister where
  limit : BitVec 16
  base : Word
  deriving DecidableEq, Repr

/-- The segment registers that `movw` can load. -/
inductive DataSegment where
  | ds
  | es
  | fs
  | gs
  | ss
  deriving DecidableEq, Repr

structure Processor extends Machine where
  gdtr : TableRegister
  idtr : TableRegister
  ds : BitVec 16
  es : BitVec 16
  fs : BitVec 16
  gs : BitVec 16

/-- The bit of a descriptor that loading it sets. -/
def accessedBit : Word := 1#64 <<< 40

/-- A present 64-bit code segment of the given level that is not conforming. -/
def longCode (level : BitVec 2) (segment : Gdt.Segment) : Bool :=
  segment.access.getLsbD 7 && segment.access.extractLsb' 5 2 == level &&
    segment.access.getLsbD 4 && segment.access.getLsbD 3 && !segment.access.getLsbD 2 &&
    segment.flags.getLsbD 1 && !segment.flags.getLsbD 2

/-- A present data segment of the given level that can be written. -/
def writableData (level : BitVec 2) (segment : Gdt.Segment) : Bool :=
  segment.access.getLsbD 7 && segment.access.extractLsb' 5 2 == level &&
    segment.access.getLsbD 4 && !segment.access.getLsbD 3 && segment.access.getLsbD 1

namespace Processor

/-- The current privilege level. -/
def level (p : Processor) : BitVec 2 :=
  p.cs.extractLsb' 0 2

/-- Where the descriptor of a selector of the current level is, if it lies inside the table. -/
def descriptorAddress (p : Processor) (selector : BitVec 16) : Option Word :=
  let offset := (selector &&& 0xFFF8).setWidth 64
  if selector.extractLsb' 0 2 ≠ p.level ∨ selector.getLsbD 2 = true ∨
      p.gdtr.limit.toNat < offset.toNat + 7 then none
  else some (p.gdtr.base + offset)

/-- Set the accessed bit of a descriptor. -/
def markAccessed (p : Processor) (address descriptor : Word) : Processor :=
  { p with memory := store64 p.memory address (descriptor ||| accessedBit) }

/-- Look a selector up for a segment register; the descriptor is marked as accessed. -/
def loadSegment (p : Processor) (selector : BitVec 16) (check : Gdt.Segment → Bool) :
    Option Processor :=
  match p.descriptorAddress selector with
  | none => none
  | some address =>
    let descriptor := load64 p.memory address
    if check (Gdt.Segment.ofDescriptor descriptor) then
      some (p.markAccessed address descriptor)
    else none

/-- The selector in a data segment register. -/
def selector (p : Processor) : DataSegment → BitVec 16
  | .ds => p.ds
  | .es => p.es
  | .fs => p.fs
  | .gs => p.gs
  | .ss => p.ss

def setSelector (p : Processor) (value : BitVec 16) : DataSegment → Processor
  | .ds => { p with ds := value }
  | .es => { p with es := value }
  | .fs => { p with fs := value }
  | .gs => { p with gs := value }
  | .ss => { p with ss := value }

/-- `movw` to a data segment register. -/
def movw (p : Processor) (value : BitVec 16) (segment : DataSegment) : Option Processor :=
  (p.loadSegment value (writableData p.level)).map (·.setSelector value segment)

/-- The exceptions for which the processor pushes an error code. -/
def pushesErrorCode (vector : ℕ) : Bool :=
  [8, 10, 11, 12, 13, 14, 17, 21, 29, 30].contains vector

/-- IF, TF, NT and RF, which an interrupt gate clears. -/
def gateFlags : Word := 1#64 <<< 9 ||| 1#64 <<< 8 ||| 1#64 <<< 14 ||| 1#64 <<< 16

/-- What the processor pushes, after aligning the stack. -/
def savedWords (p : Processor) (vector : ℕ) (errorCode : Word) : List Word :=
  [p.ss.setWidth 64, p.rsp, p.rflags, p.cs.setWidth 64, p.rip] ++
    if pushesErrorCode vector then [errorCode] else []

/-- Go to the handler of a gate. -/
def enterGate (p : Processor) (gate : Idt.Gate) (vector : ℕ) (errorCode : Word) : Processor :=
  let m := (p.set .rsp (p.rsp &&& ~~~0xF)).pushAll (p.savedWords vector errorCode)
  { p with
    toMachine :=
      { m with
        rip := gate.offset
        cs := gate.selector
        rflags := m.rflags &&& ~~~gateFlags } }

theorem enterGate_registers (p : Processor) (gate : Idt.Gate) (vector : ℕ) (errorCode : Word) :
    (p.enterGate gate vector errorCode).registers =
      ((p.set .rsp (p.rsp &&& ~~~0xF)).pushAll (p.savedWords vector errorCode)).registers := by
  simp only [enterGate]

theorem enterGate_memory (p : Processor) (gate : Idt.Gate) (vector : ℕ) (errorCode : Word) :
    (p.enterGate gate vector errorCode).memory =
      ((p.set .rsp (p.rsp &&& ~~~0xF)).pushAll (p.savedWords vector errorCode)).memory := by
  simp only [enterGate]

/-- The rest of the context at the handler. -/
theorem enterGate_context (p : Processor) (gate : Idt.Gate) (vector : ℕ) (errorCode : Word) :
    (p.enterGate gate vector errorCode).rip = gate.offset ∧
      (p.enterGate gate vector errorCode).cs = gate.selector ∧
      (p.enterGate gate vector errorCode).rflags = p.rflags &&& ~~~gateFlags ∧
      (p.enterGate gate vector errorCode).gdtr = p.gdtr ∧
      (p.enterGate gate vector errorCode).idtr = p.idtr := by
  have hrflags := (pushAll_context (p.set .rsp (p.rsp &&& ~~~0xF))
    (p.savedWords vector errorCode)).2.1
  simp only [enterGate, hrflags, true_and, and_true]
  rfl

/-- Deliver an exception. -/
def deliver (p : Processor) (vector : ℕ) (errorCode : Word) : Option Processor :=
  if p.idtr.limit.toNat < 16 * vector + 15 then none
  else
    let gate := Idt.gateAt p.memory p.idtr.base vector
    if gate.present = true ∧ gate.kind = 0xE ∧ gate.ist = 0 then
      (p.loadSegment gate.selector (longCode p.level)).map (·.enterGate gate vector errorCode)
    else none

end Processor

/-! ## Installing the tables -/

/-- `gdt_pointer` for the table at `gdt`. -/
def gdtPointer (gdt : Word) : TableRegister where
  limit := 5 * 8 - 1
  base := gdt

/-- The far return of `gdt::init`: what it takes off the stack for `rip` and `cs`, and the machine
before the code segment is loaded. -/
def farReturn (m : Machine) (label : Word) : Word × Word × Machine :=
  -- pushq code; leaq 1f(%rip), %rax; pushq %rax
  let m := m.push (Gdt.kKernelCodeSelector.setWidth 64)
  let m := m.set .rax label
  let m := m.push (m.registers .rax)
  -- lretq
  let (rip, m) := m.pop
  let (cs, m) := m.pop
  (rip, cs, m)

/-- `gdt::init`, with the table at `gdt`; `label` is the address behind the far return. -/
def gdtInit (p : Processor) (gdt label : Word) : Option Processor := do
  let p := { p with gdtr := gdtPointer gdt }
  let (rip, cs, m) := farReturn p.toMachine label
  let p := { p with toMachine := m }
  let p ← p.loadSegment (cs.setWidth 16) (longCode p.level)
  let p := { p with rip := rip, cs := cs.setWidth 16 }
  -- movw data, %ax, and from there to the data segments
  let data := Gdt.kKernelDataSelector
  let p := { p with
    toMachine := p.set .rax ((p.registers .rax &&& ~~~0xFFFF) ||| data.setWidth 64) }
  [.ds, .es, .fs, .gs, .ss].foldlM (fun p segment ↦ p.movw data segment) p

/-- `idt::init`, with the table at `idt`. -/
def idtInit (p : Processor) (idt : Word) (isrStubTable : ℕ → Word) : Processor :=
  { p with
    memory := Idt.fill p.memory idt isrStubTable
    idtr := ⟨256 * 16 - 1, idt⟩ }

/-! ## The tables in place -/

/-- The processor uses the table at `gdt`, whose descriptors are those of the image except for
accessed bits. -/
structure GdtLoaded (p : Processor) (gdt : Word) : Prop where
  gdtr_eq : p.gdtr = gdtPointer gdt
  descriptors : ∀ index descriptor, Gdt.gdt[index]? = some descriptor →
    load64 p.memory (recordAt gdt 8 index) = descriptor ∨
      load64 p.memory (recordAt gdt 8 index) = descriptor ||| accessedBit

/-- The processor uses the table at `idt`, in which the exceptions have their stubs. -/
structure IdtLoaded (p : Processor) (idt : Word) (isrStubTable : ℕ → Word) : Prop where
  idtr_eq : p.idtr = ⟨256 * 16 - 1, idt⟩
  gates : ∀ vector < 256, Idt.gateAt p.memory idt vector =
    if vector < 32 then ⟨isrStubTable vector, Gdt.kKernelCodeSelector, 0, 0xE, 0, true⟩
    else ⟨0, 0, 0, 0, 0, false⟩

section Loaded

variable {p later : Processor} {gdt idt : Word} {isrStubTable : ℕ → Word}

/-- Only the bytes of the table matter. -/
theorem GdtLoaded.congr (h : GdtLoaded p gdt) (hgdtr : later.gdtr = p.gdtr)
    (hmemory : ∀ target, Within gdt 40 target → later.memory target = p.memory target) :
    GdtLoaded later gdt := by
  refine ⟨hgdtr.trans h.gdtr_eq, fun index descriptor hdescriptor ↦ ?_⟩
  have hindex : index < 5 := (List.getElem?_eq_some_iff.mp hdescriptor).1
  have hsame : load64 later.memory (recordAt gdt 8 index) =
      load64 p.memory (recordAt gdt 8 index) :=
    load64_congr fun target htarget ↦ hmemory target (htarget.of_part (by omega) (by decide))
  rw [hsame]
  exact h.descriptors index descriptor hdescriptor

theorem IdtLoaded.congr (h : IdtLoaded p idt isrStubTable) (hidtr : later.idtr = p.idtr)
    (hmemory : ∀ target, Within idt 4096 target → later.memory target = p.memory target) :
    IdtLoaded later idt isrStubTable := by
  refine ⟨hidtr.trans h.idtr_eq, fun vector hvector ↦ ?_⟩
  rw [← h.gates vector hvector]
  refine congrArg Idt.Gate.ofBytes (read_congr fun index hindex ↦ hmemory _ ?_)
  exact (within_add hindex).of_part (by omega) (by decide)

theorem idtInit_loaded (p : Processor) (idt : Word) (isrStubTable : ℕ → Word) :
    IdtLoaded (idtInit p idt isrStubTable) idt isrStubTable :=
  ⟨rfl, fun _ hvector ↦ Idt.gateAt_fill p.memory idt isrStubTable hvector⟩

/-- A segment register can be loaded with a selector of the table. -/
theorem GdtLoaded.loadSegment (h : GdtLoaded p gdt) (hlevel : p.level = 0)
    {selector : BitVec 16} {index : ℕ} {descriptor : Word}
    (hselector : selector = BitVec.ofNat 16 (8 * index))
    (hdescriptor : Gdt.gdt[index]? = some descriptor) {check : Gdt.Segment → Bool}
    (hclear : check (Gdt.Segment.ofDescriptor descriptor) = true)
    (hset : check (Gdt.Segment.ofDescriptor (descriptor ||| accessedBit)) = true) :
    p.loadSegment selector check = some (p.markAccessed (recordAt gdt 8 index) descriptor) := by
  have hindex : index < 5 := (List.getElem?_eq_some_iff.mp hdescriptor).1
  have haddress : p.descriptorAddress selector = some (recordAt gdt 8 index) := by
    rw [Processor.descriptorAddress, hlevel, h.gdtr_eq, hselector, recordAt]
    interval_cases index <;> rfl
  rw [Processor.loadSegment, haddress]
  have hidempotent : descriptor ||| accessedBit ||| accessedBit = descriptor ||| accessedBit := by
    rw [BitVec.or_assoc, BitVec.or_self]
  rcases h.descriptors index descriptor hdescriptor with hword | hword
  · simp only [hword, hclear, if_true]
  · simp only [hword, hset, if_true, Processor.markAccessed, hidempotent]

/-- Loading a segment keeps the table. -/
theorem GdtLoaded.accessed (h : GdtLoaded p gdt) {index : ℕ} {descriptor : Word}
    (hdescriptor : Gdt.gdt[index]? = some descriptor) :
    GdtLoaded (p.markAccessed (recordAt gdt 8 index) descriptor) gdt := by
  have hindex : index < 5 := (List.getElem?_eq_some_iff.mp hdescriptor).1
  refine ⟨h.gdtr_eq, fun other expected hexpected ↦ ?_⟩
  have hother : other < 5 := (List.getElem?_eq_some_iff.mp hexpected).1
  by_cases hsame : other = index
  · subst hsame
    rw [hdescriptor, Option.some.injEq] at hexpected
    subst hexpected
    right
    exact load64_store64_self _ _ _
  · have hkept : load64 (p.markAccessed (recordAt gdt 8 index) descriptor).memory
        (recordAt gdt 8 other) = load64 p.memory (recordAt gdt 8 other) := by
      refine load64_congr fun target htarget ↦ store64_of_not_within ?_
      exact records_disjoint hsame (by omega) (by omega) htarget
    simp only [hkept]
    exact h.descriptors other expected hexpected

/-- Loading a segment changes at most the table. -/
theorem markAccessed_of_not_within {target descriptor : Word} {index : ℕ} (hindex : index < 5)
    (h : ¬ Within gdt 40 target) :
    (p.markAccessed (recordAt gdt 8 index) descriptor).memory target = p.memory target :=
  store64_of_not_within fun hinside ↦ h (hinside.of_part (by omega) (by decide))

theorem GdtLoaded.loadKernelCode (h : GdtLoaded p gdt) (hlevel : p.level = 0) :
    p.loadSegment Gdt.kKernelCodeSelector (longCode p.level) =
      some (p.markAccessed (recordAt gdt 8 1) Gdt.kernelCode) := by
  have hselector : Gdt.kKernelCodeSelector = BitVec.ofNat 16 (8 * 1) := rfl
  have hdescriptor : Gdt.gdt[1]? = some Gdt.kernelCode := rfl
  rw [hlevel]
  apply h.loadSegment hlevel hselector hdescriptor
  · decide
  · decide

theorem GdtLoaded.loadKernelData (gdt : Word) (h : GdtLoaded p gdt) (hlevel : p.level = 0) :
    p.loadSegment Gdt.kKernelDataSelector (writableData p.level) =
      some (p.markAccessed (recordAt gdt 8 2) Gdt.kernelData) := by
  have hselector : Gdt.kKernelDataSelector = BitVec.ofNat 16 (8 * 2) := rfl
  have hdescriptor : Gdt.gdt[2]? = some Gdt.kernelData := rfl
  rw [hlevel]
  apply h.loadSegment hlevel hselector hdescriptor
  · decide
  · decide

/-- The exceptions reach their stubs. -/
theorem deliver_exception (hgdt : GdtLoaded p gdt) (hidt : IdtLoaded p idt isrStubTable)
    (hlevel : p.level = 0) {vector : ℕ} (hvector : vector < 32) (errorCode : Word) :
    p.deliver vector errorCode =
      some ((p.markAccessed (recordAt gdt 8 1) Gdt.kernelCode).enterGate
        ⟨isrStubTable vector, Gdt.kKernelCodeSelector, 0, 0xE, 0, true⟩ vector errorCode) := by
  have hlimit : ¬ (256 * 16 - 1 : BitVec 16).toNat < 16 * vector + 15 := by
    have hvalue : (256 * 16 - 1 : BitVec 16).toNat = 4095 := rfl
    omega
  have hgate := hidt.gates vector (by omega)
  rw [if_pos hvector] at hgate
  rw [Processor.deliver, hidt.idtr_eq, if_neg hlimit]
  simp only [hgate, true_and, if_true]
  rw [hgdt.loadKernelCode hlevel, Option.map_some]

/-- No other interrupt is delivered. -/
theorem deliver_other (hidt : IdtLoaded p idt isrStubTable) {vector : ℕ} (hvector : 32 ≤ vector)
    (errorCode : Word) : p.deliver vector errorCode = none := by
  have hvalue : (256 * 16 - 1 : BitVec 16).toNat = 4095 := rfl
  rw [Processor.deliver, hidt.idtr_eq]
  simp only [hvalue]
  by_cases hlimit : 4095 < 16 * vector + 15
  · rw [if_pos hlimit]
  · have hgate := hidt.gates vector (by omega)
    rw [if_neg (by omega)] at hgate
    simp only [hlimit, hgate, Bool.false_eq_true, false_and, if_false]

end Loaded

/-- The far return goes to the label under the kernel's code segment. -/
theorem farReturn_spec (m : Machine) (label : Word) :
    (farReturn m label).1 = label ∧
      (farReturn m label).2.1 = Gdt.kKernelCodeSelector.setWidth 64 ∧
      (farReturn m label).2.2.cs = m.cs ∧
      (∀ register, register ≠ .rax →
        (farReturn m label).2.2.registers register = m.registers register) ∧
      ∀ target, ¬ Within (m.rsp - 16) 16 target →
        (farReturn m label).2.2.memory target = m.memory target := by
  set code : Word := Gdt.kKernelCodeSelector.setWidth 64 with hcode
  set called := (m.push code).set .rax label with hcalled
  have hlabel : called.registers .rax = label := set_self _ _ _
  have hrsp : called.rsp = m.rsp - 8 := by
    calc
      called.rsp = (m.push code).rsp := set_of_ne (by decide) _ _
      _ = m.rsp - 8 := push_rsp m code
  have hmemory : (called.push label).memory =
      store64 (store64 m.memory (m.rsp - 8) code) (m.rsp - 8 - 8) label := by
    rw [push_memory, hrsp]
    exact congrArg (store64 · _ _) (push_memory m code)
  have htop : load64 (called.push label).memory (called.push label).rsp = label := by
    rw [push_rsp, push_memory, load64_store64_self]
  have hback : (called.push label).rsp + 8 = m.rsp - 8 := by
    rw [push_rsp, hrsp]
    ring
  have hsecond : load64 (called.push label).memory (m.rsp - 8) = code := by
    calc
      load64 (called.push label).memory (m.rsp - 8) =
          load64 (store64 m.memory (m.rsp - 8) code) (m.rsp - 8) := by
        rw [hmemory]
        exact load64_congr fun target htarget ↦
          store64_of_not_within (not_within_slot (by decide) htarget)
      _ = code := load64_store64_self _ _ _
  have hpopped : farReturn m label = (label, code,
      ((called.push label).set .rsp (m.rsp - 8)).set .rsp m.rsp) := by
    have hlast : ((called.push label).set .rsp (m.rsp - 8)).rsp = m.rsp - 8 := set_self _ _ _
    have hend : m.rsp - 8 + 8 = m.rsp := by ring
    simp only [farReturn, Machine.pop, ← hcode, ← hcalled, hlabel, htop, hback, hlast, hend]
    exact congrArg (fun word ↦ (label, word, _)) hsecond
  rw [hpopped]
  refine ⟨rfl, rfl, rfl, fun register hregister ↦ ?_, fun target htarget ↦ ?_⟩
  · by_cases hpointer : register = .rsp
    · rw [hpointer]
      exact set_self _ _ _
    · rw [set_of_ne hpointer, set_of_ne hpointer, push_register hpointer, set_of_ne hregister,
        push_register hpointer]
  · have hfirst : ¬ Within (m.rsp - 8) 8 target := by
      intro hinside
      have hslot : m.rsp - 8 = m.rsp - 16 + 8 := by ring
      rw [hslot] at hinside
      exact htarget (hinside.of_part (by decide) (by decide))
    have hsecond : ¬ Within (m.rsp - 8 - 8) 8 target := by
      intro hinside
      have hslot : m.rsp - 8 - 8 = m.rsp - 16 + 0 := by ring
      rw [hslot] at hinside
      exact htarget (hinside.of_part (by decide) (by decide))
    calc
      (called.push label).memory target =
          store64 m.memory (m.rsp - 8) code target := by
        rw [hmemory, store64_of_not_within hsecond]
      _ = m.memory target := store64_of_not_within hfirst

/-! ## The data segments -/

/-- What loading segments from the table at `gdt` leaves alone. -/
structure Kept (gdt : Word) (p later : Processor) : Prop where
  registers_eq : later.registers = p.registers
  rip_eq : later.rip = p.rip
  rflags_eq : later.rflags = p.rflags
  cs_eq : later.cs = p.cs
  gdtr_eq : later.gdtr = p.gdtr
  idtr_eq : later.idtr = p.idtr
  memory_eq : ∀ target, ¬ Within gdt 40 target → later.memory target = p.memory target

section Segments

variable {p later last : Processor} {gdt : Word} {segment : DataSegment}

theorem Kept.trans (h : Kept gdt p later) (hlast : Kept gdt later last) : Kept gdt p last where
  registers_eq := hlast.registers_eq.trans h.registers_eq
  rip_eq := hlast.rip_eq.trans h.rip_eq
  rflags_eq := hlast.rflags_eq.trans h.rflags_eq
  cs_eq := hlast.cs_eq.trans h.cs_eq
  gdtr_eq := hlast.gdtr_eq.trans h.gdtr_eq
  idtr_eq := hlast.idtr_eq.trans h.idtr_eq
  memory_eq := fun target htarget ↦
    (hlast.memory_eq target htarget).trans (h.memory_eq target htarget)

theorem Kept.refl (gdt : Word) (p : Processor) : Kept gdt p p :=
  ⟨rfl, rfl, rfl, rfl, rfl, rfl, fun _ _ ↦ rfl⟩

theorem Kept.level_eq (h : Kept gdt p later) : later.level = p.level := by
  rw [Processor.level, h.cs_eq, Processor.level]

/-- A selector does not reach the memory or the rest of the context. -/
theorem setSelector_kept (gdt : Word) (p : Processor) (value : BitVec 16) (segment : DataSegment) :
    Kept gdt p (p.setSelector value segment) := by
  cases segment <;> exact ⟨rfl, rfl, rfl, rfl, rfl, rfl, fun _ _ ↦ rfl⟩

theorem setSelector_memory (p : Processor) (value : BitVec 16) (segment : DataSegment) :
    (p.setSelector value segment).memory = p.memory := by
  cases segment <;> rfl

theorem selector_setSelector (p : Processor) (value : BitVec 16) (segment other : DataSegment) :
    (p.setSelector value segment).selector other =
      if other = segment then value else p.selector other := by
  cases segment <;> cases other <;> rfl

/-- One segment register is loaded. -/
theorem GdtLoaded.movw (h : GdtLoaded p gdt) (hlevel : p.level = 0) (segment : DataSegment) :
    ∃ later, p.movw Gdt.kKernelDataSelector segment = some later ∧ GdtLoaded later gdt ∧
      Kept gdt p later ∧ ∀ other, later.selector other =
        if other = segment then Gdt.kKernelDataSelector else p.selector other := by
  set marked := p.markAccessed (recordAt gdt 8 2) Gdt.kernelData with hmarked
  set later := marked.setSelector Gdt.kKernelDataSelector segment with hlater
  have hmarkedKept : Kept gdt p marked :=
    ⟨rfl, rfl, rfl, rfl, rfl, rfl, fun _ ↦ markAccessed_of_not_within (by decide)⟩
  have hkept : Kept gdt marked later := setSelector_kept gdt marked _ segment
  have htable : GdtLoaded marked gdt := h.accessed (rfl : Gdt.gdt[2]? = some Gdt.kernelData)
  refine ⟨later, ?_, ?_, hmarkedKept.trans hkept, fun other ↦ ?_⟩
  · rw [Processor.movw, GdtLoaded.loadKernelData gdt h hlevel, Option.map_some]
  · apply htable.congr hkept.gdtr_eq
    intro target _
    rw [hlater, setSelector_memory]
  · rw [hlater, selector_setSelector]
    cases other <;> rfl

/-- One segment register after the other. -/
theorem GdtLoaded.movwAll (segments : List DataSegment) (h : GdtLoaded p gdt)
    (hlevel : p.level = 0) :
    ∃ later, segments.foldlM (fun p segment ↦ p.movw Gdt.kKernelDataSelector segment) p =
        some later ∧ GdtLoaded later gdt ∧ Kept gdt p later ∧ ∀ other, later.selector other =
          if other ∈ segments then Gdt.kKernelDataSelector else p.selector other := by
  induction segments generalizing p with
  | nil => exact ⟨p, rfl, h, Kept.refl gdt p, fun _ ↦ rfl⟩
  | cons segment segments ih =>
    obtain ⟨next, hnext, htable, hkept, hselectors⟩ := h.movw hlevel segment
    obtain ⟨later, hlater, hlast, hrest, hvalues⟩ := ih htable (hkept.level_eq.trans hlevel)
    refine ⟨later, ?_, hlast, hkept.trans hrest, fun other ↦ ?_⟩
    · rw [List.foldlM_cons, hnext]
      exact hlater
    · rw [hvalues, hselectors]
      grind

end Segments

/-- **`gdt::init`.** The table of the image is in place and every segment register refers to it;
besides the accessed bits only the two slots below the stack pointer are written. -/
theorem gdtInit_spec {p : Processor} {gdt : Word} (label : Word) (hlevel : p.level = 0)
    (htable : wordsAt p.memory gdt 5 = Gdt.gdt) (hstack : Disjoint gdt 40 (p.rsp - 16) 16) :
    ∃ later, gdtInit p gdt label = some later ∧ GdtLoaded later gdt ∧
      later.cs = Gdt.kKernelCodeSelector ∧
      (∀ segment, later.selector segment = Gdt.kKernelDataSelector) ∧
      later.rip = label ∧
      (∀ register, register ≠ .rax → later.registers register = p.registers register) ∧
      ∀ target, ¬ Within gdt 40 target → ¬ Within (p.rsp - 16) 16 target →
        later.memory target = p.memory target := by
  obtain ⟨hrip, hcs, hcsKept, hregisters, hmemory⟩ := farReturn_spec p.toMachine label
  set returned : Processor := { p with toMachine := (farReturn p.toMachine label).2.2,
                                       gdtr := gdtPointer gdt } with hreturned
  set code := returned.markAccessed (recordAt gdt 8 1) Gdt.kernelCode with hcode
  set word := (code.registers .rax &&& ~~~0xFFFF) ||| Gdt.kKernelDataSelector.setWidth 64
    with hword
  set under : Processor := { code with rip := label, cs := Gdt.kKernelCodeSelector } with hunder
  set ready : Processor := { under with toMachine := under.set .rax word } with hready
  have hselector : (farReturn p.toMachine label).2.1.setWidth 16 = Gdt.kKernelCodeSelector := by
    rw [hcs]
    rfl
  have hreturnedLevel : returned.level = 0 := by
    rw [← hlevel, Processor.level, Processor.level, ← hcsKept]
  have hreadyLevel : ready.level = 0 :=
    (by decide : Gdt.kKernelCodeSelector.extractLsb' 0 2 = 0)
  have hloaded : GdtLoaded returned gdt := by
    refine ⟨rfl, fun index descriptor hdescriptor ↦ Or.inl ?_⟩
    have hindex : index < 5 := (List.getElem?_eq_some_iff.mp hdescriptor).1
    have hword := load64_of_wordsAt htable hindex
    rw [hdescriptor, Option.some.injEq] at hword
    rw [hword]
    apply load64_congr
    intro target htarget
    exact hmemory target (hstack target (htarget.of_part (by omega) (by decide)))
  have hcodeLoaded : GdtLoaded code gdt :=
    hloaded.accessed (rfl : Gdt.gdt[1]? = some Gdt.kernelCode)
  have hreadyLoaded : GdtLoaded ready gdt := hcodeLoaded.congr rfl fun _ _ ↦ rfl
  obtain ⟨later, hlater, hlaterLoaded, hkept, hselectors⟩ :=
    hreadyLoaded.movwAll [.ds, .es, .fs, .gs, .ss] hreadyLevel
  refine ⟨later, ?_, hlaterLoaded, hkept.cs_eq, fun segment ↦ ?_, hkept.rip_eq,
    fun register hregister ↦ ?_, fun target htable hslots ↦ ?_⟩
  · have hload : returned.loadSegment Gdt.kKernelCodeSelector (longCode returned.level) =
        some code := hloaded.loadKernelCode hreturnedLevel
    unfold gdtInit
    simp only [hselector, hrip]
    rw [← hreturned, hload]
    exact hlater
  · rw [hselectors]
    cases segment <;> rfl
  · rw [hkept.registers_eq]
    exact (set_of_ne hregister under.toMachine word).trans (hregisters register hregister)
  · calc
      later.memory target = ready.memory target := hkept.memory_eq target htable
      _ = returned.memory target := markAccessed_of_not_within (by decide) htable
      _ = p.memory target := hmemory target hslots

end WaterBuffalo.Arch
