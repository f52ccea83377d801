import WaterBuffalo.Arch.Processor
import WaterBuffalo.Foundation.Bits

/-!
# The exception stubs

The code of `src/arch/x86_64/isr.S`.  Each exception has a stub that completes what the processor
pushed to an error code and a vector; the stubs share `isr_common`, which saves the general
registers, calls `isr_handler` with a pointer to the frame, and restores the registers from the
frame should the handler return.

The frame the handler sees is the interrupted context, whatever the exception and the stack
pointer, and a return resumes the context that the frame describes.
-/

namespace WaterBuffalo.Isr

open ByteMemory X86 Arch

/-! ## The code -/

/-- The vectors of the `ISR_ERROR` lines. -/
def isrErrorVectors : List ℕ :=
  [8, 10, 11, 12, 13, 14, 17, 21, 29, 30]

/-- The vectors of the `ISR_NO_ERROR` lines. -/
def isrNoErrorVectors : List ℕ :=
  [0, 1, 2, 3, 4, 5, 6, 7, 9, 15, 16, 18, 19, 20, 22, 23, 24, 25, 26, 27, 28, 31]

def isrError (vector : ℕ) : List Instruction :=
  [.pushImmediate (BitVec.ofNat 32 vector)]

def isrNoError (vector : ℕ) : List Instruction :=
  [.pushImmediate 0, .pushImmediate (BitVec.ofNat 32 vector)]

/-- The stub of a vector, up to its jump to `isr_common`. -/
def isrStub (vector : ℕ) : Option (List Instruction) :=
  if vector ∈ isrErrorVectors then some (isrError vector)
  else if vector ∈ isrNoErrorVectors then some (isrNoError vector)
  else none

def savedRegisters : List Register :=
  [.rax, .rbx, .rcx, .rdx, .rsi, .rdi, .rbp, .r8, .r9, .r10, .r11, .r12, .r13, .r14, .r15]

/-- `isr_common` up to its call. -/
def isrCommonEntry : List Instruction :=
  .cld :: savedRegisters.map .pushq ++ [.movq .rsp .rbx, .andq (-16) .rsp, .movq .rbx .rdi]

/-- `isr_common` from behind its call up to `iretq`. -/
def isrCommonExit : List Instruction :=
  .movq .rbx .rsp :: savedRegisters.reverse.map .popq ++ [.addq 16 .rsp]

/-- Where the linker put the code. -/
structure Text where
  /-- `isr_stub_table`. -/
  isrStubTable : ℕ → Word
  /-- The address behind the call in `isr_common`. -/
  behindCall : Word
  distinct : ∀ first < 32, ∀ second < 32, isrStubTable first = isrStubTable second →
    first = second

/-- The stub at an address. -/
def Text.codeAt (text : Text) (address : Word) : Option (List Instruction) :=
  ((List.range 32).find? fun vector ↦ text.isrStubTable vector == address).bind isrStub

/-- An exception up to the first instruction of `isr_handler`. -/
def raise (text : Text) (p : Processor) (vector : ℕ) (errorCode : Word) : Option Processor := do
  let p ← p.deliver vector errorCode
  let stub ← text.codeAt p.rip
  let m := run p.toMachine (stub ++ isrCommonEntry)
  return { p with toMachine := m.push text.behindCall }

/-- `iretq` within the level. -/
def iretq (p : Processor) : Option Processor :=
  match wordsAt p.memory p.rsp 5 with
  | [rip, cs, rflags, rsp, ss] => do
    let p ← p.loadSegment (cs.setWidth 16) (longCode p.level)
    let p ← p.loadSegment (ss.setWidth 16) (writableData p.level)
    let m := p.set .rsp rsp
    let m := { m with rip := rip, rflags := rflags, cs := cs.setWidth 16, ss := ss.setWidth 16 }
    return { p with toMachine := m }
  | _ => none

/-- The rest of `isr_common`, once `isr_handler` has returned. -/
def resume (p : Processor) : Option Processor :=
  iretq { p with toMachine := run p.toMachine isrCommonExit }

/-! ## The frame -/

/-- `InterruptFrame`. -/
structure InterruptFrame where
  r15 : Word
  r14 : Word
  r13 : Word
  r12 : Word
  r11 : Word
  r10 : Word
  r9 : Word
  r8 : Word
  rbp : Word
  rdi : Word
  rsi : Word
  rdx : Word
  rcx : Word
  rbx : Word
  rax : Word
  vector : Word
  errorCode : Word
  rip : Word
  cs : Word
  rflags : Word
  rsp : Word
  ss : Word
  deriving DecidableEq, Repr

namespace InterruptFrame

/-- The record in memory. -/
def words (frame : InterruptFrame) : List Word :=
  [frame.r15, frame.r14, frame.r13, frame.r12, frame.r11, frame.r10, frame.r9, frame.r8, frame.rbp,
    frame.rdi, frame.rsi, frame.rdx, frame.rcx, frame.rbx, frame.rax, frame.vector,
    frame.errorCode, frame.rip, frame.cs, frame.rflags, frame.rsp, frame.ss]

theorem length_words (frame : InterruptFrame) : frame.words.length = 22 :=
  rfl

/-- The general registers of the frame. -/
def register (frame : InterruptFrame) : Register → Word
  | .rax => frame.rax
  | .rbx => frame.rbx
  | .rcx => frame.rcx
  | .rdx => frame.rdx
  | .rsi => frame.rsi
  | .rdi => frame.rdi
  | .rbp => frame.rbp
  | .rsp => frame.rsp
  | .r8 => frame.r8
  | .r9 => frame.r9
  | .r10 => frame.r10
  | .r11 => frame.r11
  | .r12 => frame.r12
  | .r13 => frame.r13
  | .r14 => frame.r14
  | .r15 => frame.r15

/-- The frame a pointer refers to. -/
def ofMemory (memory : Memory) (pointer : Word) : InterruptFrame :=
  let field (index : ℕ) : Word := load64 memory (pointer + BitVec.ofNat 64 (8 * index))
  { r15 := field 0
    r14 := field 1
    r13 := field 2
    r12 := field 3
    r11 := field 4
    r10 := field 5
    r9 := field 6
    r8 := field 7
    rbp := field 8
    rdi := field 9
    rsi := field 10
    rdx := field 11
    rcx := field 12
    rbx := field 13
    rax := field 14
    vector := field 15
    errorCode := field 16
    rip := field 17
    cs := field 18
    rflags := field 19
    rsp := field 20
    ss := field 21 }

/-- The context an exception interrupts. -/
def ofContext (p : Processor) (vector : ℕ) (errorCode : Word) : InterruptFrame where
  r15 := p.registers .r15
  r14 := p.registers .r14
  r13 := p.registers .r13
  r12 := p.registers .r12
  r11 := p.registers .r11
  r10 := p.registers .r10
  r9 := p.registers .r9
  r8 := p.registers .r8
  rbp := p.registers .rbp
  rdi := p.registers .rdi
  rsi := p.registers .rsi
  rdx := p.registers .rdx
  rcx := p.registers .rcx
  rbx := p.registers .rbx
  rax := p.registers .rax
  vector := BitVec.ofNat 64 vector
  errorCode := if Processor.pushesErrorCode vector then errorCode else 0
  rip := p.rip
  cs := p.cs.setWidth 64
  rflags := p.rflags
  rsp := p.rsp
  ss := p.ss.setWidth 64

theorem register_ofContext (p : Processor) (vector : ℕ) (errorCode : Word) :
    (ofContext p vector errorCode).register = p.registers := by
  funext register
  cases register <;> rfl

theorem words_ofMemory (memory : Memory) (pointer : Word) :
    (ofMemory memory pointer).words = wordsAt memory pointer 22 := by
  apply List.ext_getElem?
  intro index
  by_cases hindex : index < 22
  · rw [getElem?_wordsAt hindex]
    interval_cases index <;> rfl
  · rw [List.getElem?_eq_none, List.getElem?_eq_none]
    · rw [length_wordsAt]
      exact Nat.le_of_not_lt hindex
    · exact Nat.le_of_not_lt hindex

theorem words_injective : Function.Injective words := by
  intro first second h
  cases first
  cases second
  simp only [words, List.cons.injEq, and_true] at h
  rw [mk.injEq]
  exact h

/-- A frame is known by its words. -/
theorem ofMemory_eq {memory : Memory} {pointer : Word} {frame : InterruptFrame}
    (h : wordsAt memory pointer 22 = frame.words) : ofMemory memory pointer = frame :=
  words_injective ((words_ofMemory memory pointer).trans h)

end InterruptFrame

/-! ## Entering the handler -/

section Entry

variable {text : Text} {p : Processor} {gdt idt : Word} {vector : ℕ}

/-- Each exception has one stub, and it pushes an error code just where the processor does not. -/
theorem isrStub_eq (hvector : vector < 32) :
    isrStub vector = some (if Processor.pushesErrorCode vector then isrError vector
      else isrNoError vector) := by
  interval_cases vector <;> rfl

theorem codeAt_isrStubTable (text : Text) (hvector : vector < 32) :
    text.codeAt (text.isrStubTable vector) = isrStub vector := by
  have hfind : (List.range 32).find?
      (fun other ↦ text.isrStubTable other == text.isrStubTable vector) = some vector := by
    rw [List.find?_eq_some_iff_getElem]
    refine ⟨beq_self_eq_true _, vector, ?_, ?_, ?_⟩
    · rwa [List.length_range]
    · rw [List.getElem_range]
    · intro other hother
      rw [List.getElem_range, Bool.not_eq_true', beq_eq_false_iff_ne]
      intro hsame
      have hequal := text.distinct other (by omega) vector hvector hsame
      omega
  rw [Text.codeAt, hfind, Option.bind_some]

/-- What the stub of a vector pushes. -/
def stubWords (vector : ℕ) : List Word :=
  (if Processor.pushesErrorCode vector then [] else [0]) ++ [BitVec.ofNat 64 vector]

theorem run_isrStub (m : Machine) (hvector : vector < 32) :
    ∃ stub, isrStub vector = some stub ∧ run m stub = m.pushAll (stubWords vector) := by
  have hsign : (BitVec.ofNat 32 vector).signExtend 64 = BitVec.ofNat 64 vector := by
    interval_cases vector <;> rfl
  refine ⟨_, isrStub_eq hvector, ?_⟩
  unfold stubWords
  cases Processor.pushesErrorCode vector with
  | false =>
    calc
      run m (isrNoError vector) = (m.push 0).push ((BitVec.ofNat 32 vector).signExtend 64) := rfl
      _ = (m.push 0).push (BitVec.ofNat 64 vector) := by rw [hsign]
  | true =>
    calc
      run m (isrError vector) = m.push ((BitVec.ofNat 32 vector).signExtend 64) := rfl
      _ = m.push (BitVec.ofNat 64 vector) := by rw [hsign]

/-- The pointer to the frame goes to `rbx` and `rdi`. -/
theorem run_argument (m : Machine) :
    run m [.movq .rsp .rbx, .andq (-16) .rsp, .movq .rbx .rdi] =
      ((m.set .rbx m.rsp).set .rsp (m.rsp &&& ~~~0xF)).set .rdi m.rsp := by
  have hmask : (-16 : BitVec 32).signExtend 64 = ~~~0xF := by decide
  have hrsp : (m.set .rbx m.rsp).registers .rsp = m.rsp := set_of_ne (by decide) m m.rsp
  have hrbx : ((m.set .rbx m.rsp).set .rsp (m.rsp &&& ~~~0xF)).registers .rbx = m.rsp := by
    rw [set_of_ne (by decide), set_self]
  calc
    run m [.movq .rsp .rbx, .andq (-16) .rsp, .movq .rbx .rdi] =
        Instruction.run (Instruction.run (m.set .rbx m.rsp) (.andq (-16) .rsp))
          (.movq .rbx .rdi) := rfl
    _ = Instruction.run ((m.set .rbx m.rsp).set .rsp (m.rsp &&& ~~~0xF)) (.movq .rbx .rdi) := by
      simp only [Instruction.run, hmask, hrsp]
    _ = ((m.set .rbx m.rsp).set .rsp (m.rsp &&& ~~~0xF)).set .rdi m.rsp := by
      simp only [Instruction.run, hrbx]

/-- `isr_common` up to its call, in terms of what it pushes. -/
theorem run_isrCommonEntry (m : Machine) :
    let pushed := m.pushAll (savedRegisters.map m.registers)
    let called := run m isrCommonEntry
    called.memory = pushed.memory ∧ called.registers .rdi = pushed.rsp ∧
      called.registers .rbx = pushed.rsp ∧ called.rsp = pushed.rsp &&& ~~~0xF ∧
      called.rflags = m.rflags &&& ~~~directionFlag ∧ called.cs = m.cs ∧ called.ss = m.ss := by
  intro pushed called
  set cleared : Machine := { m with rflags := m.rflags &&& ~~~directionFlag } with hcleared
  set saved := cleared.pushAll (savedRegisters.map m.registers) with hsaved
  have hrun : called =
      ((saved.set .rbx saved.rsp).set .rsp (saved.rsp &&& ~~~0xF)).set .rdi saved.rsp := by
    have hpushes : run cleared (savedRegisters.map .pushq) = saved :=
      run_pushq cleared (by decide)
    have hcld : Instruction.run m .cld = cleared := rfl
    rw [← run_argument saved, ← hpushes, ← hcld]
    simp only [called, isrCommonEntry, List.cons_append, run_cons, run_append]
  have hsame : saved.registers = pushed.registers ∧ saved.memory = pushed.memory :=
    pushAll_congr _ rfl rfl
  have hrsp : saved.rsp = pushed.rsp := congrFun hsame.1 .rsp
  obtain ⟨-, hrflags, hcs, hss, -⟩ := pushAll_context cleared (savedRegisters.map m.registers)
  rw [hrun, ← hrsp]
  exact ⟨hsame.2, rfl, rfl, rfl, hrflags, hcs, hss⟩

/-- All that is pushed is the interrupted context. -/
theorem pushed_eq (p : Processor) (vector : ℕ) (errorCode : Word) :
    p.savedWords vector errorCode ++ stubWords vector ++ savedRegisters.map p.registers =
      (InterruptFrame.ofContext p vector errorCode).words.reverse := by
  unfold Processor.savedWords stubWords InterruptFrame.ofContext
  cases Processor.pushesErrorCode vector <;> rfl

/-- The stack after the processor aligned it is still aligned below a frame. -/
theorem frame_aligned (word : Word) :
    (word &&& ~~~0xF) - 176 &&& ~~~0xF = (word &&& ~~~0xF) - 176 := by
  have hmask : (0xF : Word).toNat = 2 ^ 4 - 1 := rfl
  have hword := Bits.toNat_and_notLowMask word 0xF 4 hmask
  apply BitVec.eq_of_toNat_eq
  rw [Bits.toNat_and_notLowMask _ 0xF 4 hmask, BitVec.toNat_sub, hword]
  have hvalue : (176 : Word).toNat = 176 := rfl
  have hbound := word.isLt
  omega

/-- Where the frame of an exception comes to lie. -/
def framePointer (p : Processor) : Word :=
  (p.rsp &&& ~~~0xF) - 176

/-- The processor at the first instruction of `isr_handler`. -/
structure Entered (text : Text) (p : Processor) (gdt : Word) (vector : ℕ) (errorCode : Word)
    (called : Processor) : Prop where
  rdi_eq : called.registers .rdi = framePointer p
  frame_eq : InterruptFrame.ofMemory called.memory (framePointer p) =
    InterruptFrame.ofContext p vector errorCode
  /-- The calling convention: the stack was aligned before the call. -/
  aligned : framePointer p &&& 0xF = 0
  rsp_eq : called.rsp = framePointer p - 8
  returnAddress_eq : load64 called.memory (framePointer p - 8) = text.behindCall
  rbx_eq : called.registers .rbx = framePointer p
  rflags_eq : called.rflags = p.rflags &&& ~~~Processor.gateFlags &&& ~~~directionFlag
  cs_eq : called.cs = Gdt.kKernelCodeSelector
  gdtr_eq : called.gdtr = p.gdtr
  idtr_eq : called.idtr = p.idtr
  /-- Outside the stack, at most the descriptor of the code segment is marked as accessed. -/
  memory_eq : ∀ target, ¬ Within (framePointer p - 8) 184 target →
    called.memory target = (p.markAccessed (recordAt gdt 8 1) Gdt.kernelCode).memory target

/-- From the stub on, everything is pushed below what the processor saved. -/
theorem pushed_below (p : Processor) (gate : Idt.Gate) (vector : ℕ) (errorCode : Word) :
    let entered := (p.enterGate gate vector errorCode).toMachine.pushAll (stubWords vector)
    let saved := entered.pushAll (savedRegisters.map entered.registers)
    let whole := (p.set .rsp (p.rsp &&& ~~~0xF)).pushAll
      (InterruptFrame.ofContext p vector errorCode).words.reverse
    saved.memory = whole.memory ∧ saved.rsp = framePointer p ∧ whole.rsp = framePointer p := by
  intro entered saved whole
  set aligned := p.set .rsp (p.rsp &&& ~~~0xF) with haligned
  have hregisters : savedRegisters.map entered.registers = savedRegisters.map p.registers := by
    apply List.map_congr_left
    intro register hregister
    have hne : register ≠ .rsp := by
      rintro rfl
      exact absurd hregister (by decide)
    calc
      entered.registers register = (p.enterGate gate vector errorCode).registers register :=
        (pushAll_context _ (stubWords vector)).2.2.2.2 register hne
      _ = aligned.registers register :=
        (pushAll_context aligned (p.savedWords vector errorCode)).2.2.2.2 register hne
      _ = p.registers register := set_of_ne hne p.toMachine _
  have hsame : saved.registers = whole.registers ∧ saved.memory = whole.memory := by
    have hwhole : whole = (aligned.pushAll (p.savedWords vector errorCode)).pushAll
        (stubWords vector ++ savedRegisters.map p.registers) := by
      rw [← pushAll_append, ← List.append_assoc, pushed_eq]
    have hsaved : saved = (p.enterGate gate vector errorCode).toMachine.pushAll
        (stubWords vector ++ savedRegisters.map p.registers) := by
      rw [pushAll_append, ← hregisters]
    rw [hwhole, hsaved]
    exact pushAll_congr _ (Processor.enterGate_registers p gate vector errorCode)
      (Processor.enterGate_memory p gate vector errorCode)
  have hpointer : whole.rsp = framePointer p := by
    calc
      whole.rsp = aligned.rsp - BitVec.ofNat 64 (8 * 22) := pushAll_rsp aligned _
      _ = framePointer p := congrArg (· - (176 : Word)) (set_self p.toMachine .rsp _)
  exact ⟨hsame.2, (congrFun hsame.1 .rsp).trans hpointer, hpointer⟩

/-- The last push is the return address. -/
theorem framed_memory (p : Processor) (vector : ℕ) (errorCode returnAddress : Word) :
    let whole := (p.set .rsp (p.rsp &&& ~~~0xF)).pushAll
      (InterruptFrame.ofContext p vector errorCode).words.reverse
    let memory := store64 whole.memory (framePointer p - 8) returnAddress
    whole.rsp = framePointer p →
      InterruptFrame.ofMemory memory (framePointer p) =
          InterruptFrame.ofContext p vector errorCode ∧
        load64 memory (framePointer p - 8) = returnAddress ∧
        ∀ target, ¬ Within (framePointer p - 8) 184 target →
          memory target = p.memory target := by
  intro whole memory hrsp
  have hlength : 8 * (InterruptFrame.ofContext p vector errorCode).words.reverse.length ≤
      2 ^ 64 := by
    rw [List.length_reverse, InterruptFrame.length_words]
    decide
  have hwords : wordsAt whole.memory (framePointer p) 22 =
      (InterruptFrame.ofContext p vector errorCode).words := by
    rw [← hrsp]
    exact (wordsAt_pushAll _ _ hlength).trans (List.reverse_reverse _)
  refine ⟨InterruptFrame.ofMemory_eq ?_, load64_store64_self _ _ _, fun target htarget ↦ ?_⟩
  · rw [← hwords]
    apply wordsAt_congr (by decide)
    intro target htarget
    exact store64_of_not_within (not_within_slot (by decide) htarget)
  · have hwhole : memory = (whole.push returnAddress).memory := by
      rw [push_memory, hrsp]
    rw [hwhole, ← pushAll_concat]
    apply pushAll_memory_of_not_within
    · simp [InterruptFrame.words]
    · rw [pushAll_concat, push_rsp, hrsp]
      simpa [InterruptFrame.words] using htarget

/-- An exception, in terms of the code that runs. -/
theorem raise_eq (hgdt : GdtLoaded p gdt) (hidt : IdtLoaded p idt text.isrStubTable)
    (hlevel : p.level = 0) (hvector : vector < 32) (errorCode : Word) :
    ∃ gate entered before,
      gate.selector = Gdt.kKernelCodeSelector ∧
      entered = (p.markAccessed (recordAt gdt 8 1) Gdt.kernelCode).enterGate gate vector
        errorCode ∧
      before = entered.toMachine.pushAll (stubWords vector) ∧
      raise text p vector errorCode = some
        { entered with toMachine := (run before isrCommonEntry).push text.behindCall } := by
  obtain ⟨gate, hgate⟩ : ∃ gate : Idt.Gate, gate =
    ⟨text.isrStubTable vector, Gdt.kKernelCodeSelector, 0, 0xE, 0, true⟩ := ⟨_, rfl⟩
  obtain ⟨entered, hentered⟩ : ∃ entered, entered =
    (p.markAccessed (recordAt gdt 8 1) Gdt.kernelCode).enterGate gate vector errorCode := ⟨_, rfl⟩
  have hdelivered : p.deliver vector errorCode = some entered := by
    rw [deliver_exception hgdt hidt hlevel hvector, hentered, hgate]
  have hrip : entered.rip = text.isrStubTable vector := by
    rw [hentered, hgate, Processor.enterGate]
  obtain ⟨stub, hstub, hpushes⟩ := run_isrStub entered.toMachine hvector
  have hcode : text.codeAt entered.rip = some stub := by
    rw [hrip, codeAt_isrStubTable text hvector, hstub]
  refine ⟨gate, entered, _, congrArg Idt.Gate.selector hgate, hentered, rfl, ?_⟩
  simp only [raise, hdelivered, Option.bind_eq_bind, Option.bind_some, hcode, run_append, hpushes]
  rfl

/-- **Entering the handler.** Every exception reaches `isr_handler` with a pointer to the
interrupted context. -/
theorem raise_entered (hgdt : GdtLoaded p gdt) (hidt : IdtLoaded p idt text.isrStubTable)
    (hlevel : p.level = 0) (hvector : vector < 32) (errorCode : Word) :
    ∃ called, raise text p vector errorCode = some called ∧
      Entered text p gdt vector errorCode called := by
  obtain ⟨gate, entered, before, hselector, hentered, hbefore, hraise⟩ :=
    raise_eq hgdt hidt hlevel hvector errorCode
  refine ⟨_, hraise, ?_⟩
  obtain ⟨marked, hmarked⟩ : ∃ marked, marked =
    p.markAccessed (recordAt gdt 8 1) Gdt.kernelCode := ⟨_, rfl⟩
  have hcontext : InterruptFrame.ofContext marked vector errorCode =
      InterruptFrame.ofContext p vector errorCode := by
    rw [hmarked]
    rfl
  have hframePointer : framePointer marked = framePointer p := by
    rw [hmarked]
    rfl
  obtain ⟨hmemory, hrdi, hrbx, hrsp, hrflags, hcs, -⟩ := run_isrCommonEntry before
  obtain ⟨hpushed, hpointer, hwhole⟩ := pushed_below marked gate vector errorCode
  obtain ⟨hframe, hreturn, hothers⟩ :=
    framed_memory marked vector errorCode text.behindCall hwhole
  obtain ⟨-, hbeforeFlags, hbeforeSegment, -, -⟩ :=
    pushAll_context entered.toMachine (stubWords vector)
  rw [hmarked, ← hentered, ← hbefore, ← hmarked] at hpushed hpointer
  rw [← hbefore] at hbeforeFlags hbeforeSegment
  rw [← hmemory.trans hpushed, hframePointer] at hframe hreturn hothers
  rw [hcontext] at hframe
  rw [hpointer, hframePointer] at hrdi hrbx hrsp
  rw [hbeforeFlags] at hrflags
  rw [hbeforeSegment] at hcs
  obtain ⟨-, hsegment, hflags, hgdtr, hidtr⟩ :=
    Processor.enterGate_context marked gate vector errorCode
  rw [hmarked, ← hentered] at hsegment hflags hgdtr hidtr
  have hsp : (run before isrCommonEntry).rsp = framePointer p := by
    rw [hrsp, framePointer, frame_aligned]
  have halone : framePointer p &&& 0xF = 0 := by
    have hequal := (Bits.and_not_eq_zero_iff (framePointer p) (~~~0xF)).mpr (hrsp.symm.trans hsp)
    rwa [BitVec.not_not] at hequal
  generalize run before isrCommonEntry = common at *
  constructor
  case rdi_eq => exact (push_register (by decide) common _).trans hrdi
  case frame_eq =>
    simp only [push_memory, hsp]
    exact hframe
  case aligned => exact halone
  case rsp_eq => exact (push_rsp common _).trans (congrArg (· - 8) hsp)
  case returnAddress_eq =>
    simp only [push_memory, hsp]
    exact hreturn
  case rbx_eq => exact (push_register (by decide) common _).trans hrbx
  case rflags_eq => exact hrflags.trans (congrArg (· &&& ~~~directionFlag) hflags)
  case cs_eq =>
    rw [← hselector, ← hsegment]
    exact hcs
  case gdtr_eq => exact hgdtr
  case idtr_eq => exact hidtr
  case memory_eq =>
    intro target hstack
    simp only [push_memory, hsp]
    rw [hothers target hstack, hmarked]

end Entry

/-! ## Returning from the handler -/

section Return

variable {p later : Processor} {gdt pointer : Word}

/-- The registers that the frame describes are all the general registers. -/
theorem register_eq_of_saved {frame : InterruptFrame} {registers : Register → Word}
    (hsaved : savedRegisters.reverse.map registers = frame.words.take 15)
    (hrsp : registers .rsp = frame.rsp) : registers = frame.register := by
  simp only [savedRegisters, InterruptFrame.words, List.reverse_cons, List.reverse_nil,
    List.nil_append, List.cons_append, List.map_cons, List.map_nil, List.take_succ_cons,
    List.take_zero, List.cons.injEq, and_true] at hsaved
  funext register
  cases register <;> simp only [InterruptFrame.register, hsaved, hrsp]

/-- What the rest of `isr_common` does before `iretq`. -/
theorem run_isrCommonExit (m : Machine) :
    let frame := InterruptFrame.ofMemory m.memory (m.registers .rbx)
    let restored := run m isrCommonExit
    savedRegisters.reverse.map restored.registers = frame.words.take 15 ∧
      restored.rsp = m.registers .rbx + 136 ∧ restored.memory = m.memory ∧
      restored.cs = m.cs := by
  intro frame restored
  obtain ⟨start, hstart⟩ : ∃ start, start = m.set .rsp (m.registers .rbx) := ⟨_, rfl⟩
  have hrsp : start.rsp = m.registers .rbx := by
    rw [hstart]
    exact set_self m .rsp _
  have hmemory : start.memory = m.memory := by rw [hstart]; rfl
  have hsegment : start.cs = m.cs := by rw [hstart]; rfl
  obtain ⟨hvalues, hpointer, -, hkept, -, -, hcs, -⟩ :=
    run_popq start (by decide : Register.rsp ∉ savedRegisters.reverse) (by decide)
  have hrestored : restored = (run start (savedRegisters.reverse.map .popq)).set .rsp
      ((run start (savedRegisters.reverse.map .popq)).rsp + 16) := by
    rw [hstart]
    simp only [restored, isrCommonExit, List.cons_append, run_cons, run_append]
    rfl
  generalize run start (savedRegisters.reverse.map .popq) = popped at *
  rw [hrestored]
  refine ⟨?_, ?_, hkept.trans hmemory, hcs.trans hsegment⟩
  · calc
      savedRegisters.reverse.map (popped.set .rsp (popped.rsp + 16)).registers =
          savedRegisters.reverse.map popped.registers := by
        apply List.map_congr_left
        intro register hregister
        apply set_of_ne
        rintro rfl
        exact absurd hregister (by decide)
      _ = wordsAt m.memory (m.registers .rbx) 15 := by
        rw [hvalues, hmemory, hrsp]
        rfl
      _ = frame.words.take 15 := by
        rw [InterruptFrame.words_ofMemory]
        exact wordsAt_take m.memory (m.registers .rbx) 15 7
  · calc
      (popped.set .rsp (popped.rsp + 16)).rsp = popped.rsp + 16 := set_self popped .rsp _
      _ = m.registers .rbx + 120 + 16 := by
        rw [hpointer, hrsp]
        rfl
      _ = m.registers .rbx + 136 := by ring

/-- `iretq` with the kernel's segments on the stack. -/
theorem iretq_spec {rip rflags rsp : Word} (hgdt : GdtLoaded p gdt) (hlevel : p.level = 0)
    (hwords : wordsAt p.memory p.rsp 5 =
      [rip, Gdt.kKernelCodeSelector.setWidth 64, rflags, rsp,
        Gdt.kKernelDataSelector.setWidth 64]) :
    ∃ later, iretq p = some later ∧ later.rip = rip ∧ later.rflags = rflags ∧ later.rsp = rsp ∧
      (∀ register, register ≠ .rsp → later.registers register = p.registers register) ∧
      later.cs = Gdt.kKernelCodeSelector ∧ later.ss = Gdt.kKernelDataSelector ∧
      GdtLoaded later gdt ∧ later.idtr = p.idtr ∧
      ∀ target, ¬ Within gdt 40 target → later.memory target = p.memory target := by
  obtain ⟨code, hcode⟩ : ∃ code, code = p.markAccessed (recordAt gdt 8 1) Gdt.kernelCode :=
    ⟨_, rfl⟩
  obtain ⟨data, hdata⟩ : ∃ data, data = code.markAccessed (recordAt gdt 8 2) Gdt.kernelData :=
    ⟨_, rfl⟩
  have hcodeGdt : GdtLoaded code gdt := by
    rw [hcode]
    exact hgdt.accessed (rfl : Gdt.gdt[1]? = some Gdt.kernelCode)
  have hdataGdt : GdtLoaded data gdt := by
    rw [hdata]
    exact hcodeGdt.accessed (rfl : Gdt.gdt[2]? = some Gdt.kernelData)
  have hcodeLevel : code.level = 0 := by
    rw [hcode]
    exact hlevel
  have hmemory (target : Word) (htarget : ¬ Within gdt 40 target) :
      data.memory target = p.memory target := by
    rw [hdata, markAccessed_of_not_within (by decide) htarget, hcode,
      markAccessed_of_not_within (by decide) htarget]
  have hselector (selector : BitVec 16) : (selector.setWidth 64).setWidth 16 = selector := by
    rw [BitVec.setWidth_setWidth_of_le _ (by decide), BitVec.setWidth_eq]
  have hreturn : iretq p = some { data with
      toMachine := { data.set .rsp rsp with
        rip := rip
        rflags := rflags
        cs := Gdt.kKernelCodeSelector
        ss := Gdt.kKernelDataSelector } } := by
    rw [iretq, hwords]
    simp only [hselector, hgdt.loadKernelCode hlevel, ← hcode, Option.bind_eq_bind,
      Option.bind_some, GdtLoaded.loadKernelData gdt hcodeGdt hcodeLevel, ← hdata]
    rfl
  have hkept : data.registers = p.registers ∧ data.idtr = p.idtr := by
    rw [hdata, hcode]
    exact ⟨rfl, rfl⟩
  refine ⟨_, hreturn, rfl, rfl, set_self data.toMachine .rsp rsp, ?_, rfl, rfl,
    hdataGdt.congr rfl fun _ _ ↦ rfl, hkept.2, hmemory⟩
  intro register hregister
  rw [← hkept.1]
  exact set_of_ne hregister data.toMachine rsp

/-- **Returning from the handler.** A frame with the kernel's segments is resumed: every register
gets the value the frame has for it. -/
theorem resume_spec (hgdt : GdtLoaded p gdt) (hlevel : p.level = 0) {frame : InterruptFrame}
    (hframe : InterruptFrame.ofMemory p.memory (p.registers .rbx) = frame)
    (hcs : frame.cs = Gdt.kKernelCodeSelector.setWidth 64)
    (hss : frame.ss = Gdt.kKernelDataSelector.setWidth 64) :
    ∃ later, resume p = some later ∧ later.registers = frame.register ∧ later.rip = frame.rip ∧
      later.rflags = frame.rflags ∧ later.cs = Gdt.kKernelCodeSelector ∧
      later.ss = Gdt.kKernelDataSelector ∧ GdtLoaded later gdt ∧ later.idtr = p.idtr ∧
      ∀ target, ¬ Within gdt 40 target → later.memory target = p.memory target := by
  obtain ⟨hregisters, hrsp, hmemory, hsegment⟩ := run_isrCommonExit p.toMachine
  rw [hframe] at hregisters
  obtain ⟨restored, hrestored⟩ : ∃ restored : Processor, restored =
    { p with toMachine := run p.toMachine isrCommonExit } := ⟨_, rfl⟩
  have hrestoredLevel : restored.level = 0 := by
    rw [← hlevel, Processor.level, Processor.level, hrestored, hsegment]
  have hrestoredGdt : GdtLoaded restored gdt := by
    apply hgdt.congr
    · rw [hrestored]
    · intro target _
      rw [hrestored, hmemory]
  have hwords : wordsAt restored.memory restored.rsp 5 = [frame.rip,
      Gdt.kKernelCodeSelector.setWidth 64, frame.rflags, frame.rsp,
      Gdt.kKernelDataSelector.setWidth 64] := by
    calc
      wordsAt restored.memory restored.rsp 5 =
          wordsAt p.memory (p.registers .rbx + 136) 5 := by
        rw [hrestored, ← hmemory, ← hrsp]
      _ = (wordsAt p.memory (p.registers .rbx) 22).drop 17 :=
        wordsAt_drop p.memory (p.registers .rbx) 17 5
      _ = frame.words.drop 17 := by rw [← InterruptFrame.words_ofMemory, hframe]
      _ = _ := by
        rw [← hcs, ← hss]
        rfl
  obtain ⟨later, hlater, hrip, hrflags, hpointer, hkept, hlaterCs, hlaterSs, hlaterGdt, hidtr,
    hothers⟩ := iretq_spec hrestoredGdt hrestoredLevel hwords
  rw [hrestored] at hlater hkept hidtr hothers
  refine ⟨later, hlater, register_eq_of_saved ?_ hpointer, hrip, hrflags, hlaterCs, hlaterSs,
    hlaterGdt, hidtr, fun target htarget ↦ ?_⟩
  · rw [← hregisters]
    apply List.map_congr_left
    intro register hregister
    apply hkept
    rintro rfl
    exact absurd hregister (by decide)
  · exact (hothers target htarget).trans (congrFun hmemory target)

end Return

end WaterBuffalo.Isr
