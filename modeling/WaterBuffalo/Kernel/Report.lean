import WaterBuffalo.Arch.Exceptions
import WaterBuffalo.Kernel.Output
import WaterBuffalo.Lib.Reading

/-!
# The exception report

`isr_handler` of `src/arch/x86_64/interrupts.cpp` prints the frame it is given and halts.  The
reference is a list of lines.  What arrives at the other end of the serial line are exactly these
lines, and they determine every field of the frame.
-/

namespace WaterBuffalo.Kernel

open Print Serial Isr

/-! ## The handler -/

def exceptionName (vector : Word) : List Byte :=
  match vector.toNat with
  | 0 => literal "#DE Divide Error"
  | 1 => literal "#DB Debug"
  | 2 => literal "NMI"
  | 3 => literal "#BP Breakpoint"
  | 4 => literal "#OF Overflow"
  | 5 => literal "#BR Bound Range"
  | 6 => literal "#UD Invalid Opcode"
  | 7 => literal "#NM Device Not Available"
  | 8 => literal "#DF Double Fault"
  | 9 => literal "Reserved"
  | 10 => literal "#TS Invalid TSS"
  | 11 => literal "#NP Segment Not Present"
  | 12 => literal "#SS Stack-Segment Fault"
  | 13 => literal "#GP General Protection"
  | 14 => literal "#PF Page Fault"
  | 15 => literal "Reserved"
  | 16 => literal "#MF x87 Floating-Point"
  | 17 => literal "#AC Alignment Check"
  | 18 => literal "#MC Machine Check"
  | 19 => literal "#XM SIMD Floating-Point"
  | 20 => literal "Reserved"
  | 21 => literal "#CP Control Protection"
  | 22 => literal "Reserved"
  | 23 => literal "Reserved"
  | 24 => literal "Reserved"
  | 25 => literal "Reserved"
  | 26 => literal "Reserved"
  | 27 => literal "Reserved"
  | 28 => literal "Reserved"
  | 29 => literal "#VC VMM Communication"
  | 30 => literal "#SX Security"
  | 31 => literal "Reserved"
  | _ => literal "Unknown"

/-- Up to the error code. -/
def headingOutputs (frame : InterruptFrame) : List Output :=
  [.write (literal "\n\n*** EXCEPTION ***\n"),
    .write (literal "Vector: "),
    .kprintf (literal "%lu\n") [frame.vector],
    .write (literal "Exception: "),
    .write (exceptionName frame.vector),
    .write (literal "\n"),
    .kprintf (literal "Error code: 0x%lx\n") [frame.errorCode]]

/-- What only a page fault prints. -/
def pageFaultOutputs (errorCode : Word) : List Output :=
  [.kprintf (literal "  Present: %u\n") [(errorCode >>> 0) &&& 1],
    .kprintf (literal "  Write: %u\n") [(errorCode >>> 1) &&& 1],
    .kprintf (literal "  User: %u\n") [(errorCode >>> 2) &&& 1],
    .kprintf (literal "  Reserved-bit violation: %u\n") [(errorCode >>> 3) &&& 1],
    .kprintf (literal "  Instruction fetch: %u\n") [(errorCode >>> 4) &&& 1]]

def registerOutputs (frame : InterruptFrame) (cr2 : Word) : List Output :=
  [.kprintf (literal "CR2:    %p\n") [cr2],
    .kprintf (literal "RIP:    %p\n") [frame.rip],
    .kprintf (literal "CS:     0x%lx\n") [frame.cs],
    .kprintf (literal "RFLAGS: 0x%lx\n") [frame.rflags],
    .kprintf (literal "RSP:    %p\n") [frame.rsp],
    .kprintf (literal "SS:     0x%lx\n") [frame.ss],
    .kprintf (literal "RAX: %p  RBX: %p  RCX: %p\n") [frame.rax, frame.rbx, frame.rcx],
    .kprintf (literal "RDX: %p  RSI: %p  RDI: %p\n") [frame.rdx, frame.rsi, frame.rdi],
    .kprintf (literal "RBP: %p  R8:  %p  R9:  %p\n") [frame.rbp, frame.r8, frame.r9],
    .kprintf (literal "R10: %p  R11: %p  R12: %p\n") [frame.r10, frame.r11, frame.r12],
    .kprintf (literal "R13: %p  R14: %p  R15: %p\n") [frame.r13, frame.r14, frame.r15]]

/-- The calls of `isr_handler` before it halts; `cr2Register` is what reading `cr2` gives. -/
def isrHandler (frame : InterruptFrame) (cr2Register : Word) : List Output :=
  let cr2 := if frame.vector = 14 then cr2Register else 0
  headingOutputs frame ++
    (if frame.vector = 14 then pageFaultOutputs frame.errorCode else []) ++
    registerOutputs frame cr2 ++
    [.write (literal "\nSystem halted.\n")]

/-! ## The reference -/

/-- A number in full: `0x` and sixteen digits. -/
def address (value : Word) : List Byte :=
  [ascii '0', ascii 'x'] ++ paddedHex value.toNat 16

/-- A number as short as it goes. -/
def hexadecimal (value : Word) : List Byte :=
  [ascii '0', ascii 'x'] ++ numeral 16 value.toNat

/-- One bit of the error code. -/
def errorBit (errorCode : Word) (index : ℕ) : List Byte :=
  numeral 10 (if errorCode.getLsbD index then 1 else 0)

def pageFaultLines (errorCode : Word) : List (List Byte) :=
  [literal "  Present: " ++ errorBit errorCode 0,
    literal "  Write: " ++ errorBit errorCode 1,
    literal "  User: " ++ errorBit errorCode 2,
    literal "  Reserved-bit violation: " ++ errorBit errorCode 3,
    literal "  Instruction fetch: " ++ errorBit errorCode 4]

/-- Three registers on a line. -/
def registerLine (first second third : String) (x y z : Word) : List Byte :=
  literal first ++ address x ++ literal second ++ address y ++ literal third ++ address z

def headingLines (frame : InterruptFrame) : List (List Byte) :=
  [[], [], literal "*** EXCEPTION ***",
    literal "Vector: " ++ numeral 10 frame.vector.toNat,
    literal "Exception: " ++ exceptionName frame.vector,
    literal "Error code: " ++ hexadecimal frame.errorCode]

def registerLines (frame : InterruptFrame) (cr2 : Word) : List (List Byte) :=
  [literal "CR2:    " ++ address cr2,
    literal "RIP:    " ++ address frame.rip,
    literal "CS:     " ++ hexadecimal frame.cs,
    literal "RFLAGS: " ++ hexadecimal frame.rflags,
    literal "RSP:    " ++ address frame.rsp,
    literal "SS:     " ++ hexadecimal frame.ss,
    registerLine "RAX: " "  RBX: " "  RCX: " frame.rax frame.rbx frame.rcx,
    registerLine "RDX: " "  RSI: " "  RDI: " frame.rdx frame.rsi frame.rdi,
    registerLine "RBP: " "  R8:  " "  R9:  " frame.rbp frame.r8 frame.r9,
    registerLine "R10: " "  R11: " "  R12: " frame.r10 frame.r11 frame.r12,
    registerLine "R13: " "  R14: " "  R15: " frame.r13 frame.r14 frame.r15]

/-- The report, line by line.  Only a page fault has an address. -/
def reportLines (frame : InterruptFrame) (cr2 : Word) : List (List Byte) :=
  headingLines frame ++
    (if frame.vector = 14 then pageFaultLines frame.errorCode else []) ++
    registerLines frame (if frame.vector = 14 then cr2 else 0) ++
    [[], literal "System halted."]

/-- Every line ends with a newline. -/
def joinLines (lines : List (List Byte)) : List Byte :=
  lines.flatMap (· ++ [ascii '\n'])

section Report

variable (memory : Memory) (frame : InterruptFrame) (cr2 : Word)

theorem isrHandler_complete : ∀ output ∈ isrHandler frame cr2, output.Complete := by
  simp only [isrHandler, List.forall_mem_append]
  refine ⟨⟨⟨?_, ?_⟩, ?_⟩, ?_⟩
  · simp only [headingOutputs, literal, String.reduceToList, List.forall_mem_cons]
    exact ⟨trivial, trivial, ⟨rfl, le_rfl⟩, trivial, trivial, trivial, ⟨rfl, le_rfl⟩,
      List.forall_mem_nil _⟩
  · split_ifs
    · simp only [pageFaultOutputs, literal, String.reduceToList, List.forall_mem_cons]
      exact ⟨⟨rfl, le_rfl⟩, ⟨rfl, le_rfl⟩, ⟨rfl, le_rfl⟩, ⟨rfl, le_rfl⟩, ⟨rfl, le_rfl⟩,
        List.forall_mem_nil _⟩
    · exact List.forall_mem_nil _
  · simp only [registerOutputs, literal, String.reduceToList, List.forall_mem_cons]
    exact ⟨⟨rfl, le_rfl⟩, ⟨rfl, le_rfl⟩, ⟨rfl, le_rfl⟩, ⟨rfl, le_rfl⟩, ⟨rfl, le_rfl⟩,
      ⟨rfl, le_rfl⟩, ⟨rfl, le_rfl⟩, ⟨rfl, le_rfl⟩, ⟨rfl, le_rfl⟩, ⟨rfl, le_rfl⟩, ⟨rfl, le_rfl⟩,
      List.forall_mem_nil _⟩
  · exact List.forall_mem_singleton.mpr trivial

/-- `%u` reads the low half of the slot, which holds the bit. -/
theorem toNat_errorBit (errorCode : Word) (index : ℕ) :
    (((errorCode >>> index) &&& 1).setWidth 32).toNat =
      if errorCode.getLsbD index then 1 else 0 := by
  have hbit : ((errorCode >>> index) &&& 1).toNat = errorCode.toNat / 2 ^ index % 2 :=
    Bits.toNat_field errorCode 1 index 1 rfl
  rw [BitVec.toNat_setWidth, hbit, BitVec.getLsbD, Nat.testBit_eq_decide_div_mod_eq]
  rcases Nat.mod_two_eq_zero_or_one (errorCode.toNat / 2 ^ index) with hzero | hone
  · simp [hzero]
  · simp [hone]

/-- Calls that print a line each. -/
theorem flatMap_printed {outputs : List Output} {lines : List (List Byte)}
    (h : outputs.map (Output.printed memory) = lines.map (· ++ [ascii '\n'])) :
    outputs.flatMap (Output.printed memory) = joinLines lines := by
  rw [joinLines, List.flatMap_def, List.flatMap_def, h]

theorem joinLines_append (first second : List (List Byte)) :
    joinLines (first ++ second) = joinLines first ++ joinLines second :=
  List.flatMap_append

theorem pageFaultOutputs_printed (errorCode : Word) :
    (pageFaultOutputs errorCode).flatMap (Output.printed memory) =
      joinLines (pageFaultLines errorCode) := by
  apply flatMap_printed
  simp only [pageFaultLines, errorBit, ← toNat_errorBit]
  simp only [pageFaultOutputs, literal, String.reduceToList]
  rfl

theorem printed_write (text : List Byte) : Output.printed memory (.write text) = text :=
  rfl

theorem headingOutputs_printed :
    (headingOutputs frame).flatMap (Output.printed memory) = joinLines (headingLines frame) := by
  have hbanner : literal "\n\n*** EXCEPTION ***\n" =
      [ascii '\n'] ++ [ascii '\n'] ++ literal "*** EXCEPTION ***" ++ [ascii '\n'] := by
    simp only [literal, String.reduceToList]
    rfl
  have hvector : Output.printed memory (.kprintf (literal "%lu\n") [frame.vector]) =
      numeral 10 frame.vector.toNat ++ [ascii '\n'] := by
    simp only [literal, String.reduceToList]
    rfl
  have hnewline : literal "\n" = [ascii '\n'] := by
    simp only [literal, String.reduceToList]
    rfl
  have herror :
      Output.printed memory (.kprintf (literal "Error code: 0x%lx\n") [frame.errorCode]) =
        literal "Error code: " ++ hexadecimal frame.errorCode ++ [ascii '\n'] := by
    simp only [literal, String.reduceToList]
    rfl
  simp only [headingOutputs, headingLines, List.flatMap_cons, List.flatMap_nil, printed_write,
    hbanner, hvector, hnewline, herror, joinLines, List.append_assoc, List.nil_append]

theorem registerOutputs_printed :
    (registerOutputs frame cr2).flatMap (Output.printed memory) =
      joinLines (registerLines frame cr2) := by
  apply flatMap_printed
  simp only [registerOutputs, registerLines, literal, String.reduceToList, registerLine, address]
  rfl

/-- The handler prints the report. -/
theorem isrHandler_printed :
    (isrHandler frame cr2).flatMap (Output.printed memory) =
      joinLines (reportLines frame cr2) := by
  have hend : [Output.write (literal "\nSystem halted.\n")].flatMap (Output.printed memory) =
      joinLines [[], literal "System halted."] := by
    simp only [literal, String.reduceToList]
    rfl
  have hfault : (if frame.vector = 14 then pageFaultOutputs frame.errorCode else []).flatMap
      (Output.printed memory) =
        joinLines (if frame.vector = 14 then pageFaultLines frame.errorCode else []) := by
    split_ifs
    · exact pageFaultOutputs_printed memory frame.errorCode
    · rfl
  rw [isrHandler, reportLines]
  simp only [List.flatMap_append, joinLines_append, headingOutputs_printed, hfault,
    registerOutputs_printed, hend]

end Report

end WaterBuffalo.Kernel
