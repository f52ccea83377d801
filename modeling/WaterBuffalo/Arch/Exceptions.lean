import WaterBuffalo.Arch.Isr
import WaterBuffalo.Foundation.Run

/-!
# Exceptions over whole runs

Once `gdt::init` and `idt::init` have installed the tables, the kernel runs, exceptions come at any
point, also inside a handler, and a handler may return.  As long as nothing overwrites the tables,
the processor finds a stub for every exception, the handler sees the interrupted context, and a
handler that leaves its frame alone is invisible to what it interrupted.
-/

namespace WaterBuffalo.Isr

open ByteMemory X86 Arch

/-! ## The invariant -/

/-- Both tables are in place and the kernel's level is in force. -/
structure Installed (text : Text) (gdt idt : Word) (p : Processor) : Prop where
  gdt_loaded : GdtLoaded p gdt
  idt_loaded : IdtLoaded p idt text.isrStubTable
  level_eq : p.level = 0

/-- The bytes an exception pushes do not belong to the tables. -/
def StackApart (gdt idt : Word) (p : Processor) : Prop :=
  Disjoint gdt 40 (framePointer p - 8) 184 ∧ Disjoint idt 4096 (framePointer p - 8) 184

/-- What happens to the processor. -/
inductive Event where
  /-- The kernel's own code, up to the state it reaches. -/
  | work (later : Processor)
  | exception (vector : ℕ) (errorCode : Word)
  | handlerReturns

/-- `none` is a processor that found no handler. -/
def step (text : Text) (state : Option Processor) (event : Event) : Option Processor :=
  state.bind fun p ↦
    match event with
    | .work later => some later
    | .exception vector errorCode => raise text p vector errorCode
    | .handlerReturns => resume p

/-- What is asked of the kernel's code, of its stack and of a handler that returns. -/
def Allowed (gdt idt : Word) (state : Option Processor) (event : Event) : Prop :=
  ∀ p, state = some p →
    match event with
    | .work later =>
      later.gdtr = p.gdtr ∧ later.idtr = p.idtr ∧ later.level = 0 ∧
        ∀ target, Within gdt 40 target ∨ Within idt 4096 target →
          later.memory target = p.memory target
    | .exception vector _ => vector < 32 ∧ StackApart gdt idt p
    | .handlerReturns =>
      let frame := InterruptFrame.ofMemory p.memory (p.registers .rbx)
      frame.cs = Gdt.kKernelCodeSelector.setWidth 64 ∧
        frame.ss = Gdt.kKernelDataSelector.setWidth 64

section Invariant

variable {text : Text} {gdt idt : Word} {p called later : Processor} {vector : ℕ}
  {errorCode : Word}

/-- Both initialisations in their order leave the tables installed. -/
theorem installed_of_init (text : Text) (label : Word) (hlevel : p.level = 0)
    (htable : wordsAt p.memory gdt 5 = Gdt.gdt)
    (hstack : Disjoint gdt 40 (p.rsp - 16) 16) (hapart : Disjoint gdt 40 idt 4096) :
    ∃ q, gdtInit p gdt label = some q ∧
      Installed text gdt idt (idtInit q idt text.isrStubTable) := by
  obtain ⟨q, hq, hgdt, hcs, -, -, -, -⟩ := gdtInit_spec label hlevel htable hstack
  refine ⟨q, hq, ?_, idtInit_loaded q idt text.isrStubTable, ?_⟩
  · refine hgdt.congr rfl fun target htarget ↦ ?_
    exact Idt.fill_of_not_within q.memory text.isrStubTable (hapart target htarget)
  · have hlevelEq : (idtInit q idt text.isrStubTable).level = q.level := rfl
    rw [hlevelEq, Processor.level, hcs]
    decide

theorem Installed.raise (h : Installed text gdt idt p) (hvector : vector < 32)
    (errorCode : Word) :
    ∃ called, raise text p vector errorCode = some called ∧
      Entered text p gdt vector errorCode called :=
  raise_entered h.gdt_loaded h.idt_loaded h.level_eq hvector errorCode

theorem Installed.raise_other (h : Installed text gdt idt p) (hvector : 32 ≤ vector)
    (errorCode : Word) : Isr.raise text p vector errorCode = none := by
  rw [Isr.raise, deliver_other h.idt_loaded hvector]
  rfl

/-- Entering a handler keeps the GDT. -/
theorem Entered.gdt_loaded (hgdt : GdtLoaded p gdt)
    (h : Entered text p gdt vector errorCode called)
    (hstack : Disjoint gdt 40 (framePointer p - 8) 184) : GdtLoaded called gdt := by
  apply (hgdt.accessed (rfl : Gdt.gdt[1]? = some Gdt.kernelCode)).congr h.gdtr_eq
  intro target htarget
  exact h.memory_eq target (hstack target htarget)

theorem Entered.level_eq (h : Entered text p gdt vector errorCode called) : called.level = 0 := by
  rw [Processor.level, h.cs_eq]
  decide

/-- Entering a handler keeps both tables. -/
theorem Installed.entered (h : Installed text gdt idt p)
    (hentered : Entered text p gdt vector errorCode called) (hstack : StackApart gdt idt p)
    (hapart : Disjoint gdt 40 idt 4096) : Installed text gdt idt called := by
  refine ⟨hentered.gdt_loaded h.gdt_loaded hstack.1, ?_, hentered.level_eq⟩
  apply h.idt_loaded.congr hentered.idtr_eq
  intro target htarget
  rw [hentered.memory_eq target (hstack.2 target htarget)]
  exact markAccessed_of_not_within (by decide) fun hinside ↦ hapart target hinside htarget

/-- Returning from a handler keeps both tables. -/
theorem Installed.resume (h : Installed text gdt idt p) (hapart : Disjoint gdt 40 idt 4096)
    (hcs : (InterruptFrame.ofMemory p.memory (p.registers .rbx)).cs =
      Gdt.kKernelCodeSelector.setWidth 64)
    (hss : (InterruptFrame.ofMemory p.memory (p.registers .rbx)).ss =
      Gdt.kKernelDataSelector.setWidth 64) :
    ∃ later, Isr.resume p = some later ∧ Installed text gdt idt later := by
  obtain ⟨later, hlater, -, -, -, hlaterCs, -, hgdt, hidtr, hmemory⟩ :=
    resume_spec h.gdt_loaded h.level_eq rfl hcs hss
  refine ⟨later, hlater, hgdt, ?_, ?_⟩
  · apply h.idt_loaded.congr hidtr
    intro target htarget
    exact hmemory target fun hinside ↦ hapart target hinside htarget
  · rw [Processor.level, hlaterCs]
    decide

/-- One event keeps the tables. -/
theorem step_installed (hapart : Disjoint gdt 40 idt 4096) (state : Option Processor)
    (event : Event) (h : ∃ p, state = some p ∧ Installed text gdt idt p)
    (hallowed : Allowed gdt idt state event) :
    ∃ later, step text state event = some later ∧ Installed text gdt idt later := by
  obtain ⟨p, rfl, hp⟩ := h
  have hguard := hallowed p rfl
  cases event with
  | work later =>
    obtain ⟨hgdtr, hidtr, hlevel, hmemory⟩ := hguard
    refine ⟨later, rfl, ?_, ?_, hlevel⟩
    · exact hp.gdt_loaded.congr hgdtr fun target htarget ↦ hmemory target (Or.inl htarget)
    · exact hp.idt_loaded.congr hidtr fun target htarget ↦ hmemory target (Or.inr htarget)
  | exception vector errorCode =>
    obtain ⟨hvector, hstack⟩ := hguard
    obtain ⟨called, hcalled, hentered⟩ := hp.raise hvector errorCode
    exact ⟨called, hcalled, hp.entered hentered hstack hapart⟩
  | handlerReturns =>
    obtain ⟨hcs, hss⟩ := hguard
    exact hp.resume hapart hcs hss

end Invariant

/-! ## An example -/

/-- A processor as a boot loader leaves it, with the table of the image at `0x1000` and a stack
below `0x9000`. -/
def exampleProcessor : Processor where
  registers := fun register ↦ if register = .rsp then 0x9000 else 0
  rip := 0
  rflags := 2
  cs := 0x28
  ss := 0x30
  memory := writeArray (fun _ ↦ 0) 0x1000 8 (fun index ↦ Gdt.gdt.getD index 0) 5
  gdtr := ⟨0, 0⟩
  idtr := ⟨0, 0⟩
  ds := 0x30
  es := 0x30
  fs := 0x30
  gs := 0x30

def exampleText : Text where
  isrStubTable := fun vector ↦ BitVec.ofNat 64 (0x400000 + 16 * vector)
  behindCall := 0x401000
  distinct := by
    intro first hfirst second hsecond h
    have hvalues := congrArg BitVec.toNat h
    rw [BitVec.toNat_ofNat, BitVec.toNat_ofNat] at hvalues
    omega

theorem exampleProcessor_table : wordsAt exampleProcessor.memory 0x1000 5 = Gdt.gdt := by
  apply List.ext_getElem?
  intro index
  by_cases hindex : index < 5
  · have hword : load64 exampleProcessor.memory (0x1000 + BitVec.ofNat 64 (8 * index)) =
        Gdt.gdt.getD index 0 :=
      read_writeArray hindex (by decide)
    rw [getElem?_wordsAt hindex, hword]
    interval_cases index <;> rfl
  · rw [List.getElem?_eq_none, List.getElem?_eq_none]
    · exact Nat.le_of_not_lt hindex
    · rw [length_wordsAt]
      exact Nat.le_of_not_lt hindex

/-- Both initialisations, on the example. -/
theorem exampleProcessor_init :
    ∃ q, gdtInit exampleProcessor 0x1000 0 = some q ∧
      Installed exampleText 0x1000 0x2000 (idtInit q 0x2000 exampleText.isrStubTable) ∧
      q.rsp = 0x9000 ∧ q.cs = Gdt.kKernelCodeSelector ∧ q.ss = Gdt.kKernelDataSelector := by
  have hstack : Disjoint 0x1000 40 (exampleProcessor.rsp - 16) 16 :=
    disjoint_of_le (by decide) (by decide)
  obtain ⟨q, hq, hinstalled⟩ := installed_of_init exampleText 0 (by decide)
    exampleProcessor_table hstack
    (disjoint_of_le (by decide) (by decide) : Disjoint 0x1000 40 0x2000 4096)
  obtain ⟨other, hother, -, hcs, hselectors, -, hregisters, -⟩ :=
    gdtInit_spec 0 (by decide) exampleProcessor_table hstack
  rw [hq, Option.some.injEq] at hother
  subst hother
  exact ⟨q, hq, hinstalled, hregisters .rsp (by decide), hcs, hselectors .ss⟩

/-- Where the example pushes its frames. -/
theorem stackApart_of_rsp {p : Processor} (h : p.rsp = 0x9000) : StackApart 0x1000 0x2000 p := by
  rw [StackApart, framePointer, h]
  exact ⟨disjoint_of_le (by decide) (by decide), disjoint_of_le (by decide) (by decide)⟩

/-! ## Whole runs -/

/-- **Exceptions reach their handler.** From the two initialisations on, over every interleaving of
the kernel's code, exceptions and returns that leaves the tables alone, the processor never lacks a
handler; in every state each of the 32 exceptions enters `isr_handler` with the interrupted context
as its frame, and no other vector is delivered. -/
theorem exceptions_reach_handler (text : Text) {p : Processor} {gdt : Word} (idt label : Word)
    (hlevel : p.level = 0) (htable : wordsAt p.memory gdt 5 = Gdt.gdt)
    (hstack : Disjoint gdt 40 (p.rsp - 16) 16) (hapart : Disjoint gdt 40 idt 4096) :
    ∃ q, gdtInit p gdt label = some q ∧
      ∀ events, Run.Legal (step text) (Allowed gdt idt)
          (some (idtInit q idt text.isrStubTable)) events →
        ∃ later, Run.final (step text) (some (idtInit q idt text.isrStubTable)) events =
            some later ∧
          ∀ vector errorCode,
            (vector < 32 → ∃ called, raise text later vector errorCode = some called ∧
              Entered text later gdt vector errorCode called) ∧
            (32 ≤ vector → raise text later vector errorCode = none) := by
  obtain ⟨q, hq, hinstalled⟩ :=
    installed_of_init text label hlevel htable hstack hapart
  refine ⟨q, hq, fun events hlegal ↦ ?_⟩
  obtain ⟨later, hlater, hkept⟩ := hlegal.invariant
    (fun state event ↦ step_installed hapart state event) ⟨_, rfl, hinstalled⟩
  exact ⟨later, hlater, fun vector errorCode ↦
    ⟨fun hvector ↦ hkept.raise hvector errorCode,
      fun hvector ↦ hkept.raise_other hvector errorCode⟩⟩

/-- A page fault, and a breakpoint in its handler. -/
theorem exceptions_reach_handler_nested :
    ∃ q later called, gdtInit exampleProcessor 0x1000 0 = some q ∧
      raise exampleText (idtInit q 0x2000 exampleText.isrStubTable) 14 2 = some later ∧
      raise exampleText later 3 0 = some called ∧
      Entered exampleText later 0x1000 3 0 called := by
  obtain ⟨q, hq, hrun⟩ := exceptions_reach_handler exampleText 0x2000 0 (by decide)
    exampleProcessor_table (disjoint_of_le (by decide) (by decide))
    (disjoint_of_le (by decide) (by decide))
  obtain ⟨other, hother, -, hrsp, -, -⟩ := exampleProcessor_init
  rw [hq, Option.some.injEq] at hother
  subst hother
  have hlegal : Run.Legal (step exampleText) (Allowed 0x1000 0x2000)
      (some (idtInit q 0x2000 exampleText.isrStubTable)) [.exception 14 2] := by
    refine ⟨fun p hp ↦ ⟨by decide, stackApart_of_rsp ?_⟩, trivial⟩
    rw [← Option.some.inj hp]
    exact hrsp
  obtain ⟨later, hlater, hnext⟩ := hrun _ hlegal
  obtain ⟨called, hcalled, hentered⟩ := (hnext 3 0).1 (by decide)
  exact ⟨q, later, called, hq, hlater, hcalled, hentered⟩

/-- **Exceptions are transparent.** A handler that returns with `rbx` and its frame unchanged
resumes the interrupted context: every register, the flags and the segments are as before. -/
theorem exception_transparent (text : Text) {p : Processor} {gdt idt : Word} {vector : ℕ}
    (hinstalled : Installed text gdt idt p) (hvector : vector < 32) (errorCode : Word)
    (hcs : p.cs = Gdt.kKernelCodeSelector) (hss : p.ss = Gdt.kKernelDataSelector)
    (hstack : Disjoint gdt 40 (framePointer p - 8) 184) :
    ∃ called, raise text p vector errorCode = some called ∧
      ∀ returned : Processor, returned.registers .rbx = called.registers .rbx →
        returned.cs = called.cs → returned.gdtr = called.gdtr →
        (∀ target, Within (framePointer p) 176 target ∨ Within gdt 40 target →
          returned.memory target = called.memory target) →
        ∃ later, resume returned = some later ∧ later.registers = p.registers ∧
          later.rip = p.rip ∧ later.rflags = p.rflags ∧ later.cs = p.cs ∧ later.ss = p.ss ∧
          ∀ target, ¬ Within gdt 40 target → later.memory target = returned.memory target := by
  obtain ⟨called, hcalled, hentered⟩ := hinstalled.raise hvector errorCode
  refine ⟨called, hcalled, fun returned hrbx hsegment hgdtr hmemory ↦ ?_⟩
  have hgdt : GdtLoaded returned gdt :=
    (hentered.gdt_loaded hinstalled.gdt_loaded hstack).congr hgdtr
      fun target htarget ↦ hmemory target (Or.inr htarget)
  have hlevel : returned.level = 0 := by
    rw [Processor.level, hsegment]
    exact hentered.level_eq
  have hframe : InterruptFrame.ofMemory returned.memory (returned.registers .rbx) =
      InterruptFrame.ofContext p vector errorCode := by
    rw [hrbx, hentered.rbx_eq, ← hentered.frame_eq]
    apply InterruptFrame.ofMemory_eq
    rw [InterruptFrame.words_ofMemory]
    apply wordsAt_congr (by decide)
    intro target htarget
    exact hmemory target (Or.inl htarget)
  obtain ⟨later, hlater, hregisters, hrip, hrflags, hlaterCs, hlaterSs, -, -, hothers⟩ :=
    resume_spec hgdt hlevel hframe (congrArg (BitVec.setWidth 64) hcs)
      (congrArg (BitVec.setWidth 64) hss)
  refine ⟨later, hlater, ?_, hrip, hrflags, hlaterCs.trans hcs.symm, hlaterSs.trans hss.symm,
    hothers⟩
  rw [hregisters, InterruptFrame.register_ofContext]

/-- A breakpoint whose handler does nothing. -/
theorem exception_transparent_breakpoint :
    ∃ q called later, gdtInit exampleProcessor 0x1000 0 = some q ∧
      raise exampleText (idtInit q 0x2000 exampleText.isrStubTable) 3 0 = some called ∧
      resume called = some later ∧ later.registers = q.registers ∧ later.rip = q.rip := by
  obtain ⟨q, hq, hinstalled, hrsp, hcs, hss⟩ := exampleProcessor_init
  obtain ⟨called, hcalled, hreturns⟩ := exception_transparent exampleText hinstalled
    (by decide : 3 < 32) 0 hcs hss (stackApart_of_rsp hrsp).1
  obtain ⟨later, hlater, hregisters, hrip, -⟩ := hreturns called rfl rfl rfl fun _ _ ↦ rfl
  exact ⟨q, called, later, hq, hcalled, hlater, hregisters, hrip⟩

end WaterBuffalo.Isr
