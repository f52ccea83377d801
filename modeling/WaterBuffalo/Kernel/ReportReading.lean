import WaterBuffalo.Kernel.Report

/-!
# Reading the exception report

On the line, each line of the report is followed by a carriage return and a newline.  Neither
occurs inside a line, so the lines can be told apart, and each number can be read off its line:
two frames with the same report are the same frame.
-/

namespace WaterBuffalo.Kernel

open ByteMemory Print Serial Isr Arch

/-! ## Lines -/

/-- The characters of a line. -/
def Printable (line : List Byte) : Prop :=
  ∀ byte ∈ line, 0x20 ≤ byte.toNat ∧ byte.toNat < 0x7F

/-- The characters of the string can stand in a line. -/
def plain (s : String) : Bool :=
  s.toList.all fun c ↦ Nat.ble 0x20 c.toNat && Nat.ble c.toNat 0x7E

/-- The lines as they go over the wire. -/
def wire (lines : List (List Byte)) : List Byte :=
  lines.flatMap (· ++ [ascii '\r', ascii '\n'])

section Lines

variable {first second line : List Byte} {lines others : List (List Byte)}

theorem printable_literal {s : String} (h : plain s = true) : Printable (literal s) := by
  intro byte hbyte
  rw [literal, List.mem_map] at hbyte
  obtain ⟨c, hc, rfl⟩ := hbyte
  have hbounds := List.all_eq_true.mp h c hc
  rw [Bool.and_eq_true, Nat.ble_eq, Nat.ble_eq] at hbounds
  rw [ascii, BitVec.toNat_ofNat]
  omega

theorem printable_nil : Printable [] :=
  List.forall_mem_nil _

theorem Printable.append (hfirst : Printable first) (hsecond : Printable second) :
    Printable (first ++ second) :=
  List.forall_mem_append.mpr ⟨hfirst, hsecond⟩

theorem Printable.carriageReturn_notMem (h : Printable line) : ascii '\r' ∉ line :=
  fun hmember ↦ absurd (h _ hmember).1 (by decide)

theorem Printable.flatMap_lineEnding (h : Printable line) : line.flatMap lineEnding = line := by
  induction line with
  | nil => rfl
  | cons byte line ih =>
    obtain ⟨hbyte, hrest⟩ := List.forall_mem_cons.mp h
    have hne : byte ≠ ascii '\n' := by
      rintro rfl
      exact absurd hbyte.1 (by decide)
    rw [List.flatMap_cons, lineEnding, if_neg hne, ih hrest]
    rfl

/-- `putc` sends each line with its ending. -/
theorem flatMap_lineEnding_joinLines (h : ∀ line ∈ lines, Printable line) :
    (joinLines lines).flatMap lineEnding = wire lines := by
  induction lines with
  | nil => rfl
  | cons line lines ih =>
    obtain ⟨hline, hrest⟩ := List.forall_mem_cons.mp h
    calc
      (joinLines (line :: lines)).flatMap lineEnding =
          (line ++ [ascii '\n']).flatMap lineEnding ++ (joinLines lines).flatMap lineEnding :=
        List.flatMap_append
      _ = line ++ [ascii '\r', ascii '\n'] ++ wire lines := by
        rw [List.flatMap_append, hline.flatMap_lineEnding, ih hrest]
        rfl
      _ = wire (line :: lines) := rfl

/-- Two lists are split at the first occurrence of the same element. -/
theorem append_cons_inj {mark : Byte} {restFirst restSecond : List Byte} (hfirst : mark ∉ first)
    (hsecond : mark ∉ second) (h : first ++ mark :: restFirst = second ++ mark :: restSecond) :
    first = second ∧ restFirst = restSecond := by
  induction first generalizing second with
  | nil =>
    cases second with
    | nil => exact ⟨rfl, (List.cons.inj h).2⟩
    | cons byte second => exact absurd (List.cons.inj h).1 (List.ne_of_not_mem_cons hsecond)
  | cons byte first ih =>
    cases second with
    | nil => exact absurd (List.cons.inj h).1.symm (List.ne_of_not_mem_cons hfirst)
    | cons other second =>
      obtain ⟨rfl, hrest⟩ := List.cons.inj h
      obtain ⟨rfl, hequal⟩ := ih (List.not_mem_of_not_mem_cons hfirst)
        (List.not_mem_of_not_mem_cons hsecond) hrest
      exact ⟨rfl, hequal⟩

/-- The lines can be told apart. -/
theorem wire_injective (hlines : ∀ line ∈ lines, Printable line)
    (hothers : ∀ line ∈ others, Printable line) (h : wire lines = wire others) :
    lines = others := by
  induction lines generalizing others with
  | nil =>
    cases others with
    | nil => rfl
    | cons other others => simp [wire] at h
  | cons line lines ih =>
    cases others with
    | nil => simp [wire] at h
    | cons other others =>
      obtain ⟨hline, hrest⟩ := List.forall_mem_cons.mp hlines
      obtain ⟨hother, hotherRest⟩ := List.forall_mem_cons.mp hothers
      have hsplit : line ++ ascii '\r' :: ascii '\n' :: wire lines =
          other ++ ascii '\r' :: ascii '\n' :: wire others := by
        simpa [wire] using h
      obtain ⟨rfl, htail⟩ :=
        append_cons_inj hline.carriageReturn_notMem hother.carriageReturn_notMem hsplit
      rw [ih hrest hotherRest (List.cons.inj htail).2]

end Lines

/-! ## Numbers -/

section Numbers

variable {base : ℕ}

theorem printable_digitByte {digit : ℕ} (h : digit < 16) :
    0x20 ≤ (digitByte digit).toNat ∧ (digitByte digit).toNat < 0x7F := by
  interval_cases digit <;> decide

theorem printable_numeral (hbase : 1 < base) (hsmall : base ≤ 16) (value : ℕ) :
    Printable (numeral base value) := by
  rw [numeral]
  split_ifs
  · exact List.forall_mem_singleton.mpr (by decide)
  · intro byte hbyte
    rw [List.mem_reverse, List.mem_map] at hbyte
    obtain ⟨digit, hdigit, rfl⟩ := hbyte
    exact printable_digitByte (lt_of_lt_of_le (Nat.digits_lt_base hbase hdigit) hsmall)

theorem printable_paddedHex (value count : ℕ) : Printable (paddedHex value count) := by
  induction count with
  | zero => exact List.forall_mem_nil _
  | succ count ih =>
    exact List.forall_mem_cons.mpr ⟨printable_digitByte (Nat.mod_lt _ (by decide)), ih⟩

theorem numeral_injective (hbase : 1 < base) (hsmall : base ≤ 16) :
    Function.Injective (numeral base) := by
  intro first second h
  have hfirst := (isNumeral_numeral hbase hsmall first).reads
  rw [h, (isNumeral_numeral hbase hsmall second).reads, Option.some.injEq] at hfirst
  exact hfirst.symm

theorem address_injective : Function.Injective address := by
  intro first second h
  have hdigits : paddedHex first.toNat 16 = paddedHex second.toNat 16 := List.append_cancel_left h
  have hbound (value : Word) : value.toNat < 16 ^ 16 := value.isLt
  have hfirst := readBack_paddedHex first.toNat 16 0
  rw [hdigits, readBack_paddedHex, Option.some.injEq, Nat.zero_mul, Nat.zero_add, Nat.zero_add,
    Nat.mod_eq_of_lt (hbound first), Nat.mod_eq_of_lt (hbound second)] at hfirst
  exact BitVec.eq_of_toNat_eq hfirst.symm

theorem hexadecimal_injective : Function.Injective hexadecimal := by
  intro first second h
  apply BitVec.eq_of_toNat_eq
  exact numeral_injective (by decide) (by decide) (List.append_cancel_left h)

theorem length_address (value : Word) : (address value).length = 18 := by
  rw [address, List.length_append, length_paddedHex]
  rfl

theorem registerLine_injective {first second third : String} {x y z x' y' z' : Word}
    (h : registerLine first second third x y z = registerLine first second third x' y' z') :
    x = x' ∧ y = y' ∧ z = z' := by
  simp only [registerLine, List.append_assoc] at h
  obtain ⟨hx, hrest⟩ := List.append_inj (List.append_cancel_left h) (by simp only [length_address])
  obtain ⟨hy, hlast⟩ :=
    List.append_inj (List.append_cancel_left hrest) (by simp only [length_address])
  exact ⟨address_injective hx, address_injective hy,
    address_injective (List.append_cancel_left hlast)⟩

end Numbers

/-! ## The report -/

section Report

variable {frame other : InterruptFrame} {cr2 otherCr2 : Word}

/-- `0x`. -/
theorem printable_marker : Printable [ascii '0', ascii 'x'] :=
  printable_literal (rfl : plain "0x" = true)

theorem printable_address (value : Word) : Printable (address value) :=
  printable_marker.append (printable_paddedHex _ _)

theorem printable_hexadecimal (value : Word) : Printable (hexadecimal value) :=
  printable_marker.append (printable_numeral (by decide) (by decide) _)

theorem printable_exceptionName (vector : Word) : Printable (exceptionName vector) := by
  unfold exceptionName
  split <;> exact printable_literal rfl

theorem printable_headingLines : ∀ line ∈ headingLines frame, Printable line := by
  have hdecimal : Printable (numeral 10 frame.vector.toNat) :=
    printable_numeral (by decide) (by decide) _
  have hname := printable_exceptionName frame.vector
  simp only [headingLines, List.forall_mem_cons]
  exact ⟨printable_nil, printable_nil, printable_literal rfl,
    (printable_literal rfl).append hdecimal, (printable_literal rfl).append hname,
    (printable_literal rfl).append (printable_hexadecimal _), List.forall_mem_nil _⟩

theorem printable_pageFaultLines (errorCode : Word) :
    ∀ line ∈ pageFaultLines errorCode, Printable line := by
  have hbit (index : ℕ) : Printable (errorBit errorCode index) :=
    printable_numeral (by decide) (by decide) _
  simp only [pageFaultLines, List.forall_mem_cons]
  exact ⟨(printable_literal rfl).append (hbit 0), (printable_literal rfl).append (hbit 1),
    (printable_literal rfl).append (hbit 2), (printable_literal rfl).append (hbit 3),
    (printable_literal rfl).append (hbit 4), List.forall_mem_nil _⟩

theorem printable_registerLine {first second third : String} (hfirst : plain first = true)
    (hsecond : plain second = true) (hthird : plain third = true) (x y z : Word) :
    Printable (registerLine first second third x y z) :=
  (((((printable_literal hfirst).append (printable_address x)).append
    (printable_literal hsecond)).append (printable_address y)).append
      (printable_literal hthird)).append (printable_address z)

theorem printable_registerLines : ∀ line ∈ registerLines frame cr2, Printable line := by
  have haddress {s : String} (h : plain s = true) (value : Word) :
      Printable (literal s ++ address value) :=
    (printable_literal h).append (printable_address value)
  have hhexadecimal {s : String} (h : plain s = true) (value : Word) :
      Printable (literal s ++ hexadecimal value) :=
    (printable_literal h).append (printable_hexadecimal value)
  simp only [registerLines, List.forall_mem_cons]
  exact ⟨haddress rfl _, haddress rfl _, hhexadecimal rfl _, hhexadecimal rfl _, haddress rfl _,
    hhexadecimal rfl _, printable_registerLine rfl rfl rfl _ _ _,
    printable_registerLine rfl rfl rfl _ _ _, printable_registerLine rfl rfl rfl _ _ _,
    printable_registerLine rfl rfl rfl _ _ _, printable_registerLine rfl rfl rfl _ _ _,
    List.forall_mem_nil _⟩

theorem printable_reportLines : ∀ line ∈ reportLines frame cr2, Printable line := by
  simp only [reportLines, List.forall_mem_append]
  refine ⟨⟨⟨printable_headingLines, ?_⟩, printable_registerLines⟩, ?_⟩
  · split_ifs
    · exact printable_pageFaultLines frame.errorCode
    · exact List.forall_mem_nil _
  · simp only [List.forall_mem_cons]
    exact ⟨printable_nil, printable_literal rfl, List.forall_mem_nil _⟩

theorem headingLines_injective (h : headingLines frame = headingLines other) :
    frame.vector = other.vector ∧ frame.errorCode = other.errorCode := by
  simp only [headingLines, List.cons.injEq, true_and, and_true] at h
  obtain ⟨hvector, -, hcode⟩ := h
  refine ⟨BitVec.eq_of_toNat_eq ?_, hexadecimal_injective (List.append_cancel_left hcode)⟩
  exact numeral_injective (by decide) (by decide) (List.append_cancel_left hvector)

theorem registerLines_injective (h : registerLines frame cr2 = registerLines other otherCr2)
    (hvector : frame.vector = other.vector) (hcode : frame.errorCode = other.errorCode) :
    frame = other ∧ cr2 = otherCr2 := by
  simp only [registerLines, List.cons.injEq, and_true] at h
  obtain ⟨hcr2, hrip, hcs, hrflags, hrsp, hss, hline1, hline2, hline3, hline4, hline5⟩ := h
  obtain ⟨hrax, hrbx, hrcx⟩ := registerLine_injective hline1
  obtain ⟨hrdx, hrsi, hrdi⟩ := registerLine_injective hline2
  obtain ⟨hrbp, hr8, hr9⟩ := registerLine_injective hline3
  obtain ⟨hr10, hr11, hr12⟩ := registerLine_injective hline4
  obtain ⟨hr13, hr14, hr15⟩ := registerLine_injective hline5
  have haddress {s : String} {x y : Word} (h : literal s ++ address x = literal s ++ address y) :
      x = y := address_injective (List.append_cancel_left h)
  have hhexadecimal {s : String} {x y : Word}
      (h : literal s ++ hexadecimal x = literal s ++ hexadecimal y) : x = y :=
    hexadecimal_injective (List.append_cancel_left h)
  refine ⟨?_, haddress hcr2⟩
  cases frame
  cases other
  rw [InterruptFrame.mk.injEq]
  exact ⟨hr15, hr14, hr13, hr12, hr11, hr10, hr9, hr8, hrbp, hrdi, hrsi, hrdx, hrcx, hrbx, hrax,
    hvector, hcode, haddress hrip, hhexadecimal hcs, hhexadecimal hrflags, haddress hrsp,
    hhexadecimal hss⟩

/-- The lines determine the frame, and the address of a page fault. -/
theorem reportLines_injective (h : reportLines frame cr2 = reportLines other otherCr2) :
    frame = other ∧ (frame.vector = 14 → cr2 = otherCr2) := by
  simp only [reportLines, List.append_assoc] at h
  obtain ⟨hheading, hrest⟩ := List.append_inj h rfl
  obtain ⟨hvector, hcode⟩ := headingLines_injective hheading
  rw [hvector, hcode] at hrest
  obtain ⟨hregisters, -⟩ := List.append_inj (List.append_cancel_left hrest) rfl
  obtain ⟨hframe, hcr2⟩ := registerLines_injective hregisters hvector hcode
  refine ⟨hframe, fun hfault ↦ ?_⟩
  rw [hvector] at hfault
  simpa only [hfault, if_true] using hcr2

/-- **The report can be read back.** Whoever sees the bytes on the line knows the whole frame, and
for a page fault its address. -/
theorem exception_report_determines_frame (frame other : InterruptFrame) (cr2 otherCr2 : Word) :
    wire (reportLines frame cr2) = wire (reportLines other otherCr2) ↔
      frame = other ∧ (frame.vector = 14 → cr2 = otherCr2) := by
  constructor
  · intro h
    exact reportLines_injective
      (wire_injective printable_reportLines printable_reportLines h)
  · rintro ⟨rfl, hcr2⟩
    have hlines : reportLines frame cr2 = reportLines frame otherCr2 := by
      unfold reportLines
      split_ifs with hfault
      · rw [hcr2 hfault]
      · rfl
    rw [hlines]

end Report

/-! ## From the exception to the line -/

/-- **Exceptions are reported.** Whatever the exception and the state it interrupts: the handler
finds the interrupted context in its frame, does not fail, and puts exactly the report of that
context on the line. -/
theorem exception_reported (text : Text) {p : Processor} {gdt idt : Word} {vector : ℕ}
    (hinstalled : Installed text gdt idt p) (hvector : vector < 32) (errorCode cr2 : Word)
    {device : Device} (hready : Ready device) {start : Uart} (terminal : Terminal)
    (hspeaking : Speaking start terminal.port) (hsink : terminal.outputSink ≠ 0) :
    ∃ called, raise text p vector errorCode = some called ∧
      ∀ frame, frame = InterruptFrame.ofMemory called.memory (called.registers .rdi) →
        ∀ literals : Literals, (∀ output ∈ isrHandler frame cr2, literals.Stored output.text) →
          ∃ later, Output.runAll device literals terminal (isrHandler frame cr2) = .ok later ∧
            (start.after later.port.accesses).line =
              (start.after terminal.port.accesses).line ++
                wire (reportLines (InterruptFrame.ofContext p vector errorCode) cr2) := by
  obtain ⟨called, hcalled, hentered⟩ := hinstalled.raise hvector errorCode
  refine ⟨called, hcalled, fun frame hframe literals hstored ↦ ?_⟩
  rw [hentered.rdi_eq, hentered.frame_eq] at hframe
  subst hframe
  obtain ⟨later, hlater, -, hspoken⟩ := Output.runAll_speaks hready hspeaking hsink hstored
    (isrHandler_complete _ cr2)
  refine ⟨later, hlater, ?_⟩
  rw [hspoken.uart_eq, isrHandler_printed, flatMap_lineEnding_joinLines printable_reportLines]

/-- The literals of the handler for a vector. -/
def handlerTexts (vector : Word) : List (List Byte) :=
  (isrHandler ⟨0, 0, 0, 0, 0, 0, 0, 0, 0, 0, 0, 0, 0, 0, 0, vector, 0, 0, 0, 0, 0, 0⟩ 0).map
    Output.text

theorem text_mem_handlerTexts {frame : InterruptFrame} {cr2 : Word} {output : Output}
    (h : output ∈ isrHandler frame cr2) : output.text ∈ handlerTexts frame.vector := by
  have htexts : (isrHandler frame cr2).map Output.text = handlerTexts frame.vector := by
    unfold handlerTexts isrHandler
    split_ifs <;> rfl
  rw [← htexts]
  exact List.mem_map_of_mem h

/-- A breakpoint, reported over a port that echoes. -/
theorem exception_reported_breakpoint :
    ∃ q called later, gdtInit exampleProcessor 0x1000 0 = some q ∧
      raise exampleText (idtInit q 0x2000 exampleText.isrStubTable) 3 0 = some called ∧
      Output.runAll echo (literalsOf (handlerTexts 3)) ⟨1, (init echo Driver.start 115200).2⟩
        (isrHandler (InterruptFrame.ofMemory called.memory (called.registers .rdi)) 0) =
          .ok later := by
  obtain ⟨q, hq, hinstalled, -, -, -⟩ := exampleProcessor_init
  have hspeaking : Speaking ⟨0, 0, 0, 0, 0, 0, []⟩ (init echo Driver.start 115200).2 := by
    obtain ⟨hprogrammed, -, -, hflag⟩ :=
      init_spec ⟨0, 0, 0, 0, 0, 0, []⟩ echo Driver.start (by decide : Accepted 115200)
    exact ⟨hflag.trans (init_of_loopsBack echo_loopsBack (by decide)), hprogrammed.connected⟩
  obtain ⟨called, hcalled, hreport⟩ := exception_reported exampleText hinstalled
    (by decide : 3 < 32) 0 0 echo_ready ⟨1, (init echo Driver.start 115200).2⟩ hspeaking
    (by decide)
  obtain ⟨other, hother, hentered⟩ := hinstalled.raise (by decide : 3 < 32) 0
  rw [hcalled, Option.some.injEq] at hother
  subst hother
  have hvector : (InterruptFrame.ofMemory called.memory (called.registers .rdi)).vector = 3 := by
    rw [hentered.rdi_eq, hentered.frame_eq]
    rfl
  have hnonzero : (handlerTexts 3).all (fun text ↦ text.all (· != 0)) = true := rfl
  have hlength : (pool (handlerTexts 3)).length < 2 ^ 64 - 0x1000 := by
    rw [length_pool]
    have hsum : Nat.ble ((handlerTexts 3).map fun text ↦ text.length + 1).sum 1000 = true := rfl
    exact lt_of_le_of_lt (Nat.le_of_ble_eq_true hsum) (by decide)
  obtain ⟨later, hlater, -⟩ := hreport _ rfl (literalsOf (handlerTexts 3)) fun output houtput ↦ by
    have hmember := text_mem_handlerTexts houtput
    rw [hvector] at hmember
    refine stored_literalsOf hmember (fun byte hbyte ↦ ?_) hlength
    have hall := List.all_eq_true.mp (List.all_eq_true.mp hnonzero _ hmember) byte hbyte
    exact bne_iff_ne.mp hall
  exact ⟨q, called, later, hq, hcalled, hlater⟩

end WaterBuffalo.Kernel
