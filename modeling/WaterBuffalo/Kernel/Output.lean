import WaterBuffalo.Arch.Line
import WaterBuffalo.Lib.Rendering

/-!
# What the kernel prints

`kmain` and `isr_handler` print through two calls, `serial::write` and `print::kprintf`, on string
literals of the image.  `kmain` makes `serial::putc` the sink of `kprintf`, so both end at the
serial port.  The calls of a function are a list of `Output`s; run one after the other they put
their texts on the line, with a carriage return before each newline.
-/

namespace WaterBuffalo.Kernel

open Print Serial

/-- The bytes of a string literal. -/
def literal (s : String) : List Byte :=
  s.toList.map ascii

/-- A call that prints.  Its string is a literal; the arguments of `kprintf` are the slots they are
passed in. -/
inductive Output where
  | write (text : List Byte)
  | kprintf (format : List Byte) (slots : List Word)
  deriving DecidableEq, Repr

/-- The static `output_sink`, null or `serial::putc`, and the serial port. -/
structure Terminal where
  outputSink : Word
  port : Driver

/-- Where the image has its literals. -/
structure Literals where
  memory : Memory
  address : List Byte → Word

namespace Literals

def Stored (literals : Literals) (text : List Byte) : Prop :=
  literals.address text ≠ 0 ∧ CString.Holds literals.memory (literals.address text) text

end Literals

namespace Output

/-- The literal of a call. -/
def text : Output → List Byte
  | .write text => text
  | .kprintf format _ => format

/-- `kprintf` on a format with as many bytes as its fuel allows for.  It does not read what its
sink changes, so the characters are handed to `serial::putc` when it is done. -/
def printFormat (device : Device) (memory : Memory) (terminal : Terminal) (format : Word)
    (slots : List Word) (length : ℕ) : Except PrintFault Terminal :=
  match Print.kprintf memory ⟨terminal.outputSink, []⟩ format slots (length + 1) with
  | .done scan => .ok { terminal with port := putAll device terminal.port scan.console.sent }
  | .stuck fault _ => .error fault
  | .next _ => .error .endless

def run (device : Device) (literals : Literals) (terminal : Terminal) :
    Output → Except PrintFault Terminal
  | .write text =>
    match Serial.write device terminal.port literals.memory (literals.address text) with
    | .error fault => .error fault
    | .ok port => .ok { terminal with port := port }
  | .kprintf format slots =>
    match CString.text literals.memory (literals.address format) with
    | none => .error .endless
    | some text =>
      printFormat device literals.memory terminal (literals.address format) slots text.length

/-- One call after the other. -/
def runAll (device : Device) (literals : Literals) (terminal : Terminal)
    (outputs : List Output) : Except PrintFault Terminal :=
  outputs.foldlM (run device literals) terminal

end Output

/-! ## Formats with their slots -/

/-- What the items of a format print for the slots. -/
def renderSlots (memory : Memory) : List Item → List Word → List Byte
  | [], _ => []
  | item :: items, slots =>
    item.rendering memory (slots.headD 0) ++ renderSlots memory items (slots.drop item.arity)

/-- A format that ends after an item and finds a slot for each item that asks for one. -/
def Complete (format : List Byte) (slots : List Word) : Prop :=
  (parse format).2 = .complete ∧ arities (parse format).1 ≤ slots.length

instance (format : List Byte) (slots : List Word) : Decidable (Complete format slots) :=
  inferInstanceAs (Decidable (_ ∧ _))

section Slots

variable {memory : Memory} {format : Word} {s : Scan}

/-- The items are printed one after the other. -/
theorem scan_slots {items : List Item} {rest : List Byte} (hzero : ∃ address, memory address = 0)
    (hitems : ∀ item ∈ items, item.WellFormed)
    (hahead : Ahead memory format s (items.flatMap Item.text ++ rest))
    (hargs : arities items ≤ s.args.length) :
    ∃ later, Loop.iterate (Scan.body memory format) items.length s = .next later ∧
      later.console = emitAll s.console (renderSlots memory items s.args) ∧
      Ahead memory format later rest := by
  induction items generalizing s with
  | nil => exact ⟨s, rfl, rfl, hahead⟩
  | cons item items ih =>
    rw [List.forall_mem_cons] at hitems
    rw [List.flatMap_cons, List.append_assoc] at hahead
    have harity : item.arity + arities items ≤ s.args.length := hargs
    obtain ⟨middle, hnext, hpassed⟩ := body_item hzero hitems.1 hahead.left (by omega)
    have hslots : arities items ≤ middle.args.length := by
      rw [hpassed.args_eq, List.length_drop]
      omega
    obtain ⟨later, hiterate, hconsole, haheadLater⟩ :=
      ih hitems.2 (hahead.right hpassed.offset_eq) hslots
    refine ⟨later, ?_, ?_, haheadLater⟩
    · rw [List.length_cons, Loop.iterate, hnext]
      exact hiterate
    · rw [hconsole, hpassed.console_eq, hpassed.args_eq, renderSlots, emitAll_append]

/-- Items are not shorter than their texts. -/
theorem length_le_flatMap_text (items : List Item) :
    items.length ≤ (items.flatMap Item.text).length := by
  induction items with
  | nil => exact le_rfl
  | cons item items ih =>
    have hpos : 1 ≤ item.text.length := by
      rcases item with c | ⟨_ | _, c⟩ <;> simp [Item.text]
    rw [List.flatMap_cons, List.length_append, List.length_cons]
    omega

/-- `kprintf` on a complete format. -/
theorem kprintf_slots {text : List Byte} {slots : List Word} (hformat : format ≠ 0)
    (hholds : CString.Holds memory format text) (hcomplete : Complete text slots)
    (console : Console) :
    ∃ last, Print.kprintf memory console format slots (text.length + 1) = .done last ∧
      last.console = emitAll console (renderSlots memory (parse text).1 slots) := by
  have htext : (parse text).1.flatMap Item.text = text := by
    have hparts := parse_text text
    rwa [hcomplete.1, Ending.text, List.append_nil] at hparts
  have hahead : Ahead memory format (startScan console slots)
      ((parse text).1.flatMap Item.text ++ [0]) := by
    rw [htext]
    exact ahead_of_holds hholds rfl
  obtain ⟨later, hiterate, hconsole, hend⟩ := scan_slots ⟨_, hholds.terminated⟩
    (parse_wellFormed hholds.nonzero) hahead hcomplete.2
  have hlength := length_le_flatMap_text (parse text).1
  rw [htext] at hlength
  obtain ⟨rest, hrest⟩ := Nat.exists_eq_add_of_le hlength
  refine ⟨later.look, ?_, hconsole⟩
  rw [Print.kprintf, if_neg hformat, hrest, Nat.add_assoc, Loop.iterate_add_of_next hiterate,
    Loop.iterate, body_end hend]

end Slots

/-! ## Calls -/

namespace Output

/-- What a call prints. -/
def printed (memory : Memory) : Output → List Byte
  | .write text => text
  | .kprintf format slots => renderSlots memory (parse format).1 slots

/-- The call is complete: `kprintf` finds all it asks for. -/
def Complete : Output → Prop
  | .write _ => True
  | .kprintf format slots => Kernel.Complete format slots

instance : (output : Output) → Decidable output.Complete
  | .write _ => isTrue trivial
  | .kprintf format slots => inferInstanceAs (Decidable (Kernel.Complete format slots))

section Calls

variable (device : Device) {literals : Literals} {terminal : Terminal}

theorem run_complete {output : Output} (hsink : terminal.outputSink ≠ 0)
    (hstored : literals.Stored output.text) (hcomplete : output.Complete) :
    run device literals terminal output =
      .ok { terminal with
        port := putAll device terminal.port (output.printed literals.memory) } := by
  obtain ⟨haddress, hholds⟩ := hstored
  cases output with
  | write text =>
    simp only [Output.text] at haddress hholds
    simp only [run, Serial.write, haddress, if_false, hholds.text_eq, printed]
  | kprintf format slots =>
    simp only [Output.text] at haddress hholds
    obtain ⟨last, hlast, hconsole⟩ :=
      kprintf_slots haddress hholds hcomplete ⟨terminal.outputSink, []⟩
    have hsent : last.console.sent = renderSlots literals.memory (parse format).1 slots := by
      rw [hconsole, emitAll_of_sink hsink, List.nil_append]
    simp only [run, hholds.text_eq, printFormat, hlast, hsent, printed]

/-- **Printing.** Complete calls do not fail and hand their texts to the serial port in order. -/
theorem runAll_complete {outputs : List Output} (hsink : terminal.outputSink ≠ 0)
    (hstored : ∀ output ∈ outputs, literals.Stored output.text)
    (hcomplete : ∀ output ∈ outputs, output.Complete) :
    runAll device literals terminal outputs =
      .ok { terminal with
        port := putAll device terminal.port
          (outputs.flatMap (Output.printed literals.memory)) } := by
  induction outputs generalizing terminal with
  | nil => rfl
  | cons output outputs ih =>
    rw [List.forall_mem_cons] at hstored hcomplete
    rw [runAll, List.foldlM_cons, run_complete device hsink hstored.1 hcomplete.1]
    change runAll device literals _ outputs = _
    refine (ih ?_ hstored.2 hcomplete.2).trans ?_
    · exact hsink
    simp only [putAll, List.flatMap_cons, List.foldl_append]

/-- On a port that works the texts appear on the line. -/
theorem runAll_speaks {device : Device} {start : Uart} {outputs : List Output}
    (hready : Ready device) (hspeaking : Speaking start terminal.port)
    (hsink : terminal.outputSink ≠ 0)
    (hstored : ∀ output ∈ outputs, literals.Stored output.text)
    (hcomplete : ∀ output ∈ outputs, output.Complete) :
    ∃ later, runAll device literals terminal outputs = .ok later ∧
      later.outputSink = terminal.outputSink ∧
      Says start terminal.port later.port
        ((outputs.flatMap (Output.printed literals.memory)).flatMap lineEnding) :=
  ⟨_, runAll_complete device hsink hstored hcomplete, rfl,
    says_putAll_ready hready hspeaking.initialized hspeaking.connected _⟩

end Calls

end Output

/-! ## A pool of literals -/

/-- The texts one after the other, each with its terminator. -/
def pool (texts : List (List Byte)) : List Byte :=
  texts.flatMap (· ++ [0])

/-- Where a text begins in the pool. -/
def offsetIn : List (List Byte) → List Byte → ℕ
  | [], _ => 0
  | first :: texts, text => if first = text then 0 else first.length + 1 + offsetIn texts text

/-- An image whose literals are the given texts. -/
def literalsOf (texts : List (List Byte)) : Literals where
  memory := memoryOf (pool texts)
  address := fun text ↦ 0x1000 + BitVec.ofNat 64 (offsetIn texts text)

section Pool

variable {texts : List (List Byte)} {text : List Byte}

theorem length_pool (texts : List (List Byte)) :
    (pool texts).length = (texts.map fun text ↦ text.length + 1).sum := by
  rw [pool, List.length_flatMap]
  refine congrArg List.sum (List.map_congr_left fun text _ ↦ ?_)
  rw [List.length_append, List.length_singleton]

theorem pool_split (h : text ∈ texts) :
    ∃ before after, pool texts = before ++ (text ++ 0 :: after) ∧
      before.length = offsetIn texts text := by
  induction texts with
  | nil => cases h
  | cons first texts ih =>
    rw [offsetIn]
    split_ifs with hfirst
    · subst hfirst
      exact ⟨[], pool texts, by simp [pool], rfl⟩
    · obtain ⟨before, after, hpool, hlength⟩ :=
        ih ((List.mem_cons.mp h).resolve_left fun hequal ↦ hfirst hequal.symm)
      refine ⟨first ++ [0] ++ before, after, ?_, ?_⟩
      · rw [List.append_assoc, ← hpool]
        rfl
      · rw [List.length_append, List.length_append, hlength]
        rfl

theorem stored_literalsOf (h : text ∈ texts) (hnonzero : ∀ byte ∈ text, byte ≠ 0)
    (hlength : (pool texts).length < 2 ^ 64 - 0x1000) : (literalsOf texts).Stored text := by
  obtain ⟨before, after, hpool, hbefore⟩ := pool_split h
  have hsize : (pool texts).length = before.length + (text.length + (after.length + 1)) := by
    rw [hpool, List.length_append, List.length_append, List.length_cons]
  have hbyte (offset : ℕ) (hoffset : offset ≤ text.length) :
      CString.byteAt (literalsOf texts).memory ((literalsOf texts).address text) offset =
        (text ++ 0 :: after).getD offset 0 := by
    have hdistance : (0x1000 + BitVec.ofNat 64 (offsetIn texts text) + BitVec.ofNat 64 offset -
        (0x1000 : Word)).toNat = before.length + offset := by
      rw [BitVec.add_assoc, add_sub_cancel_left, ← BitVec.ofNat_add, BitVec.toNat_ofNat, ← hbefore]
      exact Nat.mod_eq_of_lt (by omega)
    simp only [CString.byteAt, literalsOf, memoryOf, hdistance]
    rw [hpool, List.getD_eq_getElem?_getD, List.getElem?_append_right (Nat.le_add_right _ _),
      Nat.add_sub_cancel_left, List.getD_eq_getElem?_getD]
  refine ⟨fun hnull ↦ ?_, fun offset hoffset ↦ ?_, hnonzero, ?_⟩
  · have hvalue := congrArg BitVec.toNat hnull
    have hstart : (0x1000 : Word).toNat = 0x1000 := rfl
    have hzero : (0 : Word).toNat = 0 := rfl
    simp only [literalsOf, BitVec.toNat_add, BitVec.toNat_ofNat, ← hbefore, hstart, hzero] at hvalue
    omega
  · rw [hbyte offset hoffset.le, List.getD_eq_getElem?_getD, List.getElem?_append_left hoffset,
      List.getElem?_eq_getElem hoffset]
    rfl
  · rw [hbyte _ le_rfl, List.getD_eq_getElem?_getD, List.getElem?_append_right le_rfl,
      Nat.sub_self]
    rfl

end Pool

end WaterBuffalo.Kernel
