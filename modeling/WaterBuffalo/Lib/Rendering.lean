import WaterBuffalo.Lib.Format

/-!
# What `kprintf` prints

The reference: arguments with their types, and for each item of a format the characters it should
print.  `kprintf` is handed slots instead, and reads the text of a string out of memory.  For every
sequence of items and every list of arguments of the types they ask for, it prints the reference
renderings in order and takes one argument for each item that asks for one.
-/

namespace WaterBuffalo.Print

/-! ## Arguments -/

/-- An argument and its type.  A string is its text, or nothing for a null pointer. -/
inductive Argument where
  | int (value : BitVec 32)
  | long (value : BitVec 64)
  | unsignedInt (value : BitVec 32)
  | unsignedLong (value : BitVec 64)
  | string (text : Option (List Byte))
  | pointer (value : Word)
  deriving DecidableEq, Repr

namespace Argument

/-- The slot carries the argument.  The upper half of a slot with a 32-bit argument is open. -/
def PassedIn (memory : Memory) : Argument → Word → Prop
  | .int value, slot => slot.setWidth 32 = value
  | .long value, slot => slot = value
  | .unsignedInt value, slot => slot.setWidth 32 = value
  | .unsignedLong value, slot => slot = value
  | .string none, slot => slot = 0
  | .string (some text), slot => slot ≠ 0 ∧ CString.Holds memory slot text
  | .pointer value, slot => slot = value

/-- The argument has the type the conversion asks for; before a conversion of one size the length
modifier is ignored. -/
inductive Fits : Bool → Conversion → Argument → Prop where
  | character {longModifier : Bool} (value : BitVec 32) : Fits longModifier .character (.int value)
  | string {longModifier : Bool} (text : Option (List Byte)) :
    Fits longModifier .string (.string text)
  | signed (value : BitVec 32) : Fits false .signed (.int value)
  | longSigned (value : BitVec 64) : Fits true .signed (.long value)
  | unsigned (value : BitVec 32) : Fits false .unsigned (.unsignedInt value)
  | longUnsigned (value : BitVec 64) : Fits true .unsigned (.unsignedLong value)
  | hexadecimal (value : BitVec 32) : Fits false .hexadecimal (.unsignedInt value)
  | longHexadecimal (value : BitVec 64) : Fits true .hexadecimal (.unsignedLong value)
  | pointer {longModifier : Bool} (value : Word) : Fits longModifier .pointer (.pointer value)

/-- The reference rendering of an argument. -/
def reference : Conversion → Argument → List Byte
  | .character, .int value => [value.setWidth 8]
  | .string, .string none => nullText
  | .string, .string (some text) => text
  | .signed, .int value => signedNumeral value.toInt
  | .signed, .long value => signedNumeral value.toInt
  | .unsigned, .unsignedInt value => numeral 10 value.toNat
  | .unsigned, .unsignedLong value => numeral 10 value.toNat
  | .hexadecimal, .unsignedInt value => numeral 16 value.toNat
  | .hexadecimal, .unsignedLong value => numeral 16 value.toNat
  | .pointer, .pointer value => [ascii '0', ascii 'x'] ++ paddedHex value.toNat 16
  | _, _ => []

end Argument

/-! ## Formats -/

namespace Item

/-- The reference rendering of an item: `%%` is one `%`, an unknown directive stands for itself. -/
def reference (arguments : List Argument) : Item → List Byte
  | .literal c => [c]
  | .directive longModifier c =>
    match conversionOf c with
    | .percent => [ascii '%']
    | .unknown => (Item.directive longModifier c).text
    | conversion =>
      match arguments with
      | [] => []
      | argument :: _ => argument.reference conversion

/-- The first argument is of the type the item asks for, if it takes one. -/
def Accepts (arguments : List Argument) : Item → Prop
  | .literal _ => True
  | .directive longModifier c =>
    (Item.directive longModifier c).arity = 0 ∨
      ∃ argument ∈ arguments.head?, Argument.Fits longModifier (conversionOf c) argument

end Item

/-- The reference rendering of a sequence of items.  Each takes its arguments off the list. -/
def render : List Item → List Argument → List Byte
  | [], _ => []
  | item :: items, arguments =>
    item.reference arguments ++ render items (arguments.drop item.arity)

/-- The arguments have the types the items ask for, in order. -/
def Matching : List Item → List Argument → Prop
  | [], _ => True
  | item :: items, arguments =>
    item.Accepts arguments ∧ Matching items (arguments.drop item.arity)

/-- How many arguments a sequence of items takes. -/
def arities (items : List Item) : ℕ :=
  (items.map Item.arity).sum

/-! ## One item -/

theorem emitAll_of_sink {console : Console} (h : console.outputSink ≠ 0) (bytes : List Byte) :
    emitAll console bytes = { console with sent := console.sent ++ bytes } := by
  induction bytes generalizing console with
  | nil => rw [emitAll_nil, List.append_nil]
  | cons byte bytes ih =>
    have hemit : emit console byte = { console with sent := console.sent ++ [byte] } := if_pos h
    have hsink : (emit console byte).outputSink ≠ 0 := by
      rw [hemit]
      exact h
    rw [emitAll_cons, ih hsink, hemit, List.append_assoc]
    rfl

section Item

variable {memory : Memory} {longModifier : Bool} {c : Byte} {argument : Argument}

theorem arity_of_fits (h : Argument.Fits longModifier (conversionOf c) argument) :
    (Item.directive longModifier c).arity = 1 := by
  rw [Item.arity]
  generalize conversionOf c = conversion at h
  cases h <;> rfl

/-- Printing a slot prints the argument it carries. -/
theorem rendering_of_passedIn {slot : Word}
    (hfits : Argument.Fits longModifier (conversionOf c) argument)
    (hpassed : argument.PassedIn memory slot) :
    (Item.directive longModifier c).rendering memory slot =
      argument.reference (conversionOf c) := by
  rw [Item.rendering]
  generalize conversionOf c = conversion at hfits
  cases hfits with
  | character value =>
    obtain rfl : slot.setWidth 32 = value := hpassed
    rfl
  | string text =>
    cases text with
    | none =>
      obtain rfl : slot = 0 := hpassed
      rfl
    | some text =>
      obtain ⟨hnonnull, hholds⟩ : slot ≠ 0 ∧ CString.Holds memory slot text := hpassed
      simp only [if_neg hnonnull, hholds.text_eq]
      rfl
  | signed value =>
    obtain rfl : slot.setWidth 32 = value := hpassed
    rfl
  | longSigned value =>
    obtain rfl : slot = value := hpassed
    rfl
  | unsigned value =>
    obtain rfl : slot.setWidth 32 = value := hpassed
    rfl
  | longUnsigned value =>
    obtain rfl : slot = value := hpassed
    rfl
  | hexadecimal value =>
    obtain rfl : slot.setWidth 32 = value := hpassed
    rfl
  | longHexadecimal value =>
    obtain rfl : slot = value := hpassed
    rfl
  | pointer value =>
    obtain rfl : slot = value := hpassed
    rfl

theorem reference_of_fits (h : Argument.Fits longModifier (conversionOf c) argument)
    (arguments : List Argument) :
    (Item.directive longModifier c).reference (argument :: arguments) =
      argument.reference (conversionOf c) := by
  rw [Item.reference]
  generalize conversionOf c = conversion at h
  cases h <;> rfl

/-- An item without an argument prints the same whatever is passed. -/
theorem rendering_of_arity_zero (h : (Item.directive longModifier c).arity = 0) (slot : Word)
    (arguments : List Argument) :
    (Item.directive longModifier c).rendering memory slot =
      (Item.directive longModifier c).reference arguments := by
  rw [Item.rendering, Item.reference]
  rw [Item.arity] at h
  cases hconversion : conversionOf c with
  | percent => rfl
  | unknown => cases longModifier <;> rfl
  | _ =>
    rw [hconversion] at h
    cases h

/-- What the loop prints for an item is its reference rendering. -/
theorem rendering_eq_reference {item : Item} {arguments : List Argument} {slots : List Word}
    (haccepts : item.Accepts arguments)
    (hpassed : List.Forall₂ (Argument.PassedIn memory) arguments slots) :
    item.arity ≤ slots.length ∧
      item.rendering memory (slots.headD 0) = item.reference arguments := by
  cases item with
  | literal c => exact ⟨Nat.zero_le _, rfl⟩
  | directive longModifier c =>
    rcases haccepts with hzero | ⟨argument, hargument, hfits⟩
    · exact ⟨hzero ▸ Nat.zero_le _, rendering_of_arity_zero hzero _ _⟩
    · cases hpassed with
      | nil => cases hargument
      | cons hslot hrest =>
        obtain rfl := Option.some.inj hargument
        rw [arity_of_fits hfits, reference_of_fits hfits]
        exact ⟨Nat.succ_le_succ (Nat.zero_le _), rendering_of_passedIn hfits hslot⟩

end Item

/-! ## The whole format -/

section Whole

variable {memory : Memory} {format : Word} {s : Scan}

/-- After the first `items` of a format the loop has printed them, has taken their arguments and
stands before the next. -/
theorem scan_items {items : List Item} {text : List Byte} {arguments : List Argument}
    (hzero : ∃ address, memory address = 0) (hitems : ∀ item ∈ items, item.WellFormed)
    (hahead : Ahead memory format s (items.flatMap Item.text ++ text))
    (hmatching : Matching items arguments)
    (hpassed : List.Forall₂ (Argument.PassedIn memory) arguments s.args) :
    ∃ later, Loop.iterate (Scan.body memory format) items.length s = .next later ∧
      later.console = emitAll s.console (render items arguments) ∧
      later.args = s.args.drop (arities items) ∧ Ahead memory format later text := by
  induction items generalizing s arguments with
  | nil => exact ⟨s, rfl, rfl, rfl, hahead⟩
  | cons item items ih =>
    rw [List.forall_mem_cons] at hitems
    rw [List.flatMap_cons, List.append_assoc] at hahead
    obtain ⟨haccepts, hrest⟩ := hmatching
    obtain ⟨harity, hrendering⟩ := rendering_eq_reference haccepts hpassed
    obtain ⟨middle, hnext, hitem⟩ := body_item hzero hitems.1 hahead.left harity
    have hpassedRest : List.Forall₂ (Argument.PassedIn memory) (arguments.drop item.arity)
        middle.args := by
      rw [hitem.args_eq]
      exact List.forall₂_drop _ hpassed
    obtain ⟨later, hiterate, hconsole, hargs, haheadLater⟩ :=
      ih hitems.2 (hahead.right hitem.offset_eq) hrest hpassedRest
    refine ⟨later, ?_, ?_, ?_, haheadLater⟩
    · rw [List.length_cons, Loop.iterate, hnext]
      exact hiterate
    · rw [hconsole, hitem.console_eq, hrendering, render, emitAll_append]
    · rw [hargs, hitem.args_eq, List.drop_drop]
      rfl

/-- The end of the format leaves the loop. -/
theorem body_end (hahead : Ahead memory format s [0]) : s.body memory format = .done s.look := by
  have hcurrent : s.look.current memory format = 0 := (ahead_cons.mp hahead).1
  rw [Scan.body]
  simp only [hcurrent, if_true]

end Whole

theorem Matching.left {first second : List Item} {arguments : List Argument}
    (h : Matching (first ++ second) arguments) : Matching first arguments := by
  induction first generalizing arguments with
  | nil => trivial
  | cons item first ih => exact ⟨h.1, ih h.2⟩

/-- **`kprintf` renders its format language.** For every sequence of items and every list of
arguments of the types they ask for, it ends after one iteration for each item and one for the
terminator.  After any number of items it has sent exactly their reference renderings, in order,
and has taken exactly one argument for each of them that asks for one. -/
theorem kprintf_renders {memory : Memory} {format : Word} {items : List Item}
    (hformat : format ≠ 0) (hitems : ∀ item ∈ items, item.WellFormed)
    (hholds : CString.Holds memory format (items.flatMap Item.text)) (console : Console)
    {arguments : List Argument} (hmatching : Matching items arguments) {slots : List Word}
    (hpassed : List.Forall₂ (Argument.PassedIn memory) arguments slots) :
    (∀ first second, items = first ++ second →
      ∃ later, kprintf memory console format slots first.length = .next later ∧
        later.console = emitAll console (render first arguments) ∧
        later.args = slots.drop (arities first)) ∧
    ∃ last, (∀ count, items.length < count →
        kprintf memory console format slots count = .done last) ∧
      last.console = emitAll console (render items arguments) ∧
      last.args = slots.drop (arities items) ∧
      (console.outputSink ≠ 0 →
        last.console.sent = console.sent ++ render items arguments) := by
  have hzero : ∃ address, memory address = 0 := ⟨_, hholds.terminated⟩
  have hahead : Ahead memory format (startScan console slots) (items.flatMap Item.text ++ [0]) :=
    ahead_of_holds hholds rfl
  have hloop (count : ℕ) : kprintf memory console format slots count =
      Loop.iterate (Scan.body memory format) count (startScan console slots) := if_neg hformat
  constructor
  · rintro first second rfl
    rw [List.flatMap_append, List.append_assoc] at hahead
    obtain ⟨later, hiterate, hconsole, hargs, -⟩ := scan_items hzero
      (fun item hitem ↦ hitems item (List.mem_append_left _ hitem)) hahead hmatching.left hpassed
    exact ⟨later, (hloop _).trans hiterate, hconsole, hargs⟩
  · obtain ⟨later, hiterate, hconsole, hargs, hend⟩ :=
      scan_items hzero hitems hahead hmatching hpassed
    refine ⟨later.look, ?_, hconsole, hargs, ?_⟩
    · intro count hcount
      obtain ⟨rest, rfl⟩ := Nat.exists_eq_add_of_lt hcount
      rw [hloop, Nat.add_assoc, Loop.iterate_add_of_next hiterate, Loop.iterate, body_end hend]
    · intro hsink
      calc
        later.look.console.sent = (emitAll console (render items arguments)).sent :=
          congrArg Console.sent hconsole
        _ = console.sent ++ render items arguments := by
          rw [emitAll_of_sink hsink]

/-- The format `%c%l?:%p%ls`, with a letter in a slot whose upper half is not zero, a pointer, a
null string, and one argument too many. -/
theorem kprintf_renders_mixed :
    let items : List Item := [.directive false (ascii 'c'), .directive true (ascii '?'),
      .literal (ascii ':'), .directive false (ascii 'p'), .directive true (ascii 's')]
    ∃ last, (∀ count, 5 < count → kprintf (memoryOf (items.flatMap Item.text)) ⟨1, []⟩ 0x1000
        [0xABCDEF0000000041, 0x2000, 0, 7] count = .done last) ∧
      last.console.sent = ['A', '%', 'l', '?', ':', '0', 'x', '0', '0', '0', '0', '0', '0', '0',
        '0', '0', '0', '0', '0', '2', '0', '0', '0', '(', 'n', 'u', 'l', 'l', ')'].map ascii ∧
      last.args = [7] := by
  intro items
  have hmatching : Matching items [.int 0x41, .pointer 0x2000, .string none, .long 7] :=
    ⟨Or.inr ⟨_, rfl, .character _⟩, Or.inl rfl, trivial, Or.inr ⟨_, rfl, .pointer _⟩,
      Or.inr ⟨_, rfl, .string _⟩, trivial⟩
  have hpassed : List.Forall₂ (Argument.PassedIn (memoryOf (items.flatMap Item.text)))
      [.int 0x41, .pointer 0x2000, .string none, .long 7] [0xABCDEF0000000041, 0x2000, 0, 7] :=
    .cons (by decide : (0xABCDEF0000000041 : Word).setWidth 32 = 0x41)
      (.cons rfl (.cons rfl (.cons rfl .nil)))
  obtain ⟨-, last, hdone, -, hargs, hsent⟩ := kprintf_renders (by decide : (0x1000 : Word) ≠ 0)
    (by decide : ∀ item ∈ items, item.WellFormed)
    (holds_memoryOf (by decide) (by decide)) ⟨1, []⟩ hmatching hpassed
  exact ⟨last, hdone, (hsent (by decide)).trans (by decide), hargs.trans rfl⟩

end WaterBuffalo.Print
