import WaterBuffalo.Lib.Numerals

/-!
# The format language of `kprintf`

A format is a sequence of literal characters and directives, and possibly an incomplete directive
at its end.  Each iteration of the scanning loop passes one item.  An end inside a directive is
noticed after the `%`, but not after the length modifier: there the loop takes the terminator for
an unknown directive, sends it to the sink and goes on behind it.
-/

namespace WaterBuffalo.Print

/-! ## Items -/

/-- A complete piece of a format. -/
inductive Item where
  | literal (c : Byte)
  | directive (longModifier : Bool) (c : Byte)
  deriving DecidableEq, Repr

/-- How a format ends: after an item, after a `%`, or after a `%` with its length modifier. -/
inductive Ending where
  | complete
  | percent
  | longModifier
  deriving DecidableEq, Repr

namespace Item

/-- The characters of the item. -/
def text : Item → List Byte
  | .literal c => [c]
  | .directive false c => [ascii '%', c]
  | .directive true c => [ascii '%', ascii 'l', c]

/-- The loop reads the characters as this item. -/
def WellFormed : Item → Prop
  | .literal c => c ≠ 0 ∧ c ≠ ascii '%'
  | .directive longModifier c => c ≠ 0 ∧ (longModifier = false → c ≠ ascii 'l')

instance : (item : Item) → Decidable item.WellFormed
  | .literal _ => inferInstanceAs (Decidable (_ ∧ _))
  | .directive _ _ => inferInstanceAs (Decidable (_ ∧ _))

/-- How many arguments the item takes. -/
def arity : Item → ℕ
  | .literal _ => 0
  | .directive _ c =>
    match conversionOf c with
    | .percent => 0
    | .unknown => 0
    | _ => 1

/-- What is printed for the item, with `slot` as its argument if it takes one. -/
def rendering (memory : Memory) (slot : Word) : Item → List Byte
  | .literal c => [c]
  | .directive longModifier c =>
    match conversionOf c with
    | .percent => [ascii '%']
    | .character => [(slot.setWidth 32).setWidth 8]
    | .string => if slot = 0 then nullText else (CString.text memory slot).getD []
    | .signed =>
      signedNumeral (if longModifier then slot.toInt else (slot.setWidth 32).toInt)
    | .unsigned =>
      numeral 10 (if longModifier then slot.toNat else (slot.setWidth 32).toNat)
    | .hexadecimal =>
      numeral 16 (if longModifier then slot.toNat else (slot.setWidth 32).toNat)
    | .pointer => [ascii '0', ascii 'x'] ++ paddedHex slot.toNat 16
    | .unknown =>
      if longModifier then [ascii '%', ascii 'l', c] else [ascii '%', c]

end Item

/-- The characters of an incomplete directive. -/
def Ending.text : Ending → List Byte
  | .complete => []
  | .percent => [ascii '%']
  | .longModifier => [ascii '%', ascii 'l']

/-- The items of a format and how it ends. -/
def parse : List Byte → List Item × Ending
  | [] => ([], .complete)
  | c :: rest =>
    if c = ascii '%' then
      match rest with
      | [] => ([], .percent)
      | d :: rest =>
        if d = ascii 'l' then
          match rest with
          | [] => ([], .longModifier)
          | e :: rest => (.directive true e :: (parse rest).1, (parse rest).2)
        else (.directive false d :: (parse rest).1, (parse rest).2)
    else (.literal c :: (parse rest).1, (parse rest).2)

/-- How many arguments a format asks for. -/
def requiredArguments (text : List Byte) : ℕ :=
  ((parse text).1.map Item.arity).sum

/-- The parts put together again. -/
theorem parse_text (text : List Byte) :
    (parse text).1.flatMap Item.text ++ (parse text).2.text = text := by
  fun_induction parse text with
  | case1 => rfl
  | case2 => rfl
  | case3 => rfl
  | case4 e rest ih =>
    rw [List.flatMap_cons, List.append_assoc, ih]
    rfl
  | case5 d rest hd ih =>
    rw [List.flatMap_cons, List.append_assoc, ih]
    rfl
  | case6 c rest hc ih =>
    rw [List.flatMap_cons, List.append_assoc, ih]
    rfl

theorem parse_wellFormed {text : List Byte} (hnonzero : ∀ byte ∈ text, byte ≠ 0) :
    ∀ item ∈ (parse text).1, item.WellFormed := by
  fun_induction parse text with
  | case1 => simp
  | case2 => simp
  | case3 => simp
  | case4 e rest ih =>
    simp only [List.forall_mem_cons] at hnonzero ⊢
    exact ⟨⟨hnonzero.2.2.1, fun hlong ↦ by cases hlong⟩, ih hnonzero.2.2.2⟩
  | case5 d rest hd ih =>
    simp only [List.forall_mem_cons] at hnonzero ⊢
    exact ⟨⟨hnonzero.2.1, fun _ ↦ hd⟩, ih hnonzero.2.2⟩
  | case6 c rest hc ih =>
    simp only [List.forall_mem_cons] at hnonzero ⊢
    exact ⟨⟨hnonzero.1, hc⟩, ih hnonzero.2⟩

/-! ## One item -/

/-- What passing one item does. -/
structure Passed (memory : Memory) (item : Item) (s later : Scan) : Prop where
  console_eq : later.console = emitAll s.console (item.rendering memory (s.args.headD 0))
  args_eq : later.args = s.args.drop item.arity
  offset_eq : later.offset = s.offset + item.text.length
  reads : ∀ offset ∈ later.reads, offset ∈ s.reads ∨ offset < later.offset
  copied : ∀ offset ∈ later.copied, offset ∈ s.copied ∨ offset < later.offset

section Switch

variable {memory : Memory} {format : Word} {s : Scan}

/-- What the switch does for an item: it prints it and leaves `format` where it is. -/
structure Converted (memory : Memory) (item : Item) (s later : Scan) : Prop where
  console_eq : later.console = emitAll s.console (item.rendering memory (s.args.headD 0))
  args_eq : later.args = s.args.drop item.arity
  offset_eq : later.offset = s.offset
  reads_eq : later.reads = s.reads
  copied : later.copied = s.copied ∨ later.copied = s.offset :: s.copied

/-- Printing one argument succeeds if there is one. -/
theorem consume_spec {item : Item} {print : Console → Word → Except PrintFault Console}
    (hprint : ∀ console slot,
      print console slot = .ok (emitAll console (item.rendering memory slot)))
    (harity : item.arity = 1) (hargs : item.arity ≤ s.args.length) :
    ∃ later, s.consume print = .ok later ∧ Converted memory item s later := by
  rw [harity] at hargs
  cases hlist : s.args with
  | nil =>
    rw [hlist] at hargs
    cases hargs
  | cons slot args =>
    refine ⟨{ s with console := emitAll s.console (item.rendering memory slot), args := args },
      ?_, ?_, ?_, rfl, rfl, Or.inl rfl⟩
    · simp only [Scan.consume, hlist, hprint]
    · rw [hlist]
      rfl
    · rw [hlist, harity]
      rfl

theorem emitString_eq (hzero : ∃ address, memory address = 0) (console : Console) (str : Word) :
    emitString memory console str = .ok (emitAll console
      (if str = 0 then nullText else (CString.text memory str).getD [])) := by
  obtain ⟨address, haddress⟩ := hzero
  obtain ⟨text, htext⟩ := CString.exists_text haddress str
  rw [emitString, htext]
  split_ifs <;> rfl

theorem convert_spec (hzero : ∃ address, memory address = 0) {longModifier : Bool} {c : Byte}
    (hcurrent : s.current memory format = c)
    (hargs : (Item.directive longModifier c).arity ≤ s.args.length) :
    ∃ later, s.convert memory format longModifier = .ok later ∧
      Converted memory (.directive longModifier c) s later := by
  have hextend : ∀ slot : Word, ((slot.setWidth 32).setWidth 64).toNat =
      (slot.setWidth 32).toNat := by
    intro slot
    rw [BitVec.toNat_setWidth]
    exact Nat.mod_eq_of_lt (lt_trans (BitVec.isLt _) (by decide))
  rw [Scan.convert, hcurrent]
  cases hconversion : conversionOf c with
  | percent =>
    refine ⟨s.put (ascii '%'), rfl, ?_, ?_, rfl, rfl, Or.inl rfl⟩
    · rw [Item.rendering, hconversion]
      rfl
    · rw [Item.arity, hconversion]
      rfl
  | character =>
    refine consume_spec (fun console slot ↦ ?_) (by rw [Item.arity, hconversion]) hargs
    rw [Item.rendering, hconversion]
    rfl
  | string =>
    refine consume_spec (fun console slot ↦ ?_) (by rw [Item.arity, hconversion]) hargs
    rw [Item.rendering, hconversion]
    exact emitString_eq hzero console slot
  | signed =>
    refine consume_spec (fun console slot ↦ ?_) (by rw [Item.arity, hconversion]) hargs
    rw [Item.rendering, hconversion]
    cases longModifier with
    | false => exact emitSignedOf_eq (by decide) (by decide) console (slot.setWidth 32)
    | true => exact emitSignedOf_eq (by decide) (by decide) console slot
  | unsigned =>
    refine consume_spec (fun console slot ↦ ?_) (by rw [Item.arity, hconversion]) hargs
    rw [Item.rendering, hconversion]
    cases longModifier with
    | false =>
      have hnumber := emitUnsigned_eq console ((slot.setWidth 32).setWidth 64)
      rw [hextend] at hnumber
      exact hnumber
    | true => exact emitUnsigned_eq console slot
  | hexadecimal =>
    refine consume_spec (fun console slot ↦ ?_) (by rw [Item.arity, hconversion]) hargs
    rw [Item.rendering, hconversion]
    cases longModifier with
    | false =>
      have hnumber := emitHex_eq console ((slot.setWidth 32).setWidth 64)
      rw [hextend] at hnumber
      exact hnumber
    | true => exact emitHex_eq console slot
  | pointer =>
    refine consume_spec (fun console slot ↦ ?_) (by rw [Item.arity, hconversion]) hargs
    rw [Item.rendering, hconversion]
    exact emitPointer_eq console slot
  | unknown =>
    cases longModifier with
    | false =>
      refine ⟨(s.put (ascii '%')).copy memory format, rfl, ?_, ?_, rfl, rfl, Or.inr rfl⟩
      · rw [Item.rendering, hconversion, ← hcurrent]
        rfl
      · rw [Item.arity, hconversion]
        rfl
    | true =>
      refine ⟨((s.put (ascii '%')).put (ascii 'l')).copy memory format, rfl, ?_, ?_, rfl, rfl,
        Or.inr rfl⟩
      · rw [Item.rendering, hconversion, ← hcurrent]
        rfl
      · rw [Item.arity, hconversion]
        rfl

/-- The characters stand where the loop is. -/
def Ahead (memory : Memory) (format : Word) (s : Scan) (text : List Byte) : Prop :=
  ∀ index (h : index < text.length), CString.byteAt memory format (s.offset + index) = text[index]

theorem ahead_cons {c : Byte} {text : List Byte} :
    Ahead memory format s (c :: text) ↔
      s.current memory format = c ∧ Ahead memory format s.advance text := by
  constructor
  · intro h
    refine ⟨h 0 (Nat.zero_lt_succ _), fun index hindex ↦ ?_⟩
    have hlater := h (index + 1) (Nat.succ_lt_succ hindex)
    rw [List.getElem_cons_succ] at hlater
    rw [← hlater, Scan.advance, Nat.add_right_comm, Nat.add_assoc]
  · rintro ⟨hfirst, hrest⟩ index hindex
    cases index with
    | zero => exact hfirst
    | succ index =>
      rw [List.getElem_cons_succ, ← hrest index (Nat.lt_of_succ_lt_succ hindex), Scan.advance,
        Nat.add_right_comm, Nat.add_assoc]

theorem Ahead.left {first second : List Byte} (h : Ahead memory format s (first ++ second)) :
    Ahead memory format s first := by
  intro index hindex
  rw [h index (by rw [List.length_append]; omega), List.getElem_append_left hindex]

theorem Ahead.right {first second : List Byte} {later : Scan}
    (h : Ahead memory format s (first ++ second))
    (hoffset : later.offset = s.offset + first.length) : Ahead memory format later second := by
  intro index hindex
  rw [hoffset, Nat.add_assoc, h (first.length + index) (by rw [List.length_append]; omega),
    List.getElem_append_right (by omega)]
  simp only [Nat.add_sub_cancel_left]

/-- The state in which the loop reaches the switch. -/
def atSwitch (s : Scan) (longModifier : Bool) : Scan :=
  if longModifier then s.look.advance.look.advance.look else s.look.advance.look.look

/-- The iteration of a directive, up to the switch. -/
theorem body_of_directive {longModifier : Bool} (hpercent : s.current memory format = ascii '%')
    (hnonzero : s.advance.current memory format ≠ 0)
    (hlong : longModifier = decide (s.advance.current memory format = ascii 'l')) :
    s.body memory format =
      match (atSwitch s longModifier).convert memory format longModifier with
      | .error fault => .stuck fault (atSwitch s longModifier)
      | .ok later => .next later.advance := by
  have hstart : s.look.current memory format = ascii '%' := hpercent
  have hnext : s.look.advance.look.current memory format = s.advance.current memory format := rfl
  rw [Scan.body]
  simp only [hstart, hnext]
  rw [if_neg (by decide), if_neg (by decide), if_neg hnonzero, ← hlong]
  cases longModifier <;> rfl

/-- Up to the switch the loop only reads. -/
theorem atSwitch_spec (s : Scan) (longModifier : Bool) (c : Byte) :
    (atSwitch s longModifier).console = s.console ∧ (atSwitch s longModifier).args = s.args ∧
      (atSwitch s longModifier).copied = s.copied ∧
      (atSwitch s longModifier).offset + 1 =
        s.offset + (Item.directive longModifier c).text.length ∧
      ∀ offset ∈ (atSwitch s longModifier).reads,
        offset ∈ s.reads ∨ offset < (atSwitch s longModifier).offset + 1 := by
  cases longModifier with
  | false =>
    refine ⟨rfl, rfl, rfl, rfl, ?_⟩
    change ∀ offset ∈ (s.offset + 1) :: (s.offset + 1) :: s.offset :: s.reads,
      offset ∈ s.reads ∨ offset < s.offset + 1 + 1
    simp only [List.forall_mem_cons]
    exact ⟨Or.inr (by omega), Or.inr (by omega), Or.inr (by omega),
      fun offset hoffset ↦ Or.inl hoffset⟩
  | true =>
    refine ⟨rfl, rfl, rfl, rfl, ?_⟩
    change ∀ offset ∈ (s.offset + 1 + 1) :: (s.offset + 1) :: s.offset :: s.reads,
      offset ∈ s.reads ∨ offset < s.offset + 1 + 1 + 1
    simp only [List.forall_mem_cons]
    exact ⟨Or.inr (by omega), Or.inr (by omega), Or.inr (by omega),
      fun offset hoffset ↦ Or.inl hoffset⟩

theorem passed_of_converted {longModifier : Bool} {c : Byte} {later : Scan}
    (h : Converted memory (.directive longModifier c) (atSwitch s longModifier) later) :
    Passed memory (.directive longModifier c) s later.advance := by
  obtain ⟨hconsole, hargs, hcopied, hoffset, hreads⟩ := atSwitch_spec s longModifier c
  have hplace : later.advance.offset = (atSwitch s longModifier).offset + 1 :=
    congrArg (· + 1) h.offset_eq
  refine ⟨?_, ?_, hplace.trans hoffset, ?_, ?_⟩
  · rw [Scan.advance, h.console_eq, hconsole, hargs]
  · rw [Scan.advance, h.args_eq, hargs]
  · rw [hplace, Scan.advance, h.reads_eq]
    exact hreads
  · rw [hplace]
    intro offset hmem
    rw [Scan.advance] at hmem
    rcases h.copied with hsame | hnew
    · rw [hsame, hcopied] at hmem
      exact Or.inl hmem
    · rw [hnew, hcopied, List.mem_cons] at hmem
      rcases hmem with rfl | hold
      · exact Or.inr (Nat.lt_succ_self _)
      · exact Or.inl hold

theorem ahead_of_holds {text : List Byte} (h : CString.Holds memory format text)
    (hstart : s.offset = 0) : Ahead memory format s (text ++ [0]) := by
  intro index hindex
  rw [hstart, Nat.zero_add]
  rw [List.length_append, List.length_singleton] at hindex
  by_cases hinside : index < text.length
  · rw [h.bytes index hinside, List.getElem_append_left hinside]
  · have hlast : index = text.length := by omega
    subst hlast
    rw [h.terminated, List.getElem_concat_length rfl]

/-- **One iteration passes one item.** -/
theorem body_item (hzero : ∃ address, memory address = 0) {item : Item} (hitem : item.WellFormed)
    (hahead : Ahead memory format s item.text) (hargs : item.arity ≤ s.args.length) :
    ∃ later, s.body memory format = .next later ∧ Passed memory item s later := by
  cases item with
  | literal c =>
    obtain ⟨hnonzero, hliteral⟩ := hitem
    have hcurrent : s.look.current memory format = c := (ahead_cons.mp hahead).1
    refine ⟨(s.look.copy memory format).advance, ?_, ?_, rfl, rfl, ?_, ?_⟩
    · rw [Scan.body]
      simp only [hcurrent]
      rw [if_neg hnonzero, if_pos hliteral]
    · simp only [Scan.advance, Scan.copy, hcurrent]
      rfl
    · simp only [Scan.advance, Scan.copy, Scan.look, List.forall_mem_cons]
      exact ⟨Or.inr (by omega), fun offset hoffset ↦ Or.inl hoffset⟩
    · simp only [Scan.advance, Scan.copy, Scan.look, List.forall_mem_cons]
      exact ⟨Or.inr (by omega), fun offset hoffset ↦ Or.inl hoffset⟩
  | directive longModifier c =>
    obtain ⟨hnonzero, hplain⟩ := hitem
    have hswitch : s.current memory format = ascii '%' ∧
        s.advance.current memory format ≠ 0 ∧
        longModifier = decide (s.advance.current memory format = ascii 'l') ∧
        (atSwitch s longModifier).current memory format = c := by
      cases longModifier with
      | false =>
        obtain ⟨hpercent, hrest⟩ := ahead_cons.mp hahead
        have hcurrent := (ahead_cons.mp hrest).1
        refine ⟨hpercent, hcurrent ▸ hnonzero, ?_, hcurrent⟩
        rw [hcurrent, decide_eq_false (hplain rfl)]
      | true =>
        obtain ⟨hpercent, hrest⟩ := ahead_cons.mp hahead
        obtain ⟨hlong, hlast⟩ := ahead_cons.mp hrest
        refine ⟨hpercent, hlong ▸ (by decide), ?_, (ahead_cons.mp hlast).1⟩
        rw [hlong, decide_eq_true rfl]
    obtain ⟨hpercent, hinside, hlong, hcurrent⟩ := hswitch
    have hargsSwitch : (Item.directive longModifier c).arity ≤
        (atSwitch s longModifier).args.length := by
      cases longModifier <;> exact hargs
    obtain ⟨later, hconvert, hconverted⟩ := convert_spec hzero hcurrent hargsSwitch
    refine ⟨later.advance, ?_, passed_of_converted hconverted⟩
    rw [body_of_directive hpercent hinside hlong, hconvert]

end Switch

/-! ## The whole format -/

/-- Only the format and its terminator at offset `length` were read, and the terminator was not
sent to the sink. -/
def Inside (length : ℕ) (s : Scan) : Prop :=
  (∀ offset ∈ s.reads, offset ≤ length) ∧ length ∉ s.copied

section Whole

variable {memory : Memory} {format : Word} {s later : Scan} {length : ℕ}

theorem Inside.passed {item : Item} (h : Inside length s) (hpassed : Passed memory item s later)
    (hoffset : later.offset ≤ length) : Inside length later := by
  refine ⟨fun offset hread ↦ ?_, fun hcopied ↦ ?_⟩
  · rcases hpassed.reads offset hread with hold | hnew
    · exact h.1 offset hold
    · omega
  · rcases hpassed.copied length hcopied with hold | hnew
    · exact h.2 hold
    · omega

theorem Inside.look (h : Inside length s) (hoffset : s.offset ≤ length) : Inside length s.look := by
  refine ⟨?_, h.2⟩
  rw [Scan.look, List.forall_mem_cons]
  exact ⟨hoffset, h.1⟩

/-- The end of the format, and an end right after a `%`, leave the loop. -/
theorem scan_ending {ending : Ending} (hending : ending ≠ .longModifier)
    (hahead : Ahead memory format s (ending.text ++ [0])) (hinside : Inside length s)
    (hlength : s.offset + ending.text.length = length) :
    ∃ last, s.body memory format = .done last ∧ Inside length last := by
  cases ending with
  | complete =>
    have hcurrent : s.look.current memory format = 0 := (ahead_cons.mp hahead).1
    refine ⟨s.look, ?_, hinside.look hlength.le⟩
    rw [Scan.body]
    simp only [hcurrent, if_true]
  | percent =>
    obtain ⟨hpercent, hrest⟩ := ahead_cons.mp hahead
    have hstart : s.look.current memory format = ascii '%' := hpercent
    have hcurrent : s.look.advance.look.current memory format = 0 := (ahead_cons.mp hrest).1
    have hshort : s.offset + 1 = length := hlength
    have hfirst : Inside length s.look.advance := hinside.look (by omega)
    refine ⟨s.look.advance.look, ?_, hfirst.look hlength.le⟩
    rw [Scan.body]
    simp only [hstart, hcurrent]
    rw [if_neg (by decide), if_neg (by decide), if_pos trivial]
  | longModifier => exact absurd rfl hending

/-- Behind the length modifier the terminator is sent to the sink. -/
theorem scan_terminator (hahead : Ahead memory format s (Ending.longModifier.text ++ [0])) :
    ∃ later, s.body memory format = .next later ∧ s.offset + 2 ∈ later.copied := by
  obtain ⟨hpercent, hrest⟩ := ahead_cons.mp hahead
  obtain ⟨hlong, hlast⟩ := ahead_cons.mp hrest
  have hcurrent : (atSwitch s true).current memory format = 0 := (ahead_cons.mp hlast).1
  have hunknown : conversionOf 0 = .unknown := by decide
  refine ⟨((((atSwitch s true).put (ascii '%')).put (ascii 'l')).copy memory format).advance, ?_,
    List.mem_cons_self⟩
  have hlongModifier : true = decide (s.advance.current memory format = ascii 'l') := by
    rw [hlong, decide_eq_true rfl]
  rw [body_of_directive hpercent (hlong ▸ (by decide)) hlongModifier, Scan.convert, hcurrent,
    hunknown]
  rfl

/-- Passing the first of several items leaves the others ahead. -/
theorem body_first {item : Item} {items : List Item} {rest : List Byte}
    (hzero : ∃ address, memory address = 0)
    (hitems : ∀ other ∈ item :: items, other.WellFormed)
    (hahead : Ahead memory format s ((item :: items).flatMap Item.text ++ rest))
    (hargs : ((item :: items).map Item.arity).sum ≤ s.args.length) :
    ∃ later, s.body memory format = .next later ∧ Passed memory item s later ∧
      Ahead memory format later (items.flatMap Item.text ++ rest) ∧
      (items.map Item.arity).sum ≤ later.args.length := by
  rw [List.forall_mem_cons] at hitems
  rw [List.flatMap_cons, List.append_assoc] at hahead
  rw [List.map_cons, List.sum_cons] at hargs
  obtain ⟨later, hnext, hpassed⟩ := body_item hzero hitems.1 hahead.left (by omega)
  refine ⟨later, hnext, hpassed, hahead.right hpassed.offset_eq, ?_⟩
  rw [hpassed.args_eq, List.length_drop]
  omega

theorem scan_inside {items : List Item} {ending : Ending} (hending : ending ≠ .longModifier)
    (hzero : ∃ address, memory address = 0) (hitems : ∀ item ∈ items, item.WellFormed)
    (hahead : Ahead memory format s (items.flatMap Item.text ++ (ending.text ++ [0])))
    (hargs : (items.map Item.arity).sum ≤ s.args.length) (hinside : Inside length s)
    (hlength : s.offset + (items.flatMap Item.text ++ ending.text).length = length) :
    Loop.Terminates (Scan.body memory format) s ∧
      Loop.Always (Scan.body memory format) (Inside length) s := by
  induction items generalizing s with
  | nil =>
    obtain ⟨last, hdone, hlast⟩ := scan_ending hending hahead hinside hlength
    exact ⟨Loop.terminates_of_done hdone, Loop.always_of_done hdone hinside hlast⟩
  | cons item items ih =>
    obtain ⟨later, hnext, hpassed, hrest, hargsRest⟩ := body_first hzero hitems hahead hargs
    rw [List.flatMap_cons, List.append_assoc, List.length_append] at hlength
    have hplace := hpassed.offset_eq
    obtain ⟨hterminates, halways⟩ := ih (List.forall_mem_cons.mp hitems).2 hrest hargsRest
      (hinside.passed hpassed (by omega)) (by omega)
    exact ⟨Loop.terminates_of_next hnext hterminates, Loop.always_of_next hnext hinside halways⟩

/-- A format that ends in a length modifier is left: the loop reaches its terminator as a
directive. -/
theorem scan_outside {items : List Item} (hzero : ∃ address, memory address = 0)
    (hitems : ∀ item ∈ items, item.WellFormed)
    (hahead : Ahead memory format s
      (items.flatMap Item.text ++ (Ending.longModifier.text ++ [0])))
    (hargs : (items.map Item.arity).sum ≤ s.args.length)
    (hlength : s.offset + (items.flatMap Item.text ++ Ending.longModifier.text).length = length) :
    ¬ Loop.Always (Scan.body memory format) (fun s ↦ length ∉ s.copied) s := by
  induction items generalizing s with
  | nil =>
    intro halways
    obtain ⟨later, hnext, hcopied⟩ := scan_terminator hahead
    have hlast : length ∉ later.copied := (halways.next hnext) 0
    rw [← hlength] at hlast
    exact hlast hcopied
  | cons item items ih =>
    intro halways
    obtain ⟨later, hnext, hpassed, hrest, hargsRest⟩ := body_first hzero hitems hahead hargs
    rw [List.flatMap_cons, List.append_assoc, List.length_append] at hlength
    have hplace := hpassed.offset_eq
    exact ih (List.forall_mem_cons.mp hitems).2 hrest hargsRest (by omega) (halways.next hnext)

end Whole

/-- `kprintf` ends, reads nothing behind the terminator of its format, and does not send the
terminator to the sink. -/
structure StaysInside (memory : Memory) (console : Console) (format : Word) (args : List Word)
    (length : ℕ) : Prop where
  terminates : ∃ count last, kprintf memory console format args count = .done last
  reads : ∀ count, ∀ offset ∈ (kprintf memory console format args count).state.reads,
    offset ≤ length
  copied : ∀ count, length ∉ (kprintf memory console format args count).state.copied

/-- **When `kprintf` stays inside its format.** For every format, whatever follows it in memory,
and every list of arguments long enough for it: exactly if the format, read directive by directive,
does not end in a bare length modifier. -/
theorem kprintf_stays_inside {memory : Memory} {format : Word} {text : List Byte}
    (hformat : format ≠ 0) (hholds : CString.Holds memory format text) (console : Console)
    {args : List Word} (hargs : requiredArguments text ≤ args.length) :
    StaysInside memory console format args text.length ↔ (parse text).2 ≠ .longModifier := by
  have hzero : ∃ address, memory address = 0 := ⟨_, hholds.terminated⟩
  have hitems := parse_wellFormed hholds.nonzero
  have htext := parse_text text
  have hahead : Ahead memory format (startScan console args)
      ((parse text).1.flatMap Item.text ++ ((parse text).2.text ++ [0])) := by
    rw [← List.append_assoc, htext]
    exact ahead_of_holds hholds rfl
  have hlength : (startScan console args).offset +
      ((parse text).1.flatMap Item.text ++ (parse text).2.text).length = text.length := by
    rw [htext]
    exact Nat.zero_add _
  have hloop : ∀ count, kprintf memory console format args count =
      Loop.iterate (Scan.body memory format) count (startScan console args) :=
    fun count ↦ if_neg hformat
  constructor
  · intro hstays hending
    rw [hending] at hahead hlength
    apply scan_outside hzero hitems hahead hargs hlength
    intro count
    rw [← hloop]
    exact hstays.copied count
  · intro hending
    have hinside : Inside text.length (startScan console args) := by
      simp [Inside, startScan]
    obtain ⟨⟨count, last, hlast⟩, halways⟩ :=
      scan_inside hending hzero hitems hahead hargs hinside hlength
    refine ⟨⟨count, last, (hloop count).trans hlast⟩, fun count ↦ ?_, fun count ↦ ?_⟩
    · rw [hloop]
      exact (halways count).1
    · rw [hloop]
      exact (halways count).2

/-- A memory that holds the bytes at `0x1000` and zeros elsewhere. -/
def memoryOf (bytes : List Byte) : Memory :=
  fun address ↦ bytes.getD (address - 0x1000).toNat 0

theorem holds_memoryOf {text : List Byte} (hnonzero : ∀ byte ∈ text, byte ≠ 0)
    (hlength : text.length < 2 ^ 64) : CString.Holds (memoryOf text) 0x1000 text := by
  have hbyte : ∀ offset ≤ text.length,
      CString.byteAt (memoryOf text) 0x1000 offset = text.getD offset 0 := by
    intro offset hoffset
    have hdistance : ((0x1000 : Word) + BitVec.ofNat 64 offset - 0x1000).toNat = offset := by
      rw [add_sub_cancel_left, BitVec.toNat_ofNat]
      exact Nat.mod_eq_of_lt (by omega)
    rw [CString.byteAt, memoryOf, hdistance]
  refine ⟨fun offset hoffset ↦ ?_, hnonzero, ?_⟩
  · rw [hbyte offset hoffset.le, List.getD_eq_getElem?_getD, List.getElem?_eq_getElem hoffset]
    rfl
  · rw [hbyte _ le_rfl, List.getD_eq_getElem?_getD, List.getElem?_eq_none le_rfl]
    rfl

theorem kprintf_stays_inside_decimal :
    StaysInside (memoryOf [ascii '%', ascii 'd', ascii '%']) ⟨1, []⟩ 0x1000 [42] 3 ↔
      (parse [ascii '%', ascii 'd', ascii '%']).2 ≠ .longModifier :=
  kprintf_stays_inside (by decide) (holds_memoryOf (by decide) (by decide)) ⟨1, []⟩ (by decide)

/-- A format that is a bare length modifier: its terminator is sent to the sink. -/
theorem kprintf_sends_terminator :
    ¬ ∀ (memory : Memory) (console : Console) (format : Word) (text : List Byte)
      (args : List Word), format ≠ 0 → CString.Holds memory format text →
      requiredArguments text ≤ args.length →
      StaysInside memory console format args text.length := by
  intro hall
  have hstays := hall (memoryOf [ascii '%', ascii 'l']) ⟨1, []⟩ 0x1000 [ascii '%', ascii 'l'] []
    (by decide) (holds_memoryOf (by decide) (by decide)) (by decide)
  exact hstays.copied 1 (by decide)

end WaterBuffalo.Print
