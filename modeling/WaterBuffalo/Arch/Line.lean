import WaterBuffalo.Arch.Serial
import Mathlib.Data.List.Induction

/-!
# What reaches the line

The serial driver against every device.  The driver may be called in any order; whatever the device
answers, every call ends after a bounded number of port accesses, the registers of the 16550 hold
what the last accepted `init` put there, and only characters that were asked for reach the line.
A byte that the device does not take in time is lost, so the line carries a part of the text; it
carries all of it if the device always becomes ready.
-/

namespace WaterBuffalo.Serial

open Print (ascii)

/-! ## Polling -/

/-- The history after `count` more reads of the line status. -/
def polled (device : Device) (accesses : List Access) : ℕ → List Access
  | 0 => accesses
  | count + 1 =>
    .read (reg .lineStatus) (device (polled device accesses count) (reg .lineStatus)) ::
      polled device accesses count

/-- The next read of the line status after `count` others shows one of the bits. -/
def Shows (device : Device) (mask : Byte) (accesses : List Access) (count : ℕ) : Prop :=
  device (polled device accesses count) (reg .lineStatus) &&& mask ≠ 0

section Polling

variable {device : Device} {mask : Byte} {accesses : List Access} {timeout : ℕ}

theorem polled_succ (device : Device) (accesses : List Access) (count : ℕ) :
    polled device (polled device accesses 1) count = polled device accesses (count + 1) := by
  induction count with
  | zero => rfl
  | succ count ih =>
    rw [polled, ih]
    rfl

theorem length_polled (device : Device) (accesses : List Access) (count : ℕ) :
    (polled device accesses count).length = accesses.length + count := by
  induction count with
  | zero => rfl
  | succ count ih => rw [polled, List.length_cons, ih, Nat.add_assoc]

theorem shows_succ (count : ℕ) :
    Shows device mask (polled device accesses 1) count ↔
      Shows device mask accesses (count + 1) := by
  rw [Shows, Shows, polled_succ]

/-- `wait_for` stops at the first status that shows the bit. -/
theorem waitFor_of_shows {count : ℕ} {s : Driver} (hcount : count < timeout)
    (hshows : Shows device mask s.accesses count)
    (hfirst : ∀ earlier < count, ¬ Shows device mask s.accesses earlier) :
    waitFor device mask timeout s =
      (true, { s with accesses := polled device s.accesses (count + 1) }) := by
  induction timeout generalizing count s with
  | zero => cases hcount
  | succ timeout ih =>
    rw [waitFor]
    cases count with
    | zero => exact if_pos hshows
    | succ count =>
      have hzero : ¬ device s.accesses (reg .lineStatus) &&& mask ≠ 0 :=
        hfirst 0 (Nat.succ_pos count)
      have hrest := ih (s := { s with accesses := polled device s.accesses 1 })
        (Nat.lt_of_succ_lt_succ hcount) ((shows_succ count).mpr hshows)
        (fun earlier hearlier ↦ by
          rw [shows_succ]
          exact hfirst (earlier + 1) (Nat.succ_lt_succ hearlier))
      rw [polled_succ] at hrest
      exact (if_neg hzero).trans hrest

/-- `wait_for` gives up after `timeout` reads. -/
theorem waitFor_of_never {s : Driver}
    (hnever : ∀ count < timeout, ¬ Shows device mask s.accesses count) :
    waitFor device mask timeout s =
      (false, { s with accesses := polled device s.accesses timeout }) := by
  induction timeout generalizing s with
  | zero => rfl
  | succ timeout ih =>
    rw [waitFor]
    have hzero : ¬ device s.accesses (reg .lineStatus) &&& mask ≠ 0 := hnever 0 (Nat.succ_pos _)
    have hrest := ih (s := { s with accesses := polled device s.accesses 1 })
      (fun count hcount ↦ by
        rw [shows_succ]
        exact hnever (count + 1) (Nat.succ_lt_succ hcount))
    rw [polled_succ] at hrest
    exact (if_neg hzero).trans hrest

/-- However it ends, `wait_for` has done nothing but read the line status. -/
theorem waitFor_snd (device : Device) (mask : Byte) (timeout : ℕ) (s : Driver) :
    ∃ count ≤ timeout, (waitFor device mask timeout s).2 =
      { s with accesses := polled device s.accesses count } := by
  induction timeout generalizing s with
  | zero => exact ⟨0, le_rfl, rfl⟩
  | succ timeout ih =>
    rw [waitFor]
    by_cases hshows : device s.accesses (reg .lineStatus) &&& mask ≠ 0
    · exact ⟨1, Nat.succ_le_succ (Nat.zero_le _), congrArg Prod.snd (if_pos hshows)⟩
    · obtain ⟨count, hcount, hrest⟩ := ih { s with accesses := polled device s.accesses 1 }
      rw [polled_succ] at hrest
      exact ⟨count + 1, Nat.succ_le_succ hcount, (congrArg Prod.snd (if_neg hshows)).trans hrest⟩

theorem exists_waitFor_eq {s : Driver}
    (h : ∃ count < timeout, Shows device mask s.accesses count) :
    ∃ count < timeout, Shows device mask s.accesses count ∧ waitFor device mask timeout s =
      (true, { s with accesses := polled device s.accesses (count + 1) }) := by
  classical
  obtain ⟨count, hcount, hshows⟩ := h
  have hexists : ∃ count, Shows device mask s.accesses count := ⟨count, hshows⟩
  have hfirst : Nat.find hexists < timeout := lt_of_le_of_lt (Nat.find_min' hexists hshows) hcount
  exact ⟨Nat.find hexists, hfirst, Nat.find_spec hexists,
    waitFor_of_shows hfirst (Nat.find_spec hexists) fun _ ↦ Nat.find_min hexists⟩

/-- `wait_for` succeeds exactly if one of its reads shows the bit. -/
theorem waitFor_fst_iff (device : Device) (mask : Byte) (timeout : ℕ) (s : Driver) :
    (waitFor device mask timeout s).1 = true ↔
      ∃ count < timeout, Shows device mask s.accesses count := by
  constructor
  · intro hready
    by_contra hnever
    rw [waitFor_of_never fun count hcount hshows ↦ hnever ⟨count, hcount, hshows⟩] at hready
    cases hready
  · intro hexists
    obtain ⟨count, -, -, hwait⟩ := exists_waitFor_eq hexists
    rw [hwait]

end Polling

/-! ## The registers -/

namespace Uart

/-- The transmitter is connected to the line. -/
def Connected (uart : Uart) : Prop :=
  uart.dlab = false ∧ uart.loopback = false

theorem after_polled (start : Uart) (device : Device) (accesses : List Access) (count : ℕ) :
    start.after (polled device accesses count) = start.after accesses := by
  induction count with
  | zero => rfl
  | succ count ih => exact ih

theorem write_data {uart : Uart} (h : uart.Connected) (value : Byte) :
    uart.write (reg .data) value = { uart with line := uart.line ++ [value] } := by
  have hport : reg .data = uartBase := rfl
  rw [write, if_pos hport, h.1, h.2]
  rfl

theorem write_interruptEnable (uart : Uart) (value : Byte) :
    uart.write (reg .interruptEnable) value =
      if uart.dlab then { uart with divisorHigh := value }
      else { uart with interruptEnable := value } := rfl

theorem write_lineControl (uart : Uart) (value : Byte) :
    uart.write (reg .lineControl) value = { uart with lineControl := value } := rfl

theorem write_fifoControl (uart : Uart) (value : Byte) :
    uart.write (reg .fifoControl) value = { uart with fifoControl := value } := rfl

theorem write_divisorLow {uart : Uart} (h : uart.dlab = true) (value : Byte) :
    uart.write (reg .divisorLow) value = { uart with divisorLow := value } := by
  have hport : reg .divisorLow = uartBase := rfl
  rw [write, if_pos hport, h]
  rfl

theorem write_divisorHigh {uart : Uart} (h : uart.dlab = true) (value : Byte) :
    uart.write (reg .divisorHigh) value = { uart with divisorHigh := value } := by
  have hport : reg .divisorHigh = reg .interruptEnable := rfl
  rw [hport, write_interruptEnable, h]
  rfl

theorem write_modemControl (uart : Uart) (value : Byte) :
    uart.write (reg .modemControl) value = { uart with modemControl := value } := rfl

/-- In loopback mode nothing reaches the line. -/
theorem write_data_of_loopback {uart : Uart} (hdlab : uart.dlab = false)
    (hloopback : uart.loopback = true) (value : Byte) : uart.write (reg .data) value = uart := by
  have hport : reg .data = uartBase := rfl
  rw [write, if_pos hport, hdlab, hloopback]
  rfl

end Uart

/-- What a call adds to the line, and that it changes nothing else. -/
structure Says (start : Uart) (s later : Driver) (text : List Byte) : Prop where
  initialized_eq : later.initialized = s.initialized
  uart_eq : start.after later.accesses =
    { start.after s.accesses with line := (start.after s.accesses).line ++ text }

section Saying

variable {start : Uart} {device : Device} {s middle later : Driver} {text more : List Byte}

theorem Says.refl (start : Uart) (s : Driver) : Says start s s [] :=
  ⟨rfl, by rw [List.append_nil]⟩

theorem Says.trans (hfirst : Says start s middle text) (hsecond : Says start middle later more) :
    Says start s later (text ++ more) := by
  refine ⟨hsecond.initialized_eq.trans hfirst.initialized_eq, ?_⟩
  rw [hsecond.uart_eq, hfirst.uart_eq, List.append_assoc]

theorem Says.connected (h : Says start s later text) (hs : (start.after s.accesses).Connected) :
    (start.after later.accesses).Connected := by
  rw [h.uart_eq]
  exact hs

theorem says_polled (start : Uart) (device : Device) (s : Driver) (count : ℕ) :
    Says start s { s with accesses := polled device s.accesses count } [] := by
  refine ⟨rfl, ?_⟩
  rw [List.append_nil]
  exact start.after_polled device s.accesses count

theorem says_waitFor (start : Uart) (device : Device) (mask : Byte) (timeout : ℕ) (s : Driver) :
    Says start s (waitFor device mask timeout s).2 [] := by
  obtain ⟨count, -, hpolled⟩ := waitFor_snd device mask timeout s
  rw [hpolled]
  exact says_polled start device s count

theorem says_write_data (hs : (start.after s.accesses).Connected) (value : Byte) :
    Says start s (writeReg s .data value) [value] :=
  ⟨rfl, Uart.write_data hs value⟩

/-- A character is sent, or lost if the transmitter never becomes ready. -/
theorem says_transmit (device : Device) (hs : (start.after s.accesses).Connected) (c : Byte) :
    Says start s (transmit device s c)
      (if (waitFor device lsrThre txTimeout s).1 then [c] else []) := by
  have hwait := says_waitFor start device lsrThre txTimeout s
  unfold transmit
  cases hready : (waitFor device lsrThre txTimeout s).1 with
  | false =>
    simp only [hready]
    exact hwait
  | true =>
    simp only [hready]
    exact hwait.trans (says_write_data (hwait.connected hs) c)

end Saying

/-! ## Characters -/

/-- The characters `putc` sends for one. -/
def lineEnding (c : Byte) : List Byte :=
  if c = ascii '\n' then [ascii '\r', c] else [c]

/-- The transmitter becomes ready before `putc` gives up. -/
def Ready (device : Device) : Prop :=
  ∀ accesses, ∃ count < txTimeout, Shows device lsrThre accesses count

section Characters

variable {start : Uart} {device : Device} {s : Driver}

/-- The recursion of the source. -/
theorem putc_eq (device : Device) (s : Driver) (c : Byte) :
    putc device s c =
      if !s.initialized then s
      else transmit device (if c = ascii '\n' then putc device s (ascii '\r') else s) c := by
  unfold putc
  cases hinitialized : s.initialized with
  | false => simp
  | true =>
    have hreturn : ¬ ascii '\r' = ascii '\n' := by decide
    simp only [Bool.not_true, Bool.false_eq_true, if_false, hreturn]

theorem putc_of_not_initialized (h : s.initialized = false) (c : Byte) : putc device s c = s := by
  rw [putc, h]
  rfl

theorem putc_of_initialized (h : s.initialized = true) (c : Byte) :
    putc device s c =
      transmit device (if c = ascii '\n' then transmit device s (ascii '\r') else s) c := by
  rw [putc, h]
  rfl

theorem putAll_of_not_initialized (h : s.initialized = false) (text : List Byte) :
    putAll device s text = s := by
  induction text with
  | nil => rfl
  | cons c text ih => rw [putAll, List.foldl_cons, putc_of_not_initialized h, ← putAll, ih]

theorem says_transmit_ready (hready : Ready device) (hs : (start.after s.accesses).Connected)
    (c : Byte) : Says start s (transmit device s c) [c] := by
  have hspoken := says_transmit device hs c
  rwa [(waitFor_fst_iff device lsrThre txTimeout s).mpr (hready s.accesses), if_pos rfl] at hspoken

/-- A ready device gets every character, with a carriage return before each line feed. -/
theorem says_putc_ready (hready : Ready device) (hinitialized : s.initialized = true)
    (hs : (start.after s.accesses).Connected) (c : Byte) :
    Says start s (putc device s c) (lineEnding c) := by
  rw [putc_of_initialized hinitialized, lineEnding]
  split_ifs with hfeed
  · have hreturn := says_transmit_ready hready hs (ascii '\r')
    exact hreturn.trans (says_transmit_ready hready (hreturn.connected hs) c)
  · exact says_transmit_ready hready hs c

theorem says_transmit_sublist (device : Device) (hs : (start.after s.accesses).Connected)
    (c : Byte) : ∃ sent, Says start s (transmit device s c) sent ∧ sent.Sublist [c] := by
  refine ⟨_, says_transmit device hs c, ?_⟩
  split
  · exact List.Sublist.refl _
  · exact List.nil_sublist _

theorem says_putc (device : Device) (hs : s.initialized = true → (start.after s.accesses).Connected)
    (c : Byte) : ∃ sent, Says start s (putc device s c) sent ∧ sent.Sublist (lineEnding c) := by
  cases hinitialized : s.initialized with
  | false =>
    rw [putc_of_not_initialized hinitialized]
    exact ⟨[], Says.refl start s, List.nil_sublist _⟩
  | true =>
    rw [putc_of_initialized hinitialized, lineEnding]
    split_ifs with hfeed
    · obtain ⟨first, hfirst, hfirstPart⟩ :=
        says_transmit_sublist device (hs hinitialized) (ascii '\r')
      obtain ⟨second, hsecond, hsecondPart⟩ :=
        says_transmit_sublist device (hfirst.connected (hs hinitialized)) c
      exact ⟨first ++ second, hfirst.trans hsecond, hfirstPart.append hsecondPart⟩
    · exact says_transmit_sublist device (hs hinitialized) c

theorem says_putAll_ready (hready : Ready device) (hinitialized : s.initialized = true)
    (hs : (start.after s.accesses).Connected) (text : List Byte) :
    Says start s (putAll device s text) (text.flatMap lineEnding) := by
  induction text generalizing s with
  | nil => exact Says.refl start s
  | cons c text ih =>
    have hfirst := says_putc_ready hready hinitialized hs c
    exact hfirst.trans
      (ih (hfirst.initialized_eq.trans hinitialized) (hfirst.connected hs))

theorem says_putAll (device : Device)
    (hs : s.initialized = true → (start.after s.accesses).Connected) (text : List Byte) :
    ∃ sent, Says start s (putAll device s text) sent ∧
      sent.Sublist (text.flatMap lineEnding) := by
  induction text generalizing s with
  | nil => exact ⟨[], Says.refl start s, List.Sublist.refl _⟩
  | cons c text ih =>
    obtain ⟨first, hfirst, hfirstPart⟩ := says_putc device hs c
    obtain ⟨rest, hrest, hrestPart⟩ := ih fun hinitialized ↦
      hfirst.connected (hs (hfirst.initialized_eq.symm.trans hinitialized))
    exact ⟨first ++ rest, hfirst.trans hrest, hfirstPart.append hrestPart⟩

theorem says_getc (start : Uart) (device : Device) (s : Driver) :
    Says start s (getc device s).2 [] := by
  unfold getc
  cases hinitialized : s.initialized with
  | false => exact Says.refl start s
  | true =>
    have hwait := says_waitFor start device lsrDr rxTimeout s
    cases harrived : (waitFor device lsrDr rxTimeout s).1 with
    | false =>
      simp only [harrived]
      exact hwait
    | true =>
      simp only [harrived]
      exact ⟨hwait.initialized_eq, hwait.uart_eq⟩

end Characters

/-! ## Initialization -/

/-- The baud rates with a divisor of 16 bits. -/
def Accepted (baud : BitVec 32) : Prop :=
  2 ≤ baud.toNat ∧ baud.toNat ≤ 115200

instance (baud : BitVec 32) : Decidable (Accepted baud) :=
  inferInstanceAs (Decidable (_ ∧ _))

/-- The registers after an accepted `init`. -/
structure Programmed (start : Uart) (baud : BitVec 32) (s : Driver) : Prop where
  divisor_eq : (start.after s.accesses).divisor = 115200 / baud.toNat
  lineControl_eq : (start.after s.accesses).lineControl = 0x03
  fifoControl_eq : (start.after s.accesses).fifoControl = 0xC7
  modemControl_eq : (start.after s.accesses).modemControl = if s.initialized then 0x0F else 0x00

section Initialization

variable {start : Uart} {device : Device} {s : Driver} {baud : BitVec 32}

theorem accepted_iff (baud : BitVec 32) :
    Accepted baud ↔ baud ≠ 0 ∧ ¬ (115200 / baud = 0 ∨ 0xFFFF < 115200 / baud) := by
  have hzero : baud = 0 ↔ baud.toNat = 0 := by
    rw [← BitVec.toNat_inj]
    rfl
  have hquotient : (115200 / baud : BitVec 32).toNat = 115200 / baud.toNat := BitVec.toNat_udiv
  rw [Accepted, ne_eq, hzero, ← BitVec.toNat_inj, BitVec.lt_def, hquotient]
  have hnone : (0 : BitVec 32).toNat = 0 := rfl
  have hmost : (0xFFFF : BitVec 32).toNat = 65535 := rfl
  rw [hnone, hmost]
  constructor
  · rintro ⟨hlow, hhigh⟩
    have hpositive : 0 < 115200 / baud.toNat := Nat.div_pos hhigh (by omega)
    have hsmall : 115200 / baud.toNat ≤ 115200 / 2 := Nat.div_le_div_left hlow (by decide)
    omega
  · rintro ⟨hnonzero, hdivisor⟩
    constructor
    · by_contra hlow
      have hone : baud.toNat = 1 := by omega
      rw [hone] at hdivisor
      omega
    · by_contra hhigh
      rw [Nat.div_eq_of_lt (by omega)] at hdivisor
      omega

theorem init_of_not_accepted (h : ¬ Accepted baud) : init device s baud = (false, s) := by
  rw [accepted_iff, not_and_or, not_not, not_not] at h
  unfold init
  rcases h with hzero | hdivisor
  · exact if_pos hzero
  · split_ifs
    · rfl
    · exact if_pos hdivisor

theorem init_of_accepted (h : Accepted baud) :
    init device s baud =
      selfTest device (configure { s with initialized := false } (115200 / baud)) := by
  obtain ⟨hzero, hdivisor⟩ := (accepted_iff baud).mp h
  unfold init
  rw [if_neg hzero]
  exact if_neg hdivisor

/-- With DLAB still set the first write of `init` goes to the divisor latch. -/
theorem uart_configure (start : Uart) (s : Driver) (divisor : BitVec 32) :
    start.after (configure s divisor).accesses =
      { interruptEnable :=
          if (start.after s.accesses).dlab then (start.after s.accesses).interruptEnable else 0x00
        divisorLow := (divisor &&& 0xFF).setWidth 8
        divisorHigh := ((divisor >>> 8) &&& 0xFF).setWidth 8
        fifoControl := 0xC7
        lineControl := 0x03
        modemControl := 0x03
        line := (start.after s.accesses).line } := by
  have hwrites : start.after (configure s divisor).accesses =
      (((((((start.after s.accesses).write (reg .interruptEnable) 0x00).write (reg .lineControl)
        lcrDlab).write (reg .divisorLow) ((divisor &&& 0xFF).setWidth 8)).write (reg .divisorHigh)
        (((divisor >>> 8) &&& 0xFF).setWidth 8)).write (reg .lineControl) 0x03).write
        (reg .fifoControl) 0xC7).write (reg .modemControl) 0x03 := rfl
  have hdlab : lcrDlab.getLsbD 7 = true := by decide
  rw [hwrites, Uart.write_interruptEnable, Uart.write_lineControl, Uart.write_divisorLow,
    Uart.write_divisorHigh, Uart.write_lineControl, Uart.write_fifoControl,
    Uart.write_modemControl]
  · split_ifs
    · rfl
    · rfl
  · exact hdlab
  · exact hdlab

/-- The state in which the self-test waits for its byte. -/
def testing (s : Driver) : Driver :=
  writeReg (writeReg s .modemControl 0x1E) .data loopbackTestByte

/-- The test byte stays off the line. -/
theorem uart_testing (hs : (start.after s.accesses).dlab = false) :
    start.after (testing s).accesses = { start.after s.accesses with modemControl := 0x1E } := by
  have hwrites : start.after (testing s).accesses =
      ((start.after s.accesses).write (reg .modemControl) 0x1E).write (reg .data)
        loopbackTestByte := rfl
  have hloopback : (0x1E : Byte).getLsbD 4 = true := by decide
  rw [hwrites, Uart.write_modemControl, Uart.write_data_of_loopback]
  · exact hs
  · exact hloopback

/-- The self-test passes if a byte arrives in time and is the right one. -/
theorem selfTest_eq (device : Device) (s : Driver) :
    selfTest device s =
      let waited := waitFor device lsrDr loopbackTimeout (testing s)
      if waited.1 = true ∧ device waited.2.accesses (reg .data) = loopbackTestByte then
        (true, { writeReg (readReg device waited.2 .data).2 .modemControl 0x0F with
          initialized := true })
      else if waited.1 = true then
        (false, writeReg (readReg device waited.2 .data).2 .modemControl 0x00)
      else (false, writeReg waited.2 .modemControl 0x00) := by
  have htesting : writeReg (writeReg s .modemControl 0x1E) .data loopbackTestByte = testing s := rfl
  simp only [selfTest, htesting]
  generalize waitFor device lsrDr loopbackTimeout (testing s) = waited
  obtain ⟨arrived, later⟩ := waited
  cases arrived with
  | false => rfl
  | true =>
    by_cases hbyte : device later.accesses (reg .data) = loopbackTestByte
    · simp [hbyte, readReg]
    · simp [hbyte, readReg]

/-- Whatever the device answers, the self-test leaves the loopback mode. -/
theorem selfTest_spec (start : Uart) (device : Device) (hs : (start.after s.accesses).dlab = false)
    (hinitialized : s.initialized = false) :
    start.after (selfTest device s).2.accesses =
        { start.after s.accesses with
          modemControl := if (selfTest device s).1 then 0x0F else 0x00 } ∧
      (selfTest device s).2.initialized = (selfTest device s).1 := by
  have hwait := says_waitFor start device lsrDr loopbackTimeout (testing s)
  have huart := hwait.uart_eq
  rw [List.append_nil, uart_testing hs] at huart
  have hflag := hwait.initialized_eq.trans hinitialized
  rw [selfTest_eq]
  generalize waitFor device lsrDr loopbackTimeout (testing s) = waited at huart hflag ⊢
  have hmodem (value : Byte) : (start.after waited.2.accesses).write (reg .modemControl) value =
      { start.after s.accesses with modemControl := value } := by
    rw [huart, Uart.write_modemControl]
  by_cases hpassed : waited.1 = true ∧ device waited.2.accesses (reg .data) = loopbackTestByte
  · simp only [if_pos hpassed]
    exact ⟨hmodem 0x0F, trivial⟩
  · simp only [if_neg hpassed]
    by_cases harrived : waited.1 = true
    · simp only [if_pos harrived]
      exact ⟨hmodem 0x00, hflag⟩
    · simp only [if_neg harrived]
      exact ⟨hmodem 0x00, hflag⟩

/-- The two halves of the divisor. -/
theorem toNat_divisor (divisor : BitVec 32) (h : divisor.toNat < 2 ^ 16) :
    (((divisor >>> 8) &&& 0xFF).setWidth 8).toNat * 256 +
      ((divisor &&& 0xFF).setWidth 8).toNat = divisor.toNat := by
  have hlow : ((divisor &&& 0xFF).setWidth 8).toNat = divisor.toNat % 256 := by
    rw [BitVec.toNat_setWidth, BitVec.toNat_and]
    have hmask : (0xFF : BitVec 32).toNat = 2 ^ 8 - 1 := rfl
    rw [hmask, Nat.and_two_pow_sub_one_eq_mod, Nat.mod_mod]
  have hhigh : (((divisor >>> 8) &&& 0xFF).setWidth 8).toNat = divisor.toNat / 256 := by
    rw [BitVec.toNat_setWidth, BitVec.toNat_and, BitVec.toNat_ushiftRight,
      Nat.shiftRight_eq_div_pow]
    have hmask : (0xFF : BitVec 32).toNat = 2 ^ 8 - 1 := rfl
    rw [hmask, Nat.and_two_pow_sub_one_eq_mod, Nat.mod_mod]
    omega
  rw [hlow, hhigh]
  omega

/-- Whatever the device answers, an accepted `init` programs the registers, puts nothing on the
line, and reports what it remembers. -/
theorem init_spec (start : Uart) (device : Device) (s : Driver) (h : Accepted baud) :
    Programmed start baud (init device s baud).2 ∧
      (start.after (init device s baud).2.accesses).line = (start.after s.accesses).line ∧
      ((start.after s.accesses).dlab = false →
        (start.after (init device s baud).2.accesses).interruptEnable = 0x00) ∧
      (init device s baud).2.initialized = (init device s baud).1 := by
  rw [init_of_accepted h]
  have hquotient : (115200 / baud : BitVec 32).toNat = 115200 / baud.toNat := BitVec.toNat_udiv
  have hsmall : (115200 / baud : BitVec 32).toNat < 2 ^ 16 := by
    rw [hquotient]
    have hle : 115200 / baud.toNat ≤ 115200 / 2 := Nat.div_le_div_left h.1 (by decide)
    omega
  have hconfigured := uart_configure start { s with initialized := false } (115200 / baud)
  set configured := configure { s with initialized := false } (115200 / baud) with hset
  have hdlab : (start.after configured.accesses).dlab = false := by
    rw [hconfigured]
    exact (by decide : (0x03 : Byte).getLsbD 7 = false)
  obtain ⟨huart, hflag⟩ := selfTest_spec start device hdlab rfl
  rw [hconfigured] at huart
  refine ⟨⟨?_, ?_, ?_, ?_⟩, ?_, ?_, hflag⟩
  · rw [huart, ← hquotient]
    exact toNat_divisor _ hsmall
  · rw [huart]
  · rw [huart]
  · rw [huart, hflag]
  · rw [huart]
  · intro hbefore
    rw [huart]
    exact if_neg (by rw [hbefore]; exact Bool.false_ne_true)

end Initialization

/-! ## Runs -/

namespace Call

/-- The characters a call asks for. -/
def text : Call → List Byte
  | .init _ => []
  | .putc c => [c]
  | .getc => []
  | .write text => text

/-- The baud rate of an `init` that gets past its checks. -/
def acceptedBaud : Call → Option (BitVec 32)
  | .init baud => if Accepted baud then some baud else none
  | _ => none

end Call

/-- The driver before its first call. -/
def Driver.start : Driver := ⟨false, []⟩

/-- What holds after a sequence of calls: without an accepted `init` no port was touched, and
after one the registers are as it left them. -/
structure Disciplined (start : Uart) (calls : List Call) (s : Driver) : Prop where
  untouched : calls.filterMap Call.acceptedBaud = [] → s = Driver.start
  programmed : ∀ baud ∈ (calls.filterMap Call.acceptedBaud).getLast?, Programmed start baud s
  interruptEnable_eq : start.dlab = false → calls.filterMap Call.acceptedBaud ≠ [] →
    (start.after s.accesses).interruptEnable = 0x00
  line_eq : ∃ sent, (start.after s.accesses).line = start.line ++ sent ∧
    sent.Sublist ((calls.flatMap Call.text).flatMap lineEnding)

section Runs

variable {start : Uart} {device : Device} {calls : List Call} {s : Driver}

theorem Programmed.connected {baud : BitVec 32} (h : Programmed start baud s) :
    (start.after s.accesses).Connected := by
  constructor
  · rw [Uart.dlab, h.lineControl_eq]
    decide
  · rw [Uart.loopback, h.modemControl_eq]
    cases s.initialized with
    | false => decide
    | true => decide

/-- Between calls the transmitter is connected whenever the driver would use it. -/
theorem Disciplined.connected (h : Disciplined start calls s) (hs : s.initialized = true) :
    (start.after s.accesses).Connected := by
  cases hlast : (calls.filterMap Call.acceptedBaud).getLast? with
  | none =>
    have huntouched := h.untouched (List.getLast?_eq_none_iff.mp hlast)
    rw [huntouched] at hs
    cases hs
  | some baud => exact (h.programmed baud hlast).connected

/-- A call that is no accepted `init` only adds to the line. -/
theorem Disciplined.speak (h : Disciplined start calls s) {call : Call} {later : Driver}
    (hcall : call.acceptedBaud = none) {sent : List Byte} (hspoken : Says start s later sent)
    (hsent : sent.Sublist (call.text.flatMap lineEnding))
    (hstart : s = Driver.start → later = Driver.start) :
    Disciplined start (calls ++ [call]) later := by
  have hsame : (calls ++ [call]).filterMap Call.acceptedBaud =
      calls.filterMap Call.acceptedBaud := by
    rw [List.filterMap_append, List.filterMap_cons_none hcall, List.filterMap_nil, List.append_nil]
  refine ⟨?_, ?_, ?_, ?_⟩
  · rw [hsame]
    exact fun hnone ↦ hstart (h.untouched hnone)
  · rw [hsame]
    intro baud hbaud
    have hprogrammed := h.programmed baud hbaud
    refine ⟨?_, ?_, ?_, ?_⟩
    · rw [hspoken.uart_eq]
      exact hprogrammed.divisor_eq
    · rw [hspoken.uart_eq]
      exact hprogrammed.lineControl_eq
    · rw [hspoken.uart_eq]
      exact hprogrammed.fifoControl_eq
    · rw [hspoken.uart_eq, hspoken.initialized_eq]
      exact hprogrammed.modemControl_eq
  · rw [hsame, hspoken.uart_eq]
    exact h.interruptEnable_eq
  · obtain ⟨before, hline, hbefore⟩ := h.line_eq
    refine ⟨before ++ sent, ?_, ?_⟩
    · rw [hspoken.uart_eq, hline, List.append_assoc]
    · rw [List.flatMap_append, List.flatMap_append, List.flatMap_singleton]
      exact hbefore.append hsent

theorem Disciplined.init (h : Disciplined start calls s) (device : Device) {baud : BitVec 32}
    (haccepted : Accepted baud) :
    Disciplined start (calls ++ [.init baud]) (init device s baud).2 := by
  obtain ⟨hprogrammed, hline, hinterrupt, -⟩ := init_spec start device s haccepted
  have hsome : (Call.init baud).acceptedBaud = some baud := if_pos haccepted
  have hbauds : (calls ++ [Call.init baud]).filterMap Call.acceptedBaud =
      calls.filterMap Call.acceptedBaud ++ [baud] := by
    rw [List.filterMap_append, List.filterMap_cons_some hsome, List.filterMap_nil]
  refine ⟨?_, ?_, ?_, ?_⟩
  · rw [hbauds]
    intro hnone
    exact absurd hnone (List.append_ne_nil_of_right_ne_nil _ (List.cons_ne_nil _ _))
  · rw [hbauds, List.getLast?_concat]
    rintro _ ⟨⟩
    exact hprogrammed
  · intro hdlab _
    apply hinterrupt
    cases hlast : (calls.filterMap Call.acceptedBaud).getLast? with
    | none =>
      rw [h.untouched (List.getLast?_eq_none_iff.mp hlast)]
      exact hdlab
    | some earlier => exact (h.programmed earlier hlast).connected.1
  · obtain ⟨before, hbefore, hpart⟩ := h.line_eq
    refine ⟨before, hline.trans hbefore, ?_⟩
    rw [List.flatMap_append, List.flatMap_append]
    exact hpart.trans (List.sublist_append_left _ _)

/-- One call. -/
theorem Disciplined.step (h : Disciplined start calls s) (device : Device) (call : Call) :
    Disciplined start (calls ++ [call]) (step device s call) := by
  cases call with
  | init baud =>
    by_cases haccepted : Accepted baud
    · exact h.init device haccepted
    · have hnone : (Call.init baud).acceptedBaud = none := if_neg haccepted
      rw [Serial.step, init_of_not_accepted haccepted]
      exact h.speak hnone (Says.refl start s) (List.nil_sublist _) id
  | putc c =>
    obtain ⟨sent, hspoken, hsent⟩ := says_putc device h.connected c
    refine h.speak rfl hspoken ?_ ?_
    · rw [Call.text, List.flatMap_singleton]
      exact hsent
    · rintro rfl
      exact putc_of_not_initialized rfl c
  | getc =>
    refine h.speak rfl (says_getc start device s) (List.nil_sublist _) ?_
    rintro rfl
    rfl
  | write text =>
    obtain ⟨sent, hspoken, hsent⟩ := says_putAll device h.connected text
    refine h.speak rfl hspoken hsent ?_
    rintro rfl
    exact putAll_of_not_initialized rfl text

/-- **Any device, any calls.** The registers hold what the last accepted `init` programmed, the
port is untouched before the first, DLAB and loopback are off between calls, and the line carries
a part of the text that was asked for and nothing else: not the self-test's byte, not the divisor.
`init` fails to disable interrupts only if DLAB was set when the driver started. -/
theorem serial_port_disciplined (device : Device) (start : Uart) (calls : List Call) :
    Disciplined start calls (Run.final (step device) Driver.start calls) := by
  induction calls using List.reverseRecOn with
  | nil =>
    refine ⟨fun _ ↦ rfl, ?_, fun _ hsome ↦ absurd rfl hsome, [], ?_, List.nil_sublist _⟩
    · rintro _ ⟨⟩
    · exact (List.append_nil _).symm
  | append_singleton calls call ih =>
    rw [Run.final_append]
    exact ih.step device call

end Runs

/-! ## Devices that work, and one that is not there -/

/-- A byte written in loopback mode arrives in time and can be read. -/
structure LoopsBack (device : Device) (start : Uart) : Prop where
  arrives : ∀ accesses value, (start.after accesses).dlab = false →
    (start.after accesses).loopback = true →
      ∃ count < loopbackTimeout, Shows device lsrDr (.write (reg .data) value :: accesses) count
  value_eq : ∀ accesses value count, (start.after accesses).dlab = false →
    (start.after accesses).loopback = true →
      Shows device lsrDr (.write (reg .data) value :: accesses) count →
        device (polled device (.write (reg .data) value :: accesses) (count + 1)) (reg .data) =
          value

section Devices

variable {start : Uart} {device : Device} {s : Driver} {baud : BitVec 32}

theorem selfTest_of_loopsBack (h : LoopsBack device start)
    (hs : (start.after s.accesses).dlab = false) : (selfTest device s).1 = true := by
  have hbefore : (start.after (writeReg s .modemControl 0x1E).accesses).dlab = false := hs
  have hloopback : (start.after (writeReg s .modemControl 0x1E).accesses).loopback = true :=
    (by decide : (0x1E : Byte).getLsbD 4 = true)
  obtain ⟨count, -, hshows, hwait⟩ := exists_waitFor_eq (s := testing s)
    (h.arrives _ loopbackTestByte hbefore hloopback)
  rw [selfTest_eq, hwait]
  exact congrArg Prod.fst (if_pos ⟨rfl, h.value_eq _ _ count hbefore hloopback hshows⟩)

/-- A device that works passes the self-test at every accepted baud rate. -/
theorem init_of_loopsBack (h : LoopsBack device start) (haccepted : Accepted baud) :
    (init device s baud).1 = true := by
  rw [init_of_accepted haccepted]
  apply selfTest_of_loopsBack h
  rw [uart_configure]
  exact (by decide : (0x03 : Byte).getLsbD 7 = false)

/-- Ready to send. -/
structure Speaking (start : Uart) (s : Driver) : Prop where
  initialized : s.initialized = true
  connected : (start.after s.accesses).Connected

theorem Says.speaking {later : Driver} {text : List Byte} (h : Says start s later text)
    (hs : Speaking start s) : Speaking start later :=
  ⟨h.initialized_eq.trans hs.initialized, h.connected hs.connected⟩

/-- One call on a device that works. -/
theorem Speaking.step (h : Speaking start s) (hloops : LoopsBack device start)
    (hready : Ready device) (call : Call) :
    Speaking start (step device s call) ∧
      (start.after (step device s call).accesses).line =
        (start.after s.accesses).line ++ call.text.flatMap lineEnding := by
  have hspoken {text : List Byte} {later : Driver} (hspoken : Says start s later text) :
      Speaking start later ∧
        (start.after later.accesses).line = (start.after s.accesses).line ++ text :=
    ⟨hspoken.speaking h, congrArg Uart.line hspoken.uart_eq⟩
  cases call with
  | init baud =>
    by_cases haccepted : Accepted baud
    · obtain ⟨hprogrammed, hline, -, hflag⟩ := init_spec start device s haccepted
      refine ⟨⟨?_, hprogrammed.connected⟩, ?_⟩
      · exact hflag.trans (init_of_loopsBack hloops haccepted)
      · rw [Call.text, List.flatMap_nil, List.append_nil]
        exact hline
    · rw [Serial.step, init_of_not_accepted haccepted]
      exact hspoken (Says.refl start s)
  | putc c =>
    rw [Call.text, List.flatMap_singleton]
    exact hspoken (says_putc_ready hready h.initialized h.connected c)
  | getc => exact hspoken (says_getc start device s)
  | write text => exact hspoken (says_putAll_ready hready h.initialized h.connected text)

/-- **A device that works.** From the first accepted `init` on, whatever was done before and
whatever calls follow, further `init` calls included, the line carries exactly the text asked for,
with a carriage return before each line feed. -/
theorem serial_port_transmits (hloops : LoopsBack device start) (hready : Ready device)
    (s : Driver) (haccepted : Accepted baud) (calls : List Call) :
    (Run.final (step device) s (.init baud :: calls)).initialized = true ∧
      (start.after (Run.final (step device) s (.init baud :: calls)).accesses).line =
        (start.after s.accesses).line ++ (calls.flatMap Call.text).flatMap lineEnding := by
  obtain ⟨hprogrammed, hline, -, hflag⟩ := init_spec start device s haccepted
  have hspeaking : Speaking start (init device s baud).2 :=
    ⟨hflag.trans (init_of_loopsBack hloops haccepted), hprogrammed.connected⟩
  have hrun : ∀ {s : Driver}, Speaking start s →
      (Run.final (step device) s calls).initialized = true ∧
        (start.after (Run.final (step device) s calls).accesses).line =
          (start.after s.accesses).line ++ (calls.flatMap Call.text).flatMap lineEnding := by
    induction calls with
    | nil =>
      intro s hs
      exact ⟨hs.initialized, (List.append_nil _).symm⟩
    | cons call calls ih =>
      intro s hs
      obtain ⟨hnext, hfirst⟩ := hs.step hloops hready call
      obtain ⟨hinitialized, hrest⟩ := ih hnext
      refine ⟨hinitialized, ?_⟩
      rw [Run.final_cons, hrest, hfirst, List.flatMap_cons, List.flatMap_append, List.append_assoc]
  obtain ⟨hinitialized, hsent⟩ := hrun hspeaking
  refine ⟨hinitialized, ?_⟩
  rw [Run.final_cons, ← hline]
  exact hsent

/-- A device whose transmitter is always ready and whose receiver holds the byte written last. -/
def echo : Device := fun accesses port ↦
  if port = reg .lineStatus then lsrThre ||| lsrDr
  else
    (accesses.findSome? fun
      | .write _ value => some value
      | .read _ _ => none).getD 0

theorem echo_shows {mask : Byte} (hmask : (lsrThre ||| lsrDr) &&& mask ≠ 0)
    (accesses : List Access) (count : ℕ) : Shows echo mask accesses count :=
  hmask

theorem echo_polled (accesses : List Access) (value : Byte) (count : ℕ) :
    echo (polled echo (.write (reg .data) value :: accesses) count) (reg .data) = value := by
  induction count with
  | zero => rfl
  | succ count ih => exact ih

theorem echo_loopsBack : LoopsBack echo ⟨0, 0, 0, 0, 0, 0, []⟩ :=
  ⟨fun _ _ _ _ ↦ ⟨0, by decide, echo_shows (by decide) _ 0⟩,
    fun accesses value count _ _ _ ↦ echo_polled accesses value (count + 1)⟩

theorem echo_ready : Ready echo :=
  fun _ ↦ ⟨0, by decide, echo_shows (by decide) _ 0⟩

theorem serial_port_transmits_echo :
    LoopsBack echo ⟨0, 0, 0, 0, 0, 0, []⟩ ∧ Ready echo ∧
      (Uart.after ⟨0, 0, 0, 0, 0, 0, []⟩ (Run.final (step echo) Driver.start
        [.init 115200, .write [ascii 'h', ascii 'i', ascii '\n']]).accesses).line =
        [ascii 'h', ascii 'i', ascii '\r', ascii '\n'] := by
  exact ⟨echo_loopsBack, echo_ready, (serial_port_transmits echo_loopsBack echo_ready Driver.start
    (by decide) [.write [ascii 'h', ascii 'i', ascii '\n']]).2⟩

/-- A port that always reads the same, as a missing one does, never passes the self-test: the test
byte has the bit clear that announces it. -/
theorem selfTest_of_constant (value : Byte) (s : Driver) :
    (selfTest (fun _ _ ↦ value) s).1 = false := by
  rw [selfTest_eq]
  simp only
  split_ifs with hpassed
  · obtain ⟨harrived, hvalue⟩ := hpassed
    obtain ⟨count, -, hshows⟩ := (waitFor_fst_iff _ _ _ _).mp harrived
    rw [Shows, hvalue] at hshows
    exact absurd (by decide) hshows
  · rfl
  · rfl

/-- **A missing port.** If every read gives the same byte, whatever byte that is, no sequence of
calls ever puts anything on the line: `init` refuses the port each time. -/
theorem missing_port_silent (value : Byte) (start : Uart) (calls : List Call) :
    (Run.final (step fun _ _ ↦ value) Driver.start calls).initialized = false ∧
      (start.after (Run.final (step fun _ _ ↦ value) Driver.start calls).accesses).line =
        start.line := by
  refine Run.invariant (motive := fun s : Driver ↦ s.initialized = false ∧
    (start.after s.accesses).line = start.line) ?_ calls ⟨rfl, rfl⟩
  rintro s call ⟨hinitialized, hline⟩
  cases call with
  | init baud =>
    by_cases haccepted : Accepted baud
    · obtain ⟨-, hkept, -, hflag⟩ := init_spec start (fun _ _ ↦ value) s haccepted
      refine ⟨hflag.trans ?_, hkept.trans hline⟩
      rw [init_of_accepted haccepted]
      exact selfTest_of_constant value _
    · rw [step, init_of_not_accepted haccepted]
      exact ⟨hinitialized, hline⟩
  | putc c =>
    rw [step, putc_of_not_initialized hinitialized]
    exact ⟨hinitialized, hline⟩
  | getc =>
    have hspoken := says_getc start (fun _ _ ↦ value) s
    refine ⟨hspoken.initialized_eq.trans hinitialized, ?_⟩
    rw [step, hspoken.uart_eq, List.append_nil]
    exact hline
  | write text =>
    rw [step, putAll_of_not_initialized hinitialized]
    exact ⟨hinitialized, hline⟩

end Devices

/-! ## No call hangs -/

/-- A bound on the port accesses of a call. -/
def Call.cost : Call → ℕ
  | .init _ => loopbackTimeout + 11
  | .putc _ => 2 * (txTimeout + 1)
  | .getc => rxTimeout + 1
  | .write text => text.length * (2 * (txTimeout + 1))

section Cost

variable (device : Device) (s : Driver)

theorem length_waitFor (mask : Byte) (timeout : ℕ) :
    (waitFor device mask timeout s).2.accesses.length ≤ s.accesses.length + timeout := by
  obtain ⟨count, hcount, hpolled⟩ := waitFor_snd device mask timeout s
  rw [hpolled]
  exact (length_polled device s.accesses count).trans_le (Nat.add_le_add_left hcount _)

theorem length_transmit (c : Byte) :
    (transmit device s c).accesses.length ≤ s.accesses.length + (txTimeout + 1) := by
  have hwait := length_waitFor device s lsrThre txTimeout
  unfold transmit
  simp only
  split_ifs
  · omega
  · exact Nat.succ_le_succ hwait

theorem length_putc (c : Byte) :
    (putc device s c).accesses.length ≤ s.accesses.length + 2 * (txTimeout + 1) := by
  unfold putc
  simp only
  split_ifs
  · omega
  · have hfirst := length_transmit device s (ascii '\r')
    have hsecond := length_transmit device (transmit device s (ascii '\r')) c
    omega
  · have honly := length_transmit device s c
    omega

theorem length_putAll (text : List Byte) :
    (putAll device s text).accesses.length ≤
      s.accesses.length + text.length * (2 * (txTimeout + 1)) := by
  induction text generalizing s with
  | nil => exact le_rfl
  | cons c text ih =>
    have hfirst := length_putc device s c
    have hrest := ih (putc device s c)
    rw [List.length_cons, Nat.succ_mul]
    rw [putAll] at hrest
    rw [putAll, List.foldl_cons]
    omega

theorem length_getc :
    (getc device s).2.accesses.length ≤ s.accesses.length + (rxTimeout + 1) := by
  have hwait := length_waitFor device s lsrDr rxTimeout
  unfold getc
  simp only
  split_ifs
  · exact Nat.le_add_right _ _
  · exact hwait.trans (Nat.add_le_add_left (Nat.le_succ _) _)
  · exact Nat.succ_le_succ hwait

theorem length_selfTest :
    (selfTest device s).2.accesses.length ≤ s.accesses.length + (loopbackTimeout + 4) := by
  have hwait := length_waitFor device (testing s) lsrDr loopbackTimeout
  have htesting : (testing s).accesses.length = s.accesses.length + 2 := rfl
  rw [htesting] at hwait
  rw [selfTest_eq]
  generalize waitFor device lsrDr loopbackTimeout (testing s) = waited at hwait ⊢
  have hmost : waited.2.accesses.length + 2 ≤ s.accesses.length + (loopbackTimeout + 4) := by omega
  simp only
  split_ifs
  · exact hmost
  · exact hmost
  · exact (Nat.le_succ _).trans hmost

theorem length_init (baud : BitVec 32) :
    (init device s baud).2.accesses.length ≤ s.accesses.length + (loopbackTimeout + 11) := by
  by_cases haccepted : Accepted baud
  · rw [init_of_accepted haccepted]
    have htest := length_selfTest device (configure { s with initialized := false } (115200 / baud))
    have hconfigured : (configure { s with initialized := false }
        (115200 / baud)).accesses.length = s.accesses.length + 7 := rfl
    omega
  · rw [init_of_not_accepted haccepted]
    exact Nat.le_add_right _ _

/-- **No device can hang the driver.** Every sequence of calls ends after a number of port accesses
that the calls alone bound. -/
theorem serial_calls_bounded (calls : List Call) :
    (Run.final (step device) s calls).accesses.length ≤
      s.accesses.length + (calls.map Call.cost).sum := by
  induction calls generalizing s with
  | nil => exact le_rfl
  | cons call calls ih =>
    have hfirst : (step device s call).accesses.length ≤ s.accesses.length + call.cost := by
      cases call with
      | init baud => exact length_init device s baud
      | putc c => exact length_putc device s c
      | getc => exact length_getc device s
      | write text => exact length_putAll device s text
    have hrest := ih (step device s call)
    rw [Run.final_cons, List.map_cons, List.sum_cons]
    omega

end Cost

end WaterBuffalo.Serial
