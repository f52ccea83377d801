import WaterBuffalo.Foundation.Run
import WaterBuffalo.Lib.Print

/-!
# The serial port

The functions of `src/arch/x86_64/serial.cpp`.  The port is seen through `inb` and `outb` only: a
device is any function that answers a read from the history of all accesses before it, so a
statement about all devices covers slow, absent and broken ones.  What the bytes written to the
ports mean to a 16550 is the register file `Uart`, a function of the same history: the divisor
latch behind the data port while DLAB is set, the loopback path, and otherwise the line.
-/

namespace WaterBuffalo.Serial

open Print (ascii)

/-- A port number. -/
abbrev Port := BitVec 16

/-- One `inb` or `outb`. -/
inductive Access where
  | read (port : Port) (value : Byte)
  | write (port : Port) (value : Byte)
  deriving DecidableEq, Repr

/-- What a port answers, given all accesses before, newest first. -/
abbrev Device := List Access → Port → Byte

/-- The static `initialized`, and the accesses so far, newest first. -/
structure Driver where
  initialized : Bool
  accesses : List Access
  deriving DecidableEq, Repr

/-! ## The driver -/

def uartBase : Port := 0x3F8

inductive Reg where
  | data
  | interruptEnable
  | fifoControl
  | interruptId
  | lineControl
  | modemControl
  | lineStatus
  | modemStatus
  | scratch
  -- Offset 0/1 when DLAB is enabled.
  | divisorLow
  | divisorHigh
  deriving DecidableEq, Repr

def Reg.offset : Reg → Port
  | .data => 0
  | .interruptEnable => 1
  | .fifoControl => 2
  | .interruptId => 2
  | .lineControl => 3
  | .modemControl => 4
  | .lineStatus => 5
  | .modemStatus => 6
  | .scratch => 7
  | .divisorLow => 0
  | .divisorHigh => 1

def lcrDlab : Byte := 0x80

def lsrDr : Byte := 0x01

def lsrThre : Byte := 0x20

def loopbackTestByte : Byte := 0xAE

def loopbackTimeout : ℕ := 100000

def txTimeout : ℕ := 100000

def rxTimeout : ℕ := 100000

def reg (r : Reg) : Port :=
  uartBase + r.offset

section Functions

variable (device : Device) (s : Driver)

/-- `reg(r).read()`. -/
def readReg (r : Reg) : Byte × Driver :=
  (device s.accesses (reg r),
    { s with accesses := .read (reg r) (device s.accesses (reg r)) :: s.accesses })

/-- `reg(r).write(value)`. -/
def writeReg (r : Reg) (value : Byte) : Driver :=
  { s with accesses := .write (reg r) value :: s.accesses }

/-- The loop of `wait_for`, with the iterations that are left. -/
def waitFor (mask : Byte) : ℕ → Driver → Bool × Driver
  | 0, s => (false, s)
  | timeout + 1, s =>
    let (status, s) := readReg device s .lineStatus
    if status &&& mask ≠ 0 then (true, s) else waitFor mask timeout s

/-- The part of `init` before the self-test. -/
def configure (divisor : BitVec 32) : Driver :=
  -- Disable interrupts.
  let s := writeReg s .interruptEnable 0x00
  -- Enable DLAB.
  let s := writeReg s .lineControl lcrDlab
  -- Program divisor.
  let s := writeReg s .divisorLow ((divisor &&& 0xFF).setWidth 8)
  let s := writeReg s .divisorHigh (((divisor >>> 8) &&& 0xFF).setWidth 8)
  -- Disable DLAB, configure 8N1.
  let s := writeReg s .lineControl 0x03
  -- Enable FIFO, clear FIFOs, 14-byte trigger.
  let s := writeReg s .fifoControl 0xC7
  -- Enable DTR + RTS.
  writeReg s .modemControl 0x03

/-- The loopback self-test. -/
def selfTest : Bool × Driver :=
  let s := writeReg s .modemControl 0x1E
  let s := writeReg s .data loopbackTestByte
  let (arrived, s) := waitFor device lsrDr loopbackTimeout s
  if !arrived then
    -- Restore normal state before reporting failure.
    (false, writeReg s .modemControl 0x00)
  else
    let (value, s) := readReg device s .data
    if value ≠ loopbackTestByte then (false, writeReg s .modemControl 0x00)
    else
      -- Normal mode: DTR, RTS, OUT1, OUT2.
      let s := writeReg s .modemControl 0x0F
      (true, { s with initialized := true })

def init (baud : BitVec 32) : Bool × Driver :=
  if baud = 0 then (false, s)
  else
    let divisor := 115200 / baud
    if divisor = 0 ∨ 0xFFFF < divisor then (false, s)
    else
      let s := { s with initialized := false }
      selfTest device (configure s divisor)

/-- The end of `putc`. -/
def transmit (c : Byte) : Driver :=
  let (ready, s) := waitFor device lsrThre txTimeout s
  if !ready then s else writeReg s .data c

def putc (c : Byte) : Driver :=
  if !s.initialized then s
  else
    -- The recursive call is for a character other than `\n` and finds `initialized` set.
    let s := if c = ascii '\n' then transmit device s (ascii '\r') else s
    transmit device s c

/-- `getc`; nothing stands for -1. -/
def getc : Option Byte × Driver :=
  if !s.initialized then (none, s)
  else
    let (arrived, s) := waitFor device lsrDr rxTimeout s
    if !arrived then (none, s)
    else
      let (value, s) := readReg device s .data
      (some value, s)

/-- One `putc` after the other. -/
def putAll (text : List Byte) : Driver :=
  text.foldl (putc device) s

/-- `write`; a string without an end is an error. -/
def write (memory : Memory) (str : Word) : Except Print.PrintFault Driver :=
  if str = 0 then .ok s
  else
    match CString.text memory str with
    | none => .error .endless
    | some text => .ok (putAll device s text)

end Functions

/-! ## The device -/

/-- The registers of a 16550 that can be written, and the bytes it put on the line. -/
structure Uart where
  interruptEnable : Byte
  divisorLow : Byte
  divisorHigh : Byte
  fifoControl : Byte
  lineControl : Byte
  modemControl : Byte
  line : List Byte
  deriving DecidableEq, Repr

namespace Uart

/-- The divisor latch stands in for the ports 0 and 1. -/
def dlab (uart : Uart) : Bool :=
  uart.lineControl.getLsbD 7

/-- The transmitter is connected to the receiver and cut off the line. -/
def loopback (uart : Uart) : Bool :=
  uart.modemControl.getLsbD 4

/-- A byte written to one of the eight ports. -/
def write (uart : Uart) (port : Port) (value : Byte) : Uart :=
  if port = uartBase then
    if uart.dlab then { uart with divisorLow := value }
    else if uart.loopback then uart
    else { uart with line := uart.line ++ [value] }
  else if port = uartBase + 1 then
    if uart.dlab then { uart with divisorHigh := value }
    else { uart with interruptEnable := value }
  else if port = uartBase + 2 then { uart with fifoControl := value }
  else if port = uartBase + 3 then { uart with lineControl := value }
  else if port = uartBase + 4 then { uart with modemControl := value }
  else uart

/-- A read changes none of these. -/
def access (uart : Uart) : Access → Uart
  | .read _ _ => uart
  | .write port value => uart.write port value

/-- The registers after all accesses. -/
def after (uart : Uart) (accesses : List Access) : Uart :=
  accesses.foldr (fun access uart ↦ uart.access access) uart

/-- The programmed divisor. -/
def divisor (uart : Uart) : ℕ :=
  uart.divisorHigh.toNat * 256 + uart.divisorLow.toNat

end Uart

/-! ## Calls -/

inductive Call where
  | init (baud : BitVec 32)
  | putc (c : Byte)
  | getc
  | write (text : List Byte)
  deriving DecidableEq, Repr

/-- The state after a call; the string of a `write` is given by its text. -/
def step (device : Device) (s : Driver) : Call → Driver
  | .init baud => (init device s baud).2
  | .putc c => putc device s c
  | .getc => (getc device s).2
  | .write text => putAll device s text

end WaterBuffalo.Serial
