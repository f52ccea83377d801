import WaterBuffalo.Foundation.CString
import WaterBuffalo.Foundation.Loop

/-!
# Formatted output

The functions of `src/lib/print.cpp`.  Format and string arguments are pointers into memory; the
variable arguments are the 64-bit slots they are passed in, of which `va_arg` takes as many low
bits as the type asked for.  Whatever C++ leaves undefined, or would never end, is an error value:
a write past a conversion buffer, an index past the digit table, a signed overflow, an argument
that was not passed, a loop that does not end.

Two fields of the scanning loop's state are ghosts that no function reads: the offsets of the
format bytes that were read, and of those that were sent to the sink.
-/

namespace WaterBuffalo.Print

/-- The places where the code would leave its bounds. -/
inductive PrintFault where
  | bufferOverflow
  | digitOutOfRange
  | signedOverflow
  | missingArgument
  | endless
  deriving DecidableEq, Repr

def ascii (c : Char) : Byte :=
  BitVec.ofNat 8 c.toNat

/-! ## The sink -/

/-- The static `output_sink`, null or a function, and the characters that function was called
with. -/
structure Console where
  outputSink : Word
  sent : List Byte
  deriving DecidableEq, Repr

def emit (console : Console) (c : Byte) : Console :=
  if console.outputSink ≠ 0 then { console with sent := console.sent ++ [c] } else console

/-- One `emit` after the other. -/
def emitAll (console : Console) (bytes : List Byte) : Console :=
  bytes.foldl emit console

/-- What is printed for a null string. -/
def nullText : List Byte :=
  ['(', 'n', 'u', 'l', 'l', ')'].map ascii

def emitString (memory : Memory) (console : Console) (str : Word) : Except PrintFault Console :=
  if str = 0 then .ok (emitAll console nullText)
  else
    match CString.text memory str with
    | none => .error .endless
    | some text => .ok (emitAll console text)

def putc (console : Console) (c : Byte) : Console :=
  emit console c

def write (memory : Memory) (console : Console) (str : Word) : Except PrintFault Console :=
  emitString memory console str

/-! ## Numbers -/

/-- `digits` of the conversion functions. -/
def digits : List Byte :=
  ['0', '1', '2', '3', '4', '5', '6', '7', '8', '9', 'a', 'b', 'c', 'd', 'e', 'f'].map ascii

/-- `digits[index]`. -/
def digitAt (index : Word) : Except PrintFault Byte :=
  match digits[index.toNat]? with
  | none => .error .digitOutOfRange
  | some digit => .ok digit

/-- The loop that fills a conversion buffer of `size` bytes.  The list is the part of the buffer
that has been written, last byte first, which is the order it is sent in. -/
def fillBuffer (size : ℕ) (digit next : Word → Word) :
    ℕ → Word → List Byte → Except PrintFault (List Byte)
  | 0, _, _ => .error .endless
  | count + 1, value, buffer =>
    if value = 0 then .ok buffer
    else if size ≤ buffer.length then .error .bufferOverflow
    else
      match digitAt (digit value) with
      | .error fault => .error fault
      | .ok byte => fillBuffer size digit next count (next value) (byte :: buffer)

/-- `emit_unsigned` and `emit_hex` differ in the buffer, in the digit they take off the value and
in what they leave of it.  A word that loses a bit in each iteration is used up after 64. -/
def emitDigits (size : ℕ) (digit next : Word → Word) (console : Console) (value : Word) :
    Except PrintFault Console :=
  if value = 0 then .ok (emit console (ascii '0'))
  else
    match fillBuffer size digit next 65 value [] with
    | .error fault => .error fault
    | .ok buffer => .ok (emitAll console buffer)

def emitUnsigned (console : Console) (value : Word) (base : BitVec 32) :
    Except PrintFault Console :=
  emitDigits 24 (· % base.setWidth 64) (· / base.setWidth 64) console value

def emitHex (console : Console) (value : Word) : Except PrintFault Console :=
  emitDigits 16 (· &&& 0xF) (· >>> 4) console value

/-- The result of an operation on a signed type of `width` bits. -/
def signedResult (width : ℕ) (result : ℤ) : Except PrintFault ℤ :=
  if -2 ^ (width - 1) ≤ result ∧ result < 2 ^ (width - 1) then .ok result
  else .error .signedOverflow

/-- `static_cast<unsigned>(-(value + 1)) + 1`. -/
def magnitude {width : ℕ} (value : BitVec width) : Except PrintFault (BitVec width) :=
  match signedResult width (value.toInt + 1) with
  | .error fault => .error fault
  | .ok sum =>
    match signedResult width (-sum) with
    | .error fault => .error fault
    | .ok negated => .ok (BitVec.ofInt width negated + 1)

/-- A signed number, with its magnitude taken so that the least value does not overflow. -/
def emitSignedOf {width : ℕ} (console : Console) (value : BitVec width) :
    Except PrintFault Console :=
  if value.toInt < 0 then
    match magnitude value with
    | .error fault => .error fault
    | .ok magnitude => emitUnsigned (emit console (ascii '-')) (magnitude.setWidth 64) 10
  else emitUnsigned console (value.setWidth 64) 10

def emitSigned (console : Console) (value : BitVec 32) : Except PrintFault Console :=
  emitSignedOf console value

/-- The `%ld` branch of `kprintf`. -/
def emitLongSigned (console : Console) (value : BitVec 64) : Except PrintFault Console :=
  emitSignedOf console value

/-- The loop of the `%p` branch, from the digit `count - 1` down. -/
def emitPointerDigits (value : Word) : ℕ → Console → Except PrintFault Console
  | 0, console => .ok console
  | count + 1, console =>
    match digitAt ((value >>> (count * 4)) &&& 0xF) with
    | .error fault => .error fault
    | .ok byte => emitPointerDigits value count (emit console byte)

/-- The `%p` branch of `kprintf`. -/
def emitPointer (console : Console) (value : Word) : Except PrintFault Console :=
  emitPointerDigits value 16 (emitAll console [ascii '0', ascii 'x'])

/-! ## The scanning loop -/

/-- The labels of the switch. -/
inductive Conversion where
  | percent
  | character
  | string
  | signed
  | unsigned
  | hexadecimal
  | pointer
  | unknown
  deriving DecidableEq, Repr

def conversionOf (c : Byte) : Conversion :=
  if c = ascii '%' then .percent
  else if c = ascii 'c' then .character
  else if c = ascii 's' then .string
  else if c = ascii 'd' then .signed
  else if c = ascii 'u' then .unsigned
  else if c = ascii 'x' then .hexadecimal
  else if c = ascii 'p' then .pointer
  else .unknown

/-- The state of the loop: the console, `ap`, and how far `format` has advanced. -/
structure Scan where
  console : Console
  args : List Word
  offset : ℕ
  /-- Ghost: the offsets read, latest first. -/
  reads : List ℕ
  /-- Ghost: the offsets whose byte was sent, latest first. -/
  copied : List ℕ
  deriving DecidableEq, Repr

namespace Scan

variable (memory : Memory) (format : Word) (s : Scan)

/-- The byte `*format`. -/
def current : Byte :=
  CString.byteAt memory format s.offset

/-- Record that `*format` is read. -/
def look : Scan :=
  { s with reads := s.offset :: s.reads }

/-- `++format`. -/
def advance : Scan :=
  { s with offset := s.offset + 1 }

/-- Send a character to the sink. -/
def put (c : Byte) : Scan :=
  { s with console := emit s.console c }

/-- `emit(*format)`. -/
def copy : Scan :=
  { s with
    console := emit s.console (s.current memory format)
    copied := s.offset :: s.copied }

/-- Print the next argument. -/
def consume (print : Console → Word → Except PrintFault Console) : Except PrintFault Scan :=
  match s.args with
  | [] => .error .missingArgument
  | slot :: args =>
    match print s.console slot with
    | .error fault => .error fault
    | .ok console => .ok { s with console := console, args := args }

/-- The switch. -/
def convert (longModifier : Bool) : Except PrintFault Scan :=
  match conversionOf (s.current memory format) with
  | .percent => .ok (s.put (ascii '%'))
  | .character =>
    s.consume fun console slot ↦ .ok (emit console ((slot.setWidth 32).setWidth 8))
  | .string => s.consume (emitString memory)
  | .signed =>
    s.consume fun console slot ↦
      if longModifier then emitLongSigned console slot else emitSigned console (slot.setWidth 32)
  | .unsigned =>
    s.consume fun console slot ↦
      if longModifier then emitUnsigned console slot 10
      else emitUnsigned console ((slot.setWidth 32).setWidth 64) 10
  | .hexadecimal =>
    s.consume fun console slot ↦
      if longModifier then emitHex console slot
      else emitHex console ((slot.setWidth 32).setWidth 64)
  | .pointer => s.consume emitPointer
  | .unknown =>
    -- Unknown format: print it literally.
    let s := s.put (ascii '%')
    let s := if longModifier then s.put (ascii 'l') else s
    .ok (s.copy memory format)

/-- One iteration of the loop of `kprintf`. -/
def body : Loop.Outcome Scan PrintFault :=
  let s := s.look
  if s.current memory format = 0 then .done s
  else if s.current memory format ≠ ascii '%' then .next (s.copy memory format).advance
  else
    let s := s.advance.look
    if s.current memory format = 0 then .done s
    else
      -- Length modifier.
      let longModifier := decide (s.current memory format = ascii 'l')
      let s := if longModifier then s.advance else s
      let s := s.look
      match s.convert memory format longModifier with
      | .error fault => .stuck fault s
      | .ok s => .next s.advance

end Scan

/-- The state in which `kprintf` enters its loop. -/
def startScan (console : Console) (args : List Word) : Scan where
  console := console
  args := args
  offset := 0
  reads := []
  copied := []

/-- `kprintf`, for at most `count` iterations of its loop. -/
def kprintf (memory : Memory) (console : Console) (format : Word) (args : List Word)
    (count : ℕ) : Loop.Outcome Scan PrintFault :=
  if format = 0 then .done (startScan console args)
  else Loop.iterate (Scan.body memory format) count (startScan console args)

end WaterBuffalo.Print
