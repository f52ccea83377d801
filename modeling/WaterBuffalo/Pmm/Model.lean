import WaterBuffalo.Kernel.State

/-!
# Physical frame allocator

The functions of `src/mm/pmm.cpp`, in 64-bit modular arithmetic and on the shared memory.  Loops
over a counter are folds over the list of values the counter takes.  The console output of `init`
is not modelled; a path that halts the machine, and a path of `free_frame` that only prints a
diagnostic, returns that diagnostic as an error value instead.
-/

namespace WaterBuffalo.Pmm

def kPageSize : Word := 4096

def kWordBits : Word := 64

/-- The two places where `init` prints a message and halts. -/
inductive InitFault where
  | noUsableMemory
  | noRegionForBitmap
  deriving DecidableEq, Repr

def InitFault.message : InitFault → String
  | .noUsableMemory => "fatal: no usable memory\n"
  | .noRegionForBitmap => "fatal: no usable region large enough for bitmap\n"

/-- The three places where `free_frame` prints a message and returns. -/
inductive FreeFault where
  | misaligned (address : Word)
  | outOfRange (frame : Word)
  | doubleFree (address : Word)
  deriving DecidableEq, Repr

/-- `&bitmap[word]`. -/
def bitmapAddress (s : State) (word : Word) : Word :=
  s.bitmap + 8 * word

def frameValid (s : State) (frame : Word) : Bool :=
  decide (frame < s.frameCount)

def setFrameUsed (s : State) (frame : Word) : State :=
  if !frameValid s frame then s
  else
    let word := frame / kWordBits
    let bit := frame % kWordBits
    s.store (bitmapAddress s word) (s.load (bitmapAddress s word) ||| 1#64 <<< bit.toNat)

def setFrameFree (s : State) (frame : Word) : State :=
  if !frameValid s frame then s
  else
    let word := frame / kWordBits
    let bit := frame % kWordBits
    s.store (bitmapAddress s word) (s.load (bitmapAddress s word) &&& ~~~(1#64 <<< bit.toNat))

/-! ## Initialization -/

/-- First loop of `init`: the highest end of a usable region. -/
def highestUsableEnd (regions : List MemoryRegion) : Word :=
  regions.foldl
    (fun highest region ↦
      if region.type = .usable then
        if highest < region.base + region.length then region.base + region.length else highest
      else highest) 0

def frameCountFor (highest : Word) : Word :=
  (highest + kPageSize - 1) / kPageSize

def bitmapWordsFor (frameCount : Word) : Word :=
  (frameCount + kWordBits - 1) / kWordBits

def bitmapPagesFor (bitmapBytes : Word) : Word :=
  (bitmapBytes + kPageSize - 1) / kPageSize

/-- Second loop of `init`: the first usable region long enough for the bitmap's pages. -/
def findBitmapRegion (regions : List MemoryRegion) (bitmapPages : Word) : Option MemoryRegion :=
  regions.find? fun region ↦
    region.type = .usable ∧ bitmapPages * kPageSize ≤ region.length

/-- Phase 1: everything is used. -/
def markAllUsed (s : State) : State :=
  (List.range s.bitmapWords.toNat).foldl
    (fun s word ↦ s.store (bitmapAddress s (BitVec.ofNat 64 word)) (BitVec.allOnes 64)) s

/-- `for (frame = first; frame < stop; ++frame)`. -/
def forFrames (first stop : Word) (body : State → Word → State) (s : State) : State :=
  (List.range (stop.toNat - first.toNat)).foldl
    (fun s index ↦ body s (first + BitVec.ofNat 64 index)) s

/-- Body of phase 2. -/
def releaseFrame (s : State) (frame : Word) : State :=
  if !frameValid s frame then s
  else
    let s := setFrameFree s frame
    { s with freeFrameCount := s.freeFrameCount + 1 }

/-- Phase 2 for one region: round the beginning up and the end down. -/
def releaseRegion (s : State) (region : MemoryRegion) : State :=
  if region.type ≠ .usable then s
  else
    let firstFrame := (region.base + kPageSize - 1) / kPageSize
    let frameEnd := (region.base + region.length) / kPageSize
    forFrames firstFrame frameEnd releaseFrame s

/-- Body of phase 3. -/
def reserveFrame (s : State) (frame : Word) : State :=
  if !frameValid s frame then s
  else
    let word := frame / kWordBits
    let bit := frame % kWordBits
    let s :=
      if s.load (bitmapAddress s word) &&& 1#64 <<< bit.toNat = 0 then
        { s with freeFrameCount := s.freeFrameCount - 1 }
      else s
    setFrameUsed s frame

/-- Phase 3: the bitmap's own frames are used. -/
def reserveBitmap (s : State) (bitmapPages : Word) : State :=
  let bitmapFirstFrame := s.bitmapPhys / kPageSize
  let bitmapLastFrame := bitmapFirstFrame + bitmapPages
  forFrames bitmapFirstFrame bitmapLastFrame reserveFrame s

/-- The statics as `init` has assigned them when phase 1 starts, with the bitmap at the base of
`region`. -/
def placeBitmap (hhdmOffset : Word) (memory : Memory) (frameCount : Word)
    (region : MemoryRegion) : State where
  bitmap := hhdmOffset + region.base
  bitmapPhys := region.base
  bitmapWords := bitmapWordsFor frameCount
  bitmapBytes := bitmapWordsFor frameCount * 8
  frameCount := frameCount
  hhdmOffset := hhdmOffset
  memory := memory
  freeFrameCount := 0
  trace := []

/-- `init`, from a machine whose memory is `memory`.  The ghost trace starts when it returns. -/
def init (regions : List MemoryRegion) (hhdmOffset : Word) (memory : Memory) :
    Except InitFault State :=
  let highest := highestUsableEnd regions
  if highest = 0 then .error .noUsableMemory
  else
    let frameCount := frameCountFor highest
    let bitmapPages := bitmapPagesFor (bitmapWordsFor frameCount * 8)
    match findBitmapRegion regions bitmapPages with
    | none => .error .noRegionForBitmap
    | some region =>
      let s := markAllUsed (placeBitmap hhdmOffset memory frameCount region)
      let s := regions.foldl releaseRegion s
      let s := reserveBitmap s bitmapPages
      .ok s.restartTrace

/-! ## Allocating and freeing -/

/-- Body of the scan of `alloc_frame`: the frame one bitmap word offers, if any. -/
def offeredFrame (s : State) (wordIndex : ℕ) : Option Word :=
  let word := s.load (bitmapAddress s (BitVec.ofNat 64 wordIndex))
  if word = BitVec.allOnes 64 then none
  else
    let freeBits := ~~~word
    let bit := freeBits.ctz
    let frame := BitVec.ofNat 64 wordIndex * kWordBits + bit
    -- The final bitmap word may contain padding bits.
    if !frameValid s frame then none else some frame

/-- The scan of `alloc_frame`, which stops at the first word with a free valid frame. -/
def scanBitmap (s : State) : Option Word :=
  (List.range s.bitmapWords.toNat).findSome? (offeredFrame s)

def allocFrame (s : State) : Word × State :=
  match scanBitmap s with
  | none => (0, s.record .exhausted)
  | some frame =>
    let s := setFrameUsed s frame
    (frame * kPageSize, { s with freeFrameCount := s.freeFrameCount - 1 }.record (.granted frame))

def freeFrame (s : State) (address : Word) : Except FreeFault State :=
  if address % kPageSize ≠ 0 then .error (.misaligned address)
  else
    let frame := address / kPageSize
    if !frameValid s frame then .error (.outOfRange frame)
    else
      let word := frame / kWordBits
      let bit := frame % kWordBits
      let mask := 1#64 <<< bit.toNat
      if s.load (bitmapAddress s word) &&& mask = 0 then .error (.doubleFree address)
      else
        let s := s.store (bitmapAddress s word) (s.load (bitmapAddress s word) &&& ~~~mask)
        .ok { s with freeFrameCount := s.freeFrameCount + 1 }

/-- The state `free_frame` leaves behind: a refused address changes nothing. -/
def freed (s : State) (address : Word) : State :=
  match freeFrame s address with
  | .ok later => later
  | .error _ => s

def physicalToVirtual (s : State) (address : Word) : Word :=
  s.hhdmOffset + address

end WaterBuffalo.Pmm
