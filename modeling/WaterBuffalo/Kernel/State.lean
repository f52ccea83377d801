import WaterBuffalo.Foundation.ByteMemory

/-!
# Kernel memory-manager state

The frame allocator and the paging code share one memory: the allocator's bitmap and every page
table live in physical frames and are dereferenced through the higher-half direct map.  The state
therefore has a single byte memory, indexed by the pointers the code dereferences, next to the
static variables of `pmm.cpp`.

The field `trace` is a ghost: it records what the code did, newest event first, and no function
reads it.  It lets later statements speak of "the stores of this call" or "the frames handed out
so far" without a second semantics.
-/

namespace WaterBuffalo

/-- `RegionType` of `pmm.hpp`. -/
inductive RegionType where
  | usable
  | reserved
  | acpiReclaimable
  | acpiNvs
  | bad
  | bootloaderReclaimable
  | kernelAndModules
  | framebuffer
  deriving DecidableEq, Repr

/-- One entry of the memory map. -/
structure MemoryRegion where
  base : Word
  length : Word
  type : RegionType
  deriving DecidableEq, Repr

/-- The arguments of a successful page mapping: 4 KiB, or 2 MiB when `large` is set. -/
structure Page where
  virt : Word
  phys : Word
  flags : Word
  large : Bool
  deriving DecidableEq, Repr

/-- What the code did: a 64-bit store, the outcome of one `alloc_frame` call, a table that
`allocate_table` placed at a physical address, or a mapping call on the table at `pml4` that
returned true. -/
inductive Event where
  | stored (address value : Word)
  | granted (frame : Word)
  | exhausted
  | tableTaken (physical : Word)
  | mapped (pml4 : Word) (page : Page)
  deriving DecidableEq, Repr

/-- The statics of `pmm.cpp` that only `init` assigns. -/
structure Statics where
  bitmap : Word
  bitmapPhys : Word
  bitmapWords : Word
  bitmapBytes : Word
  frameCount : Word
  hhdmOffset : Word

/-- Memory, the statics of `pmm.cpp`, and the ghost trace. -/
structure State extends Statics where
  memory : Memory
  freeFrameCount : Word
  trace : List Event

namespace State

/-- Dereference a `uint64_t` pointer. -/
def load (s : State) (address : Word) : Word :=
  ByteMemory.load64 s.memory address

/-- Assign through a `uint64_t` pointer. -/
def store (s : State) (address value : Word) : State :=
  { s with
    memory := ByteMemory.store64 s.memory address value
    trace := .stored address value :: s.trace }

/-- Record a ghost event. -/
def record (s : State) (event : Event) : State :=
  { s with trace := event :: s.trace }

/-- Start the ghost trace afresh. -/
def restartTrace (s : State) : State :=
  { s with trace := [] }

theorem restartTrace_of_nil {s : State} (h : s.trace = []) : s.restartTrace = s := by
  rw [restartTrace, ← h]

/-- The events of a call that led from `s` to `later`. -/
def since (s later : State) : List Event :=
  later.trace.take (later.trace.length - s.trace.length)

section Fields

variable (s : State) (address value : Word) (event : Event)

@[simp] theorem store_toStatics : (s.store address value).toStatics = s.toStatics := rfl
@[simp] theorem store_freeFrameCount :
    (s.store address value).freeFrameCount = s.freeFrameCount := rfl
@[simp] theorem store_trace :
    (s.store address value).trace = .stored address value :: s.trace := rfl
@[simp] theorem record_toStatics : (s.record event).toStatics = s.toStatics := rfl
@[simp] theorem record_memory : (s.record event).memory = s.memory := rfl
@[simp] theorem record_trace : (s.record event).trace = event :: s.trace := rfl
@[simp] theorem load_record (target : Word) : (s.record event).load target = s.load target := rfl

@[simp] theorem load_store_self : (s.store address value).load address = value :=
  ByteMemory.load64_store64_self _ _ _

theorem load_store_of_apart {address target : Word} (value : Word)
    (h : ByteMemory.Apart target address) :
    (s.store address value).load target = s.load target :=
  ByteMemory.load64_store64_of_apart _ _ h

end Fields

/-! ## The events of a call -/

/-- The events of a call that led from `s` to `later` were put in front of the trace. -/
def Grows (s later : State) : Prop :=
  ∃ new, later.trace = new ++ s.trace

/-- No `alloc_frame` call between `s` and `later` found the allocator exhausted. -/
def Calm (s later : State) : Prop :=
  Event.exhausted ∉ s.since later

theorem calm_of_not_mem {s later : State} (h : Event.exhausted ∉ later.trace) : Calm s later :=
  fun hexhausted ↦ h (List.mem_of_mem_take hexhausted)

theorem since_eq {s later : State} {new : List Event} (h : later.trace = new ++ s.trace) :
    s.since later = new := by
  rw [since, h, List.length_append, Nat.add_sub_cancel]
  exact List.take_left

theorem Grows.trace_eq {s later : State} (h : Grows s later) :
    later.trace = s.since later ++ s.trace := by
  obtain ⟨new, hnew⟩ := h
  rw [since_eq hnew, hnew]

theorem Grows.trans {s middle later : State} (hfirst : Grows s middle)
    (hsecond : Grows middle later) : Grows s later := by
  refine ⟨middle.since later ++ s.since middle, ?_⟩
  rw [hsecond.trace_eq, hfirst.trace_eq, List.append_assoc]

/-- What is not in the longer trace is not in the shorter one. -/
theorem Grows.calm_before {s later : State} (h : Grows s later)
    (hcalm : Event.exhausted ∉ later.trace) : Event.exhausted ∉ s.trace := by
  intro hexhausted
  apply hcalm
  rw [h.trace_eq]
  exact List.mem_append_right _ hexhausted

theorem since_trans {s middle later : State} (hfirst : Grows s middle)
    (hsecond : Grows middle later) :
    s.since later = middle.since later ++ s.since middle := by
  apply since_eq
  rw [hsecond.trace_eq, hfirst.trace_eq, List.append_assoc]

theorem calm_trans {s middle later : State} (hfirst : Grows s middle)
    (hsecond : Grows middle later) :
    Calm s later ↔ Calm s middle ∧ Calm middle later := by
  rw [Calm, since_trans hfirst hsecond, List.mem_append, not_or, and_comm]
  rfl

end State

end WaterBuffalo
