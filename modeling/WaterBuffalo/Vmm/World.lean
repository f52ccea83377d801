import WaterBuffalo.Pmm.Client
import WaterBuffalo.Vmm.Model

/-!
# Kernel histories

A history interleaves calls of the paging interface, on any number of address spaces, with calls
of the frame allocator by clients.  Next to the kernel state a world records the address spaces
created so far and the frames clients hold.  Everything else later statements speak about, such
as the pages installed in a space or the frames taken for tables, is read off the ghost trace.
-/

namespace WaterBuffalo.Vmm

open Pmm

/-- The calls that create or change an address space. -/
inductive PagingCall where
  | createAddressSpace (out : AddressSpace)
  | mapPage (pml4 virt phys : Word) (flags : PageFlags)
  | mapPageLarge (pml4 virt phys : Word) (flags : PageFlags)
  | mapRange (space : AddressSpace) (virt phys size : Word) (flags : PageFlags)
  | mapRangeLarge (space : AddressSpace) (virt phys size : Word) (flags : PageFlags)
  deriving DecidableEq, Repr

/-- What a paging call returns, what it leaves in `out` if it has that parameter, and the state
it leaves behind. -/
structure Reply where
  returned : Bool
  out : Option AddressSpace
  state : State

namespace PagingCall

/-- The content of `out` before the call. -/
def out : PagingCall → Option AddressSpace
  | .createAddressSpace out => some out
  | _ => none

def perform (s : State) : PagingCall → Reply
  | .createAddressSpace out =>
    let (returned, out, s) := Vmm.createAddressSpace s out
    ⟨returned, some out, s⟩
  | .mapPage pml4 virt phys flags =>
    let (returned, s) := Vmm.mapPage s pml4 virt phys flags
    ⟨returned, none, s⟩
  | .mapPageLarge pml4 virt phys flags =>
    let (returned, s) := Vmm.mapPageLarge s pml4 virt phys flags
    ⟨returned, none, s⟩
  | .mapRange space virt phys size flags =>
    let (returned, s) := Vmm.mapRange s space virt phys size flags
    ⟨returned, none, s⟩
  | .mapRangeLarge space virt phys size flags =>
    let (returned, s) := Vmm.mapRangeLarge s space virt phys size flags
    ⟨returned, none, s⟩

end PagingCall

/-- The allocator with the frames clients hold, and the address spaces created so far. -/
structure World extends Client where
  spaces : List AddressSpace

inductive Operation where
  | paging (call : PagingCall)
  | client (call : Call)
  deriving DecidableEq, Repr

namespace World

/-- No address space exists and no client holds a frame. -/
def start (s : State) : World where
  toClient := Client.start s
  spaces := []

/-- Record a space that was created. -/
def afterPaging (world : World) (reply : Reply) : World where
  state := reply.state
  held := world.held
  spaces := (if reply.returned then reply.out.toList else []) ++ world.spaces

/-- The world with one more address space. -/
def addSpace (world : World) (space : AddressSpace) (s : State) : World where
  state := s
  held := world.held
  spaces := space :: world.spaces

def step (world : World) : Operation → World
  | .paging call => world.afterPaging (call.perform world.state)
  | .client call => { world with toClient := world.toClient.step call }

/-- The discipline of a history: paging calls name an existing space and use named flags only,
and a client frees only frames it got from `alloc_frame` itself. -/
def Permits (world : World) : Operation → Prop
  | .paging (.createAddressSpace _) => True
  | .paging (.mapPage pml4 _ _ flags) =>
    (∃ space ∈ world.spaces, space.pml4 = pml4) ∧ PageFlags.Named flags
  | .paging (.mapPageLarge pml4 _ _ flags) =>
    (∃ space ∈ world.spaces, space.pml4 = pml4) ∧ PageFlags.Named flags
  | .paging (.mapRange space _ _ _ flags) => space ∈ world.spaces ∧ PageFlags.Named flags
  | .paging (.mapRangeLarge space _ _ _ flags) => space ∈ world.spaces ∧ PageFlags.Named flags
  | .client call => world.toClient.FreesHeld call

instance (world : World) : (operation : Operation) → Decidable (world.Permits operation)
  | .paging (.createAddressSpace _) => isTrue trivial
  | .paging (.mapPage _ _ _ _) => inferInstanceAs (Decidable (_ ∧ _))
  | .paging (.mapPageLarge _ _ _ _) => inferInstanceAs (Decidable (_ ∧ _))
  | .paging (.mapRange _ _ _ _ _) => inferInstanceAs (Decidable (_ ∧ _))
  | .paging (.mapRangeLarge _ _ _ _ _) => inferInstanceAs (Decidable (_ ∧ _))
  | .client call => inferInstanceAs (Decidable (world.toClient.FreesHeld call))

end World

/-! ## What the trace says about paging -/

/-- The pages installed through the table at `pml4`, newest first. -/
def installed (s : State) (pml4 : Word) : List Page :=
  s.trace.filterMap fun
    | .mapped table page => if table = pml4 then some page else none
    | _ => none

/-- The frames `allocate_table` took from the allocator. -/
def tableFrames (s : State) : Set ℕ :=
  {frame | ∃ physical, Event.tableTaken physical ∈ s.trace ∧ physical.toNat / 4096 = frame}

theorem mem_installed {s : State} {pml4 : Word} {page : Page} :
    page ∈ installed s pml4 ↔ Event.mapped pml4 page ∈ s.trace := by
  rw [installed, List.mem_filterMap]
  constructor
  · rintro ⟨event, hevent, hpage⟩
    cases event with
    | mapped table other =>
      simp only [Option.ite_none_right_eq_some, Option.some.injEq] at hpage
      obtain ⟨rfl, rfl⟩ := hpage
      exact hevent
    | stored address value => cases hpage
    | granted frame => cases hpage
    | exhausted => cases hpage
    | tableTaken physical => cases hpage
  · intro h
    exact ⟨_, h, by simp⟩

end WaterBuffalo.Vmm
