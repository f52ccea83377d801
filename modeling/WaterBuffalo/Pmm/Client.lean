import WaterBuffalo.Foundation.Pool
import WaterBuffalo.Pmm.Init
import Mathlib.Data.Finset.Insert
import Mathlib.Data.Finset.Erase

/-!
# Allocation histories

A client calls `alloc_frame` and `free_frame` in any order; the frames handed out and not freed
since are recorded next to the allocator's state.  The allocator refines a resource pool: every
call is one pool step or none.  Conservation of frames, the absence of double hand-outs and the
meaning of a failed allocation all follow from that refinement.
-/

namespace WaterBuffalo.Pmm

/-- What every allocator state reached from `init` satisfies, whatever has been freed. -/
structure Sound (s : State) : Prop where
  layout : Layout s.toStatics
  padded : Padded s

theorem init_sound {regions : List MemoryRegion} {hhdmOffset : Word} {memory : Memory}
    {s : State} (hinit : init regions hhdmOffset memory = .ok s) : Sound s := by
  obtain ⟨hinitialized, hpadded, -, -⟩ := init_spec hinit
  exact ⟨hinitialized.layout, hpadded⟩

/-! ## One call of `alloc_frame` -/

theorem allocFrame_of_scan_none {s : State} (h : scanBitmap s = none) :
    allocFrame s = (0, s.record .exhausted) := by
  simp only [allocFrame, h]

theorem allocFrame_fst_of_scan_some {s : State} {frame : Word} (h : scanBitmap s = some frame) :
    (allocFrame s).1 = frame * kPageSize := by
  simp only [allocFrame, h]

theorem allocFrame_toStatics (s : State) : (allocFrame s).2.toStatics = s.toStatics := by
  unfold allocFrame
  split
  · rfl
  · exact setFrameUsed_toStatics s _

theorem allocFrame_freeFrameCount {s : State} {frame : Word} (hscan : scanBitmap s = some frame) :
    (allocFrame s).2.freeFrameCount = s.freeFrameCount - 1 := by
  simp only [allocFrame, hscan]
  exact congrArg (· - 1) (setFrameUsed_freeFrameCount s frame)

theorem scanBitmap_eq_none_iff {s : State} (hs : Sound s) :
    scanBitmap s = none ↔ ∀ frame, ¬ Free s frame := by
  have hspec := scanBitmap_spec s hs.layout hs.padded
  constructor
  · intro h
    rwa [h] at hspec
  · intro h
    cases hscan : scanBitmap s with
    | none => rfl
    | some frame =>
      rw [hscan] at hspec
      exact absurd hspec.1 (h _)

theorem isLeast_of_scan_some {s : State} (hs : Sound s) {frame : Word}
    (h : scanBitmap s = some frame) : IsLeast {frame | Free s frame} frame.toNat := by
  have hspec := scanBitmap_spec s hs.layout hs.padded
  rwa [h] at hspec

theorem used_allocFrame {s : State} (hs : Sound s) {frame : Word}
    (h : scanBitmap s = some frame) (position : ℕ) (hposition : position < 2 ^ 60) :
    used (allocFrame s).2 position =
      if position = frame.toNat then true else used s position := by
  have hvalid := (isLeast_of_scan_some hs h).1.1
  rw [← used_setFrameUsed s hs.layout frame hvalid position hposition]
  simp only [allocFrame, h]
  exact used_congr rfl rfl position

theorem free_allocFrame {s : State} (hs : Sound s) {frame : Word}
    (h : scanBitmap s = some frame) (other : ℕ) :
    Free (allocFrame s).2 other ↔ Free s other ∧ other ≠ frame.toNat := by
  have hcount := hs.layout.frameCount_lt
  rw [Free, Free, allocFrame_toStatics]
  constructor
  · rintro ⟨hvalid, hbit⟩
    rw [used_allocFrame hs h other (by omega)] at hbit
    split_ifs at hbit with heq
    exact ⟨⟨hvalid, hbit⟩, heq⟩
  · rintro ⟨⟨hvalid, hbit⟩, hne⟩
    rw [used_allocFrame hs h other (by omega), if_neg hne]
    exact ⟨hvalid, hbit⟩

theorem allocFrame_sound {s : State} (hs : Sound s) : Sound (allocFrame s).2 := by
  have hstatics := allocFrame_toStatics s
  refine ⟨hstatics ▸ hs.layout, ?_⟩
  intro frame hpadding hframe
  rw [hstatics] at hpadding hframe
  cases hscan : scanBitmap s with
  | none =>
    rw [allocFrame_of_scan_none hscan]
    exact hs.padded frame hpadding hframe
  | some offered =>
    rw [used_allocFrame hs hscan frame (hs.layout.frame_lt hframe)]
    split_ifs
    · rfl
    · exact hs.padded frame hpadding hframe

/-- The address handed out is exact: the product does not wrap. -/
theorem toNat_allocFrame_fst {s : State} (hs : Sound s) {frame : Word}
    (h : scanBitmap s = some frame) : (allocFrame s).1.toNat = 4096 * frame.toNat := by
  have hvalid := (isLeast_of_scan_some hs h).1.1
  have hcount := hs.layout.frameCount_lt
  rw [allocFrame_fst_of_scan_some h, BitVec.toNat_mul, toNat_kPageSize]
  omega

/-! ## One call of `free_frame` -/

/-- The addresses `free_frame` acts on: aligned, in range, and with their bit set. -/
def Accepts (s : State) (address : Word) : Prop :=
  address.toNat % 4096 = 0 ∧ address.toNat / 4096 < s.frameCount.toNat ∧
    used s (address.toNat / 4096) = true

instance (s : State) (address : Word) : Decidable (Accepts s address) :=
  inferInstanceAs (Decidable (_ ∧ _ ∧ _))

theorem freeFrame_of_not_accepts {s : State} {address : Word} (h : ¬ Accepts s address) :
    ∃ fault, freeFrame s address = .error fault := by
  have hmod : (address % kPageSize).toNat = address.toNat % 4096 := by
    rw [BitVec.toNat_umod, toNat_kPageSize]
  have hdiv : (address / kPageSize).toNat = address.toNat / 4096 := by
    rw [BitVec.toNat_udiv, toNat_kPageSize]
  unfold freeFrame
  split_ifs with haligned
  · exact ⟨_, rfl⟩
  · simp only
    split_ifs with hvalid hbit
    · exact ⟨_, rfl⟩
    · exact ⟨_, rfl⟩
    · exfalso
      apply h
      rw [ne_eq, not_not, Bits.eq_zero_iff_toNat, hmod] at haligned
      rw [Bool.not_eq_true', Bool.not_eq_false, frameValid_iff, hdiv] at hvalid
      rw [testFrame_eq_zero_iff, Bool.not_eq_false, hdiv] at hbit
      exact ⟨haligned, hvalid, hbit⟩

/-- The state an accepted `free_frame` leaves. -/
theorem freeFrame_eq_of_accepts {s : State} {address : Word} (h : Accepts s address) :
    let word := address / kPageSize / kWordBits
    let mask := 1#64 <<< (address / kPageSize % kWordBits).toNat
    freeFrame s address = .ok
      { s.store (bitmapAddress s word) (s.load (bitmapAddress s word) &&& ~~~mask) with
        freeFrameCount := s.freeFrameCount + 1 } := by
  obtain ⟨haligned, hvalid, hbit⟩ := h
  have hdiv : (address / kPageSize).toNat = address.toNat / 4096 := by
    rw [BitVec.toNat_udiv, toNat_kPageSize]
  have hzero : address % kPageSize = 0 := by
    rw [Bits.eq_zero_iff_toNat, BitVec.toNat_umod, toNat_kPageSize, haligned]
  have hframe : frameValid s (address / kPageSize) = true := by
    rw [frameValid_iff, hdiv]
    exact hvalid
  have htest : ¬ (s.load (bitmapAddress s (address / kPageSize / kWordBits)) &&&
      1#64 <<< (address / kPageSize % kWordBits).toNat = 0) := by
    rw [testFrame_eq_zero_iff, hdiv, hbit]
    exact Bool.noConfusion
  unfold freeFrame
  simp only [hzero, ne_eq, not_true_eq_false, if_false, hframe, Bool.not_true,
    Bool.false_eq_true, htest]
  rfl

theorem freeFrame_of_accepts {s : State} (hs : Sound s) {address : Word}
    (h : Accepts s address) :
    ∃ later, freeFrame s address = .ok later ∧ later.toStatics = s.toStatics ∧
      later.freeFrameCount = s.freeFrameCount + 1 ∧
      ∀ position < 2 ^ 60, used later position =
        if position = address.toNat / 4096 then false else used s position := by
  have hvalid := h.2.1
  have hcount := hs.layout.frameCount_lt
  have hdiv : (address / kPageSize).toNat = address.toNat / 4096 := by
    rw [BitVec.toNat_udiv, toNat_kPageSize]
  refine ⟨_, freeFrame_eq_of_accepts h, rfl, rfl, ?_⟩
  intro position hposition
  rw [← hdiv]
  exact used_clear s (address / kPageSize) (by omega) position hposition

theorem freed_of_not_accepts {s : State} {address : Word} (h : ¬ Accepts s address) :
    freed s address = s := by
  obtain ⟨fault, herror⟩ := freeFrame_of_not_accepts h
  simp only [freed, herror]

theorem freed_toStatics {s : State} (hs : Sound s) (address : Word) :
    (freed s address).toStatics = s.toStatics := by
  by_cases h : Accepts s address
  · obtain ⟨later, hok, hstatics, -, -⟩ := freeFrame_of_accepts hs h
    simp only [freed, hok, hstatics]
  · rw [freed_of_not_accepts h]

theorem free_freed {s : State} (hs : Sound s) {address : Word} (h : Accepts s address)
    (frame : ℕ) :
    Free (freed s address) frame ↔ Free s frame ∨ frame = address.toNat / 4096 := by
  obtain ⟨later, hok, hstatics, -, hused⟩ := freeFrame_of_accepts hs h
  have hcount := hs.layout.frameCount_lt
  simp only [freed, hok, Free, hstatics]
  constructor
  · rintro ⟨hvalid, hbit⟩
    rw [hused frame (by omega)] at hbit
    split_ifs at hbit with heq
    · exact Or.inr heq
    · exact Or.inl ⟨hvalid, hbit⟩
  · rintro (⟨hvalid, hbit⟩ | heq)
    · refine ⟨hvalid, ?_⟩
      rw [hused frame (by omega)]
      split_ifs
      · rfl
      · exact hbit
    · have hvalid := h.2.1
      rw [← heq] at hvalid
      rw [hused frame (by omega), if_pos heq]
      exact ⟨hvalid, rfl⟩

theorem freed_sound {s : State} (hs : Sound s) (address : Word) : Sound (freed s address) := by
  by_cases h : Accepts s address
  · obtain ⟨later, hok, hstatics, -, hused⟩ := freeFrame_of_accepts hs h
    have hlater : freed s address = later := by simp only [freed, hok]
    rw [hlater]
    refine ⟨hstatics ▸ hs.layout, ?_⟩
    intro frame hpadding hframe
    rw [hstatics] at hpadding hframe
    have hvalid := h.2.1
    rw [hused frame (hs.layout.frame_lt hframe), if_neg (by omega)]
    exact hs.padded frame hpadding hframe
  · rw [freed_of_not_accepts h]
    exact hs

/-! ## Histories -/

/-- The allocator together with the frames handed out and not freed since. -/
structure Client where
  state : State
  held : Finset ℕ

inductive Call where
  | alloc
  | free (address : Word)
  deriving DecidableEq, Repr

namespace Client

/-- A client before its first call. -/
def start (s : State) : Client := ⟨s, ∅⟩

def step (client : Client) : Call → Client
  | .alloc =>
    { state := (allocFrame client.state).2
      held :=
        match scanBitmap client.state with
        | none => client.held
        | some frame => insert frame.toNat client.held }
  | .free address =>
    { state := freed client.state address
      held :=
        match freeFrame client.state address with
        | .ok _ => client.held.erase (address.toNat / 4096)
        | .error _ => client.held }

/-- The address of a frame the client holds. -/
def Holds (client : Client) (address : Word) : Prop :=
  address.toNat % 4096 = 0 ∧ address.toNat / 4096 ∈ client.held

instance (client : Client) (address : Word) : Decidable (client.Holds address) :=
  inferInstanceAs (Decidable (_ ∧ _))

/-- A client that frees only what it holds. -/
def FreesHeld (client : Client) : Call → Prop
  | .alloc => True
  | .free address => client.Holds address

instance (client : Client) : (call : Call) → Decidable (client.FreesHeld call)
  | .alloc => isTrue trivial
  | .free address => inferInstanceAs (Decidable (client.Holds address))

/-- The allocator stays sound under arbitrary calls, and its statics never change. -/
theorem step_sound {client : Client} (h : Sound client.state) (call : Call) :
    Sound (client.step call).state ∧
      (client.step call).state.toStatics = client.state.toStatics := by
  cases call with
  | alloc => exact ⟨allocFrame_sound h, allocFrame_toStatics _⟩
  | free address => exact ⟨freed_sound h address, freed_toStatics h address⟩

theorem run_sound {client : Client} (h : Sound client.state) (calls : List Call) :
    Sound (Run.final step client calls).state ∧
      (Run.final step client calls).state.toStatics = client.state.toStatics := by
  refine Run.invariant (motive := fun reached : Client ↦ Sound reached.state ∧
    reached.state.toStatics = client.state.toStatics) ?_ calls ⟨h, rfl⟩
  intro reached call ⟨hsound, hstatics⟩
  obtain ⟨hnext, hkeep⟩ := step_sound hsound call
  exact ⟨hnext, hkeep.trans hstatics⟩

/-- The pool a client's view of the allocator is. -/
structure Models (pool : Pool ℕ) (client : Client) : Prop where
  sound : Sound client.state
  free_eq : pool.free = {frame | Free client.state frame}
  held_eq : pool.held = ↑client.held
  held_valid : ∀ frame ∈ client.held, frame < client.state.frameCount.toNat

/-- A held frame is one `free_frame` accepts. -/
theorem Models.accepts {pool : Pool ℕ} {client : Client} (h : Models pool client)
    {address : Word} (hholds : client.Holds address) : Accepts client.state address := by
  refine ⟨hholds.1, h.held_valid _ hholds.2, ?_⟩
  have hnotFree : ¬ Free client.state (address.toNat / 4096) := by
    intro hfree
    have hmem : address.toNat / 4096 ∈ pool.free := by
      rw [h.free_eq]
      exact hfree
    have hheld : address.toNat / 4096 ∈ pool.held := by
      rw [h.held_eq]
      exact hholds.2
    exact Set.disjoint_left.mp pool.disjoint hmem hheld
  rw [← Bool.not_eq_false]
  exact fun hbit ↦ hnotFree ⟨h.held_valid _ hholds.2, hbit⟩

/-- **Refinement, one call.** A disciplined call is a pool step or leaves the pool as it was. -/
theorem Models.step {pool : Pool ℕ} {client : Client} (h : Models pool client) (call : Call)
    (hcall : client.FreesHeld call) :
    ∃ after, Models after (client.step call) ∧ Relation.ReflTransGen Pool.Step pool after := by
  obtain ⟨hsound, hstatics⟩ := step_sound h.sound call
  cases call with
  | alloc =>
    cases hscan : scanBitmap client.state with
    | none =>
      refine ⟨pool, ⟨hsound, ?_, ?_, ?_⟩, .refl⟩
      · rw [h.free_eq]
        simp only [Client.step, allocFrame_of_scan_none hscan]
        rfl
      · simpa only [Client.step, hscan] using h.held_eq
      · simpa only [Client.step, hscan, allocFrame_toStatics] using h.held_valid
    | some frame =>
      have hleast := isLeast_of_scan_some h.sound hscan
      have hmem : frame.toNat ∈ pool.free := by
        rw [h.free_eq]
        exact hleast.1
      refine ⟨pool.take frame.toNat hmem, ⟨hsound, ?_, ?_, ?_⟩,
        .single (.take pool frame.toNat hmem)⟩
      · ext other
        simp only [Pool.take, h.free_eq, Client.step, Set.mem_sdiff, Set.mem_ofPred_eq,
          Set.mem_singleton_iff]
        exact (free_allocFrame h.sound hscan other).symm
      · simp only [Pool.take, h.held_eq, Client.step, hscan, Finset.coe_insert]
      · intro other hother
        rw [hstatics]
        simp only [Client.step, hscan, Finset.mem_insert] at hother
        rcases hother with rfl | hold
        · exact hleast.1.1
        · exact h.held_valid other hold
  | free address =>
    have haccepts := h.accepts hcall
    obtain ⟨later, hok, -, -, -⟩ := freeFrame_of_accepts h.sound haccepts
    have hmem : address.toNat / 4096 ∈ pool.held := by
      rw [h.held_eq]
      exact hcall.2
    refine ⟨pool.giveBack _ hmem, ⟨hsound, ?_, ?_, ?_⟩, .single (.giveBack pool _ hmem)⟩
    · ext other
      simp only [Pool.giveBack, h.free_eq, Client.step, Set.mem_insert_iff, Set.mem_ofPred_eq]
      rw [free_freed h.sound haccepts other, or_comm]
    · simp only [Pool.giveBack, h.held_eq, Client.step, hok, Finset.coe_erase]
    · intro other hother
      rw [hstatics]
      simp only [Client.step, hok, Finset.mem_erase] at hother
      exact h.held_valid other hother.2

/-- **Refinement, whole histories.** -/
theorem Models.run {pool : Pool ℕ} {client : Client} (h : Models pool client)
    {calls : List Call} (hlegal : Run.Legal Client.step FreesHeld client calls) :
    ∃ after, Models after (Run.final Client.step client calls) ∧
      Relation.ReflTransGen Pool.Step pool after := by
  refine hlegal.invariant (motive := fun reached ↦ ∃ after, Models after reached ∧
    Relation.ReflTransGen Pool.Step pool after) ?_ ⟨pool, h, .refl⟩
  rintro reached call ⟨middle, hmiddle, hreach⟩ hcall
  obtain ⟨after, hafter, hstep⟩ := hmiddle.step call hcall
  exact ⟨after, hafter, hreach.trans hstep⟩

/-- Before its first call a client's pool has the free frames as its stock. -/
def startPool (s : State) : Pool ℕ where
  free := {frame | Free s frame}
  held := ∅
  disjoint := Set.disjoint_empty _

theorem models_start {s : State} (h : Sound s) : Models (startPool s) (start s) where
  sound := h
  free_eq := rfl
  held_eq := by simp [startPool, start]
  held_valid := by simp [start]

end Client

end WaterBuffalo.Pmm
