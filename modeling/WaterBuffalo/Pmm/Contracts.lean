import WaterBuffalo.Pmm.Conservation

/-!
# What zero means, and what may be freed

Two contracts over histories with arbitrary `free_frame` arguments.  A returned zero means that no
frame was free exactly as long as frame 0 is not free itself: it must not be managed, and nobody
may free address 0.  And `free_frame` acts on held frames and, once, on every other valid frame that
is not managed: the one bit per frame does not tell handed-out frames from reserved ones.
-/

namespace WaterBuffalo.Pmm

/-! ## The failure value of `alloc_frame` -/

/-- `alloc_frame` returns zero exactly when no frame is free, and then changes nothing. -/
def ZeroMeansExhausted (s : State) : Prop :=
  ((allocFrame s).1 = 0 ↔ ∀ frame, ¬ Free s frame) ∧
    ((allocFrame s).1 = 0 →
      (allocFrame s).2.memory = s.memory ∧ (allocFrame s).2.freeFrameCount = s.freeFrameCount)

/-- In one state, the contract holds exactly when frame 0 is not free. -/
theorem zeroMeansExhausted_iff {s : State} (hs : Sound s) :
    ZeroMeansExhausted s ↔ ¬ Free s 0 := by
  cases hscan : scanBitmap s with
  | none =>
    have hnone := (scanBitmap_eq_none_iff hs).mp hscan
    have halloc := allocFrame_of_scan_none hscan
    refine iff_of_true ⟨iff_of_true ?_ hnone, fun _ ↦ ?_⟩ (hnone 0)
    · rw [halloc]
    · rw [halloc]
      exact ⟨rfl, rfl⟩
  | some frame =>
    have hleast := isLeast_of_scan_some hs hscan
    have haddress := toNat_allocFrame_fst hs hscan
    have hzero : (allocFrame s).1 = 0 ↔ frame.toNat = 0 := by
      rw [Bits.eq_zero_iff_toNat, haddress]
      omega
    constructor
    · rintro ⟨hreturn, -⟩ hfree
      have hle := hleast.2 hfree
      exact hreturn.mp (hzero.mpr (Nat.le_zero.mp hle)) 0 hfree
    · intro hnotFree
      have hne : (allocFrame s).1 ≠ 0 := by
        intro h
        have hleastFree : Free s frame.toNat := hleast.1
        rw [hzero.mp h] at hleastFree
        exact hnotFree hleastFree
      exact ⟨iff_of_false hne fun hnone ↦ hnone _ hleast.1, fun h ↦ absurd h hne⟩

/-- Freeing address 0 makes frame 0 free, whatever it was before. -/
theorem free_zero_of_freed {s : State} (hs : Sound s) (hcount : 0 < s.frameCount.toNat) :
    Free (freed s 0) 0 := by
  by_cases haccepts : Accepts s 0
  · exact (free_freed hs haccepts 0).mpr (Or.inr rfl)
  · rw [freed_of_not_accepts haccepts]
    refine ⟨hcount, ?_⟩
    rw [← Bool.not_eq_true]
    exact fun hbit ↦ haccepts ⟨rfl, hcount, hbit⟩

/-- No call other than freeing address 0 makes frame 0 free. -/
theorem Client.not_free_zero_step {client : Client} (hs : Sound client.state)
    (hzero : ¬ Free client.state 0) {call : Call} (hcall : call ≠ .free 0) :
    ¬ Free (client.step call).state 0 := by
  cases call with
  | alloc =>
    cases hscan : scanBitmap client.state with
    | none =>
      simp only [Client.step, allocFrame_of_scan_none hscan]
      exact hzero
    | some frame => exact fun h ↦ hzero ((free_allocFrame hs hscan 0).mp h).1
  | free address =>
    by_cases haccepts : Accepts client.state address
    · intro hfree
      rcases (free_freed hs haccepts 0).mp hfree with hold | hnew
      · exact hzero hold
      · have haligned := haccepts.1
        have haddress : address = 0 := by
          rw [Bits.eq_zero_iff_toNat]
          omega
        exact hcall (by rw [haddress])
    · simp only [Client.step, freed_of_not_accepts haccepts]
      exact hzero

theorem Client.start_run_sound {s : State} (hs : Sound s) (calls : List Call) :
    Sound (Run.final Client.step (Client.start s) calls).state ∧
      (Run.final Client.step (Client.start s) calls).state.toStatics = s.toStatics :=
  Client.run_sound hs calls

/-- **Zero means exhausted.** On a memory map `init` accepts, the contract holds in every state of
a history with arbitrary frees if and only if frame 0 is not a managed frame and the history never
frees address 0, or the frame count wrapped to zero and there is no frame at all. -/
theorem zero_means_exhausted_iff {regions : List MemoryRegion} {hhdmOffset : Word}
    {memory : Memory} {s : State} (hnonwrapping : MemoryMap.NonWrapping regions)
    (hinit : init regions hhdmOffset memory = .ok s) (calls : List Call) :
    (∀ earlier, earlier <+: calls →
      ZeroMeansExhausted (Run.final Client.step (Client.start s) earlier).state) ↔
      (0 ∉ managedFrames regions s.toStatics ∧ .free 0 ∉ calls) ∨
        2 ^ 64 - 4096 < (highestUsableEnd regions).toNat := by
  have hsound := init_sound hinit
  obtain ⟨hinitialized, -, -, -⟩ := init_spec hinit
  have hstart := init_free_iff hnonwrapping.usable hinit 0
  have hreached := Client.start_run_sound hsound
  have hlaw : (∀ earlier, earlier <+: calls →
      ZeroMeansExhausted (Run.final Client.step (Client.start s) earlier).state) ↔
      ∀ earlier, earlier <+: calls →
        ¬ Free (Run.final Client.step (Client.start s) earlier).state 0 :=
    forall₂_congr fun earlier _ ↦ zeroMeansExhausted_iff (hreached earlier).1
  rw [hlaw]
  by_cases hwrapped : 2 ^ 64 - 4096 < (highestUsableEnd regions).toNat
  · refine iff_of_true ?_ (Or.inr hwrapped)
    intro earlier _ hfree
    have hvalid := hfree.1
    rw [(hreached earlier).2, hinitialized.frameCount_eq, toNat_frameCountFor,
      if_neg (by omega)] at hvalid
    omega
  · have hcount : 0 < s.frameCount.toNat := by
      have hne := init_highest_ne_zero hinit
      rw [ne_eq, Bits.eq_zero_iff_toNat] at hne
      rw [hinitialized.frameCount_eq, toNat_frameCountFor, if_pos (by omega)]
      omega
    rw [or_iff_left hwrapped]
    constructor
    · intro hnever
      refine ⟨fun hmanaged ↦ hnever [] ⟨calls, rfl⟩ (hstart.mpr ⟨hcount, hmanaged⟩), ?_⟩
      intro hmem
      obtain ⟨before, after, rfl⟩ := List.append_of_mem hmem
      apply hnever (before ++ [.free 0]) ⟨after, by simp⟩
      rw [Run.final_append]
      refine free_zero_of_freed (hreached before).1 ?_
      rw [(hreached before).2]
      exact hcount
    · rintro ⟨hmanaged, hnever⟩ earlier ⟨later, rfl⟩
      have hlegal : Run.Legal Client.step (fun _ call ↦ call ≠ .free 0) (Client.start s)
          earlier := by
        apply Run.legal_of_forall
        rintro call hcall - rfl
        exact hnever (List.mem_append_left later hcall)
      have hinvariant := hlegal.invariant
        (motive := fun client ↦ Sound client.state ∧ ¬ Free client.state 0)
        (fun client call h hcall ↦
          ⟨(Client.step_sound h.1 call).1, Client.not_free_zero_step h.1 h.2 hcall⟩)
        ⟨hsound, fun hfree ↦ hmanaged (hstart.mp hfree).2⟩
      exact hinvariant.2

theorem zero_means_exhausted_iff_probeMap :
    ∃ s, init probeMap 0xffff800000000000 (fun _ ↦ 0) = .ok s ∧
      ∀ earlier, earlier <+: [.alloc, .alloc, .free 0x2000, .free 0x2001] →
        ZeroMeansExhausted (Run.final Client.step (Client.start s) earlier).state := by
  obtain ⟨s, hinit⟩ := exists_probeMap_init
  have hunusable : ¬ WhollyUsable probeMap 0 := by decide
  refine ⟨s, hinit, (zero_means_exhausted_iff (by decide) hinit _).mpr ?_⟩
  exact Or.inl ⟨fun hmanaged ↦ hunusable hmanaged.1, by decide⟩

/-- A memory map that lists frame 0 as usable, after the region that takes the bitmap. -/
def lowFrameMap : List MemoryRegion :=
  [⟨0x1000, 0x1000, .usable⟩, ⟨0x0, 0x1000, .usable⟩]

/-- Right after `init` on `lowFrameMap`, `alloc_frame` returns zero although frame 0 is free. -/
theorem zero_not_exhausted :
    ¬ ∀ (regions : List MemoryRegion) (hhdmOffset : Word) (memory : Memory) (s : State)
      (calls : List Call), MemoryMap.NonWrapping regions →
        init regions hhdmOffset memory = .ok s →
        ZeroMeansExhausted (Run.final Client.step (Client.start s) calls).state := by
  intro hall
  obtain ⟨s, hinit, hreturn, hfree⟩ : ∃ s, init lowFrameMap 0xffff800000000000 (fun _ ↦ 0) = .ok s ∧
      (allocFrame s).1 = 0 ∧ Free s 0 :=
    Run.exists_of_succeedsWith (by decide +kernel)
  exact (hall lowFrameMap _ _ s [] (by decide) hinit).1.mp hreturn 0 hfree

/-! ## What `free_frame` acts on -/

/-- The call changes the bitmap or the counter. -/
def Changes (s : State) (address : Word) : Prop :=
  (freed s address).memory ≠ s.memory ∨ (freed s address).freeFrameCount ≠ s.freeFrameCount

theorem changes_iff_accepts {s : State} (hs : Sound s) (address : Word) :
    Changes s address ↔ Accepts s address := by
  by_cases haccepts : Accepts s address
  · obtain ⟨later, hok, -, hcount, -⟩ := freeFrame_of_accepts hs haccepts
    refine iff_of_true (Or.inr ?_) haccepts
    simp only [freed, hok, hcount]
    bv_omega
  · refine iff_of_false ?_ haccepts
    simp [Changes, freed_of_not_accepts haccepts]

/-- Every held frame is valid and marked used, whatever else has been freed. -/
def Client.HeldUsed (client : Client) : Prop :=
  ∀ frame ∈ client.held, frame < client.state.frameCount.toNat ∧ used client.state frame = true

theorem Client.heldUsed_step {client : Client} (hs : Sound client.state)
    (h : client.HeldUsed) (call : Call) : (client.step call).HeldUsed := by
  have hcount := hs.layout.frameCount_lt
  cases call with
  | alloc =>
    cases hscan : scanBitmap client.state with
    | none =>
      intro frame hframe
      simp only [Client.step, hscan] at hframe
      simp only [Client.step, allocFrame_of_scan_none hscan]
      exact h frame hframe
    | some offered =>
      have hvalid := (isLeast_of_scan_some hs hscan).1.1
      intro frame hframe
      simp only [Client.step, hscan, Finset.mem_insert] at hframe
      simp only [Client.step, allocFrame_toStatics]
      rcases hframe with rfl | hold
      · refine ⟨hvalid, ?_⟩
        rw [used_allocFrame hs hscan _ (by omega), if_pos rfl]
      · obtain ⟨hlt, hbit⟩ := h frame hold
        refine ⟨hlt, ?_⟩
        rw [used_allocFrame hs hscan _ (by omega), hbit, ite_self]
  | free address =>
    by_cases haccepts : Accepts client.state address
    · obtain ⟨later, hok, hstatics, -, hused⟩ := freeFrame_of_accepts hs haccepts
      intro frame hframe
      simp only [Client.step, hok, Finset.mem_erase] at hframe
      obtain ⟨hlt, hbit⟩ := h frame hframe.2
      simp only [Client.step, freed, hok, hstatics]
      refine ⟨hlt, ?_⟩
      rw [hused frame (by omega), if_neg hframe.1]
      exact hbit
    · obtain ⟨fault, herror⟩ := freeFrame_of_not_accepts haccepts
      simpa only [Client.HeldUsed, Client.step, freed, herror] using h

theorem Client.start_heldUsed (s : State) : (Client.start s).HeldUsed := by
  simp [HeldUsed, start]

theorem Client.heldUsed_run {s : State} (hs : Sound s) (calls : List Call) :
    (Run.final Client.step (Client.start s) calls).HeldUsed := by
  have hstart : Sound (Client.start s).state ∧ (Client.start s).HeldUsed :=
    ⟨hs, Client.start_heldUsed s⟩
  have hboth := Run.invariant
    (motive := fun client : Client ↦ Sound client.state ∧ client.HeldUsed)
    (fun client call h ↦ ⟨(Client.step_sound h.1 call).1, Client.heldUsed_step h.1 h.2 call⟩)
    calls hstart
  exact hboth.2

/-- The address of a frame. -/
def frameAddress (frame : ℕ) : Word :=
  BitVec.ofNat 64 (4096 * frame)

theorem frameAddress_div {address : Word} (haligned : address.toNat % 4096 = 0) :
    frameAddress (address.toNat / 4096) = address := by
  have hexact : 4096 * (address.toNat / 4096) = address.toNat := by omega
  rw [frameAddress, hexact, BitVec.ofNat_toNat, BitVec.setWidth_eq]

theorem toNat_frameAddress {s : State} (hs : Sound s) {frame : ℕ}
    (hvalid : frame < s.frameCount.toNat) : (frameAddress frame).toNat = 4096 * frame := by
  have hcount := hs.layout.frameCount_lt
  rw [frameAddress, BitVec.toNat_ofNat]
  omega

/-- After a call that frees its address, a valid frame is not marked used. -/
theorem used_freed_frameAddress {s : State} (hs : Sound s) {frame : ℕ}
    (hvalid : frame < s.frameCount.toNat) : used (freed s (frameAddress frame)) frame = false := by
  have haddress := toNat_frameAddress hs hvalid
  have hdiv : (frameAddress frame).toNat / 4096 = frame := by omega
  by_cases haccepts : Accepts s (frameAddress frame)
  · have hfree := (free_freed hs haccepts frame).mpr (Or.inr hdiv.symm)
    exact hfree.2
  · rw [freed_of_not_accepts haccepts, ← Bool.not_eq_true]
    intro hused
    apply haccepts
    rw [Accepts, hdiv]
    exact ⟨by omega, hvalid, hused⟩

/-- A call that frees another address leaves the bit as it is. -/
theorem used_freed_of_ne {s : State} (hs : Sound s) {address : Word} {frame : ℕ}
    (hvalid : frame < s.frameCount.toNat) (hne : address ≠ frameAddress frame) :
    used (freed s address) frame = used s frame := by
  have hcount := hs.layout.frameCount_lt
  by_cases haccepts : Accepts s address
  · obtain ⟨later, hok, -, -, hused⟩ := freeFrame_of_accepts hs haccepts
    have hother : frame ≠ address.toNat / 4096 := by
      rintro rfl
      exact hne (frameAddress_div haccepts.1).symm
    simp only [freed, hok]
    rw [hused frame (by omega), if_neg hother]
  · rw [freed_of_not_accepts haccepts]

namespace Client

variable {client : Client} {frame : ℕ}

theorem not_held_step_frameAddress (hs : Sound client.state) (h : client.HeldUsed)
    (hvalid : frame < client.state.frameCount.toNat) :
    frame ∉ (client.step (.free (frameAddress frame))).held := by
  intro hheld
  have hstep := (heldUsed_step hs h (.free (frameAddress frame))) frame hheld
  have hclear : used (client.step (.free (frameAddress frame))).state frame = false :=
    used_freed_frameAddress hs hvalid
  rw [hclear] at hstep
  exact Bool.noConfusion hstep.2

theorem mem_held_step_of_ne {address : Word} (hne : address ≠ frameAddress frame) :
    frame ∈ (client.step (.free address)).held ↔ frame ∈ client.held := by
  by_cases haccepts : Accepts client.state address
  · have hother : frame ≠ address.toNat / 4096 := by
      rintro rfl
      exact hne (frameAddress_div haccepts.1).symm
    simp only [step, freeFrame_eq_of_accepts haccepts, Finset.mem_erase, ne_eq, hother,
      not_false_eq_true, true_and]
  · obtain ⟨fault, herror⟩ := freeFrame_of_not_accepts haccepts
    simp only [step, herror]

/-- **What a bit records of the history.** A valid frame is marked used exactly while it is held
and, if it was not free in the beginning, until its address is freed for the first time. -/
theorem used_iff_history {s : State} (hs : Sound s) {frame : ℕ}
    (hvalid : frame < s.frameCount.toNat) (calls : List Call) :
    used (Run.final step (start s) calls).state frame = true ↔
      frame ∈ (Run.final step (start s) calls).held ∨
        ¬ Free s frame ∧ .free (frameAddress frame) ∉ calls := by
  -- The calls are taken off at the end: what is freed is asked of the history so far.
  induction calls using List.reverseRecOn with
  | nil =>
    simp [start, Free, hvalid]
  | append_singleton calls call ih =>
    obtain ⟨hsound, hstatics⟩ := start_run_sound hs calls
    have hheld := heldUsed_run hs calls
    rw [Run.final_append, Run.final_cons, Run.final_nil, List.mem_append, List.mem_singleton]
    generalize Run.final step (start s) calls = client at ih hsound hstatics hheld
    have hcount := hsound.layout.frameCount_lt
    have hvalid' : frame < client.state.frameCount.toNat := by
      rw [hstatics]
      exact hvalid
    cases call with
    | alloc =>
      have hcalls : (.free (frameAddress frame) ∈ calls ∨
          Call.free (frameAddress frame) = .alloc) ↔ .free (frameAddress frame) ∈ calls :=
        or_iff_left Call.noConfusion
      rw [hcalls]
      cases hscan : scanBitmap client.state with
      | none =>
        simp only [step, hscan, allocFrame_of_scan_none hscan]
        exact ih
      | some offered =>
        simp only [step, hscan, Finset.mem_insert]
        rw [used_allocFrame hsound hscan frame (by omega)]
        by_cases hoffered : frame = offered.toNat
        · rw [if_pos hoffered]
          exact iff_of_true rfl (Or.inl (Or.inl hoffered))
        · rw [if_neg hoffered, or_iff_right hoffered]
          exact ih
    | free address =>
      by_cases haddress : address = frameAddress frame
      · subst haddress
        refine iff_of_false ?_ ?_
        · rw [Bool.not_eq_true]
          exact used_freed_frameAddress hsound hvalid'
        · rintro (hmem | ⟨-, hnever⟩)
          · exact not_held_step_frameAddress hsound hheld hvalid' hmem
          · exact hnever (Or.inr rfl)
      · have hcalls : (.free (frameAddress frame) ∈ calls ∨
            Call.free (frameAddress frame) = .free address) ↔
            .free (frameAddress frame) ∈ calls := by
          refine or_iff_left fun heq ↦ haddress ?_
          injection heq with heq
          exact heq.symm
        rw [hcalls, mem_held_step_of_ne haddress]
        have hbit : used (client.step (.free address)).state frame = used client.state frame :=
          used_freed_of_ne hsound hvalid' haddress
        rw [hbit]
        exact ih

end Client

/-- **What `free_frame` acts on.** In every state of every history with arbitrary arguments, a call
changes the allocator exactly when it frees a held frame, or for the first time a valid frame that
is not managed, and leaves the whole state alone otherwise.  A frame that is not managed is handed
out only after the history has freed its address. -/
theorem freeFrame_contract {regions : List MemoryRegion} {hhdmOffset : Word} {memory : Memory}
    {s : State} (hnonwrapping : MemoryMap.NonWrapping regions)
    (hinit : init regions hhdmOffset memory = .ok s) (calls : List Call) :
    let client := Run.final Client.step (Client.start s) calls
    (∀ address, (Changes client.state address ↔
        client.Holds address ∨
          address.toNat % 4096 = 0 ∧ address.toNat / 4096 < s.frameCount.toNat ∧
            address.toNat / 4096 ∉ managedFrames regions s.toStatics ∧ .free address ∉ calls) ∧
      (¬ Changes client.state address → freed client.state address = client.state)) ∧
    ∀ frame, scanBitmap client.state = some frame →
      frame.toNat ∈ managedFrames regions s.toStatics ∨
        .free (allocFrame client.state).1 ∈ calls := by
  intro client
  have hsound := init_sound hinit
  obtain ⟨hreached, hstatics⟩ := Client.start_run_sound hsound calls
  have hfree := init_free_iff hnonwrapping.usable hinit
  refine ⟨fun address ↦ ⟨?_, fun hsame ↦ ?_⟩, fun frame hscan ↦ ?_⟩
  · rw [changes_iff_accepts hreached]
    constructor
    · rintro ⟨haligned, hvalid, hused⟩
      rw [hstatics] at hvalid
      rcases (Client.used_iff_history hsound hvalid calls).mp hused with hheld | ⟨hnotFree, hnever⟩
      · exact Or.inl ⟨haligned, hheld⟩
      · rw [frameAddress_div haligned] at hnever
        exact Or.inr ⟨haligned, hvalid, fun hmanaged ↦ hnotFree ((hfree _).mpr ⟨hvalid, hmanaged⟩),
          hnever⟩
    · rintro (⟨haligned, hheld⟩ | ⟨haligned, hvalid, hmanaged, hnever⟩)
      · exact ⟨haligned, Client.heldUsed_run hsound calls _ hheld⟩
      · refine ⟨haligned, by rw [hstatics]; exact hvalid, ?_⟩
        rw [← frameAddress_div haligned] at hnever
        exact (Client.used_iff_history hsound hvalid calls).mpr
          (Or.inr ⟨fun hstart ↦ hmanaged ((hfree _).mp hstart).2, hnever⟩)
  · exact freed_of_not_accepts fun haccepts ↦ hsame ((changes_iff_accepts hreached _).mpr haccepts)
  · have haddress := toNat_allocFrame_fst hreached hscan
    have hoffered : Free client.state frame.toNat := (isLeast_of_scan_some hreached hscan).1
    have hvalid := hoffered.1
    rw [hstatics] at hvalid
    have hfrom : frameAddress frame.toNat = (allocFrame client.state).1 := by
      rw [BitVec.toNat_eq, haddress, toNat_frameAddress hsound hvalid]
    by_contra hnone
    rw [not_or, ← hfrom] at hnone
    have hused := (Client.used_iff_history hsound hvalid calls).mpr
      (Or.inr ⟨fun hstart ↦ hnone.1 ((hfree _).mp hstart).2, hnone.2⟩)
    rw [hoffered.2] at hused
    cases hused

/-- Right after `init` on `probeMap` the reserved address 0 can be freed, and only once. -/
theorem freeFrame_contract_probeMap :
    ∃ s, init probeMap 0xffff800000000000 (fun _ ↦ 0) = .ok s ∧
      Changes (Client.start s).state 0 ∧
      ¬ Changes (Run.final Client.step (Client.start s) [.free 0]).state 0 := by
  obtain ⟨s, hinit⟩ := exists_probeMap_init
  have hunusable : ¬ WhollyUsable probeMap 0 := by decide
  have hvalid : 0 < s.frameCount.toNat := by
    rw [(init_spec hinit).1.frameCount_eq]
    decide
  refine ⟨s, hinit, ((freeFrame_contract (by decide) hinit []).1 0).1.mpr ?_, fun hchanges ↦ ?_⟩
  · exact Or.inr ⟨rfl, hvalid, fun hmanaged ↦ hunusable hmanaged.1, List.not_mem_nil⟩
  · rcases ((freeFrame_contract (by decide) hinit [.free 0]).1 0).1.mp hchanges with
      hheld | ⟨-, -, -, hnever⟩
    · have hstep : 0 ∉ ((Client.start s).step (.free 0)).held :=
        Client.not_held_step_frameAddress (init_sound hinit) (Client.start_heldUsed s) hvalid
      exact hstep hheld.2
    · exact hnever List.mem_cons_self

/-- Right after `init` on `probeMap`, freeing the reserved address 0 changes the allocator. -/
theorem reserved_frame_freed :
    ¬ ∀ (regions : List MemoryRegion) (hhdmOffset : Word) (memory : Memory) (s : State)
      (calls : List Call), MemoryMap.NonWrapping regions →
        init regions hhdmOffset memory = .ok s →
        ∀ address, (Changes (Run.final Client.step (Client.start s) calls).state address ↔
          (Run.final Client.step (Client.start s) calls).Holds address) := by
  intro hall
  obtain ⟨s, hinit⟩ := exists_probeMap_init
  have hnonwrapping : MemoryMap.NonWrapping probeMap := by decide
  have hunusable : ¬ WhollyUsable probeMap 0 := by decide
  have hvalid : 0 < s.frameCount.toNat := by
    rw [(init_spec hinit).1.frameCount_eq]
    decide
  have hused : used s 0 = true := by
    rw [← Bool.not_eq_false]
    intro hclear
    have hfree := (init_free_iff hnonwrapping.usable hinit 0).mp ⟨hvalid, hclear⟩
    exact hunusable hfree.2.1
  have hchanges := (changes_iff_accepts (init_sound hinit) 0).mpr ⟨rfl, hvalid, hused⟩
  have hholds := (hall probeMap _ _ s [] (by decide) hinit 0).mp hchanges
  exact absurd hholds.2 (by simp [Client.start])

end WaterBuffalo.Pmm
