import WaterBuffalo.Vmm.Mapping

/-!
# Histories keep the invariant

The invariant of the memory manager holds after every history in which no table is needed while
no frame is free.  A client may still find the allocator exhausted; that does no harm.
-/

namespace WaterBuffalo.Vmm

open Pmm TableForest

namespace World

/-- The frames of the PML4 tables. -/
def roots (world : World) : Set ℕ :=
  {frame | ∃ space ∈ world.spaces, space.pml4Physical.toNat / 4096 = frame}

/-- No table is needed while no frame is free. -/
def Supplied (world : World) : Operation → Prop
  | .paging call => State.Calm world.state (call.perform world.state).state
  | .client _ => True

/-- A permitted operation that does not run out of frames for tables. -/
def Admits (world : World) (operation : Operation) : Prop :=
  world.Permits operation ∧ world.Supplied operation

end World

/-- The invariant of a history: that of the memory manager, and what the recorded spaces are. -/
structure WorldInv (stock : Set ℕ) (statics : Statics) (world : World) : Prop where
  kernel : KernelInv stock ↑world.held world.roots world.state
  statics_eq : world.state.toStatics = statics
  spaces : ∀ space ∈ world.spaces, ∃ root ∈ world.roots,
    space = ⟨tableAddress statics root, BitVec.ofNat 64 (4096 * root)⟩

/-! ## Client calls -/

section Client

variable {stock roots : Set ℕ} {client : Client}

/-- What a client's call leaves of the paging code's view: statics, tables and ghost state. -/
structure ClientKeeps (stock : Set ℕ) (s later : State) : Prop where
  statics : later.toStatics = s.toStatics
  tables_eq : ∀ frame ∈ stock, tables later frame = tables s frame
  tableFrames_eq : tableFrames later = tableFrames s
  installed_eq : ∀ pml4, installed later pml4 = installed s pml4

theorem allocFrame_keeps {held : Set ℕ} {s : State} (h : Accounts stock held s) :
    ClientKeeps stock s (allocFrame s).2 := by
  obtain ⟨hframes, hinstalled⟩ := allocFrame_ghost s
  refine ⟨allocFrame_toStatics s, ?_, hframes, hinstalled⟩
  intro frame hframe
  cases hscan : scanBitmap s with
  | none =>
    rw [allocFrame_of_scan_none hscan]
    rfl
  | some offered => exact tables_allocFrame h.sound hscan (h.stock_ok frame hframe).2.2

theorem freed_keeps {held : Set ℕ} {s : State} (h : Accounts stock held s) (address : Word) :
    ClientKeeps stock s (freed s address) := by
  by_cases haccepts : Accepts s address
  · have hword : (address / kPageSize / kWordBits).toNat < s.bitmapWords.toNat := by
      have hbits := h.sound.layout.lt_bits haccepts.2.1
      rw [BitVec.toNat_udiv, BitVec.toNat_udiv, toNat_kWordBits, toNat_kPageSize]
      omega
    -- Whichever branch is taken, the later state differs by at most one bitmap word.
    unfold freed freeFrame
    simp only
    split
    · rename_i later hok
      split_ifs at hok
      cases hok
      refine ⟨rfl, fun frame hframe ↦ ?_, by simp [tableFrames], fun pml4 ↦ by simp [installed]⟩
      exact tables_store_bitmap (h.stock_ok frame hframe).2.2 hword _
    · exact ⟨rfl, fun _ _ ↦ rfl, rfl, fun _ ↦ rfl⟩
  · rw [freed_of_not_accepts haccepts]
    exact ⟨rfl, fun _ _ ↦ rfl, rfl, fun _ ↦ rfl⟩

theorem client_step_keeps {held : Set ℕ} (h : Accounts stock held client.state) (call : Call) :
    ClientKeeps stock client.state (client.step call).state := by
  cases call with
  | alloc => exact allocFrame_keeps h
  | free address => exact freed_keeps h address

/-- Frames that only move between the free and the held ones leave the invariant alone. -/
theorem ClientKeeps.kernelInv {held heldAfter : Set ℕ} {s later : State}
    (hkeeps : ClientKeeps stock s later) (h : KernelInv stock held roots s) (hsound : Sound later)
    (hmoved : ∀ frame, Free later frame ∨ frame ∈ heldAfter ↔ Free s frame ∨ frame ∈ held)
    (hdisjoint : ∀ frame, Free later frame → frame ∉ heldAfter) :
    KernelInv stock heldAfter roots later := by
  have hpages : framePages later = framePages s := by
    funext root
    simp only [framePages, hkeeps.statics, hkeeps.installed_eq]
  have hnotTable : ∀ frame, Free s frame ∨ frame ∈ held → frame ∉ tableFrames s := by
    rintro frame (hfree | hheld)
    · exact h.free_not_table frame hfree
    · exact h.held_not_table frame hheld
  refine ⟨⟨hsound, ?_, ?_, hdisjoint, ?_, ?_⟩, ?_⟩
  · rw [hkeeps.statics]
    exact h.stock_ok
  · intro frame
    rw [h.stock_iff, hkeeps.tableFrames_eq, ← or_assoc, ← or_assoc, hmoved]
  · intro frame hfree
    rw [hkeeps.tableFrames_eq]
    exact hnotTable frame ((hmoved frame).mp (Or.inl hfree))
  · intro frame hheld
    rw [hkeeps.tableFrames_eq]
    exact hnotTable frame ((hmoved frame).mp (Or.inr hheld))
  · rw [hkeeps.tableFrames_eq, hpages]
    exact h.forest.congr fun frame hframe ↦ hkeeps.tables_eq frame (h.table_mem_stock hframe)

/-- A client's call keeps the invariant: it is a step of the pool of free and held frames. -/
theorem KernelInv.client_step (h : KernelInv stock ↑client.held roots client.state) (call : Call)
    (hcall : client.FreesHeld call) :
    KernelInv stock ↑(client.step call).held roots (client.step call).state := by
  have hdisjoint : Disjoint {frame | Free client.state frame} (↑client.held : Set ℕ) :=
    Set.disjoint_left.mpr fun frame hfree ↦ h.free_not_held frame hfree
  have hvalid : ∀ frame ∈ client.held, frame < client.state.frameCount.toNat :=
    fun frame hframe ↦ (h.stock_ok frame ((h.stock_iff frame).mpr (Or.inr (Or.inl hframe)))).2.1
  have hmodels : Client.Models ⟨_, _, hdisjoint⟩ client := ⟨h.sound, rfl, rfl, hvalid⟩
  obtain ⟨after, hafter, hreach⟩ := hmodels.step call hcall
  have hstock := Pool.stock_eq_of_reaches hreach
  rw [Pool.stock, Pool.stock, hafter.free_eq, hafter.held_eq] at hstock
  refine (client_step_keeps h.toAccounts call).kernelInv h hafter.sound ?_ ?_
  · intro frame
    exact Set.ext_iff.mp hstock frame
  · intro frame hfree hheld
    have hafterDisjoint := after.disjoint
    rw [hafter.free_eq, hafter.held_eq] at hafterDisjoint
    exact Set.disjoint_left.mp hafterDisjoint hfree hheld

end Client

/-! ## Paging calls -/

section Paging

variable {stock : Set ℕ} {statics : Statics} {world : World}

theorem WorldInv.exists_root (h : WorldInv stock statics world) {space : AddressSpace}
    (hspace : space ∈ world.spaces) :
    ∃ root ∈ world.roots, space.pml4 = tableAddress world.state.toStatics root := by
  obtain ⟨root, hroot, rfl⟩ := h.spaces space hspace
  exact ⟨root, hroot, by rw [h.statics_eq]⟩

/-- Every mapping call is a walk and a leaf, or a sequence of them, on one of the spaces. -/
theorem WorldInv.perform_map (h : WorldInv stock statics world) {call : PagingCall}
    (hpermits : world.Permits (.paging call)) (hcall : call.out = none)
    (hcalm : State.Calm world.state (call.perform world.state).state) :
    ∃ pml4 pages, MapResult stock ↑world.held world.roots
        (Populated (tables world.state) world.roots) pml4 pages world.state
        ((call.perform world.state).returned, (call.perform world.state).state) ∧
      (call.perform world.state).out = none := by
  cases call with
  | createAddressSpace out => cases hcall
  | mapPage pml4 virt phys flags =>
    obtain ⟨⟨space, hspace, rfl⟩, hflags⟩ := hpermits
    obtain ⟨root, hroot, hpml4⟩ := h.exists_root hspace
    simp only [PagingCall.perform, mapPage_eq, hpml4] at hcalm ⊢
    exact ⟨_, _, mapOne_spec h.kernel hroot hflags hcalm, trivial⟩
  | mapPageLarge pml4 virt phys flags =>
    obtain ⟨⟨space, hspace, rfl⟩, hflags⟩ := hpermits
    obtain ⟨root, hroot, hpml4⟩ := h.exists_root hspace
    simp only [PagingCall.perform, mapPageLarge_eq, hpml4] at hcalm ⊢
    exact ⟨_, _, mapOne_spec h.kernel hroot hflags hcalm, trivial⟩
  | mapRange space virt phys size flags =>
    obtain ⟨hspace, hflags⟩ := hpermits
    obtain ⟨root, hroot, hpml4⟩ := h.exists_root hspace
    simp only [PagingCall.perform, mapRange_eq] at hcalm ⊢
    exact ⟨_, _, mapAll_spec h.kernel hroot hpml4 hflags hcalm, trivial⟩
  | mapRangeLarge space virt phys size flags =>
    obtain ⟨hspace, hflags⟩ := hpermits
    obtain ⟨root, hroot, hpml4⟩ := h.exists_root hspace
    simp only [PagingCall.perform, mapRangeLarge_eq] at hcalm ⊢
    exact ⟨_, _, mapAll_spec h.kernel hroot hpml4 hflags hcalm, trivial⟩

theorem World.afterPaging_spaces_of_none {reply : Reply} (h : reply.out = none) :
    (world.afterPaging reply).spaces = world.spaces := by
  simp only [World.afterPaging, h, Option.toList_none, ite_self, List.nil_append]

theorem World.roots_congr {other : World} (h : other.spaces = world.spaces) :
    other.roots = world.roots := by
  simp only [World.roots, h]

/-- Recording a space whose PML4 is in a fresh frame. -/
theorem WorldInv.addSpace (h : WorldInv stock statics world) {fresh : ℕ} (hfresh : fresh ∈ stock)
    {later : State} (hinv : KernelInv stock ↑world.held (insert fresh world.roots) later)
    (hstatics : later.toStatics = statics) :
    (world.addSpace ⟨tableAddress statics fresh, BitVec.ofNat 64 (4096 * fresh)⟩ later).roots =
        insert fresh world.roots ∧
      WorldInv stock statics
        (world.addSpace ⟨tableAddress statics fresh, BitVec.ofNat 64 (4096 * fresh)⟩ later) := by
  have hbound := (h.kernel.stock_ok fresh hfresh).1
  have hfreshFrame : (BitVec.ofNat 64 (4096 * fresh)).toNat / 4096 = fresh := by
    rw [BitVec.toNat_ofNat]
    omega
  have hroots : (world.addSpace ⟨tableAddress statics fresh, BitVec.ofNat 64 (4096 * fresh)⟩
      later).roots = insert fresh world.roots := by
    ext frame
    simp only [World.roots, World.addSpace, List.mem_cons, exists_eq_or_imp, Set.mem_ofPred_eq,
      Set.mem_insert_iff, hfreshFrame, eq_comm]
  refine ⟨hroots, ?_, hstatics, ?_⟩
  · rw [hroots]
    exact hinv
  · rw [hroots, World.addSpace, List.forall_mem_cons]
    refine ⟨⟨fresh, Set.mem_insert _ _, rfl⟩, fun space hspace ↦ ?_⟩
    obtain ⟨root, hroot, rfl⟩ := h.spaces space hspace
    exact ⟨root, Set.mem_insert_of_mem _ hroot, rfl⟩

/-- `create_address_space` with a frame to spare. -/
theorem WorldInv.create (h : WorldInv stock statics world) {out : AddressSpace}
    (hcalm : State.Calm world.state (createAddressSpace world.state out).2.2) :
    ∃ fresh ∈ stock,
      TableTaken stock world.state (createAddressSpace world.state out).2.2 fresh ∧
      (World.step world (.paging (.createAddressSpace out))).roots = insert fresh world.roots ∧
      WorldInv stock statics (World.step world (.paging (.createAddressSpace out))) := by
  obtain ⟨fresh, hfresh, hreturned, hout, htaken, hinv⟩ :=
    createAddressSpace_spec h.kernel hcalm
  rw [h.statics_eq] at hout
  have hstep : World.step world (.paging (.createAddressSpace out)) =
      world.addSpace ⟨tableAddress statics fresh, BitVec.ofNat 64 (4096 * fresh)⟩
        (createAddressSpace world.state out).2.2 := by
    simp only [World.step, World.afterPaging, PagingCall.perform, hreturned, hout]
    rfl
  rw [hstep]
  exact ⟨fresh, hfresh, htaken, h.addSpace hfresh hinv (htaken.statics.trans h.statics_eq)⟩

end Paging

/-! ## Whole histories -/

section Histories

variable {stock : Set ℕ} {statics : Statics} {world : World}

/-- Only `create_address_space` has an `out` parameter. -/
theorem PagingCall.eq_createAddressSpace {call : PagingCall} {out : AddressSpace}
    (hout : call.out = some out) : call = .createAddressSpace out := by
  cases call with
  | createAddressSpace before => exact congrArg PagingCall.createAddressSpace (Option.some.inj hout)
  | mapPage _ _ _ _ => cases hout
  | mapPageLarge _ _ _ _ => cases hout
  | mapRange _ _ _ _ _ => cases hout
  | mapRangeLarge _ _ _ _ _ => cases hout

/-- One operation keeps the invariant. -/
theorem WorldInv.step (h : WorldInv stock statics world) {operation : Operation}
    (hadmits : world.Admits operation) : WorldInv stock statics (world.step operation) := by
  obtain ⟨hpermits, hsupplied⟩ := hadmits
  cases operation with
  | client call =>
    have hroots : (world.step (.client call)).roots = world.roots := World.roots_congr rfl
    refine ⟨?_, ?_, ?_⟩
    · rw [hroots]
      exact h.kernel.client_step call hpermits
    · exact (client_step_keeps h.kernel.toAccounts call).statics.trans h.statics_eq
    · rw [hroots]
      exact h.spaces
  | paging call =>
    cases hout : call.out with
    | some out =>
      obtain rfl := PagingCall.eq_createAddressSpace hout
      obtain ⟨-, -, -, -, hinv⟩ := h.create hsupplied
      exact hinv
    | none =>
      obtain ⟨pml4, pages, hresult, hnone⟩ := h.perform_map hpermits hout hsupplied
      have hspaces : (world.step (.paging call)).spaces = world.spaces :=
        World.afterPaging_spaces_of_none hnone
      have hroots := World.roots_congr hspaces
      refine ⟨?_, hresult.statics.trans h.statics_eq, ?_⟩
      · rw [hroots]
        exact hresult.inv
      · rw [hroots, hspaces]
        exact h.spaces

/-- One operation leaves no table empty but a root. -/
theorem WorldInv.populated_step (h : WorldInv stock statics world)
    (hnonnull : NonNull stock statics)
    (hpopulated : Populated (tables world.state) world.roots) {operation : Operation}
    (hadmits : world.Admits operation) :
    Populated (tables (world.step operation).state) (world.step operation).roots := by
  obtain ⟨hpermits, hsupplied⟩ := hadmits
  have hcongr : ∀ later : State, (∀ frame ∈ tableFrames world.state,
      tables later frame = tables world.state frame) → Populated (tables later) world.roots := by
    intro later hsame
    rw [← populatedBut_nil_iff 0] at hpopulated ⊢
    exact hpopulated.congr fun frame hframe ↦
      hsame frame ((h.kernel.forest.taken_iff frame).mpr hframe)
  cases operation with
  | client call =>
    have hroots : (world.step (.client call)).roots = world.roots := World.roots_congr rfl
    rw [hroots]
    exact hcongr _ fun frame hframe ↦ (client_step_keeps h.kernel.toAccounts call).tables_eq frame
      (h.kernel.table_mem_stock hframe)
  | paging call =>
    cases hout : call.out with
    | some out =>
      obtain rfl := PagingCall.eq_createAddressSpace hout
      obtain ⟨fresh, -, htaken, hroots, -⟩ := h.create hsupplied
      rw [hroots]
      exact (hcongr _ fun frame hframe ↦ htaken.tables_eq h.kernel hframe).addRoot
        htaken.tables_fresh
    | none =>
      obtain ⟨pml4, pages, hresult, hnone⟩ := h.perform_map hpermits hout hsupplied
      have hroots : (world.step (.paging call)).roots = world.roots :=
        World.roots_congr (World.afterPaging_spaces_of_none hnone)
      rw [hroots]
      exact hresult.populated (h.statics_eq.symm ▸ hnonnull) hpopulated

/-- **The invariant, whole histories.** -/
theorem WorldInv.run (h : WorldInv stock statics world) {operations : List Operation}
    (hlegal : Run.Legal World.step World.Admits world operations) :
    WorldInv stock statics (Run.final World.step world operations) :=
  hlegal.invariant (fun _ _ hinv hadmits ↦ hinv.step hadmits) h

theorem WorldInv.populated_run (h : WorldInv stock statics world)
    (hnonnull : NonNull stock statics) (hpopulated : Populated (tables world.state) world.roots)
    {operations : List Operation}
    (hlegal : Run.Legal World.step World.Admits world operations) :
    Populated (tables (Run.final World.step world operations).state)
      (Run.final World.step world operations).roots :=
  (hlegal.invariant
    (motive := fun reached ↦ WorldInv stock statics reached ∧
      Populated (tables reached.state) reached.roots)
    (fun _ _ hinv hadmits ↦
      ⟨hinv.1.step hadmits, hinv.1.populated_step hnonnull hinv.2 hadmits⟩)
    ⟨h, hpopulated⟩).2

end Histories

/-! ## Histories without exhaustion -/

theorem allocFrame_extends (s : State) : Extends s (allocFrame s).2 := by
  obtain ⟨new, htrace, hgrants, -⟩ := allocFrame_trace s
  exact Extends.of_trace new (allocFrame_toStatics s) htrace hgrants

theorem freed_extends (s : State) (address : Word) : Extends s (freed s address) := by
  unfold freed freeFrame
  simp only
  split
  · rename_i hok
    split_ifs at hok
    cases hok
    exact Extends.of_trace [_] rfl rfl (by simp)
  · exact Extends.of_trace [] rfl rfl (by simp)

theorem World.step_extends (world : World) (operation : Operation) :
    Extends world.state (world.step operation).state := by
  cases operation with
  | paging call => exact (call.perform_proceeds world.state).toExtends
  | client call =>
    cases call with
    | alloc => exact allocFrame_extends _
    | free address => exact freed_extends _ _

theorem World.run_extends (world : World) (operations : List Operation) :
    Extends world.state (Run.final World.step world operations).state := by
  induction operations generalizing world with
  | nil => exact Extends.of_trace [] rfl rfl (by simp)
  | cons operation operations ih =>
    exact (world.step_extends operation).trans (ih (world.step operation))

/-- A permitted history in which no `alloc_frame` call finds the allocator exhausted never runs
out of frames for tables. -/
theorem World.legal_admits {world : World} {operations : List Operation}
    (hlegal : Run.Legal World.step World.Permits world operations)
    (hcalm : State.Calm world.state (Run.final World.step world operations).state) :
    Run.Legal World.step World.Admits world operations := by
  induction operations generalizing world with
  | nil => trivial
  | cons operation operations ih =>
    obtain ⟨hpermits, hrest⟩ := hlegal
    obtain ⟨hfirst, hsecond⟩ := (State.calm_trans (world.step_extends operation).grows
      ((world.step operation).run_extends operations).grows).mp hcalm
    refine ⟨⟨hpermits, ?_⟩, ih hrest hsecond⟩
    cases operation with
    | paging call => exact hfirst
    | client call => trivial

end WaterBuffalo.Vmm
