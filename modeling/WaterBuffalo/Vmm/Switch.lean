import WaterBuffalo.Vmm.KernelSpace

/-!
# Surviving the switch of CR3

Once the kernel space is loaded, the allocator and the paging code reach the bitmap, the tables
and new frames through that space's own direct map.  The direct map is as large as the highest end
of any region, rounded up; the frames the allocator manages and the bitmap lie below the highest
usable end.  As long as no table is needed while no frame is free, nothing ever changes the pages
of the direct map, so every such byte stays where it was.
-/

namespace WaterBuffalo.Vmm

open Pmm TableForest

/-- A byte the memory manager relies on in a history from `before` to `later`: of the bitmap, of a
table of the space, or of a frame `alloc_frame` returned. -/
inductive ReliesOn (before later : State) (space : AddressSpace) (byte : Word) : Prop where
  | bitmap (hlower : later.bitmapPhys.toNat ≤ byte.toNat)
      (hupper : byte.toNat < later.bitmapPhys.toNat + later.bitmapBytes.toNat)
  | table (htable : Reached link (tables later) {space.pml4Physical.toNat / 4096} 3
      (byte.toNat / 4096))
  | granted (frame : Word) (hgranted : Event.granted frame ∈ before.since later)
      (hbyte : byte.toNat / 4096 = frame.toNat)
  -- The 0 that `alloc_frame` returns to a client when no frame is free.
  | refused (hexhausted : Event.exhausted ∈ before.since later) (hbyte : byte.toNat < 4096)

/-- The pointer to the byte still leads to it, and it can be written there. -/
def InPlace (s : State) (space : AddressSpace) (byte : Word) : Prop :=
  translate s space (physicalToVirtual s byte) = byte ∧
    (effectiveRights s space.pml4 (physicalToVirtual s byte)).writable = true

/-- The world in which `build_kernel_address_space` has returned true. -/
def World.afterBuild (world : World) (out : AddressSpace) (regions : List MemoryRegion)
    (hhdmOffset : Word) (layout : KernelLayout) : World :=
  let built := buildKernelAddressSpace world.state out (some regions) hhdmOffset layout
  world.addSpace built.2.1 built.2.2

/-- A world reached from `init` by a history that never runs out of frames for tables. -/
def Booted (regions : List MemoryRegion) (hhdmOffset : Word) (world : World) : Prop :=
  ∃ memory s operations, init regions hhdmOffset memory = .ok s ∧
    Run.Legal World.step World.Admits (World.start s) operations ∧
    world = Run.final World.step (World.start s) operations

theorem Booted.worldInv {regions : List MemoryRegion} {hhdmOffset : Word} {world : World}
    (h : Booted regions hhdmOffset world) (hmap : LimineMap regions) :
    ∃ stock, WorldInv stock world.state.toStatics world ∧
      Initialized regions hhdmOffset world.state.toStatics := by
  obtain ⟨memory, s, operations, hinit, hlegal, rfl⟩ := h
  have hinv := (init_worldInv hmap hinit).run hlegal
  rw [hinv.statics_eq]
  exact ⟨_, hinv, (init_spec hinit).1⟩

/-! ## Bounds -/

theorem highestUsableEnd_le_highestEnd (regions : List MemoryRegion) :
    (highestUsableEnd regions).toNat ≤ (highestEnd regions).toNat := by
  rw [highestUsableEnd_eq]
  rcases (Bits.foldl_highest (fun region : MemoryRegion ↦ region.base + region.length)
    (regions.filter fun region ↦ region.type = .usable) 0).2 with hzero | ⟨region, hmem, heq⟩
  · rw [hzero]
    exact Nat.zero_le _
  · rw [heq, ← BitVec.le_def]
    exact (Bits.foldl_highest (fun region : MemoryRegion ↦ region.base + region.length)
      regions 0).1.2 region (List.mem_of_mem_filter hmem)

section Bounds

variable {regions : List MemoryRegion} {hhdmOffset : Word} {statics : Statics}

/-- Every valid frame lies below the end of the direct map. -/
theorem lt_directMapSize_of_valid (h : Initialized regions hhdmOffset statics)
    (hdirect : (directMapRequest regions hhdmOffset).Admissible) {byte : Word}
    (hvalid : byte.toNat / 4096 < statics.frameCount.toNat) :
    byte.toNat < (directMapSize regions).toNat := by
  obtain ⟨-, hmultiple, hle⟩ := directMapSize_spec hdirect
  have hhighest := highestUsableEnd_le_highestEnd regions
  rw [h.frameCount_eq, toNat_frameCountFor] at hvalid
  split at hvalid <;> omega

/-- The bitmap lies below the end of the direct map. -/
theorem lt_directMapSize_of_bitmap (h : Initialized regions hhdmOffset statics)
    (hmap : LimineMap regions) (hdirect : (directMapRequest regions hhdmOffset).Admissible)
    {byte : Word}
    (hupper : byte.toNat < statics.bitmapPhys.toNat + statics.bitmapBytes.toNat) :
    byte.toNat < (directMapSize regions).toNat := by
  obtain ⟨-, -, hle⟩ := directMapSize_spec hdirect
  have hhighest := highestUsableEnd_le_highestEnd regions
  obtain ⟨region, hmem, husable, hbase, hlength⟩ := h.exists_region
  have hend := le_highestUsableEnd hmem husable
  rw [BitVec.le_def, BitVec.toNat_add,
    Nat.mod_eq_of_lt (hmap.nonWrapping region hmem husable), hbase] at hend
  have hbytes := h.bitmapBytes_eq
  have hpages := h.bitmapPages_eq
  calc
    byte.toNat < statics.bitmapPhys.toNat + statics.bitmapBytes.toNat := hupper
    _ ≤ statics.bitmapPhys.toNat + region.length.toNat := by omega
    _ ≤ (highestUsableEnd regions).toNat := hend
    _ ≤ (highestEnd regions).toNat := hhighest
    _ ≤ (directMapSize regions).toNat := hle

end Bounds

/-! ## Later histories -/

/-- The direct map of a space, once installed, shows every byte below its size. -/
theorem WorldInv.inPlace {stock : Set ℕ} {statics : Statics} {world : World}
    (h : WorldInv stock statics world) {regions : List MemoryRegion} {hhdmOffset : Word}
    (hhhdm : statics.hhdmOffset = hhdmOffset) {space : AddressSpace}
    (hspace : space ∈ world.spaces) (hnonnull : space.pml4 ≠ 0)
    (hdirect : (directMapRequest regions hhdmOffset).Admissible)
    (hinstalled : ∀ page ∈ (directMapRequest regions hhdmOffset).pages,
      page ∈ installed world.state space.pml4) {byte : Word}
    (hbyte : byte.toNat < (directMapSize regions).toNat) :
    InPlace world.state space byte := by
  obtain ⟨root, hroot, hpml4⟩ := h.exists_root hspace
  have hcontains := inDirectMap_of_lt hdirect hbyte
  obtain ⟨htranslate, hrights, -⟩ := h.kernel.translate_range hroot hpml4 hnonnull hdirect
    hinstalled ((inDirectMap_iff _).mp hcontains)
  rw [InPlace, physicalToVirtual, h.statics_eq, hhhdm, hrights]
  refine ⟨?_, congrArg Rights.writable ofFlags_data⟩
  calc
    translate world.state space (hhdmOffset + byte) = 0 + (hhdmOffset + byte - hhdmOffset) :=
      htranslate
    _ = byte := by ring

/-- The table of a recorded space is in a valid frame. -/
theorem WorldInv.table_valid {stock : Set ℕ} {statics : Statics} {world : World}
    (h : WorldInv stock statics world) {space : AddressSpace} (hspace : space ∈ world.spaces)
    {frame : ℕ} (htable : Reached link (tables world.state) {space.pml4Physical.toNat / 4096} 3
      frame) : frame < statics.frameCount.toNat := by
  obtain ⟨root, hroot, path, hpath, hdescend⟩ := htable
  have hmem : root ∈ world.roots := ⟨space, hspace, hroot.symm⟩
  have htaken := (h.kernel.forest.taken_iff frame).mpr ⟨root, hmem, path, hpath, hdescend⟩
  have hvalid := (h.kernel.stock_ok frame (h.kernel.table_mem_stock htaken)).2.1
  rwa [h.statics_eq] at hvalid

/-- **The memory manager survives the switch.** In every history after a successful
`build_kernel_address_space` in which no table is needed while no frame is free, every byte the
memory manager relies on stays in its place. -/
theorem direct_map_survives {regions : List MemoryRegion} {hhdmOffset : Word} {world : World}
    (hmap : LimineMap regions) (hbooted : Booted regions hhdmOffset world) (out : AddressSpace)
    {layout : KernelLayout}
    (hreturned : (buildKernelAddressSpace world.state out (some regions) hhdmOffset
      layout).1 = true)
    (hcalm : State.Calm world.state
      (buildKernelAddressSpace world.state out (some regions) hhdmOffset layout).2.2)
    {operations : List Operation}
    (hlegal : Run.Legal World.step World.Admits
      (world.afterBuild out regions hhdmOffset layout) operations) :
    let space := (buildKernelAddressSpace world.state out (some regions) hhdmOffset layout).2.1
    let built := world.afterBuild out regions hhdmOffset layout
    let later := Run.final World.step built operations
    ∀ byte, ReliesOn built.state later.state space byte → InPlace later.state space byte := by
  intro space built later byte hrelies
  obtain ⟨stock, hinv, hinitialized⟩ := hbooted.worldInv hmap
  obtain ⟨fresh, hfresh, hbuilt⟩ := buildKernelAddressSpace_spec hinv.kernel hreturned hcalm
  have hstart : WorldInv stock world.state.toStatics built := by
    have hadded := (hinv.addSpace hfresh hbuilt.inv hbuilt.statics).2
    rwa [← hbuilt.space_eq] at hadded
  have hlater : WorldInv stock world.state.toStatics later := hstart.run hlegal
  have hspace : space ∈ later.spaces := built.run_spaces operations List.mem_cons_self
  have hextends : Extends built.state later.state := built.run_extends operations
  have hrequest : directMapRequest regions hhdmOffset ∈
      kernelRequests regions hhdmOffset layout := List.mem_cons_self
  have hdirect := hbuilt.maps.admissible _ hrequest
  refine hlater.inPlace hinitialized.hhdmOffset_eq hspace hbuilt.nonnull hdirect
    (fun page hpage ↦ installed_of_grows hextends.grows
      (hbuilt.maps.installed hrequest page hpage)) ?_
  cases hrelies with
  | bitmap hlower hupper =>
    rw [hlater.statics_eq] at hupper
    exact lt_directMapSize_of_bitmap hinitialized hmap hdirect hupper
  | table htable =>
    exact lt_directMapSize_of_valid hinitialized hdirect (hlater.table_valid hspace htable)
  | granted frame hgranted hbyte =>
    have hvalid := hextends.grants frame hgranted
    rw [hstart.statics_eq, ← hbyte] at hvalid
    exact lt_directMapSize_of_valid hinitialized hdirect hvalid
  | refused hexhausted hbyte =>
    obtain ⟨hpos, hmultiple, -⟩ := directMapSize_spec hdirect
    omega

theorem direct_map_survives_bootMap :
    ∃ s, init bootMap 0xffff800000000000 (fun _ ↦ 0) = .ok s ∧
      let space :=
        (buildKernelAddressSpace s ⟨0, 0⟩ (some bootMap) 0xffff800000000000 bootLayout).2.1
      let built := (World.start s).afterBuild ⟨0, 0⟩ bootMap 0xffff800000000000 bootLayout
      let later := Run.final World.step built [.client .alloc]
      ∀ byte, ReliesOn built.state later.state space byte → InPlace later.state space byte := by
  obtain ⟨s, hinit, hreturned, hcalm⟩ := exists_bootMap_build
  have hbooted : Booted bootMap 0xffff800000000000 (World.start s) :=
    ⟨_, s, [], hinit, trivial, rfl⟩
  exact ⟨s, hinit, direct_map_survives (by decide) hbooted ⟨0, 0⟩ hreturned
    (State.calm_of_not_mem hcalm) ⟨⟨trivial, trivial⟩, trivial⟩⟩

/-- Five usable frames, one of them frame 0: the bitmap and the kernel space take them all. -/
def tightMap : List MemoryRegion := [⟨0x1000, 0x4000, .usable⟩, ⟨0, 0x1000, .usable⟩]

/-- On `tightMap` the PML4 is in frame 0, and the next table needed is placed over it. -/
theorem exists_tightMap_loss :
    ∃ s, init tightMap 0xffff800000000000 (fun _ ↦ 0) = .ok s ∧
      let built :=
        buildKernelAddressSpace s ⟨0, 0⟩ (some tightMap) 0xffff800000000000 bootLayout
      let later := (mapPage built.2.2 built.2.1.pml4 0 0x5000 PageFlags.writable).2
      built.1 = true ∧ Event.exhausted ∉ built.2.2.trace ∧ later.bitmapPhys = 0x1000 ∧
        later.bitmapBytes = 8 ∧
        translate later built.2.1 (physicalToVirtual later 0x1000) ≠ 0x1000 := by
  exact Run.exists_of_succeedsWith (by decide +kernel)

/-- A mapping call that runs out of frames loses the direct map. -/
theorem direct_map_lost :
    ¬ ∀ (regions : List MemoryRegion) (hhdmOffset : Word) (memory : Memory) (s : State)
      (out : AddressSpace) (layout : KernelLayout) (operations : List Operation),
      LimineMap regions → MemoryMap.NonWrapping regions →
      init regions hhdmOffset memory = .ok s →
      (buildKernelAddressSpace s out (some regions) hhdmOffset layout).1 = true →
      Event.exhausted ∉
        (buildKernelAddressSpace s out (some regions) hhdmOffset layout).2.2.trace →
      let space := (buildKernelAddressSpace s out (some regions) hhdmOffset layout).2.1
      let built := (World.start s).afterBuild out regions hhdmOffset layout
      Run.Legal World.step World.Permits built operations →
      let later := Run.final World.step built operations
      ∀ byte, ReliesOn built.state later.state space byte → InPlace later.state space byte := by
  intro hall
  obtain ⟨s, hinit, hreturned, hcalm, hphys, hbytes, hlost⟩ := exists_tightMap_loss
  replace hall := hall tightMap 0xffff800000000000 (fun _ ↦ 0) s ⟨0, 0⟩ bootLayout
    [.paging (.mapPage (buildKernelAddressSpace s ⟨0, 0⟩ (some tightMap) 0xffff800000000000
      bootLayout).2.1.pml4 0 0x5000 PageFlags.writable)]
    (by decide) (by decide) hinit hreturned hcalm
  simp only [World.afterBuild, World.start, Client.start] at hall
  generalize buildKernelAddressSpace s ⟨0, 0⟩ (some tightMap) 0xffff800000000000 bootLayout =
    built at hall hphys hbytes hlost
  obtain ⟨returned, space, later⟩ := built
  have hplace := hall ⟨⟨⟨space, List.mem_cons_self, rfl⟩, by decide⟩, trivial⟩ 0x1000
  refine hlost (hplace (.bitmap ?_ ?_)).1
  · change (mapPage later space.pml4 0 0x5000 PageFlags.writable).2.bitmapPhys.toNat ≤ _
    rw [hphys]
  · change _ < (mapPage later space.pml4 0 0x5000 PageFlags.writable).2.bitmapPhys.toNat +
      (mapPage later space.pml4 0 0x5000 PageFlags.writable).2.bitmapBytes.toNat
    rw [hphys, hbytes]
    decide

end WaterBuffalo.Vmm
