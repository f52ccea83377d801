import WaterBuffalo.Vmm.Runs

/-!
# From the memory map to the invariant

What the boot protocol promises about usable memory makes the allocator that `init` sets up well
formed: no free frame shares a byte with the bitmap, and every free frame has an address that fits
an entry.  A well-formed allocator is all the paging code needs to start.
-/

namespace WaterBuffalo.Vmm

open Pmm TableForest

/-- What the boot protocol promises about the usable regions: page aligned, pairwise disjoint,
not wrapping, and below `2 ^ 52`. -/
structure LimineMap (regions : List MemoryRegion) : Prop where
  aligned : ∀ region ∈ regions, region.type = .usable →
    region.base.toNat % 4096 = 0 ∧ region.length.toNat % 4096 = 0
  disjoint : regions.Pairwise fun left right ↦ left.type = .usable → right.type = .usable →
    left.base.toNat + left.length.toNat ≤ right.base.toNat ∨
      right.base.toNat + right.length.toNat ≤ left.base.toNat
  bounded : ∀ region ∈ regions, region.type = .usable →
    region.base.toNat + region.length.toNat ≤ 2 ^ 52

instance (regions : List MemoryRegion) : Decidable (LimineMap regions) :=
  decidable_of_iff
    ((∀ region ∈ regions, region.type = .usable →
        region.base.toNat % 4096 = 0 ∧ region.length.toNat % 4096 = 0) ∧
      (regions.Pairwise fun left right ↦ left.type = .usable → right.type = .usable →
        left.base.toNat + left.length.toNat ≤ right.base.toNat ∨
          right.base.toNat + right.length.toNat ≤ left.base.toNat) ∧
      ∀ region ∈ regions, region.type = .usable →
        region.base.toNat + region.length.toNat ≤ 2 ^ 52)
    ⟨fun h ↦ ⟨h.1, h.2.1, h.2.2⟩, fun h ↦ ⟨h.aligned, h.disjoint, h.bounded⟩⟩

/-- The direct map shows no usable frame at the null pointer. -/
def NonNullMap (regions : List MemoryRegion) (hhdmOffset : Word) : Prop :=
  ∀ frame, WhollyUsable regions frame → hhdmOffset + BitVec.ofNat 64 (4096 * frame) ≠ 0

/-- An allocator the paging code can work with. -/
structure WellFormedAllocator (s : State) : Prop where
  sound : Sound s
  frame_lt : ∀ frame, Free s frame → frame < 2 ^ 40
  clear : ∀ frame, Free s frame → ClearOfBitmap s.toStatics frame

theorem LimineMap.nonWrapping {regions : List MemoryRegion} (h : LimineMap regions) :
    MemoryMap.UsableNonWrapping regions := by
  intro region hmem husable
  have := h.bounded region hmem husable
  omega

/-- Frames outside the reserved ones share no byte with a bitmap that starts on a page. -/
theorem clearOfBitmap_of_not_reserved {regions : List MemoryRegion} {hhdmOffset : Word}
    {s : Statics} (h : Initialized regions hhdmOffset s) (haligned : s.bitmapPhys.toNat % 4096 = 0)
    (hbound : s.bitmapPhys.toNat + (bitmapPages s).toNat * 4096 ≤ 2 ^ 52) {frame : ℕ}
    (hframe : frame < 2 ^ 40) (hreserved : ¬ ReservedForBitmap s frame) :
    ClearOfBitmap s frame := by
  have hpages := h.bitmapPages_eq
  intro offset hoffset position hposition
  rw [tableAddress, h.bitmap_eq, h.hhdmOffset_eq, BitVec.add_assoc, BitVec.add_assoc]
  intro heq
  have hsame := congrArg BitVec.toNat (add_left_cancel heq)
  rw [BitVec.toNat_add, BitVec.toNat_add, BitVec.toNat_ofNat, BitVec.toNat_ofNat,
    BitVec.toNat_ofNat] at hsame
  apply hreserved
  unfold ReservedForBitmap
  omega

/-- A free frame lies before the bitmap or after it. -/
theorem init_free_apart {regions : List MemoryRegion} {hhdmOffset : Word} {memory : Memory}
    {s : State} (hmap : LimineMap regions) (hinit : init regions hhdmOffset memory = .ok s)
    {frame : ℕ} (hfree : Free s frame) :
    4096 * (frame + 1) ≤ s.bitmapPhys.toNat ∨
      s.bitmapPhys.toNat + s.bitmapBytes.toNat ≤ 4096 * frame := by
  have hreserved := ((init_free_iff hmap.nonWrapping hinit frame).mp hfree).2.2
  have hinitialized := (init_spec hinit).1
  obtain ⟨region, hmem, husable, hbase, -⟩ := hinitialized.exists_region
  have haligned := (hmap.aligned region hmem husable).1
  have hbytes := hinitialized.bitmapBytes_eq
  have hpages := hinitialized.bitmapPages_eq
  rw [hbase] at haligned
  unfold ReservedForBitmap at hreserved
  omega

theorem init_wellFormed {regions : List MemoryRegion} {hhdmOffset : Word} {memory : Memory}
    {s : State} (hmap : LimineMap regions) (hinit : init regions hhdmOffset memory = .ok s) :
    WellFormedAllocator s := by
  have hinitialized := (init_spec hinit).1
  have hfree := fun frame ↦ (init_free_iff hmap.nonWrapping hinit frame).mp
  have hbound : ∀ frame, Free s frame → frame < 2 ^ 40 := by
    intro frame hframe
    obtain ⟨-, ⟨region, hmem, husable, hholds⟩, -⟩ := hfree frame hframe
    have := hmap.bounded region hmem husable
    have := hholds.2
    omega
  refine ⟨init_sound hinit, hbound, fun frame hframe ↦ ?_⟩
  obtain ⟨-, -, hreserved⟩ := hfree frame hframe
  obtain ⟨region, hmem, husable, hbase, hlength⟩ := hinitialized.exists_region
  have hregionBound := hmap.bounded region hmem husable
  refine clearOfBitmap_of_not_reserved hinitialized ?_ ?_ (hbound frame hframe) hreserved
  · rw [← hbase]
    exact (hmap.aligned region hmem husable).1
  · rw [← hbase]
    omega

/-- The invariant holds before the first address space exists. -/
theorem WellFormedAllocator.worldInv {s : State} (h : WellFormedAllocator s)
    (htrace : s.trace = []) :
    WorldInv {frame | Free s frame} s.toStatics (World.start s) := by
  have hframes : tableFrames s = ∅ := by
    simp [tableFrames, htrace]
  have hpages : ∀ root, framePages s root = ∅ := by
    intro root
    simp [framePages, installed, htrace]
  have hroots : (World.start s).roots = ∅ := by
    simp [World.roots, World.start]
  refine ⟨⟨⟨h.sound, ?_, ?_, ?_, ?_, ?_⟩, ?_⟩, rfl, ?_⟩
  · intro frame hframe
    exact ⟨h.frame_lt frame hframe, hframe.1, h.clear frame hframe⟩
  · intro frame
    simp [World.start, Client.start, hframes]
  · simp [World.start, Client.start]
  · simp [World.start, Client.start, hframes]
  · simp [World.start, Client.start]
  · rw [hroots]
    change PagingForest (tables s) ∅ (tableFrames s) (framePages s)
    rw [hframes]
    exact pagingForest_empty _ _ hpages
  · simp [World.start]

/-- The invariant right after `init`. -/
theorem init_worldInv {regions : List MemoryRegion} {hhdmOffset : Word} {memory : Memory}
    {s : State} (hmap : LimineMap regions) (hinit : init regions hhdmOffset memory = .ok s) :
    WorldInv {frame | Free s frame} s.toStatics (World.start s) :=
  (init_wellFormed hmap hinit).worldInv (init_spec hinit).2.2.1

theorem NonNullMap.nonNull {regions : List MemoryRegion} {hhdmOffset : Word} {memory : Memory}
    {s : State} (h : NonNullMap regions hhdmOffset) (hmap : LimineMap regions)
    (hinit : init regions hhdmOffset memory = .ok s) :
    NonNull {frame | Free s frame} s.toStatics := by
  intro frame hframe
  rw [tableAddress, (init_spec hinit).1.hhdmOffset_eq]
  exact h frame ((init_free_iff hmap.nonWrapping hinit frame).mp hframe).2.1

/-- A memory map of six usable frames, the first of which holds the bitmap. -/
def bootMap : List MemoryRegion := [⟨0x1000, 0x6000, .usable⟩]

theorem bootMap_nonNull : NonNullMap bootMap 0xffff800000000000 := by
  rintro frame ⟨region, hregion, -, hholds⟩ hnull
  rw [bootMap, List.mem_singleton] at hregion
  subst hregion
  have hend : 4096 * (frame + 1) ≤ 0x7000 := hholds.2
  have hzero := congrArg BitVec.toNat hnull
  simp only [BitVec.ofNat_eq_ofNat, BitVec.toNat_add, BitVec.toNat_ofNat] at hzero
  omega

end WaterBuffalo.Vmm
