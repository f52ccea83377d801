import WaterBuffalo.Foundation.Run
import WaterBuffalo.Pmm.Bitmap

/-!
# Initialization

The three phases of `init` over an arbitrary memory map: everything used, the frames wholly
inside a usable region free, the frames reserved for the bitmap used again.  The main result,
`init_free_iff`, says which frames are free afterwards, in natural numbers.  A highest usable end
above `2 ^ 64 - 4096` makes the frame count wrap to zero; then nothing is free, and the same
statement covers that case.
-/

namespace WaterBuffalo.Pmm

/-- `base + length` does not wrap. -/
def MemoryMap.NonWrapping (regions : List MemoryRegion) : Prop :=
  ∀ region ∈ regions, region.base.toNat + region.length.toNat < 2 ^ 64

/-- `base + length` does not wrap for any usable region. -/
def MemoryMap.UsableNonWrapping (regions : List MemoryRegion) : Prop :=
  ∀ region ∈ regions, region.type = .usable →
    region.base.toNat + region.length.toNat < 2 ^ 64

theorem MemoryMap.NonWrapping.usable {regions : List MemoryRegion}
    (h : MemoryMap.NonWrapping regions) : MemoryMap.UsableNonWrapping regions :=
  fun region hmem _ ↦ h region hmem

/-- The frame lies wholly inside the region. -/
def RegionHolds (region : MemoryRegion) (frame : ℕ) : Prop :=
  region.base.toNat ≤ 4096 * frame ∧
    4096 * (frame + 1) ≤ region.base.toNat + region.length.toNat

/-- The frame lies wholly inside a single usable region. -/
def WhollyUsable (regions : List MemoryRegion) (frame : ℕ) : Prop :=
  ∃ region ∈ regions, region.type = .usable ∧ RegionHolds region frame

/-- `bitmap_bytes` for a memory map. -/
def requiredBytes (regions : List MemoryRegion) : Word :=
  bitmapWordsFor (frameCountFor (highestUsableEnd regions)) * 8

/-- `bitmap_pages` for a memory map. -/
def requiredPages (regions : List MemoryRegion) : Word :=
  bitmapPagesFor (requiredBytes regions)

/-- `bitmap_pages` of an initialized allocator. -/
def bitmapPages (s : Statics) : Word :=
  bitmapPagesFor s.bitmapBytes

/-- The `bitmap_pages` frames from `bitmap_phys / 4096` on. -/
def ReservedForBitmap (s : Statics) (frame : ℕ) : Prop :=
  s.bitmapPhys.toNat / 4096 ≤ frame ∧
    frame < s.bitmapPhys.toNat / 4096 + (bitmapPages s).toNat

/-- The frames the allocator manages: wholly usable, without those reserved for the bitmap. -/
def managedFrames (regions : List MemoryRegion) (s : Statics) : Set ℕ :=
  {frame | WhollyUsable regions frame ∧ ¬ ReservedForBitmap s frame}

instance (region : MemoryRegion) (frame : ℕ) : Decidable (RegionHolds region frame) :=
  inferInstanceAs (Decidable (_ ∧ _))

instance (regions : List MemoryRegion) (frame : ℕ) : Decidable (WhollyUsable regions frame) :=
  inferInstanceAs (Decidable (∃ region ∈ regions, _))

instance (s : Statics) (frame : ℕ) : Decidable (ReservedForBitmap s frame) :=
  inferInstanceAs (Decidable (_ ∧ _))

instance (regions : List MemoryRegion) (s : Statics) (frame : ℕ) :
    Decidable (frame ∈ managedFrames regions s) :=
  inferInstanceAs (Decidable (WhollyUsable regions frame ∧ ¬ ReservedForBitmap s frame))

instance (regions : List MemoryRegion) : Decidable (MemoryMap.NonWrapping regions) :=
  inferInstanceAs (Decidable (∀ region ∈ regions, _))

/-! ## Sizes -/

theorem toNat_frameCountFor (highest : Word) :
    (frameCountFor highest).toNat =
      if highest.toNat ≤ 2 ^ 64 - 4096 then (highest.toNat + 4095) / 4096 else 0 := by
  have hbound := highest.isLt
  unfold frameCountFor
  rw [BitVec.toNat_udiv, BitVec.toNat_sub, BitVec.toNat_add, toNat_kPageSize]
  split <;> bv_omega

theorem frameCountFor_lt (highest : Word) : (frameCountFor highest).toNat < 2 ^ 52 := by
  have hbound := highest.isLt
  rw [toNat_frameCountFor]
  split <;> omega

theorem toNat_bitmapWordsFor {frameCount : Word} (hcount : frameCount.toNat < 2 ^ 52) :
    (bitmapWordsFor frameCount).toNat = (frameCount.toNat + 63) / 64 := by
  unfold bitmapWordsFor
  rw [BitVec.toNat_udiv, BitVec.toNat_sub, BitVec.toNat_add, toNat_kWordBits]
  bv_omega

theorem toNat_bitmapPagesFor {bitmapBytes : Word} (hbytes : bitmapBytes.toNat < 2 ^ 52) :
    (bitmapPagesFor bitmapBytes).toNat = (bitmapBytes.toNat + 4095) / 4096 := by
  unfold bitmapPagesFor
  rw [BitVec.toNat_udiv, BitVec.toNat_sub, BitVec.toNat_add, toNat_kPageSize]
  bv_omega

/-! ## The highest usable end -/

theorem highestUsableEnd_eq (regions : List MemoryRegion) :
    highestUsableEnd regions =
      (regions.filter fun region ↦ region.type = .usable).foldl
        (fun highest region ↦
          if highest < region.base + region.length then region.base + region.length
          else highest) 0 := by
  rw [highestUsableEnd, List.foldl_filter]
  simp only [decide_eq_true_eq]

theorem le_highestUsableEnd {regions : List MemoryRegion} {region : MemoryRegion}
    (hmem : region ∈ regions) (husable : region.type = .usable) :
    region.base + region.length ≤ highestUsableEnd regions := by
  rw [highestUsableEnd_eq]
  refine (Bits.foldl_highest (fun region : MemoryRegion ↦ region.base + region.length) _ 0).1.2
    region ?_
  simpa using ⟨hmem, husable⟩

/-- The highest usable end is attained, so a bound on all usable ends bounds it. -/
theorem highestUsableEnd_le {regions : List MemoryRegion} {bound : ℕ}
    (hbound : ∀ region ∈ regions, region.type = .usable →
      region.base.toNat + region.length.toNat ≤ bound) :
    (highestUsableEnd regions).toNat ≤ bound := by
  rw [highestUsableEnd_eq]
  rcases (Bits.foldl_highest (fun region : MemoryRegion ↦ region.base + region.length)
    (regions.filter fun region ↦ region.type = .usable) 0).2 with hzero | ⟨region, hmem, heq⟩
  · rw [hzero]
    exact Nat.zero_le _
  · rw [heq, BitVec.toNat_add]
    obtain ⟨hregion, husable⟩ := List.mem_filter.mp hmem
    calc
      (region.base.toNat + region.length.toNat) % 2 ^ 64 ≤
          region.base.toNat + region.length.toNat := Nat.mod_le _ _
      _ ≤ bound := hbound region hregion (of_decide_eq_true husable)

/-! ## The phases -/

theorem markAllUsed_spec (s : State) (hlayout : Layout s.toStatics) :
    (markAllUsed s).toStatics = s.toStatics ∧
      ∀ frame, frame < 64 * s.bitmapWords.toNat → used (markAllUsed s) frame = true := by
  have hcount := hlayout.frameCount_lt
  have hwords := hlayout.bitmapWords_eq
  have hloop := Run.foldl_range_induction
    (fun (t : State) word ↦ t.store (bitmapAddress t (BitVec.ofNat 64 word)) (BitVec.allOnes 64))
    (fun index t ↦ t.toStatics = s.toStatics ∧
      ∀ frame, frame < 64 * index → used t frame = true)
    s s.bitmapWords.toNat ⟨rfl, by omega⟩ (by
      intro index t hindex ⟨hstatics, hused⟩
      refine ⟨hstatics, ?_⟩
      intro frame hframe
      have hword : (BitVec.ofNat 64 index).toNat = index := by
        rw [BitVec.toNat_ofNat]
        exact Nat.mod_eq_of_lt (by omega)
      rw [used_store t _ _ frame (by omega) (by omega), hword]
      by_cases hlast : frame / 64 = index
      · rw [if_pos hlast, BitVec.getLsbD_allOnes]
        exact decide_eq_true (Nat.mod_lt _ (by decide))
      · rw [if_neg hlast]
        exact hused frame (by omega))
  exact hloop

/-- Both frame loops of `init` rewrite the bits of the valid frames from `first` below `stop`. -/
theorem forFrames_spec (first stop : Word) (body : State → Word → State) (bit : Bool)
    (hbody : ∀ (t : State) (frame : Word), Layout t.toStatics →
      (body t frame).toStatics = t.toStatics ∧
        ∀ position < 2 ^ 60, used (body t frame) position =
          if position = frame.toNat ∧ position < t.frameCount.toNat then bit
          else used t position)
    (s : State) (hlayout : Layout s.toStatics) :
    (forFrames first stop body s).toStatics = s.toStatics ∧
      ∀ position < 2 ^ 60, used (forFrames first stop body s) position =
        if (first.toNat ≤ position ∧ position < stop.toNat) ∧ position < s.frameCount.toNat
        then bit else used s position := by
  have hstop := stop.isLt
  have hloop := Run.foldl_range_induction
    (fun t index ↦ body t (first + BitVec.ofNat 64 index))
    (fun index t ↦ t.toStatics = s.toStatics ∧
      ∀ position < 2 ^ 60, used t position =
        if (first.toNat ≤ position ∧ position < first.toNat + index) ∧
          position < s.frameCount.toNat then bit else used s position)
    s (stop.toNat - first.toNat) ⟨rfl, fun position _ ↦ by rw [if_neg (by omega)]⟩ (by
      intro index t hindex ⟨hstatics, hused⟩
      obtain ⟨hkeep, hset⟩ := hbody t (first + BitVec.ofNat 64 index) (hstatics ▸ hlayout)
      refine ⟨hkeep.trans hstatics, ?_⟩
      intro position hposition
      have hframe : (first + BitVec.ofNat 64 index).toNat = first.toNat + index := by
        rw [BitVec.toNat_add, BitVec.toNat_ofNat]
        omega
      rw [hset position hposition, hused position hposition, hframe, hstatics]
      by_cases hnew : position = first.toNat + index
      · by_cases hvalid : position < s.frameCount.toNat
        · rw [if_pos ⟨hnew, hvalid⟩, if_pos ⟨⟨by omega, by omega⟩, hvalid⟩]
        · rw [if_neg (by omega), if_neg (by omega), if_neg (by omega)]
      · rw [if_neg (by omega)]
        exact if_congr (by omega) rfl rfl)
  refine ⟨hloop.1, ?_⟩
  intro position hposition
  rw [forFrames, hloop.2 position hposition]
  exact if_congr (by omega) rfl rfl

theorem releaseFrame_spec (t : State) (frame : Word) (hlayout : Layout t.toStatics) :
    (releaseFrame t frame).toStatics = t.toStatics ∧
      ∀ position < 2 ^ 60, used (releaseFrame t frame) position =
        if position = frame.toNat ∧ position < t.frameCount.toNat then false
        else used t position := by
  by_cases hvalid : frame.toNat < t.frameCount.toNat
  · simp only [releaseFrame, (frameValid_iff t frame).mpr hvalid, Bool.not_true,
      Bool.false_eq_true, if_false]
    refine ⟨setFrameFree_toStatics t frame, ?_⟩
    intro position hposition
    refine (used_setFrameFree t hlayout frame hvalid position hposition).trans ?_
    exact if_congr (by omega) rfl rfl
  · have hinvalid : frameValid t frame = false := by
      rw [← Bool.not_eq_true, frameValid_iff]
      exact hvalid
    simp only [releaseFrame, hinvalid, Bool.not_false, if_true, true_and]
    intro position _
    rw [if_neg (by omega)]

theorem reserveFrame_spec (t : State) (frame : Word) (hlayout : Layout t.toStatics) :
    (reserveFrame t frame).toStatics = t.toStatics ∧
      ∀ position < 2 ^ 60, used (reserveFrame t frame) position =
        if position = frame.toNat ∧ position < t.frameCount.toNat then true
        else used t position := by
  by_cases hvalid : frame.toNat < t.frameCount.toNat
  · -- The counter update does not touch what `setFrameUsed` reads.
    have hcase : ∃ u : State, u.toStatics = t.toStatics ∧ u.memory = t.memory ∧
        reserveFrame t frame = setFrameUsed u frame := by
      simp only [reserveFrame, (frameValid_iff t frame).mpr hvalid, Bool.not_true,
        Bool.false_eq_true, if_false]
      refine ⟨_, ?_, ?_, rfl⟩ <;> split <;> rfl
    obtain ⟨u, hstatics, hmemory, hreserve⟩ := hcase
    rw [hreserve, setFrameUsed_toStatics]
    refine ⟨hstatics, ?_⟩
    intro position hposition
    rw [used_setFrameUsed u (hstatics ▸ hlayout) frame (hstatics ▸ hvalid) position hposition,
      used_congr hstatics hmemory]
    exact if_congr (by omega) rfl rfl
  · have hinvalid : frameValid t frame = false := by
      rw [← Bool.not_eq_true, frameValid_iff]
      exact hvalid
    simp only [reserveFrame, hinvalid, Bool.not_false, if_true, true_and]
    intro position _
    rw [if_neg (by omega)]

/-- The frames phase 2 frees for one region, before they are checked against the frame count. -/
def Released (region : MemoryRegion) (frame : ℕ) : Prop :=
  region.type = .usable ∧
    ((region.base + kPageSize - 1) / kPageSize).toNat ≤ frame ∧
    frame < ((region.base + region.length) / kPageSize).toNat

theorem releaseRegion_spec (t : State) (region : MemoryRegion)
    (hlayout : Layout t.toStatics) :
    (releaseRegion t region).toStatics = t.toStatics ∧
      ∀ position < 2 ^ 60, (used (releaseRegion t region) position = false ↔
        (Released region position ∧ position < t.frameCount.toNat) ∨
          used t position = false) := by
  unfold releaseRegion
  by_cases husable : region.type = .usable
  · have hloop := forFrames_spec ((region.base + kPageSize - 1) / kPageSize)
      ((region.base + region.length) / kPageSize) releaseFrame false releaseFrame_spec t hlayout
    simp only [husable, ne_eq, not_true_eq_false, if_false]
    refine ⟨hloop.1, ?_⟩
    intro position hposition
    rw [hloop.2 position hposition]
    by_cases hreleased : Released region position ∧ position < t.frameCount.toNat
    · rw [if_pos ⟨hreleased.1.2, hreleased.2⟩]
      simp [hreleased]
    · rw [if_neg fun h ↦ hreleased ⟨⟨husable, h.1⟩, h.2⟩]
      simp [hreleased]
  · simp [husable, Released]

theorem releaseRegions_spec (regions : List MemoryRegion) (t : State)
    (hlayout : Layout t.toStatics) :
    (regions.foldl releaseRegion t).toStatics = t.toStatics ∧
      ∀ position < 2 ^ 60, (used (regions.foldl releaseRegion t) position = false ↔
        ((∃ region ∈ regions, Released region position) ∧ position < t.frameCount.toNat) ∨
          used t position = false) := by
  induction regions generalizing t with
  | nil => simp
  | cons region regions ih =>
    obtain ⟨hkeep, hused⟩ := releaseRegion_spec t region hlayout
    obtain ⟨hkeepRest, husedRest⟩ := ih (releaseRegion t region) (hkeep ▸ hlayout)
    rw [List.foldl_cons]
    refine ⟨hkeepRest.trans hkeep, ?_⟩
    intro position hposition
    rw [husedRest position hposition, hused position hposition, hkeep]
    rw [List.exists_mem_cons_iff, or_and_right, or_assoc, or_left_comm]

/-- Without wrap-around, the rounding of phase 2 leaves the frames wholly inside the region. -/
theorem released_iff_holds {region : MemoryRegion} (husable : region.type = .usable)
    (hbound : region.base.toNat + region.length.toNat ≤ 2 ^ 64 - 4096) (frame : ℕ) :
    Released region frame ↔ RegionHolds region frame := by
  have hsum : (region.base + region.length).toNat =
      region.base.toNat + region.length.toNat := by
    rw [BitVec.toNat_add]
    exact Nat.mod_eq_of_lt (by omega)
  have hfirst : (region.base + kPageSize - 1).toNat = region.base.toNat + 4095 := by
    unfold kPageSize
    bv_omega
  simp only [Released, husable, true_and, BitVec.toNat_udiv, hfirst, hsum, toNat_kPageSize,
    RegionHolds]
  omega

/-- Phase 2 frees exactly the frames wholly inside a usable region. -/
theorem released_iff {regions : List MemoryRegion}
    (hnonwrapping : MemoryMap.UsableNonWrapping regions) {frame : ℕ}
    (hvalid : frame < (frameCountFor (highestUsableEnd regions)).toNat) :
    (∃ region ∈ regions, Released region frame) ↔ WhollyUsable regions frame := by
  have hhighest : (highestUsableEnd regions).toNat ≤ 2 ^ 64 - 4096 := by
    by_contra h
    rw [toNat_frameCountFor, if_neg h] at hvalid
    omega
  have hregion : ∀ region ∈ regions, region.type = .usable →
      (Released region frame ↔ RegionHolds region frame) := by
    intro region hmem husable
    have hwrap := hnonwrapping region hmem husable
    have hend := le_highestUsableEnd hmem husable
    have hsum : (region.base + region.length).toNat =
        region.base.toNat + region.length.toNat := by
      rw [BitVec.toNat_add]
      exact Nat.mod_eq_of_lt hwrap
    rw [BitVec.le_def, hsum] at hend
    exact released_iff_holds husable (hend.trans hhighest) frame
  constructor
  · rintro ⟨region, hmem, hreleased⟩
    exact ⟨region, hmem, hreleased.1, (hregion region hmem hreleased.1).mp hreleased⟩
  · rintro ⟨region, hmem, husable, hholds⟩
    exact ⟨region, hmem, (hregion region hmem husable).mpr hholds⟩

/-! ## The initialized allocator -/

/-- What an accepted memory map determines: the region chosen for the bitmap and the sizes. -/
structure Initialized (regions : List MemoryRegion) (hhdmOffset : Word) (s : Statics) : Prop where
  region : ∃ region, findBitmapRegion regions (requiredPages regions) = some region ∧
    region.base = s.bitmapPhys
  requiredBytes_eq : s.bitmapBytes = requiredBytes regions
  bitmap_eq : s.bitmap = hhdmOffset + s.bitmapPhys
  hhdmOffset_eq : s.hhdmOffset = hhdmOffset
  frameCount_eq : s.frameCount = frameCountFor (highestUsableEnd regions)
  bitmapBytes_eq : s.bitmapBytes.toNat = 8 * s.bitmapWords.toNat
  bitmapPages_eq : (bitmapPages s).toNat = (8 * s.bitmapWords.toNat + 4095) / 4096
  layout : Layout s

theorem bitmapPages_mul_toNat {pages : Word} (hpages : pages.toNat < 2 ^ 52) :
    (pages * kPageSize).toNat = pages.toNat * 4096 := by
  rw [BitVec.toNat_mul, toNat_kPageSize]
  exact Nat.mod_eq_of_lt (by omega)

/-- Inversion of an accepting `init`. -/
theorem init_eq_ok {regions : List MemoryRegion} {hhdmOffset : Word} {memory : Memory} {s : State}
    (hinit : init regions hhdmOffset memory = .ok s) :
    ∃ region,
      findBitmapRegion regions (requiredPages regions) = some region ∧
      s = (reserveBitmap (regions.foldl releaseRegion (markAllUsed
          (placeBitmap hhdmOffset memory (frameCountFor (highestUsableEnd regions)) region)))
          (requiredPages regions)).restartTrace := by
  simp only [init] at hinit
  split at hinit
  · cases hinit
  · split at hinit
    · cases hinit
    · rename_i region hfind
      exact ⟨region, hfind, (Except.ok.inj hinit).symm⟩

/-- `init` accepts a memory map if it describes usable memory and has room for the bitmap. -/
theorem exists_init_eq_ok {regions : List MemoryRegion}
    (hhighest : highestUsableEnd regions ≠ 0)
    (hfind : (findBitmapRegion regions (requiredPages regions)).isSome) (hhdmOffset : Word)
    (memory : Memory) : ∃ s, init regions hhdmOffset memory = .ok s := by
  obtain ⟨region, hregion⟩ := Option.isSome_iff_exists.mp hfind
  have hsame : findBitmapRegion regions
      (bitmapPagesFor (bitmapWordsFor (frameCountFor (highestUsableEnd regions)) * 8)) =
        some region := hregion
  simp only [init, hhighest, if_false, hsame]
  exact ⟨_, rfl⟩

theorem init_highest_ne_zero {regions : List MemoryRegion} {hhdmOffset : Word} {memory : Memory}
    {s : State} (hinit : init regions hhdmOffset memory = .ok s) :
    highestUsableEnd regions ≠ 0 := by
  intro hzero
  simp only [init, hzero, if_true] at hinit
  cases hinit

theorem findBitmapRegion_spec {regions : List MemoryRegion} {pages : Word}
    {region : MemoryRegion} (hpages : pages.toNat < 2 ^ 52)
    (hfind : findBitmapRegion regions pages = some region) :
    region ∈ regions ∧ region.type = .usable ∧ pages.toNat * 4096 ≤ region.length.toNat := by
  have hprop := List.find?_some hfind
  simp only [decide_eq_true_eq] at hprop
  refine ⟨List.mem_of_find?_eq_some hfind, hprop.1, ?_⟩
  rw [← bitmapPages_mul_toNat hpages]
  exact hprop.2

/-- The sizes computed from one frame count agree. -/
theorem placeBitmap_initialized {regions : List MemoryRegion} (hhdmOffset : Word)
    (memory : Memory) {region : MemoryRegion}
    (hfind : findBitmapRegion regions (requiredPages regions) = some region) :
    Initialized regions hhdmOffset
      (placeBitmap hhdmOffset memory (frameCountFor (highestUsableEnd regions))
        region).toStatics := by
  have hcount := frameCountFor_lt (highestUsableEnd regions)
  have hwords := toNat_bitmapWordsFor hcount
  set frameCount := frameCountFor (highestUsableEnd regions) with hframeCount
  have hbytes : (bitmapWordsFor frameCount * 8).toNat = 8 * (bitmapWordsFor frameCount).toNat := by
    rw [BitVec.toNat_mul]
    bv_omega
  have hpages := toNat_bitmapPagesFor
    (by omega : (bitmapWordsFor frameCount * 8).toNat < 2 ^ 52)
  exact {
    region := ⟨region, hfind, rfl⟩
    requiredBytes_eq := rfl
    bitmap_eq := rfl
    hhdmOffset_eq := rfl
    frameCount_eq := rfl
    bitmapBytes_eq := hbytes
    bitmapPages_eq := hpages.trans (by rw [hbytes]; rfl)
    layout := ⟨hcount, hwords⟩ }

/-- The bitmap fits into the region chosen for it. -/
theorem Initialized.exists_chosen {regions : List MemoryRegion} {hhdmOffset : Word} {s : Statics}
    (h : Initialized regions hhdmOffset s) :
    ∃ region ∈ regions, findBitmapRegion regions (bitmapPages s) = some region ∧
      region.type = .usable ∧ s.bitmapPhys = region.base ∧
      s.bitmapWords.toNat * 8 ≤ (bitmapPages s).toNat * 4096 ∧
      (bitmapPages s).toNat * 4096 ≤ region.length.toNat := by
  obtain ⟨region, hfind, hbase⟩ := h.region
  have hpages : bitmapPages s = requiredPages regions := by
    rw [bitmapPages, h.requiredBytes_eq]
    rfl
  have hcount := h.layout.frameCount_lt
  have hwords := h.layout.bitmapWords_eq
  have hpagesEq := h.bitmapPages_eq
  have hrounded : s.bitmapWords.toNat * 8 ≤ (bitmapPages s).toNat * 4096 := by omega
  rw [hpages] at hpagesEq hrounded ⊢
  obtain ⟨hmem, husable, hlength⟩ := findBitmapRegion_spec (by omega) hfind
  exact ⟨region, hmem, hfind, husable, hbase.symm, hrounded, hlength⟩

/-- The bitmap lies at the base of a usable region with room for its pages. -/
theorem Initialized.exists_region {regions : List MemoryRegion} {hhdmOffset : Word} {s : Statics}
    (h : Initialized regions hhdmOffset s) :
    ∃ region ∈ regions, region.type = .usable ∧ region.base = s.bitmapPhys ∧
      (bitmapPages s).toNat * 4096 ≤ region.length.toNat := by
  obtain ⟨region, hmem, -, husable, hbase, -, hlength⟩ := h.exists_chosen
  exact ⟨region, hmem, husable, hbase.symm, hlength⟩

theorem reserveBitmap_spec (s : State) (hlayout : Layout s.toStatics)
    (hpages : (bitmapPages s.toStatics).toNat < 2 ^ 52) :
    (reserveBitmap s (bitmapPages s.toStatics)).toStatics = s.toStatics ∧
      ∀ position < 2 ^ 60, (used (reserveBitmap s (bitmapPages s.toStatics)) position = false ↔
        used s position = false ∧ ¬ (ReservedForBitmap s.toStatics position ∧
          position < s.frameCount.toNat)) := by
  have hloop := forFrames_spec (s.bitmapPhys / kPageSize)
    (s.bitmapPhys / kPageSize + bitmapPages s.toStatics) reserveFrame true reserveFrame_spec s
    hlayout
  refine ⟨hloop.1, ?_⟩
  intro position hposition
  have hbound := s.bitmapPhys.isLt
  have hfirst : (s.bitmapPhys / kPageSize).toNat = s.bitmapPhys.toNat / 4096 := by
    rw [BitVec.toNat_udiv, toNat_kPageSize]
  have hlast : (s.bitmapPhys / kPageSize + bitmapPages s.toStatics).toNat =
      s.bitmapPhys.toNat / 4096 + (bitmapPages s.toStatics).toNat := by
    rw [BitVec.toNat_add, hfirst]
    exact Nat.mod_eq_of_lt (by omega)
  rw [reserveBitmap, hloop.2 position hposition, hfirst, hlast]
  unfold ReservedForBitmap
  split_ifs with hreserved
  · simp [hreserved]
  · simp [hreserved]

/-- **Initialization.** The statics, the padding, and the free frames before the rounding of
phase 2 is resolved to natural numbers. -/
theorem init_spec {regions : List MemoryRegion} {hhdmOffset : Word} {memory : Memory} {s : State}
    (hinit : init regions hhdmOffset memory = .ok s) :
    Initialized regions hhdmOffset s.toStatics ∧ Padded s ∧ s.trace = [] ∧
      ∀ frame, Free s frame ↔ frame < s.frameCount.toNat ∧
        (∃ region ∈ regions, Released region frame) ∧
        ¬ ReservedForBitmap s.toStatics frame := by
  obtain ⟨region, hfind, hs⟩ := init_eq_ok hinit
  have hplaced := placeBitmap_initialized hhdmOffset memory hfind
  set start := placeBitmap hhdmOffset memory (frameCountFor (highestUsableEnd regions)) region
    with hstart
  have hlayout := hplaced.layout
  obtain ⟨hmarkKeep, hmark⟩ := markAllUsed_spec start hlayout
  obtain ⟨hreleaseKeep, hrelease⟩ := releaseRegions_spec regions (markAllUsed start)
    (hmarkKeep ▸ hlayout)
  set released := regions.foldl releaseRegion (markAllUsed start) with hreleased
  have hkeep : released.toStatics = start.toStatics := hreleaseKeep.trans hmarkKeep
  have hcount := hlayout.frameCount_lt
  have hwords := hlayout.bitmapWords_eq
  have hpages := hplaced.bitmapPages_eq
  obtain ⟨hreserveKeep, hreserve⟩ := reserveBitmap_spec released (hkeep ▸ hlayout)
    (by rw [hkeep]; omega)
  have hpagesEq : requiredPages regions = bitmapPages released.toStatics := by
    rw [hkeep]
    rfl
  rw [hpagesEq] at hs
  have hfinal : s.toStatics = start.toStatics := by
    rw [hs]
    exact hreserveKeep.trans hkeep
  -- Phase 1 left every bit set, so a clear bit was cleared by phase 2 and not set by phase 3.
  have hused : ∀ frame < 64 * start.bitmapWords.toNat, (used s frame = false ↔
      frame < start.frameCount.toNat ∧ (∃ region ∈ regions, Released region frame) ∧
        ¬ ReservedForBitmap start.toStatics frame) := by
    intro frame hframe
    have hposition := hlayout.frame_lt hframe
    have hrestart : used s frame =
        used (reserveBitmap released (bitmapPages released.toStatics)) frame := by
      rw [hs]
      exact used_congr rfl rfl frame
    rw [hrestart, hreserve frame hposition, hrelease frame hposition, hmark frame hframe,
      hmarkKeep, hkeep]
    constructor
    · rintro ⟨(⟨hregion, hvalid⟩ | hfalse), hnot⟩
      · exact ⟨hvalid, hregion, fun hreserved ↦ hnot ⟨hreserved, hvalid⟩⟩
      · exact Bool.noConfusion hfalse
    · rintro ⟨hvalid, hregion, hnot⟩
      exact ⟨Or.inl ⟨hregion, hvalid⟩, fun hreserved ↦ hnot hreserved.1⟩
  refine ⟨hfinal ▸ hplaced, ?_, by rw [hs]; rfl, ?_⟩
  · intro frame hpadding hframe
    rw [hfinal] at hpadding hframe
    rw [← Bool.not_eq_false, hused frame hframe]
    exact fun h ↦ absurd h.1 (by omega)
  · intro frame
    rw [Free, hfinal]
    constructor
    · rintro ⟨hvalid, hbit⟩
      exact (hused frame (hlayout.lt_bits hvalid)).mp hbit
    · rintro ⟨hvalid, hrest⟩
      exact ⟨hvalid, (hused frame (hlayout.lt_bits hvalid)).mpr ⟨hvalid, hrest⟩⟩

/-- Which frames are free right after `init`. -/
theorem init_free_iff {regions : List MemoryRegion} {hhdmOffset : Word} {memory : Memory}
    {s : State} (hnonwrapping : MemoryMap.UsableNonWrapping regions)
    (hinit : init regions hhdmOffset memory = .ok s) (frame : ℕ) :
    Free s frame ↔ frame < s.frameCount.toNat ∧ frame ∈ managedFrames regions s.toStatics := by
  obtain ⟨hinitialized, -, -, hfree⟩ := init_spec hinit
  rw [hfree frame]
  refine and_congr_right fun hvalid ↦ ?_
  rw [hinitialized.frameCount_eq] at hvalid
  exact and_congr_left' (released_iff hnonwrapping hvalid)

end WaterBuffalo.Pmm
