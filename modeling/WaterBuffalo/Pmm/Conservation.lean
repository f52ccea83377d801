import WaterBuffalo.Pmm.Client
import Mathlib.Data.Finset.Card
import Mathlib.Order.Interval.Finset.Nat

/-!
# Conservation of frames and placement of the bitmap

Frames are conserved from `init` on: the free and the held frames partition the managed frames.
The bitmap's own bytes are protected only as far as the reserved frames reach.  `init` reserves
`bitmap_pages` frames counted from the frame that holds `bitmap_phys`, so a bitmap that starts
inside a frame can end one frame later; `bitmap_never_handed_out_iff` says exactly for which
memory maps that frame is handed out.
-/

namespace WaterBuffalo.Pmm

/-- When no end is so high that the frame count wraps, every wholly usable frame is valid. -/
theorem lt_frameCount_of_whollyUsable {regions : List MemoryRegion} {hhdmOffset : Word}
    {s : Statics} (hnonwrapping : MemoryMap.UsableNonWrapping regions)
    (hhighest : (highestUsableEnd regions).toNat ≤ 2 ^ 64 - 4096)
    (h : Initialized regions hhdmOffset s) {frame : ℕ} (hframe : WhollyUsable regions frame) :
    frame < s.frameCount.toNat := by
  obtain ⟨region, hmem, husable, hholds⟩ := hframe
  have hle := le_highestUsableEnd hmem husable
  have hsum : (region.base + region.length).toNat = region.base.toNat + region.length.toNat := by
    rw [BitVec.toNat_add]
    exact Nat.mod_eq_of_lt (hnonwrapping region hmem husable)
  rw [BitVec.le_def, hsum] at hle
  rw [h.frameCount_eq, toNat_frameCountFor, if_pos hhighest]
  have := hholds.2
  omega

/-- The free frames right after `init` are the managed frames, unless the frame count wrapped. -/
theorem init_free_eq_managed {regions : List MemoryRegion} {hhdmOffset : Word} {memory : Memory}
    {s : State}
    (hbound : ∀ region ∈ regions, region.base.toNat + region.length.toNat ≤ 2 ^ 64 - 4096)
    (hinit : init regions hhdmOffset memory = .ok s) (frame : ℕ) :
    Free s frame ↔ frame ∈ managedFrames regions s.toStatics := by
  have hnonwrapping : MemoryMap.NonWrapping regions := fun region hmem ↦ by
    have := hbound region hmem
    omega
  rw [init_free_iff hnonwrapping.usable hinit frame]
  refine and_iff_right_of_imp fun hmanaged ↦ ?_
  exact lt_frameCount_of_whollyUsable hnonwrapping.usable
    (highestUsableEnd_le fun region hmem _ ↦ hbound region hmem)
    (init_spec hinit).1 hmanaged.1

/-- The pool a disciplined client ends with still has the initially free frames as its stock. -/
theorem Client.exists_pool {s : State} (hs : Sound s) {calls : List Call}
    (hlegal : Run.Legal Client.step Client.FreesHeld (Client.start s) calls) :
    ∃ pool, Client.Models pool (Run.final Client.step (Client.start s) calls) ∧
      pool.stock = {frame | Free s frame} := by
  obtain ⟨pool, hmodels, hreach⟩ := (Client.models_start hs).run hlegal
  refine ⟨pool, hmodels, ?_⟩
  rw [Pool.stock_eq_of_reaches hreach]
  exact Set.union_empty _

/-- **Frame conservation.** Right after `init` the free frames are the managed frames, and after
every disciplined history the free and the held frames partition them.  A successful allocation
hands out a managed frame nobody holds, a freed frame is available again, and an allocation fails
only when every managed frame is held. -/
theorem frames_conserved {regions : List MemoryRegion} {hhdmOffset : Word} {memory : Memory}
    {s : State}
    (hbound : ∀ region ∈ regions, region.base.toNat + region.length.toNat ≤ 2 ^ 64 - 4096)
    (hinit : init regions hhdmOffset memory = .ok s) :
    (∀ frame, Free s frame ↔ frame ∈ managedFrames regions s.toStatics) ∧
    ∀ calls, Run.Legal Client.step Client.FreesHeld (Client.start s) calls →
      let client := Run.final Client.step (Client.start s) calls
      ({frame | Free client.state frame} ∪ ↑client.held = managedFrames regions s.toStatics ∧
        Disjoint {frame | Free client.state frame} (client.held : Set ℕ)) ∧
      (∀ frame, scanBitmap client.state = some frame →
        (allocFrame client.state).1.toNat = 4096 * frame.toNat ∧
        frame.toNat ∈ managedFrames regions s.toStatics ∧ frame.toNat ∉ client.held) ∧
      (∀ address, client.Holds address →
        Free (freed client.state address) (address.toNat / 4096)) ∧
      (scanBitmap client.state = none →
        (client.held : Set ℕ) = managedFrames regions s.toStatics) := by
  have hfree := init_free_eq_managed hbound hinit
  refine ⟨hfree, ?_⟩
  intro calls hlegal client
  obtain ⟨pool, hmodels, hstock⟩ := Client.exists_pool (init_sound hinit) hlegal
  have hmanaged : pool.stock = managedFrames regions s.toStatics := by
    rw [hstock]
    exact Set.ext hfree
  have hfreeEq := hmodels.free_eq
  have hheldEq := hmodels.held_eq
  refine ⟨⟨?_, ?_⟩, ?_, ?_, ?_⟩
  · rw [← hfreeEq, ← hheldEq]
    exact hmanaged
  · rw [← hfreeEq, ← hheldEq]
    exact pool.disjoint
  · intro frame hscan
    have hleast := isLeast_of_scan_some hmodels.sound hscan
    have hmem : frame.toNat ∈ pool.free := by
      rw [hfreeEq]
      exact hleast.1
    refine ⟨toNat_allocFrame_fst hmodels.sound hscan, ?_, ?_⟩
    · rw [← hmanaged]
      exact Or.inl hmem
    · intro hheld
      refine Set.disjoint_left.mp pool.disjoint hmem ?_
      rw [hheldEq]
      exact hheld
  · intro address hholds
    exact (free_freed hmodels.sound (hmodels.accepts hholds) _).mpr (Or.inr rfl)
  · intro hscan
    have hempty : pool.free = ∅ := by
      rw [hfreeEq, Set.eq_empty_iff_forall_notMem]
      exact (scanBitmap_eq_none_iff hmodels.sound).mp hscan
    rw [← hheldEq, pool.held_eq_stock_of_free_eq_empty hempty, hmanaged]

/-- The memory map of the host test of the allocator. -/
def probeMap : List MemoryRegion :=
  [⟨0x0, 0x1000, .reserved⟩, ⟨0x1000, 0x1F000, .usable⟩, ⟨0x20000, 0x10000, .reserved⟩,
    ⟨0x30000, 0x8000, .usable⟩]

theorem exists_probeMap_init :
    ∃ s, init probeMap 0xffff800000000000 (fun _ ↦ 0) = .ok s :=
  exists_init_eq_ok (by decide) (by decide) _ _

theorem frames_conserved_probeMap :
    ∃ s, init probeMap 0xffff800000000000 (fun _ ↦ 0) = .ok s ∧
      {frame | Free (Run.final Client.step (Client.start s)
          [.alloc, .alloc, .free 0x2000]).state frame} ∪
        ↑(Run.final Client.step (Client.start s) [.alloc, .alloc, .free 0x2000]).held =
        managedFrames probeMap s.toStatics := by
  obtain ⟨s, hinit, hlegal⟩ : ∃ s, init probeMap 0xffff800000000000 (fun _ ↦ 0) = .ok s ∧
      Run.Legal Client.step Client.FreesHeld (Client.start s) [.alloc, .alloc, .free 0x2000] :=
    Run.exists_of_succeedsWith (by decide +kernel)
  exact ⟨s, hinit, ((frames_conserved (by decide) hinit).2 _ hlegal).1.1⟩

/-! ## Who gets the bitmap's frames -/

/-- A byte of the bitmap words lies in the frame. -/
def OverlapsBitmap (s : Statics) (frame : ℕ) : Prop :=
  ∃ byte, (s.bitmapPhys.toNat ≤ byte ∧ byte < s.bitmapPhys.toNat + s.bitmapBytes.toNat) ∧
    4096 * frame ≤ byte ∧ byte < 4096 * (frame + 1)

/-- No disciplined history gets a frame with a byte of the bitmap in it. -/
def BitmapNeverHandedOut (s : State) : Prop :=
  ∀ calls, Run.Legal Client.step Client.FreesHeld (Client.start s) calls →
    ∀ frame, scanBitmap (Run.final Client.step (Client.start s) calls).state = some frame →
      ¬ OverlapsBitmap s.toStatics frame.toNat

/-- The bitmap, placed at the base of the first region long enough, ends inside the reserved
frames; or the frame after these is not wholly usable; or the frame count wraps to zero. -/
def BitmapContained (regions : List MemoryRegion) : Prop :=
  ∀ region, findBitmapRegion regions (requiredPages regions) = some region →
    region.base.toNat % 4096 + (requiredBytes regions).toNat ≤
        4096 * (requiredPages regions).toNat ∨
      ¬ WhollyUsable regions (region.base.toNat / 4096 + (requiredPages regions).toNat) ∨
      2 ^ 64 - 4096 < (highestUsableEnd regions).toNat

/-- Of the frames that are not reserved, at most the next one overlaps the bitmap. -/
theorem overlapsBitmap_iff {regions : List MemoryRegion} {hhdmOffset : Word} {s : Statics}
    (h : Initialized regions hhdmOffset s) (hpositive : 0 < s.frameCount.toNat) {frame : ℕ}
    (hframe : ¬ ReservedForBitmap s frame) :
    OverlapsBitmap s frame ↔
      frame = s.bitmapPhys.toNat / 4096 + (bitmapPages s).toNat ∧
        4096 * (bitmapPages s).toNat < s.bitmapPhys.toNat % 4096 + s.bitmapBytes.toNat := by
  have hpages := h.bitmapPages_eq
  have hbytes := h.bitmapBytes_eq
  have hwords := h.layout.bitmapWords_eq
  unfold ReservedForBitmap at hframe
  constructor
  · rintro ⟨byte, hbitmap, hbyte⟩
    omega
  · rintro ⟨hspill, hlong⟩
    exact ⟨4096 * frame, by omega, by omega⟩

/-- Allocating often enough hands out any given free frame. -/
theorem Client.exists_allocs {client : Client} (hs : Sound client.state) {target : ℕ}
    (htarget : Free client.state target) :
    ∃ count frame, scanBitmap (Run.final Client.step client
      (List.replicate count .alloc)).state = some frame ∧ frame.toNat = target := by
  -- Induction on the number of free frames below the target.
  generalize hbelow : ((Finset.range target).filter (Free client.state)).card = below
  induction below using Nat.strong_induction_on generalizing client with
  | _ below ih =>
    cases hscan : scanBitmap client.state with
    | none => exact absurd htarget ((scanBitmap_eq_none_iff hs).mp hscan target)
    | some frame =>
      have hleast := isLeast_of_scan_some hs hscan
      by_cases heq : frame.toNat = target
      · exact ⟨0, frame, hscan, heq⟩
      · have hlt : frame.toNat < target := lt_of_le_of_ne (hleast.2 htarget) heq
        have hfree := free_allocFrame hs hscan
        have hfewer : ((Finset.range target).filter
            (Free (client.step .alloc).state)).card < below := by
          rw [← hbelow]
          apply Finset.card_lt_card
          rw [Finset.ssubset_iff_of_subset]
          · refine ⟨frame.toNat, ?_, ?_⟩
            · rw [Finset.mem_filter, Finset.mem_range]
              exact ⟨hlt, hleast.1⟩
            · rw [Finset.mem_filter]
              exact fun h ↦ ((hfree _).mp h.2).2 rfl
          · intro other hother
            rw [Finset.mem_filter] at hother ⊢
            exact ⟨hother.1, ((hfree other).mp hother.2).1⟩
        obtain ⟨count, offered, hoffered, htoNat⟩ := ih _ hfewer (allocFrame_sound hs)
          ((hfree target).mpr ⟨htarget, Ne.symm heq⟩) rfl
        exact ⟨count + 1, offered, hoffered, htoNat⟩

theorem Client.legal_allocs (client : Client) (count : ℕ) :
    Run.Legal Client.step Client.FreesHeld client (List.replicate count .alloc) := by
  apply Run.legal_of_forall
  intro call hcall start
  rw [List.eq_of_mem_replicate hcall]
  trivial

/-- **The allocator's own bitmap.** For every memory map `init` accepts, no history gets a frame
with a byte of the bitmap in it if and only if the bitmap is contained in its reserved frames. -/
theorem bitmap_never_handed_out_iff {regions : List MemoryRegion} {hhdmOffset : Word}
    {memory : Memory} {s : State} (hnonwrapping : MemoryMap.NonWrapping regions)
    (hinit : init regions hhdmOffset memory = .ok s) :
    BitmapNeverHandedOut s ↔ BitmapContained regions := by
  obtain ⟨hinitialized, -, -, -⟩ := init_spec hinit
  have hfree := init_free_iff hnonwrapping.usable hinit
  have hsound := init_sound hinit
  obtain ⟨region, hfind, hbase⟩ := hinitialized.region
  have hpages : bitmapPages s.toStatics = requiredPages regions := by
    rw [bitmapPages, hinitialized.requiredBytes_eq]
    rfl
  constructor
  · intro hnever other hother
    obtain rfl : region = other := Option.some.inj (hfind.symm.trans hother)
    by_contra hcontained
    push Not at hcontained
    obtain ⟨hlong, husable, hhighest⟩ := hcontained
    rw [hbase, ← hpages] at husable
    rw [hbase, ← hpages, ← hinitialized.requiredBytes_eq] at hlong
    -- The frame after the reserved ones is free, so enough allocations reach it.
    have hvalid := lt_frameCount_of_whollyUsable hnonwrapping.usable hhighest hinitialized husable
    have hunreserved : ¬ ReservedForBitmap s.toStatics
        (s.bitmapPhys.toNat / 4096 + (bitmapPages s.toStatics).toNat) := by
      unfold ReservedForBitmap
      omega
    have htarget : Free (Client.start s).state
        (s.bitmapPhys.toNat / 4096 + (bitmapPages s.toStatics).toNat) :=
      (hfree _).mpr ⟨hvalid, husable, hunreserved⟩
    obtain ⟨count, frame, hscan, htoNat⟩ := Client.exists_allocs hsound htarget
    apply hnever _ (Client.legal_allocs _ count) frame hscan
    rw [htoNat, overlapsBitmap_iff hinitialized (by omega) hunreserved]
    exact ⟨rfl, hlong⟩
  · intro hcontained calls hlegal frame hscan
    obtain ⟨pool, hmodels, hstock⟩ := Client.exists_pool hsound hlegal
    have hstart : Free s frame.toNat := by
      have hmem : frame.toNat ∈ pool.stock := by
        refine Or.inl ?_
        rw [hmodels.free_eq]
        exact (isLeast_of_scan_some hmodels.sound hscan).1
      rw [hstock] at hmem
      exact hmem
    obtain ⟨hvalid, husable, hunreserved⟩ := (hfree _).mp hstart
    rw [overlapsBitmap_iff hinitialized (by omega) hunreserved]
    rintro ⟨hspill, hlong⟩
    rcases hcontained region hfind with hshort | hunusable | hwrapped
    · rw [hbase, ← hpages, ← hinitialized.requiredBytes_eq] at hshort
      omega
    · rw [hbase, ← hpages, ← hspill] at hunusable
      exact hunusable husable
    · rw [hinitialized.frameCount_eq, toNat_frameCountFor, if_neg (by omega)] at hvalid
      omega

/-- A single usable region that starts four bytes before a frame boundary. -/
def straddlingMap : List MemoryRegion :=
  [⟨0x1FFC, 0x3000, .usable⟩]

theorem bitmap_never_handed_out_iff_straddlingMap :
    ∃ s, init straddlingMap 0xffff800000000000 (fun _ ↦ 0) = .ok s ∧
      (BitmapNeverHandedOut s ↔ BitmapContained straddlingMap) := by
  obtain ⟨s, hinit⟩ : ∃ s, init straddlingMap 0xffff800000000000 (fun _ ↦ 0) = .ok s :=
    exists_init_eq_ok (by decide) (by decide) _ _
  exact ⟨s, hinit, bitmap_never_handed_out_iff (by decide) hinit⟩

/-- The first allocation after `init` on `straddlingMap` hands out frame 2, which holds the upper
half of the only bitmap word. -/
theorem bitmap_handed_out :
    ¬ ∀ (regions : List MemoryRegion) (hhdmOffset : Word) (memory : Memory) (s : State),
      MemoryMap.NonWrapping regions → init regions hhdmOffset memory = .ok s →
        BitmapNeverHandedOut s := by
  intro hall
  obtain ⟨s, hinit, hscan, hphys, hbytes⟩ :
      ∃ s, init straddlingMap 0xffff800000000000 (fun _ ↦ 0) = .ok s ∧
        scanBitmap s = some 2 ∧ s.bitmapPhys = 0x1FFC ∧ s.bitmapBytes = 8 :=
    Run.exists_of_succeedsWith (by decide +kernel)
  apply hall straddlingMap _ _ s (by decide) hinit [] trivial 2 hscan
  refine ⟨0x2000, ?_, by decide⟩
  rw [hphys, hbytes]
  decide

end WaterBuffalo.Pmm
