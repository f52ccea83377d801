import WaterBuffalo.Kernel.BootLines
import WaterBuffalo.Vmm.Isolation

/-!
# From the bootloader to the kernel's own address space

When the bootloader keeps the boot protocol and enough memory is free, `kmain` reaches the end: CR3
holds the root of an address space that maps exactly the direct map and the image, every mapping
that it looks up on the way is the expected one, the drawing goes to the framebuffer and leaves the
memory manager alone, and the store through the null pointer faults.
-/

namespace WaterBuffalo.Kernel

open Pmm Vmm Print ByteMemory

/-! ## The bootloader's promises -/

/-- What the boot protocol promises to an image of the linker script.  The limit on the entries is
the kernel's own. -/
structure Answers.Conforming (answers : Answers) (image : Image) : Prop where
  count_le : answers.regions.length ≤ 64
  usable : LimineMap answers.regions
  nonwrapping : MemoryMap.NonWrapping answers.regions
  /-- Usable regions do not overlap other ones. -/
  apart : ∀ region ∈ answers.regions, ∀ other ∈ answers.regions, region.type = .usable →
    other.type ≠ .usable →
      region.base.toNat + region.length.toNat ≤ other.base.toNat ∨
        other.base.toNat + other.length.toNat ≤ region.base.toNat
  directMap : WellFormedDirectMap answers.regions answers.hhdmOffset
  offset_pos : 0 < answers.hhdmOffset.toNat
  below : answers.hhdmOffset.toNat + roundUp (largestEnd answers.regions) (2 ^ 21) ≤ linkBase
  virtualBase_eq : answers.kernelAddress.virtualBase = BitVec.ofNat 64 linkBase
  physicalBase_aligned : answers.kernelAddress.physicalBase.toNat % 2 ^ 12 = 0
  /-- The image is loaded into a region of its own type. -/
  loaded : ∃ region ∈ answers.regions, region.type = .kernelAndModules ∧
    region.base.toNat ≤ answers.kernelAddress.physicalBase.toNat ∧
    answers.kernelAddress.physicalBase.toNat + (link image).extent ≤
      region.base.toNat + region.length.toNat
  fits : answers.framebuffer.Fits
  visible : 0 < answers.framebuffer.width.toNat ∧ 0 < answers.framebuffer.height.toNat
  /-- The framebuffer is shown by the direct map. -/
  shown : ∃ region ∈ answers.regions, region.type = .framebuffer ∧ ∃ offset : ℕ,
    answers.framebuffer.address =
      answers.hhdmOffset + region.base + BitVec.ofNat 64 offset ∧
    offset + answers.framebuffer.height.toNat * answers.framebuffer.pitch.toNat ≤
      region.length.toNat

/-! ## The framebuffer and the memory manager -/

section Apart

variable {regions : List MemoryRegion} {hhdmOffset : Word} {memory : Memory} {s later : State}

/-- The memory manager keeps to usable memory. -/
theorem managed_usable (hmap : LimineMap regions) (hinit : init regions hhdmOffset memory = .ok s)
    (hstatics : later.toStatics = s.toStatics) (htables : ∀ frame ∈ tableFrames later, Free s frame)
    {byte : Word} (h : Managed later byte) :
    ∃ region ∈ regions, region.type = .usable ∧
      Within (hhdmOffset + region.base) region.length.toNat byte := by
  obtain ⟨hinitialized, -⟩ := init_spec hinit
  rcases h with hbitmap | ⟨frame, hframe, hbyte⟩
  · obtain ⟨region, hregion, husable, hbase, hlength⟩ := hinitialized.exists_region
    have hpages := hinitialized.bitmapPages_eq
    refine ⟨region, hregion, husable, ?_⟩
    rw [hstatics, hinitialized.bitmap_eq, ← hbase] at hbitmap
    unfold Within at hbitmap ⊢
    omega
  · obtain ⟨-, ⟨region, hregion, husable, hlower, hupper⟩, -⟩ :=
      (init_free_iff hmap.nonWrapping hinit frame).mp (htables frame hframe)
    have hbound := hmap.bounded region hregion husable
    have hsplit : hhdmOffset + BitVec.ofNat 64 (4096 * frame) =
        hhdmOffset + region.base + BitVec.ofNat 64 (4096 * frame - region.base.toNat) := by
      have hword : BitVec.ofNat 64 (4096 * frame) =
          region.base + BitVec.ofNat 64 (4096 * frame - region.base.toNat) := by
        apply BitVec.eq_of_toNat_eq
        rw [BitVec.toNat_add, BitVec.toNat_ofNat, BitVec.toNat_ofNat]
        omega
      rw [hword, BitVec.add_assoc]
    refine ⟨region, hregion, husable, ?_⟩
    rw [InFrame, tableAddress, hstatics, hinitialized.hhdmOffset_eq, hsplit] at hbyte
    exact hbyte.of_part (by omega) region.length.isLt.le

/-- Regions that do not overlap share no byte of the direct map. -/
theorem not_within_of_apart {left right : MemoryRegion}
    (hleft : left.base.toNat + left.length.toNat < 2 ^ 64)
    (hright : right.base.toNat + right.length.toNat < 2 ^ 64)
    (hapart : left.base.toNat + left.length.toNat ≤ right.base.toNat ∨
      right.base.toNat + right.length.toNat ≤ left.base.toNat) {byte : Word}
    (hinLeft : Within (hhdmOffset + left.base) left.length.toNat byte) :
    ¬ Within (hhdmOffset + right.base) right.length.toNat byte := by
  unfold Within at hinLeft ⊢
  bv_omega

end Apart

namespace Framebuffer

variable {framebuffer : Framebuffer}

/-- A pixel lies in the framebuffer. -/
theorem Fits.within (h : framebuffer.Fits) {x y : ℕ} (hx : x < framebuffer.width.toNat)
    (hy : y < framebuffer.height.toNat) {byte : Word}
    (hbyte : Within (framebuffer.pixelAddress (BitVec.ofNat 64 x) (BitVec.ofNat 64 y)) 4 byte) :
    Within framebuffer.address (framebuffer.height.toNat * framebuffer.pitch.toNat) byte := by
  have hrow := h.row_le
  have hsize := h.size_le
  have hstride : framebuffer.stride ≤ framebuffer.pitch.toNat := Nat.mul_div_le _ _
  rw [pixelAddress_eq] at hbyte
  have hinRow : Within (recordAt framebuffer.address framebuffer.stride y) framebuffer.stride
      byte := by
    refine hbyte.of_part ?_ (hstride.trans framebuffer.pitch.isLt.le)
    unfold stride
    omega
  refine Within.of_part hinRow ?_ (by omega)
  calc
    framebuffer.stride * y + framebuffer.stride = framebuffer.stride * (y + 1) := by ring
    _ ≤ framebuffer.pitch.toNat * framebuffer.height.toNat := Nat.mul_le_mul hstride hy
    _ = framebuffer.height.toNat * framebuffer.pitch.toNat := Nat.mul_comm _ _

end Framebuffer

/-! ## The address space -/

namespace Answers.Conforming

variable {answers : Answers} {image : Image} {machine : Machine} {s later : State}
  {space : AddressSpace} {fresh : ℕ}

/-- The layout of the image where it was loaded. -/
theorem layout_eq (h : answers.Conforming image) :
    answers.layout (link image) = (link image).loaded answers.kernelAddress.physicalBase := by
  rw [Answers.layout, h.virtualBase_eq]
  rfl

/-- All memory lies below `2 ^ 47`. -/
theorem largestEnd_le (h : answers.Conforming image) : largestEnd answers.regions ≤ 2 ^ 47 := by
  have hround : largestEnd answers.regions ≤ roundUp (largestEnd answers.regions) (2 ^ 21) :=
    le_roundUp (by decide) _
  have hstop := h.directMap.stop_lt
  rcases h.directMap.oneHalf with hlower | hupper
  · omega
  · omega

theorem wellFormedInput (h : answers.Conforming image) (himage : image.WellFormed) :
    WellFormedInput answers.regions answers.hhdmOffset (answers.layout (link image)) := by
  obtain ⟨region, hregion, -, -, hend⟩ := h.loaded
  have hlargest := le_largestEnd hregion
  have hbound := h.largestEnd_le
  rw [h.layout_eq]
  exact himage.ordered.wellFormedInput h.physicalBase_aligned (by omega) h.directMap h.below

/-- The check of the base that `kmain` makes. -/
theorem holdsBase (h : answers.Conforming image) (himage : image.WellFormed) :
    ∃ region ∈ answers.regions, HoldsBase answers.kernelAddress.physicalBase region := by
  obtain ⟨region, hregion, htype, hlower, hupper⟩ := h.loaded
  have hpos := himage.ordered.extent_pos
  refine ⟨region, hregion, htype, ?_, ?_⟩
  · exact BitVec.le_def.mpr hlower
  · rw [BitVec.lt_def, BitVec.toNat_add, Nat.mod_eq_of_lt (h.nonwrapping region hregion)]
    omega

/-- A byte of a region, through the direct map. -/
theorem inDirectMap (h : answers.Conforming image) {region : MemoryRegion}
    (hregion : region ∈ answers.regions) {byte : Word}
    (hbyte : Within (answers.hhdmOffset + region.base) region.length.toNat byte) :
    InDirectMap answers.regions answers.hhdmOffset byte := by
  have hsize := h.directMap.toNat_size h.nonwrapping
  have hround : largestEnd answers.regions ≤ roundUp (largestEnd answers.regions) (2 ^ 21) :=
    le_roundUp (by decide) _
  have hstop := h.directMap.stop_lt
  have hend := le_largestEnd hregion
  rw [InDirectMap, hsize]
  unfold Within at hbyte
  bv_omega

/-- The framebuffer is in its region. -/
theorem exists_shown (h : answers.Conforming image) :
    ∃ region ∈ answers.regions, region.type = .framebuffer ∧ ∀ byte,
      Within answers.framebuffer.address
        (answers.framebuffer.height.toNat * answers.framebuffer.pitch.toNat) byte →
      Within (answers.hhdmOffset + region.base) region.length.toNat byte := by
  obtain ⟨region, hregion, htype, offset, haddress, hfits⟩ := h.shown
  refine ⟨region, hregion, htype, fun byte hbyte ↦ ?_⟩
  rw [haddress] at hbyte
  exact hbyte.of_part hfits region.length.isLt.le

/-- Drawing changes no byte of the memory manager. -/
theorem draw_managed (h : answers.Conforming image)
    (hinit : init answers.regions answers.hhdmOffset machine.memory = .ok s)
    (hstatics : later.toStatics = s.toStatics) (htables : ∀ frame ∈ tableFrames later, Free s frame)
    {byte : Word} (hbyte : Managed later byte) :
    answers.framebuffer.draw later.memory byte = later.memory byte := by
  obtain ⟨region, hregion, husable, hinUsable⟩ :=
    managed_usable h.usable hinit hstatics htables hbyte
  obtain ⟨shown, hshown, htype, hwindow⟩ := h.exists_shown
  refine Framebuffer.draw_of_not_within fun x hx y hy hpixel ↦ ?_
  exact not_within_of_apart (h.nonwrapping region hregion) (h.nonwrapping shown hshown)
    (h.apart region hregion shown hshown husable (by simp [htype])) hinUsable
    (hwindow byte (h.fits.within hx hy hpixel))

/-- The store through the null pointer goes nowhere. -/
theorem null_outside (h : answers.Conforming image) (himage : image.WellFormed) :
    ¬ InDirectMap answers.regions answers.hhdmOffset 0 ∧
      ¬ InImage (answers.layout (link image)) 0 := by
  have hoffset := h.offset_pos
  have hzero : (0 : Word).toNat = 0 := rfl
  refine ⟨fun hdirect ↦ ?_, fun hinside ↦ ?_⟩
  · have hlower := hdirect.1
    omega
  · have hlower := hinside.1
    rw [h.layout_eq, (himage.ordered.seen _).imageStart_eq, hzero] at hlower
    exact absurd hlower (by decide)

end Answers.Conforming

/-! ## Booting -/

/-- The kernel runs in its own address space. -/
structure Arrived (image : Image) (answers : Answers) (machine : Machine) (running : Running) :
    Prop where
  /-- CR3 has the physical address of the root. -/
  root : running.space = ⟨answers.hhdmOffset + running.cr3, running.cr3⟩
  noExecute : running.registers = Function.update machine.registers Msr.kEferMsr
    (machine.registers Msr.kEferMsr ||| Msr.kEferNxe)
  exact : KernelSpaceExact answers.regions answers.hhdmOffset (answers.layout (link image))
    running.state running.space
  sections : (link image).Protected answers.kernelAddress.physicalBase running.state running.space
  /-- The memory manager can go on. -/
  manager : ∃ stock root, KernelInv stock ∅ {root} running.state
  /-- The pointer to the framebuffer still leads there. -/
  shown : ∀ byte, Within answers.framebuffer.address
      (answers.framebuffer.height.toNat * answers.framebuffer.pitch.toNat) byte →
    translate running.state running.space byte = byte - answers.hhdmOffset ∧
      (effectiveRights running.state running.space.pml4 byte).writable = true
  drawn : ∀ x < answers.framebuffer.width.toNat, ∀ y < answers.framebuffer.height.toNat,
    read running.state.memory
        (answers.framebuffer.pixelAddress (BitVec.ofNat 64 x) (BitVec.ofNat 64 y)) 4 =
      BitVec.ofNat 32 (answers.framebuffer.gradient x y)
  null : leafPresent running.state running.space.pml4 0 = false

section Arrival

variable {answers : Answers} {image : Image} {machine : Machine} {s later : State}
  {space : AddressSpace} {fresh : ℕ}

/-- Drawing leaves the address space as it was built. -/
theorem built_after_draw (h : answers.Conforming image)
    (hinit : init answers.regions answers.hhdmOffset machine.memory = .ok s)
    {layout : KernelLayout}
    (hbuilt : KernelSpaceBuilt {frame | Free s frame} ∅ ∅ answers.regions answers.hhdmOffset
      layout s later space fresh) :
    KernelSpaceBuilt {frame | Free s frame} ∅ ∅ answers.regions answers.hhdmOffset layout s
      { later with memory := answers.framebuffer.draw later.memory } space fresh where
  inv := hbuilt.inv.overwrite fun _ hbyte ↦
    h.draw_managed hinit hbuilt.statics (fun _ hframe ↦ hbuilt.inv.table_mem_stock hframe) hbyte
  statics := hbuilt.statics
  space_eq := hbuilt.space_eq
  nonnull := hbuilt.nonnull
  maps := ⟨hbuilt.maps.admissible, hbuilt.maps.mem_installed_iff⟩

theorem arrived (h : answers.Conforming image) (himage : image.WellFormed)
    (hinit : init answers.regions answers.hhdmOffset machine.memory = .ok s)
    (hbuilt : KernelSpaceBuilt {frame | Free s frame} ∅ ∅ answers.regions answers.hhdmOffset
      (answers.layout (link image)) s later space fresh) :
    Arrived image answers machine (runningIn machine later space answers.regions
      answers.framebuffer answers.hhdmOffset) := by
  have hdrawn := built_after_draw h hinit hbuilt
  have hexact := hdrawn.exact
  have hsections := hexact
  rw [h.layout_eq] at hsections
  obtain ⟨region, hregion, -, hwindow⟩ := h.exists_shown
  refine ⟨?_, ?_, hexact, himage.ordered.protected hsections, ?_, ?_, ?_, ?_⟩
  · have hoffset := (init_spec hinit).1.hhdmOffset_eq
    simp only [runningIn, hbuilt.space_eq, tableAddress, hoffset]
  · change registersAfterBuild answers.regions answers.hhdmOffset machine.registers = _
    rw [registersAfterBuild, if_neg (h.wellFormedInput himage).passes, Msr.enableNx_eq]
  · have hinv := hdrawn.inv
    rw [insert_empty_eq] at hinv
    exact ⟨{frame | Free s frame}, fresh, hinv⟩
  · intro byte hbyte
    obtain ⟨htranslate, hrights, -⟩ :=
      hexact.directMap byte (h.inDirectMap hregion (hwindow byte hbyte))
    exact ⟨htranslate, congrArg Rights.writable hrights⟩
  · intro x hx y hy
    exact (h.fits.read_draw hx hy).trans (h.fits.pixelValue_eq hx hy)
  · obtain ⟨hdirect, hinside⟩ := h.null_outside himage
    exact (hexact.outside 0 hdirect hinside).2

/-- The lines about the address space when every mapping is the expected one. -/
def verifiedLines (answers : Answers) (layout : KernelLayout) (root : Word) : List (List Byte) :=
  let loadedAt (virt : Word) := virt - layout.virtualBase + layout.physicalBase
  let shownAt (virt : Word) := virt - answers.hhdmOffset
  [addressLine "pml4 physical:   " root,
    literal "direct map:      " ++ address (answers.hhdmOffset + 0x1000) ++ literal " -> " ++
      address 0x1000 ++ literal " (expect 0x1000)",
    mappingLine "framebuffer:     " answers.framebuffer.address
      (shownAt answers.framebuffer.address) (shownAt answers.framebuffer.address),
    mappingLine "image:           " layout.imageStart (loadedAt layout.imageStart)
      (loadedAt layout.imageStart),
    mappingLine ".text:           " layout.textStart (loadedAt layout.textStart)
      (loadedAt layout.textStart),
    mappingLine ".data:           " layout.dataStart (loadedAt layout.dataStart)
      (loadedAt layout.dataStart)]

/-- Every mapping that `kmain` looks up before it loads CR3 is the expected one. -/
theorem mappingLines_eq (h : answers.Conforming image) (himage : image.WellFormed)
    (hexact : KernelSpaceExact answers.regions answers.hhdmOffset (answers.layout (link image))
      later space) :
    mappingLines later space answers.framebuffer answers.hhdmOffset (answers.layout (link image)) =
      verifiedLines answers (answers.layout (link image)) space.pml4Physical := by
  have hinput := h.wellFormedInput himage
  have hlayout := hinput.image
  have hsize := h.directMap.toNat_size h.nonwrapping
  have hstop := hlayout.toNat_stop
  have hdirect : translate later space (answers.hhdmOffset + 0x1000) = 0x1000 := by
    have hpositive := h.directMap.highest_pos
    have hround : 2 ^ 21 ≤ roundUp (largestEnd answers.regions) (2 ^ 21) := by
      unfold roundUp
      omega
    have hlt := h.directMap.stop_lt
    have hinside : InDirectMap answers.regions answers.hhdmOffset
        (answers.hhdmOffset + 0x1000) := by
      rw [InDirectMap, hsize]
      bv_omega
    calc
      translate later space (answers.hhdmOffset + 0x1000) =
          answers.hhdmOffset + 0x1000 - answers.hhdmOffset :=
        (hexact.directMap _ hinside).1
      _ = 0x1000 := by ring
  have hframebuffer : translate later space answers.framebuffer.address =
      answers.framebuffer.address - answers.hhdmOffset := by
    obtain ⟨region, hregion, -, hwindow⟩ := h.exists_shown
    have hfirst : Within answers.framebuffer.address
        (answers.framebuffer.height.toNat * answers.framebuffer.pitch.toNat)
        answers.framebuffer.address := by
      have hrow := h.fits.row_le
      obtain ⟨hwidth, hheight⟩ := h.visible
      have hpitch : 0 < answers.framebuffer.pitch.toNat := by omega
      rw [Within, BitVec.sub_self]
      exact Nat.mul_pos hheight hpitch
    exact (hexact.directMap _ (h.inDirectMap hregion (hwindow _ hfirst))).1
  -- The three addresses of the image are between its ends.
  have hloaded : ∀ virt : Word, (answers.layout (link image)).imageStart.toNat ≤ virt.toNat →
      virt.toNat ≤ (answers.layout (link image)).dataStart.toNat →
      translate later space virt = virt - (answers.layout (link image)).virtualBase +
        (answers.layout (link image)).physicalBase := by
    intro virt hlower hupper
    have hdata := hlayout.data_lt
    have hinside : InImage (answers.layout (link image)) virt := by
      rw [InImage, hstop]
      omega
    exact (hexact.image virt hinside).1
  have htext := hlayout.image_lt
  have hrodata := hlayout.text_lt
  have hdata := hlayout.rodata_lt
  rw [mappingLines, hdirect, hframebuffer, hloaded _ le_rfl (by omega),
    hloaded _ (by omega) (by omega), hloaded _ (by omega) le_rfl]
  rfl

end Arrival

/-- What is on the terminal when `kmain` has reached the end. -/
def bootLines (image : Image) (answers : Answers) (s : State) (root : Word) : List (List Byte) :=
  openingLines (link image) answers ++ memoryLines answers.regions s ++
    (verifiedLines answers (answers.layout (link image)) root ++
      [literal "loading cr3...", literal "cr3 loaded", literal "done"])

/-- Where `kmain` arrives does not depend on where the literals are. -/
theorem kmain_arrives {image : Image} (himage : image.WellFormed) {answers : Answers}
    (hanswers : answers.Conforming image) {machine : Machine} {s : State}
    (hinit : init answers.regions answers.hhdmOffset machine.memory = .ok s)
    (hcost : kernelTables answers.regions answers.hhdmOffset (answers.layout (link image)) ≤
      (freeFrames s).card) :
    ∃ running, Arrived image answers machine running ∧
      ∀ literals : Literals, literals.HasNames →
        Prints literals.memory (kmain literals (link image) answers.responses machine)
          (bootLines image answers s running.cr3) running := by
  have hinput := hanswers.wellFormedInput himage
  have hnonnull := nonNullMap_of_directMap hanswers.directMap hanswers.offset_pos
  obtain ⟨hreturned, fresh, -, hbuilt⟩ :=
    (init_wellFormed hanswers.usable hinit).build (hnonnull.nonNull hanswers.usable hinit)
      machine.stackSpace hanswers.nonwrapping hinput hcost
  rw [State.restartTrace_of_nil (init_spec hinit).2.2.1] at hreturned hbuilt
  obtain ⟨space, later, hbuild⟩ : ∃ space later, buildKernelAddressSpace s machine.stackSpace
      (some answers.regions) answers.hhdmOffset (answers.layout (link image)) =
        (true, space, later) := ⟨_, _, Prod.ext hreturned rfl⟩
  rw [hbuild] at hbuilt
  refine ⟨_, arrived hanswers himage hinit hbuilt, fun literals hnames ↦ ?_⟩
  have hprints := kmain_prints hnames hanswers.count_le
    (hanswers.holdsBase himage) hinit hbuild
  rw [enteringLines, mappingLines_eq hanswers himage hbuilt.exact] at hprints
  exact hprints

/-- **The kernel boots.** When the bootloader keeps the protocol and the tables can be paid for,
`kmain` reaches its end in its own address space, and prints the reference on the way: every
mapping that it looks up before it loads CR3 is the expected one. -/
theorem kernel_boots {image : Image} (himage : image.WellFormed) {answers : Answers}
    (hanswers : answers.Conforming image) {literals : Literals} (hnames : literals.HasNames)
    {machine : Machine} {s : State}
    (hinit : init answers.regions answers.hhdmOffset machine.memory = .ok s)
    (hcost : kernelTables answers.regions answers.hhdmOffset (answers.layout (link image)) ≤
      (freeFrames s).card) :
    ∃ running, (kmain literals (link image) answers.responses machine).result = some running ∧
      Arrived image answers machine running ∧
      (kmain literals (link image) answers.responses machine).log.flatMap
          (Output.printed literals.memory) =
        joinLines (bootLines image answers s running.cr3) := by
  obtain ⟨running, harrived, hprints⟩ := kmain_arrives himage hanswers hinit hcost
  have hboot := hprints literals hnames
  exact ⟨running, hboot.result, harrived, hboot.log⟩

/-- The answers on the small machine: 16 by 16 pixels, and the image at 1 MiB. -/
def smallAnswers : Answers where
  framebuffer := ⟨0xffff800000200000, 16, 16, 64⟩
  others := []
  regions := smallMap
  hhdmOffset := 0xffff800000000000
  kernelAddress := ⟨0xffffffff80000000, 0x100000⟩

theorem smallAnswers_conforming : smallAnswers.Conforming smallImage where
  count_le := by decide
  usable := by decide
  nonwrapping := by decide
  apart := by decide
  directMap := smallMap_directMap
  offset_pos := by decide
  below := by decide
  virtualBase_eq := rfl
  physicalBase_aligned := by decide
  loaded := ⟨⟨0x100000, 0x10000, .kernelAndModules⟩, by decide, rfl, by decide, by decide⟩
  fits := ⟨by decide, by decide⟩
  visible := by decide
  shown := ⟨⟨0x200000, 0x1000, .framebuffer⟩, by decide, rfl, 0, by decide, by decide⟩

/-- The frames that the small machine needs. -/
theorem smallAnswers_tables :
    kernelTables smallMap 0xffff800000000000 (smallAnswers.layout (link smallImage)) ≤ 15 := by
  decide

/-- An image with the names of the region types. -/
def namesOnly : Literals :=
  literalsOf ([RegionType.usable, .reserved, .acpiReclaimable, .acpiNvs, .bad,
    .bootloaderReclaimable, .kernelAndModules, .framebuffer].map
      fun type ↦ literal (regionTypeName type))

theorem namesOnly_hasNames : namesOnly.HasNames := by
  intro type
  refine stored_literalsOf (List.mem_map.mpr ⟨type, ?_, rfl⟩) ?_ ?_
  · cases type <;> decide
  · have hnonzero : ((literal (regionTypeName type)).all (· != 0)) = true := by
      cases type <;> rfl
    exact fun byte hbyte ↦ bne_iff_ne.mp (List.all_eq_true.mp hnonzero byte hbyte)
  · rw [length_pool]
    exact lt_of_le_of_lt (Nat.le_of_ble_eq_true (rfl : Nat.ble _ 1000 = true)) (by decide)

def smallMachine : Machine where
  memory := fun _ ↦ 0
  registers := fun _ ↦ 0
  cr3 := 0
  stackSpace := ⟨0, 0⟩

/-- The small machine boots. -/
theorem kernel_boots_smallAnswers :
    ∃ s running, init smallMap 0xffff800000000000 (fun _ ↦ 0) = .ok s ∧
      (kmain namesOnly (link smallImage) smallAnswers.responses smallMachine).result =
        some running ∧
      Arrived smallImage smallAnswers smallMachine running ∧
      (kmain namesOnly (link smallImage) smallAnswers.responses smallMachine).log.flatMap
          (Output.printed namesOnly.memory) =
        joinLines (bootLines smallImage smallAnswers s running.cr3) := by
  obtain ⟨s, hinit, hfree⟩ := exists_smallMap_free
  have hcost := smallAnswers_tables
  rw [← hfree] at hcost
  change init smallAnswers.regions smallAnswers.hhdmOffset smallMachine.memory = _ at hinit
  obtain ⟨running, hboots⟩ := kernel_boots smallImage_wellFormed smallAnswers_conforming
    namesOnly_hasNames hinit hcost
  exact ⟨s, running, hinit, hboots⟩

end WaterBuffalo.Kernel
