import WaterBuffalo.Vmm.KernelBudget

/-!
# The layout of the image

`linker.lds` places the output sections one after the other from `0xffffffff80000000` on, each
segment on a page of its own, and defines the symbols that `kmain` makes its `KernelLayout` of.
Every image it lays out is one that `build_kernel_address_space` accepts, and the bytes of each
section get the rights of the section.
-/

namespace WaterBuffalo.Kernel

open Vmm Pmm

/-- An output section: the bytes that its input sections take, and the strictest of their
alignments. -/
structure OutputSection where
  size : ℕ
  alignment : ℕ
  deriving DecidableEq, Repr

/-- The output sections of `linker.lds`. -/
structure Image where
  limineRequests : OutputSection
  text : OutputSection
  rodata : OutputSection
  initArray : OutputSection
  data : OutputSection
  bss : OutputSection
  deriving DecidableEq, Repr

/-- The symbols of `linker.lds`. -/
structure Symbols where
  limineRequestsStart : ℕ
  limineRequestsEnd : ℕ
  textStart : ℕ
  textEnd : ℕ
  rodataStart : ℕ
  initArrayStart : ℕ
  initArrayEnd : ℕ
  rodataEnd : ℕ
  dataStart : ℕ
  dataEnd : ℕ
  deriving DecidableEq, Repr

/-- Where the location counter starts. -/
def linkBase : ℕ := 0xffffffff80000000

/-- `CONSTANT(MAXPAGESIZE)`: the build passes `-z max-page-size=0x1000`. -/
def maxPageSize : ℕ := 0x1000

namespace OutputSection

/-- Where a section starts when the location counter is at `counter`. -/
def start (output : OutputSection) (counter : ℕ) : ℕ :=
  roundUp counter output.alignment

/-- The location counter behind the section. -/
def stop (output : OutputSection) (counter : ℕ) : ℕ :=
  output.start counter + output.size

end OutputSection

/-- The commands of `SECTIONS`. -/
def link (image : Image) : Symbols :=
  let limineRequestsStart := image.limineRequests.start linkBase
  let limineRequestsEnd := image.limineRequests.stop linkBase
  let counter := roundUp limineRequestsEnd maxPageSize
  let textStart := image.text.start counter
  let textEnd := image.text.stop counter
  let counter := roundUp textEnd maxPageSize
  let rodataStart := image.rodata.start counter
  let counter := image.rodata.stop counter
  let initArrayStart := image.initArray.start counter
  let initArrayEnd := image.initArray.stop counter
  let rodataEnd := initArrayEnd
  let counter := roundUp rodataEnd maxPageSize
  let dataStart := image.data.start counter
  let counter := image.data.stop counter
  let dataEnd := image.bss.stop counter
  { limineRequestsStart, limineRequestsEnd, textStart, textEnd, rodataStart, initArrayStart,
    initArrayEnd, rodataEnd, dataStart, dataEnd }

/-- The layout that `kmain` passes on. -/
def Symbols.layout (symbols : Symbols) (virtualBase physicalBase : Word) : KernelLayout where
  virtualBase := virtualBase
  physicalBase := physicalBase
  imageStart := BitVec.ofNat 64 symbols.limineRequestsStart
  textStart := BitVec.ofNat 64 symbols.textStart
  rodataStart := BitVec.ofNat 64 symbols.rodataStart
  dataStart := BitVec.ofNat 64 symbols.dataStart
  dataEnd := BitVec.ofNat 64 symbols.dataEnd

/-- No section wants more than a page of alignment, no segment is empty, and the image ends
before the last page of the address space. -/
structure Image.WellFormed (image : Image) : Prop where
  limineRequests_aligned : image.limineRequests.alignment ∣ maxPageSize
  text_aligned : image.text.alignment ∣ maxPageSize
  rodata_aligned : image.rodata.alignment ∣ maxPageSize
  initArray_aligned : image.initArray.alignment ∣ maxPageSize
  data_aligned : image.data.alignment ∣ maxPageSize
  bss_aligned : image.bss.alignment ∣ maxPageSize
  limineRequests_pos : 0 < image.limineRequests.size
  text_pos : 0 < image.text.size
  rodata_pos : 0 < image.rodata.size + image.initArray.size
  data_pos : 0 < image.data.size + image.bss.size
  stop_le : (link image).dataEnd ≤ 2 ^ 64 - 2 * maxPageSize

/-! ## The symbols -/

section Placement

variable {counter unit : ℕ}

theorem le_roundUp (hunit : 0 < unit) (value : ℕ) : value ≤ roundUp value unit := by
  have hmod := Nat.mod_lt (value + (unit - 1)) hunit
  have hdiv := Nat.div_add_mod (value + (unit - 1)) unit
  rw [roundUp, Nat.mul_comm]
  omega

theorem roundUp_mod (value unit : ℕ) : roundUp value unit % unit = 0 :=
  Nat.mul_mod_left _ _

/-- A section that wants at most a page of alignment starts at the counter when that is on a
page. -/
theorem OutputSection.start_of_aligned {output : OutputSection}
    (hdivides : output.alignment ∣ maxPageSize) (haligned : counter % maxPageSize = 0) :
    output.start counter = counter := by
  have hpos : 0 < output.alignment := Nat.pos_of_dvd_of_pos hdivides (by decide)
  obtain ⟨factor, rfl⟩ := hdivides.trans (Nat.dvd_of_mod_eq_zero haligned)
  rw [OutputSection.start, roundUp, Nat.mul_add_div hpos, Nat.div_eq_of_lt (by omega), Nat.add_zero,
    Nat.mul_comm]

theorem OutputSection.le_stop {output : OutputSection}
    (hdivides : output.alignment ∣ maxPageSize) (counter : ℕ) :
    counter + output.size ≤ output.stop counter := by
  have hpos : 0 < output.alignment := Nat.pos_of_dvd_of_pos hdivides (by decide)
  exact Nat.add_le_add_right (le_roundUp hpos counter) _

end Placement

/-- Where the symbols of a well-formed image are. -/
structure Symbols.Ordered (symbols : Symbols) : Prop where
  limineRequestsStart_eq : symbols.limineRequestsStart = linkBase
  limineRequests_lt : symbols.limineRequestsStart < symbols.limineRequestsEnd
  text_le : symbols.limineRequestsEnd ≤ symbols.textStart
  text_lt : symbols.textStart < symbols.textEnd
  rodata_le : symbols.textEnd ≤ symbols.rodataStart
  rodata_lt : symbols.rodataStart < symbols.rodataEnd
  data_le : symbols.rodataEnd ≤ symbols.dataStart
  data_lt : symbols.dataStart < symbols.dataEnd
  stop_le : symbols.dataEnd ≤ 2 ^ 64 - 2 * maxPageSize
  text_aligned : symbols.textStart % maxPageSize = 0
  rodata_aligned : symbols.rodataStart % maxPageSize = 0
  data_aligned : symbols.dataStart % maxPageSize = 0

theorem Image.WellFormed.ordered {image : Image} (h : image.WellFormed) :
    (link image).Ordered := by
  have hstart : (link image).limineRequestsStart = linkBase :=
    OutputSection.start_of_aligned h.limineRequests_aligned (by decide)
  have htext : (link image).textStart = roundUp (link image).limineRequestsEnd maxPageSize :=
    OutputSection.start_of_aligned h.text_aligned (roundUp_mod _ _)
  have hrodata : (link image).rodataStart = roundUp (link image).textEnd maxPageSize :=
    OutputSection.start_of_aligned h.rodata_aligned (roundUp_mod _ _)
  have hdata : (link image).dataStart = roundUp (link image).rodataEnd maxPageSize :=
    OutputSection.start_of_aligned h.data_aligned (roundUp_mod _ _)
  have hrequestsEnd : (link image).limineRequestsEnd =
      (link image).limineRequestsStart + image.limineRequests.size := rfl
  have htextEnd : (link image).textEnd = (link image).textStart + image.text.size := rfl
  have hrodataEnd : (link image).rodataStart + image.rodata.size + image.initArray.size ≤
      (link image).rodataEnd := OutputSection.le_stop h.initArray_aligned _
  have hdataEnd : (link image).dataStart + image.data.size + image.bss.size ≤
      (link image).dataEnd := OutputSection.le_stop h.bss_aligned _
  have hpage : ∀ value, value ≤ roundUp value maxPageSize := le_roundUp (by decide)
  have hrequests := h.limineRequests_pos
  have htextPos := h.text_pos
  have hrodataPos := h.rodata_pos
  have hdataPos := h.data_pos
  refine ⟨hstart, by omega, ?_, by omega, ?_, by omega, ?_, by omega, h.stop_le, ?_, ?_, ?_⟩
  · rw [htext]
    exact hpage _
  · rw [hrodata]
    exact hpage _
  · rw [hdata]
    exact hpage _
  · rw [htext, roundUp_mod]
  · rw [hrodata, roundUp_mod]
  · rw [hdata, roundUp_mod]

/-- The bytes the image takes in memory, whole pages. -/
def Symbols.extent (symbols : Symbols) : ℕ :=
  roundUp symbols.dataEnd maxPageSize - linkBase

theorem Symbols.Ordered.extent_pos {symbols : Symbols} (h : symbols.Ordered) :
    0 < symbols.extent := by
  apply Nat.sub_pos_of_lt
  calc
    linkBase = symbols.limineRequestsStart := h.limineRequestsStart_eq.symm
    _ < symbols.limineRequestsEnd := h.limineRequests_lt
    _ ≤ symbols.textStart := h.text_le
    _ ≤ symbols.textEnd := h.text_lt.le
    _ ≤ symbols.rodataStart := h.rodata_le
    _ ≤ symbols.rodataEnd := h.rodata_lt.le
    _ ≤ symbols.dataStart := h.data_le
    _ ≤ symbols.dataEnd := h.data_lt.le
    _ ≤ roundUp symbols.dataEnd maxPageSize := le_roundUp (by decide) _

/-! ## What the paging code makes of them -/

section Layout

variable {symbols : Symbols} {physicalBase : Word}

/-- The image where the bootloader has loaded it. -/
def Symbols.loaded (symbols : Symbols) (physicalBase : Word) : KernelLayout :=
  symbols.layout (BitVec.ofNat 64 linkBase) physicalBase

theorem Symbols.Ordered.toNat_eq (h : symbols.Ordered) {value : ℕ}
    (hvalue : value ≤ symbols.dataEnd) : (BitVec.ofNat 64 value).toNat = value := by
  have hstop := h.stop_le
  unfold maxPageSize at hstop
  rw [BitVec.toNat_ofNat]
  exact Nat.mod_eq_of_lt (by omega)

/-- The bounds of the sections, as the paging code sees them. -/
structure Symbols.Seen (symbols : Symbols) (layout : KernelLayout) : Prop where
  imageStart_eq : layout.imageStart.toNat = linkBase
  textStart_eq : layout.textStart.toNat = symbols.textStart
  rodataStart_eq : layout.rodataStart.toNat = symbols.rodataStart
  dataStart_eq : layout.dataStart.toNat = symbols.dataStart
  dataEnd_eq : layout.dataEnd.toNat = symbols.dataEnd

theorem Symbols.Ordered.seen (h : symbols.Ordered) (physicalBase : Word) :
    symbols.Seen (symbols.loaded physicalBase) := by
  have horder := h
  obtain ⟨hbase, hrequests, htext, htextLt, hrodata, hrodataLt, hdata, hdataLt, -⟩ := horder
  refine ⟨?_, h.toNat_eq (by omega), h.toNat_eq (by omega), h.toNat_eq (by omega),
    h.toNat_eq le_rfl⟩
  rw [← hbase]
  exact h.toNat_eq (by omega)

/-- The symbols of the script make a layout that is accepted. -/
theorem Symbols.Ordered.wellFormedLayout (h : symbols.Ordered)
    (haligned : physicalBase.toNat % 2 ^ 12 = 0)
    (hfits : physicalBase.toNat + symbols.extent ≤ 2 ^ 52) :
    WellFormedLayout (symbols.loaded physicalBase) := by
  have horder := h
  obtain ⟨hbase, hrequests, htext, htextLt, hrodata, hrodataLt, hdata, hdataLt, hstop, -⟩ := horder
  obtain ⟨himage, htextStart, hrodataStart, hdataStart, hdataEnd⟩ := h.seen physicalBase
  have hphys : imagePhys (symbols.loaded physicalBase) = physicalBase := by
    simp only [imagePhys, Symbols.loaded, Symbols.layout, hbase]
    ring
  have hround : symbols.dataEnd ≤ roundUp symbols.dataEnd (2 ^ 12) ∧
      roundUp symbols.dataEnd (2 ^ 12) < 2 ^ 64 := by
    unfold maxPageSize at hstop
    unfold roundUp
    omega
  have hlink : linkBase = 0xffffffff80000000 := rfl
  refine ⟨?_, ?_, ?_, ?_, ?_, ?_, ?_, ?_, ?_, ?_, ?_, ?_⟩
  · rw [hdataEnd]
    exact hround.2
  · omega
  · omega
  · omega
  · rw [hdataEnd]
    omega
  · rw [himage]
    rfl
  · rw [htextStart]
    exact h.text_aligned
  · rw [hrodataStart]
    exact h.rodata_aligned
  · rw [hdataStart]
    exact h.data_aligned
  · exact Or.inr (by omega)
  · rwa [hphys]
  · rw [hphys, himage, hdataEnd]
    exact hfits

/-- A direct map that ends below the image goes with it. -/
theorem Symbols.Ordered.wellFormedInput (h : symbols.Ordered)
    (haligned : physicalBase.toNat % 2 ^ 12 = 0)
    (hfits : physicalBase.toNat + symbols.extent ≤ 2 ^ 52) {regions : List MemoryRegion}
    {hhdmOffset : Word} (hdirect : WellFormedDirectMap regions hhdmOffset)
    (hbelow : hhdmOffset.toNat + roundUp (largestEnd regions) (2 ^ 21) ≤ linkBase) :
    WellFormedInput regions hhdmOffset (symbols.loaded physicalBase) where
  nonempty := by
    rintro rfl
    exact absurd hdirect.highest_pos (by decide)
  directMap := hdirect
  image := h.wellFormedLayout haligned hfits
  disjoint := by
    rw [(h.seen physicalBase).imageStart_eq]
    omega

end Layout

/-! ## The rights of the sections -/

/-- The byte of the image is where it was loaded, with the given rights. -/
def Loaded (physicalBase : Word) (s : State) (space : AddressSpace) (rights : Rights)
    (address : Word) : Prop :=
  translate s space address = address - BitVec.ofNat 64 linkBase + physicalBase ∧
    effectiveRights s space.pml4 address = rights ∧ leafPresent s space.pml4 address = true

/-- Code can be executed and not written, data written and not executed, and the rest only
read. -/
structure Symbols.Protected (symbols : Symbols) (physicalBase : Word) (s : State)
    (space : AddressSpace) : Prop where
  limineRequests : ∀ address : Word, symbols.limineRequestsStart ≤ address.toNat →
    address.toNat < symbols.limineRequestsEnd →
    Loaded physicalBase s space ⟨false, false, true⟩ address
  text : ∀ address : Word, symbols.textStart ≤ address.toNat → address.toNat < symbols.textEnd →
    Loaded physicalBase s space ⟨false, false, false⟩ address
  rodata : ∀ address : Word, symbols.rodataStart ≤ address.toNat →
    address.toNat < symbols.rodataEnd → Loaded physicalBase s space ⟨false, false, true⟩ address
  data : ∀ address : Word, symbols.dataStart ≤ address.toNat → address.toNat < symbols.dataEnd →
    Loaded physicalBase s space ⟨true, false, true⟩ address

theorem Symbols.Ordered.protected {symbols : Symbols} (h : symbols.Ordered) {physicalBase : Word}
    {regions : List MemoryRegion} {hhdmOffset : Word} {s : State} {space : AddressSpace}
    (hexact : KernelSpaceExact regions hhdmOffset (symbols.loaded physicalBase) s space) :
    symbols.Protected physicalBase s space := by
  obtain ⟨himage, htextStart, hrodataStart, hdataStart, hdataEnd⟩ := h.seen physicalBase
  have horder := h
  obtain ⟨hbase, hrequests, htext, htextLt, hrodata, hrodataLt, hdata, hdataLt, hstop, -⟩ := horder
  unfold maxPageSize at hstop
  have hround : (imageEnd (symbols.loaded physicalBase)).toNat =
      roundUp symbols.dataEnd (2 ^ 12) := by
    rw [toNat_imageEnd, hdataEnd, if_pos (by omega)]
  have hle : symbols.dataEnd ≤ roundUp symbols.dataEnd (2 ^ 12) := le_roundUp (by decide) _
  have hloaded : ∀ address : Word, linkBase ≤ address.toNat → address.toNat < symbols.dataEnd →
      Loaded physicalBase s space (segmentRights (symbols.loaded physicalBase) address)
        address := by
    intro address hlower hupper
    have hinside : InImage (symbols.loaded physicalBase) address := by
      rw [InImage, himage, hround]
      omega
    exact hexact.image address hinside
  simp only [segmentRights, BitVec.lt_def, htextStart, hrodataStart, hdataStart] at hloaded
  refine ⟨fun address hlower hupper ↦ ?_, fun address hlower hupper ↦ ?_,
    fun address hlower hupper ↦ ?_, fun address hlower hupper ↦ ?_⟩
  · have hbyte := hloaded address (by omega) (by omega)
    rwa [if_pos (by omega)] at hbyte
  · have hbyte := hloaded address (by omega) (by omega)
    rwa [if_neg (by omega), if_pos (by omega)] at hbyte
  · have hbyte := hloaded address (by omega) (by omega)
    rwa [if_neg (by omega), if_neg (by omega), if_pos (by omega)] at hbyte
  · have hbyte := hloaded address (by omega) (by omega)
    rwa [if_neg (by omega), if_neg (by omega), if_neg (by omega)] at hbyte

/-- **Every image of the linker script is mapped section by section.** Wherever the bootloader has
loaded it, `build_kernel_address_space` accepts its layout and gives the bytes of each section the
rights of the section. -/
theorem linked_image_protected {image : Image} (himage : image.WellFormed) {s : State}
    (hallocator : WellFormedAllocator s) (hnonnull : NonNull {frame | Free s frame} s.toStatics)
    (out : AddressSpace) {regions : List MemoryRegion}
    (hnonwrapping : MemoryMap.NonWrapping regions) {hhdmOffset physicalBase : Word}
    (hdirect : WellFormedDirectMap regions hhdmOffset)
    (hbelow : hhdmOffset.toNat + roundUp (largestEnd regions) (2 ^ 21) ≤ linkBase)
    (haligned : physicalBase.toNat % 2 ^ 12 = 0)
    (hfits : physicalBase.toNat + (link image).extent ≤ 2 ^ 52)
    (hcost : kernelTables regions hhdmOffset ((link image).loaded physicalBase) ≤
      (freeFrames s).card) :
    let result := buildKernelAddressSpace s.restartTrace out (some regions) hhdmOffset
      ((link image).loaded physicalBase)
    result.1 = true ∧ (link image).Protected physicalBase result.2.2 result.2.1 := by
  intro result
  have hinput := himage.ordered.wellFormedInput haligned hfits hdirect hbelow
  obtain ⟨hreturned, fresh, -, hbuilt⟩ :=
    hallocator.build hnonnull out hnonwrapping hinput hcost
  exact ⟨hreturned, himage.ordered.protected hbuilt.exact⟩

/-! ## A small machine -/

theorem le_largestEnd {regions : List MemoryRegion} {region : MemoryRegion}
    (hregion : region ∈ regions) :
    region.base.toNat + region.length.toNat ≤ largestEnd regions := by
  induction regions with
  | nil => cases hregion
  | cons first regions ih =>
    have hlargest : largestEnd (first :: regions) =
        max (first.base.toNat + first.length.toNat) (largestEnd regions) := rfl
    rw [hlargest]
    rcases List.mem_cons.mp hregion with rfl | hrest
    · exact le_max_left _ _
    · exact (ih hrest).trans (le_max_right _ _)

/-- A direct map that does not start at 0 shows nothing at the null pointer. -/
theorem nonNullMap_of_directMap {regions : List MemoryRegion} {hhdmOffset : Word}
    (h : WellFormedDirectMap regions hhdmOffset) (hpos : 0 < hhdmOffset.toNat) :
    NonNullMap regions hhdmOffset := by
  rintro frame ⟨region, hregion, -, -, hupper⟩ hnull
  have hend := le_largestEnd hregion
  have hround : largestEnd regions ≤ roundUp (largestEnd regions) (2 ^ 21) :=
    le_roundUp (by decide) _
  have hstop := h.stop_lt
  have hzero := congrArg BitVec.toNat hnull
  rw [BitVec.toNat_add, BitVec.toNat_ofNat, Nat.mod_eq_of_lt (by omega : 4096 * frame < 2 ^ 64),
    Nat.mod_eq_of_lt (by omega)] at hzero
  have : (0 : Word).toNat = 0 := rfl
  omega

/-- Sixteen usable frames, the image and a framebuffer. -/
def smallMap : List MemoryRegion :=
  [⟨0x1000, 0x10000, .usable⟩, ⟨0x100000, 0x10000, .kernelAndModules⟩,
    ⟨0x200000, 0x1000, .framebuffer⟩]

def smallImage : Image where
  limineRequests := ⟨0xa8, 8⟩
  text := ⟨0x2345, 16⟩
  rodata := ⟨0x678, 32⟩
  initArray := ⟨0, 1⟩
  data := ⟨0x90, 32⟩
  bss := ⟨0x2abc, 64⟩

theorem smallImage_wellFormed : smallImage.WellFormed := by
  constructor <;> decide

theorem smallMap_directMap : WellFormedDirectMap smallMap 0xffff800000000000 :=
  ⟨by decide, by decide, by decide, by decide, Or.inr (by decide)⟩

theorem exists_smallMap_free :
    ∃ s, init smallMap 0xffff800000000000 (fun _ ↦ 0) = .ok s ∧ (freeFrames s).card = 15 := by
  exact Run.exists_of_succeedsWith (by decide +kernel)

theorem linked_image_protected_smallImage :
    ∃ s, init smallMap 0xffff800000000000 (fun _ ↦ 0) = .ok s ∧
      let result := buildKernelAddressSpace s ⟨0, 0⟩ (some smallMap) 0xffff800000000000
        ((link smallImage).loaded 0x100000)
      result.1 = true ∧ (link smallImage).Protected 0x100000 result.2.2 result.2.1 := by
  obtain ⟨s, hinit, hfree⟩ := exists_smallMap_free
  have hfresh : s.restartTrace = s := State.restartTrace_of_nil (init_spec hinit).2.2.1
  have hmap : LimineMap smallMap := by decide
  have hnonnull := nonNullMap_of_directMap smallMap_directMap (by decide)
  have hprotected := linked_image_protected smallImage_wellFormed (init_wellFormed hmap hinit)
    (hnonnull.nonNull hmap hinit) ⟨0, 0⟩ (by decide) smallMap_directMap (by decide)
    (by decide : (0x100000 : Word).toNat % 2 ^ 12 = 0) (by decide) (by rw [hfree]; decide)
  rw [hfresh] at hprotected
  exact ⟨s, hinit, hprotected⟩

end WaterBuffalo.Kernel
