import WaterBuffalo.Foundation.Bits
import WaterBuffalo.Foundation.Run
import WaterBuffalo.Foundation.Words

/-!
# Drawing into the framebuffer

The last thing `kmain` does is to fill the framebuffer with a gradient, four bytes for each pixel.
The rows are `pitch` bytes apart and only their first `4 * width` bytes are visible.
-/

namespace WaterBuffalo.Kernel

open ByteMemory

/-- The fields of `limine_framebuffer` that `kmain` reads. -/
structure Framebuffer where
  address : Word
  width : Word
  height : Word
  pitch : Word
  deriving DecidableEq, Repr

namespace Framebuffer

/-- `&fb_ptr[y * (framebuffer->pitch / 4) + x]`. -/
def pixelAddress (framebuffer : Framebuffer) (x y : Word) : Word :=
  framebuffer.address + 4 * (y * (framebuffer.pitch / 4) + x)

/-- The value assigned to a pixel. -/
def pixelValue (framebuffer : Framebuffer) (x y : Word) : BitVec 32 :=
  let nX := (x * 255 / framebuffer.width).setWidth 32
  let nY := (y * 255 / framebuffer.height).setWidth 32
  (nY <<< 8) ||| nX

/-- The inner loop. -/
def drawRow (framebuffer : Framebuffer) (y : Word) (memory : Memory) : Memory :=
  (List.range framebuffer.width.toNat).foldl
    (fun memory x ↦
      write memory (framebuffer.pixelAddress (BitVec.ofNat 64 x) y) 4
        (framebuffer.pixelValue (BitVec.ofNat 64 x) y)) memory

/-- The outer loop. -/
def draw (framebuffer : Framebuffer) (memory : Memory) : Memory :=
  (List.range framebuffer.height.toNat).foldl
    (fun memory y ↦ framebuffer.drawRow (BitVec.ofNat 64 y) memory) memory

/-- The rows do not overlap, and all of them fit into one half of the address space. -/
structure Fits (framebuffer : Framebuffer) : Prop where
  row_le : framebuffer.width.toNat ≤ framebuffer.pitch.toNat / 4
  size_le : framebuffer.height.toNat * framebuffer.pitch.toNat ≤ 2 ^ 47

/-! ## Rows -/

section Rows

variable {framebuffer : Framebuffer} {memory : Memory} {target : Word} {x y : ℕ}

/-- The bytes from one row to the next. -/
def stride (framebuffer : Framebuffer) : ℕ :=
  4 * (framebuffer.pitch.toNat / 4)

/-- A row is a record of the framebuffer, and a pixel a record of its row. -/
theorem pixelAddress_eq (framebuffer : Framebuffer) (x y : ℕ) :
    framebuffer.pixelAddress (BitVec.ofNat 64 x) (BitVec.ofNat 64 y) =
      recordAt (recordAt framebuffer.address framebuffer.stride y) 4 x := by
  have hpitch : framebuffer.pitch / 4 = BitVec.ofNat 64 (framebuffer.pitch.toNat / 4) := by
    apply BitVec.eq_of_toNat_eq
    rw [BitVec.toNat_udiv, BitVec.toNat_ofNat, Nat.mod_eq_of_lt]
    · rfl
    · have hbound := framebuffer.pitch.isLt
      omega
  have hfour : (4 : Word) = BitVec.ofNat 64 4 := rfl
  rw [pixelAddress, hpitch, recordAt, recordAt, stride, hfour, ← BitVec.ofNat_mul,
    ← BitVec.ofNat_add, ← BitVec.ofNat_mul, BitVec.add_assoc, ← BitVec.ofNat_add]
  congr 2
  ring

theorem drawRow_eq_writeArray (framebuffer : Framebuffer) (y : ℕ) (memory : Memory) :
    framebuffer.drawRow (BitVec.ofNat 64 y) memory =
      writeArray memory (recordAt framebuffer.address framebuffer.stride y) 4
        (fun x ↦ framebuffer.pixelValue (BitVec.ofNat 64 x) (BitVec.ofNat 64 y))
        framebuffer.width.toNat := by
  simp only [drawRow, writeArray, pixelAddress_eq]

/-- A byte outside the pixels of a row. -/
theorem drawRow_of_not_within
    (h : ∀ x < framebuffer.width.toNat,
      ¬ Within (framebuffer.pixelAddress (BitVec.ofNat 64 x) (BitVec.ofNat 64 y)) 4 target) :
    framebuffer.drawRow (BitVec.ofNat 64 y) memory target = memory target := by
  apply Run.foldl_range_induction
    (fun memory x ↦ write memory
      (framebuffer.pixelAddress (BitVec.ofNat 64 x) (BitVec.ofNat 64 y)) 4
      (framebuffer.pixelValue (BitVec.ofNat 64 x) (BitVec.ofNat 64 y)))
    (fun _ later ↦ later target = memory target)
  · rfl
  · intro x later hx hlater
    rw [write_of_not_within (h x hx), hlater]

/-- The pixels of different rows share no byte. -/
theorem Fits.not_within (h : framebuffer.Fits) {other column : ℕ} (hne : y ≠ other)
    (hx : x < framebuffer.width.toNat) (hy : y < framebuffer.height.toNat)
    (hcolumn : column < framebuffer.width.toNat) (hother : other < framebuffer.height.toNat)
    (hwithin : Within (framebuffer.pixelAddress (BitVec.ofNat 64 x) (BitVec.ofNat 64 y)) 4
      target) :
    ¬ Within (framebuffer.pixelAddress (BitVec.ofNat 64 column) (BitVec.ofNat 64 other)) 4
      target := by
  have hrow := h.row_le
  have hsize := h.size_le
  have hstride : framebuffer.stride ≤ framebuffer.pitch.toNat := Nat.mul_div_le _ _
  have hfits : ∀ row < framebuffer.height.toNat, framebuffer.stride * (row + 1) ≤ 2 ^ 64 := by
    intro row hrow
    calc
      framebuffer.stride * (row + 1) ≤ framebuffer.pitch.toNat * framebuffer.height.toNat :=
        Nat.mul_le_mul hstride hrow
      _ ≤ 2 ^ 64 := by
        rw [Nat.mul_comm]
        omega
  have hpart : ∀ {column row : ℕ}, column < framebuffer.width.toNat →
      Within (framebuffer.pixelAddress (BitVec.ofNat 64 column) (BitVec.ofNat 64 row)) 4 target →
      Within (recordAt framebuffer.address framebuffer.stride row) framebuffer.stride target := by
    intro column row hcolumn hwithin
    rw [pixelAddress_eq] at hwithin
    refine Within.of_part hwithin ?_ (hstride.trans framebuffer.pitch.isLt.le)
    unfold stride
    omega
  intro hwithin'
  exact records_disjoint hne (hfits y hy) (hfits other hother) (hpart hx hwithin)
    (hpart hcolumn hwithin')

end Rows

/-! ## The gradient -/

/-- The colour of a pixel: green grows downwards and blue to the right. -/
def gradient (framebuffer : Framebuffer) (x y : ℕ) : ℕ :=
  256 * (255 * y / framebuffer.height.toNat) + 255 * x / framebuffer.width.toNat

theorem Fits.pixelValue_eq {framebuffer : Framebuffer} (h : framebuffer.Fits) {x y : ℕ}
    (hx : x < framebuffer.width.toNat) (hy : y < framebuffer.height.toNat) :
    framebuffer.pixelValue (BitVec.ofNat 64 x) (BitVec.ofNat 64 y) =
      BitVec.ofNat 32 (framebuffer.gradient x y) := by
  obtain ⟨hrow, hsize⟩ := h
  have hpitch : framebuffer.pitch.toNat ≤ 2 ^ 47 := by
    calc
      framebuffer.pitch.toNat ≤ framebuffer.height.toNat * framebuffer.pitch.toNat :=
        Nat.le_mul_of_pos_left _ (by omega)
      _ ≤ 2 ^ 47 := hsize
  have hheight : framebuffer.height.toNat ≤ 2 ^ 47 := by
    calc
      framebuffer.height.toNat ≤ framebuffer.height.toNat * framebuffer.pitch.toNat :=
        Nat.le_mul_of_pos_right _ (by omega)
      _ ≤ 2 ^ 47 := hsize
  -- A coordinate scaled to the extent stays below 255, so nothing wraps and the parts do not meet.
  have hscaled : ∀ {position : ℕ} {extent : Word}, position < extent.toNat →
      extent.toNat ≤ 2 ^ 47 →
      ((BitVec.ofNat 64 position * 255 / extent).setWidth 32).toNat =
          255 * position / extent.toNat ∧ 255 * position / extent.toNat < 255 := by
    intro position extent hposition hextent
    have hlt : 255 * position / extent.toNat < 255 := by
      rw [Nat.div_lt_iff_lt_mul (by omega)]
      omega
    refine ⟨?_, hlt⟩
    have hproduct : (BitVec.ofNat 64 position * 255).toNat = 255 * position := by
      rw [BitVec.toNat_mul, BitVec.toNat_ofNat]
      change position % 2 ^ 64 * 255 % 2 ^ 64 = _
      omega
    rw [BitVec.toNat_setWidth, BitVec.toNat_udiv, hproduct]
    exact Nat.mod_eq_of_lt (by omega)
  obtain ⟨hblue, hblueLt⟩ := hscaled hx (by omega)
  obtain ⟨hgreen, hgreenLt⟩ := hscaled hy hheight
  apply BitVec.eq_of_toNat_eq
  have hshift : (((BitVec.ofNat 64 y * 255 / framebuffer.height).setWidth 32) <<< 8).toNat =
      256 * (255 * y / framebuffer.height.toNat) := by
    rw [BitVec.toNat_shiftLeft, hgreen, Nat.shiftLeft_eq]
    omega
  rw [pixelValue, BitVec.toNat_or, hshift, hblue, BitVec.toNat_ofNat, gradient]
  have hor := Nat.two_pow_add_eq_or_of_lt (i := 8) (b := 255 * x / framebuffer.width.toNat)
    (by omega) (255 * y / framebuffer.height.toNat)
  rw [show (256 : ℕ) = 2 ^ 8 from rfl, ← hor]
  omega

section Drawn

variable {framebuffer : Framebuffer} {memory : Memory}

theorem draw_of_not_within {target : Word}
    (h : ∀ x < framebuffer.width.toNat, ∀ y < framebuffer.height.toNat,
      ¬ Within (framebuffer.pixelAddress (BitVec.ofNat 64 x) (BitVec.ofNat 64 y)) 4 target) :
    framebuffer.draw memory target = memory target := by
  apply Run.foldl_range_induction
    (fun memory y ↦ framebuffer.drawRow (BitVec.ofNat 64 y) memory)
    (fun _ later ↦ later target = memory target)
  · rfl
  · intro y later hy hlater
    rw [drawRow_of_not_within fun x hx ↦ h x hx y hy, hlater]

/-- A row stays as it was drawn: later rows are elsewhere. -/
theorem Fits.read_draw (h : framebuffer.Fits) {x y : ℕ} (hx : x < framebuffer.width.toNat)
    (hy : y < framebuffer.height.toNat) :
    read (framebuffer.draw memory)
        (framebuffer.pixelAddress (BitVec.ofNat 64 x) (BitVec.ofNat 64 y)) 4 =
      framebuffer.pixelValue (BitVec.ofNat 64 x) (BitVec.ofNat 64 y) := by
  have hwidth : 4 * framebuffer.width.toNat ≤ 2 ^ 64 := by
    have hrow := h.row_le
    have hpitch := framebuffer.pitch.isLt
    omega
  have hdrawn := Run.foldl_range_induction
    (fun memory y ↦ framebuffer.drawRow (BitVec.ofNat 64 y) memory)
    (fun count later ↦ y < count → read later
      (framebuffer.pixelAddress (BitVec.ofNat 64 x) (BitVec.ofNat 64 y)) 4 =
        framebuffer.pixelValue (BitVec.ofNat 64 x) (BitVec.ofNat 64 y))
    memory framebuffer.height.toNat (fun hnone ↦ absurd hnone (Nat.not_lt_zero _)) (by
      intro row later hrow hlater hy'
      by_cases hlast : y = row
      · subst hlast
        rw [drawRow_eq_writeArray, pixelAddress_eq, read_writeArray hx hwidth]
      · rw [← hlater (by omega)]
        apply read_congr
        intro offset hoffset
        apply drawRow_of_not_within
        intro column hcolumn
        exact h.not_within hlast hx hy hcolumn hrow (within_add hoffset))
  exact hdrawn hy

end Drawn

/-- **The framebuffer shows the gradient.** Every visible pixel has its colour, and no other byte
of memory has changed. -/
theorem framebuffer_gradient {framebuffer : Framebuffer} (h : framebuffer.Fits) (memory : Memory) :
    (∀ x < framebuffer.width.toNat, ∀ y < framebuffer.height.toNat,
        read (framebuffer.draw memory)
            (framebuffer.pixelAddress (BitVec.ofNat 64 x) (BitVec.ofNat 64 y)) 4 =
          BitVec.ofNat 32 (framebuffer.gradient x y)) ∧
      ∀ target, (∀ x < framebuffer.width.toNat, ∀ y < framebuffer.height.toNat,
          ¬ Within (framebuffer.pixelAddress (BitVec.ofNat 64 x) (BitVec.ofNat 64 y)) 4 target) →
        framebuffer.draw memory target = memory target := by
  refine ⟨fun x hx y hy ↦ ?_, fun target htarget ↦ draw_of_not_within htarget⟩
  rw [h.read_draw hx hy, h.pixelValue_eq hx hy]

/-- 640 by 480 pixels. -/
def vga : Framebuffer where
  address := 0xffff8000fd000000
  width := 640
  height := 480
  pitch := 2560

theorem vga_fits : vga.Fits :=
  ⟨by decide, by decide⟩

/-- Half way down and half way to the right. -/
theorem framebuffer_gradient_vga :
    read (vga.draw fun _ ↦ 0) (vga.pixelAddress 320 240) 4 = 0x7f7f :=
  (framebuffer_gradient vga_fits fun _ ↦ 0).1 320 (by decide) 240 (by decide)

end Framebuffer

end WaterBuffalo.Kernel
