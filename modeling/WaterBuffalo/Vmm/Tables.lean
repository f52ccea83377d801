import WaterBuffalo.Foundation.TableForest
import WaterBuffalo.Vmm.Entry

/-!
# Memory as a store of tables

Frames are read as tables of 512 entries through the direct map.  An assignment to an entry is an
assignment in this store, zeroing a table replaces one table, and the allocator's bitmap and the
tables in frames clear of it do not see each other's assignments.
-/

namespace WaterBuffalo.Vmm

open Pmm TableForest

/-- Where the direct map shows a frame. -/
def tableAddress (s : Statics) (frame : ℕ) : Word :=
  s.hhdmOffset + BitVec.ofNat 64 (4096 * frame)

/-- The frames an entry can name, as tables. -/
def tables (s : State) (frame : ℕ) (index : Fin kPageTableEntries) : Word :=
  if frame < 2 ^ 40 then
    s.load (tableAddress s.toStatics frame + 8 * BitVec.ofNat 64 index)
  else 0

/-- The frame shares no byte with the bitmap words. -/
def ClearOfBitmap (s : Statics) (frame : ℕ) : Prop :=
  ∀ offset < 4096, ∀ position < 8 * s.bitmapWords.toNat,
    tableAddress s frame + BitVec.ofNat 64 offset ≠ s.bitmap + BitVec.ofNat 64 position

theorem entryAddress_tableAddress (s : Statics) (frame : ℕ) {index : BitVec 16}
    (hindex : index.toNat < 512) :
    entryAddress (tableAddress s frame) index =
      tableAddress s frame + 8 * BitVec.ofNat 64 (slot index) := by
  have hslot : BitVec.ofNat 64 (slot index) = index.setWidth 64 := by
    apply BitVec.eq_of_toNat_eq
    rw [BitVec.toNat_ofNat, BitVec.toNat_setWidth, slot_val hindex]
  rw [entryAddress, hslot]

theorem load_entryAddress (s : State) {frame : ℕ} (hframe : frame < 2 ^ 40) {index : BitVec 16}
    (hindex : index.toNat < 512) :
    s.load (entryAddress (tableAddress s.toStatics frame) index) = tables s frame (slot index) := by
  rw [entryAddress_tableAddress _ _ hindex, tables, if_pos hframe]

/-- Two different entries are apart. -/
theorem entries_apart (s : Statics) {frame other : ℕ} (hframe : frame < 2 ^ 40)
    (hother : other < 2 ^ 40) {index position : Fin kPageTableEntries}
    (hne : ¬ (other = frame ∧ position = index)) :
    ByteMemory.Apart (tableAddress s other + 8 * BitVec.ofNat 64 position)
      (tableAddress s frame + 8 * BitVec.ofNat 64 index) := by
  have hindex : index.val < 512 := index.isLt
  have hposition : position.val < 512 := position.isLt
  rw [Fin.ext_iff] at hne
  unfold tableAddress
  constructor <;> bv_omega

/-- An assignment to an entry is an assignment in the store of tables. -/
theorem tables_store (s : State) {frame : ℕ} (hframe : frame < 2 ^ 40)
    (index : Fin kPageTableEntries) (value : Word) :
    tables (s.store (tableAddress s.toStatics frame + 8 * BitVec.ofNat 64 index) value) =
      put (tables s) frame index value := by
  funext other position
  simp only [tables, put, State.store_toStatics]
  by_cases hother : other < 2 ^ 40
  · rw [if_pos hother, if_pos hother]
    by_cases hsame : other = frame ∧ position = index
    · obtain ⟨rfl, rfl⟩ := hsame
      rw [if_pos ⟨rfl, rfl⟩, State.load_store_self]
    · rw [if_neg hsame, State.load_store_of_apart _ _ (entries_apart _ hframe hother hsame)]
  · have hne : ¬ (other = frame ∧ position = index) := fun h ↦ hother (h.1 ▸ hframe)
    rw [if_neg hother, if_neg hne, if_neg hother]

theorem tables_congr {s later : State} (hstatics : later.toStatics = s.toStatics)
    (hmemory : later.memory = s.memory) : tables later = tables s := by
  funext frame index
  simp only [tables, State.load, hmemory, hstatics]

@[simp] theorem tables_record (s : State) (event : Event) :
    tables (s.record event) = tables s := rfl

/-- Zeroing a table. -/
theorem tables_clearTable (s : State) {frame : ℕ} (hframe : frame < 2 ^ 40) :
    tables (clearTable s (tableAddress s.toStatics frame)) =
      fun other position ↦ if other = frame then 0 else tables s other position := by
  have hloop := Run.foldl_range_induction
    (fun (t : State) index ↦
      t.store (tableAddress s.toStatics frame + 8 * BitVec.ofNat 64 index) 0)
    (fun count t ↦ t.toStatics = s.toStatics ∧ tables t = fun other position ↦
      if other = frame ∧ position.val < count then 0 else tables s other position)
    s kPageTableEntries ⟨rfl, by simp⟩ (by
      rintro count t hcount ⟨hstatics, htables⟩
      refine ⟨hstatics, ?_⟩
      have hstore := tables_store t hframe ⟨count, hcount⟩ 0
      rw [hstatics] at hstore
      rw [hstore, htables]
      funext other position
      simp only [put]
      by_cases hother : other = frame
      · by_cases hposition : position.val = count
        · rw [if_pos ⟨hother, Fin.ext hposition⟩, if_pos ⟨hother, by omega⟩]
        · rw [if_neg fun h ↦ hposition (Fin.ext_iff.mp h.2)]
          exact if_congr (by omega) rfl rfl
      · rw [if_neg fun h ↦ hother h.1, if_neg fun h ↦ hother h.1, if_neg fun h ↦ hother h.1])
  refine hloop.2.trans ?_
  funext other position
  exact if_congr (and_iff_left position.isLt) rfl rfl

/-! ## Tables and the bitmap -/

section Bitmap

variable {s : Statics} {frame : ℕ}

/-- An entry of a clear frame and a bitmap word are apart. -/
theorem ClearOfBitmap.apart (h : ClearOfBitmap s frame) (index : Fin kPageTableEntries)
    {word : ℕ} (hword : word < s.bitmapWords.toNat) :
    ByteMemory.Apart (tableAddress s frame + 8 * BitVec.ofNat 64 index)
      (s.bitmap + 8 * BitVec.ofNat 64 word) := by
  have hindex : index.val < 512 := index.isLt
  have hwords := s.bitmapWords.isLt
  have hentry : 8 * BitVec.ofNat 64 index = BitVec.ofNat 64 (8 * index.val) := by
    rw [BitVec.ofNat_mul]
    rfl
  have hbitmap : 8 * BitVec.ofNat 64 word = BitVec.ofNat 64 (8 * word) := by
    rw [BitVec.ofNat_mul]
    rfl
  -- Two accesses less than eight bytes apart share the first byte of the higher one.
  rw [hentry, hbitmap]
  constructor
  · by_contra hnear
    rw [Nat.not_le] at hnear
    apply h (8 * index.val) (by omega) (8 * word +
      (tableAddress s frame + BitVec.ofNat 64 (8 * index.val) -
        (s.bitmap + BitVec.ofNat 64 (8 * word))).toNat) (by omega)
    bv_omega
  · by_contra hnear
    rw [Nat.not_le] at hnear
    apply h (8 * index.val + (s.bitmap + BitVec.ofNat 64 (8 * word) -
      (tableAddress s frame + BitVec.ofNat 64 (8 * index.val))).toNat) (by omega)
      (8 * word) (by omega)
    bv_omega

end Bitmap

/-- The tables in clear frames do not see an assignment to the bitmap. -/
theorem tables_store_bitmap {s : State} {frame : ℕ} (hclear : ClearOfBitmap s.toStatics frame)
    {word : Word} (hword : word.toNat < s.bitmapWords.toNat) (value : Word) :
    tables (s.store (bitmapAddress s word) value) frame = tables s frame := by
  funext index
  have hapart := hclear.apart index hword
  rw [BitVec.ofNat_toNat, BitVec.setWidth_eq] at hapart
  simp only [tables, State.store_toStatics, State.load_store_of_apart _ _ hapart, bitmapAddress]

/-- The bitmap does not see an assignment to an entry of a clear frame. -/
theorem used_store_entry {s : State} {frame : ℕ} (hclear : ClearOfBitmap s.toStatics frame)
    (index : Fin kPageTableEntries) (value : Word) {position : ℕ}
    (hposition : position < 64 * s.bitmapWords.toNat) :
    used (s.store (tableAddress s.toStatics frame + 8 * BitVec.ofNat 64 index) value) position =
      used s position := by
  have hapart := hclear.apart index (by omega : position / 64 < s.bitmapWords.toNat)
  simp only [used, bitmapAddress, State.store_toStatics]
  rw [State.load_store_of_apart _ _ hapart.symm]

theorem used_clearTable {s : State} {frame : ℕ} (hclear : ClearOfBitmap s.toStatics frame)
    {position : ℕ} (hposition : position < 64 * s.bitmapWords.toNat) :
    used (clearTable s (tableAddress s.toStatics frame)) position = used s position := by
  have hloop := Run.foldl_range_induction
    (fun (t : State) index ↦
      t.store (tableAddress s.toStatics frame + 8 * BitVec.ofNat 64 index) 0)
    (fun _ t ↦ t.toStatics = s.toStatics ∧ used t position = used s position)
    s kPageTableEntries ⟨rfl, rfl⟩ (by
      rintro count t hcount ⟨hstatics, hused⟩
      refine ⟨hstatics, ?_⟩
      rw [← hstatics] at hclear hposition ⊢
      rw [← hused]
      exact used_store_entry hclear ⟨count, hcount⟩ 0 hposition)
  exact hloop.2

theorem used_record (s : State) (event : Event) (position : ℕ) :
    used (s.record event) position = used s position := rfl

theorem free_record (s : State) (event : Event) (frame : ℕ) :
    Free (s.record event) frame ↔ Free s frame := Iff.rfl

/-- What the allocator's own properties depend on: the statics and the bitmap words. -/
theorem sound_of_used {s later : State} (hs : Sound s) (hstatics : later.toStatics = s.toStatics)
    (hused : ∀ position < 64 * s.bitmapWords.toNat, used later position = used s position) :
    Sound later ∧ ∀ frame, Free later frame ↔ Free s frame := by
  refine ⟨⟨hstatics ▸ hs.layout, ?_⟩, ?_⟩
  · intro position hpadding hposition
    rw [hstatics] at hpadding hposition
    rw [hused position hposition]
    exact hs.padded position hpadding hposition
  · intro frame
    rw [Free, Free, hstatics]
    refine and_congr_right fun hvalid ↦ ?_
    rw [hused frame (hs.layout.lt_bits hvalid)]

end WaterBuffalo.Vmm
