import WaterBuffalo.Foundation.Bits
import WaterBuffalo.Vmm.Walk

/-!
# Entries, indices and canonical addresses

A page-table entry is an address field and flags that do not overlap.  Flags are read as Booleans
and addresses as natural numbers, so later proofs see neither masks nor shifts.
-/

namespace WaterBuffalo.Vmm

open Pmm

/-! ## Flags -/

/-- The entry has the flag. -/
def has (entry flag : Word) : Bool :=
  decide (entry &&& flag ≠ 0)

theorem has_eq_false_iff {entry flag : Word} : has entry flag = false ↔ entry &&& flag = 0 := by
  simp [has]

theorem has_eq_true_iff {entry flag : Word} : has entry flag = true ↔ entry &&& flag ≠ 0 := by
  simp [has]

@[simp] theorem has_zero (flag : Word) : has 0#64 flag = false := by
  simp [has]

theorem ne_zero_of_has {entry flag : Word} (h : has entry flag = true) : entry ≠ 0 := by
  rintro rfl
  simp at h

@[simp] theorem has_or (left right flag : Word) :
    has (left ||| right) flag = (has left flag || has right flag) := by
  rw [Bool.eq_iff_iff, Bool.or_eq_true, has_eq_true_iff, has_eq_true_iff, has_eq_true_iff,
    Bits.or_and_distrib, ne_eq, Bits.or_eq_zero_iff]
  tauto

/-- A flag outside the address field. -/
def OutsideAddress (flags : Word) : Prop :=
  flags &&& kPhysicalAddressMask = 0

theorem has_makePageEntry (physicalAddress flags : Word) {flag : Word}
    (h : OutsideAddress flag) :
    has (makePageEntry physicalAddress flags) flag = has flags flag := by
  have haddress : has (physicalAddress &&& kPhysicalAddressMask) flag = false := by
    rw [has_eq_false_iff, BitVec.and_assoc, BitVec.and_comm kPhysicalAddressMask, h]
    exact BitVec.and_zero
  rw [makePageEntry, has_or, haddress, Bool.false_or]

theorem pageEntryAddress_or {entry flags : Word} (h : OutsideAddress flags) :
    pageEntryAddress (entry ||| flags) = pageEntryAddress entry := by
  rw [pageEntryAddress, Bits.or_and_distrib, h, pageEntryAddress]
  exact BitVec.or_zero

/-- Address and flags of an entry do not disturb each other. -/
theorem pageEntryAddress_makePageEntry {physicalAddress flags : Word}
    (haddress : physicalAddress &&& ~~~kPhysicalAddressMask = 0) (hflags : OutsideAddress flags) :
    pageEntryAddress (makePageEntry physicalAddress flags) = physicalAddress := by
  rw [makePageEntry, pageEntryAddress_or hflags, pageEntryAddress, BitVec.and_assoc,
    BitVec.and_self]
  exact (Bits.and_not_eq_zero_iff _ _).mp haddress

theorem Named.outsideAddress {flags : PageFlags} (h : PageFlags.Named flags) :
    OutsideAddress flags := by
  have hmask : PageFlags.all &&& kPhysicalAddressMask = 0 := by decide
  rw [OutsideAddress, ← (Bits.and_not_eq_zero_iff _ _).mp h, BitVec.and_assoc, hmask]
  exact BitVec.and_zero

theorem OutsideAddress.or {left right : Word} (hleft : OutsideAddress left)
    (hright : OutsideAddress right) : OutsideAddress (left ||| right) := by
  rw [OutsideAddress, Bits.or_and_distrib, hleft, hright]
  rfl

section NamedFlags

variable (flags : PageFlags)

theorem outsideAddress_flag : OutsideAddress PageFlags.present ∧
    OutsideAddress PageFlags.writable ∧ OutsideAddress PageFlags.user ∧
    OutsideAddress PageFlags.huge ∧ OutsideAddress PageFlags.noExecute := by
  unfold OutsideAddress
  decide

theorem intermediateFlags_eq :
    intermediateFlags flags = PageFlags.present ||| PageFlags.writable ||| PageFlags.user ∨
      intermediateFlags flags = PageFlags.present ||| PageFlags.writable := by
  unfold intermediateFlags
  split
  · exact Or.inl rfl
  · exact Or.inr rfl

theorem outsideAddress_intermediateFlags : OutsideAddress (intermediateFlags flags) := by
  rcases intermediateFlags_eq flags with h | h <;> rw [h, OutsideAddress] <;> decide

@[simp] theorem has_present_intermediateFlags :
    has (intermediateFlags flags) PageFlags.present = true := by
  rcases intermediateFlags_eq flags with h | h <;> rw [h] <;> decide

@[simp] theorem has_writable_intermediateFlags :
    has (intermediateFlags flags) PageFlags.writable = true := by
  rcases intermediateFlags_eq flags with h | h <;> rw [h] <;> decide

@[simp] theorem has_huge_intermediateFlags :
    has (intermediateFlags flags) PageFlags.huge = false := by
  rcases intermediateFlags_eq flags with h | h <;> rw [h] <;> decide

@[simp] theorem has_noExecute_intermediateFlags :
    has (intermediateFlags flags) PageFlags.noExecute = false := by
  rcases intermediateFlags_eq flags with h | h <;> rw [h] <;> decide

theorem has_user_intermediateFlags :
    has (intermediateFlags flags) PageFlags.user = has flags PageFlags.user := by
  unfold intermediateFlags
  split
  · rename_i h
    rw [has_eq_true_iff.mpr h]
    decide
  · rename_i h
    rw [has_eq_false_iff.mpr (not_not.mp h)]
    decide

end NamedFlags

/-! ## Addresses in entries -/

theorem toNat_pageEntryAddress (entry : Word) :
    (pageEntryAddress entry).toNat = 4096 * (entry.toNat / 4096 % 2 ^ 40) := by
  have hmask : ∀ index < 64, kPhysicalAddressMask.getLsbD index =
      (!decide (index < 12) && (0xFFFFFFFFFF#64).getLsbD (index - 12)) := by decide
  have hshift : pageEntryAddress entry = ((entry >>> 12) &&& 0xFFFFFFFFFF) <<< 12 := by
    apply BitVec.eq_of_getLsbD_eq
    intro index hindex
    rw [pageEntryAddress, BitVec.getLsbD_and, hmask index hindex, BitVec.getLsbD_shiftLeft,
      BitVec.getLsbD_and, BitVec.getLsbD_ushiftRight]
    by_cases hlow : index < 12
    · simp [hlow]
    · rw [Nat.add_sub_cancel' (by omega)]
      simp [hlow, hindex]
  rw [hshift, BitVec.toNat_shiftLeft,
    Bits.toNat_field entry 0xFFFFFFFFFF 12 40 (by decide), Nat.shiftLeft_eq]
  omega

/-- The frame an entry points at. -/
def entryFrame (entry : Word) : ℕ :=
  (pageEntryAddress entry).toNat / 4096

theorem entryFrame_lt (entry : Word) : entryFrame entry < 2 ^ 40 := by
  rw [entryFrame, toNat_pageEntryAddress]
  omega

theorem pageEntryAddress_eq_ofNat (entry : Word) :
    pageEntryAddress entry = BitVec.ofNat 64 (4096 * entryFrame entry) := by
  have h := toNat_pageEntryAddress entry
  apply BitVec.eq_of_toNat_eq
  rw [BitVec.toNat_ofNat, entryFrame]
  omega

/-- The physical addresses an entry can hold. -/
theorem and_not_mask_eq_zero_iff (physicalAddress : Word) :
    physicalAddress &&& ~~~kPhysicalAddressMask = 0 ↔
      physicalAddress.toNat % 4096 = 0 ∧ physicalAddress.toNat < 2 ^ 52 := by
  have h := toNat_pageEntryAddress physicalAddress
  have hbound := physicalAddress.isLt
  rw [Bits.and_not_eq_zero_iff, ← BitVec.toNat_inj]
  change (pageEntryAddress physicalAddress).toNat = _ ↔ _
  omega

/-- The table a present entry that is not huge points at. -/
def link (entry : Word) : Option ℕ :=
  if has entry PageFlags.present && !has entry PageFlags.huge then some (entryFrame entry)
  else none

theorem link_eq_some_iff {entry : Word} {frame : ℕ} :
    link entry = some frame ↔ has entry PageFlags.present = true ∧
      has entry PageFlags.huge = false ∧ entryFrame entry = frame := by
  simp only [link, Option.ite_none_right_eq_some, Bool.and_eq_true, Bool.not_eq_true',
    Option.some.injEq, and_assoc]

theorem link_eq_none_of_huge {entry : Word} (h : has entry PageFlags.huge = true) :
    link entry = none := by
  simp [link, h]

@[simp] theorem link_zero : link 0#64 = none := by
  simp [link]

/-! ## Indices -/

/-- An index as a position in a table. -/
def slot (index : BitVec 16) : Fin kPageTableEntries :=
  ⟨index.toNat % kPageTableEntries, Nat.mod_lt _ (by decide)⟩

theorem slot_val {index : BitVec 16} (hindex : index.toNat < 512) :
    (slot index).val = index.toNat :=
  Nat.mod_eq_of_lt hindex

section Indices

variable (address : Word)

theorem toNat_pml4Index :
    (decomposeAddress address).pml4Index.toNat = address.toNat / 2 ^ 39 % 512 := by
  rw [decomposeAddress, BitVec.toNat_setWidth, Bits.toNat_field address 0x1FF 39 9 (by decide)]
  omega

theorem toNat_pdptIndex :
    (decomposeAddress address).pdptIndex.toNat = address.toNat / 2 ^ 30 % 512 := by
  rw [decomposeAddress, BitVec.toNat_setWidth, Bits.toNat_field address 0x1FF 30 9 (by decide)]
  omega

theorem toNat_pdIndex :
    (decomposeAddress address).pdIndex.toNat = address.toNat / 2 ^ 21 % 512 := by
  rw [decomposeAddress, BitVec.toNat_setWidth, Bits.toNat_field address 0x1FF 21 9 (by decide)]
  omega

theorem toNat_ptIndex :
    (decomposeAddress address).ptIndex.toNat = address.toNat / 2 ^ 12 % 512 := by
  rw [decomposeAddress, BitVec.toNat_setWidth, Bits.toNat_field address 0x1FF 12 9 (by decide)]
  omega

theorem isCanonical_iff :
    isCanonical address = true ↔ address.toNat < 2 ^ 47 ∨ 2 ^ 64 - 2 ^ 47 ≤ address.toNat := by
  have hbound := address.isLt
  have hsign := Bits.toNat_field address 1 47 1 (by decide)
  have hupper : (address >>> 48).toNat = address.toNat / 2 ^ 48 := by
    rw [BitVec.toNat_ushiftRight, Nat.shiftRight_eq_div_pow]
  unfold isCanonical
  simp only [Bits.eq_zero_iff_toNat, hsign]
  split
  · simp only [decide_eq_true_eq, hupper]
    omega
  · simp only [decide_eq_true_eq, ← BitVec.toNat_inj, hupper]
    change _ = 65535 ↔ _
    omega

end Indices

theorem slot_inj {left right : BitVec 16} (hleft : left.toNat < 512) (hright : right.toNat < 512) :
    slot left = slot right ↔ left.toNat = right.toNat := by
  rw [Fin.ext_iff, slot_val hleft, slot_val hright]

/-! ## Pages -/

namespace Page

/-- The page contains the address. -/
def Covers (page : Page) (address : Word) : Prop :=
  page.virt.toNat ≤ address.toNat ∧ address.toNat < page.virt.toNat + (size page).toNat

instance (page : Page) (address : Word) : Decidable (Covers page address) :=
  inferInstanceAs (Decidable (_ ∧ _))

/-- The slots of the levels above the leaf's table. -/
def slots (page : Page) : List (Fin kPageTableEntries) :=
  (directory page).map slot

/-- The slot of the leaf in its table. -/
def leafSlot (page : Page) : Fin kPageTableEntries :=
  slot (leafIndex page)

theorem toNat_size (page : Page) :
    (size page).toNat = if page.large then 2 ^ 21 else 2 ^ 12 := by
  unfold size
  split <;> rfl

/-- The arguments a mapping function accepts, in natural numbers. -/
theorem admissible_iff (page : Page) :
    Admissible page ↔
      (page.virt.toNat < 2 ^ 47 ∨ 2 ^ 64 - 2 ^ 47 ≤ page.virt.toNat) ∧
        page.virt.toNat % (size page).toNat = 0 ∧ page.phys.toNat % (size page).toNat = 0 ∧
        page.phys.toNat < 2 ^ 52 ∧
        (page.large = false → has page.flags PageFlags.huge = false) := by
  have hmask : ∀ word : Word, word &&& (size page - 1) = 0 ↔
      word.toNat % (size page).toNat = 0 := by
    intro word
    unfold size
    split
    · rw [Bits.eq_zero_iff_toNat,
        Bits.toNat_and_lowMask word (kLargePageSize - 1) 21 (by decide)]
      rfl
    · rw [Bits.eq_zero_iff_toNat, Bits.toNat_and_lowMask word (kPageSize - 1) 12 (by decide)]
      rfl
  have haligned : page.phys.toNat % (size page).toNat = 0 → page.phys.toNat % 4096 = 0 := by
    rw [toNat_size]
    split <;> omega
  simp only [Admissible, isCanonical_iff, hmask, and_not_mask_eq_zero_iff, has_eq_false_iff]
  tauto

theorem slots_small {page : Page} (h : page.large = false) :
    slots page = [slot (decomposeAddress page.virt).pml4Index,
      slot (decomposeAddress page.virt).pdptIndex, slot (decomposeAddress page.virt).pdIndex] := by
  simp [slots, directory, h]

theorem slots_large {page : Page} (h : page.large = true) :
    slots page = [slot (decomposeAddress page.virt).pml4Index,
      slot (decomposeAddress page.virt).pdptIndex] := by
  simp [slots, directory, h]

/-- The slots of a page determine the canonical addresses it covers, and conversely. -/
theorem covers_iff {page : Page} (hpage : Admissible page) {address : Word}
    (haddress : isCanonical address = true) :
    Covers page address ↔ slots page = slots { page with virt := address } ∧
      leafSlot page = leafSlot { page with virt := address } := by
  obtain ⟨hcanonical, haligned, -, -, -⟩ := (admissible_iff page).mp hpage
  rw [isCanonical_iff] at haddress
  have hindex : ∀ value : Word, (decomposeAddress value).pml4Index.toNat < 512 ∧
      (decomposeAddress value).pdptIndex.toNat < 512 ∧
      (decomposeAddress value).pdIndex.toNat < 512 ∧
      (decomposeAddress value).ptIndex.toNat < 512 := by
    intro value
    rw [toNat_pml4Index, toNat_pdptIndex, toNat_pdIndex, toNat_ptIndex]
    omega
  obtain ⟨hfirst, hsecond, hthird, hfourth⟩ := hindex page.virt
  obtain ⟨hfirst', hsecond', hthird', hfourth'⟩ := hindex address
  have hvirt := page.virt.isLt
  have hbound := address.isLt
  rw [toNat_size] at haligned
  rw [Covers, toNat_size]
  cases hlarge : page.large with
  | true =>
    rw [slots_large hlarge, slots_large rfl]
    simp only [leafSlot, leafIndex, hlarge, if_true, List.cons.injEq, and_true,
      slot_inj hfirst hfirst', slot_inj hsecond hsecond', slot_inj hthird hthird',
      toNat_pml4Index, toNat_pdptIndex, toNat_pdIndex] at haligned ⊢
    omega
  | false =>
    rw [slots_small hlarge, slots_small rfl]
    simp only [leafSlot, leafIndex, hlarge, Bool.false_eq_true, if_false, List.cons.injEq,
      and_true, slot_inj hfirst hfirst', slot_inj hsecond hsecond', slot_inj hthird hthird',
      slot_inj hfourth hfourth', toNat_pml4Index, toNat_pdptIndex, toNat_pdIndex,
      toNat_ptIndex] at haligned ⊢
    omega

/-- A page lies in one canonical half. -/
theorem Covers.isCanonical {page : Page} (hpage : Admissible page) {address : Word}
    (h : Covers page address) : isCanonical address = true := by
  obtain ⟨hcanonical, haligned, -, -, -⟩ := (admissible_iff page).mp hpage
  rw [Covers] at h
  rw [toNat_size] at haligned h
  rw [isCanonical_iff]
  split at h <;> simp_all <;> omega

/-! ### The leaf entry -/

section Leaf

variable {page : Page}

theorem has_leafEntry {flag : Word} (hflag : OutsideAddress flag)
    (hhuge : has PageFlags.huge flag = false) :
    has (leafEntry page) flag = (has page.flags flag || has PageFlags.present flag) := by
  unfold leafEntry
  split
  · rw [has_makePageEntry _ _ hflag, has_or, has_or, hhuge, Bool.or_false]
  · rw [has_makePageEntry _ _ hflag, has_or]

theorem has_present_leafEntry (page : Page) : has (leafEntry page) PageFlags.present = true := by
  rw [has_leafEntry outsideAddress_flag.1 (by decide), Bool.or_eq_true]
  exact Or.inr (by decide)

theorem has_huge_leafEntry (hpage : Admissible page) :
    has (leafEntry page) PageFlags.huge = page.large := by
  obtain ⟨-, -, -, -, hflags⟩ := (admissible_iff page).mp hpage
  have hhuge := outsideAddress_flag.2.2.2.1
  unfold leafEntry
  cases hlarge : page.large with
  | true =>
    rw [if_pos rfl, has_makePageEntry _ _ hhuge, has_or, Bool.or_eq_true]
    exact Or.inr (by decide)
  | false =>
    rw [if_neg Bool.false_ne_true, has_makePageEntry _ _ hhuge, has_or, hflags hlarge]
    decide

/-- The leaf carries the rights that were asked for. -/
theorem has_rights_leafEntry (page : Page) :
    has (leafEntry page) PageFlags.writable = has page.flags PageFlags.writable ∧
      has (leafEntry page) PageFlags.user = has page.flags PageFlags.user ∧
      has (leafEntry page) PageFlags.noExecute = has page.flags PageFlags.noExecute := by
  obtain ⟨-, hwritable, huser, -, hnoExecute⟩ := outsideAddress_flag
  refine ⟨?_, ?_, ?_⟩
  · rw [has_leafEntry hwritable (by decide)]
    exact Bool.or_false _
  · rw [has_leafEntry huser (by decide)]
    exact Bool.or_false _
  · rw [has_leafEntry hnoExecute (by decide)]
    exact Bool.or_false _

theorem pageEntryAddress_leafEntry (hpage : Admissible page)
    (hflags : PageFlags.Named page.flags) : pageEntryAddress (leafEntry page) = page.phys := by
  have hphys := hpage.2.2.2.1
  have hnamed := Named.outsideAddress hflags
  obtain ⟨hpresent, -, -, hhuge, -⟩ := outsideAddress_flag
  unfold leafEntry
  split
  · exact pageEntryAddress_makePageEntry hphys ((hnamed.or hpresent).or hhuge)
  · exact pageEntryAddress_makePageEntry hphys (hnamed.or hpresent)

end Leaf

/-- The address arithmetic at the end of a walk: the offset is filled into an aligned address. -/
theorem or_offset {page : Page} (hpage : Admissible page) {address mask : Word}
    (hcovers : Covers page address) (hmask : mask.toNat = (size page).toNat - 1) :
    page.phys ||| (address &&& mask) = page.phys + (address - page.virt) := by
  obtain ⟨-, hvirt, hphys, -, -⟩ := (admissible_iff page).mp hpage
  obtain ⟨hle, hlt⟩ := hcovers
  obtain ⟨width, hwidth, hwidthLt⟩ : ∃ width, (size page).toNat = 2 ^ width ∧ width < 64 := by
    rw [toNat_size]
    split
    · exact ⟨21, rfl, by decide⟩
    · exact ⟨12, rfl, by decide⟩
  rw [hwidth] at hvirt hphys hlt hmask
  have hmod := Bits.toNat_and_lowMask address mask width hmask
  have hoffset : address &&& mask = address - page.virt := by
    apply BitVec.eq_of_toNat_eq
    rw [hmod, BitVec.toNat_sub_of_le (by rw [BitVec.le_def]; exact hle)]
    have hdiv := Nat.div_add_mod page.virt.toNat (2 ^ width)
    rw [hvirt, Nat.add_zero] at hdiv
    have hsplit : address.toNat =
        (address.toNat - page.virt.toNat) + 2 ^ width * (page.virt.toNat / 2 ^ width) := by
      omega
    rw [hsplit, Nat.add_mul_mod_self_left, Nat.mod_eq_of_lt (by omega)]
    omega
  rw [← hoffset]
  -- The aligned address has no bit below the mask.
  have hlow : page.phys &&& mask = 0#64 := by
    rw [← BitVec.ofNat_eq_ofNat, Bits.eq_zero_iff_toNat,
      Bits.toNat_and_lowMask _ _ width hmask, hphys]
  have hdisjoint : page.phys &&& (address &&& mask) = 0#64 := by
    rw [BitVec.and_comm address, ← BitVec.and_assoc, hlow, BitVec.zero_and]
  exact (BitVec.add_eq_or_of_and_eq_zero _ _ hdisjoint).symm

end Page

end WaterBuffalo.Vmm
