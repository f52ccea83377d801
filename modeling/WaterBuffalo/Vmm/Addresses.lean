import WaterBuffalo.Vmm.Entry
import Mathlib.Data.Fin.Basic
import Mathlib.Data.Prod.Lex
import Mathlib.Data.Set.Function
import Mathlib.Order.Cover

/-!
# Addresses and their indices

`decompose_address` reads four table indices and an offset off the lower 48 bits of an address;
`reassemble_address` puts them together again and extends the sign.  On canonical addresses the two
are inverse to each other.  The index tuples of consecutive pages follow each other in the
dictionary order, and no two canonical pages have their leaf at the same place.
-/

namespace WaterBuffalo.Vmm

open Pmm

/-- The four indices select an entry of a table, and the offset lies within a page. -/
structure VirtualAddress.InRange (address : VirtualAddress) : Prop where
  pml4_lt : address.pml4Index.toNat < 512
  pdpt_lt : address.pdptIndex.toNat < 512
  pd_lt : address.pdIndex.toNat < 512
  pt_lt : address.ptIndex.toNat < 512
  offset_lt : address.offset.toNat < 4096

/-- The lower 48 bits that the fields stand for. -/
def VirtualAddress.lowBits (address : VirtualAddress) : ℕ :=
  address.pml4Index.toNat * 2 ^ 39 + address.pdptIndex.toNat * 2 ^ 30 +
    address.pdIndex.toNat * 2 ^ 21 + address.ptIndex.toNat * 2 ^ 12 + address.offset.toNat

/-! ## Taking apart -/

theorem toNat_offset (address : Word) :
    (decomposeAddress address).offset.toNat = address.toNat % 4096 := by
  rw [decomposeAddress, BitVec.toNat_setWidth, Bits.toNat_and_lowMask address 0xFFF 12 (by decide)]
  omega

theorem decomposeAddress_inRange (address : Word) : (decomposeAddress address).InRange := by
  constructor
  · rw [toNat_pml4Index]
    omega
  · rw [toNat_pdptIndex]
    omega
  · rw [toNat_pdIndex]
    omega
  · rw [toNat_ptIndex]
    omega
  · rw [toNat_offset]
    omega

theorem lowBits_decomposeAddress (address : Word) :
    (decomposeAddress address).lowBits = address.toNat % 2 ^ 48 := by
  rw [VirtualAddress.lowBits, toNat_pml4Index, toNat_pdptIndex, toNat_pdIndex, toNat_ptIndex,
    toNat_offset]
  omega

/-! ## Putting together -/

theorem toNat_setWidth_index (index : BitVec 16) : (index.setWidth 64).toNat = index.toNat := by
  rw [BitVec.toNat_setWidth]
  exact Nat.mod_eq_of_lt (lt_trans index.isLt (by decide))

namespace VirtualAddress.InRange

variable {address : VirtualAddress}

theorem lowBits_lt (h : address.InRange) : address.lowBits < 2 ^ 48 := by
  obtain ⟨hpml4, hpdpt, hpd, hpt, hoffset⟩ := h
  unfold lowBits
  omega

/-- The fields do not overlap, so the bitwise-or is a sum. -/
theorem toNat_fields (h : address.InRange) :
    ((address.pml4Index.setWidth 64 <<< 39) ||| (address.pdptIndex.setWidth 64 <<< 30) |||
      (address.pdIndex.setWidth 64 <<< 21) ||| (address.ptIndex.setWidth 64 <<< 12) |||
      address.offset.setWidth 64 : Word).toNat = address.lowBits := by
  obtain ⟨hpml4, hpdpt, hpd, hpt, hoffset⟩ := h
  have hpage : (address.ptIndex.setWidth 64 <<< 12 ||| address.offset.setWidth 64 : Word).toNat =
      address.ptIndex.toNat * 2 ^ 12 + address.offset.toNat := by
    rw [Bits.toNat_shiftLeft_or, toNat_setWidth_index, toNat_setWidth_index]
    · rw [toNat_setWidth_index]
      omega
    · rw [toNat_setWidth_index]
      omega
  have hdirectory : (address.pdIndex.setWidth 64 <<< 21 |||
      (address.ptIndex.setWidth 64 <<< 12 ||| address.offset.setWidth 64) : Word).toNat =
      address.pdIndex.toNat * 2 ^ 21 + (address.ptIndex.toNat * 2 ^ 12 + address.offset.toNat) := by
    rw [Bits.toNat_shiftLeft_or, toNat_setWidth_index, hpage]
    · rw [hpage]
      omega
    · rw [toNat_setWidth_index]
      omega
  have hpointers : (address.pdptIndex.setWidth 64 <<< 30 ||| (address.pdIndex.setWidth 64 <<< 21 |||
      (address.ptIndex.setWidth 64 <<< 12 ||| address.offset.setWidth 64)) : Word).toNat =
      address.pdptIndex.toNat * 2 ^ 30 + (address.pdIndex.toNat * 2 ^ 21 +
        (address.ptIndex.toNat * 2 ^ 12 + address.offset.toNat)) := by
    rw [Bits.toNat_shiftLeft_or, toNat_setWidth_index, hdirectory]
    · rw [hdirectory]
      omega
    · rw [toNat_setWidth_index]
      omega
  rw [BitVec.or_assoc, BitVec.or_assoc, BitVec.or_assoc, Bits.toNat_shiftLeft_or,
    toNat_setWidth_index, hpointers, lowBits]
  · omega
  · rw [hpointers]
    omega
  · rw [toNat_setWidth_index]
    omega

/-- Bit 47 is extended through the upper 16 bits. -/
theorem toNat_reassembleAddress (h : address.InRange) :
    (reassembleAddress address).toNat =
      if address.lowBits < 2 ^ 47 then address.lowBits
      else address.lowBits + (2 ^ 64 - 2 ^ 48) := by
  have hlow := h.lowBits_lt
  have hfields := h.toNat_fields
  unfold reassembleAddress
  simp only
  generalize (address.pml4Index.setWidth 64 <<< 39) ||| (address.pdptIndex.setWidth 64 <<< 30) |||
    (address.pdIndex.setWidth 64 <<< 21) ||| (address.ptIndex.setWidth 64 <<< 12) |||
    address.offset.setWidth 64 = result at hfields ⊢
  have hsign : result &&& 1#64 <<< 47 = 0 ↔ address.lowBits < 2 ^ 47 := by
    rw [Bits.and_bit_eq_zero_iff result (by decide), BitVec.getLsbD, hfields,
      Nat.testBit_eq_decide_div_mod_eq, decide_eq_false_iff_not]
    omega
  have hextend : result ||| (0xFFFF000000000000 : Word) = (0xFFFF#64 <<< 48) ||| result :=
    BitVec.or_comm _ _
  by_cases hlower : address.lowBits < 2 ^ 47
  · rw [if_neg (not_not.mpr (hsign.mpr hlower)), if_pos hlower, hfields]
  · rw [if_pos fun hzero ↦ hlower (hsign.mp hzero), if_neg hlower, hextend,
      Bits.toNat_shiftLeft_or (by rw [hfields]; exact hlow) (by decide), hfields]
    exact Nat.add_comm _ _

theorem isCanonical_reassembleAddress (h : address.InRange) :
    isCanonical (reassembleAddress address) = true := by
  have hlow := h.lowBits_lt
  rw [isCanonical_iff, h.toNat_reassembleAddress]
  split <;> omega

/-- The fields are the digits of the lower 48 bits, so these determine them. -/
theorem ext_of_lowBits {other : VirtualAddress} (h : address.InRange) (hother : other.InRange)
    (heq : address.lowBits = other.lowBits) : address = other := by
  obtain ⟨hpml4, hpdpt, hpd, hpt, hoffset⟩ := h
  obtain ⟨hpml4', hpdpt', hpd', hpt', hoffset'⟩ := hother
  unfold lowBits at heq
  cases address
  cases other
  simp only [VirtualAddress.mk.injEq, ← BitVec.toNat_inj] at *
  omega

theorem decomposeAddress_reassembleAddress (h : address.InRange) :
    decomposeAddress (reassembleAddress address) = address := by
  have hlow := h.lowBits_lt
  apply ext_of_lowBits (decomposeAddress_inRange _) h
  rw [lowBits_decomposeAddress, h.toNat_reassembleAddress]
  split <;> omega

end VirtualAddress.InRange

theorem reassembleAddress_decomposeAddress_iff (address : Word) :
    reassembleAddress (decomposeAddress address) = address ↔ isCanonical address = true := by
  have hbound := address.isLt
  rw [← BitVec.toNat_inj, (decomposeAddress_inRange address).toNat_reassembleAddress,
    lowBits_decomposeAddress, isCanonical_iff]
  split <;> omega

/-! ## Consecutive pages -/

/-- The table indices of an address, in dictionary order. -/
abbrev IndexTuple :=
  Fin kPageTableEntries ×ₗ Fin kPageTableEntries ×ₗ Fin kPageTableEntries ×ₗ Fin kPageTableEntries

def indexTuple (address : Word) : IndexTuple :=
  let indices := decomposeAddress address
  toLex (slot indices.pml4Index, toLex (slot indices.pdptIndex,
    toLex (slot indices.pdIndex, slot indices.ptIndex)))

/-- The place of a tuple in the dictionary order. -/
def rank (tuple : IndexTuple) : ℕ :=
  let (pml4, lower) := ofLex tuple
  let (pdpt, lower) := ofLex lower
  let (pd, pt) := ofLex lower
  pml4.val * 2 ^ 27 + pdpt.val * 2 ^ 18 + pd.val * 2 ^ 9 + pt.val

theorem lt_iff_rank_lt (left right : IndexTuple) : left < right ↔ rank left < rank right := by
  have hbound (index : Fin kPageTableEntries) : index.val < 512 := index.isLt
  have hleft := hbound (ofLex (ofLex left).2).1
  have hleftPd := hbound (ofLex (ofLex (ofLex left).2).2).1
  have hleftPt := hbound (ofLex (ofLex (ofLex left).2).2).2
  have hright := hbound (ofLex (ofLex right).2).1
  have hrightPd := hbound (ofLex (ofLex (ofLex right).2).2).1
  have hrightPt := hbound (ofLex (ofLex (ofLex right).2).2).2
  rw [Prod.Lex.lt_iff, Prod.Lex.lt_iff, Prod.Lex.lt_iff]
  simp only [rank, Fin.lt_def, Fin.ext_iff]
  omega

theorem covBy_of_rank {left right : IndexTuple} (h : rank right = rank left + 1) :
    left ⋖ right := by
  constructor
  · rw [lt_iff_rank_lt]
    omega
  · intro between hleft hright
    rw [lt_iff_rank_lt] at hleft hright
    omega

theorem rank_indexTuple (address : Word) :
    rank (indexTuple address) = address.toNat / 2 ^ 12 % 2 ^ 36 := by
  obtain ⟨hpml4, hpdpt, hpd, hpt, -⟩ := decomposeAddress_inRange address
  calc
    rank (indexTuple address) =
        (slot (decomposeAddress address).pml4Index).val * 2 ^ 27 +
          (slot (decomposeAddress address).pdptIndex).val * 2 ^ 18 +
          (slot (decomposeAddress address).pdIndex).val * 2 ^ 9 +
          (slot (decomposeAddress address).ptIndex).val := rfl
    _ = address.toNat / 2 ^ 12 % 2 ^ 36 := by
      rw [slot_val hpml4, slot_val hpdpt, slot_val hpd, slot_val hpt, toNat_pml4Index,
        toNat_pdptIndex, toNat_pdIndex, toNat_ptIndex]
      omega

/-- Both addresses are below, or both above, the canonical hole. -/
def SameHalf (left right : Word) : Prop :=
  left.toNat < 2 ^ 47 ↔ right.toNat < 2 ^ 47

theorem indexTuple_covBy_next {address : Word}
    (hnext : isCanonical (address + kPageSize) = true)
    (hhalf : SameHalf address (address + kPageSize)) :
    indexTuple address ⋖ indexTuple (address + kPageSize) := by
  have hbound := address.isLt
  apply covBy_of_rank
  rw [isCanonical_iff] at hnext
  rw [SameHalf] at hhalf
  rw [rank_indexTuple, rank_indexTuple]
  rw [BitVec.toNat_add, toNat_kPageSize] at hnext hhalf ⊢
  omega

/-! ## Leaves -/

/-- Two canonical pages with their leaf at the same place are the same page. -/
theorem Page.virt_eq_of_leaf {page other : Page} (hpage : isCanonical page.virt = true)
    (hother : isCanonical other.virt = true)
    (haligned : page.virt.toNat % (Page.size page).toNat = 0)
    (hotherAligned : other.virt.toNat % (Page.size other).toNat = 0)
    (hslots : Page.slots page = Page.slots other)
    (hleaf : Page.leafSlot page = Page.leafSlot other) :
    page.virt = other.virt ∧ page.large = other.large := by
  obtain ⟨hpml4, hpdpt, hpd, hpt, -⟩ := decomposeAddress_inRange page.virt
  obtain ⟨hpml4', hpdpt', hpd', hpt', -⟩ := decomposeAddress_inRange other.virt
  have hbound := page.virt.isLt
  have hbound' := other.virt.isLt
  rw [isCanonical_iff] at hpage hother
  rw [Page.toNat_size] at haligned hotherAligned
  cases hlarge : page.large with
  | true =>
    cases hotherLarge : other.large with
    | true =>
      rw [Page.slots_large hlarge, Page.slots_large hotherLarge] at hslots
      simp only [Page.leafSlot, Page.leafIndex, hlarge, hotherLarge, if_true, List.cons.injEq,
        and_true, slot_inj hpml4 hpml4', slot_inj hpdpt hpdpt', slot_inj hpd hpd',
        toNat_pml4Index, toNat_pdptIndex, toNat_pdIndex] at hslots hleaf haligned hotherAligned
      exact ⟨BitVec.eq_of_toNat_eq (by omega), rfl⟩
    | false =>
      rw [Page.slots_large hlarge, Page.slots_small hotherLarge] at hslots
      simp at hslots
  | false =>
    cases hotherLarge : other.large with
    | true =>
      rw [Page.slots_small hlarge, Page.slots_large hotherLarge] at hslots
      simp at hslots
    | false =>
      rw [Page.slots_small hlarge, Page.slots_small hotherLarge] at hslots
      simp only [Page.leafSlot, Page.leafIndex, hlarge, hotherLarge, Bool.false_eq_true, if_false,
        List.cons.injEq, and_true, slot_inj hpml4 hpml4', slot_inj hpdpt hpdpt',
        slot_inj hpd hpd', slot_inj hpt hpt', toNat_pml4Index, toNat_pdptIndex, toNat_pdIndex,
        toNat_ptIndex] at hslots hleaf haligned hotherAligned
      exact ⟨BitVec.eq_of_toNat_eq (by omega), rfl⟩

/-- **Address decomposition.** The round trip through the indices recovers exactly the canonical
addresses; every tuple of indices and offset in range comes from one canonical address; the next
page of the same half has the next index tuple; and two canonical pages never share a leaf. -/
theorem decomposition_bijective :
    (∀ address, reassembleAddress (decomposeAddress address) = address ↔
      isCanonical address = true) ∧
    (∀ address : VirtualAddress, address.InRange →
      isCanonical (reassembleAddress address) = true ∧
        decomposeAddress (reassembleAddress address) = address) ∧
    Set.BijOn decomposeAddress {address | isCanonical address = true}
      {address | address.InRange} ∧
    (∀ address : Word, isCanonical address = true → address.toNat % 4096 = 0 →
      isCanonical (address + kPageSize) = true → SameHalf address (address + kPageSize) →
      indexTuple address ⋖ indexTuple (address + kPageSize)) ∧
    ∀ page other : Page, isCanonical page.virt = true → isCanonical other.virt = true →
      page.virt.toNat % (Page.size page).toNat = 0 →
      other.virt.toNat % (Page.size other).toNat = 0 →
      Page.slots page = Page.slots other → Page.leafSlot page = Page.leafSlot other →
      page.virt = other.virt ∧ page.large = other.large := by
  refine ⟨reassembleAddress_decomposeAddress_iff, ?_, ?_, ?_, ?_⟩
  · intro address haddress
    exact ⟨haddress.isCanonical_reassembleAddress, haddress.decomposeAddress_reassembleAddress⟩
  · refine ⟨fun address _ ↦ decomposeAddress_inRange address, ?_, ?_⟩
    · intro left hleft right hright heq
      rw [← (reassembleAddress_decomposeAddress_iff left).mpr hleft,
        ← (reassembleAddress_decomposeAddress_iff right).mpr hright, heq]
    · intro address haddress
      exact ⟨reassembleAddress address, haddress.isCanonical_reassembleAddress,
        haddress.decomposeAddress_reassembleAddress⟩
  · intro address _ _ hnext hhalf
    exact indexTuple_covBy_next hnext hhalf
  · intro page other hpage hother haligned hotherAligned hslots hleaf
    exact Page.virt_eq_of_leaf hpage hother haligned hotherAligned hslots hleaf

end WaterBuffalo.Vmm
