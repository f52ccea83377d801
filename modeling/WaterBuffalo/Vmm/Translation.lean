import WaterBuffalo.Vmm.Boot

/-!
# Translation and rights

What an address space means: a partial map given by its installed pages, and for each address the
rights the processor computes over all levels of its walk.  Under the invariant `translate` is
that partial map, and the rights of an address are those of the one page that covers it.
-/

namespace WaterBuffalo.Vmm

open Pmm TableForest

/-! ## The abstract view -/

/-- The partial map of a list of installed pages, with 0 where no page covers the address. -/
def lookup (pages : List Page) (address : Word) : Word :=
  match pages.find? fun page ↦ Page.Covers page address with
  | some page => page.phys + (address - page.virt)
  | none => 0

/-- The entries the processor reads below a table: down to an entry that is not present, maps a
large page, or is in the last table. -/
def walk (s : State) : Word → List (BitVec 16) → List Word
  | _, [] => []
  | table, index :: indices =>
    let entry := s.load (entryAddress table index)
    if entry &&& PageFlags.present = 0 ∨ entry &&& PageFlags.huge ≠ 0 then [entry]
    else entry :: walk s (physicalToVirtual s (pageEntryAddress entry)) indices

/-- The entries of the walk for an address. -/
def walkEntries (s : State) (pml4 address : Word) : List Word :=
  let indices := decomposeAddress address
  walk s pml4 [indices.pml4Index, indices.pdptIndex, indices.pdIndex, indices.ptIndex]

/-- The walk for a canonical address ends in a present leaf. -/
def leafPresent (s : State) (pml4 address : Word) : Bool :=
  isCanonical address && (walkEntries s pml4 address).all (has · PageFlags.present)

structure Rights where
  writable : Bool
  user : Bool
  noExecute : Bool
  deriving DecidableEq, Repr

/-- The rights a flag word asks for. -/
def Rights.ofFlags (flags : PageFlags) : Rights where
  writable := has flags PageFlags.writable
  user := has flags PageFlags.user
  noExecute := has flags PageFlags.noExecute

/-- The rights of an address: the intersection over all levels of its walk. -/
def effectiveRights (s : State) (pml4 address : Word) : Rights where
  writable := (walkEntries s pml4 address).all (has · PageFlags.writable)
  user := (walkEntries s pml4 address).all (has · PageFlags.user)
  noExecute := (walkEntries s pml4 address).any (has · PageFlags.noExecute)

/-! ## One level -/

section Level

variable {s : State} {node next : ℕ} {index : BitVec 16} {indices : List (BitVec 16)}

/-- Following a link, as `translate` and the processor do. -/
theorem load_link (hnode : node < 2 ^ 40) (hindex : index.toNat < 512)
    (hlink : link (tables s node (slot index)) = some next) :
    s.load (entryAddress (tableAddress s.toStatics node) index) &&& PageFlags.present ≠ 0 ∧
      s.load (entryAddress (tableAddress s.toStatics node) index) &&& PageFlags.huge = 0 ∧
      physicalToVirtual s (pageEntryAddress
        (s.load (entryAddress (tableAddress s.toStatics node) index))) =
        tableAddress s.toStatics next := by
  obtain ⟨hpresent, hhuge, rfl⟩ := link_eq_some_iff.mp hlink
  rw [load_entryAddress s hnode hindex, physicalToVirtual, pageEntryAddress_eq_ofNat]
  exact ⟨has_eq_true_iff.mp hpresent, has_eq_false_iff.mp hhuge, rfl⟩

theorem walk_link (hnode : node < 2 ^ 40) (hindex : index.toNat < 512)
    (hlink : link (tables s node (slot index)) = some next) :
    walk s (tableAddress s.toStatics node) (index :: indices) =
      tables s node (slot index) :: walk s (tableAddress s.toStatics next) indices := by
  obtain ⟨hpresent, hhuge, hnext⟩ := load_link hnode hindex hlink
  rw [walk]
  simp only [hpresent, hhuge, ne_eq, not_true_eq_false, or_self, if_false, hnext]
  rw [load_entryAddress s hnode hindex]

theorem walk_end (hnode : node < 2 ^ 40) (hindex : index.toNat < 512)
    (hend : link (tables s node (slot index)) = none ∨ indices = []) :
    walk s (tableAddress s.toStatics node) (index :: indices) = [tables s node (slot index)] := by
  rw [walk]
  simp only [load_entryAddress s hnode hindex]
  split
  · rfl
  · rename_i hstop
    rw [not_or, not_not] at hstop
    rcases hend with hnone | rfl
    · have hsome := link_eq_some_iff.mpr
        ⟨has_eq_true_iff.mpr hstop.1, has_eq_false_iff.mpr hstop.2, rfl⟩
      rw [hnone] at hsome
      cases hsome
    · rfl

theorem link_lt {entry : Word} (h : link entry = some next) : next < 2 ^ 40 := by
  obtain ⟨-, -, rfl⟩ := link_eq_some_iff.mp h
  exact entryFrame_lt entry

/-- The walk goes on below a present entry that maps no large page. -/
theorem walk_present_iff {table : Word} :
    (walk s table (index :: indices)).all (has · PageFlags.present) = true ↔
      s.load (entryAddress table index) &&& PageFlags.present ≠ 0 ∧
        (s.load (entryAddress table index) &&& PageFlags.huge = 0 →
          (walk s (physicalToVirtual s (pageEntryAddress (s.load (entryAddress table index))))
            indices).all (has · PageFlags.present) = true) := by
  simp only [walk]
  split_ifs with hstop
  · rw [List.all_cons, List.all_nil, Bool.and_true, has_eq_true_iff]
    tauto
  · rw [List.all_cons, Bool.and_eq_true, has_eq_true_iff]
    tauto

/-- A walk that meets present entries only starts at a large page or follows a link. -/
theorem link_of_walk_present (hnode : node < 2 ^ 40) (hindex : index.toNat < 512)
    (h : (walk s (tableAddress s.toStatics node) (index :: indices)).all
      (has · PageFlags.present) = true) :
    has (tables s node (slot index)) PageFlags.huge = true ∨
      ∃ next, link (tables s node (slot index)) = some next ∧
        (walk s (tableAddress s.toStatics next) indices).all (has · PageFlags.present) = true := by
  rw [or_iff_not_imp_left, Bool.not_eq_true]
  intro hsmall
  obtain ⟨hpresent, hrest⟩ := walk_present_iff.mp h
  rw [load_entryAddress s hnode hindex] at hpresent hrest
  have hlink : link (tables s node (slot index)) = some (entryFrame (tables s node (slot index))) :=
    link_eq_some_iff.mpr ⟨has_eq_true_iff.mpr hpresent, hsmall, rfl⟩
  refine ⟨_, hlink, ?_⟩
  rw [physicalToVirtual, pageEntryAddress_eq_ofNat] at hrest
  exact hrest (has_eq_false_iff.mp hsmall)

end Level

/-! ## Covered addresses -/

/-- A page's way down from its root, level by level. -/
theorem descend_two {store : Store} {root node : ℕ} {first second : Fin kPageTableEntries}
    (h : descend link store root [first, second] = some node) :
    ∃ middle, link (store root first) = some middle ∧ link (store middle second) = some node := by
  simpa [descend, Option.bind_eq_some_iff] using h

theorem descend_three {store : Store} {root node : ℕ} {first second third : Fin kPageTableEntries}
    (h : descend link store root [first, second, third] = some node) :
    ∃ upper lower, link (store root first) = some upper ∧ link (store upper second) = some lower ∧
      link (store lower third) = some node := by
  simpa [descend, Option.bind_eq_some_iff] using h

theorem index_lt (address : Word) : (decomposeAddress address).pml4Index.toNat < 512 ∧
    (decomposeAddress address).pdptIndex.toNat < 512 ∧
    (decomposeAddress address).pdIndex.toNat < 512 ∧
    (decomposeAddress address).ptIndex.toNat < 512 := by
  rw [toNat_pml4Index, toNat_pdptIndex, toNat_pdIndex, toNat_ptIndex]
  omega

section Covered

variable {stock held roots : Set ℕ} {s : State} {root : ℕ} {space : AddressSpace} {address : Word}
  {page : Page}

/-- Translation of an address a page covers. -/
theorem KernelInv.translate_covered (h : KernelInv stock held roots s) (hroot : root ∈ roots)
    (hspace : space.pml4 = tableAddress s.toStatics root) (hnonnull : space.pml4 ≠ 0)
    (hpage : page ∈ framePages s root) (hcovers : Page.Covers page address) :
    translate s space address = page.phys + (address - page.virt) := by
  obtain ⟨hadmissible, hflags⟩ := h.forest.pages_ok root page hpage
  have hcanonical := hcovers.isCanonical hadmissible
  obtain ⟨hslots, hslot⟩ := (Page.covers_iff hadmissible hcanonical).mp hcovers
  obtain ⟨node, hnode, hleaf⟩ := entryAt_eq_some.mp (h.forest.installed root page hpage)
  obtain ⟨hfirst, hsecond, hthird, hfourth⟩ := index_lt address
  have hrootBound := h.root_lt hroot
  have hpresent := has_eq_true_iff.mp (Page.has_present_leafEntry page)
  have hhuge := Page.has_huge_leafEntry hadmissible
  have hphys := Page.pageEntryAddress_leafEntry hadmissible hflags
  rw [hslots] at hnode
  rw [hslot] at hleaf
  rw [translate, if_neg hnonnull, hcanonical]
  cases hlarge : page.large with
  | true =>
    have hlarge' : ({ page with virt := address } : Page).large = true := hlarge
    rw [Page.slots_large hlarge'] at hnode
    obtain ⟨middle, hupper, hlower⟩ := descend_two hnode
    obtain ⟨hpresent₁, -, hnext₁⟩ := load_link hrootBound hfirst hupper
    obtain ⟨hpresent₂, hhuge₂, hnext₂⟩ := load_link (link_lt hupper) hsecond hlower
    have hload := load_entryAddress s (link_lt hlower) hthird
    simp only [Page.leafSlot, Page.leafIndex, hlarge, if_true] at hleaf
    rw [hlarge] at hhuge
    simp only [hspace, hpresent₁, hnext₁, hpresent₂, hhuge₂, hnext₂, hload, hleaf, hpresent,
      has_eq_true_iff.mp hhuge, hphys, Bool.not_true, Bool.false_eq_true, if_false, if_true,
      ne_eq, not_true_eq_false, not_false_eq_true]
    exact Page.or_offset hadmissible hcovers (by rw [Page.toNat_size, hlarge]; rfl)
  | false =>
    have hsmall' : ({ page with virt := address } : Page).large = false := hlarge
    rw [Page.slots_small hsmall'] at hnode
    obtain ⟨upper, lower, htop, hmiddle, hbottom⟩ := descend_three hnode
    obtain ⟨hpresent₁, -, hnext₁⟩ := load_link hrootBound hfirst htop
    obtain ⟨hpresent₂, hhuge₂, hnext₂⟩ := load_link (link_lt htop) hsecond hmiddle
    obtain ⟨hpresent₃, hhuge₃, hnext₃⟩ := load_link (link_lt hmiddle) hthird hbottom
    have hload := load_entryAddress s (link_lt hbottom) hfourth
    simp only [Page.leafSlot, Page.leafIndex, hlarge, Bool.false_eq_true, if_false] at hleaf
    simp only [hspace, hpresent₁, hnext₁, hpresent₂, hhuge₂, hnext₂, hpresent₃, hhuge₃, hnext₃,
      hload, hleaf, hpresent, hphys, Bool.not_true, Bool.false_eq_true, if_false,
      ne_eq, not_true_eq_false]
    exact Page.or_offset hadmissible hcovers (by rw [Page.toNat_size, hlarge]; rfl)

/-- At most one page of a space covers an address. -/
theorem KernelInv.covers_unique (h : KernelInv stock held roots s)
    (hpage : page ∈ framePages s root) (hcovers : Page.Covers page address)
    {other : Page} (hother : other ∈ framePages s root)
    (hcovers' : Page.Covers other address) : page = other := by
  -- A small page below the leaf of a large one would need that leaf to be a link.
  have hmixed : ∀ {large small : Page}, large ∈ framePages s root → small ∈ framePages s root →
      Page.Covers large address → Page.Covers small address → large.large = true →
      small.large = false → False := by
    intro large small hlargePage hsmallPage hlargeCovers hsmallCovers hlarge hsmall
    obtain ⟨hadmissible, -⟩ := h.forest.pages_ok root large hlargePage
    obtain ⟨hadmissible', -⟩ := h.forest.pages_ok root small hsmallPage
    have hcanonical := hlargeCovers.isCanonical hadmissible
    obtain ⟨hslots, hslot⟩ := (Page.covers_iff hadmissible hcanonical).mp hlargeCovers
    obtain ⟨hslots', -⟩ := (Page.covers_iff hadmissible' hcanonical).mp hsmallCovers
    have hlarge' : ({ large with virt := address } : Page).large = true := hlarge
    have hsmall' : ({ small with virt := address } : Page).large = false := hsmall
    obtain ⟨node, hnode, hleaf⟩ := entryAt_eq_some.mp (h.forest.installed root large hlargePage)
    have hnone : link (tables s node (Page.leafSlot large)) = none := by
      rw [hleaf]
      exact link_eq_none_of_huge ((Page.has_huge_leafEntry hadmissible).trans hlarge)
    apply h.forest.not_below hnode hnone hsmallPage
    rw [hslots, hslot, hslots', Page.slots_large hlarge', Page.slots_small hsmall']
    simp [Page.leafSlot, Page.leafIndex, hlarge]
  obtain ⟨hadmissible, -⟩ := h.forest.pages_ok root page hpage
  obtain ⟨hadmissible', -⟩ := h.forest.pages_ok root other hother
  have hcanonical := hcovers.isCanonical hadmissible
  obtain ⟨hslots, hslot⟩ := (Page.covers_iff hadmissible hcanonical).mp hcovers
  obtain ⟨hslots', hslot'⟩ := (Page.covers_iff hadmissible' hcanonical).mp hcovers'
  have hsame : page.large = other.large → page = other := by
    intro hlarge
    apply h.forest.unique root page hpage other hother
    · rw [hslots, hslots']
      simp only [Page.slots, Page.directory, hlarge]
    · rw [hslot, hslot']
      simp only [Page.leafSlot, Page.leafIndex, hlarge]
  cases hlarge : page.large with
  | true =>
    cases hlarge' : other.large with
    | true => exact hsame (hlarge.trans hlarge'.symm)
    | false => exact (hmixed hpage hother hcovers hcovers' hlarge hlarge').elim
  | false =>
    cases hlarge' : other.large with
    | true => exact (hmixed hother hpage hcovers' hcovers hlarge' hlarge).elim
    | false => exact hsame (hlarge.trans hlarge'.symm)

/-- Every link on the way of a page lets through what the page's flags ask for. -/
theorem KernelInv.link_rights (h : KernelInv stock held roots s) (hroot : root ∈ roots)
    (hpage : page ∈ framePages s root) (before : Path) (index : Fin kPageTableEntries)
    (table next : ℕ) (hbefore : before ++ [index] <+: Page.slots page)
    (hdescend : descend link (tables s) root before = some table)
    (hlink : link (tables s table index) = some next) :
    has (tables s table index) PageFlags.present = true ∧
      has (tables s table index) PageFlags.writable = true ∧
      has (tables s table index) PageFlags.noExecute = false ∧
      (has page.flags PageFlags.user = true →
        has (tables s table index) PageFlags.user = true) := by
  have hlength := (Page.length_before_le hbefore).2
  have hentry := entryAt_eq_some.mpr ⟨table, hdescend, (rfl : tables s table index = _)⟩
  have hok := h.forest.entries root hroot before index _ (by omega) hentry
  obtain ⟨hpresent, hhuge, -⟩ := link_eq_some_iff.mp hlink
  obtain ⟨hwritable, hnoExecute⟩ := hok.rights (by omega) hhuge
    (PagingForest.ne_zero_of_link hlink)
  exact ⟨hpresent, hwritable, hnoExecute, fun huser ↦
    h.forest.userLinks root page hpage huser before index _ hbefore hentry⟩

/-- The entries of the walk for a covered address: links with the rights of every link, then the
page's leaf. -/
theorem KernelInv.walkEntries_covered (h : KernelInv stock held roots s) (hroot : root ∈ roots)
    (hpage : page ∈ framePages s root) (hcovers : Page.Covers page address) :
    ∃ links, walkEntries s (tableAddress s.toStatics root) address =
        links ++ [Page.leafEntry page] ∧
      ∀ entry ∈ links, has entry PageFlags.present = true ∧
        has entry PageFlags.writable = true ∧ has entry PageFlags.noExecute = false ∧
        (has page.flags PageFlags.user = true → has entry PageFlags.user = true) := by
  obtain ⟨hadmissible, -⟩ := h.forest.pages_ok root page hpage
  have hcanonical := hcovers.isCanonical hadmissible
  obtain ⟨hslots, hslot⟩ := (Page.covers_iff hadmissible hcanonical).mp hcovers
  obtain ⟨node, hnode, hleaf⟩ := entryAt_eq_some.mp (h.forest.installed root page hpage)
  obtain ⟨hfirst, hsecond, hthird, hfourth⟩ := index_lt address
  have hrootBound := h.root_lt hroot
  have hlinkOk := h.link_rights hroot hpage
  rw [hslots] at hnode hlinkOk
  rw [hslot] at hleaf
  unfold walkEntries
  simp only
  cases hlarge : page.large with
  | true =>
    have hlarge' : ({ page with virt := address } : Page).large = true := hlarge
    rw [Page.slots_large hlarge'] at hnode hlinkOk
    simp only [Page.leafSlot, Page.leafIndex, hlarge, if_true] at hleaf
    obtain ⟨middle, hupper, hlower⟩ := descend_two hnode
    have hnone : link (tables s node (slot (decomposeAddress address).pdIndex)) = none := by
      rw [hleaf]
      exact link_eq_none_of_huge ((Page.has_huge_leafEntry hadmissible).trans hlarge)
    rw [walk_link hrootBound hfirst hupper, walk_link (link_lt hupper) hsecond hlower,
      walk_end (link_lt hlower) hthird (Or.inl hnone), hleaf]
    refine ⟨[_, _], rfl, ?_⟩
    simp only [List.forall_mem_cons, List.not_mem_nil, false_implies, implies_true, and_true]
    have hreach : descend link (tables s) root [slot (decomposeAddress address).pml4Index] =
        some middle := by
      simp [descend, hupper]
    exact ⟨hlinkOk [] _ _ _ ⟨_, rfl⟩ rfl hupper, hlinkOk _ _ _ _ ⟨[], rfl⟩ hreach hlower⟩
  | false =>
    have hsmall' : ({ page with virt := address } : Page).large = false := hlarge
    rw [Page.slots_small hsmall'] at hnode hlinkOk
    simp only [Page.leafSlot, Page.leafIndex, hlarge, Bool.false_eq_true, if_false] at hleaf
    obtain ⟨upper, lower, htop, hmiddle, hbottom⟩ := descend_three hnode
    rw [walk_link hrootBound hfirst htop, walk_link (link_lt htop) hsecond hmiddle,
      walk_link (link_lt hmiddle) hthird hbottom,
      walk_end (link_lt hbottom) hfourth (Or.inr rfl), hleaf]
    refine ⟨[_, _, _], rfl, ?_⟩
    simp only [List.forall_mem_cons, List.not_mem_nil, false_implies, implies_true, and_true]
    have hreach : descend link (tables s) root [slot (decomposeAddress address).pml4Index] =
        some upper := by
      simp [descend, htop]
    have hreach' : descend link (tables s) root [slot (decomposeAddress address).pml4Index,
        slot (decomposeAddress address).pdptIndex] = some lower := by
      simp [descend, htop, hmiddle]
    exact ⟨hlinkOk [] _ _ _ ⟨_, rfl⟩ rfl htop, hlinkOk _ _ _ _ ⟨_, rfl⟩ hreach hmiddle,
      hlinkOk _ _ _ _ ⟨[], rfl⟩ hreach' hbottom⟩

/-- The rights of a covered address are those the page was installed with. -/
theorem KernelInv.rights_covered (h : KernelInv stock held roots s) (hroot : root ∈ roots)
    (hpage : page ∈ framePages s root) (hcovers : Page.Covers page address) :
    effectiveRights s (tableAddress s.toStatics root) address = Rights.ofFlags page.flags ∧
      leafPresent s (tableAddress s.toStatics root) address = true := by
  obtain ⟨links, hwalk, hlinks⟩ := h.walkEntries_covered hroot hpage hcovers
  obtain ⟨hwritable, huser, hnoExecute⟩ := Page.has_rights_leafEntry page
  have hcanonical := hcovers.isCanonical (h.forest.pages_ok root page hpage).1
  have hallPresent : links.all (has · PageFlags.present) = true :=
    List.all_eq_true.mpr fun entry hentry ↦ (hlinks entry hentry).1
  have hallWritable : links.all (has · PageFlags.writable) = true :=
    List.all_eq_true.mpr fun entry hentry ↦ (hlinks entry hentry).2.1
  have hnoneNoExecute : links.any (has · PageFlags.noExecute) = false :=
    List.any_eq_false.mpr fun entry hentry ↦ by simp [(hlinks entry hentry).2.2.1]
  have hallUser : (links.all (has · PageFlags.user) && has page.flags PageFlags.user) =
      has page.flags PageFlags.user := by
    cases hflag : has page.flags PageFlags.user with
    | false => exact Bool.and_false _
    | true =>
      rw [Bool.and_true]
      exact List.all_eq_true.mpr fun entry hentry ↦ (hlinks entry hentry).2.2.2 hflag
  constructor
  · simp only [effectiveRights, Rights.ofFlags, hwalk, List.all_append, List.any_append,
      List.all_cons, List.all_nil, List.any_cons, List.any_nil, hallWritable, hnoneNoExecute,
      hwritable, huser, hnoExecute, Bool.and_true, Bool.true_and, Bool.or_false, Bool.false_or,
      hallUser]
  · simp only [leafPresent, hcanonical, hwalk, List.all_append, List.all_cons, List.all_nil,
      hallPresent, Page.has_present_leafEntry, Bool.and_self]

/-- A present leaf on the way of a canonical address belongs to a page that covers it. -/
theorem KernelInv.exists_covering (h : KernelInv stock held roots s) (hroot : root ∈ roots)
    (hcanonical : isCanonical address = true) (large : Bool) {node : ℕ}
    (hdescend : descend link (tables s) root (Page.slots ⟨address, 0, 0, large⟩) = some node)
    (hleaf : IsLeaf (Page.slots ⟨address, 0, 0, large⟩).length
      (tables s node (Page.leafSlot ⟨address, 0, 0, large⟩))) :
    ∃ page ∈ framePages s root, Page.Covers page address := by
  obtain ⟨page, hpage, hslots, hslot⟩ := h.forest.accounted root hroot _ _ _
    (Page.length_slots_le _) (entryAt_eq_some.mpr ⟨node, hdescend, rfl⟩) hleaf
  refine ⟨page, hpage, (Page.covers_iff (h.forest.pages_ok root page hpage).1 hcanonical).mpr ?_⟩
  have hlarge : page.large = large := by
    have hlength := congrArg List.length hslots
    rw [Page.length_slots, Page.length_slots] at hlength
    cases hsize : page.large <;> cases large <;> simp_all
  rw [hslots, hslot]
  constructor
  · simp only [Page.slots, Page.directory, hlarge]
  · simp only [Page.leafSlot, Page.leafIndex, hlarge]

/-- A present leaf is one of an installed page that covers the address. -/
theorem KernelInv.covered_of_leafPresent (h : KernelInv stock held roots s) (hroot : root ∈ roots)
    (hleaf : leafPresent s (tableAddress s.toStatics root) address = true) :
    ∃ page ∈ framePages s root, Page.Covers page address := by
  rw [leafPresent, Bool.and_eq_true, walkEntries] at hleaf
  obtain ⟨hcanonical, hwalk⟩ := hleaf
  obtain ⟨hfirst, hsecond, hthird, hfourth⟩ := index_lt address
  have hok := fun path index node (hpath : path.length ≤ 3)
      (hdescend : descend link (tables s) root path = some node) ↦
    h.forest.entries root hroot path index _ hpath (entryAt_eq_some.mpr ⟨node, hdescend, rfl⟩)
  -- Level by level: only an entry of a PD or a PT can be a leaf.
  rcases link_of_walk_present (h.root_lt hroot) hfirst hwalk with hhuge | ⟨upper, hupper, hwalk⟩
  · have hlevel := (hok [] _ root (by simp) rfl).huge hhuge
    simp at hlevel
  have hreach : descend link (tables s) root [slot (decomposeAddress address).pml4Index] =
      some upper := by
    simp [descend, hupper]
  rcases link_of_walk_present (link_lt hupper) hsecond hwalk with hhuge | ⟨lower, hlower, hwalk⟩
  · have hlevel := (hok _ _ upper (by simp) hreach).huge hhuge
    simp at hlevel
  have hreach' : descend link (tables s) root (Page.slots ⟨address, 0, 0, true⟩) =
      some lower := by
    simp [Page.slots, Page.directory, descend, hupper, hlower]
  rcases link_of_walk_present (link_lt hlower) hthird hwalk with hhuge | ⟨last, hlast, hwalk⟩
  · exact h.exists_covering hroot hcanonical true hreach' ⟨ne_zero_of_has hhuge, Or.inr hhuge⟩
  have hreach'' : descend link (tables s) root (Page.slots ⟨address, 0, 0, false⟩) =
      some last := by
    simp [Page.slots, Page.directory, descend, hupper, hlower, hlast]
  obtain ⟨hpresent, -⟩ := walk_present_iff.mp hwalk
  rw [load_entryAddress s (link_lt hlast) hfourth] at hpresent
  exact h.exists_covering hroot hcanonical false hreach''
    ⟨ne_zero_of_has (has_eq_true_iff.mpr hpresent), Or.inl rfl⟩

/-- Without a present leaf there is no translation, in any state. -/
theorem translate_of_no_leaf (h : leafPresent s space.pml4 address = false) :
    translate s space address = 0 := by
  have hwalk : ¬ (!isCanonical address) = true →
      ¬ (walkEntries s space.pml4 address).all (has · PageFlags.present) = true := by
    intro hcanonical hall
    rw [Bool.not_eq_true', Bool.not_eq_false] at hcanonical
    rw [leafPresent, hcanonical, hall] at h
    cases h
  unfold translate
  simp only
  -- Where `translate` finds a page, every entry it has read is present.
  split_ifs with hnull hcanonical hfirst hsecond hlarge hthird hhuge hfourth
  · rfl
  · rfl
  · rfl
  · rfl
  · exact (hwalk hcanonical (walk_present_iff.mpr ⟨hfirst, fun _ ↦
      walk_present_iff.mpr ⟨hsecond, fun hsmall ↦ absurd hsmall hlarge⟩⟩)).elim
  · rfl
  · exact (hwalk hcanonical (walk_present_iff.mpr ⟨hfirst, fun _ ↦
      walk_present_iff.mpr ⟨hsecond, fun _ ↦
        walk_present_iff.mpr ⟨hthird, fun hsmall ↦ absurd hsmall hhuge⟩⟩⟩)).elim
  · rfl
  · exact (hwalk hcanonical (walk_present_iff.mpr ⟨hfirst, fun _ ↦
      walk_present_iff.mpr ⟨hsecond, fun _ ↦ walk_present_iff.mpr ⟨hthird, fun _ ↦
        walk_present_iff.mpr ⟨hfourth, fun _ ↦ rfl⟩⟩⟩⟩)).elim

/-- An address no page covers has no present leaf and translates to 0. -/
theorem KernelInv.translate_uncovered (h : KernelInv stock held roots s) (hroot : root ∈ roots)
    (hspace : space.pml4 = tableAddress s.toStatics root)
    (huncovered : ∀ page ∈ framePages s root, ¬ Page.Covers page address) :
    translate s space address = 0 ∧ leafPresent s space.pml4 address = false := by
  have hnoLeaf : leafPresent s space.pml4 address = false := by
    rw [← Bool.not_eq_true, hspace]
    intro hleaf
    obtain ⟨page, hpage, hcovers⟩ := h.covered_of_leafPresent hroot hleaf
    exact huncovered page hpage hcovers
  exact ⟨translate_of_no_leaf hnoLeaf, hnoLeaf⟩

end Covered

end WaterBuffalo.Vmm
