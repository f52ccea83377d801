import WaterBuffalo.Vmm.Tables

/-!
# The forest of page tables

What holds of the tables of all address spaces together, stated over the store of tables and the
pages installed so far.  The paging code changes the store in four ways: it widens the rights of a
link, links a fresh table, writes a leaf, and adds a root.  Each of them keeps the forest; nothing
else about the code is needed for that.
-/

namespace WaterBuffalo.Vmm

open Pmm TableForest

abbrev Store := ℕ → Fin kPageTableEntries → Word

abbrev Path := List (Fin kPageTableEntries)

/-- What an entry can hold at a level, from 0 for a PML4 to 3 for a PT. -/
structure EntryOk (level : ℕ) (entry : Word) : Prop where
  present : entry ≠ 0 → has entry PageFlags.present = true
  huge : has entry PageFlags.huge = true → level = 2
  rights : level < 3 → has entry PageFlags.huge = false → entry ≠ 0 →
    has entry PageFlags.writable = true ∧ has entry PageFlags.noExecute = false

/-- An entry that maps a page. -/
def IsLeaf (level : ℕ) (entry : Word) : Prop :=
  entry ≠ 0 ∧ (level = 3 ∨ has entry PageFlags.huge = true)

/-- Every link along a path has the flag. -/
def LinksHave (store : Store) (root : ℕ) (path : Path) (flag : Word) : Prop :=
  ∀ before index entry, before ++ [index] <+: path →
    entryAt link store root before index = some entry → has entry flag = true

/-- Every table below a root has an entry in use, except possibly the one a path ends in. -/
def PopulatedBut (store : Store) (roots : Set ℕ) (root : ℕ) (path : Path) : Prop :=
  ∀ other ∈ roots, ∀ route node, route ≠ [] → route.length ≤ 3 →
    descend link store other route = some node →
    (∃ index, store node index ≠ 0) ∨ (other = root ∧ route = path)

/-- Every table below a root has an entry in use. -/
def Populated (store : Store) (roots : Set ℕ) : Prop :=
  ∀ other ∈ roots, ∀ route node, route ≠ [] → route.length ≤ 3 →
    descend link store other route = some node → ∃ index, store node index ≠ 0

/-- The tables of all spaces, the frames they are in, and the pages they map. -/
structure PagingForest (store : Store) (roots taken : Set ℕ) (pages : ℕ → Set Page) : Prop where
  unshared : Unshared link store roots 3
  taken_iff : ∀ frame, frame ∈ taken ↔ Reached link store roots 3 frame
  entries : ∀ root ∈ roots, ∀ path index entry, path.length ≤ 3 →
    entryAt link store root path index = some entry → EntryOk path.length entry
  pages_root : ∀ root page, page ∈ pages root → root ∈ roots
  pages_ok : ∀ root, ∀ page ∈ pages root, Page.Admissible page ∧ PageFlags.Named page.flags
  installed : ∀ root, ∀ page ∈ pages root,
    entryAt link store root (Page.slots page) (Page.leafSlot page) = some (Page.leafEntry page)
  accounted : ∀ root ∈ roots, ∀ path index entry, path.length ≤ 3 →
    entryAt link store root path index = some entry → IsLeaf path.length entry →
    ∃ page ∈ pages root, Page.slots page = path ∧ Page.leafSlot page = index
  unique : ∀ root, ∀ page ∈ pages root, ∀ other ∈ pages root,
    Page.slots page = Page.slots other → Page.leafSlot page = Page.leafSlot other → page = other
  userLinks : ∀ root, ∀ page ∈ pages root, has page.flags PageFlags.user = true →
    LinksHave store root (Page.slots page) PageFlags.user

theorem Page.length_slots (page : Page) :
    (Page.slots page).length = if page.large then 2 else 3 := by
  cases hlarge : page.large with
  | true => rw [Page.slots_large hlarge]; rfl
  | false => rw [Page.slots_small hlarge]; rfl

theorem Page.length_slots_le (page : Page) : (Page.slots page).length ≤ 3 := by
  rw [Page.length_slots]
  split <;> decide

/-- A link on the way of a page is in a table above the last level. -/
theorem Page.length_before_le {page : Page} {before : Path} {index : Fin kPageTableEntries}
    (hbefore : before ++ [index] <+: Page.slots page) :
    before.length < (Page.slots page).length ∧ before.length ≤ 2 := by
  have hlength := hbefore.length_le
  have hslots := Page.length_slots_le page
  rw [List.length_append, List.length_singleton] at hlength
  omega

theorem Page.leafEntry_ne_zero (page : Page) : Page.leafEntry page ≠ 0 :=
  ne_zero_of_has (Page.has_present_leafEntry page)

/-- The empty forest. -/
theorem pagingForest_empty (store : Store) (pages : ℕ → Set Page)
    (hpages : ∀ root, pages root = ∅) :
    PagingForest store ∅ ∅ pages := by
  constructor <;> simp_all [Unshared, Reached]

namespace PagingForest

variable {store : Store} {roots taken : Set ℕ} {pages : ℕ → Set Page}

/-- The forest depends on the tables in it only. -/
theorem congr (h : PagingForest store roots taken pages) {changed : Store}
    (hsame : ∀ frame ∈ taken, changed frame = store frame) :
    PagingForest changed roots taken pages := by
  have hreached : ∀ frame, Reached link store roots 3 frame → changed frame = store frame :=
    fun frame hframe ↦ hsame frame ((h.taken_iff frame).mpr hframe)
  have hdescents : ∀ root ∈ roots, ∀ path : Path, path.length ≤ 3 →
      descend link changed root path = descend link store root path :=
    fun root hroot path hpath ↦ descend_congr_of_eqOn hroot hreached hpath
  have hentry : ∀ root ∈ roots, ∀ path index, path.length ≤ 3 →
      entryAt link changed root path index = entryAt link store root path index := by
    intro root hroot path index hpath
    rw [entryAt, entryAt, hdescents root hroot path hpath]
    cases hdescend : descend link store root path with
    | none => rfl
    | some node => rw [Option.map_some, Option.map_some,
        hreached node ⟨root, hroot, path, hpath, hdescend⟩]
  refine ⟨h.unshared.congr hdescents, ?_, ?_, h.pages_root, h.pages_ok, ?_, ?_, h.unique, ?_⟩
  · intro frame
    rw [h.taken_iff, Reached.congr hdescents]
  · intro root hroot path index entry hpath
    rw [hentry root hroot path index hpath]
    exact h.entries root hroot path index entry hpath
  · intro root page hpage
    rw [hentry root (h.pages_root root page hpage) _ _ (Page.length_slots_le page)]
    exact h.installed root page hpage
  · intro root hroot path index entry hpath
    rw [hentry root hroot path index hpath]
    exact h.accounted root hroot path index entry hpath
  · intro root page hpage huser before index entry hbefore
    have hlength := (Page.length_before_le hbefore).2
    rw [hentry root (h.pages_root root page hpage) _ _ (by omega)]
    exact h.userLinks root page hpage huser before index entry hbefore

/-- A page's leaf is not a link, unless it is in a PT. -/
theorem link_leafEntry (h : PagingForest store roots taken pages) {root : ℕ} {page : Page}
    (hpage : page ∈ pages root) (hlength : (Page.slots page).length < 3) :
    link (Page.leafEntry page) = none := by
  apply link_eq_none_of_huge
  rw [Page.has_huge_leafEntry (h.pages_ok root page hpage).1]
  rw [Page.length_slots] at hlength
  split at hlength
  · assumption
  · omega

/-- The table of a page's leaf exists. -/
theorem exists_descend_slots (h : PagingForest store roots taken pages) {root : ℕ} {page : Page}
    (hpage : page ∈ pages root) :
    ∃ node, descend link store root (Page.slots page) = some node := by
  obtain ⟨node, hnode, -⟩ := entryAt_eq_some.mp (h.installed root page hpage)
  exact ⟨node, hnode⟩

/-- No page lies below an entry that is not a link. -/
theorem not_below (h : PagingForest store roots taken pages) {root node : ℕ} {path : Path}
    {index : Fin kPageTableEntries} (hdescend : descend link store root path = some node)
    (hnone : link (store node index) = none) {page : Page} (hpage : page ∈ pages root) :
    ¬ path ++ [index] <+: Page.slots page := by
  intro hbelow
  obtain ⟨target, htarget⟩ := h.exists_descend_slots hpage
  obtain ⟨next, hnext⟩ := exists_descend_before hbelow htarget
  obtain ⟨node', hnode', hlink⟩ := descend_concat_eq_some.mp hnext
  obtain rfl : node = node' := Option.some.inj (hdescend.symm.trans hnode')
  rw [hnone] at hlink
  cases hlink

/-- No page has its leaf in an empty entry. -/
theorem not_leaf_of_zero (h : PagingForest store roots taken pages) {root node : ℕ} {path : Path}
    {index : Fin kPageTableEntries} (hdescend : descend link store root path = some node)
    (hempty : store node index = 0) {page : Page} (hpage : page ∈ pages root)
    (hslots : Page.slots page = path) : Page.leafSlot page ≠ index := by
  intro hslot
  have hleaf := h.installed root page hpage
  rw [hslots, hslot, entryAt, hdescend, Option.map_some, hempty] at hleaf
  exact Page.leafEntry_ne_zero page (Option.some.inj hleaf).symm

/-! ## Widening a link -/

theorem link_widen {entry : Word} {next : ℕ} (h : link entry = some next) (flags : PageFlags) :
    link (entry ||| intermediateFlags flags) = some next := by
  obtain ⟨hpresent, hhuge, rfl⟩ := link_eq_some_iff.mp h
  rw [link_eq_some_iff, has_or, has_or, hpresent, hhuge, has_huge_intermediateFlags, entryFrame,
    pageEntryAddress_or (outsideAddress_intermediateFlags flags)]
  exact ⟨rfl, rfl, rfl⟩

theorem ne_zero_of_link {entry : Word} {next : ℕ} (h : link entry = some next) : entry ≠ 0 := by
  rintro rfl
  simp at h

/-- A widened link is still a link as the forest wants it. -/
theorem entryOk_widen {level : ℕ} {entry : Word} {next : ℕ} (hok : EntryOk level entry)
    (hlevel : level < 3) (hlink : link entry = some next) (flags : PageFlags) :
    EntryOk level (entry ||| intermediateFlags flags) := by
  obtain ⟨hpresent, hhuge, -⟩ := link_eq_some_iff.mp hlink
  have hrights := hok.rights hlevel hhuge (ne_zero_of_link hlink)
  refine ⟨fun _ ↦ ?_, fun hnew ↦ ?_, fun _ _ _ ↦ ⟨?_, ?_⟩⟩
  · rw [has_or, hpresent, Bool.true_or]
  · rw [has_or, hhuge, has_huge_intermediateFlags] at hnew
    cases hnew
  · rw [has_or, hrights.1, Bool.true_or]
  · rw [has_or, hrights.2, has_noExecute_intermediateFlags, Bool.false_or]

/-- A widened link maps no page. -/
theorem not_isLeaf_widen {level : ℕ} {entry : Word} {next : ℕ} (hlevel : level < 3)
    (hlink : link entry = some next) (flags : PageFlags) :
    ¬ IsLeaf level (entry ||| intermediateFlags flags) := by
  obtain ⟨-, hhuge, -⟩ := link_eq_some_iff.mp hlink
  rintro ⟨-, hlast | hnew⟩
  · omega
  · rw [has_or, hhuge, has_huge_intermediateFlags] at hnew
    cases hnew

/-- Adding the rights of a new mapping to a link on its way. -/
theorem widen (h : PagingForest store roots taken pages) {root node next : ℕ} {path : Path}
    {index : Fin kPageTableEntries} (hroot : root ∈ roots) (hpath : path.length < 3)
    (hdescend : descend link store root path = some node)
    (hlink : link (store node index) = some next) (flags : PageFlags) :
    PagingForest (put store node index (store node index ||| intermediateFlags flags)) roots
      taken pages := by
  have hnewLink := (link_widen hlink flags).trans hlink.symm
  have hsame := descend_put_of_child_eq hnewLink
  have hentry : ∀ other ∈ roots, ∀ (route : Path) position, route.length ≤ 3 →
      entryAt link (put store node index (store node index ||| intermediateFlags flags)) other
          route position =
        if other = root ∧ route = path ∧ position = index then
          some (store node index ||| intermediateFlags flags)
        else entryAt link store other route position :=
    fun other hother route position hroute ↦ entryAt_put h.unshared hroot
      (Nat.le_of_lt hpath) hdescend (hsame other route) hother hroute
  have hold : entryAt link store root path index = some (store node index) :=
    entryAt_eq_some.mpr ⟨node, hdescend, rfl⟩
  have hok := h.entries root hroot path index _ (Nat.le_of_lt hpath) hold
  refine ⟨h.unshared.congr fun other _ route _ ↦ hsame other route, ?_, ?_, h.pages_root,
    h.pages_ok, ?_, ?_, h.unique, ?_⟩
  · intro frame
    rw [h.taken_iff, Reached.congr fun other _ route _ ↦ hsame other route]
  · intro other hother route position entry hroute
    rw [hentry other hother route position hroute]
    split_ifs with hkey
    · obtain ⟨rfl, rfl, rfl⟩ := hkey
      rintro ⟨rfl⟩
      exact entryOk_widen hok hpath hlink flags
    · exact h.entries other hother route position entry hroute
  · intro other page hpage
    rw [hentry other (h.pages_root other page hpage) _ _ (Page.length_slots_le page)]
    rw [if_neg]
    · exact h.installed other page hpage
    · rintro ⟨rfl, rfl, rfl⟩
      have hleaf := h.installed other page hpage
      rw [hold, Option.some.injEq] at hleaf
      rw [hleaf, h.link_leafEntry hpage hpath] at hlink
      cases hlink
  · intro other hother route position entry hroute
    rw [hentry other hother route position hroute]
    split_ifs with hkey
    · obtain ⟨rfl, rfl, rfl⟩ := hkey
      rintro ⟨rfl⟩ hleaf
      exact absurd hleaf (not_isLeaf_widen hpath hlink flags)
    · exact h.accounted other hother route position entry hroute
  · intro other page hpage huser before position entry hbefore
    have hlength := (Page.length_before_le hbefore).2
    rw [hentry other (h.pages_root other page hpage) _ _ (by omega)]
    split_ifs with hkey
    · obtain ⟨rfl, rfl, rfl⟩ := hkey
      rintro ⟨rfl⟩
      rw [has_or, h.userLinks other page hpage huser before position _ hbefore hold, Bool.true_or]
    · exact h.userLinks other page hpage huser before position entry hbefore

/-! ## Linking a fresh table -/

/-- The entry `ensure_table` writes for a new table. -/
theorem link_makePageEntry {fresh : ℕ} (hfresh : fresh < 2 ^ 40) (flags : PageFlags) :
    link (makePageEntry (BitVec.ofNat 64 (4096 * fresh)) (intermediateFlags flags)) =
      some fresh := by
  obtain ⟨hpresent, -, -, hhuge, -⟩ := outsideAddress_flag
  have hnat : (BitVec.ofNat 64 (4096 * fresh)).toNat = 4096 * fresh := by
    rw [BitVec.toNat_ofNat]
    omega
  have haddress : BitVec.ofNat 64 (4096 * fresh) &&& ~~~kPhysicalAddressMask = 0 := by
    rw [and_not_mask_eq_zero_iff, hnat]
    omega
  rw [link_eq_some_iff, has_makePageEntry _ _ hpresent, has_makePageEntry _ _ hhuge, entryFrame,
    pageEntryAddress_makePageEntry haddress (outsideAddress_intermediateFlags flags), hnat]
  exact ⟨has_present_intermediateFlags flags, has_huge_intermediateFlags flags, by omega⟩

/-- What `ensure_table` links is a link as the forest wants it. -/
theorem entryOk_makePageEntry (physical : Word) (flags : PageFlags) (level : ℕ) :
    EntryOk level (makePageEntry physical (intermediateFlags flags)) := by
  obtain ⟨hpresent, hwritable, -, hhuge, hnoExecute⟩ := outsideAddress_flag
  refine ⟨fun _ ↦ ?_, fun hnew ↦ ?_, fun _ _ _ ↦ ⟨?_, ?_⟩⟩
  · rw [has_makePageEntry _ _ hpresent, has_present_intermediateFlags]
  · rw [has_makePageEntry _ _ hhuge, has_huge_intermediateFlags] at hnew
    cases hnew
  · rw [has_makePageEntry _ _ hwritable, has_writable_intermediateFlags]
  · rw [has_makePageEntry _ _ hnoExecute, has_noExecute_intermediateFlags]

theorem entryOk_zero (level : ℕ) : EntryOk level 0 := by
  constructor <;> simp

theorem links (h : PagingForest store roots taken pages) {root node fresh : ℕ} {path : Path}
    {index : Fin kPageTableEntries} (hroot : root ∈ roots) (hpath : path.length < 3)
    (hdescend : descend link store root path = some node) (hempty : store node index = 0)
    (hbound : fresh < 2 ^ 40) (hfresh : fresh ∉ taken)
    (hzero : ∀ position, store fresh position = 0) (flags : PageFlags) :
    Links link store roots 3 root path node index
      (makePageEntry (BitVec.ofNat 64 (4096 * fresh)) (intermediateFlags flags)) fresh where
  unshared := h.unshared
  root_mem := hroot
  path_lt := hpath
  descend_eq := hdescend
  unlinked := by
    rw [hempty]
    exact link_zero
  child_eq := link_makePageEntry hbound flags
  notReached := fun hreached ↦ hfresh ((h.taken_iff fresh).mpr hreached)
  childless := by
    intro position
    rw [hzero]
    exact link_zero

/-- Linking a fresh table of zeros below an empty entry. -/
theorem linkFresh (h : PagingForest store roots taken pages) {root node fresh : ℕ} {path : Path}
    {index : Fin kPageTableEntries} (hroot : root ∈ roots) (hpath : path.length < 3)
    (hdescend : descend link store root path = some node) (hempty : store node index = 0)
    (hbound : fresh < 2 ^ 40) (hfresh : fresh ∉ taken)
    (hzero : ∀ position, store fresh position = 0) (flags : PageFlags) :
    PagingForest (put store node index
        (makePageEntry (BitVec.ofNat 64 (4096 * fresh)) (intermediateFlags flags))) roots
      (insert fresh taken) pages := by
  have hlinks := h.links hroot hpath hdescend hempty hbound hfresh hzero flags
  have hnone : link (store node index) = none := hlinks.unlinked
  refine ⟨hlinks.unshared_put, ?_, ?_, h.pages_root, h.pages_ok, ?_, ?_, h.unique, ?_⟩
  · intro frame
    rw [hlinks.reached_put, Set.mem_insert_iff, h.taken_iff, or_comm]
  · intro other hother route position entry hroute
    rw [hlinks.entryAt_put hother hroute]
    split_ifs
    · rintro ⟨rfl⟩
      exact entryOk_makePageEntry _ flags _
    · rintro ⟨rfl⟩
      rw [hzero]
      exact entryOk_zero _
    · exact h.entries other hother route position entry hroute
  · intro other page hpage
    rw [hlinks.entryAt_put (h.pages_root other page hpage) (Page.length_slots_le page)]
    split_ifs with hkey hnew
    · obtain ⟨rfl, hslots, hslot⟩ := hkey
      exact absurd hslot (h.not_leaf_of_zero hdescend hempty hpage hslots)
    · obtain ⟨rfl, hslots⟩ := hnew
      exact absurd (hslots ▸ List.prefix_refl _) (h.not_below hdescend hnone hpage)
    · exact h.installed other page hpage
  · intro other hother route position entry hroute
    rw [hlinks.entryAt_put hother hroute]
    split_ifs with hkey
    · obtain ⟨rfl, rfl, rfl⟩ := hkey
      rintro ⟨rfl⟩ ⟨-, hlevel | hhuge⟩
      · omega
      · have := (entryOk_makePageEntry (BitVec.ofNat 64 (4096 * fresh)) flags 0).huge hhuge
        omega
    · rintro ⟨rfl⟩ ⟨hne, -⟩
      exact absurd (hzero position) hne
    · exact h.accounted other hother route position entry hroute
  · intro other page hpage huser before position entry hbefore
    have hlength := (Page.length_before_le hbefore).2
    rw [hlinks.entryAt_put (h.pages_root other page hpage) (by omega)]
    split_ifs with hkey hnew
    · obtain ⟨rfl, rfl, rfl⟩ := hkey
      exact absurd hbefore (h.not_below hdescend hnone hpage)
    · obtain ⟨rfl, rfl⟩ := hnew
      exact absurd ((List.prefix_append _ _).trans hbefore) (h.not_below hdescend hnone hpage)
    · exact h.userLinks other page hpage huser before position entry hbefore

/-! ## Writing a leaf -/

/-- Writing a leaf changes no descent: a large page's leaf is no link, and a PT is never
descended from. -/
theorem descend_install (h : PagingForest store roots taken pages) {root node : ℕ} {page : Page}
    (hroot : root ∈ roots) (hpage : Page.Admissible page)
    (hdescend : descend link store root (Page.slots page) = some node)
    (hempty : store node (Page.leafSlot page) = 0) {other : ℕ} (hother : other ∈ roots)
    {route : Path} (hroute : route.length ≤ 3) :
    descend link (put store node (Page.leafSlot page) (Page.leafEntry page)) other route =
      descend link store other route := by
  cases hlarge : page.large with
  | true =>
    apply descend_put_of_child_eq
    rw [hempty, link_eq_none_of_huge ((Page.has_huge_leafEntry hpage).trans hlarge)]
    exact link_zero.symm
  | false =>
    apply descend_put_of_not_above 3 _ hroute
    intro path hpath hmeets
    obtain ⟨-, rfl⟩ := h.unshared hother hroot (Nat.le_of_lt hpath) (Page.length_slots_le page)
      hmeets hdescend
    rw [Page.length_slots, hlarge] at hpath
    exact absurd hpath (by decide)

/-- Writing a leaf changes the entry of its page and no other. -/
theorem entryAt_install (h : PagingForest store roots taken pages) {root node : ℕ} {page : Page}
    (hroot : root ∈ roots) (hpage : Page.Admissible page)
    (hdescend : descend link store root (Page.slots page) = some node)
    (hempty : store node (Page.leafSlot page) = 0) {other : ℕ} (hother : other ∈ roots)
    {route : Path} (position : Fin kPageTableEntries) (hroute : route.length ≤ 3) :
    entryAt link (put store node (Page.leafSlot page) (Page.leafEntry page)) other route position =
      if other = root ∧ route = Page.slots page ∧ position = Page.leafSlot page then
        some (Page.leafEntry page)
      else entryAt link store other route position := by
  have hsame := h.descend_install hroot hpage hdescend hempty hother hroute
  exact entryAt_put h.unshared hroot (Page.length_slots_le page) hdescend hsame hother hroute

/-- No other page has its leaf in the slot of a page that can be installed. -/
theorem unique_install (h : PagingForest store roots taken pages) {root node : ℕ} {page : Page}
    (hdescend : descend link store root (Page.slots page) = some node)
    (hempty : store node (Page.leafSlot page) = 0) {added : ℕ → Set Page}
    (hadded : ∀ other installed, installed ∈ added other ↔
      installed ∈ pages other ∨ (other = root ∧ installed = page))
    (other : ℕ) (first : Page) (hfirst : first ∈ added other) (second : Page)
    (hsecond : second ∈ added other) (hslots : Page.slots first = Page.slots second)
    (hslot : Page.leafSlot first = Page.leafSlot second) : first = second := by
  have hvacant : ∀ old ∈ pages root, Page.slots old = Page.slots page →
      Page.leafSlot old ≠ Page.leafSlot page :=
    fun old hold hsame ↦ h.not_leaf_of_zero hdescend hempty hold hsame
  rcases (hadded other first).mp hfirst with hold | ⟨rfl, rfl⟩
  · rcases (hadded other second).mp hsecond with hold' | ⟨rfl, rfl⟩
    · exact h.unique other first hold second hold' hslots hslot
    · exact absurd hslot (hvacant first hold hslots)
  · rcases (hadded other second).mp hsecond with hold' | ⟨-, rfl⟩
    · exact absurd hslot.symm (hvacant second hold' hslots.symm)
    · rfl

/-- A leaf is an entry as the forest wants it at its level. -/
theorem entryOk_leafEntry {page : Page} (hpage : Page.Admissible page) :
    EntryOk (Page.slots page).length (Page.leafEntry page) := by
  have hlength := Page.length_slots page
  have hhuge := Page.has_huge_leafEntry hpage
  refine ⟨fun _ ↦ Page.has_present_leafEntry page, fun hnew ↦ ?_, fun hlevel hsmall _ ↦ ?_⟩
  · rw [hhuge] at hnew
    rw [hlength, if_pos hnew]
  · rw [hhuge] at hsmall
    rw [hlength, hsmall] at hlevel
    exact absurd hlevel (by decide)

/-- Installing an admissible page at an empty leaf. -/
theorem install (h : PagingForest store roots taken pages) {root node : ℕ} {page : Page}
    (hroot : root ∈ roots) (hpage : Page.Admissible page) (hflags : PageFlags.Named page.flags)
    (hdescend : descend link store root (Page.slots page) = some node)
    (hempty : store node (Page.leafSlot page) = 0)
    (huserLinks : has page.flags PageFlags.user = true →
      LinksHave store root (Page.slots page) PageFlags.user)
    {added : ℕ → Set Page}
    (hadded : ∀ other installed, installed ∈ added other ↔
      installed ∈ pages other ∨ (other = root ∧ installed = page)) :
    PagingForest (put store node (Page.leafSlot page) (Page.leafEntry page)) roots taken added := by
  have hnone : link (store node (Page.leafSlot page)) = none := by
    rw [hempty]
    exact link_zero
  have hsame : ∀ other ∈ roots, ∀ route : Path, route.length ≤ 3 →
      descend link (put store node (Page.leafSlot page) (Page.leafEntry page)) other route =
        descend link store other route :=
    fun other hother route hroute ↦ h.descend_install hroot hpage hdescend hempty hother hroute
  have haddedRoot : ∀ other installed, installed ∈ added other → other ∈ roots := by
    intro other installed hinstalled
    rcases (hadded other installed).mp hinstalled with hold | ⟨rfl, -⟩
    · exact h.pages_root other installed hold
    · exact hroot
  refine ⟨h.unshared.congr hsame, ?_, ?_, haddedRoot, ?_, ?_, ?_,
    h.unique_install hdescend hempty hadded, ?_⟩
  · intro frame
    rw [h.taken_iff, Reached.congr hsame]
  · intro other hother route position entry hroute
    rw [h.entryAt_install hroot hpage hdescend hempty hother position hroute]
    split_ifs with hkey
    · obtain ⟨rfl, rfl, rfl⟩ := hkey
      rintro ⟨rfl⟩
      exact entryOk_leafEntry hpage
    · exact h.entries other hother route position entry hroute
  · intro other installed hinstalled
    rcases (hadded other installed).mp hinstalled with hold | ⟨-, rfl⟩
    · exact h.pages_ok other installed hold
    · exact ⟨hpage, hflags⟩
  · intro other installed hinstalled
    rw [h.entryAt_install hroot hpage hdescend hempty (haddedRoot other installed hinstalled) _
      (Page.length_slots_le installed)]
    rcases (hadded other installed).mp hinstalled with hold | ⟨rfl, rfl⟩
    · rw [if_neg]
      · exact h.installed other installed hold
      · rintro ⟨rfl, hslots, hslot⟩
        exact h.not_leaf_of_zero hdescend hempty hold hslots hslot
    · rw [if_pos ⟨rfl, rfl, rfl⟩]
  · intro other hother route position entry hroute
    rw [h.entryAt_install hroot hpage hdescend hempty hother position hroute]
    split_ifs with hkey
    · obtain ⟨rfl, rfl, rfl⟩ := hkey
      intro _ _
      exact ⟨page, (hadded other page).mpr (Or.inr ⟨rfl, rfl⟩), rfl, rfl⟩
    · intro hold hleaf
      obtain ⟨installed, hinstalled, hslots⟩ :=
        h.accounted other hother route position entry hroute hold hleaf
      exact ⟨installed, (hadded other installed).mpr (Or.inl hinstalled), hslots⟩
  · intro other installed hinstalled huser before position entry hbefore
    obtain ⟨hshorter, hlength⟩ := Page.length_before_le hbefore
    rw [h.entryAt_install hroot hpage hdescend hempty (haddedRoot other installed hinstalled) _
      (by omega)]
    rcases (hadded other installed).mp hinstalled with hold | ⟨rfl, rfl⟩
    · rw [if_neg]
      · exact h.userLinks other installed hold huser before position entry hbefore
      · rintro ⟨rfl, rfl, rfl⟩
        exact h.not_below hdescend hnone hold hbefore
    · rw [if_neg]
      · exact huserLinks huser before position entry hbefore
      · rintro ⟨-, rfl, -⟩
        omega

/-! ## A new root -/

theorem roots_subset_taken (h : PagingForest store roots taken pages) {root : ℕ}
    (hroot : root ∈ roots) : root ∈ taken :=
  (h.taken_iff root).mpr ⟨root, hroot, [], Nat.zero_le _, rfl⟩

/-- Adding a fresh table of zeros as a root. -/
theorem addRoot (h : PagingForest store roots taken pages) {fresh : ℕ} (hfresh : fresh ∉ taken)
    (hzero : ∀ position, store fresh position = 0) :
    PagingForest store (insert fresh roots) (insert fresh taken) pages := by
  have hchildless : ∀ position, link (store fresh position) = none := by
    intro position
    rw [hzero]
    exact link_zero
  have hempty : ∀ path index entry, entryAt link store fresh path index = some entry →
      path = [] ∧ entry = 0 := by
    intro path index entry hentry
    obtain ⟨node, hnode, rfl⟩ := entryAt_eq_some.mp hentry
    obtain ⟨rfl, rfl⟩ := (descend_of_childless hchildless).mp hnode
    exact ⟨rfl, hzero index⟩
  refine ⟨h.unshared.insert_root hchildless
      fun hreached ↦ hfresh ((h.taken_iff fresh).mpr hreached),
    ?_, ?_, ?_, h.pages_ok, h.installed, ?_, h.unique, h.userLinks⟩
  · intro frame
    rw [reached_insert_root hchildless, Set.mem_insert_iff, h.taken_iff, or_comm]
  · rintro root (rfl | hroot) path index entry hpath hentry
    · obtain ⟨-, rfl⟩ := hempty path index entry hentry
      exact entryOk_zero _
    · exact h.entries root hroot path index entry hpath hentry
  · intro root page hpage
    exact Or.inr (h.pages_root root page hpage)
  · rintro root (rfl | hroot) path index entry hpath hentry hleaf
    · exact absurd (hempty path index entry hentry).2 hleaf.1
    · exact h.accounted root hroot path index entry hpath hentry hleaf

end PagingForest

/-! ## Rights along a path -/

theorem linksHave_nil (store : Store) (root : ℕ) (flag : Word) : LinksHave store root [] flag := by
  intro before index entry hbefore
  have hlength := hbefore.length_le
  simp at hlength

/-- Following one more link that has the flag. -/
theorem LinksHave.extend {store changed : Store} {root : ℕ} {path : Path}
    {index : Fin kPageTableEntries} {flag : Word} (h : LinksHave store root path flag)
    (hold : ∀ before position, before.length < path.length →
      entryAt link changed root before position = entryAt link store root before position)
    (hnew : ∀ entry, entryAt link changed root path index = some entry → has entry flag = true) :
    LinksHave changed root (path ++ [index]) flag := by
  intro before position entry hbefore hentry
  rcases List.prefix_concat_iff.mp hbefore with hlast | hearlier
  · obtain ⟨rfl, hposition⟩ := List.append_inj' hlast rfl
    obtain rfl : position = index := by simpa using hposition
    exact hnew entry hentry
  · have hlength := hearlier.length_le
    rw [List.length_append, List.length_singleton] at hlength
    rw [hold before position (by omega)] at hentry
    exact h before position entry hearlier hentry

/-! ## Populated tables -/

section Populated

variable {store : Store} {roots : Set ℕ} {root node : ℕ} {path : Path}
  {index : Fin kPageTableEntries}

theorem populatedBut_nil_iff (root : ℕ) :
    PopulatedBut store roots root [] ↔ Populated store roots := by
  constructor
  · intro h other hother route target hroute hlength hdescend
    exact (h other hother route target hroute hlength hdescend).resolve_right
      fun hkey ↦ hroute hkey.2
  · intro h other hother route target hroute hlength hdescend
    exact Or.inl (h other hother route target hroute hlength hdescend)

/-- The exempted table turns out to have an entry in use. -/
theorem PopulatedBut.populated (index : Fin kPageTableEntries)
    (h : PopulatedBut store roots root path) (hdescend : descend link store root path = some node)
    (hne : store node index ≠ 0) :
    Populated store roots := by
  intro other hother route target hroute hlength htarget
  rcases h other hother route target hroute hlength htarget with hentry | ⟨rfl, rfl⟩
  · exact hentry
  · obtain rfl : node = target := Option.some.inj (hdescend.symm.trans htarget)
    exact ⟨index, hne⟩

/-- Putting an entry in use into the exempted table, with no new table. -/
theorem PopulatedBut.write {entry : Word} (h : PopulatedBut store roots root path)
    (hdescend : descend link store root path = some node) (hne : entry ≠ 0)
    (hsame : ∀ other ∈ roots, ∀ route : Path, route.length ≤ 3 →
      descend link (put store node index entry) other route = descend link store other route) :
    Populated (put store node index entry) roots := by
  intro other hother route target hroute hlength htarget
  rw [hsame other hother route hlength] at htarget
  by_cases hnode : target = node
  · subst hnode
    exact ⟨index, by rwa [put_self]⟩
  · rcases h other hother route target hroute hlength htarget with ⟨position, hold⟩ | ⟨rfl, rfl⟩
    · exact ⟨position, by rwa [put_of_ne fun heq ↦ hnode heq.1]⟩
    · exact absurd (Option.some.inj (htarget.symm.trans hdescend)) hnode

/-- Linking a fresh table below the exempted one: now the fresh one is exempted. -/
theorem PopulatedBut.linkFresh {entry : Word} {fresh : ℕ} (h : PopulatedBut store roots root path)
    (hlinks : Links link store roots 3 root path node index entry fresh) (hne : entry ≠ 0) :
    PopulatedBut (put store node index entry) roots root (path ++ [index]) := by
  intro other hother route target hroute hlength htarget
  rcases (hlinks.descend_put hother hlength).mp htarget with hold | ⟨rfl, rfl, -⟩
  · refine Or.inl ?_
    by_cases hnode : target = node
    · subst hnode
      exact ⟨index, by rwa [put_self]⟩
    · rcases h other hother route target hroute hlength hold with ⟨position, hentry⟩ | ⟨rfl, rfl⟩
      · exact ⟨position, by rwa [put_of_ne fun heq ↦ hnode heq.1]⟩
      · exact absurd (Option.some.inj (hold.symm.trans hlinks.descend_eq)) hnode
  · exact Or.inr ⟨rfl, rfl⟩

theorem PopulatedBut.congr {changed : Store} (h : PopulatedBut store roots root path)
    (hsame : ∀ frame, Reached link store roots 3 frame → changed frame = store frame) :
    PopulatedBut changed roots root path := by
  intro other hother route target hroute hlength htarget
  rw [descend_congr_of_eqOn hother hsame hlength] at htarget
  rw [hsame target ⟨other, hother, route, hlength, htarget⟩]
  exact h other hother route target hroute hlength htarget

/-- A fresh root is not below a root. -/
theorem Populated.addRoot {fresh : ℕ} (h : Populated store roots)
    (hzero : ∀ position, store fresh position = 0) : Populated store (insert fresh roots) := by
  rintro other (rfl | hother) route target hroute hlength htarget
  · have hchildless : ∀ position, link (store other position) = none := by
      intro position
      rw [hzero]
      exact link_zero
    exact absurd ((descend_of_childless hchildless).mp htarget).1 hroute
  · exact h other hother route target hroute hlength htarget

end Populated

end WaterBuffalo.Vmm
