import WaterBuffalo.Vmm.Boot

/-!
# What a call installs

The map of the installed pages is read off the events that page calls record.  What one call adds
to it is the same in every state and for all arguments: a page call adds its page if it returns
true and nothing otherwise, and a range call adds the pages before the first one that is refused.
So a page is installed after a history exactly if some call of the history has mapped it.
-/

namespace WaterBuffalo.Vmm

open Pmm

/-! ## Page calls -/

section PageCalls

variable (s : State) (table : Word)

theorem allocateTable_installed : installed (allocateTable s).2 table = installed s table := by
  unfold allocateTable
  simp only
  split_ifs
  · exact (allocFrame_ghost s).2 table
  · rw [installed_record_tableTaken, (clearTable_ghost _ _).2, (allocFrame_ghost s).2]

theorem ensureTable_installed (entry : Word) (middleFlags : PageFlags) :
    installed (ensureTable s entry middleFlags).2 table = installed s table := by
  have halloc := allocateTable_installed s table
  unfold ensureTable
  split_ifs
  · rfl
  · split
    · rename_i later heq
      rw [heq] at halloc
      exact halloc
    · rename_i taken later heq
      rw [heq] at halloc
      rw [installed_store]
      exact halloc
  · rw [installed_store]

/-- A walk installs no page, by induction over its levels. -/
theorem ensurePath_installed (middleFlags : PageFlags) (pointer : Word)
    (indices : List (BitVec 16)) :
    installed (ensurePath middleFlags s pointer indices).2 table = installed s table := by
  induction indices generalizing s pointer with
  | nil => rfl
  | cons index indices ih =>
    have hstep := ensureTable_installed s table (entryAddress pointer index) middleFlags
    simp only [ensurePath]
    split_ifs
    · exact hstep
    · rw [ih, hstep]

/-- A page call adds its page exactly if it returns true. -/
theorem mapOne_installed (pml4 : Word) (page : Page) :
    installed (mapOne s pml4 page).2 table =
      (if (mapOne s pml4 page).1 = true ∧ pml4 = table then [page] else []) ++
        installed s table := by
  have hwalk := ensurePath_installed s table (intermediateFlags page.flags) pml4
    (Page.directory page)
  unfold mapOne installLeaf
  simp only
  split_ifs with hrefused hmissing hpresent hsame hsame
  all_goals simp_all [installed_record_mapped]

end PageCalls

/-! ## Range calls -/

/-- The pages that the loop of a range call maps before the first one that is refused. -/
def mappedPages (pml4 : Word) : List Page → State → List Page
  | [], _ => []
  | page :: pages, s =>
    match mapOne s pml4 page with
    | (true, s) => page :: mappedPages pml4 pages s
    | (false, _) => []

section Loop

variable (pml4 : Word) (pages : List Page) (s : State)

/-- The loop adds the pages it has mapped, whether it goes through or stops. -/
theorem mapPages_installed (table : Word) :
    installed (mapPages pml4 pages s).2 table =
      (if pml4 = table then (mappedPages pml4 pages s).reverse else []) ++ installed s table := by
  induction pages generalizing s with
  | nil => simp [mapPages, mappedPages]
  | cons page pages ih =>
    have hone := mapOne_installed s table pml4 page
    rw [mapPages, mappedPages]
    generalize mapOne s pml4 page = result at hone
    obtain ⟨returned, later⟩ := result
    cases returned with
    | false => simpa using hone
    | true =>
      simp only [true_and] at hone
      rw [ih later, hone]
      split_ifs
      · rw [List.reverse_cons, List.append_assoc]
      · rfl

/-- The loop returns true exactly if it has mapped all its pages. -/
theorem exists_pages_eq_mappedPages_append :
    ∃ rest, pages = mappedPages pml4 pages s ++ rest ∧
      ((mapPages pml4 pages s).1 = true ↔ rest = []) := by
  induction pages generalizing s with
  | nil => exact ⟨[], rfl, by simp [mapPages]⟩
  | cons page pages ih =>
    rw [mapPages, mappedPages]
    obtain ⟨returned, later⟩ := mapOne s pml4 page
    cases returned with
    | false => exact ⟨page :: pages, rfl, by simp⟩
    | true =>
      obtain ⟨rest, hpages, hreturned⟩ := ih later
      refine ⟨rest, ?_, hreturned⟩
      rw [List.cons_append, ← hpages]

end Loop

/-! ## All calls -/

namespace PagingCall

/-- The table the call maps in. -/
def table : PagingCall → Option Word
  | .createAddressSpace _ => none
  | .mapPage pml4 _ _ _ => some pml4
  | .mapPageLarge pml4 _ _ _ => some pml4
  | .mapRange space _ _ _ _ => some space.pml4
  | .mapRangeLarge space _ _ _ _ => some space.pml4

/-- The pages the call asks for. -/
def pages : PagingCall → List Page
  | .createAddressSpace _ => []
  | .mapPage _ virt phys flags => [⟨virt, phys, flags, false⟩]
  | .mapPageLarge _ virt phys flags => [⟨virt, phys, flags, true⟩]
  | .mapRange _ virt phys size flags => rangePages virt phys size flags false
  | .mapRangeLarge _ virt phys size flags => rangePages virt phys size flags true

/-- The pages a range call maps. -/
def mappedRange (s : State) (space : AddressSpace) (virt phys size : Word) (flags : PageFlags)
    (large : Bool) : List Page :=
  if space.pml4 = 0 ∨ ¬ RangeAdmissible virt phys size large then []
  else mappedPages space.pml4 (rangePages virt phys size flags large) s

/-- The pages the call maps. -/
def mapped (s : State) : PagingCall → List Page
  | .createAddressSpace _ => []
  | .mapPage pml4 virt phys flags => mappedPages pml4 [⟨virt, phys, flags, false⟩] s
  | .mapPageLarge pml4 virt phys flags => mappedPages pml4 [⟨virt, phys, flags, true⟩] s
  | .mapRange space virt phys size flags => mappedRange s space virt phys size flags false
  | .mapRangeLarge space virt phys size flags => mappedRange s space virt phys size flags true

/-- A page call is a loop over one page. -/
theorem mapPages_singleton (pml4 : Word) (page : Page) (s : State) :
    mapPages pml4 [page] s = mapOne s pml4 page := by
  rw [mapPages]
  obtain ⟨returned, later⟩ := mapOne s pml4 page
  cases returned <;> rfl

theorem createAddressSpace_installed (s : State) (out : AddressSpace) (other : Word) :
    installed (Vmm.createAddressSpace s out).2.2 other = installed s other := by
  have halloc := allocateTable_installed s other
  unfold Vmm.createAddressSpace
  split
  all_goals
    rename_i heq
    rw [heq] at halloc
    exact halloc

theorem mapAll_installed (s : State) (space : AddressSpace) (virt phys size : Word)
    (flags : PageFlags) (large : Bool) (other : Word) :
    installed (mapAll s space virt phys size flags large).2 other =
      (if space.pml4 = other then (mappedRange s space virt phys size flags large).reverse
        else []) ++ installed s other := by
  unfold mapAll mappedRange
  split_ifs <;> simp_all [mapPages_installed]

/-- **What a call installs**, in every state and for all arguments. -/
theorem perform_installed (s : State) (call : PagingCall) (other : Word) :
    installed (call.perform s).state other =
      (if call.table = some other then (call.mapped s).reverse else []) ++ installed s other := by
  cases call with
  | createAddressSpace out => exact createAddressSpace_installed s out other
  | mapPage pml4 virt phys flags =>
    simp only [perform, table, mapped, mapPage_eq, ← mapPages_singleton, mapPages_installed,
      Option.some.injEq]
  | mapPageLarge pml4 virt phys flags =>
    simp only [perform, table, mapped, mapPageLarge_eq, ← mapPages_singleton, mapPages_installed,
      Option.some.injEq]
  | mapRange space virt phys size flags =>
    simp only [perform, table, mapped, mapRange_eq, mapAll_installed, Option.some.injEq]
  | mapRangeLarge space virt phys size flags =>
    simp only [perform, table, mapped, mapRangeLarge_eq, mapAll_installed, Option.some.injEq]

/-- The pages that are mapped begin the pages asked for, and they are all of them exactly if the
call returns true. -/
structure Fills (asked mapped : List Page) (returned : Bool) : Prop where
  begins : mapped <+: asked
  all : returned = true → mapped = asked
  missing : returned = false → asked ≠ [] → mapped ≠ asked

theorem mappedPages_fills (pml4 : Word) (pages : List Page) (s : State) :
    Fills pages (mappedPages pml4 pages s) (mapPages pml4 pages s).1 := by
  obtain ⟨rest, hpages, hreturned⟩ := exists_pages_eq_mappedPages_append pml4 pages s
  refine ⟨⟨rest, hpages.symm⟩, fun htrue ↦ ?_, fun hfalse _ hall ↦ ?_⟩
  · rw [hreturned.mp htrue, List.append_nil] at hpages
    exact hpages.symm
  · have hrest : rest = [] := by
      rw [hall] at hpages
      exact List.append_right_eq_self.mp hpages.symm
    rw [hreturned.mpr hrest] at hfalse
    cases hfalse

theorem mappedRange_fills (s : State) (space : AddressSpace) (virt phys size : Word)
    (flags : PageFlags) (large : Bool) :
    Fills (rangePages virt phys size flags large)
      (mappedRange s space virt phys size flags large)
      (mapAll s space virt phys size flags large).1 := by
  unfold mappedRange mapAll
  split_ifs
  · exact ⟨List.nil_prefix, fun hfalse ↦ Bool.noConfusion hfalse, fun _ hasked ↦ hasked.symm⟩
  · exact mappedPages_fills _ _ _

theorem mapped_fills (s : State) (call : PagingCall) :
    Fills call.pages (call.mapped s) (call.perform s).returned := by
  cases call with
  | createAddressSpace out => exact ⟨List.nil_prefix, fun _ ↦ rfl, fun _ hasked ↦ absurd rfl hasked⟩
  | mapPage pml4 virt phys flags =>
    simp only [perform, mapPage_eq, ← mapPages_singleton]
    exact mappedPages_fills _ _ _
  | mapPageLarge pml4 virt phys flags =>
    simp only [perform, mapPageLarge_eq, ← mapPages_singleton]
    exact mappedPages_fills _ _ _
  | mapRange space virt phys size flags =>
    simp only [perform, mapRange_eq]
    exact mappedRange_fills _ _ _ _ _ _ _
  | mapRangeLarge space virt phys size flags =>
    simp only [perform, mapRangeLarge_eq]
    exact mappedRange_fills _ _ _ _ _ _ _

end PagingCall

/-! ## Histories -/

theorem freed_installed (s : State) (address table : Word) :
    installed (freed s address) table = installed s table := by
  unfold freed freeFrame
  simp only
  split
  · rename_i later hok
    split_ifs at hok
    cases hok
    exact installed_store s _ _ table
  · rfl

theorem client_step_installed (client : Client) (call : Call) (table : Word) :
    installed (client.step call).state table = installed client.state table := by
  cases call with
  | alloc => exact (allocFrame_ghost client.state).2 table
  | free address => exact freed_installed client.state address table

/-- The call of the history, if it is a paging call, has mapped the page in the table. -/
def Operation.Maps (s : State) (table : Word) (page : Page) : Operation → Prop
  | .paging call => call.table = some table ∧ page ∈ call.mapped s
  | .client _ => False

theorem mem_installed_step (world : World) (operation : Operation) (table : Word) (page : Page) :
    page ∈ installed (world.step operation).state table ↔
      page ∈ installed world.state table ∨ operation.Maps world.state table page := by
  cases operation with
  | paging call =>
    have hstep := call.perform_installed world.state table
    change page ∈ installed (call.perform world.state).state table ↔ _
    rw [hstep, List.mem_append, or_comm]
    refine or_congr_right ?_
    rw [Operation.Maps]
    split_ifs with htable
    · rw [List.mem_reverse, and_iff_right htable]
    · exact iff_of_false List.not_mem_nil fun hmaps ↦ htable hmaps.1
  | client call =>
    have hstep := client_step_installed world.toClient call table
    change page ∈ installed (world.toClient.step call).state table ↔ _
    rw [hstep, Operation.Maps, or_false]

/-- **What is installed is what was mapped.** After any history whatsoever, a page is installed in
a table exactly if some call of the history on that table has mapped it; and every call maps the
pages it asks for up to the first one that is refused, all of them exactly if it returns true. -/
theorem installed_history {regions : List MemoryRegion} {hhdmOffset : Word} {memory : Memory}
    {s : State} (hinit : init regions hhdmOffset memory = .ok s) (operations : List Operation) :
    (∀ table page,
      page ∈ installed (Run.final World.step (World.start s) operations).state table ↔
        ∃ earlier operation later, operations = earlier ++ operation :: later ∧
          operation.Maps (Run.final World.step (World.start s) earlier).state table page) ∧
    ∀ (before : State) (call : PagingCall),
      PagingCall.Fills call.pages (call.mapped before) (call.perform before).returned := by
  refine ⟨fun table page ↦ ?_, fun before call ↦ call.mapped_fills before⟩
  -- The last call of the history puts its pages in front of those of the others.
  induction operations using List.reverseRecOn with
  | nil =>
    have hnone : installed s table = [] := by
      rw [installed, (init_spec hinit).2.2.1, List.filterMap_nil]
    simp [World.start, Client.start, hnone]
  | append_singleton operations operation ih =>
    rw [Run.final_append, Run.final_cons, Run.final_nil, mem_installed_step, ih]
    exact (Run.exists_split_concat operations operation).symm

/-- The space that the first call after `init` on `bootMap` creates. -/
def firstSpace : AddressSpace := ⟨0xffff800000002000, 0x2000⟩

def firstPage : Page := ⟨0x400000, 0x8000, PageFlags.noExecute, false⟩

/-- The neighbour, with more rights. -/
def secondPage : Page := ⟨0x401000, 0x9000, PageFlags.writable ||| PageFlags.user, false⟩

/-- Create a space in the first free frame of `bootMap` and map a page in it. -/
def firstCalls : List Operation :=
  [.paging (.createAddressSpace ⟨0, 0⟩),
    .paging (.mapPage 0xffff800000002000 0x400000 0x8000 PageFlags.noExecute)]

/-- Map its neighbour with more rights. -/
def secondCalls : List Operation :=
  [.paging (.mapPage 0xffff800000002000 0x401000 0x9000 (PageFlags.writable ||| PageFlags.user))]

theorem exists_bootMap_run :
    ∃ s, init bootMap 0xffff800000000000 (fun _ ↦ 0) = .ok s ∧
      Run.Legal World.step World.Permits (World.start s) (firstCalls ++ secondCalls) ∧
      Event.exhausted ∉ (Run.final World.step (World.start s)
        (firstCalls ++ secondCalls)).state.trace ∧
      let before := Run.final World.step (World.start s) firstCalls
      let after := Run.final World.step (World.start s) (firstCalls ++ secondCalls)
      firstSpace ∈ before.spaces ∧ firstSpace ∈ after.spaces ∧
        installed before.state firstSpace.pml4 = [firstPage] ∧
        installed after.state firstSpace.pml4 = [secondPage, firstPage] := by
  exact Run.exists_of_succeedsWith (by decide +kernel)

theorem installed_history_bootMap :
    ∃ s, init bootMap 0xffff800000000000 (fun _ ↦ 0) = .ok s ∧
      ∃ earlier operation later, firstCalls ++ secondCalls = earlier ++ operation :: later ∧
        operation.Maps (Run.final World.step (World.start s) earlier).state firstSpace.pml4
          firstPage := by
  obtain ⟨s, hinit, -, -, -, -, -, hinstalled⟩ := exists_bootMap_run
  refine ⟨s, hinit, ((installed_history hinit (firstCalls ++ secondCalls)).1 _ _).mp ?_⟩
  rw [hinstalled]
  exact List.mem_cons_of_mem _ List.mem_cons_self

end WaterBuffalo.Vmm
