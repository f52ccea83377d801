import Mathlib.Data.Set.Insert
import Mathlib.Data.List.Induction

/-!
# Forests of tables in a shared store

A store maps every node to a table of entries, and some entries link to another node.  A path of
indices descends from a root by following links.  The forest is unshared up to a depth when two
descents of at most that length meet only if they start at the same root and follow the same path.

The lemmas say what one assignment to one entry does to every descent: nothing when the link it
held stays or when descents do not read it, and one new node when an entry that held no link is
made to point at a fresh node without links.  Nothing here depends on what entries are.
-/

namespace WaterBuffalo.TableForest

variable {Node Index Entry : Type*} (child : Entry → Option Node)

/-- Follow the links along a path. -/
def descend (store : Node → Index → Entry) : Node → List Index → Option Node
  | node, [] => some node
  | node, index :: path => (child (store node index)).bind fun next ↦ descend store next path

/-- Assign one entry. -/
def put [DecidableEq Node] [DecidableEq Index] (store : Node → Index → Entry) (node : Node)
    (index : Index) (entry : Entry) : Node → Index → Entry :=
  fun other position ↦ if other = node ∧ position = index then entry else store other position

/-- Two descents of at most `depth` steps meet only if they are the same descent. -/
def Unshared (store : Node → Index → Entry) (roots : Set Node) (depth : ℕ) : Prop :=
  ∀ ⦃root other : Node⦄ ⦃path route : List Index⦄ ⦃node : Node⦄, root ∈ roots → other ∈ roots →
    path.length ≤ depth → route.length ≤ depth → descend child store root path = some node →
    descend child store other route = some node → root = other ∧ path = route

/-- The nodes a descent of at most `depth` steps ends in. -/
def Reached (store : Node → Index → Entry) (roots : Set Node) (depth : ℕ) (node : Node) : Prop :=
  ∃ root ∈ roots, ∃ path : List Index, path.length ≤ depth ∧
    descend child store root path = some node

/-- The entry at the end of a path. -/
def entryAt (store : Node → Index → Entry) (root : Node) (path : List Index) (index : Index) :
    Option Entry :=
  (descend child store root path).map fun node ↦ store node index

/-- The entry is one of the links a descent from `node` along `path` follows. -/
def Follows (store : Node → Index → Entry) (node : Node) (path : List Index) (table : Node)
    (index : Index) : Prop :=
  ∃ before next, before ++ [index] <+: path ∧ descend child store node before = some table ∧
    child (store table index) = some next

variable {child}
variable {store : Node → Index → Entry} {roots : Set Node} {depth : ℕ}

@[simp] theorem descend_nil (root : Node) : descend child store root [] = some root := rfl

theorem descend_append (root : Node) (path route : List Index) :
    descend child store root (path ++ route) =
      (descend child store root path).bind fun node ↦ descend child store node route := by
  induction path generalizing root with
  | nil => rfl
  | cons index path ih =>
    rw [List.cons_append, descend, descend, Option.bind_assoc]
    exact congrArg (Option.bind _) (funext fun next ↦ ih next)

/-- The last step of a descent. -/
theorem descend_concat_eq_some {root target : Node} {path : List Index} {index : Index} :
    descend child store root (path ++ [index]) = some target ↔
      ∃ node, descend child store root path = some node ∧
        child (store node index) = some target := by
  rw [descend_append, Option.bind_eq_some_iff]
  refine exists_congr fun node ↦ and_congr_right fun _ ↦ ?_
  rw [descend, Option.bind_eq_some_iff]
  simp

theorem entryAt_eq_some {root : Node} {path : List Index} {index : Index} {entry : Entry} :
    entryAt child store root path index = some entry ↔
      ∃ node, descend child store root path = some node ∧ store node index = entry :=
  Option.map_eq_some_iff

/-- A descent along a path passes through every node on the way. -/
theorem exists_descend_before {root target : Node} {path route : List Index}
    (hbefore : path <+: route) (h : descend child store root route = some target) :
    ∃ node, descend child store root path = some node := by
  obtain ⟨rest, rfl⟩ := hbefore
  rw [descend_append, Option.bind_eq_some_iff] at h
  obtain ⟨node, hnode, -⟩ := h
  exact ⟨node, hnode⟩

/-- A descent reads only the links along its path. -/
theorem descend_congr {changed : Node → Index → Entry} {root : Node} {path : List Index}
    (h : ∀ before index node, before ++ [index] <+: path →
      descend child store root before = some node →
      child (changed node index) = child (store node index)) :
    descend child changed root path = descend child store root path := by
  induction path using List.reverseRecOn with
  | nil => rfl
  | append_singleton path index ih =>
    have hpath : descend child changed root path = descend child store root path := by
      apply ih
      intro before position node hbefore
      exact h before position node (hbefore.trans (List.prefix_append path [index]))
    rw [descend_append, descend_append, hpath]
    cases hnode : descend child store root path with
    | none => rfl
    | some node =>
      simp only [Option.bind_some, descend]
      rw [h path index node (List.prefix_refl _) hnode]

/-- Stores that agree on every node reached give the same descents. -/
theorem descend_congr_of_eqOn {changed : Node → Index → Entry} {root : Node}
    (hroot : root ∈ roots)
    (h : ∀ node, Reached child store roots depth node → changed node = store node)
    {path : List Index} (hpath : path.length ≤ depth) :
    descend child changed root path = descend child store root path := by
  apply descend_congr
  intro before index node hbefore hnode
  have hlength := hbefore.length_le
  rw [List.length_append] at hlength
  rw [h node ⟨root, hroot, before, by omega, hnode⟩]

theorem not_follows_nil (node table : Node) (index : Index) :
    ¬ Follows child store node [] table index := by
  rintro ⟨before, next, hbefore, -, -⟩
  have hlength := hbefore.length_le
  simp at hlength

/-- The links along a path: the first one, and those below it. -/
theorem follows_cons {node table next : Node} {position index : Index} {path : List Index}
    (hnext : child (store node position) = some next) :
    Follows child store node (position :: path) table index ↔
      (table = node ∧ index = position) ∨ Follows child store next path table index := by
  constructor
  · rintro ⟨before, target, hbefore, hdescend, htarget⟩
    cases before with
    | nil =>
      rw [descend_nil, Option.some.injEq] at hdescend
      rw [List.nil_append, List.cons_prefix_cons] at hbefore
      exact Or.inl ⟨hdescend.symm, hbefore.1⟩
    | cons first before =>
      rw [List.cons_append, List.cons_prefix_cons] at hbefore
      obtain ⟨rfl, hbelow⟩ := hbefore
      rw [descend, hnext, Option.bind_some] at hdescend
      exact Or.inr ⟨before, target, hbelow, hdescend, htarget⟩
  · rintro (⟨rfl, rfl⟩ | ⟨before, target, hbefore, hdescend, htarget⟩)
    · exact ⟨[], next, by simp, rfl, hnext⟩
    · refine ⟨position :: before, target, ?_, ?_, htarget⟩
      · rw [List.cons_append, List.cons_prefix_cons]
        exact ⟨rfl, hbefore⟩
      · rw [descend, hnext, Option.bind_some]
        exact hdescend

/-- An entry that is no link ends the descent. -/
theorem not_follows_of_unlinked {node table : Node} {position index : Index} {path : List Index}
    (hnone : child (store node position) = none) :
    ¬ Follows child store node (position :: path) table index := by
  rintro ⟨before, target, hbefore, hdescend, htarget⟩
  cases before with
  | nil =>
    rw [descend_nil, Option.some.injEq] at hdescend
    rw [List.nil_append, List.cons_prefix_cons] at hbefore
    rw [← hdescend, hbefore.1, hnone] at htarget
    cases htarget
  | cons first before =>
    rw [List.cons_append, List.cons_prefix_cons] at hbefore
    rw [descend, hbefore.1, hnone] at hdescend
    cases hdescend

/-- Which links a descent follows depends on the links only. -/
theorem follows_congr {changed : Node → Index → Entry}
    (hsame : ∀ node index, child (changed node index) = child (store node index))
    {node table : Node} {path : List Index} {index : Index} :
    Follows child changed node path table index ↔ Follows child store node path table index := by
  have hdescend : ∀ route, descend child changed node route = descend child store node route :=
    fun route ↦ descend_congr fun _ position other _ _ ↦ hsame other position
  simp only [Follows, hdescend, hsame]

/-- What is reached depends on the descents only. -/
theorem Reached.congr {changed : Node → Index → Entry}
    (hsame : ∀ root ∈ roots, ∀ path : List Index, path.length ≤ depth →
      descend child changed root path = descend child store root path) (node : Node) :
    Reached child changed roots depth node ↔ Reached child store roots depth node := by
  unfold Reached
  refine exists_congr fun root ↦ and_congr_right fun hroot ↦ exists_congr fun path ↦
    and_congr_right fun hpath ↦ ?_
  rw [hsame root hroot path hpath]

/-- Sharing depends on the descents only. -/
theorem Unshared.congr {changed : Node → Index → Entry}
    (hunshared : Unshared child store roots depth)
    (hsame : ∀ root ∈ roots, ∀ path : List Index, path.length ≤ depth →
      descend child changed root path = descend child store root path) :
    Unshared child changed roots depth := by
  intro root other path route node hroot hother hpath hroute hleft hright
  rw [hsame root hroot path hpath] at hleft
  rw [hsame other hother route hroute] at hright
  exact hunshared hroot hother hpath hroute hleft hright

/-- A descent below a link does not come back to the table the link is in. -/
theorem Unshared.not_follows_above (hunshared : Unshared child store roots depth)
    {root node next : Node} {path rest : List Index} {index : Index} (position : Index)
    (hroot : root ∈ roots) (hlength : path.length + 1 + rest.length ≤ depth)
    (hdescend : descend child store root path = some node)
    (hnext : child (store node index) = some next) :
    ¬ Follows child store next rest node position := by
  rintro ⟨before, target, hbefore, hback, -⟩
  have hbeforeLength := hbefore.length_le
  rw [List.length_append, List.length_singleton] at hbeforeLength
  have hagain : descend child store root (path ++ index :: before) = some node := by
    rw [descend_append, hdescend, Option.bind_some, descend, hnext, Option.bind_some, hback]
  have hlonger : (path ++ index :: before).length ≤ depth := by
    rw [List.length_append, List.length_cons]
    omega
  have hsame := (hunshared hroot hroot (by omega) hlonger hdescend hagain).2
  simp at hsame

/-- The table a descent ends in is not one it has followed a link of. -/
theorem Unshared.not_follows_end (hunshared : Unshared child store roots depth) {root node : Node}
    {path : List Index} {index : Index} (hroot : root ∈ roots) (hlength : path.length ≤ depth)
    (hdescend : descend child store root path = some node) :
    ¬ Follows child store root path node index := by
  rintro ⟨before, target, hbefore, hback, -⟩
  have hbeforeLength := hbefore.length_le
  rw [List.length_append, List.length_singleton] at hbeforeLength
  obtain ⟨-, rfl⟩ := hunshared hroot hroot (by omega) hlength hback hdescend
  omega

section Put

variable [DecidableEq Node] [DecidableEq Index] {node : Node} {index : Index} {entry : Entry}

theorem put_self : put store node index entry node index = entry := by
  simp [put]

theorem put_of_ne {other : Node} {position : Index} (h : ¬ (other = node ∧ position = index)) :
    put store node index entry other position = store other position := by
  simp only [put, h, if_false]

/-- Rewriting an entry without changing its link changes no descent. -/
theorem descend_put_of_child_eq (h : child entry = child (store node index)) (root : Node)
    (path : List Index) :
    descend child (put store node index entry) root path = descend child store root path := by
  apply descend_congr
  intro before position other _ _
  by_cases heq : other = node ∧ position = index
  · obtain ⟨rfl, rfl⟩ := heq
    rw [put_self, h]
  · rw [put_of_ne heq]

/-- Rewriting an entry of a node at the full depth changes no descent up to that depth. -/
theorem descend_put_of_not_above (depth : ℕ) {root : Node}
    (h : ∀ path : List Index, path.length < depth → descend child store root path ≠ some node)
    {path : List Index} (hpath : path.length ≤ depth) :
    descend child (put store node index entry) root path = descend child store root path := by
  apply descend_congr
  intro before position other hbefore hother
  have hlength := hbefore.length_le
  rw [List.length_append, List.length_singleton] at hlength
  rw [put_of_ne]
  rintro ⟨rfl, -⟩
  exact h before (by omega) hother

/-- An assignment that changes no descent changes the entry at the end of one path only. -/
theorem entryAt_put {root other : Node} {path route : List Index} {position : Index}
    (hunshared : Unshared child store roots depth) (hroot : root ∈ roots)
    (hpath : path.length ≤ depth) (hdescend : descend child store root path = some node)
    (hsame : descend child (put store node index entry) other route =
      descend child store other route)
    (hother : other ∈ roots) (hroute : route.length ≤ depth) :
    entryAt child (put store node index entry) other route position =
      if other = root ∧ route = path ∧ position = index then some entry
      else entryAt child store other route position := by
  rw [entryAt, entryAt, hsame]
  cases htarget : descend child store other route with
  | none =>
    have hne : ¬ (other = root ∧ route = path ∧ position = index) := by
      rintro ⟨rfl, rfl, -⟩
      rw [hdescend] at htarget
      cases htarget
    rw [if_neg hne]
    rfl
  | some target =>
    simp only [Option.map_some]
    by_cases hkey : other = root ∧ route = path ∧ position = index
    · obtain ⟨rfl, rfl, rfl⟩ := hkey
      obtain rfl : node = target := Option.some.inj (hdescend.symm.trans htarget)
      rw [if_pos ⟨rfl, rfl, rfl⟩, put_self]
    · rw [if_neg hkey, put_of_ne]
      rintro ⟨rfl, rfl⟩
      obtain ⟨rfl, rfl⟩ := hunshared hother hroot hroute hpath htarget hdescend
      exact hkey ⟨rfl, rfl, rfl⟩

/-- A new link to a fresh node without links of its own. -/
structure Links (child : Entry → Option Node) (store : Node → Index → Entry) (roots : Set Node)
    (depth : ℕ) (root : Node) (path : List Index) (node : Node) (index : Index) (entry : Entry)
    (fresh : Node) : Prop where
  unshared : Unshared child store roots depth
  root_mem : root ∈ roots
  path_lt : path.length < depth
  descend_eq : descend child store root path = some node
  unlinked : child (store node index) = none
  child_eq : child entry = some fresh
  notReached : ¬ Reached child store roots depth fresh
  childless : ∀ position, child (store fresh position) = none

variable {root fresh : Node} {path : List Index}

/-- Linking a fresh node adds exactly one descent. -/
theorem Links.descend_put (h : Links child store roots depth root path node index entry fresh)
    {other : Node} (hother : other ∈ roots) {route : List Index} (hroute : route.length ≤ depth)
    {target : Node} :
    descend child (put store node index entry) other route = some target ↔
      descend child store other route = some target ∨
        (other = root ∧ route = path ++ [index] ∧ target = fresh) := by
  -- Induction on the route from its end: the last step either reads the new entry or is old.
  induction route using List.reverseRecOn generalizing target with
  | nil => simp
  | append_singleton route position ih =>
    rw [List.length_append, List.length_singleton] at hroute
    rw [descend_concat_eq_some, descend_concat_eq_some]
    constructor
    · rintro ⟨middle, hmiddle, hlast⟩
      rcases (ih (by omega)).mp hmiddle with hold | ⟨rfl, rfl, rfl⟩
      · by_cases hnew : middle = node ∧ position = index
        · obtain ⟨rfl, rfl⟩ := hnew
          obtain ⟨rfl, rfl⟩ := h.unshared hother h.root_mem (by omega)
            (Nat.le_of_lt h.path_lt) hold h.descend_eq
          rw [put_self, h.child_eq] at hlast
          exact Or.inr ⟨rfl, rfl, (Option.some.inj hlast).symm⟩
        · rw [put_of_ne hnew] at hlast
          exact Or.inl ⟨middle, hold, hlast⟩
      · have hne : ¬ (middle = node ∧ position = index) := by
          rintro ⟨rfl, -⟩
          exact h.notReached ⟨_, h.root_mem, path, Nat.le_of_lt h.path_lt, h.descend_eq⟩
        rw [put_of_ne hne, h.childless position] at hlast
        cases hlast
    · rintro (⟨middle, hmiddle, hlast⟩ | ⟨rfl, hconcat, rfl⟩)
      · refine ⟨middle, (ih (by omega)).mpr (Or.inl hmiddle), ?_⟩
        rw [put_of_ne]
        · exact hlast
        · rintro ⟨rfl, rfl⟩
          rw [h.unlinked] at hlast
          cases hlast
      · obtain ⟨rfl, hposition⟩ := List.append_inj' hconcat rfl
        obtain rfl : position = index := by simpa using hposition
        refine ⟨node, (ih (by omega)).mpr (Or.inl h.descend_eq), ?_⟩
        rw [put_self, h.child_eq]

/-- The entries after linking a fresh node: the new link, the fresh node's own, and the old. -/
theorem Links.entryAt_put (h : Links child store roots depth root path node index entry fresh)
    {other : Node} (hother : other ∈ roots) {route : List Index} (hroute : route.length ≤ depth)
    (position : Index) :
    entryAt child (put store node index entry) other route position =
      if other = root ∧ route = path ∧ position = index then some entry
      else if other = root ∧ route = path ++ [index] then some (store fresh position)
      else entryAt child store other route position := by
  have hfresh : fresh ≠ node := by
    rintro rfl
    exact h.notReached ⟨root, h.root_mem, path, Nat.le_of_lt h.path_lt, h.descend_eq⟩
  by_cases hnew : other = root ∧ route = path ++ [index]
  · obtain ⟨rfl, rfl⟩ := hnew
    have hdescend := (h.descend_put hother hroute).mpr (Or.inr ⟨rfl, rfl, rfl⟩)
    have hne : ¬ (other = other ∧ path ++ [index] = path ∧ position = index) := by
      simp
    rw [if_neg hne, if_pos ⟨rfl, rfl⟩, entryAt, hdescend, Option.map_some,
      put_of_ne fun heq ↦ hfresh heq.1]
  · rw [if_neg hnew]
    refine TableForest.entryAt_put h.unshared h.root_mem (Nat.le_of_lt h.path_lt)
      h.descend_eq ?_ hother hroute
    ext target
    rw [h.descend_put hother hroute]
    constructor
    · rintro (hold | ⟨rfl, rfl, -⟩)
      · exact hold
      · exact absurd ⟨rfl, rfl⟩ hnew
    · exact Or.inl

theorem Links.reached_put (h : Links child store roots depth root path node index entry fresh)
    (target : Node) :
    Reached child (put store node index entry) roots depth target ↔
      Reached child store roots depth target ∨ target = fresh := by
  constructor
  · rintro ⟨other, hother, route, hroute, hdescend⟩
    rcases (h.descend_put hother hroute).mp hdescend with hold | ⟨-, -, hfresh⟩
    · exact Or.inl ⟨other, hother, route, hroute, hold⟩
    · exact Or.inr hfresh
  · rintro (⟨other, hother, route, hroute, hdescend⟩ | rfl)
    · exact ⟨other, hother, route, hroute, (h.descend_put hother hroute).mpr (Or.inl hdescend)⟩
    · have hlength : (path ++ [index]).length ≤ depth := by
        rw [List.length_append, List.length_singleton]
        exact h.path_lt
      exact ⟨root, h.root_mem, path ++ [index], hlength,
        (h.descend_put h.root_mem hlength).mpr (Or.inr ⟨rfl, rfl, rfl⟩)⟩

/-- Linking a fresh node keeps the forest unshared. -/
theorem Links.unshared_put (h : Links child store roots depth root path node index entry fresh) :
    Unshared child (put store node index entry) roots depth := by
  intro first second left right target hfirst hsecond hleft hright hdescendLeft hdescendRight
  rcases (h.descend_put hfirst hleft).mp hdescendLeft with hold | ⟨rfl, rfl, rfl⟩
  · rcases (h.descend_put hsecond hright).mp hdescendRight with hother | ⟨rfl, rfl, rfl⟩
    · exact h.unshared hfirst hsecond hleft hright hold hother
    · exact absurd ⟨first, hfirst, left, hleft, hold⟩ h.notReached
  · rcases (h.descend_put hsecond hright).mp hdescendRight with hother | ⟨rfl, rfl, -⟩
    · exact absurd ⟨second, hsecond, right, hright, hother⟩ h.notReached
    · exact ⟨rfl, rfl⟩

end Put

section NewRoot

variable {fresh : Node}

/-- A node without links is the only node below itself. -/
theorem descend_of_childless (h : ∀ position, child (store fresh position) = none)
    {path : List Index} {target : Node} :
    descend child store fresh path = some target ↔ path = [] ∧ target = fresh := by
  cases path with
  | nil => simp [eq_comm]
  | cons index path => simp [descend, h]

theorem reached_insert_root (h : ∀ position, child (store fresh position) = none)
    (target : Node) :
    Reached child store (insert fresh roots) depth target ↔
      Reached child store roots depth target ∨ target = fresh := by
  constructor
  · rintro ⟨root, hroot | hroot, path, hpath, hdescend⟩
    · rw [hroot, descend_of_childless h] at hdescend
      exact Or.inr hdescend.2
    · exact Or.inl ⟨root, hroot, path, hpath, hdescend⟩
  · rintro (⟨root, hroot, path, hpath, hdescend⟩ | rfl)
    · exact ⟨root, Or.inr hroot, path, hpath, hdescend⟩
    · exact ⟨target, Or.inl rfl, [], Nat.zero_le _, rfl⟩

/-- A fresh root without links keeps the forest unshared. -/
theorem Unshared.insert_root (hunshared : Unshared child store roots depth)
    (h : ∀ position, child (store fresh position) = none)
    (hfresh : ¬ Reached child store roots depth fresh) :
    Unshared child store (insert fresh roots) depth := by
  intro first second left right target hfirst hsecond hleft hright hdescendLeft hdescendRight
  rcases hfirst with rfl | hfirst
  · obtain ⟨rfl, rfl⟩ := (descend_of_childless h).mp hdescendLeft
    rcases hsecond with rfl | hsecond
    · exact ⟨rfl, ((descend_of_childless h).mp hdescendRight).1.symm⟩
    · exact absurd ⟨second, hsecond, right, hright, hdescendRight⟩ hfresh
  · rcases hsecond with rfl | hsecond
    · obtain ⟨rfl, rfl⟩ := (descend_of_childless h).mp hdescendRight
      exact absurd ⟨first, hfirst, left, hleft, hdescendLeft⟩ hfresh
    · exact hunshared hfirst hsecond hleft hright hdescendLeft hdescendRight

end NewRoot

end WaterBuffalo.TableForest
