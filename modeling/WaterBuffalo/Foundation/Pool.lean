import Mathlib.Data.Set.Insert
import Mathlib.Data.Set.Lattice
import Mathlib.Logic.Relation
import Mathlib.Order.CompletePartialOrder

/-!
# Resource pools

A pool hands out items and takes them back.  An item is either free or held, never both; that is
a field of the structure, so no operation can lose the property.  Taking and giving back move one
item between the two sides and keep their union, the pool's stock, along every sequence of steps.
-/

namespace WaterBuffalo

/-- A stock of items, each free or held. -/
@[ext]
structure Pool (Item : Type*) where
  free : Set Item
  held : Set Item
  disjoint : Disjoint free held

namespace Pool

variable {Item : Type*}

/-- All items of the pool. -/
def stock (pool : Pool Item) : Set Item :=
  pool.free ∪ pool.held

/-- Hand out a free item. -/
def take (pool : Pool Item) (item : Item) (_ : item ∈ pool.free) : Pool Item where
  free := pool.free \ {item}
  held := insert item pool.held
  disjoint := by
    rw [Set.disjoint_left]
    rintro other ⟨hfree, hne⟩ (heq | hheld)
    · exact hne heq
    · exact Set.disjoint_left.mp pool.disjoint hfree hheld

/-- Take a held item back. -/
def giveBack (pool : Pool Item) (item : Item) (_ : item ∈ pool.held) : Pool Item where
  free := insert item pool.free
  held := pool.held \ {item}
  disjoint := by
    rw [Set.disjoint_left]
    rintro other (heq | hfree) ⟨hheld, hne⟩
    · exact hne heq
    · exact Set.disjoint_left.mp pool.disjoint hfree hheld

theorem stock_take (pool : Pool Item) (item : Item) (hitem : item ∈ pool.free) :
    (pool.take item hitem).stock = pool.stock := by
  ext other
  by_cases heq : other = item
  · subst heq
    simp [stock, take, hitem]
  · simp [stock, take, heq]

theorem stock_giveBack (pool : Pool Item) (item : Item) (hitem : item ∈ pool.held) :
    (pool.giveBack item hitem).stock = pool.stock := by
  ext other
  by_cases heq : other = item
  · subst heq
    simp [stock, giveBack, hitem]
  · simp [stock, giveBack, heq]

/-- One item changes sides. -/
inductive Step : Pool Item → Pool Item → Prop where
  | take (pool : Pool Item) (item : Item) (hitem : item ∈ pool.free) :
      Step pool (pool.take item hitem)
  | giveBack (pool : Pool Item) (item : Item) (hitem : item ∈ pool.held) :
      Step pool (pool.giveBack item hitem)

theorem Step.stock_eq {before after : Pool Item} (h : Step before after) :
    after.stock = before.stock := by
  cases h with
  | take item hitem => exact stock_take before item hitem
  | giveBack item hitem => exact stock_giveBack before item hitem

/-- **Conservation.** No sequence of steps creates or loses an item. -/
theorem stock_eq_of_reaches {before after : Pool Item}
    (h : Relation.ReflTransGen Step before after) : after.stock = before.stock := by
  induction h with
  | refl => rfl
  | tail _ hstep ih => exact hstep.stock_eq.trans ih

/-- An item of the stock that is not free is held. -/
theorem held_eq_stock_of_free_eq_empty (pool : Pool Item) (h : pool.free = ∅) :
    pool.held = pool.stock := by
  rw [stock, h, Set.empty_union]

end Pool

end WaterBuffalo
