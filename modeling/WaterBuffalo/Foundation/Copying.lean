import Mathlib.Data.List.Basic
import Mathlib.Logic.Function.Basic

/-!
# Copying cell by cell

A loop copies one cell after the other, and the cells it reads may be among those it writes.  What
matters is the order: a copy must not overwrite a cell that a later one still has to read.  An
order with that property copies what was there before the first step, and nothing else changes.
-/

namespace WaterBuffalo.Copying

variable {Index Address Value : Type*} [DecidableEq Address]

/-- Copy the cell `source index` to the cell `target index`, for each index in turn. -/
def copyEach (target source : Index → Address) (memory : Address → Value)
    (indices : List Index) : Address → Value :=
  indices.foldl
    (fun memory index ↦ Function.update memory (target index) (memory (source index))) memory

/-- Assign the value to each target. -/
def fillEach (target : Index → Address) (value : Value) (memory : Address → Value)
    (indices : List Index) : Address → Value :=
  indices.foldl (fun memory index ↦ Function.update memory (target index) value) memory

/-- No step overwrites a cell that a later one reads or writes. -/
def Orderly (target source : Index → Address) (indices : List Index) : Prop :=
  indices.Pairwise fun earlier later ↦
    target earlier ≠ source later ∧ target earlier ≠ target later

variable {target source : Index → Address} {memory : Address → Value} {indices : List Index}

theorem copyEach_cons (index : Index) :
    copyEach target source memory (index :: indices) =
      copyEach target source (Function.update memory (target index) (memory (source index)))
        indices := rfl

/-- Cells that are no target keep their value, in any order. -/
theorem copyEach_of_forall_ne {address : Address}
    (h : ∀ index ∈ indices, address ≠ target index) :
    copyEach target source memory indices address = memory address := by
  induction indices generalizing memory with
  | nil => rfl
  | cons index indices ih =>
    rw [List.forall_mem_cons] at h
    rw [copyEach_cons, ih h.2, Function.update_of_ne h.1]

/-- In an orderly copy every target receives the value its source had at the start. -/
theorem copyEach_of_mem (h : Orderly target source indices) {index : Index}
    (hindex : index ∈ indices) :
    copyEach target source memory indices (target index) = memory (source index) := by
  induction indices generalizing memory with
  | nil => cases hindex
  | cons first indices ih =>
    obtain ⟨hfirst, hrest⟩ := List.pairwise_cons.mp h
    rw [copyEach_cons]
    rcases List.mem_cons.mp hindex with rfl | hlater
    · rw [copyEach_of_forall_ne fun later hlater ↦ (hfirst later hlater).2, Function.update_self]
    · rw [ih hrest hlater, Function.update_of_ne (hfirst index hlater).1.symm]

theorem fillEach_apply (value : Value) (address : Address) :
    fillEach target value memory indices address =
      if ∃ index ∈ indices, address = target index then value else memory address := by
  induction indices generalizing memory with
  | nil => simp [fillEach]
  | cons first indices ih =>
    have hstep : fillEach target value memory (first :: indices) =
        fillEach target value (Function.update memory (target first) value) indices := rfl
    rw [hstep, ih]
    by_cases hfirst : address = target first
    · subst hfirst
      rw [Function.update_self, ite_self, if_pos ⟨first, List.mem_cons_self, rfl⟩]
    · rw [Function.update_of_ne hfirst]
      refine if_congr ?_ rfl rfl
      rw [List.exists_mem_cons_iff, or_iff_right hfirst]

end WaterBuffalo.Copying
