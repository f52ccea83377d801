import Mathlib.Algebra.Ring.Nat
import Mathlib.Data.Fin.Basic
import Mathlib.Data.List.Infix
import Mathlib.Order.Interval.Finset.Nat

/-!
# Radix trees

A tree that is searched by the digits of a number, the most significant first, has its nodes at the
lists of leading digits.  The nodes of a level that a set of numbers needs correspond to the blocks
of numbers that share their leading digits.
-/

namespace WaterBuffalo.Radix

variable (base : ℕ) [NeZero base]

/-- The last `levels` digits of `value`, the most significant first. -/
def digitPath : ℕ → ℕ → List (Fin base)
  | 0, _ => []
  | levels + 1, value => digitPath levels (value / base) ++ [Fin.ofNat base value]

theorem length_digitPath (levels value : ℕ) : (digitPath base levels value).length = levels := by
  induction levels generalizing value with
  | zero => rfl
  | succ levels ih => rw [digitPath, List.length_append, ih, List.length_singleton]

variable {base}

theorem digitPath_eq_iff {levels left right : ℕ} :
    digitPath base levels left = digitPath base levels right ↔
      left % base ^ levels = right % base ^ levels := by
  induction levels generalizing left right with
  | zero => simp [digitPath, Nat.mod_one]
  | succ levels ih =>
    have hpow : base ^ (levels + 1) = base * base ^ levels := pow_succ' base levels
    have hmod : ∀ value, value % (base * base ^ levels) =
        base * (value / base % base ^ levels) + value % base := by
      intro value
      rw [Nat.mod_mul, Nat.add_comm]
    have hbase : 0 < base := Nat.pos_of_neZero base
    have hlast : Fin.ofNat base left = Fin.ofNat base right ↔ left % base = right % base := by
      rw [Fin.ext_iff]
      rfl
    have hsplit : digitPath base (levels + 1) left = digitPath base (levels + 1) right ↔
        digitPath base levels (left / base) = digitPath base levels (right / base) ∧
          Fin.ofNat base left = Fin.ofNat base right := by
      rw [digitPath, digitPath, ← List.concat_eq_append, ← List.concat_eq_append]
      exact List.concat_inj
    rw [hsplit, ih, hlast, hpow, hmod, hmod]
    constructor
    · rintro ⟨hhigh, hlow⟩
      rw [hhigh, hlow]
    · intro heq
      have hlow : left % base = right % base := by
        have hsame := congrArg (· % base) heq
        simpa using hsame
      rw [hlow, Nat.add_right_cancel_iff] at heq
      exact ⟨Nat.eq_of_mul_eq_mul_left hbase heq, hlow⟩

/-- The nodes on the way to a node. -/
theorem prefix_digitPath_iff {path : List (Fin base)} {levels value : ℕ} :
    path <+: digitPath base levels value ↔
      ∃ level ≤ levels, path = digitPath base level (value / base ^ (levels - level)) := by
  induction levels generalizing value with
  | zero => simp [digitPath]
  | succ levels ih =>
    rw [digitPath, List.prefix_concat_iff, ih]
    constructor
    · rintro (rfl | ⟨level, hlevel, rfl⟩)
      · exact ⟨levels + 1, le_rfl, by simp [digitPath]⟩
      · refine ⟨level, hlevel.trans (Nat.le_succ _), ?_⟩
        rw [Nat.div_div_eq_div_mul, ← pow_succ', Nat.sub_add_comm hlevel]
    · rintro ⟨level, hlevel, rfl⟩
      rcases Nat.le_succ_iff.mp hlevel with hbelow | rfl
      · refine Or.inr ⟨level, hbelow, ?_⟩
        rw [Nat.div_div_eq_div_mul, ← pow_succ', Nat.sub_add_comm hbelow]
      · left
        simp [digitPath]

/-- The blocks of `size` numbers that meet the numbers from `start` up to `stop`. -/
def blocks (size start stop : ℕ) : Finset ℕ :=
  Finset.Icc (start / size) ((stop - 1) / size)

theorem mem_blocks_iff {size start stop block : ℕ} (hsize : 0 < size) (hstart : start < stop) :
    block ∈ blocks size start stop ↔ ∃ number, (start ≤ number ∧ number < stop) ∧
      number / size = block := by
  rw [blocks, Finset.mem_Icc]
  constructor
  · rintro ⟨hlower, hupper⟩
    rw [Nat.le_div_iff_mul_le hsize] at hupper
    refine ⟨max start (block * size), ⟨le_max_left _ _, by omega⟩, ?_⟩
    rcases le_total start (block * size) with hle | hle
    · rw [max_eq_right hle, Nat.mul_div_cancel _ hsize]
    · rw [max_eq_left hle]
      exact le_antisymm hlower ((Nat.le_div_iff_mul_le hsize).mpr hle)
  · rintro ⟨number, ⟨hlower, hupper⟩, rfl⟩
    exact ⟨Nat.div_le_div_right hlower, Nat.div_le_div_right (by omega)⟩

/-- Two intervals that follow each other. -/
theorem blocks_union {size start middle stop : ℕ} (hsize : 0 < size) (hstart : start < middle)
    (hstop : middle < stop) :
    blocks size start middle ∪ blocks size middle stop = blocks size start stop := by
  ext block
  rw [Finset.mem_union, mem_blocks_iff hsize hstart, mem_blocks_iff hsize hstop,
    mem_blocks_iff hsize (hstart.trans hstop), ← exists_or]
  refine exists_congr fun number ↦ ?_
  rw [← or_and_right]
  exact and_congr_left fun _ ↦ by omega

end WaterBuffalo.Radix
