import WaterBuffalo.Foundation.ByteMemory
import WaterBuffalo.Foundation.Loop

/-!
# Loops over a 64-bit counter

`for (index = first; index < stop; ++index)` with a counter that wraps, and a body that may leave
the loop early.  Nothing about the bounds is assumed: a counter that stays below its bound never
wraps, so the loop always ends.  The rule `forCounter_rule` gives the total correctness of such a
loop from an invariant that is indexed by the number of iterations done.
-/

namespace WaterBuffalo.Loop

variable {State Fault : Type*}

/-- One iteration: test the counter, run the body, advance the counter. -/
def counting (stop : Word) (body : State → Word → Outcome State Fault) :
    Word × State → Outcome (Word × State) Fault
  | (index, state) =>
    if index < stop then
      match body state index with
      | .next later => .next (index + 1, later)
      | .done later => .done (index, later)
      | .stuck fault later => .stuck fault (index, later)
    else .done (index, state)

/-- The loop, for at most `limit` iterations; `endless` reports that these were not enough. -/
def forCounter (endless : Fault) (limit : ℕ) (first stop : Word)
    (body : State → Word → Outcome State Fault) (state : State) : Except Fault State :=
  match iterate (counting stop body) limit (first, state) with
  | .done (_, later) => .ok later
  | .next _ => .error endless
  | .stuck fault _ => .error fault

variable {body : State → Word → Outcome State Fault} {motive : ℕ → State → Prop}
  {post : State → Prop}

theorem exists_iterate_counting {first stop : Word} {limit count : ℕ} {state : State}
    (hcount : count ≤ stop.toNat - first.toNat)
    (hlimit : stop.toNat - first.toNat - count < limit) (hstart : motive count state)
    (hbody : ∀ done state, done < stop.toNat - first.toNat → motive done state →
      (∃ later, body state (first + BitVec.ofNat 64 done) = .next later ∧
          motive (done + 1) later) ∨
        ∃ later, body state (first + BitVec.ofNat 64 done) = .done later ∧ post later)
    (hend : ∀ state, motive (stop.toNat - first.toNat) state → post state) :
    ∃ index later, iterate (counting stop body) limit (first + BitVec.ofNat 64 count, state) =
      .done (index, later) ∧ post later := by
  induction limit generalizing count state with
  | zero => cases hlimit
  | succ limit ih =>
    have hstop := stop.isLt
    have hindex : (first + BitVec.ofNat 64 count).toNat = first.toNat + count ∨
        stop.toNat ≤ first.toNat := by
      rw [BitVec.toNat_add, BitVec.toNat_ofNat]
      omega
    rw [iterate, counting]
    by_cases hinside : count < stop.toNat - first.toNat
    · have hlt : first + BitVec.ofNat 64 count < stop := by
        rw [BitVec.lt_def]
        omega
      rw [if_pos hlt]
      rcases hbody count state hinside hstart with ⟨later, hnext, hlater⟩ | ⟨later, hdone, hpost⟩
      · have hadvance : first + BitVec.ofNat 64 count + 1 =
            first + BitVec.ofNat 64 (count + 1) := by
          rw [BitVec.ofNat_add, BitVec.add_assoc]
          rfl
        rw [hnext]
        simp only [hadvance]
        exact ih (by omega) (by omega) hlater
      · rw [hdone]
        exact ⟨_, later, rfl, hpost⟩
    · have hfinished : count = stop.toNat - first.toNat := by omega
      subst hfinished
      have hge : ¬ first + BitVec.ofNat 64 (stop.toNat - first.toNat) < stop := by
        rw [BitVec.lt_def]
        rcases hindex with hexact | hempty
        · omega
        · rw [Nat.sub_eq_zero_of_le hempty, BitVec.add_zero]
          omega
      rw [if_neg hge]
      exact ⟨_, state, rfl, hend state hstart⟩

/-- **Rule for counted loops.** An invariant that every iteration keeps, or that it leaves into the
postcondition, gives termination and the postcondition. -/
theorem forCounter_rule (endless : Fault) {limit : ℕ} {first stop : Word} {state : State}
    (hlimit : 2 ^ 64 ≤ limit) (hstart : motive 0 state)
    (hbody : ∀ done state, done < stop.toNat - first.toNat → motive done state →
      (∃ later, body state (first + BitVec.ofNat 64 done) = .next later ∧
          motive (done + 1) later) ∨
        ∃ later, body state (first + BitVec.ofNat 64 done) = .done later ∧ post later)
    (hend : ∀ state, motive (stop.toNat - first.toNat) state → post state) :
    ∃ later, forCounter endless limit first stop body state = .ok later ∧ post later := by
  have hstop := stop.isLt
  obtain ⟨index, later, hdone, hpost⟩ := exists_iterate_counting (Nat.zero_le _)
    (by omega : stop.toNat - first.toNat - 0 < limit) hstart hbody hend
  rw [BitVec.add_zero] at hdone
  refine ⟨later, ?_, hpost⟩
  rw [forCounter, hdone]

/-- A loop that follows a fold: each iteration keeps the two states related. -/
theorem forCounter_simulates {Abstract : Type*} (endless : Fault)
    (related : State → Abstract → Prop) (step : Abstract → Word → Abstract) {limit : ℕ}
    {first stop : Word} {state : State} {start : Abstract} (hlimit : 2 ^ 64 ≤ limit)
    (hstart : related state start)
    (hbody : ∀ state abstract (done : ℕ), done < stop.toNat - first.toNat →
      related state abstract →
      ∃ later, body state (first + BitVec.ofNat 64 done) = .next later ∧
        related later (step abstract (first + BitVec.ofNat 64 done))) :
    ∃ later, forCounter endless limit first stop body state = .ok later ∧
      related later ((List.range (stop.toNat - first.toNat)).foldl
        (fun abstract done ↦ step abstract (first + BitVec.ofNat 64 done)) start) := by
  apply forCounter_rule (motive := fun count state ↦ related state ((List.range count).foldl
    (fun abstract done ↦ step abstract (first + BitVec.ofNat 64 done)) start)) endless hlimit hstart
  · intro done state hdone hrelated
    left
    obtain ⟨later, hnext, hlater⟩ := hbody state _ done hdone hrelated
    refine ⟨later, hnext, ?_⟩
    rw [List.range_succ, List.foldl_append]
    exact hlater
  · exact fun state hrelated ↦ hrelated

section FromZero

variable {stop : Word} {limit : ℕ} {state : State}

theorem toNat_index_lt {index : ℕ} (h : index < stop.toNat) :
    (BitVec.ofNat 64 index).toNat < stop.toNat := by
  rw [BitVec.toNat_ofNat]
  exact lt_of_le_of_lt (Nat.mod_le _ _) h

/-- A counter that starts at zero runs through the numbers below its bound. -/
theorem forCounter_simulates_zero {Abstract : Type*} (endless : Fault)
    (related : State → Abstract → Prop) (step : Abstract → Word → Abstract) {start : Abstract}
    (hlimit : 2 ^ 64 ≤ limit) (hstart : related state start)
    (hbody : ∀ state abstract (done : ℕ), done < stop.toNat → related state abstract →
      ∃ later, body state (BitVec.ofNat 64 done) = .next later ∧
        related later (step abstract (BitVec.ofNat 64 done))) :
    ∃ later, forCounter endless limit 0 stop body state = .ok later ∧
      related later ((List.range stop.toNat).foldl
        (fun abstract done ↦ step abstract (BitVec.ofNat 64 done)) start) := by
  have hzero (done : ℕ) : (0 : Word) + BitVec.ofNat 64 done = BitVec.ofNat 64 done :=
    BitVec.zero_add _
  have hloop := fun hbody ↦ (forCounter_simulates endless related step hlimit hstart hbody :
    ∃ later, forCounter endless limit 0 stop body state = .ok later ∧
      related later ((List.range stop.toNat).foldl
        (fun abstract done ↦ step abstract (0 + BitVec.ofNat 64 done)) start))
  simp only [hzero] at hloop
  exact hloop hbody

/-- A loop that searches: it goes on while the test finds nothing and leaves at the first find. -/
theorem forCounter_searches {Found : Type*} (endless : Fault) (inside : State → Prop)
    (test : ℕ → Option Found) (found : Found → State → Prop) (hlimit : 2 ^ 64 ≤ limit)
    (hstart : inside state)
    (hbody : ∀ state (done : ℕ), done < stop.toNat → inside state →
      (test done).elim
        (∃ later, body state (BitVec.ofNat 64 done) = .next later ∧ inside later)
        fun result ↦
          ∃ later, body state (BitVec.ofNat 64 done) = .done later ∧ found result later) :
    ∃ later, forCounter endless limit 0 stop body state = .ok later ∧
      ((List.range stop.toNat).findSome? test).elim (inside later) (found · later) := by
  have hzero (done : ℕ) : (0 : Word) + BitVec.ofNat 64 done = BitVec.ofNat 64 done :=
    BitVec.zero_add _
  apply forCounter_rule (motive := fun count state ↦ inside state ∧
    (List.range count).findSome? test = none) endless hlimit ⟨hstart, rfl⟩
  · intro done state hdone hmotive
    have hinside : done < stop.toNat := hdone
    have hstep := hbody state done hinside hmotive.1
    rw [hzero]
    cases htest : test done with
    | none =>
      rw [htest] at hstep
      obtain ⟨later, hnext, hlater⟩ := hstep
      refine Or.inl ⟨later, hnext, hlater, ?_⟩
      rw [List.range_succ, List.findSome?_append, hmotive.2, Option.none_or]
      simp [htest]
    | some result =>
      rw [htest] at hstep
      obtain ⟨later, hfound, hlater⟩ := hstep
      refine Or.inr ⟨later, hfound, ?_⟩
      -- The search of the whole range stops where the loop does.
      have hsplit : List.range stop.toNat = List.range (done + 1) ++
          (List.range (stop.toNat - (done + 1))).map (done + 1 + ·) := by
        rw [← List.range_add, Nat.add_sub_cancel' hinside]
      have hall : (List.range stop.toNat).findSome? test = some result := by
        rw [hsplit, List.findSome?_append, List.range_succ, List.findSome?_append, hmotive.2,
          Option.none_or]
        simp [htest]
      rw [hall]
      exact hlater
  · intro state hmotive
    have hnone : (List.range stop.toNat).findSome? test = none := hmotive.2
    rw [hnone]
    exact hmotive.1

end FromZero

end WaterBuffalo.Loop
