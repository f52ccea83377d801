import Mathlib.Data.List.Basic

/-!
# Runs of a deterministic machine

A run folds a step function over a list of actions.  `Legal` restricts the actions to those a
guard admits in the state they are taken in.  An invariant that every admitted action keeps holds
at the end of every legal run, hence in every state a run passes through, since a legal run stays
legal when it is cut short.
-/

namespace WaterBuffalo.Run

/-- A loop over the indices below `count`, by an invariant indexed by the iterations done. -/
theorem foldl_range_induction {Value : Type*} (body : Value → ℕ → Value)
    (motive : ℕ → Value → Prop) (start : Value) (count : ℕ) (hstart : motive 0 start)
    (hbody : ∀ index value, index < count → motive index value →
      motive (index + 1) (body value index)) :
    motive count ((List.range count).foldl body start) := by
  induction count with
  | zero => exact hstart
  | succ count ih =>
    rw [List.range_succ, List.foldl_append]
    have hprevious := ih fun index value hindex ↦ hbody index value (by omega)
    exact hbody count _ (by omega) hprevious

variable {State Action : Type*} (step : State → Action → State)
  (allowed : State → Action → Prop)

/-- The state a run ends in. -/
def final (start : State) (actions : List Action) : State :=
  actions.foldl step start

/-- Every action is admitted in the state it is taken in. -/
def Legal : State → List Action → Prop
  | _, [] => True
  | start, action :: actions => allowed start action ∧ Legal (step start action) actions

/-- Legality of a concrete run can be computed. -/
instance decidableLegal [∀ start action, Decidable (allowed start action)] :
    (start : State) → (actions : List Action) → Decidable (Legal step allowed start actions)
  | _, [] => isTrue trivial
  | start, action :: actions =>
    @instDecidableAnd _ _ _ (decidableLegal (step start action) actions)

variable {step allowed}

@[simp] theorem final_nil (start : State) : final step start [] = start := rfl

@[simp] theorem final_cons (start : State) (action : Action) (actions : List Action) :
    final step start (action :: actions) = final step (step start action) actions := rfl

theorem final_append (start : State) (first second : List Action) :
    final step start (first ++ second) = final step (final step start first) second :=
  List.foldl_append

theorem legal_append {start : State} {first second : List Action} :
    Legal step allowed start (first ++ second) ↔
      Legal step allowed start first ∧ Legal step allowed (final step start first) second := by
  induction first generalizing start with
  | nil => simp [Legal]
  | cons action first ih => simp [Legal, ih, and_assoc]

/-- A guard that does not look at the state. -/
theorem legal_of_forall (start : State) {actions : List Action}
    (h : ∀ action ∈ actions, ∀ start, allowed start action) :
    Legal step allowed start actions := by
  induction actions generalizing start with
  | nil => trivial
  | cons action actions ih =>
    rw [List.forall_mem_cons] at h
    exact ⟨h.1 start, ih (step start action) h.2⟩

/-- **Invariant rule.** What every admitted action keeps, every legal run keeps. -/
theorem Legal.invariant {motive : State → Prop}
    (hstep : ∀ start action, motive start → allowed start action → motive (step start action))
    {start : State} {actions : List Action} (hlegal : Legal step allowed start actions)
    (hstart : motive start) : motive (final step start actions) := by
  induction actions generalizing start with
  | nil => exact hstart
  | cons action actions ih =>
    obtain ⟨hallowed, hrest⟩ := hlegal
    exact ih hrest (hstep start action hstart hallowed)

/-- The invariant rule for unrestricted actions. -/
theorem invariant {motive : State → Prop}
    (hstep : ∀ start action, motive start → motive (step start action))
    {start : State} (actions : List Action) (hstart : motive start) :
    motive (final step start actions) := by
  induction actions generalizing start with
  | nil => exact hstart
  | cons action actions ih => exact ih (hstep start action hstart)

/-- An action of a longer run is an action of the run, or the one after it. -/
theorem exists_split_concat {property : List Action → Action → Prop} (actions : List Action)
    (last : Action) :
    (∃ earlier action later, actions ++ [last] = earlier ++ action :: later ∧
        property earlier action) ↔
      (∃ earlier action later, actions = earlier ++ action :: later ∧ property earlier action) ∨
        property actions last := by
  constructor
  · rintro ⟨earlier, action, later, hsplit, hproperty⟩
    rcases List.eq_nil_or_concat later with rfl | ⟨middle, other, rfl⟩
    · obtain ⟨rfl, hlast⟩ := List.append_inj' hsplit rfl
      rw [List.singleton_inj] at hlast
      rw [hlast]
      exact Or.inr hproperty
    · rw [List.concat_eq_append, ← List.cons_append, ← List.append_assoc] at hsplit
      exact Or.inl ⟨earlier, action, middle, (List.append_inj' hsplit rfl).1, hproperty⟩
  · rintro (⟨earlier, action, later, rfl, hproperty⟩ | hproperty)
    · exact ⟨earlier, action, later ++ [last], by simp, hproperty⟩
    · exact ⟨actions, last, [], rfl, hproperty⟩

/-- A computed check of a fallible computation: it succeeds with a value that passes the test. -/
def succeedsWith {Fault Value : Type*} (result : Except Fault Value) (test : Value → Bool) :
    Bool :=
  match result with
  | .ok value => test value
  | .error _ => false

/-- What a computed check establishes. -/
theorem exists_of_succeedsWith {Fault Value : Type*} {result : Except Fault Value}
    {test : Value → Prop} [DecidablePred test]
    (h : succeedsWith result (fun value ↦ decide (test value)) = true) :
    ∃ value, result = .ok value ∧ test value := by
  cases result with
  | ok value => exact ⟨value, rfl, of_decide_eq_true h⟩
  | error fault => exact Bool.noConfusion h

end WaterBuffalo.Run
