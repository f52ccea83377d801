import Mathlib.Data.Nat.Notation

/-!
# Loops that may not end

The body of a loop either goes on from a new state, leaves the loop, or gets stuck.  A loop is run
for a number of iterations; it terminates if some number of them is enough.  The two rules for
whole executions follow the body once round the loop: what holds of a state and of every state
reached from the next iteration on, holds throughout.
-/

namespace WaterBuffalo.Loop

/-- How one iteration ends. -/
inductive Outcome (State Fault : Type*) where
  | next (state : State)
  | done (state : State)
  | stuck (fault : Fault) (state : State)
  deriving DecidableEq, Repr

variable {State Fault : Type*}

/-- The state an iteration ends in, however it ends. -/
def Outcome.state : Outcome State Fault → State
  | .next state => state
  | .done state => state
  | .stuck _ state => state

/-- At most `count` iterations. -/
def iterate (body : State → Outcome State Fault) : ℕ → State → Outcome State Fault
  | 0, state => .next state
  | count + 1, state =>
    match body state with
    | .next state => iterate body count state
    | .done state => .done state
    | .stuck fault state => .stuck fault state

/-- The loop is left after finitely many iterations. -/
def Terminates (body : State → Outcome State Fault) (start : State) : Prop :=
  ∃ count last, iterate body count start = .done last

/-- The property holds of every state the loop passes through. -/
def Always (body : State → Outcome State Fault) (property : State → Prop) (start : State) : Prop :=
  ∀ count, property (iterate body count start).state

variable {body : State → Outcome State Fault} {property : State → Prop} {start : State}

/-- What is left to do after some iterations. -/
theorem iterate_add_of_next {first second : ℕ} {later : State}
    (h : iterate body first start = .next later) :
    iterate body (first + second) start = iterate body second later := by
  induction first generalizing start with
  | zero =>
    rw [iterate, Outcome.next.injEq] at h
    rw [Nat.zero_add, h]
  | succ first ih =>
    rw [Nat.succ_add, iterate]
    rw [iterate] at h
    cases hbody : body start with
    | next following =>
      rw [hbody] at h
      exact ih h
    | done last =>
      rw [hbody] at h
      cases h
    | stuck fault last =>
      rw [hbody] at h
      cases h

theorem terminates_of_done {last : State} (h : body start = .done last) :
    Terminates body start := by
  refine ⟨1, last, ?_⟩
  rw [iterate, h]

theorem terminates_of_next {following : State} (h : body start = .next following)
    (hrest : Terminates body following) : Terminates body start := by
  obtain ⟨count, last, hlast⟩ := hrest
  refine ⟨count + 1, last, ?_⟩
  rw [iterate, h]
  exact hlast

theorem always_of_done {last : State} (h : body start = .done last) (hstart : property start)
    (hlast : property last) : Always body property start := by
  intro count
  cases count with
  | zero => exact hstart
  | succ count =>
    rw [iterate, h]
    exact hlast

theorem always_of_next {following : State} (h : body start = .next following)
    (hstart : property start) (hrest : Always body property following) :
    Always body property start := by
  intro count
  cases count with
  | zero => exact hstart
  | succ count =>
    rw [iterate, h]
    exact hrest count

/-- What holds throughout holds from the next iteration on. -/
theorem Always.next {following : State} (h : Always body property start)
    (hnext : body start = .next following) : Always body property following := by
  intro count
  have hlater := h (count + 1)
  rw [iterate, hnext] at hlater
  exact hlater

end WaterBuffalo.Loop
