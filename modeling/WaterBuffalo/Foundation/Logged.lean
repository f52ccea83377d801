import Mathlib.Data.List.Basic

/-!
# Computations that log and may halt

A computation leaves a log and, unless it halts, a result.  In a sequence the second part runs only
if the first has a result, so the log of the whole is the log of the first part followed by that of
the second, or the log of the first part alone.
-/

namespace WaterBuffalo

structure Logged (Entry Value : Type) where
  log : List Entry
  result : Option Value

namespace Logged

variable {Entry Value Next : Type}

protected def pure (value : Value) : Logged Entry Value where
  log := []
  result := some value

protected def bind (first : Logged Entry Value) (second : Value → Logged Entry Next) :
    Logged Entry Next where
  log := first.log ++ first.result.elim [] fun value ↦ (second value).log
  result := first.result.bind fun value ↦ (second value).result

instance : Monad (Logged Entry) where
  pure := Logged.pure
  bind := Logged.bind

/-- Log one entry. -/
def record (entry : Entry) : Logged Entry Unit where
  log := [entry]
  result := some ()

/-- Log one entry and halt. -/
def halt (entry : Entry) : Logged Entry Value where
  log := [entry]
  result := none

@[simp] theorem log_record (entry : Entry) : (record entry).log = [entry] := rfl

section Bind

variable {first : Logged Entry Value} {second : Value → Logged Entry Next} {value : Value}

theorem log_bind (first : Logged Entry Value) (second : Value → Logged Entry Next) :
    (first >>= second).log = first.log ++ first.result.elim [] fun value ↦ (second value).log :=
  rfl

theorem bind_of_some (h : first.result = some value) :
    first >>= second = ⟨first.log ++ (second value).log, (second value).result⟩ := by
  change Logged.mk _ _ = _
  rw [h]
  rfl

theorem bind_of_none (h : first.result = none) :
    first >>= second = ⟨first.log, none⟩ := by
  change Logged.mk _ _ = _
  rw [h]
  simp

end Bind

/-- Every entry of the log has the property. -/
def Every (property : Entry → Prop) (computation : Logged Entry Value) : Prop :=
  ∀ entry ∈ computation.log, property entry

/-- A computation that halts does so with an entry of this kind, its last. -/
def HaltsWith (property : Entry → Prop) (computation : Logged Entry Value) : Prop :=
  computation.result = none → ∃ before entry, computation.log = before ++ [entry] ∧ property entry

/-- A computation that does not halt logs this entry last. -/
def EndsWith (entry : Entry) (computation : Logged Entry Value) : Prop :=
  computation.result ≠ none → ∃ before, computation.log = before ++ [entry]

section Rules

variable {property : Entry → Prop} {first : Logged Entry Value}
  {second : Value → Logged Entry Next}

theorem every_pure (value : Value) : Every property (pure value : Logged Entry Value) :=
  List.forall_mem_nil _

theorem every_record {entry : Entry} (h : property entry) : Every property (record entry) :=
  List.forall_mem_singleton.mpr h

theorem every_halt {entry : Entry} (h : property entry) :
    Every property (halt entry : Logged Entry Value) :=
  List.forall_mem_singleton.mpr h

theorem Every.bind (hfirst : Every property first)
    (hsecond : ∀ value, Every property (second value)) : Every property (first >>= second) := by
  unfold Every
  rw [log_bind, List.forall_mem_append]
  refine ⟨hfirst, ?_⟩
  cases first.result with
  | none => exact List.forall_mem_nil _
  | some value => exact hsecond value

theorem haltsWith_pure (value : Value) : HaltsWith property (pure value : Logged Entry Value) :=
  fun hnone ↦ absurd hnone (Option.some_ne_none _)

theorem haltsWith_record (entry : Entry) : HaltsWith property (record entry) :=
  fun hnone ↦ absurd hnone (Option.some_ne_none _)

theorem haltsWith_halt {entry : Entry} (h : property entry) :
    HaltsWith property (halt entry : Logged Entry Value) :=
  fun _ ↦ ⟨[], entry, rfl, h⟩

theorem HaltsWith.bind (hfirst : HaltsWith property first)
    (hsecond : ∀ value, HaltsWith property (second value)) :
    HaltsWith property (first >>= second) := by
  intro hnone
  cases hresult : first.result with
  | none =>
    rw [bind_of_none hresult]
    exact hfirst hresult
  | some value =>
    rw [bind_of_some hresult] at hnone ⊢
    obtain ⟨before, entry, hlog, hentry⟩ := hsecond value hnone
    refine ⟨first.log ++ before, entry, ?_, hentry⟩
    rw [List.append_assoc, ← hlog]

/-- What the second part logs last is what the sequence logs last. -/
theorem EndsWith.bind {entry : Entry} (hsecond : ∀ value, EndsWith entry (second value)) :
    EndsWith entry (first >>= second) := by
  intro hsome
  cases hresult : first.result with
  | none =>
    rw [bind_of_none hresult] at hsome
    exact absurd rfl hsome
  | some value =>
    rw [bind_of_some hresult] at hsome ⊢
    obtain ⟨before, hlog⟩ := hsecond value hsome
    refine ⟨first.log ++ before, ?_⟩
    rw [List.append_assoc, ← hlog]

end Rules

end Logged

end WaterBuffalo
