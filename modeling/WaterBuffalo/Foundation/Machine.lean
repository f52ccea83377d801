import WaterBuffalo.Foundation.Words
import Mathlib.Logic.Function.Basic
import Mathlib.Data.List.Induction

/-!
# Straight-line x86-64 code

The general registers, a stack that grows downwards in memory, and the few instructions that save
and restore a context.  A block of instructions is run from its first to its last; the rules say
what a sequence of pushes leaves on the stack, and what a sequence of pops takes off it.
-/

namespace WaterBuffalo.X86

open ByteMemory

inductive Register where
  | rax
  | rbx
  | rcx
  | rdx
  | rsi
  | rdi
  | rbp
  | rsp
  | r8
  | r9
  | r10
  | r11
  | r12
  | r13
  | r14
  | r15
  deriving DecidableEq, Repr

/-- The state of the processor that the code sees. -/
structure Machine where
  registers : Register → Word
  rip : Word
  rflags : Word
  cs : BitVec 16
  ss : BitVec 16
  memory : Memory

namespace Machine

def rsp (m : Machine) : Word :=
  m.registers .rsp

def set (m : Machine) (register : Register) (value : Word) : Machine :=
  { m with registers := Function.update m.registers register value }

def push (m : Machine) (value : Word) : Machine :=
  let m := m.set .rsp (m.rsp - 8)
  { m with memory := store64 m.memory m.rsp value }

/-- The word on top of the stack, and the stack without it. -/
def pop (m : Machine) : Word × Machine :=
  (load64 m.memory m.rsp, m.set .rsp (m.rsp + 8))

/-- One push after the other. -/
def pushAll (m : Machine) (values : List Word) : Machine :=
  values.foldl push m

end Machine

inductive Instruction where
  | cld
  | pushImmediate (value : BitVec 32)
  | pushq (source : Register)
  | popq (target : Register)
  | movq (source target : Register)
  | andq (value : BitVec 32) (target : Register)
  | addq (value : BitVec 32) (target : Register)
  deriving DecidableEq, Repr

/-- The direction flag. -/
def directionFlag : Word := 1#64 <<< 10

/-- The effect of an instruction.  Immediate operands are sign extended; of the arithmetic flags,
which no instruction here reads, no account is kept. -/
def Instruction.run (m : Machine) : Instruction → Machine
  | .cld => { m with rflags := m.rflags &&& ~~~directionFlag }
  | .pushImmediate value => m.push (value.signExtend 64)
  | .pushq source => m.push (m.registers source)
  | .popq target =>
    let (value, m) := m.pop
    m.set target value
  | .movq source target => m.set target (m.registers source)
  | .andq value target => m.set target (m.registers target &&& value.signExtend 64)
  | .addq value target => m.set target (m.registers target + value.signExtend 64)

/-- A block of instructions. -/
def run (m : Machine) (block : List Instruction) : Machine :=
  block.foldl Instruction.run m

theorem run_cons (m : Machine) (instruction : Instruction) (block : List Instruction) :
    run m (instruction :: block) = run (instruction.run m) block :=
  rfl

theorem run_append (m : Machine) (first second : List Instruction) :
    run m (first ++ second) = run (run m first) second :=
  List.foldl_append

/-! ## The stack -/

section Stack

variable {m : Machine} {values : List Word} {registers : List Register}

theorem pushAll_concat (m : Machine) (values : List Word) (value : Word) :
    m.pushAll (values ++ [value]) = (m.pushAll values).push value := by
  rw [Machine.pushAll, List.foldl_append]
  rfl

theorem pushAll_append (m : Machine) (first second : List Word) :
    m.pushAll (first ++ second) = (m.pushAll first).pushAll second :=
  List.foldl_append

@[simp] theorem set_self (m : Machine) (register : Register) (value : Word) :
    (m.set register value).registers register = value := by
  simp only [Machine.set, Function.update_self]

theorem set_of_ne {register other : Register} (h : other ≠ register) (m : Machine) (value : Word) :
    (m.set register value).registers other = m.registers other := by
  simp only [Machine.set, Function.update_of_ne h]

@[simp] theorem push_rsp (m : Machine) (value : Word) : (m.push value).rsp = m.rsp - 8 :=
  set_self m .rsp (m.rsp - 8)

theorem push_register {register : Register} (h : register ≠ .rsp) (m : Machine) (value : Word) :
    (m.push value).registers register = m.registers register :=
  set_of_ne h m (m.rsp - 8)

@[simp] theorem push_memory (m : Machine) (value : Word) :
    (m.push value).memory = store64 m.memory (m.rsp - 8) value :=
  congrArg (store64 m.memory · value) (set_self m .rsp (m.rsp - 8))

/-- What pushing leaves alone. -/
theorem pushAll_context (m : Machine) (values : List Word) :
    (m.pushAll values).rip = m.rip ∧ (m.pushAll values).rflags = m.rflags ∧
      (m.pushAll values).cs = m.cs ∧ (m.pushAll values).ss = m.ss ∧
      ∀ register, register ≠ .rsp →
        (m.pushAll values).registers register = m.registers register := by
  induction values generalizing m with
  | nil => exact ⟨rfl, rfl, rfl, rfl, fun _ _ ↦ rfl⟩
  | cons value values ih =>
    obtain ⟨hrip, hrflags, hcs, hss, hregisters⟩ := ih (m.push value)
    refine ⟨hrip, hrflags, hcs, hss, fun register hregister ↦ ?_⟩
    exact (hregisters register hregister).trans (push_register hregister m value)

/-- Pushing depends on the registers and the memory only. -/
theorem pushAll_congr {first second : Machine} (values : List Word)
    (hregisters : first.registers = second.registers) (hmemory : first.memory = second.memory) :
    (first.pushAll values).registers = (second.pushAll values).registers ∧
      (first.pushAll values).memory = (second.pushAll values).memory := by
  induction values generalizing first second with
  | nil => exact ⟨hregisters, hmemory⟩
  | cons value values ih =>
    have hrsp : first.rsp = second.rsp := congrFun hregisters .rsp
    apply ih
    · simp only [Machine.push, Machine.set, hregisters, hrsp]
    · rw [push_memory, push_memory, hmemory, hrsp]

theorem pushAll_rsp (m : Machine) (values : List Word) :
    (m.pushAll values).rsp = m.rsp - BitVec.ofNat 64 (8 * values.length) := by
  induction values generalizing m with
  | nil => exact (BitVec.sub_zero _).symm
  | cons value values ih =>
    have hsum : BitVec.ofNat 64 (8 * (values.length + 1)) =
        8 + BitVec.ofNat 64 (8 * values.length) := by
      rw [Nat.mul_succ, Nat.add_comm, BitVec.ofNat_add]
      rfl
    calc
      (m.pushAll (value :: values)).rsp =
          (m.push value).rsp - BitVec.ofNat 64 (8 * values.length) := ih (m.push value)
      _ = m.rsp - BitVec.ofNat 64 (8 * (values.length + 1)) := by
        rw [push_rsp, hsum]
        ring

/-- A store below the stack pointer does not reach the words above it. -/
theorem not_within_slot {pointer target : Word} {size : ℕ} (hsize : size + 8 ≤ 2 ^ 64)
    (h : Within pointer size target) : ¬ Within (pointer - 8) 8 target := by
  have hsplit : target - (pointer - 8) = target - pointer + 8 := by ring
  unfold Within at h ⊢
  rw [hsplit, BitVec.toNat_add]
  have height : (8 : Word).toNat = 8 := rfl
  omega

/-- The words pushed stand on the stack, the last one on top. -/
theorem wordsAt_pushAll (m : Machine) (values : List Word) (hlength : 8 * values.length ≤ 2 ^ 64) :
    wordsAt (m.pushAll values).memory (m.pushAll values).rsp values.length = values.reverse := by
  induction values using List.reverseRecOn with
  | nil => rfl
  | append_singleton values value ih =>
    rw [List.length_append, List.length_singleton] at hlength ⊢
    have hrest := ih (by omega)
    have hslot : (m.pushAll values).rsp - 8 + 8 = (m.pushAll values).rsp := by ring
    have hkept : wordsAt (store64 (m.pushAll values).memory ((m.pushAll values).rsp - 8) value)
        (m.pushAll values).rsp values.length = values.reverse := by
      rw [← hrest]
      apply wordsAt_congr (by omega)
      intro target htarget
      exact store64_of_not_within (not_within_slot (by omega) htarget)
    rw [pushAll_concat, push_rsp, push_memory, wordsAt, load64_store64_self, hslot, hkept,
      List.reverse_append]
    rfl

/-- Pushing writes nothing outside the slots it takes. -/
theorem pushAll_memory_of_not_within {target : Word} (hlength : 8 * values.length ≤ 2 ^ 64)
    (h : ¬ Within (m.pushAll values).rsp (8 * values.length) target) :
    (m.pushAll values).memory target = m.memory target := by
  induction values using List.reverseRecOn with
  | nil => rfl
  | append_singleton values value ih =>
    rw [List.length_append, List.length_singleton] at hlength h
    rw [pushAll_concat, push_rsp] at h
    have hsplit : target - (m.pushAll values).rsp = target - ((m.pushAll values).rsp - 8) - 8 := by
      ring
    have houtside : ¬ Within ((m.pushAll values).rsp - 8) 8 target := by
      unfold Within at h ⊢
      omega
    rw [pushAll_concat, push_memory, store64_of_not_within houtside]
    apply ih (by omega)
    unfold Within at h houtside ⊢
    rw [hsplit, BitVec.toNat_sub]
    have height : (8 : Word).toNat = 8 := rfl
    have hbound := (target - ((m.pushAll values).rsp - 8)).isLt
    omega

/-- Saving registers: none of them is the stack pointer. -/
theorem run_pushq (m : Machine) (hregisters : .rsp ∉ registers) :
    run m (registers.map .pushq) = m.pushAll (registers.map m.registers) := by
  induction registers generalizing m with
  | nil => rfl
  | cons register registers ih =>
    rw [List.mem_cons, not_or] at hregisters
    have hrest : registers.map (m.push (m.registers register)).registers =
        registers.map m.registers := by
      apply List.map_congr_left
      intro other hother
      apply push_register
      rintro rfl
      exact hregisters.2 hother
    have hpushed := ih (m.push (m.registers register)) hregisters.2
    rw [hrest] at hpushed
    exact hpushed

/-- Restoring registers: what each pop takes, and what they leave alone. -/
theorem run_popq (m : Machine) (hregisters : .rsp ∉ registers) (hnodup : registers.Nodup) :
    registers.map (run m (registers.map .popq)).registers =
        wordsAt m.memory m.rsp registers.length ∧
      (run m (registers.map .popq)).rsp = m.rsp + BitVec.ofNat 64 (8 * registers.length) ∧
      (∀ register, register ∉ registers → register ≠ .rsp →
        (run m (registers.map .popq)).registers register = m.registers register) ∧
      (run m (registers.map .popq)).memory = m.memory ∧
      (run m (registers.map .popq)).rip = m.rip ∧
      (run m (registers.map .popq)).rflags = m.rflags ∧
      (run m (registers.map .popq)).cs = m.cs ∧ (run m (registers.map .popq)).ss = m.ss := by
  induction registers generalizing m with
  | nil =>
    exact ⟨rfl, (BitVec.add_zero _).symm, fun _ _ _ ↦ rfl, rfl, rfl, rfl, rfl, rfl⟩
  | cons register registers ih =>
    rw [List.mem_cons, not_or] at hregisters
    rw [List.nodup_cons] at hnodup
    set popped := (Instruction.popq register).run m with hpopped
    have hstep : run m ((register :: registers).map .popq) = run popped (registers.map .popq) := rfl
    have htop : popped.registers register = load64 m.memory m.rsp := set_self m.pop.2 register _
    have hrsp : popped.rsp = m.rsp + 8 := by
      calc
        popped.rsp = (m.set .rsp (m.rsp + 8)).rsp := set_of_ne hregisters.1 m.pop.2 _
        _ = m.rsp + 8 := set_self m .rsp _
    have hother : ∀ other, other ≠ register → other ≠ .rsp →
        popped.registers other = m.registers other := by
      intro other hregister hpointer
      calc
        popped.registers other = (m.set .rsp (m.rsp + 8)).registers other :=
          set_of_ne hregister m.pop.2 _
        _ = m.registers other := set_of_ne hpointer m _
    obtain ⟨hvalues, hpointer, hkept, hmemory, hrest⟩ := ih popped hregisters.2 hnodup.2
    rw [hstep]
    refine ⟨?_, ?_, ?_, hmemory, hrest⟩
    · rw [List.map_cons, hvalues, hkept register hnodup.1 (Ne.symm hregisters.1), htop, hrsp]
      rfl
    · rw [hpointer, hrsp, add_eight]
      rfl
    · intro other hmember hne
      rw [List.mem_cons, not_or] at hmember
      rw [hkept other hmember.2 hne, hother other hmember.1 hne]

end Stack

end WaterBuffalo.X86
