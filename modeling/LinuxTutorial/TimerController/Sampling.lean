import LinuxTutorial.TimerController.Basic

/-!
# One counter for three tables

`timer_event_thread` reads the table of the current mode at the counter `i`, which the
readings of the other two probes advance as well.
-/

namespace LinuxTutorial.TimerController

open Transition

/-- The table of a probe. -/
def table : Probe → Fin 5 → Int32
  | .cond => condData
  | .ph => phData
  | .mv => mvData

/-- Two values that follow each other in the table, the first entry after the last one. -/
def Consecutive (p : Probe) (v v' : Int32) : Prop :=
  ∃ k : Fin 5, v = table p k ∧ v' = table p (k + 1)

variable {g : Globals} {p : Probe} {v v' : Int32} {pre mid : List Iteration}

theorem table_injective (p : Probe) : Function.Injective (table p) := by
  cases p <;> decide

/-- What `timer_event_thread` does when it assigns a value. -/
theorem timerEvent_sample (h : (controller.step .timerEvent g).1 = some ⟨p, v⟩) :
    g.ESCPressed = 0 ∧ g.state = p.mode ∧ v = entry (table p) g.i ∧
      (controller.step .timerEvent g).2.i = g.i + 1 := by
  by_cases hesc : g.ESCPressed = 0
  · cases hm : g.state <;>
      simp only [controller, timerEventThread, hesc, hm, ne_eq, not_true_eq_false, if_false,
        Option.some.injEq, Sample.mk.injEq, reduceCtorEq] at h
    all_goals
      obtain ⟨rfl, rfl⟩ := h
      exact ⟨hesc, rfl, rfl, by simp [controller, timerEventThread, hesc, hm]⟩
  · simp [controller, timerEventThread, hesc] at h

/-- In a known mode every timer iteration advances the counter, whatever the mode is. -/
theorem step_i (a : Iteration) (hg : g.state ≠ .unknow) (hesc : g.ESCPressed = 0) :
    (controller.step a g).2.i = g.i + UInt32.ofNat a.isTimer.toNat := by
  cases a with
  | asciiRead r => exact (UInt32.add_zero g.i).symm
  | timerEvent => cases hm : g.state <;> simp_all [controller, timerEventThread, Iteration.isTimer]
  | stateMachine =>
    cases hm : g.state <;> simp [controller, stateMachineThread, hm, Iteration.isTimer]

theorem run_i (xs : List Iteration) (hg : g.state ≠ .unknow) (hesc : g.ESCPressed = 0) :
    (controller.run g xs).i = g.i + UInt32.ofNat (xs.countP Iteration.isTimer) := by
  induction xs generalizing g with
  | nil => exact (UInt32.add_zero g.i).symm
  | cons a xs ih =>
    rw [Transducer.run_cons, ih (step_known a hg) ((step_ESCPressed a g).trans hesc),
      step_i a hg hesc]
    cases ha : a.isTimer <;> simp [ha, UInt32.add_assoc, UInt32.add_comm]

/-- The values at two counters follow each other exactly when the counters do, modulo five. -/
theorem consecutive_entry {i j : UInt32} : Consecutive p (entry (table p) i) (entry (table p) j) ↔
    j.toNat % 5 = (i.toNat % 5 + 1) % 5 := by
  constructor
  · rintro ⟨k, hi, hj⟩
    have hik := congrArg Fin.val (table_injective p hi)
    have hjk := congrArg Fin.val (table_injective p hj)
    simp only [Fin.val_add, Fin.val_one] at hik hjk
    omega
  · intro h
    refine ⟨⟨i.toNat % 5, Nat.mod_lt _ (by decide)⟩, rfl, ?_⟩
    refine congrArg (table p) (Fin.ext ?_)
    simpa [Fin.val_add] using h

/-- Two readings of a probe are consecutive exactly when the timer iterations in between are a
multiple of five, but for one more each time the counter wraps. -/
theorem consecutive_iff (hv : (controller.step .timerEvent (controller.run initial pre)).1 =
      some ⟨p, v⟩)
    (hv' : (controller.step .timerEvent
      (controller.run initial (pre ++ .timerEvent :: mid))).1 = some ⟨p, v'⟩) :
    Consecutive p v v' ↔ mid.countP Iteration.isTimer % 5 =
      ((controller.run initial pre).i.toNat + 1 + mid.countP Iteration.isTimer) / 2 ^ 32 % 5 := by
  obtain ⟨hesc, hmode, rfl, hi⟩ := timerEvent_sample hv
  obtain ⟨-, -, rfl, -⟩ := timerEvent_sample hv'
  have hknown : (controller.run initial pre).state ≠ .unknow := by simp [hmode]
  have hindex := run_i mid (step_known .timerEvent hknown)
    ((step_ESCPressed .timerEvent _).trans hesc)
  rw [Transducer.run_append, Transducer.run_cons, hindex, hi, consecutive_entry]
  have htoNat : (((controller.run initial pre).i + 1) +
      UInt32.ofNat (mid.countP Iteration.isTimer)).toNat =
      ((controller.run initial pre).i.toNat + 1 + mid.countP Iteration.isTimer) % 2 ^ 32 := by
    simp [UInt32.toNat_add]
  rw [htoNat]
  omega

/-- Two readings of the conductivity in a row. -/
theorem consecutive_iff_cond : Consecutive .cond 1 2 := by
  have hv : (controller.step .timerEvent (controller.run initial [.stateMachine])).1 =
      some ⟨.cond, 1⟩ := rfl
  have hv' : (controller.step .timerEvent
      (controller.run initial ([.stateMachine] ++ .timerEvent :: []))).1 = some ⟨.cond, 2⟩ := rfl
  exact (consecutive_iff hv hv').mpr rfl

/-- With one reading of the pH value in between, the conductivity goes from its first entry to
its third. -/
theorem not_consecutive : ¬ ∀ p v v' pre mid,
    (controller.step .timerEvent (controller.run initial pre)).1 = some ⟨p, v⟩ →
    (controller.step .timerEvent
      (controller.run initial (pre ++ .timerEvent :: mid))).1 = some ⟨p, v'⟩ →
    (∀ x ∈ controller.outputs (controller.run initial (pre ++ [.timerEvent])) mid,
      x.probe ≠ p) →
    Consecutive p v v' := by
  intro h
  have hskip := h .cond 1 3 [.stateMachine]
    [.asciiRead (some 100), .stateMachine, .timerEvent, .asciiRead (some 97), .stateMachine]
    rfl rfl (by decide)
  exact absurd hskip (by unfold Consecutive; decide)

end LinuxTutorial.TimerController
