import LinuxTutorial.TimerController.Basic

/-!
# The first known mode

Both `timer_event_thread` and `state_machine_thread` leave UNKNOW, and each for another mode.
-/

namespace LinuxTutorial.TimerController

open Transition

/-- A `timer_event_thread` iteration comes before the first `state_machine_thread` one. -/
def timerFirst : List Iteration → Bool
  | [] | .stateMachine :: _ => false
  | .timerEvent :: _ => true
  | .asciiRead _ :: xs => timerFirst xs

/-- No `'a'` and no `'d'` is read. -/
def Quiet (xs : List Iteration) : Prop := ∀ r, .asciiRead r ∈ xs → keyByte r = none

variable {a : Iteration} {g : Globals} {xs ys : List Iteration}

theorem Quiet.head (h : Quiet (a :: xs)) : ∀ r, a = .asciiRead r → keyByte r = none := by
  intro r hr
  exact h r (by simp [hr])

theorem Quiet.tail (h : Quiet (a :: xs)) : Quiet xs := fun r hr => h r (List.mem_cons_of_mem a hr)

/-- Without a supported byte no key comes up. -/
theorem step_quiet (hk : keyEvent g.keyPressed = none)
    (ha : ∀ r, a = .asciiRead r → keyByte r = none) :
    keyEvent (controller.step a g).2.keyPressed = none := by
  cases a with
  | asciiRead r => exact (keyEvent_toChar_getchar r).trans (ha r rfl)
  | timerEvent =>
    change keyEvent (timerEventThread g).2.keyPressed = none
    rw [timerEventThread_key]
    exact hk
  | stateMachine =>
    change keyEvent (stateMachineThread g).keyPressed = none
    rw [stateMachineThread_key]
    exact hk

/-- Without a key a known mode stays. -/
theorem step_state (hg : g.state ≠ .unknow) (hk : keyEvent g.keyPressed = none) :
    (controller.step a g).2.state = g.state := by
  cases a with
  | asciiRead r => rfl
  | timerEvent => exact timerEventThread_known hg
  | stateMachine =>
    obtain ⟨p, hp⟩ := StateDefine.exists_probe hg
    change (stateMachineThread g).state = g.state
    rw [stateMachineThread_probe hp.symm, switchKey_eq_stayPut.mpr hk, nextState_stayPut]
    exact hp

theorem run_known (hg : g.state ≠ .unknow) (hk : keyEvent g.keyPressed = none)
    (hxs : Quiet xs) : (controller.run g xs).state = g.state := by
  induction xs generalizing g with
  | nil => rfl
  | cons a xs ih =>
    have hstep := step_state (a := a) hg hk
    have hnext := ih (by rwa [hstep]) (step_quiet hk hxs.head) hxs.tail
    exact hnext.trans hstep

/-- From UNKNOW the first of the two threads decides: the timer for MV, the state machine for
COND. -/
theorem run_unknow (hg : g.state = .unknow) (hesc : g.ESCPressed = 0)
    (hk : keyEvent g.keyPressed = none) (hxs : Quiet xs) (hm : .stateMachine ∈ xs) :
    (controller.run g xs).state = if timerFirst xs then .mv else .cond := by
  induction xs generalizing g with
  | nil => simp at hm
  | cons a xs ih =>
    have hkey := step_quiet hk hxs.head
    cases a with
    | asciiRead r =>
      rcases List.mem_cons.mp hm with hr | hm
      · simp at hr
      · exact ih hg hesc hkey hxs.tail hm
    | timerEvent =>
      have hstep : (controller.step .timerEvent g).2.state = .mv := by
        simp [controller, timerEventThread, hg, hesc]
      have hrest := run_known (by simp [hstep]) hkey hxs.tail
      exact hrest.trans hstep
    | stateMachine =>
      have hstep : (controller.step .stateMachine g).2.state = .cond := by
        simp [controller, stateMachineThread, hg]
      have hrest := run_known (by simp [hstep]) hkey hxs.tail
      exact hrest.trans hstep

theorem Quiet.of_withoutTimer (h : withoutTimer xs = withoutTimer ys) (hxs : Quiet xs) :
    Quiet ys := by
  intro r hr
  have hmem : .asciiRead r ∈ withoutTimer ys := List.mem_filter.mpr ⟨hr, rfl⟩
  rw [← h] at hmem
  exact hxs r (List.mem_filter.mp hmem).1

theorem stateMachine_mem (h : withoutTimer xs = withoutTimer ys) (hm : .stateMachine ∈ xs) :
    .stateMachine ∈ ys := by
  have hmem : .stateMachine ∈ withoutTimer xs := List.mem_filter.mpr ⟨hm, rfl⟩
  rw [h] at hmem
  exact (List.mem_filter.mp hmem).1

/-- Two schedules that differ in their timer iterations end in the same mode exactly when the
timer comes first in both of them or in none. -/
theorem mode_eq_iff (h : withoutTimer xs = withoutTimer ys) (hm : .stateMachine ∈ xs)
    (hxs : Quiet xs) :
    (controller.run initial xs).state = (controller.run initial ys).state ↔
      timerFirst xs = timerFirst ys := by
  rw [run_unknow rfl rfl keyEvent_zero hxs hm,
    run_unknow rfl rfl keyEvent_zero (hxs.of_withoutTimer h) (stateMachine_mem h hm)]
  cases timerFirst xs <;> cases timerFirst ys <;> simp

/-- The timer comes first in both schedules. -/
theorem mode_eq_iff_timer :
    (controller.run initial [.timerEvent, .asciiRead (some 120), .stateMachine]).state =
      (controller.run initial
        [.asciiRead (some 120), .timerEvent, .stateMachine, .timerEvent]).state := by
  refine (mode_eq_iff rfl (by simp) ?_).mpr rfl
  intro r hr
  obtain rfl : r = some 120 := by simpa using hr
  rfl

/-- One timer iteration before the first state machine iteration changes the final mode. -/
theorem not_mode_eq : ¬ ∀ xs ys, withoutTimer xs = withoutTimer ys → .stateMachine ∈ xs →
    Quiet xs → (controller.run initial xs).state = (controller.run initial ys).state := by
  intro h
  have hquiet : Quiet [.stateMachine] := by
    intro r hr
    simp at hr
  have heq := h [.stateMachine] [.timerEvent, .stateMachine] rfl (by simp) hquiet
  exact absurd heq (by decide)

end LinuxTutorial.TimerController
