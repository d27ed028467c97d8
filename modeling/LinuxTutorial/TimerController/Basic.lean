import LinuxTutorial.ModeCycle
import LinuxTutorial.Transition.Schedule

/-!
# `StateMc_pThread_Timer.c`, one loop iteration at a time

The older controller: every byte read is stored, and no service function clears the key.
-/

namespace LinuxTutorial.TimerController

/-- `Status_t` of `StateMc_pThread_Timer.c`. -/
inductive Status
  | error
  | goBack
  | goForward
  deriving DecidableEq, Repr

/-- The global variables of `StateMc_pThread_Timer.c` that its threads use. All three tables
are read through the one counter `i`. -/
structure Globals where
  ESCPressed : Int32 := 0
  keyPressed : Int8 := 0
  state : StateDefine := .unknow
  i : UInt32 := 0
  conductivity : Int32 := 0
  phValue : Int32 := 0
  miliVoltValue : Int32 := 0
  deriving DecidableEq, Repr

def condData : Fin 5 → Int32 := ![1, 2, 3, 4, 5]

def phData : Fin 5 → Int32 := ![11, 12, 13, 14, 15]

def mvData : Fin 5 → Int32 := ![21, 22, 23, 24, 25]

/-- The globals at program start. -/
def initial : Globals := {}

/-- The text that `service_cond`, `service_ph` and `service_miliVolt` share. -/
def service (g : Globals) : Status :=
  match keyEvent g.keyPressed with
  | some .left => .goBack
  | some .right => .goForward
  | none => .error

def serviceCond (g : Globals) : Status := service g

def servicePh (g : Globals) : Status := service g

def serviceMiliVolt (g : Globals) : Status := service g

/-- The `switch (status_local)` in the branch of each known mode. -/
def nextState : Probe → Status → StateDefine
  | .cond, .goBack => .mv
  | .cond, .goForward => .ph
  | .cond, _ => .cond
  | .ph, .goBack => .cond
  | .ph, .goForward => .mv
  | .ph, _ => .ph
  | .mv, .goBack => .ph
  | .mv, .goForward => .cond
  | .mv, _ => .mv

/-- The loop body of `state_machine_thread`. -/
def stateMachineThread (g : Globals) : Globals :=
  match g.state with
  | .cond => { g with state := nextState .cond (serviceCond g) }
  | .ph => { g with state := nextState .ph (servicePh g) }
  | .mv => { g with state := nextState .mv (serviceMiliVolt g) }
  | .unknow => { g with state := .cond }

/-- The loop body of `ascii_read_thread`: the comparison with ESC guards a `printf` only. -/
def asciiReadThread (r : Option UInt8) (g : Globals) : Globals :=
  { g with keyPressed := toChar (getchar r) }

/-- The loop body of `timer_event_thread`, with the value it assigns. Once `ESCPressed` is
set the loop has ended. -/
def timerEventThread (g : Globals) : Option Sample × Globals :=
  if g.ESCPressed ≠ 0 then (none, g)
  else
    match g.state with
    | .cond =>
      let v := entry condData g.i
      (some ⟨.cond, v⟩, { g with i := g.i + 1, conductivity := v })
    | .ph =>
      let v := entry phData g.i
      (some ⟨.ph, v⟩, { g with i := g.i + 1, phValue := v })
    | .mv =>
      let v := entry mvData g.i
      (some ⟨.mv, v⟩, { g with i := g.i + 1, miliVoltValue := v })
    | .unknow => (none, { g with state := .mv })

/-- The controller under schedules of whole iterations. -/
def controller : Transition.Transducer Globals Iteration Sample where
  step
    | .asciiRead r, g => (none, asciiReadThread r g)
    | .timerEvent, g => timerEventThread g
    | .stateMachine, g => (none, stateMachineThread g)

/-- This controller turns exactly as `StateMc_pThread.c` does for the same key. -/
theorem nextState_service (p : Probe) (g : Globals) :
    nextState p (service g) = LinuxTutorial.nextState p (switchKey g.keyPressed) := by
  simp only [service, switchKey]
  cases keyEvent g.keyPressed with
  | none => cases p <;> rfl
  | some k => cases k <;> cases p <;> rfl

/-- An iteration of `state_machine_thread` that starts in the mode of a probe. -/
theorem stateMachineThread_probe {g : Globals} {p : Probe} (h : g.state = p.mode) :
    stateMachineThread g =
      { g with state := LinuxTutorial.nextState p (switchKey g.keyPressed) } := by
  rw [← nextState_service]
  cases p <;> simp only [Probe.mode] at h <;>
    simp [stateMachineThread, h, serviceCond, servicePh, serviceMiliVolt]

theorem stateMachineThread_unknow {g : Globals} (h : g.state = .unknow) :
    stateMachineThread g = { g with state := .cond } := by
  simp [stateMachineThread, h]

/-- In a known mode `timer_event_thread` leaves the mode alone. -/
theorem timerEventThread_known {g : Globals} (h : g.state ≠ .unknow) :
    (timerEventThread g).2.state = g.state := by
  by_cases hesc : g.ESCPressed = 0
  · cases hm : g.state <;> simp_all [timerEventThread]
  · simp [timerEventThread, hesc]

/-- `state_machine_thread` never clears the key. -/
theorem stateMachineThread_key (g : Globals) :
    (stateMachineThread g).keyPressed = g.keyPressed := by
  cases hm : g.state <;> simp [stateMachineThread, hm]

/-- `timer_event_thread` never touches the key. -/
theorem timerEventThread_key (g : Globals) :
    (timerEventThread g).2.keyPressed = g.keyPressed := by
  by_cases hesc : g.ESCPressed = 0
  · cases hm : g.state <;> simp_all [timerEventThread]
  · simp [timerEventThread, hesc]

/-- No iteration ends the loop of `timer_event_thread`. -/
theorem step_ESCPressed (a : Iteration) (g : Globals) :
    (controller.step a g).2.ESCPressed = g.ESCPressed := by
  cases a with
  | asciiRead r => rfl
  | timerEvent =>
    by_cases hesc : g.ESCPressed = 0
    · cases hm : g.state <;> simp_all [controller, timerEventThread]
    · simp [controller, timerEventThread, hesc]
  | stateMachine => cases hm : g.state <;> simp [controller, stateMachineThread, hm]

/-- A known mode never becomes UNKNOW again. -/
theorem step_known (a : Iteration) {g : Globals} (h : g.state ≠ .unknow) :
    (controller.step a g).2.state ≠ .unknow := by
  cases a with
  | asciiRead r => exact h
  | timerEvent =>
    change (timerEventThread g).2.state ≠ .unknow
    rw [timerEventThread_known h]
    exact h
  | stateMachine =>
    obtain ⟨p, hp⟩ := StateDefine.exists_probe h
    change (stateMachineThread g).state ≠ .unknow
    rw [stateMachineThread_probe hp.symm]
    exact nextState_ne_unknow _ _

end LinuxTutorial.TimerController
