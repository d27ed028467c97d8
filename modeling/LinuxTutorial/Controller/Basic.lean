import LinuxTutorial.ModeCycle
import LinuxTutorial.Transition.Schedule

/-!
# `StateMc_pThread.c`, one loop iteration at a time

The globals of the controller and the bodies of its three thread loops, each run without
interruption.
-/

namespace LinuxTutorial.Controller

/-- The global variables of `StateMc_pThread.c` that its threads use. -/
structure Globals where
  keyPressedGlobal : Int8 := 0
  stateSingleton : StateDefine := .unknow
  condIndex : UInt32 := 0
  conductivity : Int32 := 0
  phIndex : UInt32 := 0
  phValue : Int32 := 0
  mvIndex : UInt32 := 0
  miliVoltValue : Int32 := 0
  deriving DecidableEq, Repr

def condData : Fin 10 → Int32 := ![10, 11, 12, 13, 14, 15, 16, 17, 18, 19]

def phData : Fin 10 → Int32 := ![20, 21, 22, 23, 24, 25, 26, 27, 28, 29]

def mvData : Fin 10 → Int32 := ![30, 31, 32, 33, 34, 35, 36, 37, 38, 39]

/-- The globals at program start. -/
def initial : Globals := {}

/-- The text that `service_cond`, `service_ph` and `service_miliVolt` share: act on the
key, then clear the message flag. -/
def service (g : Globals) : Status × Globals :=
  (switchKey g.keyPressedGlobal, { g with keyPressedGlobal := newline })

def serviceCond (g : Globals) : Status × Globals := service g

def servicePh (g : Globals) : Status × Globals := service g

def serviceMiliVolt (g : Globals) : Status × Globals := service g

/-- The loop body of `state_machine_thread`. -/
def stateMachineThread (g : Globals) : Globals :=
  match g.stateSingleton with
  | .cond =>
    let (statusLocal, g) := serviceCond g
    { g with stateSingleton := nextState .cond statusLocal }
  | .ph =>
    let (statusLocal, g) := servicePh g
    { g with stateSingleton := nextState .ph statusLocal }
  | .mv =>
    let (statusLocal, g) := serviceMiliVolt g
    { g with stateSingleton := nextState .mv statusLocal }
  | .unknow => { g with stateSingleton := .cond }

/-- The loop body of `timer_event_thread`, with the value it assigns. -/
def timerEventThread (g : Globals) : Option Sample × Globals :=
  match g.stateSingleton with
  | .cond =>
    let v := entry condData g.condIndex
    (some ⟨.cond, v⟩, { g with condIndex := g.condIndex + 1, conductivity := v })
  | .ph =>
    let v := entry phData g.phIndex
    (some ⟨.ph, v⟩, { g with phIndex := g.phIndex + 1, phValue := v })
  | .mv =>
    let v := entry mvData g.mvIndex
    (some ⟨.mv, v⟩, { g with mvIndex := g.mvIndex + 1, miliVoltValue := v })
  | .unknow => (none, { g with stateSingleton := .cond })

def verifyUserInput (keyEntry : Int8) : Status :=
  let asciiKey : UInt32 := keyEntry.toInt32.toUInt32
  if asciiKey = 97 then .goodStatus
  else if asciiKey = 100 then .goodStatus
  else if asciiKey = 10 then .goodStatus
  else .error

/-- What `ascii_read_thread` stores for a byte, if it stores anything. -/
def accepts (keyEntry : Int8) : Prop :=
  keyEntry ≠ newline ∧ verifyUserInput keyEntry = .goodStatus

instance (keyEntry : Int8) : Decidable (accepts keyEntry) :=
  inferInstanceAs (Decidable (_ ∧ _))

/-- The loop body of `ascii_read_thread`. -/
def asciiReadThread (r : Option UInt8) (g : Globals) : Globals :=
  let keyEntry := toChar (getchar r)
  if accepts keyEntry then { g with keyPressedGlobal := keyEntry } else g

/-- Exactly the two supported keys reach the mailbox. -/
theorem accepts_iff {c : Int8} : accepts c ↔ (keyEvent c).isSome := by
  have hl : c.toInt32.toUInt32 = 97 ↔ c = KeyEvent.left.char := toUInt32_inj (d := 97)
  have hr : c.toInt32.toUInt32 = 100 ↔ c = KeyEvent.right.char := toUInt32_inj (d := 100)
  have hn : c.toInt32.toUInt32 = 10 ↔ c = newline := toUInt32_inj (d := 10)
  simp only [accepts, verifyUserInput, keyEvent, hl, hr, hn]
  by_cases h1 : c = KeyEvent.left.char
  · subst h1
    decide
  · by_cases h2 : c = KeyEvent.right.char
    · subst h2
      decide
    · by_cases h3 : c = newline
      · subst h3
        decide
      · simp [h1, h2, h3]

/-- An iteration of `ascii_read_thread` stores the key it reads and ignores every other
byte. -/
theorem asciiReadThread_eq (r : Option UInt8) (g : Globals) :
    asciiReadThread r g =
      match keyByte r with
      | some k => { g with keyPressedGlobal := k.char }
      | none => g := by
  simp only [asciiReadThread, accepts_iff, keyEvent_toChar_getchar]
  cases h : keyByte r with
  | none => simp
  | some k =>
    have hc := keyEvent_eq_some.mp ((keyEvent_toChar_getchar r).trans h)
    simp [hc]

/-- An iteration of `state_machine_thread` that starts in the mode of a probe. -/
theorem stateMachineThread_probe {g : Globals} {p : Probe} (h : g.stateSingleton = p.mode) :
    stateMachineThread g =
      { g with
        keyPressedGlobal := newline
        stateSingleton := nextState p (switchKey g.keyPressedGlobal) } := by
  cases p <;> simp only [Probe.mode] at h <;>
    simp [stateMachineThread, h, serviceCond, servicePh, serviceMiliVolt, service]

theorem stateMachineThread_unknow {g : Globals} (h : g.stateSingleton = .unknow) :
    stateMachineThread g = { g with stateSingleton := .cond } := by
  simp [stateMachineThread, h]

/-- In a known mode `timer_event_thread` touches neither the mode nor the mailbox. -/
theorem timerEventThread_known {g : Globals} (h : g.stateSingleton ≠ .unknow) :
    (timerEventThread g).2.stateSingleton = g.stateSingleton ∧
      (timerEventThread g).2.keyPressedGlobal = g.keyPressedGlobal := by
  cases hm : g.stateSingleton <;> simp_all [timerEventThread]

theorem timerEventThread_unknow {g : Globals} (h : g.stateSingleton = .unknow) :
    timerEventThread g = (none, { g with stateSingleton := .cond }) := by
  simp [timerEventThread, h]

/-- The controller under schedules of whole iterations. -/
def controller : Transition.Transducer Globals Iteration Sample where
  step
    | .asciiRead r, g => (none, asciiReadThread r g)
    | .timerEvent, g => timerEventThread g
    | .stateMachine, g => (none, stateMachineThread g)

end LinuxTutorial.Controller
