import LinuxTutorial.Keyboard
import Mathlib.Data.Fin.VecNotation

/-!
# Modes, probes and schedules

The enumerations that the three `StateMc_pThread*` controllers declare alike, the cycle of
their modes, and the loop bodies that a schedule names.
-/

namespace LinuxTutorial

/-- `State_t`. -/
inductive StateDefine
  | unknow
  | cond
  | ph
  | mv
  deriving DecidableEq, Repr

/-- The three probes: each known mode serves one of them. -/
inductive Probe
  | cond
  | ph
  | mv
  deriving DecidableEq, Repr

/-- The known mode of a probe. -/
def Probe.mode : Probe → StateDefine
  | .cond => .cond
  | .ph => .ph
  | .mv => .mv

@[simp] theorem Probe.mode_ne_unknow (p : Probe) : p.mode ≠ .unknow := by
  cases p <;> decide

theorem Probe.mode_injective : Function.Injective Probe.mode := by
  intro p q h
  cases p <;> cases q <;> first | rfl | cases h

/-- A mode other than `UNKNOW` is the mode of a probe. -/
theorem StateDefine.exists_probe {m : StateDefine} (h : m ≠ .unknow) : ∃ p : Probe, p.mode = m := by
  cases m with
  | unknow => exact (h rfl).elim
  | cond => exact ⟨.cond, rfl⟩
  | ph => exact ⟨.ph, rfl⟩
  | mv => exact ⟨.mv, rfl⟩

/-- `Status_t` of `StateMc_pThread.c` and of `StateMc_pThread_Sem.c`. -/
inductive Status
  | error
  | goodStatus
  | stayPut
  | goBack
  | goForward
  deriving DecidableEq, Repr

/-- The `switch (key_pressed_global)` that every service function contains. -/
def switchKey (c : Int8) : Status :=
  match keyEvent c with
  | some .left => .goBack
  | some .right => .goForward
  | none => .stayPut

/-- The `switch (status_local)` in the branch of each known mode. -/
def nextState : Probe → Status → StateDefine
  | .cond, .goBack => .mv
  | .cond, .goForward => .ph
  | .cond, _ => .cond
  | .ph, .goBack => .cond
  | .ph, .goForward => .mv
  | .ph, _ => .ph
  | .mv, .goBack => .ph
  | .mv, .goForward => .cond
  | .mv, _ => .mv

/-- A table entry at a counter reduced modulo the table length. -/
def entry {n : ℕ} (data : Fin (n + 1) → Int32) (i : UInt32) : Int32 :=
  data ⟨i.toNat % (n + 1), Nat.mod_lt _ n.succ_pos⟩

/-- A value that `timer_event_thread` assigned, and the probe it belongs to. -/
structure Sample where
  probe : Probe
  value : Int32
  deriving DecidableEq, Repr

/-- The value of a sample taken at the given probe. -/
def Sample.at? (p : Probe) (x : Sample) : Option Int32 := if x.probe = p then some x.value else none

theorem switchKey_of_keyEvent {c : Int8} {k : KeyEvent} (h : keyEvent c = some k) :
    switchKey c = switchKey k.char := by
  rw [keyEvent_eq_some.mp h]

theorem switchKey_eq_stayPut {c : Int8} : switchKey c = .stayPut ↔ keyEvent c = none := by
  simp only [switchKey]
  cases keyEvent c with
  | none => simp
  | some k => cases k <;> simp

@[simp] theorem nextState_ne_unknow (p : Probe) (st : Status) : nextState p st ≠ .unknow := by
  cases p <;> cases st <;> decide

@[simp] theorem nextState_stayPut (p : Probe) : nextState p .stayPut = p.mode := by
  cases p <;> rfl

/-- Which loop body runs next, with the `getchar` result where one is read. -/
inductive Iteration
  | asciiRead (r : Option UInt8)
  | timerEvent
  | stateMachine
  deriving DecidableEq, Repr

/-- The threads whose loop bodies they are. -/
inductive Iteration.Thread
  | asciiRead
  | timerEvent
  | stateMachine
  deriving DecidableEq, Repr

def Iteration.thread : Iteration → Iteration.Thread
  | .asciiRead _ => .asciiRead
  | .timerEvent => .timerEvent
  | .stateMachine => .stateMachine

def Iteration.isTimer : Iteration → Bool
  | .timerEvent => true
  | _ => false

/-- The schedule without its `timer_event_thread` iterations. -/
def withoutTimer (xs : List Iteration) : List Iteration := xs.filter fun a => !a.isTimer

end LinuxTutorial
