import LinuxTutorial.Controller.Basic
import LinuxTutorial.Transition.Trace

/-!
# `StateMc_pThread.c`, one shared access at a time

Every single read or write of `key_pressed_global` and of `state_singleton` is a step of its
own. The three threads interleave freely, nothing in the program orders them.
-/

namespace LinuxTutorial.Controller.Atomic

open Transition

/-- Where `ascii_read_thread` is: before `getchar`, or about to store an accepted key. -/
inductive ReaderPC
  | loop
  | store (keyEntry : Int8)
  deriving DecidableEq, Repr

/-- Where `timer_event_thread` is: before its `switch`, or inside the `default` branch. -/
inductive TimerPC
  | loop
  | store
  deriving DecidableEq, Repr

/-- Where `state_machine_thread` is: before its `switch`, before the `switch` of a service
function, before the clear of that function, or before a store of the mode. -/
inductive MachinePC
  | loop
  | service (p : Probe)
  | clear (p : Probe) (statusLocal : Status)
  | store (m : StateDefine)
  deriving DecidableEq, Repr

structure State extends Globals where
  reader : ReaderPC := .loop
  timer : TimerPC := .loop
  machine : MachinePC := .loop
  deriving DecidableEq, Repr

/-- The shared access that a step performs, and the bytes read. -/
inductive Event
  | getchar (r : Option UInt8)
  | keyStore (c : Int8)
  | timerLoad (m : StateDefine)
  | timerStore
  | machineLoad (m : StateDefine)
  | serviceLoad (p : Probe) (c : Int8)
  | serviceReturn (p : Probe) (statusLocal : Status)
  | machineStore (m : StateDefine)
  deriving DecidableEq, Repr

/-- A step of `state_machine_thread`. -/
def Event.ofMachine : Event → Bool
  | .machineLoad _ | .serviceLoad _ _ | .serviceReturn _ _ | .machineStore _ => true
  | _ => false

/-- All threads at the head of their loops. -/
def idle (g : Globals) : State := { toGlobals := g }

def initial : State := idle Controller.initial

/-- The next step of `ascii_read_thread`; `r` is what `getchar` returns if it is called. -/
def asciiReadThread (r : Option UInt8) (s : State) : Event × State :=
  match s.reader with
  | .loop =>
    let keyEntry := toChar (LinuxTutorial.getchar r)
    (.getchar r, { s with reader := if accepts keyEntry then .store keyEntry else .loop })
  | .store keyEntry =>
    (.keyStore keyEntry, { s with keyPressedGlobal := keyEntry, reader := .loop })

/-- The next step of `timer_event_thread`. No other thread uses the indices and the values,
so a sample is taken together with the read of the mode. -/
def timerEventThread (s : State) : Event × State :=
  match s.timer with
  | .loop =>
    match s.stateSingleton with
    | .unknow => (.timerLoad .unknow, { s with timer := .store })
    | m => (.timerLoad m, { s with toGlobals := (Controller.timerEventThread s.toGlobals).2 })
  | .store => (.timerStore, { s with stateSingleton := .cond, timer := .loop })

/-- The next step of `state_machine_thread` and of the service function it is in. -/
def stateMachineThread (s : State) : Event × State :=
  match s.machine with
  | .loop =>
    match s.stateSingleton with
    | .cond => (.machineLoad .cond, { s with machine := .service .cond })
    | .ph => (.machineLoad .ph, { s with machine := .service .ph })
    | .mv => (.machineLoad .mv, { s with machine := .service .mv })
    | .unknow => (.machineLoad .unknow, { s with machine := .store .cond })
  | .service p =>
    (.serviceLoad p s.keyPressedGlobal,
      { s with machine := .clear p (switchKey s.keyPressedGlobal) })
  | .clear p statusLocal =>
    (.serviceReturn p statusLocal,
      { s with keyPressedGlobal := newline, machine := .store (nextState p statusLocal) })
  | .store m => (.machineStore m, { s with stateSingleton := m, machine := .loop })

/-- Which thread runs next. -/
inductive Action
  | reader (r : Option UInt8)
  | timer
  | machine
  deriving DecidableEq, Repr

def next (a : Action) (s : State) : Option (Event × State) :=
  match a with
  | .reader r => some (asciiReadThread r s)
  | .timer => some (timerEventThread s)
  | .machine => some (stateMachineThread s)

/-- The interleaved program. -/
def atomic : LTS State Event := .ofNext next

/-- The steps of the three threads, one constructor for each shared access. -/
inductive Step : State → Event → State → Prop
  | getchar {s : State} {r : Option UInt8} (h : s.reader = .loop) :
      Step s (.getchar r)
        { s with
          reader := if accepts (toChar (LinuxTutorial.getchar r)) then
            .store (toChar (LinuxTutorial.getchar r)) else .loop }
  | keyStore {s : State} {c : Int8} (h : s.reader = .store c) :
      Step s (.keyStore c) { s with keyPressedGlobal := c, reader := .loop }
  | timerSample {s : State} {p : Probe} (h : s.timer = .loop) (hm : s.stateSingleton = p.mode) :
      Step s (.timerLoad p.mode)
        { s with toGlobals := (Controller.timerEventThread s.toGlobals).2 }
  | timerUnknow {s : State} (h : s.timer = .loop) (hm : s.stateSingleton = .unknow) :
      Step s (.timerLoad .unknow) { s with timer := .store }
  | timerStore {s : State} (h : s.timer = .store) :
      Step s .timerStore { s with stateSingleton := .cond, timer := .loop }
  | machineKnown {s : State} {p : Probe} (h : s.machine = .loop) (hm : s.stateSingleton = p.mode) :
      Step s (.machineLoad p.mode) { s with machine := .service p }
  | machineUnknow {s : State} (h : s.machine = .loop) (hm : s.stateSingleton = .unknow) :
      Step s (.machineLoad .unknow) { s with machine := .store .cond }
  | serviceLoad {s : State} {p : Probe} (h : s.machine = .service p) :
      Step s (.serviceLoad p s.keyPressedGlobal)
        { s with machine := .clear p (switchKey s.keyPressedGlobal) }
  | serviceReturn {s : State} {p : Probe} {st : Status} (h : s.machine = .clear p st) :
      Step s (.serviceReturn p st)
        { s with keyPressedGlobal := newline, machine := .store (nextState p st) }
  | machineStore {s : State} {m : StateDefine} (h : s.machine = .store m) :
      Step s (.machineStore m) { s with stateSingleton := m, machine := .loop }

variable {s t : State} {e : Event}

theorem step_reader (r : Option UInt8) (s : State) :
    Step s (asciiReadThread r s).1 (asciiReadThread r s).2 := by
  cases h : s.reader with
  | loop => simpa [asciiReadThread, h] using Step.getchar h
  | store c => simpa [asciiReadThread, h] using Step.keyStore h

theorem step_timer (s : State) : Step s (timerEventThread s).1 (timerEventThread s).2 := by
  cases h : s.timer with
  | store => simpa [timerEventThread, h] using Step.timerStore h
  | loop =>
    cases hm : s.stateSingleton with
    | unknow => simpa [timerEventThread, h, hm] using Step.timerUnknow h hm
    | cond => simpa [timerEventThread, h, hm, Probe.mode] using Step.timerSample (p := .cond) h hm
    | ph => simpa [timerEventThread, h, hm, Probe.mode] using Step.timerSample (p := .ph) h hm
    | mv => simpa [timerEventThread, h, hm, Probe.mode] using Step.timerSample (p := .mv) h hm

theorem step_machine (s : State) : Step s (stateMachineThread s).1 (stateMachineThread s).2 := by
  cases h : s.machine with
  | service p => simpa [stateMachineThread, h] using Step.serviceLoad h
  | clear p st => simpa [stateMachineThread, h] using Step.serviceReturn h
  | store m => simpa [stateMachineThread, h] using Step.machineStore h
  | loop =>
    cases hm : s.stateSingleton with
    | unknow => simpa [stateMachineThread, h, hm] using Step.machineUnknow h hm
    | cond =>
      simpa [stateMachineThread, h, hm, Probe.mode] using Step.machineKnown (p := .cond) h hm
    | ph => simpa [stateMachineThread, h, hm, Probe.mode] using Step.machineKnown (p := .ph) h hm
    | mv => simpa [stateMachineThread, h, hm, Probe.mode] using Step.machineKnown (p := .mv) h hm

/-- The constructors of `Step` are exactly the steps the thread functions take. -/
theorem tr_iff : atomic.Tr s e t ↔ Step s e t := by
  constructor
  · rintro ⟨a, ha⟩
    cases a with
    | reader r =>
      obtain ⟨rfl, rfl⟩ := Prod.mk.inj (Option.some.inj ha)
      exact step_reader r s
    | timer =>
      obtain ⟨rfl, rfl⟩ := Prod.mk.inj (Option.some.inj ha)
      exact step_timer s
    | machine =>
      obtain ⟨rfl, rfl⟩ := Prod.mk.inj (Option.some.inj ha)
      exact step_machine s
  · intro h
    cases h with
    | @getchar r h => exact ⟨.reader r, by simp [next, asciiReadThread, h]⟩
    | keyStore h => exact ⟨.reader none, by simp [next, asciiReadThread, h]⟩
    | @timerSample p h hm =>
      refine ⟨.timer, ?_⟩
      cases p <;> simp_all [next, timerEventThread, Probe.mode]
    | timerUnknow h hm => exact ⟨.timer, by simp [next, timerEventThread, h, hm]⟩
    | timerStore h => exact ⟨.timer, by simp [next, timerEventThread, h]⟩
    | @machineKnown p h hm =>
      refine ⟨.machine, ?_⟩
      cases p <;> simp_all [next, stateMachineThread, Probe.mode]
    | machineUnknow h hm => exact ⟨.machine, by simp [next, stateMachineThread, h, hm]⟩
    | serviceLoad h => exact ⟨.machine, by simp [next, stateMachineThread, h]⟩
    | serviceReturn h => exact ⟨.machine, by simp [next, stateMachineThread, h]⟩
    | machineStore h => exact ⟨.machine, by simp [next, stateMachineThread, h]⟩

/-- A loop iteration is a run of atomic steps of its thread that nothing interrupts. -/
theorem iteration_mTr (a : Iteration) (g : Globals) :
    ∃ es, atomic.MTr (idle g) es (idle (controller.step a g).2) := by
  cases a with
  | asciiRead r =>
    by_cases ha : accepts (toChar (LinuxTutorial.getchar r))
    · refine ⟨[.getchar r, .keyStore (toChar (LinuxTutorial.getchar r))], ?_⟩
      apply LTS.mTr_of_replay [.reader r, .reader none]
      simp [LTS.replay, next, asciiReadThread, idle, controller, Controller.asciiReadThread, ha]
    · refine ⟨[.getchar r], LTS.mTr_of_replay [.reader r] ?_⟩
      simp [LTS.replay, next, asciiReadThread, idle, controller, Controller.asciiReadThread, ha]
  | timerEvent =>
    by_cases hm : g.stateSingleton = .unknow
    · refine ⟨[.timerLoad .unknow, .timerStore], LTS.mTr_of_replay [.timer, .timer] ?_⟩
      simp [LTS.replay, next, timerEventThread, idle, controller, timerEventThread_unknow hm, hm]
    · obtain ⟨p, hp⟩ := StateDefine.exists_probe hm
      exact ⟨_, .single (tr_iff.mpr (Step.timerSample (s := idle g) rfl hp.symm))⟩
  | stateMachine =>
    by_cases hm : g.stateSingleton = .unknow
    · refine ⟨[.machineLoad .unknow, .machineStore .cond],
        LTS.mTr_of_replay [.machine, .machine] ?_⟩
      simp [LTS.replay, next, stateMachineThread, idle, controller,
        stateMachineThread_unknow hm, hm]
    · obtain ⟨p, hp⟩ := StateDefine.exists_probe hm
      let st := switchKey g.keyPressedGlobal
      refine ⟨[.machineLoad p.mode, .serviceLoad p g.keyPressedGlobal, .serviceReturn p st,
        .machineStore (nextState p st)], .stepL (tr_iff.mpr (.machineKnown rfl hp.symm)) ?_⟩
      apply LTS.mTr_of_replay [.machine, .machine, .machine]
      simp [LTS.replay, next, stateMachineThread, idle, controller,
        stateMachineThread_probe hp.symm, st]

/-- Every schedule of whole iterations is one of the interleavings. -/
theorem schedule_mTr (g : Globals) (xs : List Iteration) :
    ∃ es, atomic.MTr (idle g) es (idle (controller.run g xs)) := by
  induction xs generalizing g with
  | nil => exact ⟨[], .refl⟩
  | cons a xs ih =>
    obtain ⟨es, hes⟩ := iteration_mTr a g
    obtain ⟨fs, hfs⟩ := ih (controller.step a g).2
    exact ⟨es ++ fs, hes.append hfs⟩

end LinuxTutorial.Controller.Atomic
