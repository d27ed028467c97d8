import LinuxTutorial.TimerController.Sampling
import LinuxTutorial.Transition.Trace

/-!
# `StateMc_pThread_Timer.c`, one shared access at a time

Every single read or write of `key_pressed` and of `state` is a step of its own. The service
functions read the key once and clear nothing.
-/

namespace LinuxTutorial.TimerController.Atomic

open Transition

/-- Where `ascii_read_thread` is: before `getchar`, or about to store the byte. -/
inductive ReaderPC
  | loop
  | store (ch : Int8)
  deriving DecidableEq, Repr

/-- Where `timer_event_thread` is: before its `switch`, or inside the `default` branch. -/
inductive TimerPC
  | loop
  | store
  deriving DecidableEq, Repr

/-- Where `state_machine_thread` is: before its `switch`, before the `switch` of a service
function, or before a store of the mode. -/
inductive MachinePC
  | loop
  | service (p : Probe)
  | store (m : StateDefine)
  deriving DecidableEq, Repr

structure State extends Globals where
  reader : ReaderPC := .loop
  timer : TimerPC := .loop
  machine : MachinePC := .loop
  deriving DecidableEq, Repr

/-- The shared access that a step performs, the bytes read and the samples taken. -/
inductive Event
  | getchar (r : Option UInt8)
  | keyStore (c : Int8)
  | timerSample (x : Sample)
  | timerUnknow
  | timerStore
  | machineLoad (m : StateDefine)
  | serviceLoad (p : Probe) (c : Int8)
  | machineStore (m : StateDefine)
  deriving DecidableEq, Repr

/-- All threads at the head of their loops. -/
def idle (g : Globals) : State := { toGlobals := g }

/-- The next step of `ascii_read_thread`; `r` is what `getchar` returns if it is called. -/
def asciiReadThread (r : Option UInt8) (s : State) : Event × State :=
  match s.reader with
  | .loop => (.getchar r, { s with reader := .store (toChar (LinuxTutorial.getchar r)) })
  | .store ch => (.keyStore ch, { s with keyPressed := ch, reader := .loop })

/-- The next step of `timer_event_thread`, if its loop has not ended. No other thread uses `i`
and the values, so a sample is taken together with the read of the mode. -/
def timerEventThread (s : State) : Option (Event × State) :=
  match s.timer with
  | .loop =>
    if s.ESCPressed ≠ 0 then none
    else
      match s.state with
      | .cond =>
        let v := entry condData s.i
        some (.timerSample ⟨.cond, v⟩, { s with i := s.i + 1, conductivity := v })
      | .ph =>
        let v := entry phData s.i
        some (.timerSample ⟨.ph, v⟩, { s with i := s.i + 1, phValue := v })
      | .mv =>
        let v := entry mvData s.i
        some (.timerSample ⟨.mv, v⟩, { s with i := s.i + 1, miliVoltValue := v })
      | .unknow => some (.timerUnknow, { s with timer := .store })
  | .store => some (.timerStore, { s with state := .mv, timer := .loop })

/-- The next step of `state_machine_thread` and of the service function it is in. -/
def stateMachineThread (s : State) : Event × State :=
  match s.machine with
  | .loop =>
    match s.state with
    | .cond => (.machineLoad .cond, { s with machine := .service .cond })
    | .ph => (.machineLoad .ph, { s with machine := .service .ph })
    | .mv => (.machineLoad .mv, { s with machine := .service .mv })
    | .unknow => (.machineLoad .unknow, { s with machine := .store .cond })
  | .service p =>
    (.serviceLoad p s.keyPressed, { s with machine := .store (nextState p (service s.toGlobals)) })
  | .store m => (.machineStore m, { s with state := m, machine := .loop })

/-- Which thread runs next. -/
inductive Action
  | reader (r : Option UInt8)
  | timer
  | machine
  deriving DecidableEq, Repr

def next (a : Action) (s : State) : Option (Event × State) :=
  match a with
  | .reader r => some (asciiReadThread r s)
  | .timer => timerEventThread s
  | .machine => some (stateMachineThread s)

/-- The interleaved program. -/
def atomic : LTS State Event := .ofNext next

/-- The sample that `timer_event_thread` takes in the mode of a probe. -/
def sample (p : Probe) (g : Globals) : Globals :=
  match p with
  | .cond => { g with i := g.i + 1, conductivity := entry condData g.i }
  | .ph => { g with i := g.i + 1, phValue := entry phData g.i }
  | .mv => { g with i := g.i + 1, miliVoltValue := entry mvData g.i }

/-- The steps of the three threads, one constructor for each shared access. -/
inductive Step : State → Event → State → Prop
  | getchar {s : State} {r : Option UInt8} (h : s.reader = .loop) :
      Step s (.getchar r) { s with reader := .store (toChar (LinuxTutorial.getchar r)) }
  | keyStore {s : State} {c : Int8} (h : s.reader = .store c) :
      Step s (.keyStore c) { s with keyPressed := c, reader := .loop }
  | timerSample {s : State} {p : Probe} (h : s.timer = .loop) (hesc : s.ESCPressed = 0)
      (hm : s.state = p.mode) :
      Step s (.timerSample ⟨p, entry (table p) s.i⟩) { s with toGlobals := sample p s.toGlobals }
  | timerUnknow {s : State} (h : s.timer = .loop) (hesc : s.ESCPressed = 0)
      (hm : s.state = .unknow) : Step s .timerUnknow { s with timer := .store }
  | timerStore {s : State} (h : s.timer = .store) :
      Step s .timerStore { s with state := .mv, timer := .loop }
  | machineKnown {s : State} {p : Probe} (h : s.machine = .loop) (hm : s.state = p.mode) :
      Step s (.machineLoad p.mode) { s with machine := .service p }
  | machineUnknow {s : State} (h : s.machine = .loop) (hm : s.state = .unknow) :
      Step s (.machineLoad .unknow) { s with machine := .store .cond }
  | serviceLoad {s : State} {p : Probe} (h : s.machine = .service p) :
      Step s (.serviceLoad p s.keyPressed)
        { s with machine := .store (LinuxTutorial.nextState p (switchKey s.keyPressed)) }
  | machineStore {s : State} {m : StateDefine} (h : s.machine = .store m) :
      Step s (.machineStore m) { s with state := m, machine := .loop }

variable {s t : State} {e : Event}

theorem step_reader (r : Option UInt8) (s : State) :
    Step s (asciiReadThread r s).1 (asciiReadThread r s).2 := by
  cases h : s.reader with
  | loop => simpa [asciiReadThread, h] using Step.getchar h
  | store c => simpa [asciiReadThread, h] using Step.keyStore h

theorem timerEventThread_probe {p : Probe} (h : s.timer = .loop) (hesc : s.ESCPressed = 0)
    (hm : s.state = p.mode) :
    timerEventThread s = some (.timerSample ⟨p, entry (table p) s.i⟩,
      { s with toGlobals := sample p s.toGlobals }) := by
  cases p <;> simp only [Probe.mode] at hm <;>
    simp [timerEventThread, h, hesc, hm, sample, table]

theorem timerEventThread_unknow (h : s.timer = .loop) (hesc : s.ESCPressed = 0)
    (hm : s.state = .unknow) :
    timerEventThread s = some (.timerUnknow, { s with timer := .store }) := by
  simp [timerEventThread, h, hesc, hm]

/-- What a step of `timer_event_thread` is. -/
theorem timerEventThread_cases (h : timerEventThread s = some (e, t)) :
    (s.timer = .store ∧ e = .timerStore ∧ t = { s with state := .mv, timer := .loop }) ∨
    (s.timer = .loop ∧ s.ESCPressed = 0 ∧ s.state = .unknow ∧ e = .timerUnknow ∧
      t = { s with timer := .store }) ∨
    ∃ p : Probe, s.timer = .loop ∧ s.ESCPressed = 0 ∧ s.state = p.mode ∧
      e = .timerSample ⟨p, entry (table p) s.i⟩ ∧
      t = { s with toGlobals := sample p s.toGlobals } := by
  by_cases hpc : s.timer = .store
  · have hstep : timerEventThread s =
        some (.timerStore, { s with state := .mv, timer := .loop }) := by
      simp [timerEventThread, hpc]
    obtain ⟨rfl, rfl⟩ := Prod.mk.inj (Option.some.inj (hstep.symm.trans h))
    exact Or.inl ⟨hpc, rfl, rfl⟩
  · have hloop : s.timer = .loop := by
      cases htimer : s.timer with
      | loop => rfl
      | store => exact (hpc htimer).elim
    by_cases hesc : s.ESCPressed = 0
    · by_cases hm : s.state = .unknow
      · obtain ⟨rfl, rfl⟩ := Prod.mk.inj
          (Option.some.inj ((timerEventThread_unknow hloop hesc hm).symm.trans h))
        exact Or.inr (Or.inl ⟨hloop, hesc, hm, rfl, rfl⟩)
      · obtain ⟨p, hp⟩ := StateDefine.exists_probe hm
        obtain ⟨rfl, rfl⟩ := Prod.mk.inj
          (Option.some.inj ((timerEventThread_probe hloop hesc hp.symm).symm.trans h))
        exact Or.inr (Or.inr ⟨p, hloop, hesc, hp.symm, rfl, rfl⟩)
    · simp [timerEventThread, hloop, hesc] at h

theorem step_timer (h : timerEventThread s = some (e, t)) : Step s e t := by
  rcases timerEventThread_cases h with ⟨hpc, rfl, rfl⟩ | ⟨hpc, hesc, hm, rfl, rfl⟩ |
    ⟨p, hpc, hesc, hm, rfl, rfl⟩
  · exact .timerStore hpc
  · exact .timerUnknow hpc hesc hm
  · exact .timerSample hpc hesc hm

theorem step_machine (s : State) : Step s (stateMachineThread s).1 (stateMachineThread s).2 := by
  cases h : s.machine with
  | service p => simpa [stateMachineThread, h, nextState_service] using Step.serviceLoad h
  | store m => simpa [stateMachineThread, h] using Step.machineStore h
  | loop =>
    cases hm : s.state with
    | unknow => simpa [stateMachineThread, h, hm] using Step.machineUnknow h hm
    | cond =>
      simpa [stateMachineThread, h, hm, Probe.mode] using Step.machineKnown (p := .cond) h hm
    | ph => simpa [stateMachineThread, h, hm, Probe.mode] using Step.machineKnown (p := .ph) h hm
    | mv => simpa [stateMachineThread, h, hm, Probe.mode] using Step.machineKnown (p := .mv) h hm

/-- The constructors of `Step` are exactly the steps the thread functions take. -/
theorem tr_iff : atomic.Tr s e t ↔ Step s e t := by
  constructor
  · rintro ⟨a, ha⟩
    cases a with
    | reader r =>
      obtain ⟨rfl, rfl⟩ := Prod.mk.inj (Option.some.inj ha)
      exact step_reader r s
    | timer => exact step_timer ha
    | machine =>
      obtain ⟨rfl, rfl⟩ := Prod.mk.inj (Option.some.inj ha)
      exact step_machine s
  · intro h
    cases h with
    | @getchar r h => exact ⟨.reader r, by simp [next, asciiReadThread, h]⟩
    | keyStore h => exact ⟨.reader none, by simp [next, asciiReadThread, h]⟩
    | timerSample h hesc hm => exact ⟨.timer, timerEventThread_probe h hesc hm⟩
    | timerUnknow h hesc hm => exact ⟨.timer, timerEventThread_unknow h hesc hm⟩
    | timerStore h => exact ⟨.timer, by simp [next, timerEventThread, h]⟩
    | @machineKnown p h hm =>
      refine ⟨.machine, ?_⟩
      cases p <;> simp_all [next, stateMachineThread, Probe.mode]
    | machineUnknow h hm => exact ⟨.machine, by simp [next, stateMachineThread, h, hm]⟩
    | serviceLoad h => exact ⟨.machine, by simp [next, stateMachineThread, h, nextState_service]⟩
    | machineStore h => exact ⟨.machine, by simp [next, stateMachineThread, h]⟩

/-- A loop iteration is a run of atomic steps of its thread that nothing interrupts. -/
theorem iteration_mTr (a : Iteration) (g : Globals) :
    ∃ es, atomic.MTr (idle g) es (idle (controller.step a g).2) := by
  cases a with
  | asciiRead r =>
    exact ⟨[.getchar r, .keyStore (toChar (LinuxTutorial.getchar r))],
      LTS.mTr_of_replay [.reader r, .reader none] rfl⟩
  | timerEvent =>
    by_cases hesc : g.ESCPressed = 0
    · by_cases hm : g.state = .unknow
      · refine ⟨[.timerUnknow, .timerStore], LTS.mTr_of_replay [.timer, .timer] ?_⟩
        simp [LTS.replay, next, timerEventThread, idle, controller,
          TimerController.timerEventThread, hesc, hm]
      · obtain ⟨p, hp⟩ := StateDefine.exists_probe hm
        have hstep : (controller.step .timerEvent g).2 = sample p g := by
          cases p <;> simp only [Probe.mode] at hp <;>
            simp [controller, TimerController.timerEventThread, hesc, ← hp, sample]
        rw [hstep]
        exact ⟨_, .single (tr_iff.mpr (Step.timerSample (s := idle g) rfl hesc hp.symm))⟩
    · have hstep : (controller.step .timerEvent g).2 = g := by
        simp [controller, TimerController.timerEventThread, hesc]
      rw [hstep]
      exact ⟨[], .refl⟩
  | stateMachine =>
    by_cases hm : g.state = .unknow
    · refine ⟨[.machineLoad .unknow, .machineStore .cond],
        LTS.mTr_of_replay [.machine, .machine] ?_⟩
      simp [LTS.replay, next, stateMachineThread, idle, controller,
        stateMachineThread_unknow hm, hm]
    · obtain ⟨p, hp⟩ := StateDefine.exists_probe hm
      refine ⟨[.machineLoad p.mode, .serviceLoad p g.keyPressed,
        .machineStore (LinuxTutorial.nextState p (switchKey g.keyPressed))],
        .stepL (tr_iff.mpr (.machineKnown rfl hp.symm)) ?_⟩
      apply LTS.mTr_of_replay [.machine, .machine]
      simp [LTS.replay, next, stateMachineThread, idle, controller,
        stateMachineThread_probe hp.symm, nextState_service]

/-- Every schedule of whole iterations is one of the interleavings. -/
theorem schedule_mTr (g : Globals) (xs : List Iteration) :
    ∃ es, atomic.MTr (idle g) es (idle (controller.run g xs)) := by
  induction xs generalizing g with
  | nil => exact ⟨[], .refl⟩
  | cons a xs ih =>
    obtain ⟨es, hes⟩ := iteration_mTr a g
    obtain ⟨fs, hfs⟩ := ih (controller.step a g).2
    exact ⟨es ++ fs, hes.append hfs⟩

end LinuxTutorial.TimerController.Atomic
