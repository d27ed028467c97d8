import LinuxTutorial.ModeCycle
import LinuxTutorial.Transition.Trace

/-!
# `StateMc_pThread_Sem.c`, one shared access at a time

The controller with a service thread for each probe. `state_machine_thread` posts a request
semaphore and waits on an update semaphore; all six threads interleave freely.
-/

namespace LinuxTutorial.SemController

open Transition

inductive ReaderPC
  | loop
  | store (keyEntry : Int8)
  deriving DecidableEq, Repr

inductive TimerPC
  | loop
  | store
  deriving DecidableEq, Repr

/-- Where `state_machine_thread` is: before its `switch`, before the post of a request, before
the `switch` of a service function, before the store through `status_local`, before a store of
the mode, or at the wait that ends the iteration. -/
inductive MachinePC
  | loop
  | post (p : Probe)
  | service (p : Probe)
  | status (p : Probe) (st : Status)
  | store (m : StateDefine)
  | wait
  deriving DecidableEq, Repr

/-- Where a `thr_service_*` thread is: at its wait, before its `switch`, before the store
through `status_local`, or before the post of the update. -/
inductive ServicePC
  | wait
  | load
  | status (st : Status)
  | post
  deriving DecidableEq, Repr

/-- The threads that store a status through their argument. -/
inductive Writer
  | machine
  | service (p : Probe)
  deriving DecidableEq, Repr

/-- The globals of `StateMc_pThread_Sem.c`, the status cells that the arguments of
`pthread_create` point to (one for each thread), and the positions of the threads. `request p` is
`sem_conditivity`, `sem_pH` or `sem_miliVolt`, `update p` the `sem_update_*` semaphore of the same
probe. -/
structure State where
  keyPressedGlobal : Int8 := 0
  stateSingleton : StateDefine := .unknow
  i : UInt32 := 0
  conductivity : Int32 := 0
  phValue : Int32 := 0
  miliVoltValue : Int32 := 0
  request : Probe → ℕ := fun _ => 0
  update : Probe → ℕ := fun _ => 0
  statusReturn : Writer → Option Status
  reader : ReaderPC := .loop
  timer : TimerPC := .loop
  machine : MachinePC := .loop
  service : Probe → ServicePC := fun _ => .wait
  crashed : Bool := false

/-- The semaphore operations, the accesses to the shared variables, and the bytes read. -/
inductive Event
  | getchar (r : Option UInt8)
  | keyStore (c : Int8)
  | timerLoad (m : StateDefine)
  | timerStore
  | machineLoad (m : StateDefine)
  | requestPost (p : Probe)
  | serviceLoad (p : Probe) (c : Int8)
  | statusStore (w : Writer) (st : Status)
  | nullStore (w : Writer)
  | machineStore (m : StateDefine)
  | updateWait
  | requestWait (p : Probe)
  | threadLoad (p : Probe) (c : Int8)
  | updatePost (p : Probe)
  deriving DecidableEq, Repr

def condData : Fin 10 → Int32 := ![10, 11, 12, 13, 14, 15, 16, 17, 18, 19]

def phData : Fin 10 → Int32 := ![20, 21, 22, 23, 24, 25, 26, 27, 28, 29]

def mvData : Fin 10 → Int32 := ![30, 31, 32, 33, 34, 35, 36, 37, 38, 39]

/-- The state in which the threads start when `arg` is what `main` passes to the four threads
that take a status pointer: each gets a cell of its own with some content, or NULL. -/
def initial (arg : Writer → Option Status) : State := { statusReturn := arg }

/-- `main` passes NULL to every `pthread_create`. -/
def start : State := initial fun _ => none

/-- Every branch of the `switch` reports a good status, the `default` branch as well. -/
def verifyUserInput (keyEntry : Int8) : Status :=
  let asciiKey : UInt32 := keyEntry.toInt32.toUInt32
  if asciiKey = 97 then .goodStatus
  else if asciiKey = 100 then .goodStatus
  else if asciiKey = 10 then .goodStatus
  else .goodStatus

/-- The next step of `ascii_read_thread`; `r` is what `getchar` returns if it is called. -/
def asciiReadThread (r : Option UInt8) (s : State) : Event × State :=
  match s.reader with
  | .loop =>
    let keyEntry := toChar (LinuxTutorial.getchar r)
    (.getchar r,
      { s with
        reader := if verifyUserInput keyEntry = .goodStatus then .store keyEntry else .loop })
  | .store keyEntry =>
    (.keyStore keyEntry, { s with keyPressedGlobal := keyEntry, reader := .loop })

/-- The sample that `timer_event_thread` takes in the mode of a probe. -/
def sample (p : Probe) (s : State) : State :=
  match p with
  | .cond => { s with i := s.i + 1, conductivity := entry condData s.i }
  | .ph => { s with i := s.i + 1, phValue := entry phData s.i }
  | .mv => { s with i := s.i + 1, miliVoltValue := entry mvData s.i }

/-- The next step of `timer_event_thread`. No other thread uses the counter and the values, so
a sample is taken together with the read of the mode. -/
def timerEventThread (s : State) : Event × State :=
  match s.timer with
  | .loop =>
    match s.stateSingleton with
    | .cond => (.timerLoad .cond, sample .cond s)
    | .ph => (.timerLoad .ph, sample .ph s)
    | .mv => (.timerLoad .mv, sample .mv s)
    | .unknow => (.timerLoad .unknow, { s with timer := .store })
  | .store => (.timerStore, { s with stateSingleton := .mv, timer := .loop })

/-- `*status_local = st`, or the crash of the process when the pointer is NULL. -/
def storeStatus (w : Writer) (st : Status) (s t : State) : Event × State :=
  match s.statusReturn w with
  | some _ =>
    (.statusStore w st, { t with statusReturn := Function.update s.statusReturn w (some st) })
  | none => (.nullStore w, { s with crashed := true })

/-- The next step of `state_machine_thread`, if it is not blocked. The `switch` after the
store through `status_local` reads the cell back, which no other thread writes. -/
def stateMachineThread (s : State) : Option (Event × State) :=
  match s.machine with
  | .loop =>
    match s.stateSingleton with
    | .cond => some (.machineLoad .cond, { s with machine := .post .cond })
    | .ph => some (.machineLoad .ph, { s with machine := .post .ph })
    | .mv => some (.machineLoad .mv, { s with machine := .post .mv })
    | .unknow => some (.machineLoad .unknow, { s with machine := .store .cond })
  | .post p =>
    some (.requestPost p,
      { s with request := Function.update s.request p (s.request p + 1), machine := .service p })
  | .service p =>
    some (.serviceLoad p s.keyPressedGlobal,
      { s with machine := .status p (switchKey s.keyPressedGlobal) })
  | .status p st => some (storeStatus .machine st s { s with machine := .store (nextState p st) })
  | .store m => some (.machineStore m, { s with stateSingleton := m, machine := .wait })
  | .wait =>
    if 0 < s.update .cond then
      some (.updateWait,
        { s with update := Function.update s.update .cond (s.update .cond - 1), machine := .loop })
    else none

/-- The text that `thr_service_cond`, `thr_service_ph` and `thr_service_miliVolt` share: the
next step of the thread, if it is not blocked. -/
def thrService (p : Probe) (s : State) : Option (Event × State) :=
  match s.service p with
  | .wait =>
    if 0 < s.request p then
      some (.requestWait p,
        { s with
          request := Function.update s.request p (s.request p - 1)
          service := Function.update s.service p .load })
    else none
  | .load =>
    some (.threadLoad p s.keyPressedGlobal,
      { s with service := Function.update s.service p (.status (switchKey s.keyPressedGlobal)) })
  | .status st =>
    some (storeStatus (.service p) st s { s with service := Function.update s.service p .post })
  | .post =>
    some (.updatePost p,
      { s with
        update := Function.update s.update p (s.update p + 1)
        service := Function.update s.service p .wait })

def thrServiceCond (s : State) : Option (Event × State) := thrService .cond s

def thrServicePh (s : State) : Option (Event × State) := thrService .ph s

def thrServiceMiliVolt (s : State) : Option (Event × State) := thrService .mv s

/-- Which thread runs next. -/
inductive Action
  | reader (r : Option UInt8)
  | timer
  | machine
  | thrCond
  | thrPh
  | thrMiliVolt
  deriving DecidableEq, Repr

/-- The step of a thread; a crash ends the process and with it every thread. -/
def next (a : Action) (s : State) : Option (Event × State) :=
  if s.crashed then none
  else
    match a with
    | .reader r => some (asciiReadThread r s)
    | .timer => some (timerEventThread s)
    | .machine => stateMachineThread s
    | .thrCond => thrServiceCond s
    | .thrPh => thrServicePh s
    | .thrMiliVolt => thrServiceMiliVolt s

/-- The interleaved program. -/
def atomic : LTS State Event := .ofNext next

/-- The steps of the six threads, one constructor for each shared access. -/
inductive Step : State → Event → State → Prop
  | getchar {s : State} {r : Option UInt8} (h : s.reader = .loop) :
      Step s (.getchar r)
        { s with
          reader := if verifyUserInput (toChar (LinuxTutorial.getchar r)) = .goodStatus then
            .store (toChar (LinuxTutorial.getchar r)) else .loop }
  | keyStore {s : State} {c : Int8} (h : s.reader = .store c) :
      Step s (.keyStore c) { s with keyPressedGlobal := c, reader := .loop }
  | timerSample {s : State} {p : Probe} (h : s.timer = .loop) (hm : s.stateSingleton = p.mode) :
      Step s (.timerLoad p.mode) (sample p s)
  | timerUnknow {s : State} (h : s.timer = .loop) (hm : s.stateSingleton = .unknow) :
      Step s (.timerLoad .unknow) { s with timer := .store }
  | timerStore {s : State} (h : s.timer = .store) :
      Step s .timerStore { s with stateSingleton := .mv, timer := .loop }
  | machineKnown {s : State} {p : Probe} (h : s.machine = .loop) (hm : s.stateSingleton = p.mode) :
      Step s (.machineLoad p.mode) { s with machine := .post p }
  | machineUnknow {s : State} (h : s.machine = .loop) (hm : s.stateSingleton = .unknow) :
      Step s (.machineLoad .unknow) { s with machine := .store .cond }
  | requestPost {s : State} {p : Probe} (h : s.machine = .post p) :
      Step s (.requestPost p)
        { s with request := Function.update s.request p (s.request p + 1), machine := .service p }
  | serviceLoad {s : State} {p : Probe} (h : s.machine = .service p) :
      Step s (.serviceLoad p s.keyPressedGlobal)
        { s with machine := .status p (switchKey s.keyPressedGlobal) }
  | machineStatus {s : State} {p : Probe} {st old : Status} (h : s.machine = .status p st)
      (hc : s.statusReturn .machine = some old) :
      Step s (.statusStore .machine st)
        { s with
          machine := .store (nextState p st)
          statusReturn := Function.update s.statusReturn .machine (some st) }
  | machineNull {s : State} {p : Probe} {st : Status} (h : s.machine = .status p st)
      (hc : s.statusReturn .machine = none) :
      Step s (.nullStore .machine) { s with crashed := true }
  | machineStore {s : State} {m : StateDefine} (h : s.machine = .store m) :
      Step s (.machineStore m) { s with stateSingleton := m, machine := .wait }
  | updateWait {s : State} (h : s.machine = .wait) (hpos : 0 < s.update .cond) :
      Step s .updateWait
        { s with update := Function.update s.update .cond (s.update .cond - 1), machine := .loop }
  | requestWait {s : State} {p : Probe} (h : s.service p = .wait) (hpos : 0 < s.request p) :
      Step s (.requestWait p)
        { s with
          request := Function.update s.request p (s.request p - 1)
          service := Function.update s.service p .load }
  | threadLoad {s : State} {p : Probe} (h : s.service p = .load) :
      Step s (.threadLoad p s.keyPressedGlobal)
        { s with service := Function.update s.service p (.status (switchKey s.keyPressedGlobal)) }
  | threadStatus {s : State} {p : Probe} {st old : Status} (h : s.service p = .status st)
      (hc : s.statusReturn (.service p) = some old) :
      Step s (.statusStore (.service p) st)
        { s with
          service := Function.update s.service p .post
          statusReturn := Function.update s.statusReturn (.service p) (some st) }
  | threadNull {s : State} {p : Probe} {st : Status} (h : s.service p = .status st)
      (hc : s.statusReturn (.service p) = none) :
      Step s (.nullStore (.service p)) { s with crashed := true }
  | updatePost {s : State} {p : Probe} (h : s.service p = .post) :
      Step s (.updatePost p)
        { s with
          update := Function.update s.update p (s.update p + 1)
          service := Function.update s.service p .wait }

variable {s t : State} {e : Event}

theorem step_reader (r : Option UInt8) (s : State) :
    Step s (asciiReadThread r s).1 (asciiReadThread r s).2 := by
  cases h : s.reader with
  | loop => simpa [asciiReadThread, h] using Step.getchar h
  | store c => simpa [asciiReadThread, h] using Step.keyStore h

theorem step_timer (s : State) : Step s (timerEventThread s).1 (timerEventThread s).2 := by
  cases h : s.timer with
  | store => simpa [timerEventThread, h] using Step.timerStore h
  | loop =>
    cases hm : s.stateSingleton with
    | unknow => simpa [timerEventThread, h, hm] using Step.timerUnknow h hm
    | cond => simpa [timerEventThread, h, hm, Probe.mode] using Step.timerSample (p := .cond) h hm
    | ph => simpa [timerEventThread, h, hm, Probe.mode] using Step.timerSample (p := .ph) h hm
    | mv => simpa [timerEventThread, h, hm, Probe.mode] using Step.timerSample (p := .mv) h hm

theorem step_machine (h : stateMachineThread s = some (e, t)) : Step s e t := by
  cases hpc : s.machine with
  | loop =>
    cases hm : s.stateSingleton <;>
      simp only [stateMachineThread, hpc, hm, Option.some.injEq, Prod.mk.injEq] at h <;>
      obtain ⟨rfl, rfl⟩ := h
    · simpa [hm] using Step.machineUnknow hpc hm
    · simpa [hm, Probe.mode] using Step.machineKnown (p := .cond) hpc hm
    · simpa [hm, Probe.mode] using Step.machineKnown (p := .ph) hpc hm
    · simpa [hm, Probe.mode] using Step.machineKnown (p := .mv) hpc hm
  | post p =>
    simp only [stateMachineThread, hpc, Option.some.injEq, Prod.mk.injEq] at h
    obtain ⟨rfl, rfl⟩ := h
    exact .requestPost hpc
  | service p =>
    simp only [stateMachineThread, hpc, Option.some.injEq, Prod.mk.injEq] at h
    obtain ⟨rfl, rfl⟩ := h
    exact .serviceLoad hpc
  | status p st =>
    simp only [stateMachineThread, hpc, Option.some.injEq] at h
    cases hc : s.statusReturn .machine <;>
      simp only [storeStatus, hc, Prod.mk.injEq] at h <;>
      obtain ⟨rfl, rfl⟩ := h
    · simpa [hpc] using Step.machineNull hpc hc
    · exact .machineStatus hpc hc
  | store m =>
    simp only [stateMachineThread, hpc, Option.some.injEq, Prod.mk.injEq] at h
    obtain ⟨rfl, rfl⟩ := h
    exact .machineStore hpc
  | wait =>
    by_cases hpos : 0 < s.update .cond
    · simp only [stateMachineThread, hpc, hpos, if_true, Option.some.injEq, Prod.mk.injEq] at h
      obtain ⟨rfl, rfl⟩ := h
      exact .updateWait hpc hpos
    · simp [stateMachineThread, hpc, hpos] at h

theorem step_thrService {p : Probe} (h : thrService p s = some (e, t)) : Step s e t := by
  cases hpc : s.service p with
  | wait =>
    by_cases hpos : 0 < s.request p
    · simp only [thrService, hpc, hpos, if_true, Option.some.injEq, Prod.mk.injEq] at h
      obtain ⟨rfl, rfl⟩ := h
      exact .requestWait hpc hpos
    · simp [thrService, hpc, hpos] at h
  | load =>
    simp only [thrService, hpc, Option.some.injEq, Prod.mk.injEq] at h
    obtain ⟨rfl, rfl⟩ := h
    exact .threadLoad hpc
  | status st =>
    cases hc : s.statusReturn (.service p) <;>
      simp only [thrService, hpc, storeStatus, hc, Option.some.injEq, Prod.mk.injEq] at h <;>
      obtain ⟨rfl, rfl⟩ := h
    · exact .threadNull hpc hc
    · exact .threadStatus hpc hc
  | post =>
    simp only [thrService, hpc, Option.some.injEq, Prod.mk.injEq] at h
    obtain ⟨rfl, rfl⟩ := h
    exact .updatePost hpc

/-- The action that runs the service thread of a probe. -/
def Action.thr : Probe → Action
  | .cond => .thrCond
  | .ph => .thrPh
  | .mv => .thrMiliVolt

theorem next_thr (p : Probe) (hc : s.crashed = false) : next (.thr p) s = thrService p s := by
  cases p <;> simp [next, Action.thr, hc, thrServiceCond, thrServicePh, thrServiceMiliVolt]

/-- The constructors of `Step` are exactly the steps that the threads of a live process take. -/
theorem tr_iff : atomic.Tr s e t ↔ s.crashed = false ∧ Step s e t := by
  constructor
  · rintro ⟨a, ha⟩
    cases hc : s.crashed with
    | true => simp [next, hc] at ha
    | false =>
      refine ⟨rfl, ?_⟩
      cases a <;> simp only [next, hc, Bool.false_eq_true, if_false] at ha
      · obtain ⟨rfl, rfl⟩ := Prod.mk.inj (Option.some.inj ha)
        exact step_reader _ s
      · obtain ⟨rfl, rfl⟩ := Prod.mk.inj (Option.some.inj ha)
        exact step_timer s
      · exact step_machine ha
      · exact step_thrService ha
      · exact step_thrService ha
      · exact step_thrService ha
  · rintro ⟨hc, h⟩
    cases h with
    | @getchar r h => exact ⟨.reader r, by simp [next, hc, asciiReadThread, h]⟩
    | keyStore h => exact ⟨.reader none, by simp [next, hc, asciiReadThread, h]⟩
    | @timerSample p h hm =>
      refine ⟨.timer, ?_⟩
      cases p <;> simp_all [next, timerEventThread, Probe.mode]
    | timerUnknow h hm => exact ⟨.timer, by simp [next, hc, timerEventThread, h, hm]⟩
    | timerStore h => exact ⟨.timer, by simp [next, hc, timerEventThread, h]⟩
    | @machineKnown p h hm =>
      refine ⟨.machine, ?_⟩
      cases p <;> simp_all [next, stateMachineThread, Probe.mode]
    | machineUnknow h hm => exact ⟨.machine, by simp [next, hc, stateMachineThread, h, hm]⟩
    | requestPost h => exact ⟨.machine, by simp [next, hc, stateMachineThread, h]⟩
    | serviceLoad h => exact ⟨.machine, by simp [next, hc, stateMachineThread, h]⟩
    | machineStatus h hp =>
      exact ⟨.machine, by simp [next, hc, stateMachineThread, storeStatus, h, hp]⟩
    | machineNull h hp =>
      exact ⟨.machine, by simp [next, hc, stateMachineThread, storeStatus, h, hp]⟩
    | machineStore h => exact ⟨.machine, by simp [next, hc, stateMachineThread, h]⟩
    | updateWait h hpos => exact ⟨.machine, by simp [next, hc, stateMachineThread, h, hpos]⟩
    | @requestWait p h hpos =>
      exact ⟨.thr p, (next_thr p hc).trans (by simp [thrService, h, hpos])⟩
    | @threadLoad p h => exact ⟨.thr p, (next_thr p hc).trans (by simp [thrService, h])⟩
    | @threadStatus p st old h hp =>
      exact ⟨.thr p, (next_thr p hc).trans (by simp [thrService, storeStatus, h, hp])⟩
    | @threadNull p st h hp =>
      exact ⟨.thr p, (next_thr p hc).trans (by simp [thrService, storeStatus, h, hp])⟩
    | @updatePost p h => exact ⟨.thr p, (next_thr p hc).trans (by simp [thrService, h])⟩

end LinuxTutorial.SemController
