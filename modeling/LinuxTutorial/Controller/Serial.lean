import LinuxTutorial.Controller.Interference
import LinuxTutorial.Controller.Mailbox
import LinuxTutorial.UnderWay

/-!
# Interleavings that amount to schedules

As long as no key is stored inside the window of a service function, the single accesses of the
three threads can be put together to whole loop iterations again: an iteration of
`state_machine_thread` takes effect at its clear, one of `ascii_read_thread` at its store.
-/

namespace LinuxTutorial.Controller.Atomic

open Transition Iteration

/-- The iteration that a step begins. -/
def Event.iteration? : Event → Option Iteration
  | .getchar r => some (.asciiRead r)
  | .timerLoad _ => some .timerEvent
  | .machineLoad _ => some .stateMachine
  | _ => none

/-- The mode that an iteration of `timer_event_thread` finds. -/
def Event.timerMode? : Event → Option StateDefine
  | .timerLoad m => some m
  | _ => none

/-- The sample that `timer_event_thread` takes in the mode of a probe. -/
def sample (p : Probe) (g : Globals) : Globals :=
  match p with
  | .cond =>
    { g with condIndex := g.condIndex + 1, conductivity := entry condData g.condIndex }
  | .ph => { g with phIndex := g.phIndex + 1, phValue := entry phData g.phIndex }
  | .mv => { g with mvIndex := g.mvIndex + 1, miliVoltValue := entry mvData g.mvIndex }

/-- The globals as they are once a pending store of the mode has been made. -/
def State.settled (s : State) : Globals :=
  match s.machine with
  | .store m => { s.toGlobals with stateSingleton := m }
  | _ => s.toGlobals

/-- The key that `ascii_read_thread` has read and not stored. -/
def ReaderPC.held : ReaderPC → Option Int8
  | .loop => none
  | .store c => some c

/-- `state_machine_thread` has read the mode and not cleared the key. -/
def MachinePC.started : MachinePC → Bool
  | .service _ | .clear _ _ => true
  | .loop | .store _ => false

/-- What a started iteration of `state_machine_thread` has read is still there. -/
def ReadsCurrent (s : State) : Prop :=
  match s.machine with
  | .service p => s.stateSingleton = p.mode
  | .clear p st => s.stateSingleton = p.mode ∧ st = switchKey s.keyPressedGlobal
  | _ => True

/-- The run `es` to `s` amounts to the schedule `zs`, followed by the iterations that are still
under way. An iteration of `timer_event_thread` that comes next goes to where `zs` is split. -/
structure Serial (g : Globals) (es : List Event) (s : State) (zs rs : List Iteration) : Prop where
  known : s.stateSingleton ≠ .unknow
  timer : s.timer = .loop
  reads : ReadsCurrent s
  run : controller.run g zs = s.settled
  arranged : Arranged accepts s.reader.held s.machine.started zs rs
    (es.filterMap Event.iteration?)
  modes : (controller.outputs g zs).map (fun x => x.probe.mode) = es.filterMap Event.timerMode?
  split : controller.SplitsAt thread .timerEvent Globals.stateSingleton g zs s.stateSingleton

variable {g : Globals} {s t : State} {e : Event} {es : List Event} {zs rs : List Iteration}
  {p : Probe}

theorem timerEventThread_probe (h : g.stateSingleton = p.mode) :
    ∃ v, Controller.timerEventThread g = (some ⟨p, v⟩, sample p g) := by
  cases p <;> simp only [Probe.mode] at h <;> simp [Controller.timerEventThread, h, sample]

/-- A sample is taken from and stored to variables that the other threads do not use. -/
theorem sample_private : controller.Private thread .timerEvent sample where
  silent a g ha := by
    cases a with
    | timerEvent => exact (ha rfl).elim
    | asciiRead r => rfl
    | stateMachine => rfl
  comm a p g ha := by
    cases a with
    | timerEvent => exact (ha rfl).elim
    | asciiRead r =>
      change Controller.asciiReadThread r (sample p g) = sample p (Controller.asciiReadThread r g)
      rw [asciiReadThread_eq, asciiReadThread_eq]
      cases keyByte r <;> cases p <;> rfl
    | stateMachine =>
      refine comm_of_mode Controller.stateMachineThread (fun p g => stateMachineThread_probe)
        (fun g => stateMachineThread_unknow) ?_ ?_ ?_ g
      · intro g
        cases p <;> rfl
      · intro q g
        cases p <;> rfl
      · intro g
        cases p <;> rfl

theorem known_run (h : g.stateSingleton ≠ .unknow) (xs : List Iteration) :
    (controller.run g xs).stateSingleton ≠ .unknow := by
  induction xs generalizing g with
  | nil => exact h
  | cons a xs ih => exact ih (known_step a g h)

theorem serial_initial (h : g.stateSingleton ≠ .unknow) : Serial g [] (idle g) [] [] where
  known := h
  timer := rfl
  reads := trivial
  run := rfl
  arranged := arranged_nil
  modes := rfl
  split := Transducer.splitsAt_end rfl

/-- The position of `state_machine_thread` alone decides what is settled. -/
theorem settled_of_machine_eq {f : Globals → Globals} (hm : t.machine = s.machine)
    (ht : t.toGlobals = f s.toGlobals)
    (hf : ∀ m g, f { g with stateSingleton := m } = { f g with stateSingleton := m }) :
    t.settled = f s.settled := by
  unfold State.settled
  rw [hm, ht]
  cases s.machine with
  | store m => exact (hf m _).symm
  | loop => rfl
  | service p => rfl
  | clear p st => rfl

/-- An iteration of another thread that comes last adds no sample. -/
theorem Serial.modes_snoc (hs : Serial g es s zs rs) {a : Iteration} (ha : thread a ≠ .timerEvent)
    (he : e.timerMode? = none) :
    (controller.outputs g (zs ++ [a])).map (fun x => x.probe.mode) =
      (es ++ [e]).filterMap Event.timerMode? := by
  rw [LTS.filterMap_snoc he, sample_private.outputs_snoc ha, hs.modes]

/-- A byte that is not accepted makes a whole iteration, one that is accepted a pending one. -/
theorem serial_getchar {r : Option UInt8} (h : s.reader = .loop) (hs : Serial g es s zs rs) :
    ∃ zs rs, Serial g (es ++ [.getchar r])
      { s with
        reader := if accepts (toChar (LinuxTutorial.getchar r)) then
          .store (toChar (LinuxTutorial.getchar r)) else .loop } zs rs := by
  have harranged := hs.arranged
  rw [h] at harranged
  by_cases ha : accepts (toChar (LinuxTutorial.getchar r))
  · refine ⟨zs, [.asciiRead r], hs.known, hs.timer, hs.reads, hs.run, ?_, ?_, hs.split⟩
    · rw [List.filterMap_append, if_pos ha]
      exact harranged.getchar ha
    · rw [LTS.filterMap_snoc rfl]
      exact hs.modes
  · have hread : ∀ g, (controller.step (.asciiRead r) g).2 = g := by
      intro g
      simp [controller, Controller.asciiReadThread, ha]
    refine ⟨zs ++ [.asciiRead r], [], hs.known, hs.timer, hs.reads, ?_, ?_,
      hs.modes_snoc (by simp [thread]) rfl, hs.split.snoc (by simp [thread])⟩
    · rw [Transducer.run_snoc, hs.run, hread]
      rfl
    · rw [List.filterMap_append, if_neg ha]
      exact harranged.ignored r

/-- The store of a key completes its iteration, unless a service function has just read. -/
theorem serial_keyStore {c : Int8} (h : s.reader = .store c) (hw : ¬ InWindow s)
    (hs : Serial g es s zs rs) :
    ∃ zs rs, Serial g (es ++ [.keyStore c])
      { s with keyPressedGlobal := c, reader := .loop } zs rs := by
  have harranged := hs.arranged
  rw [h] at harranged
  obtain ⟨r, rfl, ha, hdone⟩ := harranged.keyStore
  refine ⟨zs ++ [.asciiRead r], [], hs.known, hs.timer, ?_, ?_, ?_,
    hs.modes_snoc (by simp [thread]) rfl, hs.split.snoc (by simp [thread])⟩
  · have hreads := hs.reads
    unfold ReadsCurrent at hreads ⊢
    cases hm : s.machine with
    | clear p st => exact (hw ⟨p, st, hm⟩).elim
    | loop => trivial
    | store m => trivial
    | service p => simpa [hm] using hreads
  · have hstep : (controller.step (.asciiRead r) s.settled).2 =
        { s.settled with keyPressedGlobal := toChar (LinuxTutorial.getchar r) } := by
      simp [controller, Controller.asciiReadThread, ha]
    rw [Transducer.run_snoc, hs.run, hstep]
    symm
    exact settled_of_machine_eq
      (f := fun g => { g with keyPressedGlobal := toChar (LinuxTutorial.getchar r) })
      rfl rfl fun m g => rfl
  · rw [LTS.filterMap_snoc rfl]
    exact hdone

/-- A sample goes to the split: it sees the mode from before a pending store. -/
theorem serial_timerSample (hm : s.stateSingleton = p.mode) (hs : Serial g es s zs rs) :
    ∃ zs rs, Serial g (es ++ [.timerLoad p.mode])
      { s with toGlobals := (Controller.timerEventThread s.toGlobals).2 } zs rs := by
  obtain ⟨v, hv⟩ := timerEventThread_probe hm
  obtain ⟨xs, ys, rfl, hys, hmode⟩ := hs.split
  obtain ⟨w, hw⟩ := timerEventThread_probe (hmode.trans hm)
  have hstep : controller.step .timerEvent (controller.run g xs) =
      (some ⟨p, w⟩, sample p (controller.run g xs)) := hw
  have hkept : ∀ g, (sample p g).stateSingleton = g.stateSingleton := by
    intro g
    cases p <;> rfl
  rw [hv]
  refine ⟨xs ++ .timerEvent :: ys, rs, ?_, hs.timer, ?_, ?_, ?_, ?_, ?_⟩
  · rw [hkept]
    exact hs.known
  · have hreads := hs.reads
    have hkey : (sample p s.toGlobals).keyPressedGlobal = s.keyPressedGlobal := by cases p <;> rfl
    unfold ReadsCurrent at hreads ⊢
    rw [hkept, hkey]
    exact hreads
  · rw [sample_private.run_insert hys (congrArg Prod.snd hstep), hs.run]
    symm
    refine settled_of_machine_eq (f := sample p) rfl rfl fun m g => ?_
    cases p <;> rfl
  · rw [List.filterMap_append]
    exact hs.arranged.timerEvent hys
  · rw [sample_private.outputs_insert hys, List.map_append, hs.modes, List.filterMap_append, hstep]
    rfl
  · refine ⟨xs ++ [.timerEvent], ys, by simp, hys, ?_⟩
    rw [Transducer.run_snoc, hstep, hkept, hkept, hmode]

/-- The clear of the key completes an iteration of `state_machine_thread`, up to its store. -/
theorem serial_serviceReturn {st : Status} (h : s.machine = .clear p st)
    (hs : Serial g es s zs rs) :
    ∃ zs rs, Serial g (es ++ [.serviceReturn p st])
      { s with keyPressedGlobal := newline, machine := .store (nextState p st) } zs rs := by
  have hreads := hs.reads
  simp only [ReadsCurrent, h] at hreads
  obtain ⟨hmode, rfl⟩ := hreads
  have hsettled : s.settled = s.toGlobals := by simp [State.settled, h]
  have harranged := hs.arranged
  rw [h] at harranged
  refine ⟨zs ++ [.stateMachine], rs, hs.known, hs.timer, trivial, ?_, ?_,
    hs.modes_snoc (by simp [thread]) rfl, hs.split.snoc (by simp [thread])⟩
  · rw [Transducer.run_snoc, hs.run, hsettled]
    exact stateMachineThread_probe hmode
  · rw [LTS.filterMap_snoc rfl]
    exact harranged.machineDone

/-- Once the mode is stored, an iteration of `timer_event_thread` comes last. -/
theorem serial_machineStore {m : StateDefine} (hg : g.stateSingleton ≠ .unknow)
    (h : s.machine = .store m) (hs : Serial g es s zs rs) :
    Serial g (es ++ [.machineStore m]) { s with stateSingleton := m, machine := .loop } zs rs := by
  have hsettled : s.settled = { s.toGlobals with stateSingleton := m } := by
    simp [State.settled, h]
  have hrun := hs.run.trans hsettled
  have hmode : (controller.run g zs).stateSingleton = m := by rw [hrun]
  have harranged := hs.arranged
  rw [h] at harranged
  refine ⟨?_, hs.timer, trivial, hrun, ?_, ?_, Transducer.splitsAt_end hmode⟩
  · rw [← hmode]
    exact known_run hg zs
  · rw [LTS.filterMap_snoc rfl]
    exact harranged
  · rw [LTS.filterMap_snoc rfl]
    exact hs.modes

/-- Every step of a run that stores no key inside the window keeps it serial. -/
theorem serial_step (hg : g.stateSingleton ≠ .unknow) (h : Step s e t)
    (hc : StoresOutsideWindow s e) (hs : Serial g es s zs rs) :
    ∃ zs rs, Serial g (es ++ [e]) t zs rs := by
  cases h with
  | getchar h => exact serial_getchar h hs
  | @keyStore c h =>
    refine serial_keyStore h (hc ?_) hs
    have harranged := hs.arranged
    rw [h] at harranged
    obtain ⟨r, -, ha, -⟩ := harranged.keyStore
    exact accepts_iff.mp ha
  | timerSample h hm => exact serial_timerSample hm hs
  | timerUnknow h hm => exact (hs.known hm).elim
  | timerStore h => exact absurd (hs.timer.symm.trans h) (by simp)
  | @machineKnown p h hm =>
    have harranged := hs.arranged
    rw [h] at harranged
    refine ⟨zs, rs, hs.known, hs.timer, hm, ?_, ?_, ?_, hs.split⟩
    · rw [hs.run]
      simp [State.settled, h]
    · rw [List.filterMap_append]
      exact harranged.machineLoad
    · rw [LTS.filterMap_snoc rfl]
      exact hs.modes
  | machineUnknow h hm => exact (hs.known hm).elim
  | @serviceLoad p h =>
    have hmode : s.stateSingleton = p.mode := by simpa [ReadsCurrent, h] using hs.reads
    have harranged := hs.arranged
    rw [h] at harranged
    refine ⟨zs, rs, hs.known, hs.timer, ⟨hmode, rfl⟩, ?_, ?_, ?_, hs.split⟩
    · rw [hs.run]
      simp [State.settled, h]
    · rw [LTS.filterMap_snoc rfl]
      exact harranged
    · rw [LTS.filterMap_snoc rfl]
      exact hs.modes
  | serviceReturn h => exact serial_serviceReturn h hs
  | machineStore h => exact ⟨zs, rs, serial_machineStore hg h hs⟩

theorem serial_run (hg : g.stateSingleton ≠ .unknow)
    (h : (atomic.restrict StoresOutsideWindow).MTr (idle g) es s) :
    ∃ zs rs, Serial g es s zs rs := by
  refine h.history (P := fun es s => ∃ zs rs, Serial g es s zs rs)
    ⟨[], [], serial_initial hg⟩ ?_
  rintro es s e t ⟨zs, rs, hs⟩ ⟨htr, hc⟩
  exact serial_step hg (tr_iff.mp htr) hc hs

/-- From a known mode on, a run that stores no key inside the window and leaves no iteration
half done is a schedule of whole iterations: each thread runs the same iterations in the same
order, the same modes are sampled, and the globals end up the same. -/
theorem serialisable (hg : g.stateSingleton ≠ .unknow)
    (h : (atomic.restrict StoresOutsideWindow).MTr (idle g) es s) (hreader : s.reader = .loop)
    (hmachine : s.machine = .loop) :
    ∃ xs, controller.run g xs = s.toGlobals ∧
      SameOrder thread xs (es.filterMap Event.iteration?) ∧
      (controller.outputs g xs).map (fun x => x.probe.mode) = es.filterMap Event.timerMode? := by
  obtain ⟨zs, rs, hs⟩ := serial_run hg h
  have harranged := hs.arranged
  rw [hreader, hmachine] at harranged
  refine ⟨zs, ?_, harranged.sameOrder, hs.modes⟩
  rw [hs.run]
  simp [State.settled, hmachine]

/-- A key arrives while an iteration of `state_machine_thread` is under way, and a sample is taken
before that iteration stores the mode. -/
theorem serialisable_turn :
    ∃ xs, controller.run { Controller.initial with stateSingleton := .cond } xs =
        { Controller.initial with
          stateSingleton := .ph, keyPressedGlobal := newline, condIndex := 1, conductivity := 10 } ∧
      SameOrder thread xs [.stateMachine, .asciiRead (some 100), .timerEvent] ∧
      (controller.outputs { Controller.initial with stateSingleton := .cond } xs).map
        (fun x => x.probe.mode) = [.cond] := by
  let g : Globals := { Controller.initial with stateSingleton := .cond }
  let s : State := idle { g with
    stateSingleton := .ph, keyPressedGlobal := newline, condIndex := 1, conductivity := 10 }
  have h : (atomic.restrict StoresOutsideWindow).MTr (idle g)
      [.machineLoad .cond, .getchar (some 100), .keyStore 100, .serviceLoad .cond 100,
        .timerLoad .cond, .serviceReturn .cond .goForward, .machineStore .ph] s := by
    refine .stepL ⟨⟨.machine, rfl⟩, ?_⟩ (.stepL ⟨⟨.reader (some 100), rfl⟩, ?_⟩
      (.stepL ⟨⟨.reader none, rfl⟩, ?_⟩ (.stepL ⟨⟨.machine, rfl⟩, ?_⟩
        (.stepL ⟨⟨.timer, rfl⟩, ?_⟩ (.stepL ⟨⟨.machine, rfl⟩, ?_⟩
          (.single ⟨⟨.machine, rfl⟩, ?_⟩)))))) <;>
      simp [StoresOutsideWindow, Event.storesKey, InWindow]
  exact serialisable (g := g) (by decide) h rfl rfl

/-- A key stored inside the window is gone, and no schedule of the two iterations loses it. -/
theorem not_serialisable_in_window : ¬ ∀ es s, atomic.MTr
    (idle { Controller.initial with stateSingleton := .cond }) es s →
    s.reader = .loop → s.machine = .loop →
    ∃ xs, controller.run { Controller.initial with stateSingleton := .cond } xs = s.toGlobals ∧
      SameOrder thread xs (es.filterMap Event.iteration?) := by
  intro hall
  let g : Globals := { Controller.initial with stateSingleton := .cond }
  have h : atomic.MTr (idle g)
      [.machineLoad .cond, .serviceLoad .cond 0, .getchar (some 97), .keyStore 97,
        .serviceReturn .cond .stayPut, .machineStore .cond]
      (idle { g with keyPressedGlobal := newline }) :=
    LTS.mTr_of_replay [.machine, .machine, .reader (some 97), .reader none, .machine, .machine] rfl
  obtain ⟨xs, hrun, horder⟩ := hall _ _ h rfl rfl
  have hread := horder .asciiRead
  have htimer := horder .timerEvent
  have hmachine := horder .stateMachine
  simp only [List.filterMap_cons, List.filterMap_nil, Event.iteration?] at hread htimer hmachine
  -- a third item would be a second one of its thread
  rcases xs with _ | ⟨a, _ | ⟨b, _ | ⟨c, xs⟩⟩⟩
  · simp [thread] at hread
  · cases a <;> simp [thread] at hread hmachine
  · cases a <;> cases b <;> simp [thread] at hread htimer hmachine <;> subst hread <;>
      exact absurd hrun (by decide)
  · cases a <;> cases b <;> cases c <;> simp [thread] at hread htimer hmachine

end LinuxTutorial.Controller.Atomic
