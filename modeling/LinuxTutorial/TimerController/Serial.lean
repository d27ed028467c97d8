import LinuxTutorial.TimerController.Atomic
import LinuxTutorial.UnderWay

/-!
# Every interleaving after the start is a schedule

No service function clears the key, so an iteration of `state_machine_thread` takes effect when it
reads the key and no store of a key can come at a wrong time. Only at the start are there two
threads that store the mode: there one must not read UNKNOW while the other is about to replace it.
-/

namespace LinuxTutorial.TimerController.Atomic

open Transition Iteration

/-- The iteration that a step begins. -/
def Event.iteration? : Event → Option Iteration
  | .getchar r => some (.asciiRead r)
  | .timerSample _ | .timerUnknow => some .timerEvent
  | .machineLoad _ => some .stateMachine
  | .keyStore _ | .timerStore | .serviceLoad _ _ | .machineStore _ => none

def Event.sample? : Event → Option Sample
  | .timerSample x => some x
  | _ => none

/-- No thread reads UNKNOW while the other one is about to store a mode. -/
def Apart (s : State) : Event → Prop
  | .timerUnknow => ∀ m, s.machine ≠ .store m
  | .machineLoad .unknow => s.timer = .loop
  | _ => True

/-- The mode that a thread has decided on and not stored. -/
def State.pendingStore (s : State) : Option StateDefine :=
  match s.timer, s.machine with
  | .store, _ => some .mv
  | .loop, .store m => some m
  | .loop, _ => none

/-- The globals as they are once a pending store of the mode has been made. -/
def State.settled (s : State) : Globals :=
  { s.toGlobals with state := s.pendingStore.getD s.state }

/-- The byte that `ascii_read_thread` has read and not stored. -/
def ReaderPC.held : ReaderPC → Option Int8
  | .loop => none
  | .store c => some c

/-- `state_machine_thread` has read the mode and not the key. -/
def MachinePC.started : MachinePC → Bool
  | .service _ => true
  | .loop | .store _ => false

/-- The run `es` to `s` amounts to the schedule `zs`, followed by the iterations that are still
under way. A sample that comes next goes to where `zs` is split. -/
structure Serial (g : Globals) (es : List Event) (s : State) (zs rs : List Iteration) : Prop where
  running : s.ESCPressed = 0
  alone : s.timer = .store → s.machine = .loop ∧ s.state = .unknow
  reads : ∀ p, s.machine = .service p → s.state = p.mode
  run : controller.run g zs = s.settled
  arranged : Arranged (fun _ => True) s.reader.held s.machine.started zs rs
    (es.filterMap Event.iteration?)
  samples : controller.outputs g zs = es.filterMap Event.sample?
  split : s.timer = .loop → controller.SplitsAt thread .timerEvent Globals.state g zs s.state

variable {g : Globals} {s t : State} {e : Event} {es : List Event} {zs rs ys : List Iteration}
  {p : Probe}

/-- A sample is taken from and stored to variables that the other threads do not use. -/
theorem sample_private : controller.Private thread .timerEvent sample where
  silent a g ha := by
    cases a with
    | timerEvent => exact (ha rfl).elim
    | asciiRead r => rfl
    | stateMachine => rfl
  comm a p g ha := by
    cases a with
    | timerEvent => exact (ha rfl).elim
    | asciiRead r => cases p <;> rfl
    | stateMachine =>
      refine comm_of_mode TimerController.stateMachineThread (fun p g => stateMachineThread_probe)
        (fun g => stateMachineThread_unknow) ?_ ?_ ?_ g
      · intro g
        cases p <;> rfl
      · intro q g
        cases p <;> rfl
      · intro g
        cases p <;> rfl

/-- Only `timer_event_thread` advances the counter. -/
theorem i_other (hys : ∀ a ∈ ys, thread a ≠ .timerEvent) (g : Globals) :
    (controller.run g ys).i = g.i := by
  refine Transducer.run_eq fun a ha g => ?_
  cases a with
  | timerEvent => exact (hys _ ha rfl).elim
  | asciiRead r => rfl
  | stateMachine =>
    cases hm : g.state <;> simp [controller, TimerController.stateMachineThread, hm]

theorem step_timerEvent_probe (hesc : g.ESCPressed = 0) (hm : g.state = p.mode) :
    controller.step .timerEvent g = (some ⟨p, entry (table p) g.i⟩, sample p g) := by
  cases p <;> simp only [Probe.mode] at hm <;>
    simp [controller, TimerController.timerEventThread, hesc, hm, sample, table]

theorem run_ESCPressed (xs : List Iteration) (g : Globals) :
    (controller.run g xs).ESCPressed = g.ESCPressed :=
  Transducer.run_eq fun a _ => step_ESCPressed a

theorem serial_initial (h : g.ESCPressed = 0) : Serial g [] (idle g) [] [] where
  running := h
  alone := by simp [idle]
  reads := by simp [idle]
  run := rfl
  arranged := arranged_nil
  samples := rfl
  split := fun _ => Transducer.splitsAt_end rfl

/-- An iteration of another thread that comes last adds no sample. -/
theorem Serial.samples_snoc (hs : Serial g es s zs rs) {a : Iteration}
    (ha : thread a ≠ .timerEvent) (he : e.sample? = none) :
    controller.outputs g (zs ++ [a]) = (es ++ [e]).filterMap Event.sample? := by
  rw [LTS.filterMap_snoc he, sample_private.outputs_snoc ha, hs.samples]

/-- Reading a byte begins an iteration that takes effect later. -/
theorem serial_getchar {r : Option UInt8} (h : s.reader = .loop) (hs : Serial g es s zs rs) :
    Serial g (es ++ [.getchar r])
      { s with reader := .store (toChar (LinuxTutorial.getchar r)) } zs [.asciiRead r] := by
  have harranged := hs.arranged
  rw [h] at harranged
  refine ⟨hs.running, hs.alone, hs.reads, hs.run, ?_, ?_, hs.split⟩
  · rw [List.filterMap_append]
    exact harranged.getchar trivial
  · rw [LTS.filterMap_snoc rfl]
    exact hs.samples

/-- The store of the byte completes its iteration. -/
theorem serial_keyStore {c : Int8} (h : s.reader = .store c) (hs : Serial g es s zs rs) :
    ∃ zs rs, Serial g (es ++ [.keyStore c]) { s with keyPressed := c, reader := .loop } zs rs := by
  have harranged := hs.arranged
  rw [h] at harranged
  obtain ⟨r, rfl, -, hdone⟩ := harranged.keyStore
  refine ⟨zs ++ [.asciiRead r], [], hs.running, hs.alone, hs.reads, ?_, ?_,
    hs.samples_snoc (by simp [thread]) rfl, fun htimer => (hs.split htimer).snoc (by simp [thread])⟩
  · rw [Transducer.run_snoc, hs.run]
    rfl
  · rw [LTS.filterMap_snoc rfl]
    exact hdone

/-- A sample goes to the split: it sees the mode from before a pending store. -/
theorem serial_timerSample (h : s.timer = .loop) (hm : s.state = p.mode)
    (hs : Serial g es s zs rs) :
    ∃ zs rs, Serial g (es ++ [.timerSample ⟨p, entry (table p) s.i⟩])
      { s with toGlobals := sample p s.toGlobals } zs rs := by
  obtain ⟨xs, ys, rfl, hys, hmode⟩ := hs.split h
  have hrun := hs.run
  rw [Transducer.run_append] at hrun
  have hindex : (controller.run g xs).i = s.i := by
    rw [← i_other hys, hrun]
    rfl
  have hesc : (controller.run g xs).ESCPressed = 0 := by
    rw [← run_ESCPressed ys, hrun]
    exact hs.running
  have hstep := step_timerEvent_probe hesc (hmode.trans hm)
  have hkept : ∀ g, (sample p g).state = g.state := by
    intro g
    cases p <;> rfl
  refine ⟨xs ++ .timerEvent :: ys, rs, ?_, ?_, ?_, ?_, ?_, ?_, ?_⟩
  · have hrunning := hs.running
    cases p <;> exact hrunning
  · rw [hkept]
    exact hs.alone
  · rw [hkept]
    exact hs.reads
  · rw [sample_private.run_insert hys (congrArg Prod.snd hstep), hs.run]
    cases p <;> rfl
  · rw [List.filterMap_append]
    exact hs.arranged.timerEvent hys
  · rw [sample_private.outputs_insert hys, hs.samples, List.filterMap_append, hstep, hindex]
    rfl
  · intro _
    refine ⟨xs ++ [.timerEvent], ys, by simp, hys, ?_⟩
    rw [Transducer.run_snoc, hstep, hkept, hkept, hmode]

/-- An iteration of `timer_event_thread` that finds UNKNOW takes effect when it does. -/
theorem serial_timerUnknow (h : s.timer = .loop) (hm : s.state = .unknow)
    (hapart : ∀ m, s.machine ≠ .store m) (hs : Serial g es s zs rs) :
    Serial g (es ++ [.timerUnknow]) { s with timer := .store } (zs ++ [.timerEvent]) rs := by
  have hmachine : s.machine = .loop := by
    cases hpc : s.machine with
    | loop => rfl
    | service p => simp [hs.reads p hpc] at hm
    | store m => exact (hapart m hpc).elim
  have hsettled : s.settled = s.toGlobals := by
    simp [State.settled, State.pendingStore, h, hmachine]
  have hstep : controller.step .timerEvent s.toGlobals =
      (none, { s.toGlobals with state := .mv }) := by
    simp [controller, TimerController.timerEventThread, hs.running, hm]
  have harranged := hs.arranged
  rw [← List.append_nil zs] at harranged
  refine ⟨hs.running, fun _ => ⟨hmachine, hm⟩, hs.reads, ?_, ?_, ?_, by simp⟩
  · rw [Transducer.run_snoc, hs.run, hsettled, hstep]
    rfl
  · rw [List.filterMap_append]
    exact harranged.timerEvent (by simp)
  · rw [LTS.filterMap_snoc rfl, Transducer.outputs_append, hs.samples, hs.run, hsettled]
    simp [hstep]

/-- An iteration of `state_machine_thread` that finds UNKNOW takes effect when it does. -/
theorem serial_machineUnknow (h : s.machine = .loop) (hm : s.state = .unknow)
    (htimer : s.timer = .loop) (hs : Serial g es s zs rs) :
    Serial g (es ++ [.machineLoad .unknow]) { s with machine := .store .cond }
      (zs ++ [.stateMachine]) rs := by
  have hsettled : s.settled = s.toGlobals := by
    simp [State.settled, State.pendingStore, h, htimer]
  have harranged := hs.arranged
  rw [h] at harranged
  refine ⟨hs.running, by simp [htimer], by simp, ?_, ?_, hs.samples_snoc (by simp [thread]) rfl,
    fun _ => (hs.split htimer).snoc (by simp [thread])⟩
  · rw [Transducer.run_snoc, hs.run, hsettled]
    change TimerController.stateMachineThread s.toGlobals = _
    rw [stateMachineThread_unknow hm]
    simp [State.settled, State.pendingStore, htimer]
  · rw [List.filterMap_append]
    exact harranged.machineLoad.machineDone

/-- Reading the key completes an iteration of `state_machine_thread`, up to its store. -/
theorem serial_serviceLoad (h : s.machine = .service p) (hs : Serial g es s zs rs) :
    Serial g (es ++ [.serviceLoad p s.keyPressed])
      { s with machine := .store (LinuxTutorial.nextState p (switchKey s.keyPressed)) }
      (zs ++ [.stateMachine]) rs := by
  have htimer : s.timer = .loop := by
    cases hpc : s.timer with
    | loop => rfl
    | store => simp [(hs.alone hpc).1] at h
  have hsettled : s.settled = s.toGlobals := by
    simp [State.settled, State.pendingStore, h, htimer]
  have harranged := hs.arranged
  rw [h] at harranged
  refine ⟨hs.running, by simp [htimer], by simp, ?_, ?_, hs.samples_snoc (by simp [thread]) rfl,
    fun _ => (hs.split htimer).snoc (by simp [thread])⟩
  · rw [Transducer.run_snoc, hs.run, hsettled]
    change TimerController.stateMachineThread s.toGlobals = _
    rw [stateMachineThread_probe (hs.reads p h)]
    simp [State.settled, State.pendingStore, htimer]
  · rw [LTS.filterMap_snoc rfl]
    exact harranged.machineDone

/-- Once a mode is stored, a sample comes last. -/
theorem serial_store (hs : Serial g es s zs rs) (ht : t.settled = s.settled)
    (hstored : t.settled = t.toGlobals) (hesc : t.ESCPressed = s.ESCPressed)
    (hreader : t.reader = s.reader) (hmachine : t.machine = .loop) (htimer : t.timer = .loop)
    (hstarted : s.machine.started = false) (he : e.iteration? = none)
    (hx : e.sample? = none) : Serial g (es ++ [e]) t zs rs := by
  have harranged := hs.arranged
  rw [hstarted, ← hreader] at harranged
  refine ⟨hesc.trans hs.running, by simp [htimer], by simp [hmachine], hs.run.trans ht.symm, ?_, ?_,
    fun _ => Transducer.splitsAt_end ?_⟩
  · rw [LTS.filterMap_snoc he, hmachine]
    exact harranged
  · rw [LTS.filterMap_snoc hx]
    exact hs.samples
  · rw [hs.run, ← ht, hstored]

/-- Every step that keeps the two threads apart at the start keeps a run serial. -/
theorem serial_step (h : Step s e t) (hc : Apart s e) (hs : Serial g es s zs rs) :
    ∃ zs rs, Serial g (es ++ [e]) t zs rs := by
  cases h with
  | getchar h => exact ⟨zs, _, serial_getchar h hs⟩
  | keyStore h => exact serial_keyStore h hs
  | timerSample h _ hm => exact serial_timerSample h hm hs
  | timerUnknow h _ hm => exact ⟨_, rs, serial_timerUnknow h hm hc hs⟩
  | timerStore h =>
    obtain ⟨hmachine, -⟩ := hs.alone h
    refine ⟨zs, rs, serial_store hs ?_ ?_ rfl rfl hmachine rfl ?_ rfl rfl⟩
    · simp [State.settled, State.pendingStore, h, hmachine]
    · simp [State.settled, State.pendingStore, hmachine]
    · rw [hmachine]
      rfl
  | @machineKnown p h hm =>
    have htimer : s.timer = .loop := by
      cases hpc : s.timer with
      | loop => rfl
      | store => exact (p.mode_ne_unknow (hm.symm.trans (hs.alone hpc).2)).elim
    have harranged := hs.arranged
    rw [h] at harranged
    refine ⟨zs, rs, hs.running, by simp [htimer], ?_, ?_, ?_, ?_, hs.split⟩
    · rintro q hq
      obtain rfl : p = q := by simpa using hq
      exact hm
    · rw [hs.run]
      simp [State.settled, State.pendingStore, h, htimer]
    · rw [List.filterMap_append]
      exact harranged.machineLoad
    · rw [LTS.filterMap_snoc rfl]
      exact hs.samples
  | machineUnknow h hm => exact ⟨_, rs, serial_machineUnknow h hm hc hs⟩
  | serviceLoad h => exact ⟨_, rs, serial_serviceLoad h hs⟩
  | @machineStore m h =>
    have htimer : s.timer = .loop := by
      cases hpc : s.timer with
      | loop => rfl
      | store => simp [(hs.alone hpc).1] at h
    refine ⟨zs, rs, serial_store hs ?_ ?_ rfl rfl rfl htimer ?_ rfl rfl⟩
    · simp [State.settled, State.pendingStore, h, htimer]
    · simp [State.settled, State.pendingStore, htimer]
    · rw [h]
      rfl

theorem serial_run (hesc : g.ESCPressed = 0) (h : (atomic.restrict Apart).MTr (idle g) es s) :
    ∃ zs rs, Serial g es s zs rs := by
  refine h.history (P := fun es s => ∃ zs rs, Serial g es s zs rs)
    ⟨[], [], serial_initial hesc⟩ ?_
  rintro es s e t ⟨zs, rs, hs⟩ ⟨htr, hc⟩
  exact serial_step (tr_iff.mp htr) hc hs

theorem Serial.schedule (hs : Serial g es s zs rs) (hreader : s.reader = .loop)
    (htimer : s.timer = .loop) (hmachine : s.machine = .loop) :
    controller.run g zs = s.toGlobals ∧
      SameOrder thread zs (es.filterMap Event.iteration?) ∧
      controller.outputs g zs = es.filterMap Event.sample? := by
  have harranged := hs.arranged
  rw [hreader, hmachine] at harranged
  refine ⟨?_, harranged.sameOrder, hs.samples⟩
  rw [hs.run]
  simp [State.settled, State.pendingStore, htimer, hmachine]

/-- A run that leaves UNKNOW undisturbed and no iteration half done is a schedule of whole
iterations: each thread runs the same iterations in the same order, the same samples are taken,
and the globals end up the same. -/
theorem schedule_of_apart (hesc : g.ESCPressed = 0)
    (h : (atomic.restrict Apart).MTr (idle g) es s) (hreader : s.reader = .loop)
    (htimer : s.timer = .loop) (hmachine : s.machine = .loop) :
    ∃ xs, controller.run g xs = s.toGlobals ∧
      SameOrder thread xs (es.filterMap Event.iteration?) ∧
      controller.outputs g xs = es.filterMap Event.sample? := by
  obtain ⟨zs, rs, hs⟩ := serial_run hesc h
  exact ⟨zs, hs.schedule hreader htimer hmachine⟩

/-- The timer starts the controller, then a key arrives during an iteration of
`state_machine_thread` and a sample is taken before the turn is stored. -/
theorem schedule_of_apart_turn :
    ∃ xs, controller.run initial xs =
        { initial with state := .cond, keyPressed := 100, i := 1, miliVoltValue := 21 } ∧
      SameOrder thread xs [.timerEvent, .stateMachine, .asciiRead (some 100), .timerEvent] ∧
      controller.outputs initial xs = [⟨.mv, 21⟩] := by
  let s : State :=
    idle { initial with state := .cond, keyPressed := 100, i := 1, miliVoltValue := 21 }
  have h : (atomic.restrict Apart).MTr (idle initial)
      [.timerUnknow, .timerStore, .machineLoad .mv, .getchar (some 100), .keyStore 100,
        .serviceLoad .mv 100, .timerSample ⟨.mv, 21⟩, .machineStore .cond] s := by
    refine .stepL ⟨⟨.timer, rfl⟩, ?_⟩ (.stepL ⟨⟨.timer, rfl⟩, trivial⟩
      (.stepL ⟨⟨.machine, rfl⟩, trivial⟩ (.stepL ⟨⟨.reader (some 100), rfl⟩, trivial⟩
        (.stepL ⟨⟨.reader none, rfl⟩, trivial⟩ (.stepL ⟨⟨.machine, rfl⟩, trivial⟩
          (.stepL ⟨⟨.timer, rfl⟩, trivial⟩ (.single ⟨⟨.machine, rfl⟩, trivial⟩)))))))
    simp [Apart, idle]
  exact schedule_of_apart (g := initial) rfl h rfl rfl rfl

/-- From a known mode on nothing has to be kept apart. -/
structure Started (s : State) : Prop where
  known : s.state ≠ .unknow
  timer : s.timer = .loop
  store : s.machine ≠ .store .unknow

theorem Started.step (h : Step s e t) (hs : Started s) : Apart s e ∧ Started t := by
  obtain ⟨hknown, htimer, hstore⟩ := hs
  cases h with
  | getchar h => exact ⟨trivial, hknown, htimer, hstore⟩
  | keyStore h => exact ⟨trivial, hknown, htimer, hstore⟩
  | @timerSample p h _ hm =>
    refine ⟨trivial, ?_, htimer, hstore⟩
    cases p <;> exact hknown
  | timerUnknow h _ hm => exact (hknown hm).elim
  | timerStore h => simp [htimer] at h
  | @machineKnown p h hm =>
    refine ⟨?_, hknown, htimer, by simp⟩
    cases p <;> trivial
  | machineUnknow h hm => exact (hknown hm).elim
  | serviceLoad h => exact ⟨trivial, hknown, htimer, by simp⟩
  | machineStore h =>
    refine ⟨trivial, ?_, htimer, by simp⟩
    rintro rfl
    exact hstore h

theorem Started.run (h : atomic.MTr s es t) (hs : Started s) :
    (atomic.restrict Apart).MTr s es t := by
  induction h with
  | refl => exact .refl
  | stepL htr _ ih =>
    obtain ⟨hapart, hnext⟩ := hs.step (tr_iff.mp htr)
    exact .stepL ⟨htr, hapart⟩ (ih hnext)

/-- From a known mode on every interleaving that leaves no iteration half done is a schedule of
whole iterations. -/
theorem schedule_of_known (hg : g.state ≠ .unknow) (hesc : g.ESCPressed = 0)
    (h : atomic.MTr (idle g) es s) (hreader : s.reader = .loop) (htimer : s.timer = .loop)
    (hmachine : s.machine = .loop) :
    ∃ xs, controller.run g xs = s.toGlobals ∧
      SameOrder thread xs (es.filterMap Event.iteration?) ∧
      controller.outputs g xs = es.filterMap Event.sample? := by
  have hstarted : Started (idle g) := ⟨hg, rfl, by simp [idle]⟩
  obtain ⟨zs, rs, hs⟩ := serial_run hesc (hstarted.run h)
  exact ⟨zs, hs.schedule hreader htimer hmachine⟩

/-- When both threads find UNKNOW, COND can be the last store and no sample be taken. No schedule
of the two iterations ends like that. -/
theorem not_schedule_at_start : ¬ ∀ es s, atomic.MTr (idle initial) es s →
    s.reader = .loop → s.timer = .loop → s.machine = .loop →
    ∃ xs, controller.run initial xs = s.toGlobals ∧
      SameOrder thread xs (es.filterMap Event.iteration?) := by
  intro hall
  have h : atomic.MTr (idle initial)
      [.timerUnknow, .machineLoad .unknow, .timerStore, .machineStore .cond]
      (idle { initial with state := .cond }) :=
    LTS.mTr_of_replay [.timer, .machine, .timer, .machine] rfl
  obtain ⟨xs, hrun, horder⟩ := hall _ _ h rfl rfl rfl
  have hread := horder .asciiRead
  have htimer := horder .timerEvent
  have hmachine := horder .stateMachine
  simp only [List.filterMap_cons, List.filterMap_nil, Event.iteration?] at hread htimer hmachine
  -- a third item would be a second one of its thread
  rcases xs with _ | ⟨a, _ | ⟨b, _ | ⟨c, xs⟩⟩⟩
  · simp [thread] at htimer
  · cases a <;> simp [thread] at htimer hmachine
  · cases a <;> cases b <;> simp [thread] at hread htimer hmachine <;>
      exact absurd hrun (by decide)
  · cases a <;> cases b <;> cases c <;> simp [thread] at hread htimer hmachine

end LinuxTutorial.TimerController.Atomic
