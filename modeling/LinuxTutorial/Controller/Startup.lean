import LinuxTutorial.Controller.Atomic

/-!
# Leaving the unknown mode

Both `timer_event_thread` and `state_machine_thread` test `state_singleton` and store into it
later. The test of the one can be overtaken by the store of the other.
-/

namespace LinuxTutorial.Controller.Atomic

open Transition

variable {s t : State} {e : Event} {es : List Event}

/-- The last thing `state_machine_thread` did is to return from a service function with
`GO_BACK` or `GO_FORWARD`. -/
def AfterTurn (es : List Event) : Prop :=
  ∃ p st, LTS.LastIs Event.ofMachine (.serviceReturn p st) es ∧ (st = .goBack ∨ st = .goForward)

/-- In the state `s` that the run `pre` reaches, a known mode is changed only by the state
machine after a key, and not by the start-up store of the timer. -/
def ChangedOnlyByKey (lts : LTS State Event) (pre : List Event) (s : State) : Prop :=
  (∀ e t, lts.Tr s e t → s.stateSingleton ≠ .unknow → t.stateSingleton ≠ s.stateSingleton →
    (∃ m, e = .machineStore m) ∧ AfterTurn pre) ∧
  (∀ t, lts.Tr s .timerStore t → s.stateSingleton ≠ .unknow → t.stateSingleton = s.stateSingleton)

/-- `state_machine_thread` stores PH or MV only while no start-up store of
`timer_event_thread` is pending. -/
def TurnsAfterStartup (s : State) (e : Event) : Prop :=
  ∀ m, e = .machineStore m → m ≠ .cond → s.timer ≠ .store

/-- What the position of `state_machine_thread` says about the mode. -/
def MachineMode (es : List Event) (s : State) : Prop :=
  match s.machine with
  | .loop => True
  | .service p | .clear p _ => s.stateSingleton = p.mode
  | .store m =>
    (∃ p st, LTS.LastIs Event.ofMachine (.serviceReturn p st) es ∧ m = nextState p st ∧
      s.stateSingleton = p.mode) ∨
    (m = .cond ∧ (s.stateSingleton = .unknow ∨ s.stateSingleton = .cond))

/-- A pending start-up store would at most replace UNKNOW or COND. -/
def TimerMode (s : State) : Prop :=
  s.timer = .store → s.stateSingleton = .unknow ∨ s.stateSingleton = .cond

theorem nextState_ne {p : Probe} {st : Status} (h : nextState p st ≠ p.mode) :
    st = .goBack ∨ st = .goForward := by
  cases p <;> cases st <;> simp_all [nextState, Probe.mode]

/-- A step of another thread that keeps the mode keeps what is known about it. -/
theorem machineMode_frame (hm : MachineMode es s) (hpc : t.machine = s.machine)
    (hmode : t.stateSingleton = s.stateSingleton) (he : e.ofMachine = false) :
    MachineMode (es ++ [e]) t := by
  unfold MachineMode at hm ⊢
  rw [hpc, hmode]
  cases hs : s.machine with
  | loop => trivial
  | service p => simpa [hs] using hm
  | clear p st => simpa [hs] using hm
  | store m =>
    simp only [hs] at hm ⊢
    rcases hm with ⟨p, st, hl, hrest⟩ | hm
    · exact Or.inl ⟨p, st, hl.snoc he, hrest⟩
    · exact Or.inr hm

/-- A start-up store over UNKNOW or COND is consistent with any position of the machine. -/
theorem machineMode_timerStore (hm : MachineMode es s)
    (hmode : s.stateSingleton = .unknow ∨ s.stateSingleton = .cond)
    (hpc : t.machine = s.machine) (ht : t.stateSingleton = .cond) :
    MachineMode (es ++ [.timerStore]) t := by
  rcases hmode with hmode | hmode
  · unfold MachineMode at hm ⊢
    rw [hpc, ht]
    rw [hmode] at hm
    cases hs : s.machine with
    | loop => trivial
    | service p =>
      rw [hs] at hm
      exact (p.mode_ne_unknow hm.symm).elim
    | clear p st =>
      rw [hs] at hm
      exact (p.mode_ne_unknow hm.symm).elim
    | store m =>
      rw [hs] at hm
      rcases hm with ⟨p, st, _, _, hp⟩ | ⟨hcond, _⟩
      · exact (p.mode_ne_unknow hp.symm).elim
      · exact Or.inr ⟨hcond, Or.inr rfl⟩
  · exact machineMode_frame hm hpc (ht.trans hmode.symm) rfl

theorem mode_step (h : Step s e t) (hc : TurnsAfterStartup s e) (hm : MachineMode es s)
    (ht : TimerMode s) : MachineMode (es ++ [e]) t ∧ TimerMode t := by
  cases h with
  | getchar h => exact ⟨machineMode_frame hm rfl rfl rfl, ht⟩
  | keyStore h => exact ⟨machineMode_frame hm rfl rfl rfl, ht⟩
  | @timerSample p h hp =>
    have hkept := (timerEventThread_known (g := s.toGlobals) (by simp [hp])).1
    exact ⟨machineMode_frame hm rfl hkept rfl, fun hstore => by simp [h] at hstore⟩
  | timerUnknow h hu => exact ⟨machineMode_frame hm rfl rfl rfl, fun _ => Or.inl hu⟩
  | timerStore h =>
    exact ⟨machineMode_timerStore hm (ht h) rfl rfl, fun hstore => by simp at hstore⟩
  | machineKnown h hp => exact ⟨hp, ht⟩
  | machineUnknow h hu => exact ⟨Or.inr ⟨rfl, Or.inl hu⟩, ht⟩
  | @serviceLoad p h =>
    have hp : s.stateSingleton = p.mode := by simpa [MachineMode, h] using hm
    exact ⟨hp, ht⟩
  | @serviceReturn p st h =>
    have hp : s.stateSingleton = p.mode := by simpa [MachineMode, h] using hm
    exact ⟨Or.inl ⟨p, st, LTS.lastIs_snoc _ es, rfl, hp⟩, ht⟩
  | @machineStore m h =>
    refine ⟨trivial, fun hstore => Or.inr ?_⟩
    by_contra hne
    exact hc m rfl hne hstore

theorem mode_run (h : (atomic.restrict TurnsAfterStartup).MTr initial es s) :
    MachineMode es s ∧ TimerMode s :=
  h.history (P := fun es s => MachineMode es s ∧ TimerMode s)
    ⟨trivial, fun hstore => by cases hstore⟩
    fun _ _ _ _ hi hs => mode_step (tr_iff.mp hs.1) hs.2 hi.1 hi.2

/-- The two stores into `state_singleton` are the only steps that change a known mode. -/
theorem store_of_mode_ne (h : Step s e t) (hknown : s.stateSingleton ≠ .unknow)
    (hne : t.stateSingleton ≠ s.stateSingleton) : e = .timerStore ∨ ∃ m, e = .machineStore m := by
  cases h with
  | timerSample h hp => exact (hne (timerEventThread_known (g := s.toGlobals) hknown).1).elim
  | timerStore h => exact Or.inl rfl
  | @machineStore m h => exact Or.inr ⟨m, rfl⟩
  | _ => exact (hne rfl).elim

/-- A pending start-up store that finds a known mode finds COND. -/
theorem timerStore_mode (h : Step s .timerStore t) (ht : TimerMode s)
    (hknown : s.stateSingleton ≠ .unknow) : t.stateSingleton = s.stateSingleton := by
  cases h with
  | timerStore h =>
    rcases ht h with hu | hcond
    · exact (hknown hu).elim
    · exact hcond.symm

/-- A store of `state_machine_thread` that changes a known mode follows a turn. -/
theorem machineStore_afterTurn {m : StateDefine} (h : Step s (.machineStore m) t)
    (hm : MachineMode es s) (hknown : s.stateSingleton ≠ .unknow)
    (hne : t.stateSingleton ≠ s.stateSingleton) : AfterTurn es := by
  cases h with
  | machineStore h =>
    simp only [MachineMode, h] at hm
    rcases hm with ⟨p, st, hl, rfl, hp⟩ | ⟨rfl, hu | hcond⟩
    · exact ⟨p, st, hl, nextState_ne (hp ▸ hne)⟩
    · exact (hknown hu).elim
    · exact (hne hcond.symm).elim

/-- Without a pending start-up store, a known mode changes only through a key. -/
theorem changedOnlyByKey_of_turnsAfterStartup
    (h : (atomic.restrict TurnsAfterStartup).MTr initial es s) :
    ChangedOnlyByKey (atomic.restrict TurnsAfterStartup) es s := by
  obtain ⟨hm, ht⟩ := mode_run h
  constructor
  · intro e t hs hknown hne
    have hstep := tr_iff.mp hs.1
    rcases store_of_mode_ne hstep hknown hne with rfl | ⟨m, rfl⟩
    · exact (hne (timerStore_mode hstep ht hknown)).elim
    · exact ⟨⟨m, rfl⟩, machineStore_afterTurn hstep hm hknown hne⟩
  · intro t hs hknown
    exact timerStore_mode (tr_iff.mp hs.1) ht hknown

/-- A start-up store that is pending over COND changes nothing. -/
theorem changedOnlyByKey_of_turnsAfterStartup_pending :
    ChangedOnlyByKey (atomic.restrict TurnsAfterStartup)
      [.timerLoad .unknow, .machineLoad .unknow, .machineStore .cond]
      { initial with stateSingleton := .cond, timer := .store } := by
  refine changedOnlyByKey_of_turnsAfterStartup (.stepL ⟨⟨.timer, rfl⟩, ?_⟩
    (.stepL ⟨⟨.machine, rfl⟩, ?_⟩ (.single ⟨⟨.machine, rfl⟩, ?_⟩))) <;>
    simp [TurnsAfterStartup]

/-- The condition is exact: a turn to PH or MV survives the next step of the timer unless a
start-up store is pending. -/
theorem turn_survives_iff {m : StateDefine} (hs : atomic.Tr s (.machineStore m) t)
    (hm : m ≠ .cond) :
    (∀ u, atomic.Tr t .timerStore u → u.stateSingleton = m) ↔ s.timer ≠ .store := by
  cases tr_iff.mp hs with
  | machineStore h =>
    constructor
    · intro hsurvives hstore
      exact hm (hsurvives _ (tr_iff.mpr (.timerStore hstore))).symm
    · intro hne u hu
      cases tr_iff.mp hu with
      | timerStore hstore => exact (hne hstore).elim

/-- The timer tests UNKNOW, the state machine starts up and turns to PH, and only then does
the start-up store of the timer arrive. -/
theorem not_changedOnlyByKey :
    ¬ ∀ pre s, atomic.MTr initial pre s → ChangedOnlyByKey atomic pre s := by
  intro h
  let s : State := { initial with
    stateSingleton := .ph, keyPressedGlobal := newline, timer := .store }
  let pre : List Event := [.timerLoad .unknow, .getchar (some 100), .keyStore 100,
    .machineLoad .unknow, .machineStore .cond, .machineLoad .cond, .serviceLoad .cond 100,
    .serviceReturn .cond .goForward, .machineStore .ph]
  have hpre : atomic.MTr initial pre s := LTS.mTr_of_replay
    [.timer, .reader (some 100), .reader none, .machine, .machine, .machine, .machine,
      .machine, .machine] rfl
  have hstore : atomic.Tr s .timerStore { s with stateSingleton := .cond, timer := .loop } :=
    ⟨.timer, rfl⟩
  exact absurd ((h pre s hpre).2 _ hstore (by decide)) (by decide)

end LinuxTutorial.Controller.Atomic
