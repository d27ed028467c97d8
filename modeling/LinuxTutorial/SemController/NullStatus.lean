import LinuxTutorial.SemController.Basic

/-!
# The status pointers

`main` passes NULL to the threads that store a status through their argument. Such a store is
reached unless `state_machine_thread` reads UNKNOW first and blocks.
-/

namespace LinuxTutorial.SemController

open Transition

variable {s t : State} {e : Event} {es fs : List Event}

/-- No semaphore is posted and no service thread is past its wait. -/
def Idle (s : State) : Prop := ∀ p, s.request p = 0 ∧ s.update p = 0 ∧ s.service p = .wait

/-- `state_machine_thread` is in its start-up iteration, past the read of UNKNOW. -/
@[simp] def MachinePC.startingUp : MachinePC → Bool
  | .store _ | .wait => true
  | _ => false

/-- `state_machine_thread` has posted the request of its iteration. -/
@[simp] def MachinePC.posted : MachinePC → Bool
  | .service _ | .status _ _ => true
  | _ => false

/-- Neither the run so far nor any continuation of it stores through a NULL pointer. -/
def NeverNull (es : List Event) (s : State) : Prop :=
  ∀ fs t w, atomic.MTr s fs t → .nullStore w ∉ es ++ fs

/-- What is known along every run of the program, as long as `main` passes NULL. -/
structure NullCells (es : List Event) (s : State) : Prop where
  cells : ∀ w, s.statusReturn w = none
  crash : s.crashed = true → ∃ w, .nullStore w ∈ es
  idle : s.machine.posted = false → Idle s ∧ ∀ w, .nullStore w ∉ es
  startUp : s.machine.startingUp = true ↔ .machineLoad .unknow ∈ es

/-- As long as no request is posted, the service threads stay at their waits. -/
theorem idle_step (h : Step s e t) (hi : Idle s) (hp : t.machine.posted = false)
    (hs : s.machine.posted = false) : Idle t ∧ ∀ w, e ≠ .nullStore w := by
  cases h with
  | @timerSample p h hm => cases p <;> exact ⟨hi, by simp⟩
  | requestPost h => simp at hp
  | machineStatus h hc => simp [h] at hs
  | machineNull h hc => simp [h] at hs
  | updateWait h hpos => simp [(hi .cond).2.1] at hpos
  | @requestWait p h hpos => simp [(hi p).1] at hpos
  | @threadLoad p h => simp [(hi p).2.2] at h
  | @threadStatus p st old h hc => simp [(hi p).2.2] at h
  | @threadNull p st h hc => simp [(hi p).2.2] at h
  | @updatePost p h => simp [(hi p).2.2] at h
  | _ => exact ⟨hi, by simp⟩

/-- With no cell present, `state_machine_thread` never gets past the store that follows the
post of a request. -/
theorem posted_step (h : Step s e t) (hcells : ∀ w, s.statusReturn w = none)
    (hp : t.machine.posted = false) : s.machine.posted = false := by
  cases h with
  | @timerSample p h hm => cases p <;> exact hp
  | machineKnown h hm => simp [h]
  | machineUnknow h hm => simp [h]
  | requestPost h => simp at hp
  | serviceLoad h => simp at hp
  | machineStatus h hc => simp [hcells] at hc
  | machineStore h => simp [h]
  | updateWait h hpos => simp [h]
  | _ => exact hp

theorem cells_step (h : Step s e t) (hcells : ∀ w, s.statusReturn w = none) :
    ∀ w, t.statusReturn w = none := by
  cases h with
  | @timerSample p h hm => cases p <;> exact hcells
  | machineStatus h hc => simp [hcells] at hc
  | threadStatus h hc => simp [hcells] at hc
  | _ => exact hcells

theorem crash_step (h : Step s e t) (hs : s.crashed = false) (ht : t.crashed = true) :
    ∃ w, e = .nullStore w := by
  cases h with
  | @timerSample p h hm => cases p <;> simp [sample, hs] at ht
  | machineNull h hc => exact ⟨_, rfl⟩
  | threadNull h hc => exact ⟨_, rfl⟩
  | _ => simp [hs] at ht

/-- Only a read of UNKNOW brings `state_machine_thread` to its start-up, which it does not
leave while no update is posted. -/
theorem startingUp_step (h : Step s e t) (hcells : ∀ w, s.statusReturn w = none)
    (hidle : s.machine.posted = false → Idle s) :
    t.machine.startingUp = true ↔ s.machine.startingUp = true ∨ e = .machineLoad .unknow := by
  cases h with
  | @timerSample p h hm => cases p <;> simp [sample]
  | @machineKnown p h hm => simp [h, p.mode_ne_unknow]
  | machineUnknow h hm => simp
  | requestPost h => simp [h]
  | serviceLoad h => simp [h]
  | machineStatus h hc => simp [hcells] at hc
  | machineStore h => simp [h]
  | updateWait h hpos => simp [(hidle (by simp [h]) .cond).2.1] at hpos
  | _ => simp

theorem nullCells_run (h : atomic.MTr start es s) : NullCells es s := by
  refine h.history ?_ ?_
  · exact ⟨fun _ => rfl, by simp [start, initial], fun _ => ⟨fun _ => ⟨rfl, rfl, rfl⟩, by simp⟩,
      by simp [start, initial]⟩
  · intro es s e t hi hs
    obtain ⟨hlive, hstep⟩ := tr_iff.mp hs
    refine ⟨cells_step hstep hi.cells, ?_, ?_, ?_⟩
    · intro ht
      obtain ⟨w, rfl⟩ := crash_step hstep hlive ht
      exact ⟨w, by simp⟩
    · intro hp
      have hps := posted_step hstep hi.cells hp
      obtain ⟨hidle, hnull⟩ := hi.idle hps
      obtain ⟨hidle', hne⟩ := idle_step hstep hidle hp hps
      exact ⟨hidle', fun w => by simp [hnull w, (hne w).symm]⟩
    · rw [startingUp_step hstep hi.cells fun hp => (hi.idle hp).1, hi.startUp]
      simp [eq_comm]

/-- From here the process can still be killed by a store through NULL. -/
def Dereferences (s : State) : Prop := ∃ fs t w, atomic.MTr s fs t ∧ .nullStore w ∈ fs

theorem Dereferences.of_step (hs : s.crashed = false) (h : Step s e t) (ht : Dereferences t) :
    Dereferences s := by
  obtain ⟨fs, u, w, hrun, hw⟩ := ht
  exact ⟨e :: fs, u, w, .stepL (tr_iff.mpr ⟨hs, h⟩) hrun, by simp [hw]⟩

theorem dereferences_of_status {p : Probe} {st : Status} (hs : s.crashed = false)
    (hc : s.statusReturn .machine = none) (h : s.machine = .status p st) : Dereferences s :=
  ⟨_, _, .machine, .single (tr_iff.mpr ⟨hs, .machineNull h hc⟩), by simp⟩

theorem dereferences_of_service {p : Probe} (hs : s.crashed = false)
    (hc : s.statusReturn .machine = none) (h : s.machine = .service p) : Dereferences s :=
  .of_step hs (.serviceLoad h) (dereferences_of_status hs hc rfl)

theorem dereferences_of_post {p : Probe} (hs : s.crashed = false)
    (hc : s.statusReturn .machine = none) (h : s.machine = .post p) : Dereferences s :=
  .of_step hs (.requestPost h) (dereferences_of_service hs hc rfl)

theorem dereferences_of_known {p : Probe} (hs : s.crashed = false)
    (hc : s.statusReturn .machine = none) (h : s.machine = .loop)
    (hm : s.stateSingleton = p.mode) : Dereferences s :=
  .of_step hs (.machineKnown h hm) (dereferences_of_post hs hc rfl)

/-- The start-up store of the timer makes the mode known. -/
theorem dereferences_of_timerStore (hs : s.crashed = false)
    (hc : s.statusReturn .machine = none) (h : s.machine = .loop) (ht : s.timer = .store) :
    Dereferences s :=
  .of_step hs (.timerStore ht) (dereferences_of_known (p := .mv) hs hc h rfl)

/-- Unless `state_machine_thread` is in its start-up, it can still get to its store. -/
theorem dereferences_of_not_startingUp (hs : s.crashed = false)
    (hc : s.statusReturn .machine = none) (h : s.machine.startingUp = false) :
    Dereferences s := by
  cases hm : s.machine with
  | post p => exact dereferences_of_post hs hc hm
  | service p => exact dereferences_of_service hs hc hm
  | status p st => exact dereferences_of_status hs hc hm
  | store m => simp [hm] at h
  | wait => simp [hm] at h
  | loop =>
    by_cases hmode : s.stateSingleton = .unknow
    · cases ht : s.timer with
      | store => exact dereferences_of_timerStore hs hc hm ht
      | loop =>
        exact .of_step hs (.timerUnknow ht hmode) (dereferences_of_timerStore hs hc hm rfl)
    · obtain ⟨p, hp⟩ := StateDefine.exists_probe hmode
      exact dereferences_of_known hs hc hm hp.symm

/-- A run and its continuations never store through NULL exactly if `state_machine_thread`
has read UNKNOW before the timer replaced it. -/
theorem neverNull_iff (h : atomic.MTr start es s) :
    NeverNull es s ↔ .machineLoad .unknow ∈ es := by
  have hi := nullCells_run h
  constructor
  · intro hnever
    by_contra hunread
    have hlive : s.crashed = false := by
      by_contra hc
      obtain ⟨w, hw⟩ := hi.crash (by simpa using hc)
      exact hnever [] s w .refl (by simpa using hw)
    have hnot : s.machine.startingUp = false := by simpa [← hi.startUp] using hunread
    obtain ⟨fs, t, w, ht, hw⟩ := dereferences_of_not_startingUp hlive (hi.cells _) hnot
    exact hnever fs t w ht (by simp [hw])
  · intro hread fs t w ht
    have hrun := nullCells_run (h.append ht)
    have hup : t.machine.startingUp = true := hrun.startUp.mpr (by simp [hread])
    refine (hrun.idle ?_).2 w
    cases hm : t.machine <;> simp_all

/-- The state machine starts up before the timer: no store through NULL can follow. -/
theorem neverNull_start :
    NeverNull [.machineLoad .unknow, .machineStore .cond]
      { start with stateSingleton := .cond, machine := .wait } := by
  have h : atomic.MTr start [.machineLoad .unknow, .machineStore .cond]
      { start with stateSingleton := .cond, machine := .wait } :=
    LTS.mTr_of_replay [.machine, .machine] rfl
  exact (neverNull_iff h).mpr (by simp)

/-- The timer starts up before the state machine, which then stores through NULL. -/
theorem not_neverNull : ¬ ∀ es s w, atomic.MTr start es s → .nullStore w ∉ es := by
  intro h
  have hrun : atomic.MTr start
      [.timerLoad .unknow, .timerStore, .machineLoad .mv, .requestPost .mv, .serviceLoad .mv 0,
        .nullStore .machine]
      { start with
        stateSingleton := .mv
        request := Function.update (fun _ => 0) .mv 1
        machine := .status .mv .stayPut
        crashed := true } :=
    LTS.mTr_of_replay [.timer, .timer, .machine, .machine, .machine, .machine] rfl
  exact h _ _ .machine hrun (by simp)

end LinuxTutorial.SemController
