import LinuxTutorial.SemController.Basic

/-!
# The request and the update of an iteration

`state_machine_thread` posts the request of the current mode, but at the end of the iteration it
always waits on `sem_update_conditivity`, which only `thr_service_cond` posts.
-/

namespace LinuxTutorial.SemController

open Transition

variable {arg : Writer → Option Status} {s t : State} {e : Event} {es : List Event}

/-- An update that `state_machine_thread` waits for is there or on its way. -/
def WakeUp (s : State) : Prop :=
  0 < s.update .cond ∨ 0 < s.request .cond ∨ s.service .cond ≠ .wait

instance : Decidable (WakeUp s) := inferInstanceAs (Decidable (_ ∨ _ ∨ _))

/-- `state_machine_thread` is at its wait and no continuation brings it past it. -/
def BlockedForever (s : State) : Prop :=
  s.machine = .wait ∧ ∀ fs t, atomic.MTr s fs t → t.machine = .wait

/-- The requests and updates of the COND handshake that are in flight. -/
def inFlight (s : State) : ℕ :=
  s.update .cond + s.request .cond + if s.service .cond = .wait then 0 else 1

/-- The updates that the current iteration of `state_machine_thread` counts on. -/
def expected (s : State) : ℕ :=
  match s.machine with
  | .loop | .post .cond => 0
  | _ => 1

/-- An iteration of `state_machine_thread` starts in a mode other than COND. -/
def Event.stray : Event → Bool
  | .machineLoad m => m ≠ .cond
  | _ => false

theorem wakeUp_iff : WakeUp s ↔ 0 < inFlight s := by
  by_cases h : s.service .cond = .wait
  · simp only [WakeUp, inFlight, h, ne_eq, not_true_eq_false, or_false, if_true]
    omega
  · simp [WakeUp, inFlight, h]

/-- A step that touches neither the handshake nor the position of `state_machine_thread`. -/
theorem inFlight_frame {n : ℕ} (hs : inFlight s + n = expected s) (hi : inFlight t = inFlight s)
    (hm : t.machine = s.machine) (he : e.stray = false) :
    inFlight t + (n + e.stray.toNat) = expected t := by
  rw [hi, he, show expected t = expected s by simp only [expected, hm]]
  exact hs

/-- Every iteration that starts in another mode leaves one update missing. -/
theorem inFlight_step (h : Step s e t) {n : ℕ} (hs : inFlight s + n = expected s) :
    inFlight t + (n + e.stray.toNat) = expected t := by
  cases h with
  | getchar h => exact hs
  | keyStore h => exact hs
  | @timerSample p h hm =>
    cases p <;> exact hs
  | timerUnknow h hm => exact hs
  | timerStore h => exact hs
  | @machineKnown p h hm =>
    have hn : inFlight s + n = 0 := by simpa [expected, h] using hs
    cases p <;> simp_all [inFlight, expected, Event.stray, Probe.mode]
  | machineUnknow h hm =>
    have hn : inFlight s + n = 0 := by simpa [expected, h] using hs
    simp_all [inFlight, expected, Event.stray]
  | @requestPost p h =>
    cases p with
    | cond =>
      have hn : inFlight s + n = 0 := by simpa [expected, h] using hs
      simp only [inFlight, expected, Event.stray, Function.update_self, Bool.toNat_false] at hn ⊢
      omega
    | ph => simpa [inFlight, expected, h, Event.stray] using hs
    | mv => simpa [inFlight, expected, h, Event.stray] using hs
  | serviceLoad h => simpa [inFlight, expected, h, Event.stray] using hs
  | machineStatus h hc => simpa [inFlight, expected, h, Event.stray] using hs
  | machineNull h hc => exact hs
  | machineStore h => simpa [inFlight, expected, h, Event.stray] using hs
  | updateWait h hpos =>
    have hn : inFlight s + n = 1 := by simpa [expected, h] using hs
    simp only [inFlight, expected, Event.stray, Function.update_self, Bool.toNat_false] at hn ⊢
    omega
  | @requestWait p h hpos =>
    refine inFlight_frame hs ?_ rfl rfl
    cases p <;> simp [inFlight, h]
    omega
  | @threadLoad p h =>
    refine inFlight_frame hs ?_ rfl rfl
    cases p <;> simp [inFlight, h]
  | @threadStatus p st old h hc =>
    refine inFlight_frame hs ?_ rfl rfl
    cases p <;> simp [inFlight, h]
  | threadNull h hc => exact hs
  | @updatePost p h =>
    refine inFlight_frame hs ?_ rfl rfl
    cases p <;> simp [inFlight, h]
    omega

/-- The balance of the handshake, and the mode that the first iteration can find. -/
structure Handshake (es : List Event) (s : State) : Prop where
  balance : inFlight s + es.countP Event.stray = expected s
  first : es.countP Event.stray = 0 →
    s.machine = .loop ∧ (s.stateSingleton = .unknow ∨ s.stateSingleton = .mv)

theorem countP_stray_snoc :
    (es ++ [e]).countP Event.stray = es.countP Event.stray + e.stray.toNat := by
  cases h : e.stray <;> simp [List.countP_append, h]

/-- Until `state_machine_thread` has found UNKNOW or MV, no thread can store COND. -/
theorem first_step (h : Step s e t) (hm : s.machine = .loop)
    (hmode : s.stateSingleton = .unknow ∨ s.stateSingleton = .mv) (he : e.stray = false) :
    t.machine = .loop ∧ (t.stateSingleton = .unknow ∨ t.stateSingleton = .mv) := by
  cases h with
  | @timerSample p h hp => cases p <;> exact ⟨hm, hmode⟩
  | timerStore h => exact ⟨hm, Or.inr rfl⟩
  | @machineKnown p h hp => cases p <;> simp_all [Event.stray, Probe.mode]
  | machineUnknow h hu => simp [Event.stray] at he
  | machineNull h hc => exact ⟨hm, hmode⟩
  | requestPost h => simp [hm] at h
  | serviceLoad h => simp [hm] at h
  | machineStatus h hc => simp [hm] at h
  | machineStore h => simp [hm] at h
  | updateWait h hpos => simp [hm] at h
  | _ => exact ⟨hm, hmode⟩

theorem handshake_run (h : atomic.MTr (initial arg) es s) : Handshake es s := by
  refine h.history ⟨by simp [initial, inFlight, expected], fun _ => ⟨rfl, Or.inl rfl⟩⟩ ?_
  intro es s e t hi hs
  obtain ⟨-, hstep⟩ := tr_iff.mp hs
  constructor
  · rw [countP_stray_snoc]
    exact inFlight_step hstep hi.balance
  · intro hzero
    rw [countP_stray_snoc] at hzero
    obtain ⟨hm, hmode⟩ := hi.first (by omega)
    exact first_step hstep hm hmode (by simpa using (by omega : e.stray.toNat = 0))

/-- With nothing in flight, no step brings `state_machine_thread` past its wait. -/
theorem machine_wait_step (h : Step s e t) (hw : s.machine = .wait) (hi : inFlight s = 0) :
    t.machine = .wait := by
  cases h with
  | updateWait h hpos =>
    unfold inFlight at hi
    omega
  | @timerSample p h hm => cases p <;> exact hw
  | machineKnown h hm => simp [hw] at h
  | machineUnknow h hm => simp [hw] at h
  | requestPost h => simp [hw] at h
  | serviceLoad h => simp [hw] at h
  | machineStatus h hc => simp [hw] at h
  | machineStore h => rfl
  | _ => exact hw

theorem stranded_step (h : Step s e t) (hs : s.machine = .wait ∧ inFlight s = 0) :
    t.machine = .wait ∧ inFlight t = 0 := by
  obtain ⟨hw, hi⟩ := hs
  have hw' := machine_wait_step h hw hi
  have hone : expected s = 1 := by simp [expected, hw]
  have hone' : expected t = 1 := by simp [expected, hw']
  have hbal := inFlight_step h (n := 1) (by omega)
  exact ⟨hw', by omega⟩

/-- The wait that ends the first iteration is never answered: whenever
`state_machine_thread` waits, no update is on its way and it waits forever. -/
theorem stranded_of_wait (h : atomic.MTr (initial arg) es s) (hw : s.machine = .wait) :
    ¬ WakeUp s ∧ BlockedForever s := by
  obtain ⟨hbal, hfirst⟩ := handshake_run h
  have hstray : es.countP Event.stray ≠ 0 := by
    intro hzero
    have hloop := (hfirst hzero).1
    simp [hw] at hloop
  have hone : expected s = 1 := by simp [expected, hw]
  have hi : inFlight s = 0 := by omega
  refine ⟨by rw [wakeUp_iff]; omega, hw, fun fs t ht => ?_⟩
  exact (ht.invariant (P := fun u => u.machine = .wait ∧ inFlight u = 0) ⟨hw, hi⟩
    fun _ _ _ hu hs => stranded_step (tr_iff.mp hs).2 hu).1

/-- The state machine starts up before the timer and waits without having posted a request. -/
theorem stranded_of_wait_start :
    ¬ WakeUp { start with stateSingleton := .cond, machine := .wait } ∧
      BlockedForever { start with stateSingleton := .cond, machine := .wait } := by
  have h : atomic.MTr start [.machineLoad .unknow, .machineStore .cond]
      { start with stateSingleton := .cond, machine := .wait } :=
    LTS.mTr_of_replay [.machine, .machine] rfl
  exact stranded_of_wait h rfl

/-- Some run of the program reaches the wait with no update on its way. -/
theorem not_wakeUp_of_wait : ¬ ∀ es s, atomic.MTr start es s → s.machine = .wait →
    WakeUp s ∧ ¬ BlockedForever s := by
  intro h
  have hrun : atomic.MTr start [.machineLoad .unknow, .machineStore .cond]
      { start with stateSingleton := .cond, machine := .wait } :=
    LTS.mTr_of_replay [.machine, .machine] rfl
  exact absurd (h _ _ hrun rfl).1 (by decide)

end LinuxTutorial.SemController
