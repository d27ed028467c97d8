import LinuxTutorial.SemController.Handshake
import LinuxTutorial.Transition.Fair

/-!
# One iteration

The wait that ends the first iteration of `state_machine_thread` is its last step, so everything
that an iteration does happens at most once in a run, and the mode settles.
-/

namespace LinuxTutorial.SemController

open Transition

variable {arg : Writer → Option Status} {s t : State} {e : Event} {es : List Event}

def Event.isMachineLoad : Event → Bool
  | .machineLoad _ => true
  | _ => false

def Event.isMachineStore : Event → Bool
  | .machineStore _ => true
  | _ => false

def Event.isTimerStore : Event → Bool
  | .timerStore => true
  | _ => false

def Event.isUpdateWait : Event → Bool
  | .updateWait => true
  | _ => false

/-- A post of the request of some probe. -/
def Event.isRequestPost : Event → Bool
  | .requestPost _ => true
  | _ => false

def Event.isRequestWait : Event → Bool
  | .requestWait _ => true
  | _ => false

def Event.isUpdatePost : Event → Bool
  | .updatePost _ => true
  | _ => false

/-- The wait is never left. -/
theorem updateWait_not_mem (h : atomic.MTr (initial arg) es s) : .updateWait ∉ es := by
  intro hmem
  obtain ⟨pre, post, rfl⟩ := List.append_of_mem hmem
  obtain ⟨t, hpre, hpost⟩ := LTS.mTr_append_iff.mp h
  obtain ⟨u, htr, -⟩ := LTS.mTr_cons_iff.mp hpost
  cases (tr_iff.mp htr).2 with
  | updateWait hw hpos => exact (stranded_of_wait hpre hw).1 (Or.inl hpos)

theorem countP_updateWait (h : atomic.MTr (initial arg) es s) :
    es.countP Event.isUpdateWait = 0 := by
  refine List.countP_eq_zero.mpr fun e he => ?_
  have hne : e ≠ .updateWait := by
    rintro rfl
    exact updateWait_not_mem h he
  cases e <;> simp_all [Event.isUpdateWait]

/-- The steps that `state_machine_thread` has still to take in its iteration. -/
def MachinePC.left : MachinePC → ℕ
  | .loop => 5
  | .post _ => 4
  | .service _ => 3
  | .status _ _ => 2
  | .store _ => 1
  | .wait => 0

/-- The requests that are posted, and the service threads that are past their waits. -/
def requests (s : State) : ℕ := s.request .cond + s.request .ph + s.request .mv

def State.busy (s : State) (p : Probe) : ℕ := if s.service p = .wait then 0 else 1

def services (s : State) : ℕ := s.busy .cond + s.busy .ph + s.busy .mv

/-- Whether `timer_event_thread` can still store its start-up mode. -/
def timerMayStore (s : State) : ℕ := if s.timer = .store ∨ s.stateSingleton = .unknow then 1 else 0

@[simp] theorem sample_request (p : Probe) (s : State) : (sample p s).request = s.request := by
  cases p <;> rfl

@[simp] theorem sample_service (p : Probe) (s : State) : (sample p s).service = s.service := by
  cases p <;> rfl

@[simp] theorem sample_machine (p : Probe) (s : State) : (sample p s).machine = s.machine := by
  cases p <;> rfl

@[simp] theorem sample_timer (p : Probe) (s : State) : (sample p s).timer = s.timer := by
  cases p <;> rfl

@[simp] theorem sample_mode (p : Probe) (s : State) :
    (sample p s).stateSingleton = s.stateSingleton := by
  cases p <;> rfl

theorem MachinePC.left_pos {pc : MachinePC} (h : pc ≠ .wait) : 0 < pc.left := by
  cases pc with
  | wait => exact (h rfl).elim
  | _ => simp [left]

theorem left_le (h : Step s e t) (he : e.isUpdateWait = false) :
    t.machine.left ≤ s.machine.left := by
  cases h with
  | @timerSample p h hm => rw [sample_machine]
  | machineKnown h hm => simp [h, MachinePC.left]
  | machineUnknow h hm => simp [h, MachinePC.left]
  | requestPost h => simp [h, MachinePC.left]
  | serviceLoad h => simp [h, MachinePC.left]
  | machineStatus h hc => simp [h, MachinePC.left]
  | machineStore h => simp [h, MachinePC.left]
  | updateWait h hpos => simp [Event.isUpdateWait] at he
  | _ => exact le_rfl

/-- What `state_machine_thread` does in an iteration, it could do again behind its wait only. -/
theorem countP_machine_le (gain : Event → Bool) (n : ℕ) (h : atomic.MTr (initial arg) es s)
    (hgain : ∀ s e t, Step s e t → gain e = true → n ≤ s.machine.left ∧ t.machine.left < n) :
    es.countP gain ≤ 1 := by
  have hcount := h.countP_add_le gain Event.isUpdateWait
    (fun s => if n ≤ s.machine.left then 1 else 0) ?_
  · have hpotential : (if n ≤ (initial arg).machine.left then 1 else 0) ≤ 1 := by
      split <;> omega
    rw [countP_updateWait h] at hcount
    omega
  · intro s e t htr
    have hstep := (tr_iff.mp htr).2
    cases hg : gain e with
    | true =>
      obtain ⟨hs, ht⟩ := hgain s e t hstep hg
      rw [if_pos hs, if_neg (not_le.mpr ht), Bool.toNat_true]
      omega
    | false =>
      cases he : e.isUpdateWait with
      | false =>
        have hle := left_le hstep he
        simp only [Bool.toNat_false]
        split <;> split <;> omega
      | true =>
        simp only [Bool.toNat_false, Bool.toNat_true]
        split <;> split <;> omega

theorem countP_machineLoad (h : atomic.MTr (initial arg) es s) :
    es.countP Event.isMachineLoad ≤ 1 := by
  refine countP_machine_le _ 5 h fun s e t hstep he => ?_
  cases hstep with
  | machineKnown h hm => simp [h, MachinePC.left]
  | machineUnknow h hm => simp [h, MachinePC.left]
  | _ => simp [Event.isMachineLoad] at he

theorem countP_requestPost (h : atomic.MTr (initial arg) es s) :
    es.countP Event.isRequestPost ≤ 1 := by
  refine countP_machine_le _ 4 h fun s e t hstep he => ?_
  cases hstep with
  | requestPost h => simp [h, MachinePC.left]
  | _ => simp [Event.isRequestPost] at he

theorem countP_machineStore (h : atomic.MTr (initial arg) es s) :
    es.countP Event.isMachineStore ≤ 1 := by
  refine countP_machine_le _ 1 h fun s e t hstep he => ?_
  cases hstep with
  | machineStore h => simp [h, MachinePC.left]
  | _ => simp [Event.isMachineStore] at he

/-- A service thread gets past its wait by a request. -/
theorem countP_requestWait (h : atomic.MTr (initial arg) es s) :
    es.countP Event.isRequestWait + requests s = es.countP Event.isRequestPost := by
  have hcount := h.countP_add_eq (P := fun _ => True) Event.isRequestWait Event.isRequestPost
    requests trivial (fun _ _ _ _ _ => trivial) ?_
  · have hzero : requests (initial arg) = 0 := rfl
    omega
  · intro s e t _ htr
    cases (tr_iff.mp htr).2 with
    | @requestPost p h =>
      cases p <;> simp [requests, Event.isRequestWait, Event.isRequestPost] <;> omega
    | @requestWait p h hpos =>
      cases p <;> simp [requests, Event.isRequestWait, Event.isRequestPost] <;> omega
    | _ => simp [requests, Event.isRequestWait, Event.isRequestPost]

/-- A service thread posts its update once for each time that it gets past its wait. -/
theorem countP_updatePost (h : atomic.MTr (initial arg) es s) :
    es.countP Event.isUpdatePost + services s = es.countP Event.isRequestWait := by
  have hcount := h.countP_add_eq (P := fun _ => True) Event.isUpdatePost Event.isRequestWait
    services trivial (fun _ _ _ _ _ => trivial) ?_
  · have hzero : services (initial arg) = 0 := rfl
    omega
  · intro s e t _ htr
    cases (tr_iff.mp htr).2 with
    | @requestWait p h hpos =>
      cases p <;> simp [services, State.busy, h, Event.isUpdatePost, Event.isRequestWait] <;> omega
    | @threadLoad p h =>
      cases p <;> simp [services, State.busy, h, Event.isUpdatePost, Event.isRequestWait]
    | @threadStatus p st old h hc =>
      cases p <;> simp [services, State.busy, h, Event.isUpdatePost, Event.isRequestWait]
    | @updatePost p h =>
      cases p <;> simp [services, State.busy, h, Event.isUpdatePost, Event.isRequestWait] <;> omega
    | _ => simp [services, State.busy, Event.isUpdatePost, Event.isRequestWait]

/-- The mode is unknown at first only, and the timer replaces it at most once. -/
structure TimerStores (es : List Event) (s : State) : Prop where
  known : ∀ m, s.machine = .store m → m ≠ .unknow
  once : es.countP Event.isTimerStore + timerMayStore s ≤ 1

theorem timerStores_step (h : Step s e t) (hs : TimerStores es s) : TimerStores (es ++ [e]) t := by
  obtain ⟨hknown, honce⟩ := hs
  constructor
  · intro m hm
    cases h with
    | machineUnknow h hu =>
      obtain rfl := MachinePC.store.inj hm
      simp
    | machineStatus h hc =>
      obtain rfl := MachinePC.store.inj hm
      exact nextState_ne_unknow _ _
    | machineKnown h hp | requestPost h | serviceLoad h | machineStore h | updateWait h hpos =>
      cases hm
    | timerSample h hp =>
      rw [sample_machine] at hm
      exact hknown m hm
    | _ => exact hknown m hm
  · rw [List.countP_append]
    cases h with
    | timerUnknow h hm => simpa [timerMayStore, hm, Event.isTimerStore] using honce
    | timerStore h => simpa [timerMayStore, h, Event.isTimerStore] using honce
    | @machineStore m h =>
      have hle : timerMayStore { s with stateSingleton := m, machine := .wait } ≤
          timerMayStore s := by
        simp only [timerMayStore, hknown m h, or_false]
        split_ifs with htimer hmay
        · exact le_rfl
        · exact (hmay (Or.inl htimer)).elim
        · exact Nat.zero_le _
        · exact le_rfl
      have hevent : [Event.machineStore m].countP Event.isTimerStore = 0 := by
        simp [Event.isTimerStore]
      omega
    | _ => simpa [timerMayStore, Event.isTimerStore] using honce

theorem countP_timerStore (h : atomic.MTr (initial arg) es s) :
    es.countP Event.isTimerStore ≤ 1 := by
  have hs := h.history (P := TimerStores) ⟨fun m hm => by simp [initial] at hm, le_rfl⟩
    fun es s e t hs htr => timerStores_step (tr_iff.mp htr).2 hs
  have honce := hs.once
  omega

/-- What happens at most once in a run: the start of an iteration, its request, its store of the
mode, the start of a service thread and its update, and the store of the timer. The wait for the
update is never over. -/
structure OneIteration (es : List Event) : Prop where
  load : es.countP Event.isMachineLoad ≤ 1
  request : es.countP Event.isRequestPost ≤ 1
  store : es.countP Event.isMachineStore ≤ 1
  service : es.countP Event.isRequestWait ≤ 1
  update : es.countP Event.isUpdatePost ≤ 1
  timer : es.countP Event.isTimerStore ≤ 1
  wait : .updateWait ∉ es

/-- Whatever `main` passes to its threads, no run gets beyond one iteration. -/
theorem oneIteration_run (h : atomic.MTr (initial arg) es s) : OneIteration es where
  load := countP_machineLoad h
  request := countP_requestPost h
  store := countP_machineStore h
  service := by
    have hpost := countP_requestPost h
    have hwait := countP_requestWait h
    omega
  update := by
    have hpost := countP_requestPost h
    have hwait := countP_requestWait h
    have hupdate := countP_updatePost h
    omega
  timer := countP_timerStore h
  wait := updateWait_not_mem h

/-- Without cells, a run in which the timer starts up first: the one request is posted, and the
store through NULL ends it. -/
theorem oneIteration_run_start : ∃ es s,
    atomic.MTr start es s ∧ .requestPost .mv ∈ es ∧ OneIteration es := by
  have h : atomic.MTr start _ _ :=
    LTS.mTr_of_replay [.timer, .timer, .machine, .machine, .machine, .machine] rfl
  exact ⟨_, _, h, by decide, oneIteration_run h⟩

inductive Actor
  | asciiRead
  | timerEvent
  | stateMachine
  | service (p : Probe)
  deriving DecidableEq, Repr

/-- The thread that takes the step. -/
def Event.actor : Event → Actor
  | .getchar _ | .keyStore _ => .asciiRead
  | .timerLoad _ | .timerStore => .timerEvent
  | .machineLoad _ | .requestPost _ | .serviceLoad _ _ | .machineStore _ | .updateWait
  | .statusStore .machine _ | .nullStore .machine => .stateMachine
  | .requestWait p | .threadLoad p _ | .updatePost p
  | .statusStore (.service p) _ | .nullStore (.service p) => .service p

/-- Neither the process nor `state_machine_thread` goes on. -/
def Stopped (s : State) : Prop := s.crashed = true ∨ s.machine = .wait

theorem enabled_machine (hs : ¬ Stopped s) : atomic.Enabled Event.actor .stateMachine s := by
  have hc : s.crashed = false := by
    by_contra hc
    exact hs (Or.inl (by simpa using hc))
  cases hm : s.machine with
  | loop =>
    by_cases hmode : s.stateSingleton = .unknow
    · exact ⟨_, _, tr_iff.mpr ⟨hc, .machineUnknow hm hmode⟩, rfl⟩
    · obtain ⟨p, hp⟩ := StateDefine.exists_probe hmode
      exact ⟨_, _, tr_iff.mpr ⟨hc, .machineKnown hm hp.symm⟩, rfl⟩
  | post p => exact ⟨_, _, tr_iff.mpr ⟨hc, .requestPost hm⟩, rfl⟩
  | service p => exact ⟨_, _, tr_iff.mpr ⟨hc, .serviceLoad hm⟩, rfl⟩
  | status p st =>
    cases hcell : s.statusReturn .machine with
    | none => exact ⟨_, _, tr_iff.mpr ⟨hc, .machineNull hm hcell⟩, rfl⟩
    | some old => exact ⟨_, _, tr_iff.mpr ⟨hc, .machineStatus hm hcell⟩, rfl⟩
  | store m => exact ⟨_, _, tr_iff.mpr ⟨hc, .machineStore hm⟩, rfl⟩
  | wait => exact (hs (Or.inr hm)).elim

/-- Every step of `state_machine_thread` ends the process or brings it closer to its wait; the
others leave it where it is. -/
theorem progress (h : Step s e t) (hs : ¬ Stopped s) :
    LTS.Progress Event.actor (fun _ => .stateMachine)
      (fun s => if s.crashed then 0 else s.machine.left) s e t := by
  have hc : s.crashed = false := by
    by_contra hc
    exact hs (Or.inl (by simpa using hc))
  cases h with
  | machineKnown h hm | machineUnknow h hm | requestPost h | serviceLoad h | machineStatus h hm
  | machineStore h | machineNull h hm => exact Or.inl (by simp [hc, h, MachinePC.left])
  | updateWait h hpos => exact (hs (Or.inr h)).elim
  | @timerSample p h hm =>
    refine Or.inr ⟨?_, rfl, by simp [Event.actor]⟩
    cases p <;> rfl
  | @threadNull p st h hcell =>
    have hpos := MachinePC.left_pos fun hw => hs (Or.inr hw)
    exact Or.inl (by simpa [hc] using hpos)
  | _ => exact Or.inr ⟨rfl, rfl, by simp [Event.actor]⟩

theorem mode_step (h : Step s e t) (hm : e.isMachineStore = false) (ht : e.isTimerStore = false) :
    t.stateSingleton = s.stateSingleton := by
  cases h with
  | machineStore h => simp [Event.isMachineStore] at hm
  | timerStore h => simp [Event.isTimerStore] at ht
  | timerSample h hp => rw [sample_mode]
  | _ => rfl

/-- The timer has stored its start-up mode, or will not do so. -/
def TimerDone (s : State) : Prop := s.timer = .loop ∧ s.stateSingleton ≠ .unknow

theorem timerDone_step (h : Step s e t) (hm : e.isMachineStore = false) (hs : TimerDone s) :
    TimerDone t := by
  obtain ⟨htimer, hmode⟩ := hs
  cases h with
  | timerUnknow h hu => exact (hmode hu).elim
  | timerStore h => simp [htimer] at h
  | machineStore h => simp [Event.isMachineStore] at hm
  | timerSample h hp => exact ⟨by rw [sample_timer, htimer], by rwa [sample_mode]⟩
  | _ => exact ⟨htimer, hmode⟩

variable {E : Execution State Event} {k n : ℕ}

theorem stopped_from (h : atomic.Valid E) (h0 : E.state 0 = initial arg)
    (hk : Stopped (E.state k)) (hkn : k ≤ n) : Stopped (E.state n) := by
  have hrun : atomic.MTr (initial arg) (LTS.history E k) (E.state k) := h0 ▸ h.mTr k
  induction n, hkn using Nat.le_induction with
  | base => exact hk
  | succ n hkn ih =>
    cases he : E.event n with
    | none => rwa [h.pause n he]
    | some e =>
      obtain ⟨hc, hstep⟩ := tr_iff.mp (h.tr n e he)
      rcases ih with hcrash | hwait
      · simp [hc] at hcrash
      · have hn : atomic.MTr (initial arg) (LTS.history E n) (E.state n) := h0 ▸ h.mTr n
        exact Or.inr ((stranded_of_wait hn hwait).2.2 _ _ (.single (h.tr n e he)))

theorem not_machineStore (h : atomic.Valid E) (hs : Stopped (E.state n))
    (he : E.event n = some e) : e.isMachineStore = false := by
  obtain ⟨hc, hstep⟩ := tr_iff.mp (h.tr n e he)
  rcases hs with hcrash | hwait
  · simp [hc] at hcrash
  · generalize E.state (n + 1) = t at hstep
    cases hstep with
    | machineStore hm => simp [hwait] at hm
    | _ => rfl

/-- Where no thread stores a mode, the mode stays. -/
theorem mode_from (h : atomic.Valid E)
    (hstores : ∀ n, k ≤ n → ∀ e, E.event n = some e →
      e.isMachineStore = false ∧ e.isTimerStore = false) (hkn : k ≤ n) :
    (E.state n).stateSingleton = (E.state k).stateSingleton := by
  induction n, hkn using Nat.le_induction with
  | base => rfl
  | succ n hkn ih =>
    cases he : E.event n with
    | none => rw [h.pause n he, ih]
    | some e =>
      obtain ⟨hm, ht⟩ := hstores n hkn e he
      rw [mode_step (tr_iff.mp (h.tr n e he)).2 hm ht, ih]

theorem timerDone_from (h : atomic.Valid E)
    (hstores : ∀ n, k ≤ n → ∀ e, E.event n = some e → e.isMachineStore = false)
    (hk : TimerDone (E.state k)) (hkn : k ≤ n) : TimerDone (E.state n) := by
  induction n, hkn using Nat.le_induction with
  | base => exact hk
  | succ n hkn ih =>
    cases he : E.event n with
    | none => rwa [h.pause n he]
    | some e => exact timerDone_step (tr_iff.mp (h.tr n e he)).2 (hstores n hkn e he) ih

/-- Where `state_machine_thread` is treated fairly, there comes a point from which the process has
crashed or this thread waits, and the mode never changes again. -/
theorem settles (hf : atomic.FairTo Event.actor .stateMachine E) (h : atomic.Valid E)
    (h0 : E.state 0 = initial arg) :
    ∃ k, ∀ n, k ≤ n →
      Stopped (E.state n) ∧ (E.state n).stateSingleton = (E.state k).stateSingleton := by
  obtain ⟨k, hk⟩ := LTS.eventually_of_helper (fun _ => True) Stopped (fun _ => hf) h
    (fun _ => trivial) (fun _ _ => enabled_machine)
    fun _ _ _ _ hs htr => progress (tr_iff.mp htr).2 hs
  have hstopped : ∀ n, k ≤ n → Stopped (E.state n) := fun n => stopped_from h h0 hk
  have hmachine : ∀ n, k ≤ n → ∀ e, E.event n = some e → e.isMachineStore = false :=
    fun n hkn e => not_machineStore h (hstopped n hkn)
  by_cases htimer : ∃ n, k ≤ n ∧ E.event n = some .timerStore
  · obtain ⟨l, hkl, hl⟩ := htimer
    -- After the one store of the timer there is none left.
    have hdone : TimerDone (E.state (l + 1)) := by
      have hstep := (tr_iff.mp (h.tr l _ hl)).2
      generalize E.state (l + 1) = t at hstep
      cases hstep with
      | timerStore ht => exact ⟨rfl, by simp⟩
    have hfrom : ∀ n, l + 1 ≤ n → ∀ e, E.event n = some e → e.isMachineStore = false :=
      fun n hn => hmachine n (by omega)
    refine ⟨l + 1, fun n hn => ⟨hstopped n (by omega), mode_from h (fun n hn e he => ?_) hn⟩⟩
    refine ⟨hfrom n hn e he, ?_⟩
    have htimer := (timerDone_from h hfrom hdone hn).1
    have hstep := (tr_iff.mp (h.tr n e he)).2
    generalize E.state (n + 1) = t at hstep
    cases hstep with
    | timerStore ht => simp [htimer] at ht
    | _ => rfl
  · refine ⟨k, fun n hn => ⟨hstopped n hn, mode_from h (fun n hn e he => ?_) hn⟩⟩
    refine ⟨hmachine n hn e he, ?_⟩
    by_contra ht
    refine htimer ⟨n, hn, ?_⟩
    cases e <;> simp_all [Event.isTimerStore]

def Action.actor : Action → Actor
  | .reader _ => .asciiRead
  | .timer => .timerEvent
  | .machine => .stateMachine
  | .thrCond => .service .cond
  | .thrPh => .service .ph
  | .thrMiliVolt => .service .mv

theorem actor_machine (h : stateMachineThread s = some (e, t)) : e.actor = .stateMachine := by
  simp only [stateMachineThread, storeStatus] at h
  grind [Event.actor]

theorem actor_thrService {p : Probe} (h : thrService p s = some (e, t)) :
    e.actor = .service p := by
  simp only [thrService, storeStatus] at h
  grind [Event.actor]

theorem actor_of_next {a : Action} (h : next a s = some (e, t)) : e.actor = a.actor := by
  simp only [next] at h
  split at h
  · simp at h
  · cases a with
    | reader r =>
      obtain ⟨rfl, -⟩ := Prod.mk.inj (Option.some.inj h)
      cases s.reader <;> simp [Event.actor, Action.actor]
    | timer =>
      obtain ⟨rfl, -⟩ := Prod.mk.inj (Option.some.inj h)
      cases s.timer <;> cases s.stateSingleton <;> simp [Event.actor, Action.actor]
    | machine => exact actor_machine h
    | thrCond => exact actor_thrService h
    | thrPh => exact actor_thrService h
    | thrMiliVolt => exact actor_thrService h

/-- A thread that can go on does so whatever byte there is to read. -/
theorem next_ne_none (a : Action) (s : State) (h : atomic.Enabled Event.actor a.actor s) :
    next a s ≠ none := by
  obtain ⟨e, t, ⟨b, hb⟩, hactor⟩ := h
  have hab : b.actor = a.actor := (actor_of_next hb).symm.trans hactor
  have hc : s.crashed = false := (tr_iff.mp ⟨b, hb⟩).1
  cases a <;> cases b <;> simp [Action.actor] at hab
  case reader.reader r q => simp [next, hc]
  all_goals simp [hb]

/-- The threads in turn, without any input. -/
def inTurn (n : ℕ) : Action :=
  match n % 6 with
  | 0 => .reader none
  | 1 => .timer
  | 2 => .machine
  | 3 => .thrCond
  | 4 => .thrPh
  | _ => .thrMiliVolt

theorem inTurn_recurs (a : Actor) (m : ℕ) : ∃ n, m ≤ n ∧ (inTurn n).actor = a := by
  have hturn : ∀ r < 6, inTurn (6 * m + r) = inTurn r := by
    intro r hr
    simp only [inTurn, Nat.mul_add_mod]
  have hfind : ∃ r < 6, (inTurn r).actor = a := by
    cases a with
    | asciiRead => exact ⟨0, by decide, rfl⟩
    | timerEvent => exact ⟨1, by decide, rfl⟩
    | stateMachine => exact ⟨2, by decide, rfl⟩
    | service p =>
      cases p
      · exact ⟨3, by decide, rfl⟩
      · exact ⟨4, by decide, rfl⟩
      · exact ⟨5, by decide, rfl⟩
  obtain ⟨r, hr, ha⟩ := hfind
  exact ⟨6 * m + r, by omega, by rw [hturn r hr, ha]⟩

theorem settles_inTurn : ∃ E : Execution State Event, E.state 0 = start ∧ atomic.Valid E ∧
    ∃ k, ∀ n, k ≤ n →
      Stopped (E.state n) ∧ (E.state n).stateSingleton = (E.state k).stateSingleton := by
  have hvalid : atomic.Valid (LTS.scheduled next inTurn start) := LTS.valid_scheduled inTurn start
  have hfair : atomic.Fair Event.actor (LTS.scheduled next inTurn start) :=
    LTS.fair_scheduled_of Action.actor start (fun _ _ _ _ => actor_of_next) next_ne_none
      inTurn_recurs
  exact ⟨_, rfl, hvalid, @settles (fun _ => none) _ (hfair .stateMachine) hvalid rfl⟩

end LinuxTutorial.SemController
