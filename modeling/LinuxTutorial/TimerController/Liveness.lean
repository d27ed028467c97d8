import LinuxTutorial.TimerController.Reference
import LinuxTutorial.TimerController.Serial
import LinuxTutorial.Transition.Fair

/-!
# After the last byte

Nothing blocks `timer_event_thread` and `state_machine_thread` of `StateMc_pThread_Timer.c` when no
more input comes. The last byte stays in force: an `'a'` or a `'d'` makes the controller go round
through its modes for ever, any other byte makes it stay where it is.
-/

namespace LinuxTutorial.TimerController.Atomic

open Transition
open LinuxTutorial.Controller (probeAt)
open LinuxTutorial.Iteration (Thread)

/-- The thread that takes the step. -/
def Event.thread : Event → Thread
  | .getchar _ | .keyStore _ => .asciiRead
  | .timerSample _ | .timerUnknow | .timerStore => .timerEvent
  | .machineLoad _ | .serviceLoad _ _ | .machineStore _ => .stateMachine

/-- The next step of a thread while `getchar` does not return. -/
def silentNext (a : Thread) (s : State) : Option (Event × State) :=
  match a with
  | .asciiRead =>
    match s.reader with
    | .loop => none
    | .store _ => some (asciiReadThread none s)
  | .timerEvent => timerEventThread s
  | .stateMachine => some (stateMachineThread s)

/-- The interleaved program without further input. -/
def silent : LTS State Event := .ofNext silentNext

/-- The key that is in force once a pending byte has been stored. -/
def State.lastKey (s : State) : Int8 :=
  match s.reader with
  | .loop => s.keyPressed
  | .store c => c

variable {s t : State} {e : Event} {es : List Event} {c : Int8} {n : ℤ}

theorem thread_machine (s : State) : (stateMachineThread s).1.thread = .stateMachine := by
  cases h : s.machine with
  | loop => cases hm : s.state <;> simp [stateMachineThread, h, hm, Event.thread]
  | service p => simp [stateMachineThread, h, Event.thread]
  | store m => simp [stateMachineThread, h, Event.thread]

theorem thread_timer (h : timerEventThread s = some (e, t)) : e.thread = .timerEvent := by
  rcases timerEventThread_cases h with ⟨-, rfl, -⟩ | ⟨-, -, -, rfl, -⟩ | ⟨p, -, -, -, rfl, -⟩
  · rfl
  · rfl
  · rfl

theorem thread_silentNext {a : Thread} (h : silentNext a s = some (e, t)) :
    e.thread = a ∧ ∀ r, e ≠ .getchar r := by
  cases a with
  | asciiRead =>
    cases hpc : s.reader with
    | loop => simp [silentNext, hpc] at h
    | store c =>
      obtain ⟨rfl, -⟩ : Event.keyStore c = e ∧ _ := by
        simpa [silentNext, asciiReadThread, hpc] using h
      simp [Event.thread]
  | timerEvent =>
    have ha := thread_timer h
    refine ⟨ha, ?_⟩
    rintro r rfl
    cases ha
  | stateMachine =>
    have ha := thread_machine s
    rw [show stateMachineThread s = (e, t) from Option.some.inj h] at ha
    refine ⟨ha, ?_⟩
    rintro r rfl
    cases ha

/-- The steps of the silent program are those of the program other than reading a byte. -/
theorem silent_tr : silent.Tr s e t ↔ Step s e t ∧ ∀ r, e ≠ .getchar r := by
  constructor
  · rintro ⟨a, h⟩
    refine ⟨?_, (thread_silentNext h).2⟩
    cases a with
    | asciiRead =>
      cases hpc : s.reader with
      | loop => simp [silentNext, hpc] at h
      | store c =>
        simp only [silentNext, hpc, Option.some.injEq] at h
        have hstep := step_reader none s
        rwa [h] at hstep
    | timerEvent => exact step_timer h
    | stateMachine =>
      obtain ⟨rfl, rfl⟩ := Prod.mk.inj (Option.some.inj h)
      exact step_machine s
  · rintro ⟨h, he⟩
    obtain ⟨a, ha⟩ := tr_iff.mpr h
    cases a with
    | timer => exact ⟨.timerEvent, ha⟩
    | machine => exact ⟨.stateMachine, ha⟩
    | reader r =>
      refine ⟨.asciiRead, ?_⟩
      cases hpc : s.reader with
      | loop =>
        simp only [next, asciiReadThread, hpc, Option.some.injEq, Prod.mk.injEq] at ha
        exact (he r ha.1.symm).elim
      | store c => simpa [next, silentNext, asciiReadThread, hpc] using ha

/-- The last byte is in force and the start is over. -/
structure Steady (c : Int8) (s : State) : Prop where
  started : Started s
  reader : s.reader = .loop
  key : s.keyPressed = c

theorem Steady.step (h : Step s e t) (he : ∀ r, e ≠ .getchar r) (hs : Steady c s) :
    Steady c t := by
  obtain ⟨hstarted, hreader, hkey⟩ := hs
  refine ⟨(hstarted.step h).2, ?_, ?_⟩
  · cases h with
    | @getchar r h => exact (he r rfl).elim
    | keyStore h => rfl
    | _ => exact hreader
  · cases h with
    | keyStore h => simp [hreader] at h
    | @timerSample p h _ hm =>
      cases p <;> exact hkey
    | _ => exact hkey

/-- What holds on the way there. -/
structure Coming (c : Int8) (s : State) : Prop where
  store : s.machine ≠ .store .unknow
  key : s.lastKey = c

theorem Coming.step (h : Step s e t) (he : ∀ r, e ≠ .getchar r) (hs : Coming c s) :
    Coming c t := by
  obtain ⟨hstore, hkey⟩ := hs
  cases h with
  | @getchar r h => exact (he r rfl).elim
  | keyStore h =>
    refine ⟨hstore, ?_⟩
    simpa [State.lastKey, h] using hkey
  | @timerSample p h _ hm =>
    refine ⟨hstore, ?_⟩
    cases p <;> exact hkey
  | timerUnknow | timerStore => exact ⟨hstore, hkey⟩
  | machineKnown | machineUnknow | serviceLoad | machineStore => exact ⟨by simp, hkey⟩

/-- The thread that brings the start to its end: first the mode becomes known, then a stale store
of the timer is made, then a pending byte is stored, then the state machine returns to its loop. -/
def helper (s : State) : Thread :=
  if s.state = .unknow then .stateMachine
  else if s.timer = .store then .timerEvent
  else if s.reader = .loop then .stateMachine
  else .asciiRead

/-- How far `state_machine_thread` is from its next store, and from its loop. -/
def MachinePC.left : MachinePC → ℕ
  | .loop => 0
  | .service _ => 2
  | .store _ => 1

def rank (s : State) : ℕ :=
  if s.state = .unknow then if s.machine.left = 1 then 10 else 11
  else if s.timer = .store then 4
  else if s.reader = .loop then s.machine.left
  else 3

theorem progress (h : Step s e t) (he : ∀ r, e ≠ .getchar r) (hs : Coming c s)
    (hgoal : ¬ (Steady c s ∧ s.machine = .loop)) :
    LTS.Progress Event.thread helper rank s e t := by
  have hsteady : s.state ≠ .unknow → s.timer ≠ .store → s.reader = .loop →
      s.machine.left ≠ 0 := by
    intro hknown htimer hreader hleft
    refine hgoal ⟨⟨⟨hknown, ?_, hs.store⟩, hreader, ?_⟩, ?_⟩
    · cases hpc : s.timer <;> simp_all
    · simpa [State.lastKey, hreader] using hs.key
    · cases hpc : s.machine <;> simp_all [MachinePC.left]
  cases h with
  | @getchar r h => exact (he r rfl).elim
  | keyStore h =>
    simp only [LTS.Progress, rank, helper, Event.thread, h]
    cases s.machine <;> split_ifs <;> simp_all [MachinePC.left]
  | @timerSample p h _ hm =>
    have hkept : (sample p s.toGlobals).state = s.state := by cases p <;> rfl
    simp only [LTS.Progress, rank, helper, Event.thread, hkept, h, hm] at hsteady ⊢
    split_ifs <;> simp_all
  | timerUnknow h _ hm =>
    exact Or.inr ⟨by simp [rank, hm], by simp [helper, hm], by simp [helper, hm, Event.thread]⟩
  | timerStore h =>
    simp only [LTS.Progress, rank, helper, Event.thread, h]
    cases s.machine <;> split_ifs <;> simp_all [MachinePC.left]
  | @machineKnown p h hm =>
    simp only [LTS.Progress, rank, helper, Event.thread, h, hm] at hsteady ⊢
    split_ifs <;> simp_all [MachinePC.left]
  | machineUnknow h hm =>
    simp only [LTS.Progress, rank, helper, Event.thread, h, hm]
    split_ifs <;> simp_all [MachinePC.left]
  | @serviceLoad p h =>
    simp only [LTS.Progress, rank, helper, Event.thread, h]
    split_ifs <;> simp_all [MachinePC.left]
  | @machineStore m h =>
    have hm : m ≠ .unknow := by
      rintro rfl
      exact hs.store h
    simp only [LTS.Progress, rank, helper, Event.thread, h, hm]
    split_ifs <;> simp_all [MachinePC.left]

/-- Nothing blocks `state_machine_thread`. -/
theorem enabled_machine (s : State) : silent.Enabled Event.thread .stateMachine s :=
  ⟨_, _, ⟨.stateMachine, rfl⟩, thread_machine s⟩

theorem enabled_helper (s : State) : silent.Enabled Event.thread (helper s) s := by
  unfold helper
  split_ifs with hm htimer hreader
  · exact enabled_machine s
  · exact ⟨_, _, silent_tr.mpr ⟨.timerStore htimer, by simp⟩, rfl⟩
  · exact enabled_machine s
  · cases hpc : s.reader with
    | loop => exact (hreader hpc).elim
    | store c => exact ⟨_, _, silent_tr.mpr ⟨.keyStore hpc, by simp⟩, rfl⟩

variable {E : Execution State Event} {k : ℕ}

theorem Coming.run (h : silent.MTr s es t) (hs : Coming c s) : Coming c t := by
  refine h.invariant (P := Coming c) hs fun s e t hs htr => ?_
  obtain ⟨hstep, he⟩ := silent_tr.mp htr
  exact hs.step hstep he

/-- The start comes to an end, and the last byte into force. -/
theorem eventually_steady (hf : silent.Fair Event.thread E) (h : silent.Valid E)
    (h0 : Coming c (E.state 0)) : ∃ n, Steady c (E.state n) ∧ (E.state n).machine = .loop := by
  have hprogress : ∀ s e t, Coming c s → ¬ (Steady c s ∧ s.machine = .loop) → silent.Tr s e t →
      LTS.Progress Event.thread helper rank s e t := by
    intro s e t hs hgoal htr
    obtain ⟨hstep, he⟩ := silent_tr.mp htr
    exact progress hstep he hs hgoal
  exact hf.eventually (Coming c) (fun s => Steady c s ∧ s.machine = .loop) h
    (fun n => h0.run (h.mTr n)) (fun s _ _ => enabled_helper s) hprogress

/-- The same from any position on. -/
theorem eventually_loop (hf : silent.Fair Event.thread E) (h : silent.Valid E)
    (h0 : Coming c (E.state 0)) (m : ℕ) :
    ∃ n, m ≤ n ∧ Steady c (E.state n) ∧ (E.state n).machine = .loop := by
  obtain ⟨n, hn⟩ := eventually_steady (hf.drop m) (h.drop m) (h0.run (h.mTr m))
  exact ⟨m + n, Nat.le_add_right m n, hn⟩

/-- Once started, the other threads leave the mode and `state_machine_thread` alone. -/
theorem Started.frame (h : Step s e t) (ha : e.thread ≠ .stateMachine) (hs : Started s) :
    t.machine = s.machine ∧ t.state = s.state := by
  cases h with
  | getchar h | keyStore h => exact ⟨rfl, rfl⟩
  | @timerSample p h _ hm => cases p <;> exact ⟨rfl, rfl⟩
  | timerUnknow h _ hm => exact (hs.known hm).elim
  | timerStore h => simp [hs.timer] at h
  | machineKnown | machineUnknow | serviceLoad | machineStore => exact (ha rfl).elim

/-- `state_machine_thread` is at a position for a mode, with the last byte in force. -/
def At (c : Int8) (pc : MachinePC) (n : ℤ) (s : State) : Prop :=
  Steady c s ∧ s.machine = pc ∧ s.state = (probeAt n).mode

/-- One step of `state_machine_thread` leads on, the other threads keep its position. -/
theorem leadsTo_of_machine {pc : MachinePC} {Q : State → Prop}
    (hf : silent.Fair Event.thread E) (h : silent.Valid E)
    (move : ∀ s e t, Step s e t → e.thread = .stateMachine → At c pc n s → Steady c t → Q t) :
    LTS.LeadsTo E 0 (At c pc n) Q := by
  have hallowed : ∀ n, 0 ≤ n → ∀ e, E.event n = some e → True := fun _ _ _ _ => trivial
  refine (hf .stateMachine).leadsTo h hallowed ?_ ?_ fun s _ => enabled_machine s
  · rintro s e t htr - ha ⟨hsteady, hpc, hm⟩
    obtain ⟨hstep, he⟩ := silent_tr.mp htr
    obtain ⟨hmachine, hmode⟩ := hsteady.started.frame hstep ha
    exact ⟨hsteady.step hstep he, hmachine.trans hpc, hmode.trans hm⟩
  · rintro s e t htr ha hat
    obtain ⟨hstep, he⟩ := silent_tr.mp htr
    exact move s e t hstep ha hat (hat.1.step hstep he)

theorem loop_leadsTo (hf : silent.Fair Event.thread E) (h : silent.Valid E) :
    LTS.LeadsTo E 0 (At c .loop n) (At c (.service (probeAt n)) n) := by
  refine leadsTo_of_machine hf h ?_
  rintro s e t hstep ha ⟨hsteady, hpc, hm⟩ hsteady'
  cases hstep with
  | @machineKnown p h hp =>
    have hprobe : p = probeAt n := Probe.mode_injective (hp.symm.trans hm)
    exact ⟨hsteady', by rw [hprobe], hm⟩
  | machineUnknow h hu => exact (hsteady.started.known hu).elim
  | serviceLoad h | machineStore h => exact MachinePC.noConfusion (hpc.symm.trans h)
  | _ => cases ha

theorem service_leadsTo (hf : silent.Fair Event.thread E) (h : silent.Valid E) :
    LTS.LeadsTo E 0 (At c (.service (probeAt n)) n)
      (At c (.store (probeAt (n + turn (keyEvent c))).mode) n) := by
  refine leadsTo_of_machine hf h ?_
  rintro s e t hstep ha ⟨hsteady, hpc, hm⟩ hsteady'
  cases hstep with
  | @serviceLoad p h =>
    obtain rfl := MachinePC.service.inj (hpc.symm.trans h)
    exact ⟨hsteady', by rw [nextState_turn, hsteady.key], hm⟩
  | machineKnown h _ | machineUnknow h _ | machineStore h =>
    exact MachinePC.noConfusion (hpc.symm.trans h)
  | _ => cases ha

theorem store_leadsTo {m : ℤ} (hf : silent.Fair Event.thread E) (h : silent.Valid E) :
    LTS.LeadsTo E 0 (At c (.store (probeAt m).mode) n) (At c .loop m) := by
  refine leadsTo_of_machine hf h ?_
  rintro s e t hstep ha ⟨hsteady, hpc, hm⟩ hsteady'
  cases hstep with
  | machineStore h =>
    obtain rfl := MachinePC.store.inj (hpc.symm.trans h)
    exact ⟨hsteady', rfl, rfl⟩
  | machineKnown h _ | machineUnknow h _ | serviceLoad h =>
    exact MachinePC.noConfusion (hpc.symm.trans h)
  | _ => cases ha

/-- Each iteration of `state_machine_thread` makes the same turn. -/
theorem turn_leadsTo (hf : silent.Fair Event.thread E) (h : silent.Valid E) :
    LTS.LeadsTo E 0 (At c .loop n) (At c .loop (n + turn (keyEvent c))) :=
  (loop_leadsTo hf h).trans ((service_leadsTo hf h).trans (store_leadsTo hf h))

theorem turns_leadsTo (hf : silent.Fair Event.thread E) (h : silent.Valid E) (j : ℕ) :
    LTS.LeadsTo E 0 (At c .loop n) (At c .loop (n + j * turn (keyEvent c))) := by
  induction j with
  | zero => exact LTS.LeadsTo.of_imp fun s hs => by simpa using hs
  | succ j ih =>
    have hnext := turn_leadsTo (c := c) (n := n + j * turn (keyEvent c)) hf h
    have hsum : n + (j + 1 : ℕ) * turn (keyEvent c) =
        n + j * turn (keyEvent c) + turn (keyEvent c) := by push_cast; ring
    rw [hsum]
    exact ih.trans hnext

theorem probeAt_eq {m : ℤ} (h : m % 3 = n % 3) : probeAt m = probeAt n := by
  simp [probeAt, h]

theorem exists_probeAt (p : Probe) : ∃ n : ℤ, probeAt n = p := by
  cases p with
  | cond => exact ⟨0, rfl⟩
  | ph => exact ⟨1, rfl⟩
  | mv => exact ⟨2, rfl⟩

/-- Three positions in a row are all there are, in either direction. -/
theorem exists_turns (n : ℤ) (p : Probe) (hc : (keyEvent c).isSome) :
    ∃ j : ℕ, probeAt (n + j * turn (keyEvent c)) = p := by
  obtain ⟨m, rfl⟩ := exists_probeAt p
  obtain ⟨k, hk⟩ := Option.isSome_iff_exists.mp hc
  rw [hk]
  cases k with
  | left => exact ⟨((n - m) % 3).toNat, probeAt_eq (by simp only [turn]; omega)⟩
  | right => exact ⟨((m - n) % 3).toNat, probeAt_eq (by simp only [turn]; omega)⟩

/-- Without a supported key a mode that is reached stays. -/
structure Resting (c : Int8) (p : Probe) (s : State) : Prop where
  steady : Steady c s
  mode : s.state = p.mode
  service : ∀ q, s.machine = .service q → q = p
  store : ∀ m, s.machine = .store m → m = p.mode

theorem Resting.step {p : Probe} (h : Step s e t) (he : ∀ r, e ≠ .getchar r)
    (hc : keyEvent c = none) (hs : Resting c p s) : Resting c p t := by
  obtain ⟨hsteady, hmode, hservice, hstore⟩ := hs
  have hnext := hsteady.step h he
  by_cases ha : e.thread = .stateMachine
  · cases h with
    | @machineKnown q h hm =>
      obtain rfl : q = p := Probe.mode_injective (hm.symm.trans hmode)
      exact ⟨hnext, hmode, by simp, by simp⟩
    | machineUnknow h hm => exact (hsteady.started.known hm).elim
    | @serviceLoad q h =>
      obtain rfl := hservice q h
      have hstay : switchKey s.keyPressed = .stayPut := by
        rw [hsteady.key]
        exact switchKey_eq_stayPut.mpr hc
      exact ⟨hnext, hmode, by simp, by simp [hstay]⟩
    | machineStore h => exact ⟨hnext, hstore _ h, by simp, by simp⟩
    | _ => cases ha
  · obtain ⟨hmachine, hstate⟩ := hsteady.started.frame h ha
    refine ⟨hnext, hstate.trans hmode, ?_, ?_⟩
    · rwa [hmachine]
    · rwa [hmachine]

theorem coming_run (h : atomic.MTr (idle initial) es s) : Coming s.lastKey s := by
  refine ⟨?_, rfl⟩
  refine h.invariant (P := fun s => s.machine ≠ .store .unknow) (by simp [idle]) ?_
  intro s e t hs htr
  cases tr_iff.mp htr with
  | machineKnown | machineUnknow | serviceLoad | machineStore => simp
  | _ => exact hs

/-- An `'a'` or a `'d'` as the last byte takes the controller to every mode again and again. -/
theorem recurs (hf : silent.Fair Event.thread E) (h : silent.Valid E)
    (h0 : Coming c (E.state 0)) (hc : (keyEvent c).isSome) (p : Probe) (m : ℕ) :
    ∃ n, m ≤ n ∧ (E.state n).state = p.mode := by
  obtain ⟨l, hml, hsteady, hloop⟩ := eventually_loop hf h h0 m
  obtain ⟨q, hq⟩ := StateDefine.exists_probe hsteady.started.known
  obtain ⟨i, rfl⟩ := exists_probeAt q
  obtain ⟨j, hj⟩ := exists_turns i p hc
  obtain ⟨n, hln, -, -, hn⟩ := turns_leadsTo hf h j l (Nat.zero_le l) ⟨hsteady, hloop, hq.symm⟩
  exact ⟨n, hml.trans hln, hn.trans (by rw [hj])⟩

/-- Any other byte as the last one lets it come to rest. -/
theorem rests (hf : silent.Fair Event.thread E) (h : silent.Valid E)
    (h0 : Coming c (E.state 0)) (hc : keyEvent c = none) :
    ∃ (p : Probe) (m : ℕ), ∀ n, m ≤ n → (E.state n).state = p.mode := by
  obtain ⟨m, -, hsteady, hloop⟩ := eventually_loop hf h h0 0
  obtain ⟨p, hp⟩ := StateDefine.exists_probe hsteady.started.known
  have hrest : Resting c p (E.state m) := ⟨hsteady, hp.symm, by simp [hloop], by simp [hloop]⟩
  refine ⟨p, m, fun n hmn => ?_⟩
  suffices hn : Resting c p (E.state n) from hn.mode
  induction n, hmn using Nat.le_induction with
  | base => exact hrest
  | succ n hmn ih =>
    cases he : E.event n with
    | none => rwa [h.pause n he]
    | some e =>
      obtain ⟨hstep, he⟩ := silent_tr.mp (h.tr n e he)
      exact ih.step hstep he hc

/-- When no more input comes, the controller goes through all its modes for ever if the last byte is
an `'a'` or a `'d'`, and otherwise ends up in one of them. -/
theorem recurs_iff (hf : silent.Fair Event.thread E) (h : silent.Valid E)
    (h0 : atomic.MTr (idle initial) es (E.state 0)) :
    ((∀ (p : Probe) m, ∃ n, m ≤ n ∧ (E.state n).state = p.mode) ↔
      (keyEvent (E.state 0).lastKey).isSome) ∧
    ((∃ (p : Probe) (m : ℕ), ∀ n, m ≤ n → (E.state n).state = p.mode) ↔
      keyEvent (E.state 0).lastKey = none) := by
  have hcoming := coming_run h0
  have hexclude : ¬ ((∀ (p : Probe) m, ∃ n, m ≤ n ∧ (E.state n).state = p.mode) ∧
      ∃ (p : Probe) (m : ℕ), ∀ n, m ≤ n → (E.state n).state = p.mode) := by
    rintro ⟨hall, p, m, hp⟩
    obtain ⟨n, hmn, hcond⟩ := hall .cond m
    obtain ⟨l, hml, hph⟩ := hall .ph m
    have hpcond := Probe.mode_injective (hcond.symm.trans (hp n hmn))
    have hpph := Probe.mode_injective (hph.symm.trans (hp l hml))
    cases hpcond.trans hpph.symm
  cases hc : keyEvent (E.state 0).lastKey with
  | none =>
    have hrests := rests hf h hcoming hc
    simp only [Option.isSome_none, Bool.false_eq_true, iff_false, iff_true]
    exact ⟨fun hall => hexclude ⟨hall, hrests⟩, hrests⟩
  | some k =>
    have hrecurs := recurs hf h hcoming (by simp [hc])
    simp only [Option.isSome_some, iff_true, reduceCtorEq, iff_false]
    exact ⟨hrecurs, fun hrests => hexclude ⟨hrecurs, hrests⟩⟩

/-- The threads in turn. -/
def inTurn (n : ℕ) : Thread :=
  if n % 3 = 0 then .asciiRead else if n % 3 = 1 then .timerEvent else .stateMachine

def inTurnExecution (s : State) : Execution State Event := LTS.scheduled silentNext inTurn s

theorem fair_inTurn (s : State) : silent.Fair Event.thread (inTurnExecution s) := by
  refine LTS.fair_scheduled s (fun a s e t h => (thread_silentNext h).1) ?_
  intro a m
  cases a with
  | asciiRead => exact ⟨3 * m, by omega, by simp [inTurn]⟩
  | timerEvent =>
    have hmod : (3 * m + 1) % 3 = 1 := by omega
    exact ⟨3 * m + 1, by omega, by simp [inTurn, hmod]⟩
  | stateMachine =>
    have hmod : (3 * m + 2) % 3 = 2 := by omega
    exact ⟨3 * m + 2, by omega, by simp [inTurn, hmod]⟩

/-- After one right key at the start, MV still comes up after a thousand steps. -/
theorem recurs_iff_right : ∃ n, 1000 ≤ n ∧
    ((inTurnExecution { idle initial with reader := .store 100 }).state n).state = .mv := by
  have h0 : atomic.MTr (idle initial) [.getchar (some 100)]
      { idle initial with reader := .store 100 } :=
    LTS.mTr_of_replay [.reader (some 100)] rfl
  have hrecurs := (recurs_iff (fair_inTurn { idle initial with reader := .store 100 })
    (LTS.valid_scheduled inTurn _) h0).1
  exact hrecurs.mpr rfl .mv 1000

end LinuxTutorial.TimerController.Atomic
