import LinuxTutorial.Controller.Serial
import LinuxTutorial.Transition.Fair

/-!
# Keys are acted on

Nothing blocks `state_machine_thread` of `StateMc_pThread.c`. In an execution that is fair to it a
key in the mailbox is read and acted on, as long as no later key takes its place. The other threads
may stop for ever, as `ascii_read_thread` does where `getchar` does not return.
-/

namespace LinuxTutorial.Controller.Atomic

open Transition
open Iteration (Thread)

variable {s t : State} {e : Event} {es : List Event} {c : Int8}

/-- The thread that takes the step. -/
def Event.thread : Event → Thread
  | .getchar _ | .keyStore _ => .asciiRead
  | .timerLoad _ | .timerStore => .timerEvent
  | .machineLoad _ | .serviceLoad _ _ | .serviceReturn _ _ | .machineStore _ => .stateMachine

/-- `state_machine_thread` never stores UNKNOW. -/
def StoresKnown (s : State) : Prop := ∀ m, s.machine = .store m → m ≠ .unknow

theorem storesKnown_step (h : Step s e t) (hs : StoresKnown s) : StoresKnown t := by
  intro m hm
  cases h with
  | serviceReturn h =>
    obtain rfl := MachinePC.store.inj hm
    exact nextState_ne_unknow _ _
  | machineUnknow h hu =>
    obtain rfl := MachinePC.store.inj hm
    simp
  | machineKnown h hp => cases hm
  | serviceLoad h => cases hm
  | machineStore h => cases hm
  | _ => exact hs m hm

/-- The key `c` is in the mailbox, and only a store of a key can take it from there until it is
cleared. -/
structure Holding (c : Int8) (s : State) : Prop where
  key : s.keyPressedGlobal = c
  reader : ReaderHoldsKey s
  stores : StoresKnown s

/-- Outside the window, the mailbox keeps its key. -/
theorem holding_step (h : Step s e t) (he : e.storesKey = false) (hw : ¬ InWindow s)
    (hs : Holding c s) : Holding c t := by
  refine ⟨?_, readerHoldsKey_step h hs.reader, storesKnown_step h hs.stores⟩
  cases h with
  | keyStore h => simp [Event.storesKey, hs.reader _ h] at he
  | timerSample h hm =>
    exact (timerEventThread_known (g := s.toGlobals) (by simp [hm])).2.trans hs.key
  | serviceReturn h => exact (hw ⟨_, _, h⟩).elim
  | _ => exact hs.key

/-- Other threads do not move `state_machine_thread`. -/
theorem machine_frame (h : Step s e t) (ha : e.thread ≠ .stateMachine) :
    t.machine = s.machine := by
  cases h with
  | machineKnown h hm => exact (ha rfl).elim
  | machineUnknow h hm => exact (ha rfl).elim
  | serviceLoad h => exact (ha rfl).elim
  | serviceReturn h => exact (ha rfl).elim
  | machineStore h => exact (ha rfl).elim
  | _ => rfl

/-- No other thread makes the mode unknown. -/
theorem known_frame (h : Step s e t) (ha : e.thread ≠ .stateMachine)
    (hs : s.stateSingleton ≠ .unknow) : t.stateSingleton ≠ .unknow := by
  cases h with
  | timerSample h hm =>
    rw [(timerEventThread_known (g := s.toGlobals) (by simp [hm])).1]
    exact hs
  | timerStore h => simp
  | machineStore h => exact (ha rfl).elim
  | _ => exact hs

/-- Nothing blocks `state_machine_thread`. -/
theorem enabled_machine (s : State) : atomic.Enabled Event.thread .stateMachine s := by
  refine ⟨_, _, tr_iff.mpr (step_machine s), ?_⟩
  cases h : s.machine with
  | loop => cases hm : s.stateSingleton <;> simp [stateMachineThread, h, hm, Event.thread]
  | service p => simp [stateMachineThread, h, Event.thread]
  | clear p st => simp [stateMachineThread, h, Event.thread]
  | store m => simp [stateMachineThread, h, Event.thread]

variable {E : Execution State Event} {k : ℕ}

/-- No supported key is stored from position `k` on. -/
def NoKeyFrom (E : Execution State Event) (k : ℕ) : Prop :=
  ∀ n, k ≤ n → ∀ e, E.event n = some e → e.storesKey = false

/-- `state_machine_thread` is at a position outside the window, and `c` is in the mailbox. -/
def At (c : Int8) (pc : MachinePC → StateDefine → Prop) (s : State) : Prop :=
  Holding c s ∧ ¬ InWindow s ∧ pc s.machine s.stateSingleton

def atStore (pc : MachinePC) (_ : StateDefine) : Prop := ∃ m, pc = .store m

def atLoop (pc : MachinePC) (_ : StateDefine) : Prop := pc = .loop

def atKnownLoop (pc : MachinePC) (m : StateDefine) : Prop := pc = .loop ∧ m ≠ .unknow

def atService (pc : MachinePC) (_ : StateDefine) : Prop := ∃ p, pc = .service p

/-- A service function has read `c` and not cleared it. -/
def HasRead (c : Int8) (s : State) : Prop := ∃ p, s.machine = .clear p (switchKey c)

theorem storesKey_of_machine (ha : e.thread = .stateMachine) : e.storesKey = false := by
  cases e <;> simp_all [Event.thread, Event.storesKey]

/-- One step of `state_machine_thread` leads on, the other threads keep its position. -/
theorem leadsTo_of_machine {pc : MachinePC → StateDefine → Prop} {Q : State → Prop}
    (hf : atomic.FairTo Event.thread .stateMachine E) (h : atomic.Valid E) (hquiet : NoKeyFrom E k)
    (frame : ∀ s e t, Step s e t → e.thread ≠ .stateMachine → pc s.machine s.stateSingleton →
      pc t.machine t.stateSingleton)
    (move : ∀ s e t, Step s e t → e.thread = .stateMachine → Holding c t →
      pc s.machine s.stateSingleton → Holding c s → Q t) :
    LTS.LeadsTo E k (At c pc) Q := by
  refine hf.leadsTo h hquiet ?_ ?_ fun s _ => enabled_machine s
  · rintro s e t htr he ha ⟨hhold, hw, hpc⟩
    have hstep := tr_iff.mp htr
    refine ⟨holding_step hstep he hw hhold, ?_, frame s e t hstep ha hpc⟩
    rintro ⟨p, st, hm⟩
    exact hw ⟨p, st, (machine_frame hstep ha).symm.trans hm⟩
  · rintro s e t htr ha ⟨hhold, hw, hpc⟩
    have hstep := tr_iff.mp htr
    exact move s e t hstep ha (holding_step hstep (storesKey_of_machine ha) hw hhold) hpc hhold

theorem store_leadsTo (hf : atomic.FairTo Event.thread .stateMachine E) (h : atomic.Valid E)
    (hquiet : NoKeyFrom E k) : LTS.LeadsTo E k (At c atStore) (At c atKnownLoop) := by
  refine leadsTo_of_machine hf h hquiet ?_ ?_
  · rintro s e t hstep ha ⟨m, hm⟩
    exact ⟨m, (machine_frame hstep ha).trans hm⟩
  · rintro s e t hstep ha hhold' ⟨m, hm⟩ hhold
    cases hstep with
    | machineStore h =>
      obtain rfl := MachinePC.store.inj (hm.symm.trans h)
      exact ⟨hhold', by simp [InWindow], rfl, hhold.stores _ hm⟩
    | machineKnown h _ | machineUnknow h _ | serviceLoad h | serviceReturn h =>
      exact MachinePC.noConfusion (hm.symm.trans h)
    | _ => cases ha

theorem knownLoop_leadsTo (hf : atomic.FairTo Event.thread .stateMachine E) (h : atomic.Valid E)
    (hquiet : NoKeyFrom E k) : LTS.LeadsTo E k (At c atKnownLoop) (At c atService) := by
  refine leadsTo_of_machine hf h hquiet ?_ ?_
  · rintro s e t hstep ha ⟨hm, hknown⟩
    exact ⟨(machine_frame hstep ha).trans hm, known_frame hstep ha hknown⟩
  · rintro s e t hstep ha hhold' ⟨hm, hknown⟩ -
    cases hstep with
    | @machineKnown p h hp => exact ⟨hhold', by simp [InWindow], p, rfl⟩
    | machineUnknow h hu => exact (hknown hu).elim
    | serviceLoad h | serviceReturn h | machineStore h =>
      exact MachinePC.noConfusion (hm.symm.trans h)
    | _ => cases ha

/-- From its loop, `state_machine_thread` may first have to start up. -/
theorem loop_leadsTo (hf : atomic.FairTo Event.thread .stateMachine E) (h : atomic.Valid E)
    (hquiet : NoKeyFrom E k) : LTS.LeadsTo E k (At c atLoop) (At c atService) := by
  have hstart : LTS.LeadsTo E k (At c atLoop) fun s => At c atService s ∨ At c atStore s := by
    refine leadsTo_of_machine hf h hquiet ?_ ?_
    · intro s e t hstep ha hm
      exact (machine_frame hstep ha).trans hm
    · intro s e t hstep ha hhold' hm _
      cases hstep with
      | @machineKnown p h hp => exact Or.inl ⟨hhold', by simp [InWindow], p, rfl⟩
      | machineUnknow h hu => exact Or.inr ⟨hhold', by simp [InWindow], .cond, rfl⟩
      | serviceLoad h | serviceReturn h | machineStore h =>
        exact MachinePC.noConfusion (hm.symm.trans h)
      | _ => cases ha
  have hstore := (store_leadsTo (c := c) hf h hquiet).trans (knownLoop_leadsTo hf h hquiet)
  exact hstart.trans ((LTS.LeadsTo.of_imp fun _ hs => hs).or hstore)

theorem service_leadsTo (hf : atomic.FairTo Event.thread .stateMachine E) (h : atomic.Valid E)
    (hquiet : NoKeyFrom E k) : LTS.LeadsTo E k (At c atService) (HasRead c) := by
  refine leadsTo_of_machine hf h hquiet ?_ ?_
  · rintro s e t hstep ha ⟨p, hm⟩
    exact ⟨p, (machine_frame hstep ha).trans hm⟩
  · rintro s e t hstep ha hhold' ⟨p, hm⟩ hhold
    cases hstep with
    | @serviceLoad q h => exact ⟨q, by rw [hhold.key]⟩
    | machineKnown h _ | machineUnknow h _ | serviceReturn h | machineStore h =>
      exact MachinePC.noConfusion (hm.symm.trans h)
    | _ => cases ha

/-- A key that is outside the window is read. -/
theorem holding_leadsTo (hf : atomic.FairTo Event.thread .stateMachine E) (h : atomic.Valid E)
    (hquiet : NoKeyFrom E k) :
    LTS.LeadsTo E k (fun s => Holding c s ∧ ¬ InWindow s) (HasRead c) := by
  have hstore := (store_leadsTo (c := c) hf h hquiet).trans (knownLoop_leadsTo hf h hquiet)
  have hservice := service_leadsTo (c := c) hf h hquiet
  refine LTS.LeadsTo.trans ?_ hservice
  refine LTS.LeadsTo.trans (LTS.LeadsTo.of_imp ?_)
    ((loop_leadsTo hf h hquiet).or (hstore.or (LTS.LeadsTo.of_imp fun _ hs => hs)))
  rintro s ⟨hhold, hw⟩
  cases hm : s.machine with
  | loop => exact Or.inl ⟨hhold, hw, hm⟩
  | service p => exact Or.inr (Or.inr ⟨hhold, hw, p, hm⟩)
  | clear p st => exact (hw ⟨p, st, hm⟩).elim
  | store m => exact Or.inr (Or.inl ⟨hhold, hw, m, hm⟩)

theorem holding_run (h : atomic.MTr initial es s) : Holding s.keyPressedGlobal s where
  key := rfl
  reader := readerHoldsKey_run h
  stores := h.invariant (P := StoresKnown) (by intro m hm; cases hm)
    fun _ _ _ hp hs => storesKnown_step (tr_iff.mp hs) hp

/-- Where `state_machine_thread` is treated fairly, a key that is in the mailbox outside the window
is acted on: unless a later key is stored, some service function returns its direction. -/
theorem key_acted_on (hf : atomic.FairTo Event.thread .stateMachine E) (h : atomic.Valid E)
    (h0 : E.state 0 = initial) (hc : (keyEvent (E.state k).keyPressedGlobal).isSome)
    (hw : ¬ InWindow (E.state k)) (hquiet : NoKeyFrom E k) :
    ∃ n p st, k ≤ n ∧ E.event n = some (.serviceReturn p st) ∧
      st = switchKey (E.state k).keyPressedGlobal ∧ (st = .goBack ∨ st = .goForward) := by
  have hrun := h.mTr k
  rw [h0] at hrun
  obtain ⟨m, hkm, hread⟩ := holding_leadsTo hf h hquiet k le_rfl ⟨holding_run hrun, hw⟩
  have hallowed : ∀ n, m ≤ n → ∀ e, E.event n = some e → True := fun _ _ _ _ => trivial
  obtain ⟨n, e, hmn, ⟨p, hm⟩, he, ha⟩ := hf.taken_of_stable
    (P := HasRead (E.state k).keyPressedGlobal) h hallowed
    (fun s e t htr _ ha ⟨p, hm⟩ => ⟨p, (machine_frame (tr_iff.mp htr) ha).trans hm⟩)
    (fun s _ => enabled_machine s) hread
  have hstep := tr_iff.mp (h.tr n e he)
  generalize E.state (n + 1) = t at hstep
  cases hstep with
  | serviceReturn h =>
    obtain ⟨rfl, rfl⟩ := MachinePC.clear.inj (hm.symm.trans h)
    exact ⟨n, p, _, hkm.trans hmn, he, rfl, switchKey_of_isSome hc⟩
  | machineKnown h _ | machineUnknow h _ | serviceLoad h | machineStore h =>
    exact MachinePC.noConfusion (hm.symm.trans h)
  | _ => cases ha

def Action.thread : Action → Thread
  | .reader _ => .asciiRead
  | .timer => .timerEvent
  | .machine => .stateMachine

theorem thread_of_next {a : Action} (h : next a s = some (e, t)) : e.thread = a.thread := by
  cases a with
  | reader r =>
    obtain ⟨rfl, -⟩ := Prod.mk.inj (Option.some.inj h)
    cases s.reader <;> simp [Event.thread, Action.thread]
  | timer =>
    obtain ⟨rfl, -⟩ := Prod.mk.inj (Option.some.inj h)
    cases s.timer <;> cases s.stateSingleton <;> simp [Event.thread, Action.thread]
  | machine =>
    obtain ⟨rfl, -⟩ := Prod.mk.inj (Option.some.inj h)
    cases s.machine <;> cases s.stateSingleton <;> simp [Event.thread, Action.thread]

/-- A left key and then the end of the input, with the threads in turn. -/
def inTurn : ℕ → Action
  | 0 => .reader (some 97)
  | n + 1 => if n % 3 = 0 then .reader none else if n % 3 = 1 then .timer else .machine

def inTurnExecution : Execution State Event := LTS.scheduled next inTurn initial

theorem fair_inTurn : atomic.Fair Event.thread inTurnExecution := by
  refine LTS.fair_scheduled_of Action.thread initial (fun a s e t => thread_of_next)
    (fun a s _ => by cases a <;> simp [next]) ?_
  intro a m
  cases a with
  | asciiRead => exact ⟨3 * m + 1, by omega, by simp [inTurn, Action.thread]⟩
  | timerEvent =>
    have hmod : (3 * m + 1) % 3 = 1 := by omega
    exact ⟨3 * m + 2, by omega, by simp [inTurn, hmod, Action.thread]⟩
  | stateMachine =>
    have hmod : (3 * m + 2) % 3 = 2 := by omega
    exact ⟨3 * m + 3, by omega, by simp [inTurn, hmod, Action.thread]⟩

/-- At the end of the input `ascii_read_thread` stores nothing any more. -/
theorem step_inTurn {n : ℕ} (hs : s.reader = .loop) (h : next (inTurn (n + 1)) s = some (e, t)) :
    t.reader = .loop ∧ e.storesKey = false := by
  have hread : ¬ accepts (toChar (LinuxTutorial.getchar none)) := by decide
  simp only [inTurn] at h
  split at h
  · simp only [next, asciiReadThread, hs, hread, if_false, Option.some.injEq, Prod.mk.injEq] at h
    obtain ⟨rfl, rfl⟩ := h
    exact ⟨rfl, rfl⟩
  · have htr : Step s e t := by
      apply tr_iff.mp
      split at h
      · exact ⟨.timer, h⟩
      · exact ⟨.machine, h⟩
    have ha : e.thread ≠ .asciiRead := by
      split at h <;> rw [thread_of_next h] <;> simp [Action.thread]
    cases htr <;> simp_all [Event.thread, Event.storesKey]

theorem reader_inTurn {n : ℕ} (hn : 2 ≤ n) : (inTurnExecution.state n).reader = .loop := by
  induction n, hn using Nat.le_induction with
  | base => rfl
  | succ n hn ih =>
    obtain ⟨m, rfl⟩ : ∃ m, n = m + 1 := ⟨n - 1, by omega⟩
    cases hnext : next (inTurn (m + 1)) (inTurnExecution.state (m + 1)) with
    | none =>
      change (((next (inTurn (m + 1)) (inTurnExecution.state (m + 1))).map Prod.snd).getD
        (inTurnExecution.state (m + 1))).reader = .loop
      rw [hnext]
      exact ih
    | some r =>
      change (((next (inTurn (m + 1)) (inTurnExecution.state (m + 1))).map Prod.snd).getD
        (inTurnExecution.state (m + 1))).reader = .loop
      rw [hnext]
      exact (step_inTurn ih hnext).1

theorem noKeyFrom_inTurn : NoKeyFrom inTurnExecution 2 := by
  intro n hn e he
  obtain ⟨m, rfl⟩ : ∃ m, n = m + 1 := ⟨n - 1, by omega⟩
  obtain ⟨⟨e, t⟩, hnext, rfl⟩ := Option.map_eq_some_iff.mp he
  exact (step_inTurn (reader_inTurn hn) hnext).2

/-- The left key of this execution is acted on. -/
theorem key_acted_on_inTurn : ∃ n p st, 2 ≤ n ∧
    inTurnExecution.event n = some (.serviceReturn p st) ∧ st = switchKey 97 ∧
      (st = .goBack ∨ st = .goForward) := by
  have hstate : inTurnExecution.state 2 = { initial with keyPressedGlobal := 97 } := rfl
  have hacted := key_acted_on (k := 2) (fair_inTurn .stateMachine)
    (LTS.valid_scheduled inTurn initial) rfl (by decide)
    (by simp [hstate, InWindow, initial, idle]) noKeyFrom_inTurn
  rwa [hstate] at hacted

end LinuxTutorial.Controller.Atomic
