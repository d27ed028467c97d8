import LinuxTutorial.SemController.NullStatus
import LinuxTutorial.SemController.Settling
import LinuxTutorial.Transition.Simulation

/-!
# The keyboard does not control the mode

With the NULL pointers that `main` passes, no direction that a thread has read from the keyboard
gets as far as the mode: the accesses to the mode, the semaphore operations and the stores are the
same with and without input. Only the key that a service function sees and prints is another one.
-/

namespace LinuxTutorial.SemController

open Transition

variable {s t : State} {e : Event} {es : List Event}

def Event.isKeyboard : Event → Bool
  | .getchar _ | .keyStore _ => true
  | _ => false

/-- The accesses to the mode, the semaphore operations and the stores through the status pointers.
The accesses to the key are left out, and with them the line that a `switch` on the key prints. -/
def Event.access? : Event → Option Event
  | .getchar _ | .keyStore _ | .serviceLoad _ _ | .threadLoad _ _ => none
  | e => some e

def MachinePC.deaf : MachinePC → MachinePC
  | .status p _ => .status p .stayPut
  | pc => pc

def ServicePC.deaf : ServicePC → ServicePC
  | .status _ => .status .stayPut
  | pc => pc

/-- The state in which no key has been pressed. -/
def State.deaf (s : State) : State :=
  { s with
    keyPressedGlobal := 0
    reader := .loop
    machine := s.machine.deaf
    service := fun p => (s.service p).deaf }

/-- The program without a keyboard. -/
def unattended : LTS State Event := atomic.restrict fun _ e => e.isKeyboard = false

theorem switchKey_zero : switchKey 0 = .stayPut := by decide

theorem deaf_service (s : State) (p : Probe) (pc : ServicePC) :
    ({ s with service := Function.update s.service p pc } : State).deaf =
      { s.deaf with service := Function.update s.deaf.service p pc.deaf } := by
  have hservice : (fun q => (Function.update s.service p pc q).deaf) =
      Function.update s.deaf.service p pc.deaf := by
    funext q
    by_cases hq : q = p
    · subst q
      simp
    · simp [Function.update_of_ne hq, State.deaf]
  simp only [State.deaf] at hservice ⊢
  rw [hservice]

/-- A step of a thread other than `ascii_read_thread` is one of the deaf state as well. -/
theorem deaf_step (h : Step s e t) (hcells : ∀ w, s.statusReturn w = none)
    (he : e.isKeyboard = false) :
    ∃ d, Step s.deaf d t.deaf ∧ d.isKeyboard = false ∧ d.access? = e.access? := by
  have hmachine : ∀ pc, s.machine = pc → s.deaf.machine = pc.deaf := by
    rintro pc rfl
    rfl
  have hservice : ∀ p pc, s.service p = pc → s.deaf.service p = pc.deaf := by
    rintro p pc rfl
    rfl
  cases h with
  | getchar h | keyStore h => simp [Event.isKeyboard] at he
  | @timerSample p h hm =>
    refine ⟨.timerLoad p.mode, ?_, rfl, rfl⟩
    have hstep : Step s.deaf (.timerLoad p.mode) (sample p s.deaf) := .timerSample h hm
    have heq : (sample p s).deaf = sample p s.deaf := by cases p <;> rfl
    rwa [heq]
  | timerUnknow h hm => exact ⟨_, .timerUnknow (s := s.deaf) h hm, rfl, rfl⟩
  | timerStore h => exact ⟨_, .timerStore (s := s.deaf) h, rfl, rfl⟩
  | @machineKnown p h hm =>
    exact ⟨_, .machineKnown (s := s.deaf) (p := p) (hmachine _ h) hm, rfl, rfl⟩
  | machineUnknow h hm => exact ⟨_, .machineUnknow (s := s.deaf) (hmachine _ h) hm, rfl, rfl⟩
  | requestPost h => exact ⟨_, .requestPost (s := s.deaf) (hmachine _ h), rfl, rfl⟩
  | @serviceLoad p h =>
    have hstep := Step.serviceLoad (s := s.deaf) (hmachine _ h)
    change Step s.deaf (.serviceLoad p 0)
      { s.deaf with machine := .status p (switchKey 0) } at hstep
    rw [switchKey_zero] at hstep
    exact ⟨_, hstep, rfl, rfl⟩
  | machineStatus h hc => simp [hcells] at hc
  | machineNull h hc => exact ⟨_, .machineNull (s := s.deaf) (hmachine _ h) hc, rfl, rfl⟩
  | machineStore h => exact ⟨_, .machineStore (s := s.deaf) (hmachine _ h), rfl, rfl⟩
  | updateWait h hpos => exact ⟨_, .updateWait (s := s.deaf) (hmachine _ h) hpos, rfl, rfl⟩
  | @requestWait p h hpos =>
    refine ⟨.requestWait p, ?_, rfl, rfl⟩
    convert Step.requestWait (s := s.deaf) (hservice p _ h) hpos using 1
    exact deaf_service { s with request := Function.update s.request p (s.request p - 1) } p .load
  | @threadLoad p h =>
    have hstep := Step.threadLoad (s := s.deaf) (hservice p _ h)
    change Step s.deaf (.threadLoad p 0)
      { s.deaf with service := Function.update s.deaf.service p (.status (switchKey 0)) } at hstep
    rw [switchKey_zero] at hstep
    refine ⟨.threadLoad p 0, ?_, rfl, rfl⟩
    rw [deaf_service]
    exact hstep
  | threadStatus h hc => simp [hcells] at hc
  | @threadNull p st h hc =>
    exact ⟨_, .threadNull (s := s.deaf) (hservice p _ h) hc, rfl, rfl⟩
  | @updatePost p h =>
    refine ⟨.updatePost p, ?_, rfl, rfl⟩
    convert Step.updatePost (s := s.deaf) (hservice p _ h) using 1
    exact deaf_service { s with update := Function.update s.update p (s.update p + 1) } p .wait

/-- A state of the program and what it is without a keyboard. -/
structure Deafened (s d : State) : Prop where
  deaf : d = s.deaf
  cells : ∀ w, s.statusReturn w = none

theorem deaf_keyboard (h : Step s e t) (he : e.isKeyboard = true) : t.deaf = s.deaf := by
  cases h with
  | getchar h | keyStore h => rfl
  | _ => simp [Event.isKeyboard] at he

theorem simulates_deaf :
    LTS.Simulates atomic unattended Event.access? Event.access? Deafened := by
  rintro s e t d ⟨rfl, hcells⟩ htr
  obtain ⟨hc, hstep⟩ := tr_iff.mp htr
  have hcells' := cells_step hstep hcells
  cases he : e.isKeyboard with
  | true =>
    refine ⟨[], s.deaf, .refl, ?_, (deaf_keyboard hstep he).symm, hcells'⟩
    cases e <;> simp_all [Event.isKeyboard, Event.access?]
  | false =>
    obtain ⟨d, hd, hkeyboard, hobs⟩ := deaf_step hstep hcells he
    refine ⟨[d], t.deaf, .single ⟨tr_iff.mpr ⟨hc, hd⟩, hkeyboard⟩, ?_, rfl, hcells'⟩
    rw [← hobs]
    cases h : d.access? <;> simp [h]

/-- With the NULL pointers of `main`, the program makes the same accesses to the mode, semaphore
operations and stores through the status pointers with a keyboard and without one. -/
theorem traces_unattended : atomic.Traces Event.access? start =
    unattended.Traces Event.access? start := by
  refine Set.Subset.antisymm ?_ ?_
  · exact simulates_deaf.traces_subset ⟨rfl, fun _ => rfl⟩
  · rintro os ⟨es, t, hrun, rfl⟩
    exact ⟨es, t, hrun.of_restrict, rfl⟩

/-- Without a keyboard no thread holds a key. -/
def Unpressed (s : State) : Prop := s.keyPressedGlobal = 0 ∧ s.reader = .loop

theorem unpressed_step (h : Step s e t) (he : e.isKeyboard = false) (hs : Unpressed s) :
    Unpressed t := by
  cases h with
  | getchar h | keyStore h => simp [Event.isKeyboard] at he
  | @timerSample p h hm => cases p <;> exact hs
  | _ => exact hs

/-- The key that a service function sees is left out for a reason: without a keyboard it sees none,
with one it can see a left key. -/
theorem serviceLoad_key : (∃ es s, atomic.MTr start es s ∧ .serviceLoad .mv 97 ∈ es) ∧
    ∀ es s p c, unattended.MTr start es s → .serviceLoad p c ∈ es → c = 0 := by
  constructor
  · have h : atomic.MTr start _ _ := LTS.mTr_of_replay
      [.timer, .timer, .reader (some 97), .reader none, .machine, .machine, .machine] rfl
    exact ⟨_, _, h, by decide⟩
  · intro es s p c h hmem
    have hall : Unpressed s ∧ (.serviceLoad p c ∈ es → c = 0) := by
      refine h.history (P := fun es s => Unpressed s ∧ (.serviceLoad p c ∈ es → c = 0))
        ⟨⟨rfl, rfl⟩, by simp⟩ ?_
      rintro es s e t ⟨hs, hes⟩ ⟨htr, he⟩
      have hstep := (tr_iff.mp htr).2
      refine ⟨unpressed_step hstep he hs, fun hmem => ?_⟩
      rcases List.mem_append.mp hmem with hmem | hmem
      · exact hes hmem
      · obtain rfl := List.mem_singleton.mp hmem
        cases hstep with
        | serviceLoad h => exact hs.1
    exact hall.2 hmem

/-- The PH probe has not been served, and it will not be next. -/
structure WithoutPh (es : List Event) (s : State) : Prop where
  cells : ∀ w, s.statusReturn w = none
  store : ∀ m, s.machine = .store m → m = .cond
  post : s.machine ≠ .post .ph
  mode : s.stateSingleton ≠ .ph
  value : s.phValue = 0
  sampled : .timerLoad .ph ∉ es
  requested : .requestPost .ph ∉ es

theorem withoutPh_step (h : Step s e t) (hs : WithoutPh es s) : WithoutPh (es ++ [e]) t := by
  obtain ⟨hcells, hstore, hpost, hmode, hvalue, hsampled, hrequested⟩ := hs
  have hcells' := cells_step h hcells
  cases h with
  | @timerSample p h hm =>
    cases p with
    | ph => exact (hmode hm).elim
    | cond | mv =>
      exact ⟨hcells, hstore, hpost, hmode, hvalue, by simp [hsampled, Probe.mode],
        by simp [hrequested]⟩
  | timerStore h =>
    exact ⟨hcells, hstore, hpost, by simp, hvalue, by simp [hsampled], by simp [hrequested]⟩
  | @machineKnown p h hm =>
    refine ⟨hcells, by simp, fun hp => ?_, hmode, hvalue, by simp [hsampled], by simp [hrequested]⟩
    obtain rfl := MachinePC.post.inj hp
    exact hmode hm
  | machineUnknow h hm =>
    exact ⟨hcells, by simp [eq_comm], by simp, hmode, hvalue, by simp [hsampled],
      by simp [hrequested]⟩
  | @requestPost p h =>
    refine ⟨hcells, by simp, by simp, hmode, hvalue, by simp [hsampled], ?_⟩
    have hp : Probe.ph ≠ p := by
      rintro rfl
      exact hpost h
    simp [hrequested, hp]
  | serviceLoad h =>
    exact ⟨hcells, by simp, by simp, hmode, hvalue, by simp [hsampled], by simp [hrequested]⟩
  | machineStatus h hc => simp [hcells] at hc
  | machineStore h =>
    obtain rfl := hstore _ h
    exact ⟨hcells, by simp, by simp, by simp, hvalue, by simp [hsampled], by simp [hrequested]⟩
  | updateWait h hpos =>
    exact ⟨hcells, by simp, by simp, hmode, hvalue, by simp [hsampled], by simp [hrequested]⟩
  | threadStatus h hc => simp [hcells] at hc
  | _ =>
    exact ⟨hcells', hstore, hpost, hmode, hvalue, by simp [hsampled], by simp [hrequested]⟩

/-- With the NULL pointers of `main`, the program is never in the PH mode and takes no PH sample. -/
theorem withoutPh_run (h : atomic.MTr start es s) : WithoutPh es s :=
  h.history ⟨fun _ => rfl, by simp [start, initial], by simp [start, initial],
    by simp [start, initial], rfl, by simp, by simp⟩
    fun _ _ _ _ hs htr => withoutPh_step (tr_iff.mp htr).2 hs

/-- A run in which the mode becomes MV and is sampled. -/
theorem withoutPh_run_mv : ∃ es s, atomic.MTr start es s ∧ .timerLoad .mv ∈ es ∧
    WithoutPh es s := by
  have h : atomic.MTr start _ _ := LTS.mTr_of_replay [.timer, .timer, .timer] rfl
  exact ⟨_, _, h, by decide, withoutPh_run h⟩

end LinuxTutorial.SemController
