import LinuxTutorial.SemController.Basic

/-!
# The inline and the threaded service

After the post of a request both `state_machine_thread` and the service thread read
`key_pressed_global`, each when it comes to it.
-/

namespace LinuxTutorial.SemController

open Transition

variable {p : Probe} {st st' : Status} {c c' : Int8} {s s' t t' : State} {e : Event}
  {es : List Event}

/-- The inline service of a probe, or its service thread, reads the key and computes a
status. -/
inductive Computes (p : Probe) (st : Status) : State → State → Prop
  | inline {s t : State} {c : Int8} (h : atomic.Tr s (.serviceLoad p c) t)
      (hst : t.machine = .status p st) : Computes p st s t
  | thread {s t : State} {c : Int8} (h : atomic.Tr s (.threadLoad p c) t)
      (hst : t.service p = .status st) : Computes p st s t

/-- The key after some events: the last one that `ascii_read_thread` stored. -/
def lastStore (c : Int8) (es : List Event) : Int8 :=
  es.foldl (fun c e => match e with | .keyStore d => d | _ => c) c

/-- The key that the inline service of a probe reads. -/
def Event.inlineKey? (p : Probe) : Event → Option Int8
  | .serviceLoad q c => if q = p then some c else none
  | _ => none

/-- The key that the service thread of a probe reads. -/
def Event.threadKey? (p : Probe) : Event → Option Int8
  | .threadLoad q c => if q = p then some c else none
  | _ => none

/-- Each post wakes the service thread once, so the inline call and the service thread that
belong to the same post have the same number. -/
def Agree (es : List Event) : Prop :=
  ∀ (p : Probe) (k : ℕ) (c c' : Int8), (es.filterMap (Event.inlineKey? p))[k]? = some c →
    (es.filterMap (Event.threadKey? p))[k]? = some c' → switchKey c = switchKey c'

theorem Computes.status_eq (h : Computes p st s t) : st = switchKey s.keyPressedGlobal := by
  cases h with
  | inline h hst =>
    obtain ⟨-, hstep⟩ := tr_iff.mp h
    cases hstep with
    | serviceLoad h => exact ((MachinePC.status.inj hst).2).symm
  | thread h hst =>
    obtain ⟨-, hstep⟩ := tr_iff.mp h
    cases hstep with
    | threadLoad h => simpa using hst.symm

theorem Computes.key_eq (h : Computes p st s t) : t.keyPressedGlobal = s.keyPressedGlobal := by
  cases h with
  | inline h hst =>
    obtain ⟨-, hstep⟩ := tr_iff.mp h
    cases hstep
    rfl
  | thread h hst =>
    obtain ⟨-, hstep⟩ := tr_iff.mp h
    cases hstep
    rfl

/-- Only `ascii_read_thread` changes the key. -/
theorem lastStore_step (h : Step s e t) :
    t.keyPressedGlobal = lastStore s.keyPressedGlobal [e] := by
  cases h with
  | @timerSample p h hm => cases p <;> rfl
  | _ => rfl

theorem lastStore_run (h : atomic.MTr s es t) :
    t.keyPressedGlobal = lastStore s.keyPressedGlobal es := by
  induction h with
  | refl => rfl
  | @stepL s u t e es htr _ ih =>
    rw [ih, lastStore_step (tr_iff.mp htr).2]
    rfl

theorem switchKey_eq_iff : switchKey c = switchKey c' ↔ keyEvent c = keyEvent c' := by
  constructor
  · intro h
    simp only [switchKey] at h
    cases hc : keyEvent c with
    | none =>
      cases hc' : keyEvent c' with
      | none => rfl
      | some k' => cases k' <;> simp [hc, hc'] at h
    | some k =>
      cases hc' : keyEvent c' with
      | none => cases k <;> simp [hc, hc'] at h
      | some k' => cases k <;> cases k' <;> simp [hc, hc'] at h ⊢
  · intro h
    simp only [switchKey, h]

/-- Two services compute the same status exactly when no key that means something else is
the last one stored between their reads. -/
theorem status_eq_iff (hx : Computes p st s s') (hrun : atomic.MTr s' es t)
    (hy : Computes p st' t t') :
    st = st' ↔ keyEvent (lastStore s.keyPressedGlobal es) = keyEvent s.keyPressedGlobal := by
  rw [hx.status_eq, hy.status_eq, lastStore_run hrun, hx.key_eq, switchKey_eq_iff]
  exact eq_comm

/-- An `'x'` stored between the two reads changes neither status. -/
theorem status_eq_iff_unsupported : ∃ s s' t t' st st',
    atomic.MTr start [.timerLoad .unknow, .timerStore, .machineLoad .mv, .requestPost .mv] s ∧
    Computes .mv st s s' ∧
    atomic.MTr s' [.getchar (some 120), .keyStore 120, .requestWait .mv] t ∧
    Computes .mv st' t t' ∧ st = st' := by
  let s : State :=
    { start with
      stateSingleton := .mv
      request := Function.update start.request .mv 1
      machine := .service .mv }
  let s' : State := { s with machine := .status .mv .stayPut }
  let t : State :=
    { s' with
      keyPressedGlobal := 120
      request := Function.update s'.request .mv 0
      service := Function.update s'.service .mv .load }
  let t' : State := { t with service := Function.update t.service .mv (.status .stayPut) }
  have hstart : atomic.MTr start
      [.timerLoad .unknow, .timerStore, .machineLoad .mv, .requestPost .mv] s :=
    LTS.mTr_of_replay [.timer, .timer, .machine, .machine] rfl
  have hx : Computes .mv .stayPut s s' := .inline (c := 0) ⟨.machine, rfl⟩ rfl
  have hrun : atomic.MTr s' [.getchar (some 120), .keyStore 120, .requestWait .mv] t :=
    LTS.mTr_of_replay [.reader (some 120), .reader none, .thrMiliVolt] rfl
  have hy : Computes .mv .stayPut t t' := .thread (c := 120) ⟨.thrMiliVolt, rfl⟩ rfl
  exact ⟨s, s', t, t', _, _, hstart, hx, hrun, hy, (status_eq_iff hx hrun hy).mpr rfl⟩

/-- A left key stored between the inline read and the read of the woken thread. -/
theorem not_agree : ¬ ∀ es s, atomic.MTr start es s → Agree es := by
  intro h
  have hrun : atomic.MTr start _ _ := LTS.mTr_of_replay
    [.timer, .timer, .machine, .machine, .machine, .reader (some 97), .reader none,
      .thrMiliVolt, .thrMiliVolt] rfl
  have hagree := h _ _ hrun .mv 0 0 97 rfl rfl
  exact absurd hagree (by decide)

end LinuxTutorial.SemController
