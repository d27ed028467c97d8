import LinuxTutorial.PingPong.WithTimer
import Mathlib.Tactic.IntervalCases

/-!
# The runs of the ping-pong programs with timers

An expiry goes through four places until it is printed: the signal of its timer, the notifications
that have started, the semaphore, and the thread that has taken the permit. Nothing is lost or
made up on this way, and the two ways do not meet.
-/

namespace LinuxTutorial.PingPong.WithTimer

open Transition Posix Counting

variable {accepts : Int32 → Bool} {p : Program} {s t : State} {e : Event} {es : List Event}
  {u v : Task} {k : ℕ} {c : Call} {pc : ThreadPC}

/-- The number of calls that set up the attributes. -/
def Program.first (p : Program) : ℕ := p.attributes.length

/-- The order in which `main` serves the tasks. -/
def idx : Task → ℕ
  | .ping => 0
  | .pong => 1

theorem idx_ne (h : u ≠ v) : idx u ≠ idx v := by
  cases u <;> cases v <;> simp_all [idx]

theorem idx_le (u : Task) : idx u ≤ 1 := by
  cases u <;> simp [idx]

/-- The calls behind the attributes, up to the first join. -/
inductive CallAt (p : Program) : ℕ → Call → Prop
  | create (u : Task) : CallAt p (p.first + idx u) (.create u (p.arg u))
  | timerCreate (u : Task) : CallAt p (p.first + 2 + idx u) (.timerCreate u)
  | settime (u : Task) : CallAt p (p.first + 4 + idx u) (.settime u)
  | join : CallAt p (p.first + 6) (.join .ping)

theorem callAt_of_le (h : p.main[k]? = some c) (hfirst : p.first ≤ k) (hk : k ≤ p.first + 6) :
    CallAt p k c := by
  obtain ⟨j, rfl⟩ := Nat.exists_eq_add_of_le hfirst
  have hj : j ≤ 6 := by omega
  rw [Program.main, List.getElem?_append_right (by rw [Program.first]; omega)] at h
  rw [Program.first, Nat.add_sub_cancel_left] at h
  interval_cases j <;> obtain rfl := Option.some.inj h
  · exact .create .ping
  · exact .create .pong
  · exact .timerCreate .ping
  · exact .timerCreate .pong
  · exact .settime .ping
  · exact .settime .pong
  · exact .join

theorem CallAt.call (h : CallAt p k c) : p.main[k]? = some c := by
  cases h with
  | create u => cases p <;> cases u <;> rfl
  | timerCreate u => cases p <;> cases u <;> rfl
  | settime u => cases p <;> cases u <;> rfl
  | join => cases p <;> rfl

theorem getElem_attributes (h : p.main[k]? = some c) (hk : k < p.first) :
    p.attributes[k]? = some c := by
  rwa [Program.main, List.getElem?_append_left hk] at h

/-- What is not a call on the attributes comes behind them. -/
theorem callAt (h : p.main[k]? = some c) (hk : k ≤ p.first + 6) (hc : c ∉ p.attributes) :
    CallAt p k c := by
  refine callAt_of_le h ?_ hk
  by_contra hlt
  exact hc (List.mem_of_getElem? (getElem_attributes h (not_le.mp hlt)))

/-- Every call on the attributes succeeds, and in the end both have the default priority. -/
theorem attributes_run (accepts : Int32 → Bool) (p : Program) : ∃ a : Attrs,
    p.attributes.foldlM (Attrs.apply accepts) initial.attrs = some a ∧
      ∀ u, a.priority u = some 0 := by
  cases p
  · refine ⟨_, rfl, fun u => ?_⟩
    cases u <;> rfl
  · refine ⟨_, rfl, fun u => ?_⟩
    cases u <;> rfl

/-- A thread after so many calls of `main`. -/
inductive ThreadPC.At (p : Program) (u : Task) (k : ℕ) : ThreadPC → Prop
  | absent (h : k ≤ p.first + idx u) : At p u k .absent
  | wait {i : Int32} (h : p.first + idx u < k) (hi : 0 ≤ i.toInt) : At p u k (.wait (p.arg u) i)
  | print {i : Int32} (h : p.first + idx u < k) (hi : 0 ≤ i.toInt) :
      At p u k (.print (p.arg u) i)
  | overflow (h : p.first + idx u < k) : At p u k .overflow

/-- A timer after so many calls of `main`. -/
def Program.timerAt (p : Program) (u : Task) (k : ℕ) : Timer Unit :=
  if k ≤ p.first + 2 + idx u then .absent
  else if k ≤ p.first + 4 + idx u then .disarmed ()
  else .armed () (its u)

/-- Whether the thread has a permit that it has not printed. -/
def ThreadPC.printing : ThreadPC → ℕ
  | .print _ _ | .overflow => 1
  | .absent | .wait _ _ | .exited => 0

/-- The expiries that are on their way. -/
def State.outstanding (s : State) (u : Task) : ℕ :=
  (s.timer u).queued.toNat + s.handlers u + s.semaphores u + (s.thread u).printing

structure Invariant (accepts : Int32 → Bool) (p : Program) (s : State) : Prop where
  main_le : s.main ≤ p.first + 6
  attrs : (p.attributes.take s.main).foldlM (Attrs.apply accepts) initial.attrs = some s.attrs
  thread : ∀ u, (s.thread u).At p u s.main
  timer : ∀ u, (s.timer u).timer = p.timerAt u s.main
  quiet : ∀ u, s.main ≤ p.first + 4 + idx u → s.outstanding u = 0
  destroyed : ∀ u, s.destroyed u = false

/-- Whether an expiry of the timer has queued a signal. -/
def Event.queues (u : Task) : Event → Bool
  | .expire v b => v = u && b
  | _ => false

def Event.notifies (u : Task) : Event → Bool
  | .notify v => v = u
  | _ => false

def Event.posts (u : Task) : Event → Bool
  | .post v => v = u
  | _ => false

def Event.waits (u : Task) : Event → Bool
  | .wait v _ => v = u
  | _ => false

def Event.prints (u : Task) : Event → Bool
  | .print v _ => v = u
  | _ => false

/-- A step moves an expiry from one place to the next one. -/
structure Moves (u : Task) (s : State) (e : Event) (t : State) : Prop where
  signal : (e.notifies u).toNat + (t.timer u).queued.toNat =
    (s.timer u).queued.toNat + (e.queues u).toNat
  handler : (e.posts u).toNat + t.handlers u = s.handlers u + (e.notifies u).toNat
  semaphore : (e.waits u).toNat + t.semaphores u = s.semaphores u + (e.posts u).toNat
  thread : (e.prints u).toNat + (t.thread u).printing =
    (s.thread u).printing + (e.waits u).toNat

theorem Moves.outstanding (h : Moves u s e t) :
    (e.prints u).toNat + t.outstanding u = s.outstanding u + (e.queues u).toNat := by
  obtain ⟨hsignal, hhandler, hsemaphore, hthread⟩ := h
  simp only [State.outstanding]
  omega

/-- A thread has the semaphore of its own task. -/
theorem ThreadPC.At.semaphore {arg : Arg} {i : Int32} (h : pc.At p u k) (hpc : pc = .wait arg i) :
    p.semaphore u arg = some u := by
  cases h with
  | wait h hi =>
    obtain ⟨rfl, -⟩ := ThreadPC.wait.inj hpc
    cases p <;> rfl
  | absent h => simp at hpc
  | print h hi => simp at hpc
  | overflow h => simp at hpc

theorem moves_of_frame (hsignal : (t.timer u).queued = (s.timer u).queued)
    (hhandler : t.handlers u = s.handlers u) (hsemaphore : t.semaphores u = s.semaphores u)
    (hthread : (t.thread u).printing = (s.thread u).printing)
    (he : e.queues u = false ∧ e.notifies u = false ∧ e.posts u = false ∧ e.waits u = false ∧
      e.prints u = false) : Moves u s e t := by
  obtain ⟨hq, hn, hp, hw, hpr⟩ := he
  constructor
  · rw [hq, hn, hsignal]
    simp
  · rw [hn, hp, hhandler]
    simp
  · rw [hp, hw, hsemaphore]
    simp
  · rw [hw, hpr, hthread]
    simp

theorem not_exited (hs : Invariant accepts p s) (u : Task) : s.thread u ≠ .exited := by
  intro h
  have hu := hs.thread u
  rw [h] at hu
  cases hu

/-- Before its timer is set, nothing of a task is on its way. -/
theorem State.queued_of_outstanding (h : s.outstanding u = 0) : (s.timer u).queued = false := by
  cases hq : (s.timer u).queued with
  | false => rfl
  | true =>
    simp only [State.outstanding, hq, Bool.toNat_true] at h
    omega

theorem create_at (hs : Invariant accepts p s) {arg : Arg}
    (h : p.main[s.main]? = some (.create u arg)) :
    s.main = p.first + idx u ∧ arg = p.arg u ∧ s.thread u = .absent := by
  have hcall := callAt h hs.main_le (by cases p <;> simp [Program.attributes])
  generalize hk : s.main = k at hcall
  cases hcall
  refine ⟨rfl, rfl, ?_⟩
  have hu := hs.thread u
  rw [hk] at hu
  generalize s.thread u = pc at hu
  cases hu with
  | absent h => rfl
  | wait h hi => omega
  | print h hi => omega
  | overflow h => omega

theorem timerCreate_at (hs : Invariant accepts p s) (h : p.main[s.main]? = some (.timerCreate u)) :
    s.main = p.first + 2 + idx u := by
  have hcall := callAt h hs.main_le (by cases p <;> simp [Program.attributes])
  generalize s.main = k at hcall
  cases hcall
  rfl

theorem settime_at (hs : Invariant accepts p s) (h : p.main[s.main]? = some (.settime u)) :
    s.main = p.first + 4 + idx u := by
  have hcall := callAt h hs.main_le (by cases p <;> simp [Program.attributes])
  generalize s.main = k at hcall
  cases hcall
  rfl

theorem not_semDestroy (hs : Invariant accepts p s) : p.main[s.main]? ≠ some (.semDestroy u) := by
  intro h
  have hcall := callAt h hs.main_le (by cases p <;> simp [Program.attributes])
  generalize s.main = k at hcall
  cases hcall

/-- The calls on the attributes are made before the threads are there. -/
theorem attr_at (hs : Invariant accepts p s) {attrs : Attrs} (h : p.main[s.main]? = some c)
    (ha : s.attrs.apply accepts c = some attrs) :
    s.main < p.first ∧ p.attributes[s.main]? = some c := by
  have hlt : s.main < p.first := by
    by_contra hle
    have hcall := callAt_of_le h (not_lt.mp hle) hs.main_le
    generalize s.main = k at hcall
    cases hcall <;> simp [Attrs.apply] at ha
  exact ⟨hlt, getElem_attributes h hlt⟩

theorem moves_step (h : Step accepts p s e t) (hs : Invariant accepts p s) (u : Task) :
    Moves u s e t := by
  cases h with
  | attr hf h ha => exact moves_of_frame rfl rfl rfl rfl ⟨rfl, rfl, rfl, rfl, rfl⟩
  | @create v arg q hf h hq =>
    obtain ⟨-, -, habsent⟩ := create_at hs h
    refine moves_of_frame rfl rfl rfl ?_ ⟨rfl, rfl, rfl, rfl, rfl⟩
    by_cases huv : u = v
    · subst v
      simp [habsent, ThreadPC.printing]
    · simp [Function.update_of_ne huv]
  | @timerCreate v hf h =>
    have hmain := timerCreate_at hs h
    refine moves_of_frame ?_ rfl rfl rfl ⟨rfl, rfl, rfl, rfl, rfl⟩
    by_cases huv : u = v
    · subst v
      have hquiet := State.queued_of_outstanding (hs.quiet u (by omega))
      simp [hquiet]
    · simp [Function.update_of_ne huv]
  | @settime v hf h =>
    refine moves_of_frame ?_ rfl rfl rfl ⟨rfl, rfl, rfl, rfl, rfl⟩
    by_cases huv : u = v
    · subst v
      simp
    · simp [Function.update_of_ne huv]
  | join hf h hu => exact (not_exited hs _ hu).elim
  | semDestroy hf h => exact (not_semDestroy hs h).elim
  | @expire v b tm hf h =>
    obtain ⟨-, hq⟩ := TimerSignal.expire_queued h
    refine ⟨?_, by simp [Event.posts, Event.notifies], by simp [Event.waits, Event.posts],
      by simp [Event.prints, Event.waits]⟩
    by_cases huv : u = v
    · subst v
      simp [Event.notifies, Event.queues, hq]
    · simp [Event.notifies, Event.queues, Function.update_of_ne huv, Ne.symm huv]
  | @notify v tm hf h =>
    obtain ⟨hq, rfl⟩ := TimerSignal.deliver_eq_some h
    refine ⟨?_, ?_, by simp [Event.waits, Event.posts], by simp [Event.prints, Event.waits]⟩
    · by_cases huv : u = v
      · subst v
        simp [Event.notifies, Event.queues, hq]
      · simp [Event.notifies, Event.queues, Function.update_of_ne huv, Ne.symm huv]
    · by_cases huv : u = v
      · subst v
        simp [Event.posts, Event.notifies]
      · simp [Event.posts, Event.notifies, Function.update_of_ne huv, Ne.symm huv]
  | @post v handlers hf h =>
    have hwait := Semaphore.wait_apply h u
    have hpost := Semaphore.post_apply s.semaphores v u
    refine ⟨by simp [Event.notifies, Event.queues], ?_, ?_, by simp [Event.prints, Event.waits]⟩
    · simpa [Event.posts, Event.notifies] using hwait
    · simpa [Event.waits, Event.posts, timerHandler] using hpost
  | @wait v w arg i semaphores hf h hv hwait =>
    obtain rfl : v = w := Option.some.inj ((hs.thread v).semaphore h ▸ hv)
    have happly := Semaphore.wait_apply hwait u
    refine ⟨by simp [Event.notifies, Event.queues], by simp [Event.posts, Event.notifies], ?_, ?_⟩
    · simpa [Event.waits, Event.posts] using happly
    · by_cases huv : u = v
      · subst v
        simp [Event.prints, Event.waits, ThreadPC.printing, h]
      · simp [Event.prints, Event.waits, Function.update_of_ne huv, Ne.symm huv]
  | segv hf h hv => exact moves_of_frame rfl rfl rfl rfl ⟨rfl, rfl, rfl, rfl, rfl⟩
  | @print v arg i j hf h hj =>
    refine ⟨by simp [Event.notifies, Event.queues], by simp [Event.posts, Event.notifies],
      by simp [Event.waits, Event.posts], ?_⟩
    by_cases huv : u = v
    · subst v
      simp [Event.prints, Event.waits, ThreadPC.printing, h]
    · simp [Event.prints, Event.waits, Function.update_of_ne huv, Ne.symm huv]
  | @overflow v arg i hf h hj =>
    refine moves_of_frame rfl rfl rfl ?_ ⟨rfl, rfl, rfl, rfl, rfl⟩
    by_cases huv : u = v
    · subst v
      simp [ThreadPC.printing, h]
    · simp [Function.update_of_ne huv]

theorem armed_of_expire {tm : TimerSignal Unit} {b : Bool} (hs : Invariant accepts p s)
    (h : (s.timer u).expire = some (b, tm)) :
    p.first + 4 + idx u < s.main ∧ b = !(s.timer u).queued ∧
      tm = { s.timer u with queued := true } := by
  have htimer := hs.timer u
  have hlt : p.first + 4 + idx u < s.main := by
    by_contra hle
    rw [Program.timerAt] at htimer
    split at htimer
    · simp [TimerSignal.expire, htimer, Timer.expire] at h
    · simp [TimerSignal.expire, htimer, not_lt.mp hle, Timer.expire] at h
  have harmed : (s.timer u).timer = .armed () (its u) := by
    rw [htimer, Program.timerAt, if_neg (by omega), if_neg (by omega)]
  rw [TimerSignal.expire_of_interval harmed (by cases u <;> simp [its])] at h
  obtain ⟨rfl, rfl⟩ := Prod.mk.inj (Option.some.inj h)
  exact ⟨hlt, rfl, rfl⟩

theorem quiet_step (h : Step accepts p s e t) (hs : Invariant accepts p s) (u : Task)
    (hle : s.main ≤ p.first + 4 + idx u) : t.outstanding u = 0 := by
  have hmoves := (moves_step h hs u).outstanding
  have hquiet := hs.quiet u hle
  have hqueues : e.queues u = false := by
    cases h with
    | @expire v b tm hf h =>
      by_cases hvu : v = u
      · subst v
        have hlt := (armed_of_expire hs h).1
        omega
      · simp [Event.queues, hvu]
    | _ => rfl
  rw [hqueues, Bool.toNat_false] at hmoves
  omega

theorem ThreadPC.At.succ (h : pc.At p u k) (hk : k ≠ p.first + idx u) : pc.At p u (k + 1) := by
  cases h with
  | absent h => exact .absent (by omega)
  | wait h hi => exact .wait (by omega) hi
  | print h hi => exact .print (by omega) hi
  | overflow h => exact .overflow (by omega)

theorem Program.timerAt_succ (htwo : k ≠ p.first + 2 + idx u) (hfour : k ≠ p.first + 4 + idx u) :
    p.timerAt u (k + 1) = p.timerAt u k := by
  have htwo' : k + 1 ≤ p.first + 2 + idx u ↔ k ≤ p.first + 2 + idx u := by omega
  have hfour' : k + 1 ≤ p.first + 4 + idx u ↔ k ≤ p.first + 4 + idx u := by omega
  simp only [timerAt, htwo', hfour']

theorem at_update {thread : Task → ThreadPC} (h : ∀ u, (thread u).At p u k) (hv : pc.At p v k)
    (u : Task) : (Function.update thread v pc u).At p u k := by
  by_cases huv : u = v
  · subst v
    rwa [Function.update_self]
  · rw [Function.update_of_ne huv]
    exact h u

/-- What is left to show for a step, with the new position of `main` by name. -/
theorem Invariant.of_step (h : Step accepts p s e t) (hs : Invariant accepts p s)
    (hmain : t.main = k) (hk : s.main ≤ k ∧ k ≤ p.first + 6)
    (hattrs : (p.attributes.take k).foldlM (Attrs.apply accepts) initial.attrs = some t.attrs)
    (hthread : ∀ u, (t.thread u).At p u k) (htimer : ∀ u, (t.timer u).timer = p.timerAt u k)
    (hdestroyed : t.destroyed = s.destroyed) : Invariant accepts p t where
  main_le := hmain ▸ hk.2
  attrs := hmain ▸ hattrs
  thread u := hmain ▸ hthread u
  timer u := hmain ▸ htimer u
  quiet u hle := quiet_step h hs u (hk.1.trans (hmain ▸ hle))
  destroyed u := hdestroyed ▸ hs.destroyed u

/-- A step of the threads, the timers or the notifications. -/
theorem Invariant.frame (h : Step accepts p s e t) (hs : Invariant accepts p s)
    (hmain : t.main = s.main) (hattrs : t.attrs = s.attrs)
    (hthread : ∀ u, (t.thread u).At p u s.main)
    (htimer : ∀ u, (t.timer u).timer = (s.timer u).timer) (hdestroyed : t.destroyed = s.destroyed) :
    Invariant accepts p t :=
  .of_step h hs hmain ⟨le_rfl, hs.main_le⟩ (hattrs ▸ hs.attrs) hthread
    (fun u => (htimer u).trans (hs.timer u)) hdestroyed

/-- A call of `main` behind those on the attributes. -/
theorem Invariant.call (h : Step accepts p s e t) (hs : Invariant accepts p s)
    (hmain : t.main = s.main + 1) (hfirst : p.first ≤ s.main) (hlt : s.main < p.first + 6)
    (hattrs : t.attrs = s.attrs) (hthread : ∀ u, (t.thread u).At p u (s.main + 1))
    (htimer : ∀ u, (t.timer u).timer = p.timerAt u (s.main + 1))
    (hdestroyed : t.destroyed = s.destroyed) : Invariant accepts p t := by
  refine .of_step h hs hmain ⟨Nat.le_succ _, hlt⟩ ?_ hthread htimer hdestroyed
  have htake : p.attributes.take s.main = p.attributes := List.take_of_length_le hfirst
  rw [List.take_of_length_le (Nat.le_succ_of_le hfirst), hattrs, ← hs.attrs, htake]

theorem invariant_initial : Invariant accepts p initial where
  main_le := Nat.zero_le _
  attrs := by simp [initial]
  thread u := .absent (Nat.zero_le _)
  timer u := by simp [initial, Program.timerAt]
  quiet u _ := rfl
  destroyed u := rfl

theorem invariant_attr {attrs : Attrs} (hs : Invariant accepts p s) (hf : s.fault = false)
    (h : p.main[s.main]? = some c) (ha : s.attrs.apply accepts c = some attrs) :
    Invariant accepts p { s with main := s.main + 1, attrs := attrs } := by
  obtain ⟨hlt, hcall⟩ := attr_at hs h ha
  refine .of_step (k := s.main + 1) (.attr hf h ha) hs rfl ⟨Nat.le_succ _, by omega⟩ ?_
    (fun u => (hs.thread u).succ (by omega)) (fun u => ?_) rfl
  · rw [List.take_add_one, hcall, List.foldlM_append, hs.attrs]
    simpa using ha
  · rw [Program.timerAt_succ (by omega) (by omega)]
    exact hs.timer u

theorem invariant_create {arg : Arg} {q : Int32} (hs : Invariant accepts p s)
    (hf : s.fault = false) (h : p.main[s.main]? = some (.create v arg))
    (hq : s.attrs.priority v = some q) :
    Invariant accepts p
      { s with main := s.main + 1, thread := Function.update s.thread v (.wait arg 0) } := by
  obtain ⟨hmain, rfl, -⟩ := create_at hs h
  have hv := idx_le v
  refine .call (.create hf h hq) hs rfl (by omega) (by omega) rfl (fun u => ?_) (fun u => ?_) rfl
  · by_cases huv : u = v
    · subst v
      simp only [Function.update_self]
      exact .wait (by omega) (by decide)
    · have hne := idx_ne huv
      simp only [Function.update_of_ne huv]
      exact (hs.thread u).succ (by omega)
  · rw [Program.timerAt_succ (by omega) (by omega)]
    exact hs.timer u

/-- `timer_create` and `timer_settime`. -/
theorem invariant_timer {tm : TimerSignal Unit} (hs : Invariant accepts p s)
    (h : Step accepts p s e
      { s with main := s.main + 1, timer := Function.update s.timer v tm })
    (hmain : s.main = p.first + 2 + idx v ∨ s.main = p.first + 4 + idx v)
    (htm : tm.timer = p.timerAt v (s.main + 1)) :
    Invariant accepts p
      { s with main := s.main + 1, timer := Function.update s.timer v tm } := by
  have hv := idx_le v
  refine .call h hs rfl (by omega) (by omega) rfl (fun u => ?_) (fun u => ?_) rfl
  · have hu := idx_le u
    exact (hs.thread u).succ (by omega)
  · by_cases huv : u = v
    · subst v
      simp only [Function.update_self]
      exact htm
    · have hne := idx_ne huv
      have hu := idx_le u
      simp only [Function.update_of_ne huv]
      rw [Program.timerAt_succ (by omega) (by omega)]
      exact hs.timer u

theorem invariant_step (h : Step accepts p s e t) (hs : Invariant accepts p s) :
    Invariant accepts p t := by
  have hstep := h
  cases h with
  | attr hf h ha => exact invariant_attr hs hf h ha
  | create hf h hq => exact invariant_create hs hf h hq
  | @timerCreate v hf h =>
    have hmain := timerCreate_at hs h
    refine invariant_timer hs hstep (Or.inl hmain) ?_
    rw [Program.timerAt, if_neg (by omega), if_pos (by omega)]
  | @settime v hf h =>
    have hmain := settime_at hs h
    have hdisarmed : (s.timer v).timer = .disarmed () := by
      rw [hs.timer v, Program.timerAt, if_neg (by omega), if_pos (by omega)]
    refine invariant_timer hs hstep (Or.inr hmain) ?_
    rw [Program.timerAt, if_neg (by omega), if_neg (by omega), hdisarmed]
    cases v <;> rfl
  | join hf h hu => exact (not_exited hs _ hu).elim
  | semDestroy hf h => exact (not_semDestroy hs h).elim
  | @expire v b tm hf h =>
    obtain ⟨-, -, rfl⟩ := armed_of_expire hs h
    refine hs.frame hstep rfl rfl hs.thread (fun u => ?_) rfl
    by_cases huv : u = v
    · subst v
      simp
    · simp [Function.update_of_ne huv]
  | @notify v tm hf h =>
    obtain ⟨-, rfl⟩ := TimerSignal.deliver_eq_some h
    refine hs.frame hstep rfl rfl hs.thread (fun u => ?_) rfl
    by_cases huv : u = v
    · subst v
      simp
    · simp [Function.update_of_ne huv]
  | post hf h => exact hs.frame hstep rfl rfl hs.thread (fun _ => rfl) rfl
  | @wait v w arg i semaphores hf h hv hwait =>
    refine hs.frame hstep rfl rfl (at_update hs.thread ?_) (fun _ => rfl) rfl
    have hat := hs.thread v
    rw [h] at hat
    cases hat with
    | wait hk hi => exact .print hk hi
  | segv hf h hv => exact hs.frame hstep rfl rfl hs.thread (fun _ => rfl) rfl
  | @print v arg i j hf h hj =>
    refine hs.frame hstep rfl rfl (at_update hs.thread ?_) (fun _ => rfl) rfl
    have hat := hs.thread v
    have hsucc := increment_eq_some hj
    rw [h] at hat
    cases hat with
    | print hk hi => exact .wait hk (by omega)
  | @overflow v arg i hf h hj =>
    refine hs.frame hstep rfl rfl (at_update hs.thread ?_) (fun _ => rfl) rfl
    have hat := hs.thread v
    rw [h] at hat
    cases hat with
    | print hk hi => exact .overflow hk

theorem invariant_run (h : (system accepts p).MTr initial es s) : Invariant accepts p s :=
  h.invariant invariant_initial fun _ _ _ hs htr => invariant_step (tr_iff.mp htr) hs

/-- What is expected of the events: the default priority, and no semaphore but the own one. -/
def Event.Sound : Event → Prop
  | .create _ q => q = 0
  | .wait u v => v = u
  | .segv _ => False
  | _ => True

/-- Whatever priorities the policy accepts, the threads are created with the default one. -/
theorem Invariant.priority (hs : Invariant accepts p s) (hfirst : p.first ≤ s.main) (u : Task) :
    s.attrs.priority u = some 0 := by
  obtain ⟨a, ha, hzero⟩ := attributes_run accepts p
  have hattrs := hs.attrs
  rw [List.take_of_length_le hfirst, ha] at hattrs
  obtain rfl := Option.some.inj hattrs
  exact hzero u

theorem sound_step (h : Step accepts p s e t) (hs : Invariant accepts p s) : e.Sound := by
  cases h with
  | @create v arg q hf h hq =>
    obtain ⟨hmain, -, -⟩ := create_at hs h
    exact Option.some.inj (hq.symm.trans (hs.priority (by omega) v))
  | @wait v w arg i semaphores hf h hv hwait =>
    exact (Option.some.inj ((hs.thread v).semaphore h ▸ hv)).symm
  | @segv v arg i hf h hv => simp [(hs.thread v).semaphore h] at hv
  | _ => trivial

theorem sound_run (h : (system accepts p).MTr initial es s) : ∀ e ∈ es, e.Sound := by
  have hboth := h.history (P := fun es s => Invariant accepts p s ∧ ∀ e ∈ es, e.Sound)
    ⟨invariant_initial, by simp⟩ ?_
  · exact hboth.2
  · rintro es s e t ⟨hs, hsound⟩ htr
    have hstep := tr_iff.mp htr
    refine ⟨invariant_step hstep hs, fun d hd => ?_⟩
    rcases List.mem_append.mp hd with hd | hd
    · exact hsound d hd
    · rw [List.mem_singleton.mp hd]
      exact sound_step hstep hs

/-- The counter of a thread. One that has overflowed was at `INT_MAX`. -/
def ThreadPC.counter : ThreadPC → Int32
  | .wait _ i | .print _ i => i
  | .overflow => Int32.maxValue
  | .absent | .exited => 0

def Event.printed? (u : Task) : Event → Option Int32
  | .print v i => if v = u then some i else none
  | _ => none

/-- The numbers that a thread has printed. -/
def printedBy (u : Task) (es : List Event) : List Int32 := es.filterMap (Event.printed? u)

theorem printedBy_snoc (es : List Event) (e : Event) :
    printedBy u (es ++ [e]) = printedBy u es ++ (e.printed? u).toList := by
  cases h : e.printed? u <;> simp [printedBy, h]

theorem isSome_printed (u : Task) (e : Event) : (e.printed? u).isSome = e.prints u := by
  cases e with
  | print v i => by_cases hv : v = u <;> simp [Event.printed?, Event.prints, hv]
  | _ => rfl

theorem length_printedBy (es : List Event) :
    (printedBy u es).length = es.countP (Event.prints u) := by
  rw [printedBy, List.length_filterMap_eq_countP]
  exact List.countP_congr fun e _ => by rw [isSome_printed]

theorem ThreadPC.At.counter_nonneg (h : pc.At p u k) : 0 ≤ pc.counter.toInt := by
  cases h with
  | absent h => decide
  | wait h hi => exact hi
  | print h hi => exact hi
  | overflow h => decide

theorem increment_eq_none {i : Int32} (h : increment i = none) : i = Int32.maxValue := by
  by_contra hne
  simp [increment_of_ne hne] at h

/-- A thread counts what it prints. -/
theorem counted_step (h : Step accepts p s e t) (hs : Invariant accepts p s)
    (hu : printedBy u es = upTo (s.thread u).counter) :
    printedBy u (es ++ [e]) = upTo (t.thread u).counter := by
  rw [printedBy_snoc, hu]
  cases h with
  | @create v arg q hf h hq =>
    obtain ⟨-, -, habsent⟩ := create_at hs h
    by_cases huv : u = v
    · subst v
      simp [Event.printed?, ThreadPC.counter, habsent]
    · simp [Event.printed?, Function.update_of_ne huv]
  | @wait v w arg i semaphores hf h hv hwait =>
    by_cases huv : u = v
    · subst v
      simp [Event.printed?, ThreadPC.counter, h]
    · simp [Event.printed?, Function.update_of_ne huv]
  | @print v arg i j hf h hj =>
    by_cases huv : u = v
    · subst v
      have hi := (hs.thread u).counter_nonneg
      rw [h] at hi
      simp only [Event.printed?, if_true, Option.toList_some, Function.update_self, h,
        ThreadPC.counter]
      exact (upTo_increment hi hj).symm
    · simp [Event.printed?, Function.update_of_ne huv, Ne.symm huv]
  | @overflow v arg i hf h hj =>
    by_cases huv : u = v
    · subst v
      simp [Event.printed?, ThreadPC.counter, h, increment_eq_none hj]
    · simp [Event.printed?, Function.update_of_ne huv]
  | _ => simp [Event.printed?]

theorem counted_run (h : (system accepts p).MTr initial es s) (u : Task) :
    printedBy u es = upTo (s.thread u).counter := by
  have hboth := h.history
    (P := fun es s => Invariant accepts p s ∧ printedBy u es = upTo (s.thread u).counter)
    ⟨invariant_initial, rfl⟩ ?_
  · exact hboth.2
  · rintro es s e t ⟨hs, hu⟩ htr
    exact ⟨invariant_step (tr_iff.mp htr) hs, counted_step (tr_iff.mp htr) hs hu⟩

/-- Nothing moves a thread whose counter has overflowed. -/
theorem overflow_stays (h : Step accepts p s e t) (hs : Invariant accepts p s)
    (hu : s.thread u = .overflow) : t.thread u = .overflow := by
  cases h with
  | @create v arg q hf h hq =>
    obtain ⟨-, -, habsent⟩ := create_at hs h
    have huv : u ≠ v := by
      rintro rfl
      simp [hu] at habsent
    simpa [Function.update_of_ne huv] using hu
  | @wait v w arg i semaphores hf h hv hwait =>
    have huv : u ≠ v := by
      rintro rfl
      simp [hu] at h
    simpa [Function.update_of_ne huv] using hu
  | @print v arg i j hf h hj =>
    have huv : u ≠ v := by
      rintro rfl
      simp [hu] at h
    simpa [Function.update_of_ne huv] using hu
  | @overflow v arg i hf h hj =>
    by_cases huv : u = v
    · subst v
      simp
    · simpa [Function.update_of_ne huv] using hu
  | _ => exact hu

theorem overflow_run (h : (system accepts p).MTr initial es s) (hu : .overflow u ∈ es) :
    s.thread u = .overflow := by
  have hboth := h.history (P := fun es s => Invariant accepts p s ∧
    (.overflow u ∈ es → s.thread u = .overflow)) ⟨invariant_initial, by simp⟩ ?_
  · exact hboth.2 hu
  · rintro es s e t ⟨hs, hthread⟩ htr
    have hstep := tr_iff.mp htr
    refine ⟨invariant_step hstep hs, fun hmem => ?_⟩
    rcases List.mem_append.mp hmem with hmem | hmem
    · exact overflow_stays hstep hs (hthread hmem)
    · obtain rfl := List.mem_singleton.mp hmem
      cases hstep with
      | overflow hf h hj => simp

/-- What holds along every run. Each expiry of a timer that queues a signal is notified, posted,
waited for and printed once and by its own task, and the numbers come in order. An expiry that
finds a signal queued is an overrun and is not passed on. -/
structure Delivered (p : Program) (es : List Event) (s : State) : Prop where
  notified : ∀ u, es.countP (Event.notifies u) + (s.timer u).queued.toNat =
    es.countP (Event.queues u)
  posted : ∀ u, es.countP (Event.posts u) + s.handlers u = es.countP (Event.notifies u)
  waited : ∀ u, es.countP (Event.waits u) + s.semaphores u = es.countP (Event.posts u)
  printed : ∀ u, es.countP (Event.prints u) + (s.thread u).printing = es.countP (Event.waits u)
  counted : ∀ u, printedBy u es =
    (List.range (es.countP (Event.prints u))).map fun k => Int32.ofNat (k + 1)
  bounded : ∀ u, es.countP (Event.prints u) < 2 ^ 31
  overflow : ∀ u, .overflow u ∈ es → es.countP (Event.prints u) = 2 ^ 31 - 1
  sound : ∀ e ∈ es, e.Sound
  main : s.main ≤ p.first + 6 ∧ ∀ u, s.destroyed u = false

theorem countP_eq (h : (system accepts p).MTr initial es s) (out into : Event → Bool)
    (value : State → ℕ) (h0 : value initial = 0)
    (hstep : ∀ s e t, Step accepts p s e t → Invariant accepts p s →
      (out e).toNat + value t = value s + (into e).toNat) :
    es.countP out + value s = es.countP into := by
  have hcount := h.countP_add_eq out into value invariant_initial
    (fun _ _ _ hs htr => invariant_step (tr_iff.mp htr) hs)
    fun s e t hs htr => hstep s e t (tr_iff.mp htr) hs
  omega

theorem prints_eq_counter (h : (system accepts p).MTr initial es s) (u : Task) :
    es.countP (Event.prints u) = (s.thread u).counter.toInt.toNat := by
  rw [← length_printedBy, counted_run h u, upTo, List.length_map, List.length_range]

/-- Both programs print what the timers tell them to, and `main` never gets past its first join. -/
theorem delivered_run (h : (system accepts p).MTr initial es s) : Delivered p es s where
  notified u := countP_eq h _ _ (fun s => (s.timer u).queued.toNat) rfl
    fun _ _ _ hstep hs => (moves_step hstep hs u).signal
  posted u := countP_eq h _ _ (fun s => s.handlers u) rfl
    fun _ _ _ hstep hs => (moves_step hstep hs u).handler
  waited u := countP_eq h _ _ (fun s => s.semaphores u) rfl
    fun _ _ _ hstep hs => (moves_step hstep hs u).semaphore
  printed u := countP_eq h _ _ (fun s => (s.thread u).printing) rfl
    fun _ _ _ hstep hs => (moves_step hstep hs u).thread
  counted u := by rw [prints_eq_counter h u, counted_run h u, upTo]
  bounded u := by
    have hmax := (s.thread u).counter.toInt_le
    rw [Int32.toInt_maxValue] at hmax
    rw [prints_eq_counter h u]
    omega
  overflow u hu := by
    rw [prints_eq_counter h u, overflow_run h hu]
    rfl
  sound := sound_run h
  main := ⟨(invariant_run h).main_le, (invariant_run h).destroyed⟩

/-- The first expiry of the ping timer is printed. -/
theorem delivered_run_first : ∃ es s,
    (system (fun _ => false) .semArg).MTr initial es s ∧ .print .ping 1 ∈ es ∧
      Delivered .semArg es s := by
  have h : (system (fun _ => false) .semArg).MTr initial _ _ := LTS.mTr_of_replay
    (List.replicate 16 .main ++
      [.timer .ping, .signal .ping, .handler .ping, .thread .ping, .thread .ping]) rfl
  exact ⟨_, _, h, by decide, delivered_run h⟩

end LinuxTutorial.PingPong.WithTimer
