import LinuxTutorial.Posix.Timer
import LinuxTutorial.Transition.Semaphore
import LinuxTutorial.Transition.Trace
import Mathlib.Data.Fin.VecNotation
import Mathlib.Tactic.FinCases

/-!
# `chatGPT_3Threads_withTimers.c`

Three timers post the semaphores of three threads. Every call of `main` succeeds, `sem_init`
has set the semaphores to zero, and a signal runs its handler without ending a `sem_wait`.
-/

namespace LinuxTutorial.ThreeThreads.Timers

open Transition Posix

/-- What `main` passes to `timer_settime`. -/
def its (k : Fin 3) : Itimerspec where
  valueSec := ![1, 2, 5] k
  valueNsec := 0
  intervalSec := 0
  intervalNsec := 0

/-- A timer with the value that it passes to `timer_handler`. -/
abbrev Timer := Posix.Timer (Fin 3)

/-- The calls of `main` in their order. -/
inductive MainPC
  | pthreadCreate (i : Fin 3)
  | createTimer (i : Fin 3)
  | sigaction
  | settime (i : Fin 3)
  | join (i : Fin 3)
  | destroy (i : Fin 3)
  | returned
  deriving DecidableEq, Repr

/-- The call of the next index, or the one after the last index. -/
def MainPC.after (f : Fin 3 → MainPC) (i : Fin 3) (last : MainPC) : MainPC :=
  if h : i.val + 1 < 3 then f ⟨i.val + 1, h⟩ else last

def MainPC.next : MainPC → MainPC
  | .pthreadCreate i => after .pthreadCreate i (.createTimer 0)
  | .createTimer i => after .createTimer i .sigaction
  | .sigaction => .settime 0
  | .settime i => after .settime i (.join 0)
  | .join i => after .join i (.destroy 0)
  | .destroy i => after .destroy i .returned
  | .returned => .returned

/-- Where a thread is: not created, at its loop test, at `sem_wait`, or finished. -/
inductive ThreadPC
  | absent
  | loop (i : ℕ)
  | wait (i : ℕ)
  | exited
  deriving DecidableEq, Repr

structure State where
  main : MainPC
  thread : Fin 3 → ThreadPC
  timer : Fin 3 → Timer
  semaphores : Fin 3 → ℕ
  destroyed : Fin 3 → Bool

def initial : State where
  main := .pthreadCreate 0
  thread _ := .absent
  timer _ := .absent
  semaphores _ := 0
  destroyed _ := false

inductive Action
  | main
  | timer (k : Fin 3)
  | thread (k : Fin 3)

/-- An expiry carries the timer and the semaphore that its handler posts. -/
inductive Event
  | main
  | expire (k j : Fin 3)
  | test (k : Fin 3)
  | semWait (k : Fin 3)
  deriving DecidableEq, Repr

/-- The handler posts the semaphore that the value of the signal selects. -/
def timerHandler (sivalInt : Fin 3) (s : State) : State :=
  { s with semaphores := Semaphore.post s.semaphores sivalInt }

def createTimer (timerId : Fin 3) : Timer := .disarmed timerId

def mainNext (s : State) : Option State :=
  let t := { s with main := s.main.next }
  match s.main with
  | .pthreadCreate i => some { t with thread := Function.update s.thread i (.loop 0) }
  | .createTimer i => some { t with timer := Function.update s.timer i (createTimer i) }
  | .sigaction => some t
  | .settime i =>
    some { t with timer := Function.update s.timer i ((s.timer i).settime (its i)) }
  | .join i => if s.thread i = .exited then some t else none
  | .destroy i => some { t with destroyed := Function.update s.destroyed i true }
  | .returned => none

def threadFunction (k : Fin 3) (s : State) : Option (Event × State) :=
  match s.thread k with
  | .loop i =>
    some (.test k,
      { s with thread := Function.update s.thread k (if i < 5 then .wait i else .exited) })
  | .wait i =>
    (Semaphore.wait s.semaphores k).map fun semaphores =>
      (.semWait k,
        { s with
          thread := Function.update s.thread k (.loop (i + 1)), semaphores := semaphores })
  | .absent | .exited => none

/-- The process ends when `main` returns. -/
def next (a : Action) (s : State) : Option (Event × State) :=
  if s.main = .returned then none
  else
    match a with
    | .main => (mainNext s).map fun t => (.main, t)
    | .timer k =>
      (s.timer k).expire.map fun r =>
        (.expire k r.1, timerHandler r.1 { s with timer := Function.update s.timer k r.2 })
    | .thread k => threadFunction k s

/-- `main`, the timers and the threads. -/
def system : LTS State Event := .ofNext next

/-- The steps of `main`, of the timers and of the threads. -/
inductive Step : State → Event → State → Prop
  | pthreadCreate {s : State} {i : Fin 3} (h : s.main = .pthreadCreate i) :
      Step s .main
        { s with main := s.main.next, thread := Function.update s.thread i (.loop 0) }
  | createTimer {s : State} {i : Fin 3} (h : s.main = .createTimer i) :
      Step s .main
        { s with main := s.main.next, timer := Function.update s.timer i (createTimer i) }
  | sigaction {s : State} (h : s.main = .sigaction) : Step s .main { s with main := s.main.next }
  | settime {s : State} {i : Fin 3} (h : s.main = .settime i) :
      Step s .main
        { s with
          main := s.main.next
          timer := Function.update s.timer i ((s.timer i).settime (its i)) }
  | join {s : State} {i : Fin 3} (h : s.main = .join i) (hi : s.thread i = .exited) :
      Step s .main { s with main := s.main.next }
  | destroy {s : State} {i : Fin 3} (h : s.main = .destroy i) :
      Step s .main
        { s with main := s.main.next, destroyed := Function.update s.destroyed i true }
  | expire {s : State} {k v : Fin 3} {tm : Timer} (hrun : s.main ≠ .returned)
      (h : (s.timer k).expire = some (v, tm)) :
      Step s (.expire k v) (timerHandler v { s with timer := Function.update s.timer k tm })
  | test {s : State} {k : Fin 3} {i : ℕ} (hrun : s.main ≠ .returned) (h : s.thread k = .loop i) :
      Step s (.test k)
        { s with thread := Function.update s.thread k (if i < 5 then .wait i else .exited) }
  | semWait {s : State} {k : Fin 3} {i : ℕ} {semaphores : Fin 3 → ℕ}
      (hrun : s.main ≠ .returned) (h : s.thread k = .wait i)
      (hwait : Semaphore.wait s.semaphores k = some semaphores) :
      Step s (.semWait k)
        { s with
          thread := Function.update s.thread k (.loop (i + 1)), semaphores := semaphores }

variable {s t : State} {e : Event} {es : List Event} {k : Fin 3}

theorem step_main (h : mainNext s = some t) : Step s .main t := by
  cases hpc : s.main with
  | pthreadCreate i =>
    simp only [mainNext, hpc, Option.some.injEq] at h
    subst h
    simpa only [hpc] using Step.pthreadCreate hpc
  | createTimer i =>
    simp only [mainNext, hpc, Option.some.injEq] at h
    subst h
    simpa only [hpc] using Step.createTimer hpc
  | sigaction =>
    simp only [mainNext, hpc, Option.some.injEq] at h
    subst h
    simpa only [hpc] using Step.sigaction hpc
  | settime i =>
    simp only [mainNext, hpc, Option.some.injEq] at h
    subst h
    simpa only [hpc] using Step.settime hpc
  | join i =>
    simp only [mainNext, hpc, Option.ite_none_right_eq_some, Option.some.injEq] at h
    obtain ⟨hi, rfl⟩ := h
    simpa only [hpc] using Step.join hpc hi
  | destroy i =>
    simp only [mainNext, hpc, Option.some.injEq] at h
    subst h
    simpa only [hpc] using Step.destroy hpc
  | returned => simp [mainNext, hpc] at h

theorem step_thread (hrun : s.main ≠ .returned) (h : threadFunction k s = some (e, t)) :
    Step s e t := by
  cases hpc : s.thread k with
  | loop i =>
    simp only [threadFunction, hpc, Option.some.injEq, Prod.mk.injEq] at h
    obtain ⟨rfl, rfl⟩ := h
    exact .test hrun hpc
  | wait i =>
    simp only [threadFunction, hpc, Option.map_eq_some_iff, Prod.mk.injEq] at h
    obtain ⟨semaphores, hwait, rfl, rfl⟩ := h
    exact .semWait hrun hpc hwait
  | absent => simp [threadFunction, hpc] at h
  | exited => simp [threadFunction, hpc] at h

theorem tr_iff : system.Tr s e t ↔ Step s e t := by
  constructor
  · rintro ⟨a, h⟩
    simp only [next, Option.ite_none_left_eq_some] at h
    obtain ⟨hrun, h⟩ := h
    cases a with
    | main =>
      simp only [Option.map_eq_some_iff, Prod.mk.injEq] at h
      obtain ⟨u, hmain, rfl, rfl⟩ := h
      exact step_main hmain
    | timer k =>
      simp only [Option.map_eq_some_iff, Prod.mk.injEq] at h
      obtain ⟨⟨v, tm⟩, hexpire, rfl, rfl⟩ := h
      exact .expire hrun hexpire
    | thread k => exact step_thread hrun h
  · intro h
    cases h with
    | pthreadCreate h => exact ⟨.main, by simp [next, mainNext, h]⟩
    | createTimer h => exact ⟨.main, by simp [next, mainNext, h]⟩
    | sigaction h => exact ⟨.main, by simp [next, mainNext, h]⟩
    | settime h => exact ⟨.main, by simp [next, mainNext, h]⟩
    | join h hi => exact ⟨.main, by simp [next, mainNext, h, hi]⟩
    | destroy h => exact ⟨.main, by simp [next, mainNext, h]⟩
    | @expire k v tm hrun h => exact ⟨.timer k, by simp [next, hrun, h]⟩
    | @test k i hrun h => exact ⟨.thread k, by simp [next, threadFunction, hrun, h]⟩
    | @semWait k i semaphores hrun h hwait =>
      exact ⟨.thread k, by simp [next, threadFunction, hrun, h, hwait]⟩

/-- The number of calls that `main` has made. -/
def MainPC.rank : MainPC → ℕ
  | .pthreadCreate i => i
  | .createTimer i => 3 + i
  | .sigaction => 6
  | .settime i => 7 + i
  | .join i => 10 + i
  | .destroy i => 13 + i
  | .returned => 16

theorem MainPC.rank_next {pc : MainPC} (h : pc ≠ .returned) : pc.next.rank = pc.rank + 1 := by
  cases pc with
  | pthreadCreate i => fin_cases i <;> rfl
  | createTimer i => fin_cases i <;> rfl
  | sigaction => rfl
  | settime i => fin_cases i <;> rfl
  | join i => fin_cases i <;> rfl
  | destroy i => fin_cases i <;> rfl
  | returned => exact (h rfl).elim

/-- Timer `k` after so many calls of `main`: it carries its own index, and it is armed once. -/
inductive Timer.At (rank : ℕ) (k : Fin 3) : Timer → Prop
  | absent (h : rank ≤ 3 + k) : At rank k .absent
  | created (h : 3 + k < rank) (h' : rank ≤ 7 + k) : At rank k (.disarmed k)
  | armed (h : 7 + k < rank) : At rank k (.armed k (its k))
  | spent (h : 7 + k < rank) : At rank k (.disarmed k)

/-- Thread `k` after so many calls of `main`. -/
inductive ThreadPC.At (rank : ℕ) (k : Fin 3) : ThreadPC → Prop
  | absent (h : rank ≤ k) : At rank k .absent
  | loop {i : ℕ} (h : k < rank) (hi : i ≤ 5) : At rank k (.loop i)
  | wait {i : ℕ} (h : k < rank) (hi : i < 5) : At rank k (.wait i)
  | exited (h : k < rank) : At rank k .exited

structure Invariant (s : State) : Prop where
  timer : ∀ k, (s.timer k).At s.main.rank k
  thread : ∀ k, (s.thread k).At s.main.rank k
  joined : ∀ k : Fin 3, 10 + k < s.main.rank → s.thread k = .exited

theorem Timer.At.succ {rank : ℕ} {tm : Timer} (h : tm.At rank k) (h3 : rank ≠ 3 + k)
    (h7 : rank ≠ 7 + k) : tm.At (rank + 1) k := by
  cases h with
  | absent h => exact .absent (by omega)
  | created h h' => exact .created (by omega) (by omega)
  | armed h => exact .armed (by omega)
  | spent h => exact .spent (by omega)

theorem ThreadPC.At.succ {rank : ℕ} {pc : ThreadPC} (h : pc.At rank k) (hk : rank ≠ k) :
    pc.At (rank + 1) k := by
  cases h with
  | absent h => exact .absent (by omega)
  | loop h hi => exact .loop (by omega) hi
  | wait h hi => exact .wait (by omega) hi
  | exited h => exact .exited (by omega)

/-- A timer that expires is armed with its own index, and an interval of zero disarms it. -/
theorem Timer.At.expire_eq {rank : ℕ} {tm tm' : Timer} {v : Fin 3} (h : tm.At rank k)
    (he : tm.expire = some (v, tm')) :
    v = k ∧ tm = .armed k (its k) ∧ tm' = .disarmed k ∧ 7 + k < rank := by
  cases h with
  | absent => simp [Timer.expire] at he
  | created => simp [Timer.expire] at he
  | spent => simp [Timer.expire] at he
  | armed h =>
    simp only [Timer.expire, its, and_self, if_true, Option.some.injEq, Prod.mk.injEq] at he
    exact ⟨he.1.symm, rfl, he.2.symm, h⟩

theorem Timer.At.settime_eq {tm : Timer} (h : tm.At (7 + k) k) :
    tm.settime (its k) = .armed k (its k) := by
  cases h with
  | absent h => omega
  | created h h' => fin_cases k <;> rfl
  | armed h => omega
  | spent h => omega

theorem timer_update {rank : ℕ} {timer : Fin 3 → Timer} {i : Fin 3} {tm : Timer}
    (h : ∀ k, (timer k).At rank k) (hi : tm.At (rank + 1) i)
    (hrank : rank = 3 + i ∨ rank = 7 + i) (k : Fin 3) :
    (Function.update timer i tm k).At (rank + 1) k := by
  by_cases hk : k = i
  · subst k
    rw [Function.update_self]
    exact hi
  · have hne := Fin.val_ne_of_ne hk
    rw [Function.update_of_ne hk]
    apply (h k).succ <;> omega

theorem thread_update {rank : ℕ} {thread : Fin 3 → ThreadPC} {i : Fin 3} {pc : ThreadPC}
    (h : ∀ k, (thread k).At rank k) (hi : pc.At rank i) (k : Fin 3) :
    (Function.update thread i pc k).At rank k := by
  by_cases hk : k = i
  · subst k
    rw [Function.update_self]
    exact hi
  · rw [Function.update_of_ne hk]
    exact h k

/-- The threads that `main` has joined take no step. -/
theorem joined_update {rank : ℕ} {thread : Fin 3 → ThreadPC} {i : Fin 3} {pc : ThreadPC}
    (h : ∀ k : Fin 3, 10 + k < rank → thread k = .exited) (hi : thread i ≠ .exited)
    (k : Fin 3) (hk : 10 + k < rank) : Function.update thread i pc k = .exited := by
  have hki : k ≠ i := by
    rintro rfl
    exact hi (h k hk)
  rw [Function.update_of_ne hki]
  exact h k hk

theorem invariant_step (h : Step s e t) (hs : Invariant s) : Invariant t := by
  obtain ⟨htimer, hthread, hjoined⟩ := hs
  cases h with
  | @pthreadCreate i h =>
    have hnext : s.main.next.rank = s.main.rank + 1 := MainPC.rank_next (by simp [h])
    have hrank : s.main.rank = i := by rw [h]; rfl
    constructor <;> intro k <;> simp only [hnext]
    · apply (htimer k).succ <;> omega
    · by_cases hk : k = i
      · subst k
        rw [Function.update_self]
        exact .loop (by omega) (by decide)
      · have hne := Fin.val_ne_of_ne hk
        rw [Function.update_of_ne hk]
        exact (hthread k).succ (by omega)
    · intro hk
      omega
  | @createTimer i h =>
    have hnext : s.main.next.rank = s.main.rank + 1 := MainPC.rank_next (by simp [h])
    have hrank : s.main.rank = 3 + i := by rw [h]; rfl
    constructor <;> intro k <;> simp only [hnext]
    · exact timer_update htimer (.created (by omega) (by omega)) (Or.inl hrank) k
    · exact (hthread k).succ (by omega)
    · intro hk
      omega
  | sigaction h =>
    have hnext : s.main.next.rank = s.main.rank + 1 := MainPC.rank_next (by simp [h])
    have hrank : s.main.rank = 6 := by rw [h]; rfl
    constructor <;> intro k <;> simp only [hnext]
    · apply (htimer k).succ <;> omega
    · exact (hthread k).succ (by omega)
    · intro hk
      omega
  | @settime i h =>
    have hnext : s.main.next.rank = s.main.rank + 1 := MainPC.rank_next (by simp [h])
    have hrank : s.main.rank = 7 + i := by rw [h]; rfl
    have hi := htimer i
    rw [hrank] at hi
    constructor <;> intro k <;> simp only [hnext]
    · rw [hi.settime_eq]
      exact timer_update htimer (.armed (by omega)) (Or.inr hrank) k
    · exact (hthread k).succ (by omega)
    · intro hk
      omega
  | @join i h hi =>
    have hnext : s.main.next.rank = s.main.rank + 1 := MainPC.rank_next (by simp [h])
    have hrank : s.main.rank = 10 + i := by rw [h]; rfl
    constructor <;> intro k <;> simp only [hnext]
    · apply (htimer k).succ <;> omega
    · exact (hthread k).succ (by omega)
    · intro hk
      by_cases hki : k = i
      · rw [hki]
        exact hi
      · have hne := Fin.val_ne_of_ne hki
        exact hjoined k (by omega)
  | @destroy i h =>
    have hnext : s.main.next.rank = s.main.rank + 1 := MainPC.rank_next (by simp [h])
    have hrank : s.main.rank = 13 + i := by rw [h]; rfl
    constructor <;> intro k <;> simp only [hnext]
    · apply (htimer k).succ <;> omega
    · exact (hthread k).succ (by omega)
    · intro hk
      exact hjoined k (by omega)
  | @expire k v tm hrun h =>
    obtain ⟨-, -, rfl, hrank⟩ := (htimer k).expire_eq h
    refine ⟨fun j => ?_, hthread, hjoined⟩
    simp only [timerHandler]
    by_cases hj : j = k
    · subst j
      rw [Function.update_self]
      exact .spent hrank
    · rw [Function.update_of_ne hj]
      exact htimer j
  | @test k i hrun h =>
    refine ⟨htimer, thread_update hthread ?_, joined_update hjoined (by simp [h])⟩
    have hk := hthread k
    rw [h] at hk
    cases hk with
    | loop hk hi =>
      by_cases hlt : i < 5
      · rw [if_pos hlt]
        exact .wait hk hlt
      · rw [if_neg hlt]
        exact .exited hk
  | @semWait k i semaphores hrun h hwait =>
    refine ⟨htimer, thread_update hthread ?_, joined_update hjoined (by simp [h])⟩
    have hk := hthread k
    rw [h] at hk
    cases hk with
    | wait hk hi => exact .loop hk hi

theorem invariant_initial : Invariant initial where
  timer _ := .absent (Nat.zero_le _)
  thread _ := .absent (Nat.zero_le _)
  joined k hk := absurd hk (by simp [initial, MainPC.rank])

theorem invariant_tr (s : State) (e : Event) (t : State) (hs : Invariant s)
    (h : system.Tr s e t) : Invariant t :=
  invariant_step (tr_iff.mp h) hs

def isExpire (k : Fin 3) : Event → Bool
  | .expire i _ => i = k
  | _ => false

def isSemWait (k : Fin 3) : Event → Bool
  | .semWait i => i = k
  | _ => false

/-- Every expiry of timer `k` is one post of semaphore `k`. -/
theorem semWait_step (h : Step s e t) (hs : Invariant s) (k : Fin 3) :
    (isSemWait k e).toNat + t.semaphores k = s.semaphores k + (isExpire k e).toNat := by
  cases h with
  | @expire j v tm hrun h =>
    obtain ⟨rfl, -⟩ := (hs.timer j).expire_eq h
    simp [isSemWait, isExpire, timerHandler, Semaphore.post_apply]
  | semWait hrun h hwait => simpa [isSemWait, isExpire] using Semaphore.wait_apply hwait k
  | _ => simp [isSemWait, isExpire]

/-- The expiries that a timer has ahead. -/
def Timer.pending (rank : ℕ) (k : Fin 3) : Timer → ℕ
  | .armed _ _ => 1
  | .absent | .disarmed _ => if rank ≤ 7 + k then 1 else 0

theorem Timer.pending_succ {rank : ℕ} (tm : Timer) (h : rank ≠ 7 + k) :
    tm.pending (rank + 1) k = tm.pending rank k := by
  have hiff : rank + 1 ≤ 7 + k ↔ rank ≤ 7 + k := by omega
  cases tm <;> simp only [Timer.pending, hiff]

/-- Up to `timer_settime` a timer has its one expiry ahead. -/
theorem Timer.At.pending_eq_one {rank : ℕ} {tm : Timer} (h : tm.At rank k)
    (hrank : rank ≤ 7 + k) : tm.pending rank k = 1 := by
  cases h with
  | absent => exact if_pos hrank
  | created => exact if_pos hrank
  | armed h => omega
  | spent h => omega

theorem pending_next (hmain : s.main ≠ .returned) (h : s.main.rank ≠ 7 + k) (tm : Timer) :
    0 + tm.pending s.main.next.rank k = tm.pending s.main.rank k := by
  rw [MainPC.rank_next hmain, Timer.pending_succ tm h, Nat.zero_add]

/-- `timer_settime` is called once, and with an interval of zero. -/
theorem pending_step (h : Step s e t) (hs : Invariant s) (k : Fin 3) :
    (isExpire k e).toNat + (t.timer k).pending t.main.rank k =
      (s.timer k).pending s.main.rank k := by
  cases h with
  | @pthreadCreate i h =>
    have hrank : s.main.rank = i := by rw [h]; rfl
    exact pending_next (by simp [h]) (by omega) _
  | @createTimer i h =>
    have hrank : s.main.rank = 3 + i := by rw [h]; rfl
    refine (pending_next (by simp [h]) (by omega) _).trans ?_
    dsimp only
    by_cases hk : k = i
    · subst k
      rw [(hs.timer i).pending_eq_one (by omega), Function.update_self]
      exact if_pos (by omega)
    · rw [Function.update_of_ne hk]
  | sigaction h =>
    have hrank : s.main.rank = 6 := by rw [h]; rfl
    exact pending_next (by simp [h]) (by omega) _
  | @settime i h =>
    have hrank : s.main.rank = 7 + i := by rw [h]; rfl
    have hi := hs.timer i
    dsimp only
    by_cases hk : k = i
    · subst k
      rw [hi.pending_eq_one (by omega)]
      rw [hrank] at hi
      rw [Function.update_self, hi.settime_eq]
      rfl
    · have hne := Fin.val_ne_of_ne hk
      rw [Function.update_of_ne hk]
      exact pending_next (by simp [h]) (by omega) _
  | @join i h hi =>
    have hrank : s.main.rank = 10 + i := by rw [h]; rfl
    exact pending_next (by simp [h]) (by omega) _
  | @destroy i h =>
    have hrank : s.main.rank = 13 + i := by rw [h]; rfl
    exact pending_next (by simp [h]) (by omega) _
  | @expire j v tm hrun h =>
    obtain ⟨-, harmed, rfl, hrank⟩ := (hs.timer j).expire_eq h
    simp only [isExpire, timerHandler]
    by_cases hk : j = k
    · subst k
      simp only [decide_true, Function.update_self, harmed, Timer.pending]
      rw [if_neg (by omega)]
      rfl
    · simp [hk, Function.update_of_ne (Ne.symm hk)]
  | test => exact Nat.zero_add _
  | semWait => exact Nat.zero_add _

/-- The iterations that a thread has completed. -/
def ThreadPC.iterations : ThreadPC → ℕ
  | .absent => 0
  | .loop i | .wait i => i
  | .exited => 5

theorem iterations_step (h : Step s e t) (hs : Invariant s) (k : Fin 3) :
    (t.thread k).iterations = (s.thread k).iterations + (isSemWait k e).toNat := by
  cases h with
  | @pthreadCreate i h =>
    dsimp only
    by_cases hk : k = i
    · subst k
      have hi := hs.thread i
      rw [h] at hi
      rw [Function.update_self]
      generalize s.thread i = pc at hi
      cases hi with
      | absent => rfl
      | loop h => exact absurd h (lt_irrefl _)
      | wait h => exact absurd h (lt_irrefl _)
      | exited h => exact absurd h (lt_irrefl _)
    · rw [Function.update_of_ne hk]
      rfl
  | @test j i hrun h =>
    dsimp only
    by_cases hk : k = j
    · subst k
      have hj := hs.thread j
      rw [h] at hj
      rw [Function.update_self, h]
      cases hj with
      | loop _ hi =>
        by_cases hlt : i < 5
        · rw [if_pos hlt]
          rfl
        · rw [if_neg hlt]
          exact le_antisymm (not_lt.mp hlt) hi
    · rw [Function.update_of_ne hk]
      rfl
  | @semWait j i semaphores hrun h hwait =>
    simp only [isSemWait]
    by_cases hk : j = k
    · subst k
      simp [h, ThreadPC.iterations]
    · simp [hk, Function.update_of_ne (Ne.symm hk)]
  | _ => rfl

theorem semWait_run (h : system.MTr initial es s) (k : Fin 3) :
    es.countP (isSemWait k) + s.semaphores k = es.countP (isExpire k) := by
  have hcount := h.countP_add_eq (isSemWait k) (isExpire k) (fun s => s.semaphores k)
    invariant_initial invariant_tr (fun _ _ _ hs htr => semWait_step (tr_iff.mp htr) hs k)
  simpa [initial] using hcount

/-- A timer expires at most once in a run. -/
theorem expire_run (h : system.MTr initial es s) (k : Fin 3) :
    es.countP (isExpire k) + (s.timer k).pending s.main.rank k = 1 := by
  have hcount := h.countP_add_eq (isExpire k) (fun _ => false)
    (fun s => (s.timer k).pending s.main.rank k) invariant_initial invariant_tr
    (fun _ _ _ hs htr => pending_step (tr_iff.mp htr) hs k)
  simpa [initial, MainPC.rank, Timer.pending] using hcount

theorem iterations_run (h : system.MTr initial es s) (k : Fin 3) :
    (s.thread k).iterations = es.countP (isSemWait k) := by
  have hcount := h.countP_add_eq (fun _ => false) (isSemWait k)
    (fun s => (s.thread k).iterations) invariant_initial invariant_tr
    (fun _ _ _ hs htr => by simpa using iterations_step (tr_iff.mp htr) hs k)
  simpa [initial, ThreadPC.iterations] using hcount

theorem invariant_run (h : system.MTr initial es s) : Invariant s :=
  h.invariant invariant_initial invariant_tr

/-- No thread gets past its second `sem_wait`. -/
theorem not_exited (h : system.MTr initial es s) (k : Fin 3) : s.thread k ≠ .exited := by
  intro hexit
  have hiter := iterations_run h k
  have hwait := semWait_run h k
  have hexpire := expire_run h k
  rw [hexit, ThreadPC.iterations] at hiter
  omega

/-- At the end of a run `main` waits in its first join. -/
theorem join_of_terminal (h : system.MTr initial es s) (ht : system.Terminal s) :
    s.main = .join 0 := by
  have hjoined := (invariant_run h).joined 0
  have hexit := not_exited h 0
  cases hpc : s.main with
  | pthreadCreate i => exact (ht _ _ (tr_iff.mpr (.pthreadCreate hpc))).elim
  | createTimer i => exact (ht _ _ (tr_iff.mpr (.createTimer hpc))).elim
  | sigaction => exact (ht _ _ (tr_iff.mpr (.sigaction hpc))).elim
  | settime i => exact (ht _ _ (tr_iff.mpr (.settime hpc))).elim
  | destroy i => exact (ht _ _ (tr_iff.mpr (.destroy hpc))).elim
  | returned =>
    rw [hpc] at hjoined
    exact (hexit (hjoined (by decide))).elim
  | join i =>
    rw [hpc] at hjoined
    by_cases hi : i = 0
    · rw [hi]
    · have hpos : 0 < i.val := Nat.pos_of_ne_zero fun h => hi (Fin.ext h)
      exact (hexit (hjoined (Nat.add_lt_add_left hpos 10))).elim

/-- At the end of a run each thread has completed one `sem_wait` of its five. -/
theorem semWait_of_terminal (h : system.MTr initial es s) (ht : system.Terminal s)
    (k : Fin 3) : es.countP (isSemWait k) = 1 := by
  have hmain := join_of_terminal h ht
  have hrun : s.main ≠ .returned := by simp [hmain]
  have hrank : s.main.rank = 10 := by rw [hmain]; rfl
  have htimer := (invariant_run h).timer k
  have hthread := (invariant_run h).thread k
  have hwait := semWait_run h k
  have hexpire := expire_run h k
  have hspent : s.timer k = .disarmed k := by
    generalize htm : s.timer k = tm at htimer
    cases htimer with
    | absent => omega
    | created => omega
    | armed =>
      have hfire : (s.timer k).expire = some (k, .disarmed k) := by
        rw [htm]
        rfl
      exact (ht _ _ (tr_iff.mpr (.expire hrun hfire))).elim
    | spent => rfl
  have hblocked : s.semaphores k = 0 := by
    generalize hpc : s.thread k = pc at hthread
    cases hthread with
    | absent => omega
    | loop => exact (ht _ _ (tr_iff.mpr (.test hrun hpc))).elim
    | wait =>
      cases hwait : Semaphore.wait s.semaphores k with
      | none => exact Semaphore.wait_eq_none_iff.mp hwait
      | some semaphores => exact (ht _ _ (tr_iff.mpr (.semWait hrun hpc hwait))).elim
    | exited => exact (not_exited h k hpc).elim
  rw [hspent, hrank, Timer.pending, if_neg (by omega)] at hexpire
  omega

/-- What is expected of the end of a run. -/
structure Completed (s : State) : Prop where
  threads : ∀ k, s.thread k = .exited
  main : s.main = .returned
  destroyed : ∀ k, s.destroyed k = true

/-- `main` makes its calls, each timer expires, and each thread waits again. -/
theorem run_to_end : ∃ es s, system.MTr initial es s ∧ system.Terminal s := by
  refine ⟨_, _, LTS.mTr_of_replay
    [.main, .main, .main, .main, .main, .main, .main, .main, .main, .main,
      .timer 0, .timer 1, .timer 2, .thread 0, .thread 0, .thread 0,
      .thread 1, .thread 1, .thread 1, .thread 2, .thread 2, .thread 2] rfl, ?_⟩
  apply LTS.terminal_ofNext
  intro a
  cases a with
  | main => rfl
  | timer k => fin_cases k <;> rfl
  | thread k => fin_cases k <;> rfl

/-- The timers post the right semaphores and no thread gets ahead of its timer, but every run
ends with one `sem_wait` done in each thread and `main` in its first join. -/
theorem one_semWait_each (h : system.MTr initial es s) :
    (∀ k j t, system.Tr s (.expire k j) t →
      t.semaphores = Semaphore.post s.semaphores k ∧ t.thread = s.thread) ∧
    (∀ k, es.countP (isSemWait k) ≤ es.countP (isExpire k)) ∧
    (system.Terminal s → (∀ k, es.countP (isSemWait k) = 1) ∧ s.main = .join 0 ∧
      ¬ Completed s) := by
  refine ⟨fun k j t htr => ?_, fun k => ?_, fun ht => ?_⟩
  · cases tr_iff.mp htr with
    | expire hrun he =>
      obtain ⟨rfl, -⟩ := ((invariant_run h).timer k).expire_eq he
      exact ⟨rfl, rfl⟩
  · have hwait := semWait_run h k
    omega
  · exact ⟨semWait_of_terminal h ht, join_of_terminal h ht,
      fun hc => not_exited h 0 (hc.threads 0)⟩

theorem one_semWait_each_end : ∃ es s, system.MTr initial es s ∧
    (∀ k, es.countP (isSemWait k) = 1) ∧ ¬ Completed s := by
  obtain ⟨es, s, h, ht⟩ := run_to_end
  obtain ⟨hwait, -, hstuck⟩ := (one_semWait_each h).2.2 ht
  exact ⟨es, s, h, hwait, hstuck⟩

/-- A run that ends before any thread has finished. -/
theorem not_completed : ¬ ∀ es s, system.MTr initial es s → system.Terminal s → Completed s := by
  intro hall
  obtain ⟨es, s, h, ht⟩ := run_to_end
  exact not_exited h 0 ((hall es s h ht).threads 0)

end LinuxTutorial.ThreeThreads.Timers
