import LinuxTutorial.Mutex.Basic

/-!
# `mutex_deadlock.c`

The threads lock the two mutexes in opposite orders.
-/

namespace LinuxTutorial.Mutex.Deadlock

open Transition Locking

def thread1Function (n : ℕ) : Routine MutexId :=
  threadFunction .mutex1 .mutex2 mutex1_ne_mutex2 n

def thread2Function (n : ℕ) : Routine MutexId :=
  threadFunction .mutex2 .mutex1 mutex1_ne_mutex2.symm n

def threads (n : ℕ) : Thread → Routine MutexId
  | .thread1 => thread1Function n
  | .thread2 => thread2Function n

/-- The interleaved program. -/
def program (n : ℕ) : LTS State (Event Thread MutexId) := lts (threads n) ulongRange

/-- Each thread holds only its first mutex and waits for the other one. -/
structure Deadlocked (n : ℕ) (s : State) : Prop where
  waits1 : Blocked (threads n) s .thread1 .mutex2
  holds1 : ∀ m, s.owner m = some .thread1 ↔ m = .mutex1
  waits2 : Blocked (threads n) s .thread2 .mutex1
  holds2 : ∀ m, s.owner m = some .thread2 ↔ m = .mutex2

/-- A thread at this position still has a round whose first lock it has not taken. -/
def RoundLeft (n : ℕ) : PC → Prop
  | .loop i | .acquire i 0 => i < n
  | .acquire i (_ + 1) | .count i _ | .write i _ _ | .release i _ => i + 1 < n
  | .returned => False

/-- What is said about a reachable state. -/
structure Characterised (n : ℕ) (s : State) : Prop where
  stuck_iff : (∃ w, s.pc w ≠ .returned) ∧ (program n).Terminal s ↔ Deadlocked n s
  counter : Deadlocked n s → s.sharedVariable = 10000 * completed (threads n) s
  reachable : (∀ w, RoundLeft n (s.pc w)) → ∃ es t, (program n).MTr s es t ∧ Deadlocked n t

variable {n : ℕ} {s t : State} {e : Event Thread MutexId} {es : List (Event Thread MutexId)}
  {w : Thread}

theorem threads_locks (w : Thread) : (threads n w).locks = [first w, second w] := by
  cases w <;> rfl

theorem threads_increments (w : Thread) : (threads n w).increments = 10000 := by
  cases w <;> rfl

theorem threads_rounds (w : Thread) : (threads n w).rounds = n := by
  cases w <;> rfl

theorem mutex1_mem (w : Thread) : .mutex1 ∈ (threads n w).locks := by
  cases w <;> simp [threads_locks, first, second]

theorem sound (h : (program n).MTr initial es s) : Sound (threads n) 10000 ulongRange s :=
  sound_run threads_increments mutex1_mem h

theorem owner_iff (ho : Owned (threads n) s) (m : MutexId) (w : Thread) :
    s.owner m = some w ↔ (m = first w ∧ 0 < (threads n w).depth (s.pc w)) ∨
      (m = second w ∧ 1 < (threads n w).depth (s.pc w)) := by
  rw [ho m w, Routine.held, threads_locks]
  rcases (threads n w).depth (s.pc w) with _ | _ | d <;> simp

theorem inSection_iff : InSection (threads n) s w ↔ 1 < (threads n w).depth (s.pc w) := by
  rw [InSection, threads_locks]
  rfl

/-- A thread at its first lock waits for the other one to leave its section. -/
theorem inSection_of_acquire_zero (ho : Owned (threads n) s) {i : ℕ} {v : Thread}
    (h : s.pc w = .acquire i 0) (hown : s.owner (first w) = some v) :
    InSection (threads n) s v := by
  rcases (owner_iff ho _ v).mp hown with ⟨hfirst, hdepth⟩ | ⟨-, hdepth⟩
  · have hvw : v = w := by
      by_contra hne
      exact first_ne_second v (hfirst.symm.trans (second_eq_first_of_ne hne).symm)
    subst v
    simp [h, Routine.depth] at hdepth
  · exact inSection_iff.mpr hdepth

/-- A thread waits at its second lock, or at its first one for a thread in its section. -/
theorem acquire_of_blocked (ho : Owned (threads n) s) {l : MutexId}
    (h : Blocked (threads n) s w l) :
    (∃ i, s.pc w = .acquire i 1) ∨ ∃ v, InSection (threads n) s v := by
  obtain ⟨i, k, v, hpc, hl, hown⟩ := h
  rw [threads_locks] at hl
  rcases k with _ | _ | k
  · right
    obtain rfl : first w = l := by simpa using hl
    exact ⟨v, inSection_of_acquire_zero ho hpc hown⟩
  · exact Or.inl ⟨i, hpc⟩
  · simp at hl

theorem ne_returned_of_inSection (h : InSection (threads n) s w) : s.pc w ≠ .returned := by
  intro hpc
  rw [inSection_iff, hpc] at h
  exact absurd h (by simp [Routine.depth])

/-- Both threads hold their first mutex and want the other one. -/
theorem deadlocked_of_acquire (ho : Owned (threads n) s)
    (h : ∀ w, ∃ i, s.pc w = .acquire i 1) : Deadlocked n s := by
  have hdepth : ∀ w, (threads n w).depth (s.pc w) = 1 := by
    intro w
    obtain ⟨i, hi⟩ := h w
    rw [hi]
    rfl
  have hholds : ∀ w m, s.owner m = some w ↔ m = first w := by
    intro w m
    rw [owner_iff ho, hdepth]
    simp
  have hwaits : ∀ v w, v ≠ w → Blocked (threads n) s w (second w) := by
    intro v w hvw
    obtain ⟨i, hi⟩ := h w
    refine ⟨i, 1, v, hi, by simp [threads_locks], (hholds v _).mpr ?_⟩
    exact second_eq_first_of_ne hvw.symm
  exact ⟨hwaits .thread2 .thread1 (by simp), hholds .thread1,
    hwaits .thread1 .thread2 (by simp), hholds .thread2⟩

theorem acquire_of_deadlocked (h : Deadlocked n s) (w : Thread) : ∃ i, s.pc w = .acquire i 1 := by
  have hblocked : Blocked (threads n) s w (second w) := by
    cases w
    · exact h.waits1
    · exact h.waits2
  obtain ⟨i, k, v, hpc, hl, -⟩ := hblocked
  rw [threads_locks] at hl
  rcases k with _ | _ | k
  · exact (first_ne_second w (by simpa using hl)).elim
  · exact ⟨i, hpc⟩
  · simp at hl

theorem terminal_of_deadlocked (h : Deadlocked n s) : (program n).Terminal s := by
  intro e t htr
  have hblocked : ∃ l, Blocked (threads n) s e.worker l := by
    cases e.worker
    · exact ⟨_, h.waits1⟩
    · exact ⟨_, h.waits2⟩
  obtain ⟨l, hl⟩ := hblocked
  exact hl.not_step (tr_iff.mp htr)

theorem ne_returned_of_owner (ho : Owned (threads n) s) {m : MutexId}
    (h : s.owner m = some w) : s.pc w ≠ .returned := by
  intro hpc
  rcases (owner_iff ho m w).mp h with ⟨-, hdepth⟩ | ⟨-, hdepth⟩ <;>
    simp [hpc, Routine.depth] at hdepth

/-- A thread at its second lock waits for the other thread, which has not finished. -/
theorem ne_returned_of_acquire_one (ho : Owned (threads n) s) {i : ℕ} {l : MutexId}
    (hpc : s.pc w = .acquire i 1) (h : Blocked (threads n) s w l) (v : Thread) :
    s.pc v ≠ .returned := by
  obtain ⟨j, k, u, hpc', hl, hown⟩ := h
  obtain ⟨rfl, rfl⟩ := PC.acquire.inj (hpc.symm.trans hpc')
  obtain rfl : second w = l := by simpa [threads_locks] using hl
  by_cases hvw : v = w
  · subst v
    simp [hpc]
  · have huw : u ≠ w := by
      rintro rfl
      rcases (owner_iff ho _ u).mp hown with ⟨hfirst, -⟩ | ⟨-, hdepth⟩
      · exact first_ne_second u hfirst.symm
      · simp [hpc, Routine.depth] at hdepth
    have hvu : v = u := by cases u <;> cases v <;> cases w <;> simp_all
    rw [hvu]
    exact ne_returned_of_owner ho hown

/-- No other combination of positions and owners is ever stuck. -/
theorem deadlocked_of_terminal (h : (program n).MTr initial es s)
    (hunfinished : ∃ w, s.pc w ≠ .returned) (ht : (program n).Terminal s) : Deadlocked n s := by
  have hs := sound h
  have hacquire : ∀ w, s.pc w ≠ .returned → ∃ i, s.pc w = .acquire i 1 := by
    intro w hw
    obtain ⟨l, hl⟩ := blocked_of_terminal hs.valid ht hw
    rcases acquire_of_blocked hs.owned hl with hi | ⟨v, hv⟩
    · exact hi
    · -- a thread in its section is neither finished nor blocked
      obtain ⟨m, hm⟩ := blocked_of_terminal hs.valid ht (ne_returned_of_inSection hv)
      exact (hm.not_inSection hv).elim
  obtain ⟨w, hw⟩ := hunfinished
  obtain ⟨i, hi⟩ := hacquire w hw
  obtain ⟨l, hl⟩ := blocked_of_terminal hs.valid ht hw
  apply deadlocked_of_acquire hs.owned
  intro v
  exact hacquire v (ne_returned_of_acquire_one hs.owned hi hl v)

/-- In a deadlock neither thread is in its section, so the counter is a sum of whole
sections. -/
theorem counter_of_deadlocked (hn : n < 2 ^ 31) (h : (program n).MTr initial es s)
    (hd : Deadlocked n s) : s.sharedVariable = 10000 * completed (threads n) s := by
  have hs := sound h
  have hout : ∀ w, ¬ InSection (threads n) s w := by
    intro w
    obtain ⟨i, hi⟩ := acquire_of_deadlocked hd w
    rw [inSection_iff, hi]
    simp [Routine.depth]
  have hsum := sum_added (w := .thread1) threads_increments fun v _ => hout v
  rw [partialCount_eq_zero (hout .thread1), Nat.add_zero] at hsum
  have hle := completed_le hs.valid
  rw [sum_threads, threads_rounds, threads_rounds] at hle
  rw [State.sharedVariable, hs.counted.counter, hsum, ulongRange]
  omega

/-- A thread on its way to its second lock, which it reaches without finishing. -/
def Heading (n : ℕ) (p : PC) : Prop := (∃ i, p = .acquire i 1) ∨ RoundLeft n p

theorem heading_step (h : Step (threads n) ulongRange s e t)
    (hw : Heading n (s.pc e.worker)) (hne : ∀ i, s.pc e.worker ≠ .acquire i 1) :
    Heading n (t.pc e.worker) := by
  rcases hw with ⟨i, hi⟩ | hw
  · exact (hne i hi).elim
  · cases h with
    | @enter w i h hi =>
      right
      rw [threads_rounds] at hi
      simpa [State.goto, RoundLeft] using hi
    | @finish w i h hi =>
      rw [threads_rounds] at hi
      simp only [Event.worker, h, RoundLeft] at hw
      exact (hi hw).elim
    | @lock w i k l h hl hfree =>
      rw [threads_locks] at hl
      rcases k with _ | _ | k
      · exact Or.inl ⟨i, by simp [State.goto]⟩
      · exact (hne i h).elim
      · simp at hl
    | @locked w i k h hl =>
      rw [threads_locks] at hl
      rcases k with _ | k
      · simp at hl
      · right
        simpa [State.goto, RoundLeft, h] using hw
    | read h hj =>
      right
      simpa [State.goto, RoundLeft, h] using hw
    | write h =>
      right
      simpa [State.goto, RoundLeft, h] using hw
    | print h hj =>
      right
      simpa [State.goto, RoundLeft, h] using hw
    | unlock h hl =>
      right
      simpa [State.goto, RoundLeft, h] using hw
    | unlocked h =>
      right
      simpa [State.goto, RoundLeft, h] using hw

theorem Heading.ne_returned {p : PC} (h : Heading n p) : p ≠ .returned := by
  rintro rfl
  rcases h with ⟨i, hi⟩ | h
  · simp at hi
  · exact h

/-- Unless both threads wait for their second locks, one that does not can take a step. -/
theorem heading_enabled (hs : Sound (threads n) 10000 ulongRange s)
    (hheading : ∀ w, Heading n (s.pc w)) (hnot : ¬ ∀ w, ∃ i, s.pc w = .acquire i 1) :
    ∃ e t, Step (threads n) ulongRange s e t ∧ ∀ i, s.pc e.worker ≠ .acquire i 1 := by
  push Not at hnot
  obtain ⟨w, hw⟩ := hnot
  rcases own_step_or_blocked ulongRange (hs.valid w) (hheading w).ne_returned with
    ⟨e, t, hstep, rfl⟩ | ⟨l, hl⟩
  · exact ⟨e, t, hstep, hw⟩
  · rcases acquire_of_blocked hs.owned hl with ⟨i, hi⟩ | ⟨v, hv⟩
    · exact (hw i hi).elim
    · rcases own_step_or_blocked ulongRange (hs.valid v) (hheading v).ne_returned with
        ⟨e, t, hstep, rfl⟩ | ⟨m, hm⟩
      · refine ⟨e, t, hstep, fun i hi => ?_⟩
        rw [inSection_iff, hi] at hv
        simp [Routine.depth] at hv
      · exact (hm.not_inSection hv).elim

/-- Stepping only threads that are not at their second locks leads into the deadlock. -/
theorem reaches_acquire (h : (program n).MTr initial es s)
    (hheading : ∀ w, Heading n (s.pc w)) :
    ∃ fs t, (program n).MTr s fs t ∧ ∀ w, ∃ i, t.pc w = .acquire i 1 := by
  generalize hm : ∑ w, (threads n w).left (s.pc w) = m
  induction m using Nat.strong_induction_on generalizing es s with
  | h m ih =>
    by_cases hall : ∀ w, ∃ i, s.pc w = .acquire i 1
    · exact ⟨[], s, .refl, hall⟩
    · obtain ⟨e, t, hstep, hne⟩ := heading_enabled (sound h) hheading hall
      have hlt := sum_left_lt hstep
      have hnext : ∀ w, Heading n (t.pc w) := by
        intro w
        by_cases hw : w = e.worker
        · rw [hw]
          exact heading_step hstep (hheading _) hne
        · rw [hstep.pc_of_ne hw]
          exact hheading w
      have htr : (program n).Tr s e t := tr_iff.mpr hstep
      obtain ⟨fs, u, hrun, hu⟩ := ih _ (hm ▸ hlt) (h.append (.single htr)) hnext rfl
      exact ⟨e :: fs, u, .stepL htr hrun, hu⟩

/-- The stuck states of `mutex_deadlock.c` are exactly the deadlocks, no increment is lost on
the way to one, and one can be reached as long as both threads have a round left. -/
theorem stuck_iff_deadlocked (hn : n < 2 ^ 31) (h : (program n).MTr initial es s) :
    Characterised n s where
  stuck_iff := by
    constructor
    · rintro ⟨hunfinished, ht⟩
      exact deadlocked_of_terminal h hunfinished ht
    · intro hd
      obtain ⟨i, hi⟩ := acquire_of_deadlocked hd .thread1
      exact ⟨⟨.thread1, by simp [hi]⟩, terminal_of_deadlocked hd⟩
  counter := counter_of_deadlocked hn h
  reachable := by
    intro hleft
    obtain ⟨fs, t, hrun, ht⟩ := reaches_acquire h fun w => Or.inr (hleft w)
    exact ⟨fs, t, hrun, deadlocked_of_acquire (sound (h.append hrun)).owned ht⟩

/-- The program as it stands, with five rounds, can deadlock. -/
theorem stuck_iff_deadlocked_five :
    ∃ es s, (program 5).MTr initial es s ∧ Deadlocked 5 s :=
  (stuck_iff_deadlocked (n := 5) (by decide) .refl).reachable fun _ => Nat.zero_lt_succ 4

end LinuxTutorial.Mutex.Deadlock
