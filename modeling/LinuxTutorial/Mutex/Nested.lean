import LinuxTutorial.Mutex.Basic

/-!
# `mutex_nested.c`

Both threads lock `mutex1` and then `mutex2`.
-/

namespace LinuxTutorial.Mutex.Nested

open Transition Locking

variable {n : ℕ} {s : State} {es : List (Event Thread MutexId)} {w : Thread}

def thread1Function (n : ℕ) : Routine MutexId := threadFunction .mutex1 .mutex2 (by decide) n

def thread2Function (n : ℕ) : Routine MutexId := threadFunction .mutex1 .mutex2 (by decide) n

def threads (n : ℕ) : Thread → Routine MutexId
  | .thread1 => thread1Function n
  | .thread2 => thread2Function n

/-- The interleaved program. -/
def program (n : ℕ) : LTS State (Event Thread MutexId) := lts (threads n) ulongRange

/-- The values of the `Shared Count` lines of `n` rounds of both threads. -/
def sharedCounts (n : ℕ) : List ℕ := (List.range (2 * n)).map fun k => 10000 * (k + 1)

/-- What is expected of a reachable state. -/
structure Correct (n : ℕ) (s : State) : Prop where
  progress : (∃ w, s.pc w ≠ .returned) → ∃ e t, (program n).Tr s e t
  mutex2_free : ∀ w i, s.pc w = .acquire i 1 → ∃ t, (program n).Tr s (.lock w .mutex2) t
  exclusive : ∀ v w, InSection (threads n) s v → InSection (threads n) s w → v = w
  printed : s.printed <+: sharedCounts n
  final : (program n).Terminal s → (∀ w, s.pc w = .returned) ∧ (∀ m, s.owner m = none) ∧
    s.sharedVariable = 20000 * n ∧ s.printed = sharedCounts n

theorem threads_locks (w : Thread) : (threads n w).locks = [.mutex1, .mutex2] := by
  cases w <;> rfl

theorem threads_increments (w : Thread) : (threads n w).increments = 10000 := by
  cases w <;> rfl

theorem sum_rounds (n : ℕ) : ∑ w, (threads n w).rounds = 2 * n := by
  rw [sum_threads]
  exact (Nat.two_mul n).symm

theorem mutex1_mem (w : Thread) : .mutex1 ∈ (threads n w).locks := by simp [threads_locks]

/-- The order in which both threads lock the mutexes. -/
def rank : MutexId → ℕ
  | .mutex1 => 0
  | .mutex2 => 1

theorem rank_increasing (w : Thread) :
    (threads n w).locks.Pairwise fun a b => rank a < rank b := by
  simp [threads_locks, rank]

/-- A thread that holds `mutex2` holds `mutex1`. -/
theorem mutex1_guards (w : Thread) (k : ℕ) (h : .mutex2 ∈ (threads n w).locks.take k) :
    .mutex1 ∈ (threads n w).locks.take k := by
  rw [threads_locks] at h ⊢
  cases k with
  | zero => simp at h
  | succ k => simp

/-- No value that the program prints reaches the range of `unsigned long`. -/
theorem multiples_eq (hn : n < 2 ^ 31) :
    multiples 10000 ulongRange (2 * n) = sharedCounts n := by
  apply multiples_eq_of_lt
  rw [ulongRange]
  omega

theorem sound (h : (program n).MTr initial es s) : Sound (threads n) 10000 ulongRange s :=
  sound_run threads_increments mutex1_mem h

theorem returned (h : (program n).MTr initial es s) (ht : (program n).Terminal s) (w : Thread) :
    s.pc w = .returned :=
  returned_of_terminal rank rank_increasing (sound h).owned (sound h).valid ht w

/-- The thread at its second lock finds it free. -/
theorem lock_mutex2 (h : (program n).MTr initial es s) {i : ℕ} (hpc : s.pc w = .acquire i 1) :
    ∃ t, (program n).Tr s (.lock w .mutex2) t := by
  have hl : (threads n w).locks[1]? = some .mutex2 := by simp [threads_locks]
  have hg : .mutex1 ∈ (threads n w).locks.take 1 := by simp [threads_locks]
  have hfree := (sound h).owned.free_of_guard mutex1_guards hpc hl hg
  exact ⟨_, tr_iff.mpr (.lock hpc hl hfree)⟩

theorem correct (hn : n < 2 ^ 31) (h : (program n).MTr initial es s) : Correct n s where
  progress := exists_tr_of_returned (returned h)
  mutex2_free := fun w i hpc => lock_mutex2 h hpc
  exclusive := fun v w hv hw => (sound h).owned.section_unique mutex1_mem hv hw
  printed := by
    have hle := completed_le (sound h).valid
    rw [sum_rounds] at hle
    rw [(sound h).printed, ← multiples_eq hn]
    exact multiples_prefix hle
  final := by
    intro ht
    have hret := returned h ht
    obtain ⟨hfree, hcounter, hprinted⟩ := (sound h).of_returned threads_increments hret
    rw [sum_rounds] at hcounter hprinted
    refine ⟨hret, hfree, ?_, hprinted.trans (multiples_eq hn)⟩
    rw [State.sharedVariable, hcounter, ulongRange]
    omega

/-- `mutex_nested.c` never deadlocks and loses no increment: every reachable state is as
expected and no run goes on forever. -/
theorem correct_and_finite (hn : n < 2 ^ 31) :
    (∀ es s, (program n).MTr initial es s → Correct n s) ∧
      ∀ (run : ℕ → State) (label : ℕ → Event Thread MutexId),
        ¬ ∀ k, (program n).Tr (run k) (label k) (run (k + 1)) :=
  ⟨fun _ _ h => correct hn h, fun _ _ => not_infinite⟩

/-- The program as it stands, with five rounds. -/
theorem correct_and_finite_five :
    (∀ es s, (program 5).MTr initial es s → Correct 5 s) ∧
      ∀ (run : ℕ → State) (label : ℕ → Event Thread MutexId),
        ¬ ∀ k, (program 5).Tr (run k) (label k) (run (k + 1)) :=
  correct_and_finite (by decide)

end LinuxTutorial.Mutex.Nested
