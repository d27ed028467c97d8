import LinuxTutorial.Mutex.Basic

/-!
# `mutex_sharedVariable_pThread.c`

Two threads add to `sharedVariable` under one mutex, as often as `*maxCount` says.
-/

namespace LinuxTutorial.Mutex.SharedVariable

open Transition Locking

inductive Thread
  | threadA
  | threadB
  deriving DecidableEq, Repr

instance : Fintype Thread := ⟨{.threadA, .threadB}, fun t => by cases t <;> simp⟩

inductive MutexId
  | mutex
  deriving DecidableEq, Repr

abbrev State := Locking.State Thread MutexId

/-- The shared counter. -/
def State.sharedVariable (s : State) : ℕ := s.counter

/-- The text that both threads share. The loop runs while `i < *maxCount`, so a negative
`*maxCount` makes no round. -/
def threadFunction (maxCount : Int32) : Routine MutexId where
  locks := [.mutex]
  nodup := List.nodup_singleton _
  increments := 10000
  rounds := maxCount.toInt.toNat

def threadAFunction (maxCount : Int32) : Routine MutexId := threadFunction maxCount

def threadBFunction (maxCount : Int32) : Routine MutexId := threadFunction maxCount

/-- Both threads read the same `*maxCount`, which nobody writes. -/
def threads (maxCount : Int32) : Thread → Routine MutexId
  | .threadA => threadAFunction maxCount
  | .threadB => threadBFunction maxCount

/-- The interleaved program. -/
def program (maxCount : Int32) : LTS State (Event Thread MutexId) :=
  lts (threads maxCount) ulongRange

/-- The first `n` of the expected `Shared Count` values. -/
def sharedCounts (n : ℕ) : List ℕ := (List.range n).map fun k => 10000 * (k + 1)

/-- What is expected of a reachable state. -/
structure Exact (maxCount : Int32) (s : State) : Prop where
  unwrapped : ∀ w v t, (program maxCount).Tr s (.write w v) t →
    v = s.sharedVariable + 1 ∧ t.sharedVariable = s.sharedVariable + 1
  printed : s.printed = sharedCounts s.printed.length
  progress : (∃ w, s.pc w ≠ .returned) → ∃ e t, (program maxCount).Tr s e t
  final : (program maxCount).Terminal s → (∀ w, s.pc w = .returned) ∧
    (∀ m, s.owner m = none) ∧ (s.sharedVariable : ℤ) = 20000 * max 0 maxCount.toInt ∧
    s.printed = sharedCounts (2 * maxCount.toInt.toNat)

variable {maxCount : Int32} {s : State} {es : List (Event Thread MutexId)}

theorem threads_locks (w : Thread) : (threads maxCount w).locks = [.mutex] := by
  cases w <;> rfl

theorem threads_increments (w : Thread) : (threads maxCount w).increments = 10000 := by
  cases w <;> rfl

theorem mutex_mem (w : Thread) : .mutex ∈ (threads maxCount w).locks := by simp [threads_locks]

theorem sum_rounds : ∑ w, (threads maxCount w).rounds = 2 * maxCount.toInt.toNat := by
  have hpair : ∑ w, (threads maxCount w).rounds =
      (threads maxCount .threadA).rounds + (threads maxCount .threadB).rounds :=
    Finset.sum_pair (by simp)
  rw [hpair]
  exact (Nat.two_mul _).symm

/-- No value of an `int` makes the counter wrap. -/
theorem increments_lt (maxCount : Int32) :
    10000 * ∑ w, (threads maxCount w).rounds < ulongRange := by
  have hmax := maxCount.toInt_lt
  rw [sum_rounds, ulongRange]
  omega

theorem sum_increments_lt :
    ∑ w, (threads maxCount w).increments * (threads maxCount w).rounds < ulongRange := by
  have hlt := increments_lt maxCount
  rw [Finset.mul_sum] at hlt
  simpa only [threads_increments] using hlt

theorem sound (h : (program maxCount).MTr initial es s) :
    Sound (threads maxCount) 10000 ulongRange s :=
  sound_run threads_increments mutex_mem h

/-- A single lock is taken in increasing order. -/
theorem returned (h : (program maxCount).MTr initial es s)
    (ht : (program maxCount).Terminal s) (w : Thread) : s.pc w = .returned := by
  refine returned_of_terminal (fun _ => 0) (fun v => ?_) (sound h).owned (sound h).valid ht w
  rw [threads_locks]
  exact List.pairwise_singleton _ _

theorem exact_of_run (h : (program maxCount).MTr initial es s) : Exact maxCount s where
  unwrapped := fun w v t ht => (sound h).write_eq sum_increments_lt (tr_iff.mp ht)
  printed := by
    have hle := completed_le (sound h).valid
    have hlt := increments_lt maxCount
    have hprinted := (sound h).printed
    have hlength : s.printed.length = completed (threads maxCount) s := by
      rw [hprinted, multiples_length]
    rw [hlength, hprinted]
    apply multiples_eq_of_lt
    omega
  progress := exists_tr_of_returned (returned h)
  final := by
    intro ht
    have hret := returned h ht
    obtain ⟨hfree, hcounter, hprinted⟩ := (sound h).of_returned threads_increments hret
    rw [Nat.mod_eq_of_lt (increments_lt maxCount), sum_rounds] at hcounter
    rw [multiples_eq_of_lt (increments_lt maxCount), sum_rounds] at hprinted
    refine ⟨hret, hfree, ?_, hprinted⟩
    rw [State.sharedVariable, hcounter]
    omega

/-- The counter is exact for every `*maxCount` and every interleaving, and every run ends with all
`Shared Count` lines printed. -/
theorem exact_and_finite :
    (∀ es s, (program maxCount).MTr initial es s → Exact maxCount s) ∧
      ∀ (run : ℕ → State) (label : ℕ → Event Thread MutexId),
        ¬ ∀ k, (program maxCount).Tr (run k) (label k) (run (k + 1)) :=
  ⟨fun _ _ h => exact_of_run h, fun _ _ => not_infinite⟩

end LinuxTutorial.Mutex.SharedVariable
