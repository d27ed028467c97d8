import LinuxTutorial.Locking.Counter

/-!
# Two threads and two mutexes

What `mutex_nested.c` and `mutex_deadlock.c` share: in each round a thread locks both mutexes,
adds 10000 to `sharedVariable`, prints it, and unlocks the mutexes in the reverse order.
-/

namespace LinuxTutorial.Mutex

open Transition Locking

inductive Thread
  | thread1
  | thread2
  deriving DecidableEq, Repr

instance : Fintype Thread := ⟨{.thread1, .thread2}, fun t => by cases t <;> simp⟩

inductive MutexId
  | mutex1
  | mutex2
  deriving DecidableEq, Repr

theorem mutex1_ne_mutex2 : MutexId.mutex1 ≠ .mutex2 := by simp

/-- The mutex that a thread locks first, where the two threads lock in opposite orders. -/
def first : Thread → MutexId
  | .thread1 => .mutex1
  | .thread2 => .mutex2

def second : Thread → MutexId
  | .thread1 => .mutex2
  | .thread2 => .mutex1

theorem first_ne_second (w : Thread) : first w ≠ second w := by
  cases w <;> simp [first, second]

theorem second_eq_first_of_ne {v w : Thread} (h : v ≠ w) : second v = first w := by
  cases v <;> cases w <;> first | rfl | exact (h rfl).elim

/-- The range of `unsigned long`. -/
def ulongRange : ℕ := 2 ^ 64

/-- The text of `thread1_function` and `thread2_function`, with the mutexes in the order in
which they are locked and with `n` rounds in place of the literal 5. -/
def threadFunction (first second : MutexId) (h : first ≠ second) (n : ℕ) : Routine MutexId where
  locks := [first, second]
  nodup := by simpa using h
  increments := 10000
  rounds := n

abbrev State := Locking.State Thread MutexId

/-- The shared counter. -/
def State.sharedVariable (s : State) : ℕ := s.counter

theorem sum_threads (f : Thread → ℕ) : ∑ w, f w = f .thread1 + f .thread2 :=
  Finset.sum_pair (by decide)

end LinuxTutorial.Mutex
