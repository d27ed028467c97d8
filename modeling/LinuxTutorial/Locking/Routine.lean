import LinuxTutorial.Transition.Trace
import Mathlib.Algebra.BigOperators.Group.Finset.Piecewise

/-!
# Workers that count under locks

Each worker repeats one round: take some locks in order, add to a shared counter with a
separate read and write for each increment, print the counter, and give the locks back in
the reverse order. The workers and the locks are arbitrary types.
-/

namespace Locking

open Transition

universe u v

/-- What one worker does. The locks are not recursive, so it takes each of them once. -/
structure Routine (Lock : Type v) where
  locks : List Lock
  nodup : locks.Nodup
  increments : ℕ
  rounds : ℕ

/-- Where a worker is: at the test of its loop in round `i`, with `k` locks taken, with `j`
increments done, between the read of `v` and the write of its successor, with `k` locks not
yet given back, or finished. -/
inductive PC
  | loop (i : ℕ)
  | acquire (i k : ℕ)
  | count (i j : ℕ)
  | write (i j v : ℕ)
  | release (i k : ℕ)
  | returned
  deriving DecidableEq, Repr

structure State (Worker : Type u) (Lock : Type v) where
  pc : Worker → PC
  owner : Lock → Option Worker
  counter : ℕ
  printed : List ℕ

inductive Event (Worker : Type u) (Lock : Type v)
  | test (w : Worker)
  | lock (w : Worker) (l : Lock)
  | read (w : Worker) (v : ℕ)
  | write (w : Worker) (v : ℕ)
  | print (w : Worker) (v : ℕ)
  | unlock (w : Worker) (l : Lock)
  deriving DecidableEq, Repr

variable {Worker : Type u} {Lock : Type v}

/-- The worker that takes the step. -/
@[simp] def Event.worker : Event Worker Lock → Worker
  | .test w | .lock w _ | .read w _ | .write w _ | .print w _ | .unlock w _ => w

def initial : State Worker Lock where
  pc _ := .loop 0
  owner _ := none
  counter := 0
  printed := []

variable [DecidableEq Worker]

def State.goto (s : State Worker Lock) (w : Worker) (pc : PC) : State Worker Lock :=
  { s with pc := Function.update s.pc w pc }

/-- Moving one worker changes a sum over the workers by that worker's share. -/
theorem sum_update [Fintype Worker] (f : Worker → PC → ℕ) (pc : Worker → PC) (w : Worker)
    (p : PC) :
    ∑ v, f v (Function.update pc w p v) + f w (pc w) = ∑ v, f v (pc v) + f w p := by
  have hpoint : (fun v => f v (Function.update pc w p v)) =
      Function.update (fun v => f v (pc v)) w (f w p) :=
    funext fun v => Function.apply_update f pc w p v
  rw [hpoint, Finset.sum_update_of_mem (Finset.mem_univ w),
    Finset.sum_eq_add_sum_sdiff_singleton_of_mem (Finset.mem_univ w) fun v => f v (pc v)]
  omega

variable [DecidableEq Lock]

/-- The next step of a worker, if it is not blocked at a lock. The counter is a machine word:
it wraps at `modulus`. -/
def next (r : Worker → Routine Lock) (modulus : ℕ) (w : Worker) (s : State Worker Lock) :
    Option (Event Worker Lock × State Worker Lock) :=
  match s.pc w with
  | .loop i =>
    some (.test w, s.goto w (if i < (r w).rounds then .acquire i 0 else .returned))
  | .acquire i k =>
    match (r w).locks[k]? with
    | some l =>
      match s.owner l with
      | none =>
        some (.lock w l,
          { s.goto w (.acquire i (k + 1)) with owner := Function.update s.owner l (some w) })
      | some _ => none
    | none => some (.test w, s.goto w (.count i 0))
  | .count i j =>
    if j < (r w).increments then some (.read w s.counter, s.goto w (.write i j s.counter))
    else
      some (.print w s.counter,
        { s.goto w (.release i (r w).locks.length) with printed := s.printed ++ [s.counter] })
  | .write i j v =>
    some (.write w ((v + 1) % modulus),
      { s.goto w (.count i (j + 1)) with counter := (v + 1) % modulus })
  | .release i 0 => some (.test w, s.goto w (.loop (i + 1)))
  | .release i (k + 1) =>
    match (r w).locks[k]? with
    | some l =>
      some (.unlock w l,
        { s.goto w (.release i k) with owner := Function.update s.owner l none })
    | none => none
  | .returned => none

def lts (r : Worker → Routine Lock) (modulus : ℕ) :
    LTS (State Worker Lock) (Event Worker Lock) := .ofNext (next r modulus)

/-- The steps of the workers. -/
inductive Step (r : Worker → Routine Lock) (modulus : ℕ) :
    State Worker Lock → Event Worker Lock → State Worker Lock → Prop
  | enter {s : State Worker Lock} {w : Worker} {i : ℕ} (h : s.pc w = .loop i)
      (hi : i < (r w).rounds) : Step r modulus s (.test w) (s.goto w (.acquire i 0))
  | finish {s : State Worker Lock} {w : Worker} {i : ℕ} (h : s.pc w = .loop i)
      (hi : ¬ i < (r w).rounds) : Step r modulus s (.test w) (s.goto w .returned)
  | lock {s : State Worker Lock} {w : Worker} {i k : ℕ} {l : Lock} (h : s.pc w = .acquire i k)
      (hl : (r w).locks[k]? = some l) (ho : s.owner l = none) :
      Step r modulus s (.lock w l)
        { s.goto w (.acquire i (k + 1)) with owner := Function.update s.owner l (some w) }
  | locked {s : State Worker Lock} {w : Worker} {i k : ℕ} (h : s.pc w = .acquire i k)
      (hl : (r w).locks[k]? = none) : Step r modulus s (.test w) (s.goto w (.count i 0))
  | read {s : State Worker Lock} {w : Worker} {i j : ℕ} (h : s.pc w = .count i j)
      (hj : j < (r w).increments) :
      Step r modulus s (.read w s.counter) (s.goto w (.write i j s.counter))
  | write {s : State Worker Lock} {w : Worker} {i j v : ℕ} (h : s.pc w = .write i j v) :
      Step r modulus s (.write w ((v + 1) % modulus))
        { s.goto w (.count i (j + 1)) with counter := (v + 1) % modulus }
  | print {s : State Worker Lock} {w : Worker} {i j : ℕ} (h : s.pc w = .count i j)
      (hj : ¬ j < (r w).increments) :
      Step r modulus s (.print w s.counter)
        { s.goto w (.release i (r w).locks.length) with printed := s.printed ++ [s.counter] }
  | unlock {s : State Worker Lock} {w : Worker} {i k : ℕ} {l : Lock}
      (h : s.pc w = .release i (k + 1)) (hl : (r w).locks[k]? = some l) :
      Step r modulus s (.unlock w l)
        { s.goto w (.release i k) with owner := Function.update s.owner l none }
  | unlocked {s : State Worker Lock} {w : Worker} {i : ℕ} (h : s.pc w = .release i 0) :
      Step r modulus s (.test w) (s.goto w (.loop (i + 1)))

variable {r : Worker → Routine Lock} {modulus : ℕ} {s t : State Worker Lock}
  {e : Event Worker Lock} {w : Worker}

theorem step_of_next (h : next r modulus w s = some (e, t)) : Step r modulus s e t := by
  cases hpc : s.pc w with
  | loop i =>
    by_cases hi : i < (r w).rounds <;>
      simp only [next, hpc, hi, if_true, if_false, Option.some.injEq, Prod.mk.injEq] at h <;>
      obtain ⟨rfl, rfl⟩ := h
    · exact .enter hpc hi
    · exact .finish hpc hi
  | acquire i k =>
    cases hl : (r w).locks[k]? with
    | none =>
      simp only [next, hpc, hl, Option.some.injEq, Prod.mk.injEq] at h
      obtain ⟨rfl, rfl⟩ := h
      exact .locked hpc hl
    | some l =>
      cases ho : s.owner l with
      | some v => simp [next, hpc, hl, ho] at h
      | none =>
        simp only [next, hpc, hl, ho, Option.some.injEq, Prod.mk.injEq] at h
        obtain ⟨rfl, rfl⟩ := h
        exact .lock hpc hl ho
  | count i j =>
    by_cases hj : j < (r w).increments <;>
      simp only [next, hpc, hj, if_true, if_false, Option.some.injEq, Prod.mk.injEq] at h <;>
      obtain ⟨rfl, rfl⟩ := h
    · exact .read hpc hj
    · exact .print hpc hj
  | write i j v =>
    simp only [next, hpc, Option.some.injEq, Prod.mk.injEq] at h
    obtain ⟨rfl, rfl⟩ := h
    exact .write hpc
  | release i k =>
    cases k with
    | zero =>
      simp only [next, hpc, Option.some.injEq, Prod.mk.injEq] at h
      obtain ⟨rfl, rfl⟩ := h
      exact .unlocked hpc
    | succ k =>
      cases hl : (r w).locks[k]? with
      | none => simp [next, hpc, hl] at h
      | some l =>
        simp only [next, hpc, hl, Option.some.injEq, Prod.mk.injEq] at h
        obtain ⟨rfl, rfl⟩ := h
        exact .unlock hpc hl
  | returned => simp [next, hpc] at h

/-- The constructors of `Step` are exactly the steps that the workers take. -/
theorem tr_iff : (lts r modulus).Tr s e t ↔ Step r modulus s e t := by
  constructor
  · rintro ⟨w, h⟩
    exact step_of_next h
  · intro h
    cases h with
    | @enter w i h hi => exact ⟨w, by simp [next, h, hi]⟩
    | @finish w i h hi => exact ⟨w, by simp [next, h, hi]⟩
    | @lock w i k l h hl ho => exact ⟨w, by simp [next, h, hl, ho]⟩
    | @locked w i k h hl => exact ⟨w, by simp only [next, h, hl]⟩
    | @read w i j h hj => exact ⟨w, by simp [next, h, hj]⟩
    | @write w i j v h => exact ⟨w, by simp [next, h]⟩
    | @print w i j h hj => exact ⟨w, by simp [next, h, hj]⟩
    | @unlock w i k l h hl => exact ⟨w, by simp only [next, h, hl]⟩
    | @unlocked w i h => exact ⟨w, by simp [next, h]⟩

/-- A step moves only the worker that takes it. -/
theorem Step.pc_eq (h : Step r modulus s e t) :
    ∃ p, t.pc = Function.update s.pc e.worker p := by
  cases h <;> exact ⟨_, rfl⟩

theorem Step.pc_of_ne {v : Worker} (h : Step r modulus s e t) (hv : v ≠ e.worker) :
    t.pc v = s.pc v := by
  obtain ⟨p, hp⟩ := h.pc_eq
  rw [hp, Function.update_of_ne hv]

/-- A worker that has returned stays so. -/
theorem Step.pc_returned (h : Step r modulus s e t) (hw : s.pc w = .returned) :
    t.pc w = .returned := by
  rw [h.pc_of_ne, hw]
  rintro rfl
  cases h <;> simp_all

end Locking
