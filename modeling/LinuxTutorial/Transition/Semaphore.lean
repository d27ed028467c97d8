import Mathlib.Data.Nat.Notation
import Mathlib.Logic.Function.Basic

/-!
# Counting semaphores

A family of semaphores is the family of their values. A post adds a permit; a wait takes one,
and blocks where there is none.
-/

namespace Transition.Semaphore

universe u

variable {Index : Type u} [DecidableEq Index] {sem sem' : Index → ℕ} {i : Index}

def post (sem : Index → ℕ) (i : Index) : Index → ℕ := Function.update sem i (sem i + 1)

def wait (sem : Index → ℕ) (i : Index) : Option (Index → ℕ) :=
  match sem i with
  | 0 => none
  | n + 1 => some (Function.update sem i n)

theorem post_apply (sem : Index → ℕ) (i k : Index) :
    post sem i k = sem k + (decide (i = k)).toNat := by
  by_cases hk : i = k
  · subst k
    simp [post]
  · simp [post, hk, Function.update_of_ne (Ne.symm hk)]

theorem wait_apply (h : wait sem i = some sem') (k : Index) :
    (decide (i = k)).toNat + sem' k = sem k := by
  cases hn : sem i with
  | zero => simp [wait, hn] at h
  | succ n =>
    simp only [wait, hn, Option.some.injEq] at h
    subst h
    by_cases hk : i = k
    · subst k
      simp [hn, Nat.add_comm]
    · simp [hk, Function.update_of_ne (Ne.symm hk)]

/-- A wait blocks only on a semaphore without permits. -/
theorem wait_eq_none_iff : wait sem i = none ↔ sem i = 0 := by
  cases hn : sem i <;> simp [wait, hn]

theorem wait_of_pos (h : 0 < sem i) : ∃ sem', wait sem i = some sem' :=
  Option.ne_none_iff_exists'.mp (mt wait_eq_none_iff.mp (Nat.ne_of_gt h))

end Transition.Semaphore
