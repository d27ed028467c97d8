import LinuxTutorial.Locking.Routine

/-!
# Who owns a lock

A lock is owned by the worker whose position says that it holds it. Two workers that take a
common lock are never both in their sections.
-/

namespace Locking

open Transition

universe u v

variable {Worker : Type u} {Lock : Type v} {r : Worker → Routine Lock} {modulus : ℕ}
  {s t : State Worker Lock} {e : Event Worker Lock} {es : List (Event Worker Lock)} {v w : Worker}
  {l : Lock} {p : PC}

/-- How many of its locks a worker holds. It holds the first ones of its list. -/
def Routine.depth (r : Routine Lock) : PC → ℕ
  | .loop _ | .returned => 0
  | .acquire _ k | .release _ k => k
  | .count _ _ | .write _ _ _ => r.locks.length

def Routine.held (r : Routine Lock) (p : PC) : List Lock := r.locks.take (r.depth p)

/-- The worker is between its last lock and its first unlock. -/
def InSection (r : Worker → Routine Lock) (s : State Worker Lock) (w : Worker) : Prop :=
  (r w).locks.length ≤ (r w).depth (s.pc w)

/-- The owners of the locks are the workers that hold them. -/
def Owned (r : Worker → Routine Lock) (s : State Worker Lock) : Prop :=
  ∀ l w, s.owner l = some w ↔ l ∈ (r w).held (s.pc w)

theorem Routine.mem_take_succ {r : Routine Lock} {k : ℕ} (hl : r.locks[k]? = some l) {m : Lock} :
    m ∈ r.locks.take (k + 1) ↔ m ∈ r.locks.take k ∨ m = l := by
  simp [List.take_add_one, hl]

/-- The lock that is taken next is not held yet. -/
theorem Routine.not_mem_take {r : Routine Lock} {k : ℕ} (hl : r.locks[k]? = some l) :
    l ∉ r.locks.take k := by
  have hn := r.nodup.sublist (List.take_sublist (k + 1) r.locks)
  rw [List.take_add_one, hl] at hn
  exact fun hmem => (List.nodup_append.mp hn).2.2 l hmem l (by simp) rfl

theorem owned_initial : Owned r initial := by
  intro l w
  simp [initial, Routine.held, Routine.depth]

theorem Owned.eq_of_held (ho : Owned r s) (hv : l ∈ (r v).held (s.pc v))
    (hw : l ∈ (r w).held (s.pc w)) : v = w :=
  Option.some.inj (((ho l v).mpr hv).symm.trans ((ho l w).mpr hw))

/-- Workers that share a lock are never both in their sections. -/
theorem Owned.section_unique (ho : Owned r s) (hl : ∀ w, l ∈ (r w).locks)
    (hv : InSection r s v) (hw : InSection r s w) : v = w := by
  refine ho.eq_of_held (l := l) ?_ ?_
  · rw [Routine.held, List.take_of_length_le hv]
    exact hl v
  · rw [Routine.held, List.take_of_length_le hw]
    exact hl w

/-- A lock that is only ever taken under a guard is free for the worker that holds the
guard. -/
theorem Owned.free_of_guard (ho : Owned r s) {g : Lock} {i k : ℕ}
    (hguard : ∀ v n, l ∈ (r v).locks.take n → g ∈ (r v).locks.take n)
    (h : s.pc w = .acquire i k) (hl : (r w).locks[k]? = some l)
    (hg : g ∈ (r w).locks.take k) : s.owner l = none := by
  cases hown : s.owner l with
  | none => rfl
  | some v =>
    have hv := (ho l v).mp hown
    have hvw : v = w := by
      refine ho.eq_of_held (hguard v _ hv) ?_
      simpa [Routine.held, Routine.depth, h] using hg
    subst v
    rw [Routine.held, h] at hv
    exact (Routine.not_mem_take hl hv).elim

variable [DecidableEq Worker]

/-- A step that takes or gives back no lock. -/
theorem owned_of_held_eq (ho : Owned r s) (hown : t.owner = s.owner)
    (hpc : t.pc = Function.update s.pc w p) (hp : (r w).held p = (r w).held (s.pc w)) :
    Owned r t := by
  intro l v
  rw [hown, hpc, ho l v]
  by_cases hv : v = w
  · subst v
    rw [Function.update_self, hp]
  · rw [Function.update_of_ne hv]

variable [DecidableEq Lock]

theorem owned_lock {k : ℕ} (ho : Owned r s) (hfree : s.owner l = none)
    (hl : (r w).locks[k]? = some l) (hs : (r w).depth (s.pc w) = k)
    (hown : t.owner = Function.update s.owner l (some w))
    (hpc : t.pc = Function.update s.pc w p) (hp : (r w).depth p = k + 1) : Owned r t := by
  intro m v
  have hm := ho m v
  rw [hown, hpc]
  by_cases hv : v = w
  · subst v
    simp only [Routine.held, hs] at hm
    rw [Function.update_self, Routine.held, hp, Routine.mem_take_succ hl, ← hm]
    by_cases hml : m = l <;> simp [hml]
  · rw [Function.update_of_ne hv, ← hm]
    by_cases hml : m = l
    · subst m
      simp [hfree, Ne.symm hv]
    · rw [Function.update_of_ne hml]

theorem owned_unlock {k : ℕ} (ho : Owned r s) (hl : (r w).locks[k]? = some l)
    (hs : (r w).depth (s.pc w) = k + 1) (hown : t.owner = Function.update s.owner l none)
    (hpc : t.pc = Function.update s.pc w p) (hp : (r w).depth p = k) : Owned r t := by
  have hlw : s.owner l = some w := by
    rw [ho l w, Routine.held, hs]
    exact (Routine.mem_take_succ hl).mpr (Or.inr rfl)
  intro m v
  have hm := ho m v
  rw [hown, hpc]
  by_cases hml : m = l
  · subst m
    by_cases hv : v = w
    · subst v
      simpa [Routine.held, hp] using Routine.not_mem_take hl
    · rw [Function.update_of_ne hv, Function.update_self, ← hm, hlw]
      simp [Ne.symm hv]
  · rw [Function.update_of_ne hml, hm]
    by_cases hv : v = w
    · subst v
      rw [Function.update_self, Routine.held, hs, Routine.held, hp, Routine.mem_take_succ hl]
      simp [hml]
    · rw [Function.update_of_ne hv]

theorem owned_step (h : Step r modulus s e t) (ho : Owned r s) : Owned r t := by
  cases h with
  | enter h hi => exact owned_of_held_eq ho rfl rfl (by simp [Routine.held, Routine.depth, h])
  | finish h hi => exact owned_of_held_eq ho rfl rfl (by simp [Routine.held, Routine.depth, h])
  | lock h hl hfree => exact owned_lock ho hfree hl (by simp [Routine.depth, h]) rfl rfl rfl
  | locked h hl =>
    refine owned_of_held_eq ho rfl rfl ?_
    simp only [Routine.held, Routine.depth, h]
    rw [List.take_length, List.take_of_length_le (List.getElem?_eq_none_iff.mp hl)]
  | read h hj => exact owned_of_held_eq ho rfl rfl (by simp [Routine.held, Routine.depth, h])
  | write h => exact owned_of_held_eq ho rfl rfl (by simp [Routine.held, Routine.depth, h])
  | print h hj => exact owned_of_held_eq ho rfl rfl (by simp [Routine.held, Routine.depth, h])
  | unlock h hl => exact owned_unlock ho hl (by simp [Routine.depth, h]) rfl rfl rfl
  | unlocked h => exact owned_of_held_eq ho rfl rfl (by simp [Routine.held, Routine.depth, h])

end Locking
