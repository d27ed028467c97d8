import LinuxTutorial.Locking.Ownership
import Mathlib.Data.Fintype.Lattice

/-!
# Progress

A worker is stopped only by the owner of a lock. If every worker takes its locks in
increasing order, some worker can always take a step, and every run ends.
-/

namespace Locking

open Transition

universe u v

variable {Worker : Type u} {Lock : Type v} {r : Worker → Routine Lock} {modulus : ℕ}
  {s t : State Worker Lock} {e : Event Worker Lock} {es : List (Event Worker Lock)} {v w : Worker}
  {l : Lock}

/-- The bounds of the counters in a position. -/
def Routine.Valid (r : Routine Lock) : PC → Prop
  | .loop i => i ≤ r.rounds
  | .acquire i k | .release i k => i < r.rounds ∧ k ≤ r.locks.length
  | .count i j => i < r.rounds ∧ j ≤ r.increments
  | .write i j _ => i < r.rounds ∧ j < r.increments
  | .returned => True

/-- The worker waits for a lock that another step would have to give back. -/
def Blocked (r : Worker → Routine Lock) (s : State Worker Lock) (w : Worker) (l : Lock) : Prop :=
  ∃ i k v, s.pc w = .acquire i k ∧ (r w).locks[k]? = some l ∧ s.owner l = some v

/-- A lock that a blocked worker holds comes before the one it waits for. -/
theorem Blocked.rank_lt {rank : Lock → ℕ} {m : Lock} (h : Blocked r s w m)
    (hrank : (r w).locks.Pairwise fun a b => rank a < rank b)
    (hl : l ∈ (r w).held (s.pc w)) : rank l < rank m := by
  obtain ⟨i, k, v, hpc, hm, -⟩ := h
  rw [Routine.held, hpc] at hl
  have htake := hrank.sublist (List.take_sublist (k + 1) _)
  rw [List.take_add_one, hm] at htake
  exact (List.pairwise_append.mp htake).2.2 l hl m (by simp)

/-- A worker that is in its section waits for nothing. -/
theorem Blocked.not_inSection (h : Blocked r s w l) : ¬ InSection r s w := by
  obtain ⟨i, k, v, hpc, hl, -⟩ := h
  intro hin
  rw [InSection, hpc] at hin
  exact absurd (List.getElem?_eq_some_iff.mp hl).1 (not_lt.mpr hin)

variable [DecidableEq Worker]

theorem valid_update {p q : PC} (hs : ∀ w, (r w).Valid (s.pc w)) (h : s.pc w = q)
    (hp : (r w).Valid q → (r w).Valid p) : ∀ v, (r v).Valid (Function.update s.pc w p v) := by
  intro v
  by_cases hv : v = w
  · subst v
    rw [Function.update_self]
    exact hp (h ▸ hs w)
  · rw [Function.update_of_ne hv]
    exact hs v

variable [DecidableEq Lock]

theorem valid_step (h : Step r modulus s e t) (hs : ∀ w, (r w).Valid (s.pc w)) :
    ∀ w, (r w).Valid (t.pc w) := by
  cases h with
  | enter h hi => exact valid_update hs h fun _ => ⟨hi, Nat.zero_le _⟩
  | finish h hi => exact valid_update hs h fun _ => trivial
  | lock h hl ho =>
    have hk := (List.getElem?_eq_some_iff.mp hl).1
    exact valid_update hs h fun hw => ⟨hw.1, hk⟩
  | locked h hl => exact valid_update hs h fun hw => ⟨hw.1, Nat.zero_le _⟩
  | read h hj => exact valid_update hs h fun hw => ⟨hw.1, hj⟩
  | write h => exact valid_update hs h fun hw => hw
  | print h hj => exact valid_update hs h fun hw => ⟨hw.1, le_rfl⟩
  | unlock h hl => exact valid_update hs h fun hw => ⟨hw.1, Nat.le_of_succ_le hw.2⟩
  | unlocked h => exact valid_update hs h fun hw => hw.1

/-- A worker that has not finished can take a step of its own, or is blocked at a lock. -/
theorem own_step_or_blocked (modulus : ℕ) (hv : (r w).Valid (s.pc w)) (hw : s.pc w ≠ .returned) :
    (∃ e t, Step r modulus s e t ∧ e.worker = w) ∨ ∃ l, Blocked r s w l := by
  cases h : s.pc w with
  | returned => exact (hw h).elim
  | loop i =>
    left
    by_cases hi : i < (r w).rounds
    · exact ⟨_, _, .enter h hi, rfl⟩
    · exact ⟨_, _, .finish h hi, rfl⟩
  | acquire i k =>
    cases hl : (r w).locks[k]? with
    | none => exact Or.inl ⟨_, _, .locked h hl, rfl⟩
    | some l =>
      cases ho : s.owner l with
      | none => exact Or.inl ⟨_, _, .lock h hl ho, rfl⟩
      | some v => exact Or.inr ⟨l, i, k, v, h, hl, ho⟩
  | count i j =>
    left
    by_cases hj : j < (r w).increments
    · exact ⟨_, _, .read h hj, rfl⟩
    · exact ⟨_, _, .print h hj, rfl⟩
  | write i j v => exact Or.inl ⟨_, _, .write h, rfl⟩
  | release i k =>
    left
    cases k with
    | zero => exact ⟨_, _, .unlocked h, rfl⟩
    | succ k =>
      rw [h] at hv
      exact ⟨_, _, .unlock h (List.getElem?_eq_getElem hv.2), rfl⟩

/-- A worker that has not finished takes a step or is blocked at a lock. -/
theorem step_or_blocked (modulus : ℕ) (hv : (r w).Valid (s.pc w)) (hw : s.pc w ≠ .returned) :
    (∃ e t, Step r modulus s e t) ∨ ∃ l, Blocked r s w l := by
  rcases own_step_or_blocked modulus hv hw with ⟨e, t, h, -⟩ | hb
  · exact Or.inl ⟨e, t, h⟩
  · exact Or.inr hb

/-- A blocked worker takes no step. -/
theorem Blocked.not_step (hb : Blocked r s e.worker l) : ¬ Step r modulus s e t := by
  obtain ⟨i, k, v, hpc, hl, hown⟩ := hb
  intro h
  cases h with
  | lock h hl' hfree =>
    obtain ⟨rfl, rfl⟩ := PC.acquire.inj (hpc.symm.trans h)
    obtain rfl := Option.some.inj (hl.symm.trans hl')
    exact absurd (hown.symm.trans hfree) (by simp)
  | locked h hnone =>
    obtain ⟨rfl, rfl⟩ := PC.acquire.inj (hpc.symm.trans h)
    exact absurd (hl.symm.trans hnone) (by simp)
  | enter h => exact PC.noConfusion (hpc.symm.trans h)
  | finish h => exact PC.noConfusion (hpc.symm.trans h)
  | read h => exact PC.noConfusion (hpc.symm.trans h)
  | write h => exact PC.noConfusion (hpc.symm.trans h)
  | print h => exact PC.noConfusion (hpc.symm.trans h)
  | unlock h => exact PC.noConfusion (hpc.symm.trans h)
  | unlocked h => exact PC.noConfusion (hpc.symm.trans h)

/-- In a state without a step, every worker that has not finished is blocked. -/
theorem blocked_of_terminal (hv : ∀ w, (r w).Valid (s.pc w)) (ht : (lts r modulus).Terminal s)
    (hw : s.pc w ≠ .returned) : ∃ l, Blocked r s w l := by
  rcases step_or_blocked modulus (hv w) hw with ⟨e, t, h⟩ | hb
  · exact (ht e t (tr_iff.mpr h)).elim
  · exact hb

/-- If every worker takes its locks in increasing order, a state without a step is one in
which every worker has finished. -/
theorem returned_of_terminal [Finite Worker] (rank : Lock → ℕ)
    (hrank : ∀ w, (r w).locks.Pairwise fun a b => rank a < rank b) (ho : Owned r s)
    (hv : ∀ w, (r w).Valid (s.pc w)) (ht : (lts r modulus).Terminal s) (w : Worker) :
    s.pc w = .returned := by
  by_contra hw
  have hne : Nonempty {u // s.pc u ≠ .returned} := ⟨⟨w, hw⟩⟩
  choose f hf using fun u : {u // s.pc u ≠ .returned} => blocked_of_terminal hv ht u.2
  -- the owner of the highest lock that is waited for would wait for a higher one
  obtain ⟨u, hu⟩ := Finite.exists_max fun u => rank (f u)
  obtain ⟨i, k, v, -, -, hown⟩ := hf u
  have hheld := (ho (f u) v).mp hown
  have hv' : s.pc v ≠ .returned := by
    intro hr
    simp [Routine.held, Routine.depth, hr] at hheld
  have hlt := (hf ⟨v, hv'⟩).rank_lt (hrank v) hheld
  exact absurd (hu ⟨v, hv'⟩) (not_le.mpr hlt)

/-- If only finished workers are ever stuck, an unfinished one means that some worker can
move. -/
theorem exists_tr_of_returned (h : (lts r modulus).Terminal s → ∀ w, s.pc w = .returned)
    (hw : ∃ w, s.pc w ≠ .returned) : ∃ e t, (lts r modulus).Tr s e t := by
  obtain ⟨w, hw⟩ := hw
  by_contra hstuck
  exact hw (h (fun e t ht => hstuck ⟨e, t, ht⟩) w)

/-- What a worker at this position has left to do, in steps. -/
def Routine.left (r : Routine Lock) (p : PC) : ℕ :=
  let release := r.locks.length + 2
  let count := 2 * r.increments + release
  let round := r.locks.length + 2 + count
  match p with
  | .loop i => (r.rounds - i) * round + 1
  | .acquire i k => (r.rounds - (i + 1)) * round + (r.locks.length - k) + count + 2
  | .count i j => (r.rounds - (i + 1)) * round + 2 * (r.increments - j) + release + 1
  | .write i j _ => (r.rounds - (i + 1)) * round + 2 * (r.increments - (j + 1)) + release + 2
  | .release i k => (r.rounds - (i + 1)) * round + k + 2
  | .returned => 0

/-- Every step brings the worker that takes it closer to its end. -/
theorem left_step (h : Step r modulus s e t) :
    ∃ w p, t.pc = Function.update s.pc w p ∧ (r w).left p < (r w).left (s.pc w) := by
  cases h with
  | @enter w i h hi =>
    refine ⟨w, _, rfl, ?_⟩
    have hround : (r w).rounds - i = (r w).rounds - (i + 1) + 1 := by omega
    simp only [h, Routine.left, hround, Nat.add_mul]
    omega
  | @finish w i h hi =>
    exact ⟨w, _, rfl, by simp [h, Routine.left]⟩
  | @lock w i k l h hl ho =>
    refine ⟨w, _, rfl, ?_⟩
    have hk := (List.getElem?_eq_some_iff.mp hl).1
    simp only [h, Routine.left]
    omega
  | @locked w i k h hl =>
    refine ⟨w, _, rfl, ?_⟩
    simp only [h, Routine.left]
    omega
  | @read w i j h hj =>
    refine ⟨w, _, rfl, ?_⟩
    simp only [h, Routine.left]
    omega
  | @write w i j v h =>
    refine ⟨w, _, rfl, ?_⟩
    simp only [h, Routine.left]
    omega
  | @print w i j h hj =>
    refine ⟨w, _, rfl, ?_⟩
    simp only [h, Routine.left]
    omega
  | @unlock w i k l h hl =>
    refine ⟨w, _, rfl, ?_⟩
    simp only [h, Routine.left]
    omega
  | @unlocked w i h =>
    refine ⟨w, _, rfl, ?_⟩
    simp only [h, Routine.left]
    omega

theorem sum_left_lt [Fintype Worker] (h : Step r modulus s e t) :
    ∑ w, (r w).left (t.pc w) < ∑ w, (r w).left (s.pc w) := by
  obtain ⟨w, p, hpc, hlt⟩ := left_step h
  have hsum := sum_update (fun w p => (r w).left p) s.pc w p
  rw [← hpc] at hsum
  change ∑ v, (r v).left (t.pc v) < ∑ v, (r v).left (s.pc v)
  omega

/-- No run goes on forever, whatever the order of the locks is. -/
theorem not_infinite [Fintype Worker] {run : ℕ → State Worker Lock}
    {label : ℕ → Event Worker Lock} :
    ¬ ∀ n, (lts r modulus).Tr (run n) (label n) (run (n + 1)) := by
  refine LTS.no_infinite_run (fun _ => True) (fun s => ∑ w, (r w).left (s.pc w))
    (fun _ _ _ _ _ => trivial) (fun s e t _ hs => ?_) trivial
  exact sum_left_lt (tr_iff.mp hs)

end Locking
