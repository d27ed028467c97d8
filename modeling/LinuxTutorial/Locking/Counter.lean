import LinuxTutorial.Locking.Progress
import Mathlib.Algebra.BigOperators.Ring.Finset
import Mathlib.Algebra.Order.BigOperators.Group.Finset

/-!
# No increment is lost

Workers that share a lock read and write the counter one at a time: the counter is the number
of increments that were made, and the printed values are its multiples in order.
-/

namespace Locking

open Transition

universe u v

variable {Worker : Type u} {Lock : Type v} {r : Worker → Routine Lock} {modulus : ℕ}
  {s t : State Worker Lock} {e : Event Worker Lock} {es : List (Event Worker Lock)} {v w : Worker}
  {l : Lock} {p : PC}

/-- The sections that a worker has completed, up to its print. -/
@[simp] def Routine.sections (r : Routine Lock) : PC → ℕ
  | .loop i | .acquire i _ | .count i _ | .write i _ _ => i
  | .release i _ => i + 1
  | .returned => r.rounds

/-- The increments of the current section. -/
@[simp] def PC.partialCount : PC → ℕ
  | .count _ j | .write _ j _ => j
  | _ => 0

/-- The increments that a worker has made. -/
def Routine.added (r : Routine Lock) (p : PC) : ℕ := r.increments * r.sections p + p.partialCount

/-- The sections that all workers have completed. -/
def completed [Fintype Worker] (r : Worker → Routine Lock) (s : State Worker Lock) : ℕ :=
  ∑ w, (r w).sections (s.pc w)

/-- The counter has every increment that was made, and no worker is about to write from an
old value. -/
structure Counted [Fintype Worker] (r : Worker → Routine Lock) (modulus : ℕ)
    (s : State Worker Lock) : Prop where
  counter : s.counter = (∑ w, (r w).added (s.pc w)) % modulus
  fresh : ∀ w i j v, s.pc w = .write i j v → v = s.counter

theorem counted_initial [Fintype Worker] : Counted r modulus initial := by
  constructor
  · simp [initial, Routine.added]
  · intro w i j v h
    simp [initial] at h

theorem partialCount_eq_zero (h : ¬ InSection r s w) : (s.pc w).partialCount = 0 := by
  cases hpc : s.pc w <;> simp_all [InSection, Routine.depth]

/-- The values printed by `n` sections, each of which adds `increments` to the counter. -/
def multiples (increments modulus n : ℕ) : List ℕ :=
  (List.range n).map fun k => increments * (k + 1) % modulus

theorem multiples_succ (increments modulus n : ℕ) : multiples increments modulus (n + 1) =
    multiples increments modulus n ++ [increments * (n + 1) % modulus] := by
  simp [multiples, List.range_succ]

theorem multiples_prefix {increments m n : ℕ} (h : m ≤ n) :
    multiples increments modulus m <+: multiples increments modulus n := by
  have htake : multiples increments modulus m = (multiples increments modulus n).take m := by
    rw [multiples, multiples, ← List.map_take, List.take_range, Nat.min_eq_left h]
  rw [htake]
  exact List.take_prefix m _

theorem multiples_length (increments modulus n : ℕ) :
    (multiples increments modulus n).length = n := by
  simp [multiples]

/-- No multiple wraps if the last one does not. -/
theorem multiples_eq_of_lt {increments n : ℕ} (h : increments * n < modulus) :
    multiples increments modulus n = (List.range n).map fun k => increments * (k + 1) := by
  refine List.map_congr_left fun k hk => Nat.mod_eq_of_lt ?_
  exact lt_of_le_of_lt (Nat.mul_le_mul_left _ (List.mem_range.mp hk)) h

/-- The sum of all increments, when only one worker can be in its section. -/
theorem sum_added [Fintype Worker] {increments : ℕ} (huniform : ∀ w, (r w).increments = increments)
    (honly : ∀ v, v ≠ w → ¬ InSection r s v) :
    ∑ v, (r v).added (s.pc v) = increments * completed r s + (s.pc w).partialCount := by
  simp only [Routine.added, huniform, completed, Finset.mul_sum, Finset.sum_add_distrib]
  congr 1
  refine Finset.sum_eq_single w (fun v _ hv => ?_) (by simp)
  exact partialCount_eq_zero (honly v hv)

theorem Routine.sections_le {r : Routine Lock} (h : r.Valid p) : r.sections p ≤ r.rounds := by
  cases p with
  | loop i => exact h
  | acquire i k => exact h.1.le
  | count i j => exact h.1.le
  | write i j v => exact h.1.le
  | release i k => exact h.1
  | returned => exact le_rfl

theorem completed_le [Fintype Worker] (hv : ∀ w, (r w).Valid (s.pc w)) :
    completed r s ≤ ∑ w, (r w).rounds :=
  Finset.sum_le_sum fun w _ => Routine.sections_le (hv w)

theorem Routine.added_le {r : Routine Lock} (h : r.Valid p) :
    r.added p ≤ r.increments * r.rounds := by
  cases p with
  | loop i => exact Nat.mul_le_mul_left _ h
  | acquire i k => exact Nat.mul_le_mul_left _ h.1.le
  | count i j =>
    have hround := Nat.mul_le_mul_left r.increments h.1
    rw [Nat.mul_succ] at hround
    exact le_trans (Nat.add_le_add_left h.2 _) hround
  | write i j v =>
    have hround := Nat.mul_le_mul_left r.increments h.1
    rw [Nat.mul_succ] at hround
    exact le_trans (Nat.add_le_add_left h.2.le _) hround
  | release i k => exact Nat.mul_le_mul_left _ h.1
  | returned => exact le_rfl

/-- A worker that is about to write has an increment left. -/
theorem Routine.added_lt {r : Routine Lock} {i j v : ℕ} (h : r.Valid (.write i j v)) :
    r.added (.write i j v) < r.increments * r.rounds := by
  have hround := Nat.mul_le_mul_left r.increments h.1
  rw [Nat.mul_succ] at hround
  exact lt_of_lt_of_le (Nat.add_lt_add_left h.2 _) hround

/-- What holds along every run of workers that share a lock. -/
structure Sound [Fintype Worker] (r : Worker → Routine Lock) (increments modulus : ℕ)
    (s : State Worker Lock) : Prop where
  owned : Owned r s
  valid : ∀ w, (r w).Valid (s.pc w)
  counted : Counted r modulus s
  printed : s.printed = multiples increments modulus (completed r s)

/-- When all workers have returned, every lock is free and every increment is in the counter. -/
theorem Sound.of_returned [Fintype Worker] {increments : ℕ} (h : Sound r increments modulus s)
    (huniform : ∀ w, (r w).increments = increments) (hret : ∀ w, s.pc w = .returned) :
    (∀ m, s.owner m = none) ∧ s.counter = increments * (∑ w, (r w).rounds) % modulus ∧
      s.printed = multiples increments modulus (∑ w, (r w).rounds) := by
  have hcompleted : completed r s = ∑ w, (r w).rounds := by
    simp only [completed, hret, Routine.sections]
  refine ⟨fun m => ?_, ?_, ?_⟩
  · cases hown : s.owner m with
    | none => rfl
    | some w =>
      have hheld := (h.owned m w).mp hown
      simp [Routine.held, Routine.depth, hret] at hheld
  · rw [h.counted.counter, ← hcompleted, completed, Finset.mul_sum]
    congr 1
    refine Finset.sum_congr rfl fun w _ => ?_
    rw [Routine.added, huniform, hret]
    rfl
  · rw [h.printed, hcompleted]

/-- The counter of workers whose increments all fit in the machine word. -/
theorem Sound.counter_eq [Fintype Worker] {increments : ℕ} (h : Sound r increments modulus s)
    (hfit : ∑ w, (r w).increments * (r w).rounds < modulus) :
    s.counter = ∑ w, (r w).added (s.pc w) := by
  rw [h.counted.counter, Nat.mod_eq_of_lt]
  exact lt_of_le_of_lt (Finset.sum_le_sum fun w _ => Routine.added_le (h.valid w)) hfit

variable [DecidableEq Worker] [Fintype Worker]

/-- A step that makes no increment. -/
theorem counted_of_added_eq (hc : Counted r modulus s) (hcnt : t.counter = s.counter)
    (hpc : t.pc = Function.update s.pc w p) (hadd : (r w).added p = (r w).added (s.pc w))
    (hfresh : ∀ i j v, p = .write i j v → v = s.counter) : Counted r modulus t := by
  constructor
  · have hsum := sum_update (fun w p => (r w).added p) s.pc w p
    rw [hcnt, hc.counter, hpc]
    congr 1
    omega
  · intro v i j x h
    rw [hpc] at h
    rw [hcnt]
    by_cases hv : v = w
    · subst v
      rw [Function.update_self] at h
      exact hfresh i j x h
    · rw [Function.update_of_ne hv] at h
      exact hc.fresh v i j x h

/-- A write from the current value adds one to the sum of the increments. -/
theorem counted_write {i j x : ℕ} (hc : Counted r modulus s)
    (honly : ∀ v, v ≠ w → ¬ InSection r s v) (h : s.pc w = .write i j x)
    (hcnt : t.counter = (x + 1) % modulus)
    (hpc : t.pc = Function.update s.pc w (.count i (j + 1))) : Counted r modulus t := by
  constructor
  · have hsum := sum_update (fun w p => (r w).added p) s.pc w (.count i (j + 1))
    have hadd : (r w).added (.count i (j + 1)) = (r w).added (s.pc w) + 1 := by
      rw [h]
      exact (Nat.add_assoc _ j 1).symm
    rw [hcnt, hc.fresh w i j x h, hc.counter, Nat.mod_add_mod, hpc]
    congr 1
    omega
  · intro v i' j' x' hv
    rw [hpc] at hv
    by_cases hvw : v = w
    · subst v
      simp at hv
    · rw [Function.update_of_ne hvw] at hv
      exact (honly v hvw (by simp [InSection, Routine.depth, hv])).elim

theorem completed_update (hpc : t.pc = Function.update s.pc w p) :
    completed r t + (r w).sections (s.pc w) = completed r s + (r w).sections p := by
  have hsum := sum_update (fun w p => (r w).sections p) s.pc w p
  rw [← hpc] at hsum
  exact hsum

/-- A step that prints nothing completes no section. -/
theorem printed_of_sections_eq {increments : ℕ}
    (hp : s.printed = multiples increments modulus (completed r s))
    (hprinted : t.printed = s.printed) (hpc : t.pc = Function.update s.pc w p)
    (hsec : (r w).sections p = (r w).sections (s.pc w)) :
    t.printed = multiples increments modulus (completed r t) := by
  have hcompleted := completed_update (r := r) hpc
  rw [hprinted, hp, show completed r t = completed r s by omega]

/-- The print that ends a section prints the next multiple. -/
theorem printed_print {increments i j : ℕ} (huniform : ∀ w, (r w).increments = increments)
    (hc : Counted r modulus s) (honly : ∀ v, v ≠ w → ¬ InSection r s v)
    (hv : (r w).Valid (s.pc w)) (h : s.pc w = .count i j) (hj : ¬ j < (r w).increments)
    (hp : s.printed = multiples increments modulus (completed r s))
    (hprinted : t.printed = s.printed ++ [s.counter])
    (hpc : t.pc = Function.update s.pc w (.release i (r w).locks.length)) :
    t.printed = multiples increments modulus (completed r t) := by
  rw [h] at hv
  have hfull : j = increments := by rw [← huniform w]; exact le_antisymm hv.2 (not_lt.mp hj)
  have hcompleted : completed r t = completed r s + 1 := by
    have hupdate := completed_update (r := r) hpc
    simp only [h, Routine.sections] at hupdate
    omega
  have hcounter : s.counter = increments * (completed r s + 1) % modulus := by
    rw [hc.counter, sum_added huniform honly, h, Nat.mul_add, Nat.mul_one, ← hfull]
    rfl
  rw [hcompleted, multiples_succ, hprinted, hp, hcounter]

variable [DecidableEq Lock]

theorem counted_step (h : Step r modulus s e t) (hl : ∀ w, l ∈ (r w).locks) (ho : Owned r s)
    (hv : ∀ w, (r w).Valid (s.pc w)) (hc : Counted r modulus s) : Counted r modulus t := by
  cases h with
  | @finish w i h hi =>
    have hw := hv w
    rw [h] at hw
    have heq : i = (r w).rounds := le_antisymm hw (not_lt.mp hi)
    exact counted_of_added_eq hc rfl rfl
      (by simp [h, heq, Routine.added]) (by simp)
  | read h hj => exact counted_of_added_eq hc rfl rfl (by simp [h, Routine.added]) (by simp)
  | @write w i j x h =>
    refine counted_write hc (fun v hvw hsec => hvw ?_) h rfl rfl
    exact ho.section_unique hl hsec (by simp [InSection, Routine.depth, h])
  | @print w i j h hj =>
    have hw := hv w
    rw [h] at hw
    have heq : j = (r w).increments := le_antisymm hw.2 (not_lt.mp hj)
    exact counted_of_added_eq hc rfl rfl
      (by simp [h, heq, Routine.added, Nat.mul_add]) (by simp)
  | enter h hi => exact counted_of_added_eq hc rfl rfl (by simp [h, Routine.added]) (by simp)
  | lock h hk hfree => exact counted_of_added_eq hc rfl rfl (by simp [h, Routine.added]) (by simp)
  | locked h hk => exact counted_of_added_eq hc rfl rfl (by simp [h, Routine.added]) (by simp)
  | unlock h hk => exact counted_of_added_eq hc rfl rfl (by simp [h, Routine.added]) (by simp)
  | unlocked h => exact counted_of_added_eq hc rfl rfl (by simp [h, Routine.added]) (by simp)

theorem printed_step {increments : ℕ} (huniform : ∀ w, (r w).increments = increments)
    (hl : ∀ w, l ∈ (r w).locks) (h : Step r modulus s e t) (ho : Owned r s)
    (hv : ∀ w, (r w).Valid (s.pc w)) (hc : Counted r modulus s)
    (hp : s.printed = multiples increments modulus (completed r s)) :
    t.printed = multiples increments modulus (completed r t) := by
  cases h with
  | @print w i j h hj =>
    refine printed_print huniform hc (fun v hvw hsec => hvw ?_) (hv w) h hj hp rfl rfl
    exact ho.section_unique hl hsec (by simp [InSection, Routine.depth, h])
  | @finish w i h hi =>
    have hw := hv w
    rw [h] at hw
    refine printed_of_sections_eq hp rfl rfl ?_
    rw [h]
    exact le_antisymm (not_lt.mp hi) hw
  | enter h hi => exact printed_of_sections_eq hp rfl rfl (by simp [h])
  | lock h hk hfree => exact printed_of_sections_eq hp rfl rfl (by simp [h])
  | locked h hk => exact printed_of_sections_eq hp rfl rfl (by simp [h])
  | read h hj => exact printed_of_sections_eq hp rfl rfl (by simp [h])
  | write h => exact printed_of_sections_eq hp rfl rfl (by simp [h])
  | unlock h hk => exact printed_of_sections_eq hp rfl rfl (by simp [h])
  | unlocked h => exact printed_of_sections_eq hp rfl rfl (by simp [h])

theorem sound_run {increments : ℕ} (huniform : ∀ w, (r w).increments = increments)
    (hl : ∀ w, l ∈ (r w).locks) (h : (lts r modulus).MTr initial es s) :
    Sound r increments modulus s := by
  refine h.invariant ?_ ?_
  · refine ⟨owned_initial, fun _ => Nat.zero_le _, counted_initial, ?_⟩
    simp [initial, completed, multiples]
  · intro s e t hs htr
    have hstep := tr_iff.mp htr
    exact ⟨owned_step hstep hs.owned, valid_step hstep hs.valid,
      counted_step hstep hl hs.owned hs.valid hs.counted,
      printed_step huniform hl hstep hs.owned hs.valid hs.counted hs.printed⟩

/-- If all increments fit in the machine word, a write adds one to the current value: it
neither wraps nor undoes an increment of another worker. -/
theorem Sound.write_eq {increments x : ℕ} (hs : Sound r increments modulus s)
    (hfit : ∑ w, (r w).increments * (r w).rounds < modulus)
    (h : Step r modulus s (.write w x) t) : x = s.counter + 1 ∧ t.counter = s.counter + 1 := by
  cases h with
  | @write _ i j v h =>
    have hlt : s.counter < ∑ w, (r w).increments * (r w).rounds := by
      rw [hs.counter_eq hfit]
      refine Finset.sum_lt_sum (fun v _ => Routine.added_le (hs.valid v)) ⟨w, by simp, ?_⟩
      have hw := hs.valid w
      rw [h] at hw ⊢
      exact Routine.added_lt hw
    have hmod : (v + 1) % modulus = s.counter + 1 := by
      rw [hs.counted.fresh w i j v h]
      exact Nat.mod_eq_of_lt (by omega)
    exact ⟨hmod, hmod⟩

end Locking
