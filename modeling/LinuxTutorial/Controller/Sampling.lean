import LinuxTutorial.Controller.Interference

/-!
# The cycle of a table and the wrap of its counter

Each probe of `StateMc_pThread.c` reads its table at a counter of its own, modulo ten. Ten does
not divide the range of the counter.
-/

namespace LinuxTutorial.Controller

open Transition

variable {g : Globals} {p : Probe} {xs : List Iteration} {n : ℕ} {v : Int32}

/-- The `n`-th value of a probe that follows the cyclic order of its table for ever. -/
def cyclicValue (p : Probe) (n : ℕ) : Int32 := data p (Fin.ofNat 10 n)

theorem data_injective (p : Probe) : Function.Injective (data p) := by
  cases p <;> decide

/-- A counter after `n` increments. -/
theorem counter_iterate (n : ℕ) (i : UInt32) : (· + 1)^[n] i = i + UInt32.ofNat n := by
  induction n with
  | zero => exact (UInt32.add_zero i).symm
  | succ n ih => rw [Function.iterate_succ_apply', ih, UInt32.ofNat_add, UInt32.add_assoc]; rfl

/-- The `n`-th value of a probe is the table entry at the counter, which has come round every
`2 ^ 32` readings. -/
theorem assigned_eq_wrapped (h : (assigned p initial xs)[n]? = some v) :
    v = cyclicValue p (n % 2 ^ 32) := by
  have hindex : initial.index p = 0 := by cases p <;> rfl
  rw [(indexedBy p).getElem?_outputs h, hindex, counter_iterate, UInt32.zero_add]
  refine congrArg (data p) (Fin.ext ?_)
  simp

theorem cyclicValue_inj {m : ℕ} : cyclicValue p m = cyclicValue p n ↔ m % 10 = n % 10 := by
  rw [cyclicValue, cyclicValue, (data_injective p).eq_iff, Fin.ext_iff]
  rfl

/-- A counter that wraps at `W` falls back by six entries each time. -/
theorem mod_mod_ten_eq_iff {W : ℕ} (hW : W % 10 = 6) :
    n % W % 10 = n % 10 ↔ n / W % 5 = 0 := by
  have hn : n % 10 = (6 * (n / W % 10) + n % W % 10) % 10 := by
    conv_lhs => rw [← Nat.div_add_mod n W, Nat.add_mod, Nat.mul_mod, hW]
    omega
  omega

/-- The `n`-th value follows the cycle of the table exactly when the counter has wrapped a
multiple of five times before it. -/
theorem follows_cycle_iff (h : (assigned p initial xs)[n]? = some v) :
    v = cyclicValue p n ↔ n / 2 ^ 32 % 5 = 0 := by
  rw [assigned_eq_wrapped h, cyclicValue_inj]
  exact mod_mod_ten_eq_iff rfl

/-- The second reading of the conductivity. -/
theorem follows_cycle_iff_cond : (11 : Int32) = cyclicValue .cond 1 := by
  have h : (assigned .cond initial [.stateMachine, .timerEvent, .timerEvent])[1]? = some 11 := rfl
  exact (follows_cycle_iff h).mpr rfl

/-- In mode COND every timer iteration reads the conductivity. -/
theorem assigned_replicate (h : g.stateSingleton = .cond) (k : ℕ) :
    (assigned .cond g (List.replicate k .timerEvent)).length = k := by
  induction k generalizing g with
  | zero => rfl
  | succ k ih =>
    have hcond : controller.step .timerEvent g = timerEventThread g := rfl
    have hmode : (controller.step .timerEvent g).2.stateSingleton = .cond := by
      simp [hcond, timerEventThread, h]
    have htail := ih hmode
    simp only [assigned] at htail ⊢
    rw [List.replicate_succ, Transducer.filterMap_outputs_cons, List.length_append, htail]
    simp [hcond, timerEventThread, h, Sample.at?, Nat.add_comm]

/-- After the wrap the conductivity starts again at the first entry of its table, where the
seventh one is due. -/
theorem not_follows_cycle : ¬ ∀ p xs n v, (assigned p initial xs)[n]? = some v →
    v = cyclicValue p n := by
  intro hall
  have hlength : 2 ^ 32 < (assigned .cond initial
      (.stateMachine :: List.replicate (2 ^ 32 + 1) .timerEvent)).length := by
    have hmode : (controller.step .stateMachine initial).2.stateSingleton = .cond := rfl
    have hk := assigned_replicate hmode (2 ^ 32 + 1)
    simp only [assigned] at hk ⊢
    rw [Transducer.filterMap_outputs_cons, List.length_append, hk]
    omega
  have hv := List.getElem?_eq_getElem hlength
  have hcycle := hall _ _ _ _ hv
  rw [assigned_eq_wrapped hv, cyclicValue_inj] at hcycle
  exact absurd hcycle (by decide)

end LinuxTutorial.Controller
