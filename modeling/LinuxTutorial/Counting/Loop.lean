import Mathlib.Data.List.Basic

/-!
# Counting loops over `int32_t`

`for (int32_t i = 1; i <= bound; i++)` in the steps at which an interleaving can cut it, and as
the list of the values that its body sees. Both are undefined where `i++` overflows.
-/

namespace Counting

/-- `i++`, undefined at `INT32_MAX`. -/
def increment (i : Int32) : Option Int32 := if i = Int32.maxValue then none else some (i + 1)

/-- How many increments are left to a counter. -/
def room (i : Int32) : ℕ := (Int32.maxValue.toInt - i.toInt).toNat

variable {i j bound : Int32} {n : ℕ}

theorem increment_eq_some (h : increment i = some j) : j.toInt = i.toInt + 1 := by
  simp only [increment, Option.ite_none_left_eq_some, Option.some.injEq] at h
  obtain ⟨hne, rfl⟩ := h
  have hmax : i.toInt ≠ Int32.maxValue.toInt := fun heq => hne (Int32.toInt_inj.mp heq)
  have hle := i.toInt_le
  have hge := i.le_toInt
  rw [Int32.toInt_maxValue] at hmax hle
  rw [Int32.toInt_add]
  exact Int.bmod_eq_of_le (by simp; omega) (by simp; omega)

theorem increment_of_ne (h : i ≠ Int32.maxValue) : increment i = some (i + 1) := if_neg h

theorem room_lt (h : increment i = some j) : room j < room i := by
  have hsucc := increment_eq_some h
  have hle := j.toInt_le
  simp only [room]
  omega

/-- The values of `i` in `for (int32_t i = ...; i <= bound; i++)` from `i` on. -/
def count (bound i : Int32) : Option (List Int32) :=
  if i ≤ bound then
    match _h : increment i with
    | none => none
    | some j => (count bound j).map (i :: ·)
  else some []
termination_by room i
decreasing_by exact room_lt _h

theorem count_of_le (h : i ≤ bound) (hj : increment i = some j) :
    count bound i = (count bound j).map (i :: ·) := by
  rw [count, if_pos h]
  split
  · rename_i hnone
    simp [hj] at hnone
  · rename_i k hk
    rw [hj] at hk
    rw [Option.some.inj hk]

theorem count_of_overflow (h : i ≤ bound) (hj : increment i = none) : count bound i = none := by
  rw [count, if_pos h]
  split
  · rfl
  · rename_i k hk
    simp [hj] at hk

theorem count_of_not_le (h : ¬ i ≤ bound) : count bound i = some [] := by
  rw [count, if_neg h]

/-- The largest bound is reached by no counter that could go past it. -/
theorem count_maxValue (i : Int32) : count Int32.maxValue i = none := by
  induction hn : room i using Nat.strongRecOn generalizing i with
  | ind n ih =>
    cases hj : increment i with
    | none => exact count_of_overflow (Int32.le_maxValue i) hj
    | some j =>
      rw [count_of_le (Int32.le_maxValue i) hj, ih _ (hn ▸ room_lt hj) j rfl]
      rfl

/-- `1, 2, ..., bound`, or nothing where the bound is not positive. -/
def upTo (bound : Int32) : List Int32 :=
  (List.range bound.toInt.toNat).map fun k => Int32.ofNat (k + 1)

/-- A counter that has come to `n + 1`. -/
theorem count_from (h : bound ≠ Int32.maxValue) (hi : i.toInt = n + 1) :
    count bound i = some ((List.range' n (bound.toInt.toNat - n)).map
      fun k => Int32.ofNat (k + 1)) := by
  induction hd : bound.toInt.toNat - n generalizing i n with
  | zero =>
    have hgt : ¬ i ≤ bound := by
      rw [Int32.le_iff_toInt_le]
      omega
    rw [count_of_not_le hgt]
    rfl
  | succ d ih =>
    have hle : i ≤ bound := by
      rw [Int32.le_iff_toInt_le]
      omega
    have hne : i ≠ Int32.maxValue := by
      rintro rfl
      exact h (Int32.maxValue_le_iff.mp hle)
    have hsucc := increment_eq_some (increment_of_ne hne)
    have hi' : i = Int32.ofNat (n + 1) := by
      have hmax := i.toInt_le
      rw [Int32.toInt_maxValue] at hmax
      rw [← Int32.toInt_inj, Int32.toInt_ofNat_of_lt (by omega), hi]
      rfl
    have hrest := ih (i := i + 1) (n := n + 1) (by rw [hsucc, hi]; rfl) (by omega)
    rw [count_of_le hle (increment_of_ne hne), hrest, List.range'_succ, List.map_cons, ← hi']
    rfl

/-- Below `INT32_MAX` a loop that starts at one runs through to its bound. -/
theorem count_one (h : bound ≠ Int32.maxValue) : count bound 1 = some (upTo bound) := by
  have hone : (1 : Int32).toInt = ((0 : ℕ) : Int) + 1 := rfl
  rw [count_from h hone, upTo, List.range_eq_range']
  rfl

/-- One more increment adds one more value. -/
theorem upTo_increment (hi : 0 ≤ i.toInt) (h : increment i = some j) :
    upTo j = upTo i ++ [j] := by
  have hsucc := increment_eq_some h
  have hj : j = Int32.ofNat (i.toInt.toNat + 1) := by
    have hmax := j.toInt_le
    rw [Int32.toInt_maxValue] at hmax
    rw [← Int32.toInt_inj, Int32.toInt_ofNat_of_lt (by omega)]
    omega
  have hn : j.toInt.toNat = i.toInt.toNat + 1 := by omega
  rw [upTo, upTo, hn, List.range_succ, List.map_append, List.map_singleton, ← hj]

/-- Where a loop is: before its test, its body or its increment, past it, or undefined. -/
inductive LoopPC
  | test (i : Int32)
  | body (i : Int32)
  | increment (i : Int32)
  | done
  | overflow
  deriving DecidableEq, Repr

inductive LoopEvent
  | test
  | body (i : Int32)
  | increment
  | overflow
  deriving DecidableEq, Repr

/-- The value that the body sees. -/
def LoopEvent.value? : LoopEvent → Option Int32
  | .body i => some i
  | _ => none

namespace LoopPC

def next (bound : Int32) : LoopPC → Option (LoopEvent × LoopPC)
  | .test i => some (.test, if i ≤ bound then .body i else .done)
  | .body i => some (.body i, .increment i)
  | .increment i =>
    match Counting.increment i with
    | none => some (.overflow, .overflow)
    | some j => some (.increment, .test j)
  | .done | .overflow => none

/-- The values that the body has still to see. -/
def rest (bound : Int32) : LoopPC → Option (List Int32)
  | .test i => count bound i
  | .body i =>
    match Counting.increment i with
    | none => none
    | some j => (count bound j).map (i :: ·)
  | .increment i =>
    match Counting.increment i with
    | none => none
    | some j => count bound j
  | .done => some []
  | .overflow => none

def left : LoopPC → ℕ
  | .test i => 3 * room i + 3
  | .body i => 3 * room i + 2
  | .increment i => 3 * room i + 1
  | .done | .overflow => 0

variable {pc pc' : LoopPC} {e : LoopEvent}

/-- What a step shows of the values comes off those that are still to come. -/
theorem rest_next (h : pc.next bound = some (e, pc')) :
    pc.rest bound = (pc'.rest bound).map (e.value?.toList ++ ·) := by
  cases pc with
  | test i =>
    obtain ⟨rfl, rfl⟩ := Prod.mk.inj (Option.some.inj h)
    by_cases hi : i ≤ bound
    · cases hj : Counting.increment i with
      | none => simp [rest, hi, hj, count_of_overflow hi hj]
      | some j => simp [rest, hi, hj, count_of_le hi hj, LoopEvent.value?, Function.comp_def]
    · simp [rest, hi, count_of_not_le hi, LoopEvent.value?]
  | body i =>
    obtain ⟨rfl, rfl⟩ := Prod.mk.inj (Option.some.inj h)
    cases hj : Counting.increment i <;> simp [rest, hj, LoopEvent.value?]
  | increment i =>
    cases hj : Counting.increment i with
    | none =>
      simp only [next, hj, Option.some.injEq, Prod.mk.injEq] at h
      obtain ⟨rfl, rfl⟩ := h
      simp [rest, hj]
    | some j =>
      simp only [next, hj, Option.some.injEq, Prod.mk.injEq] at h
      obtain ⟨rfl, rfl⟩ := h
      simp [rest, hj, LoopEvent.value?]
  | done => simp [next] at h
  | overflow => simp [next] at h

theorem left_lt (h : pc.next bound = some (e, pc')) : pc'.left < pc.left := by
  cases pc with
  | test i =>
    obtain ⟨rfl, rfl⟩ := Prod.mk.inj (Option.some.inj h)
    split <;> simp [left]
  | body i =>
    obtain ⟨rfl, rfl⟩ := Prod.mk.inj (Option.some.inj h)
    simp [left]
  | increment i =>
    cases hj : Counting.increment i with
    | none =>
      simp only [next, hj, Option.some.injEq, Prod.mk.injEq] at h
      obtain ⟨rfl, rfl⟩ := h
      simp [left]
    | some j =>
      simp only [next, hj, Option.some.injEq, Prod.mk.injEq] at h
      obtain ⟨rfl, rfl⟩ := h
      have hlt := room_lt hj
      simp only [left]
      omega
  | done => simp [next] at h
  | overflow => simp [next] at h

theorem ne_done_of_next (h : pc.next bound = some (e, pc')) : pc ≠ .done := by
  rintro rfl
  simp [next] at h

/-- A loop stops past its end or where it is undefined. -/
theorem exists_next (bound : Int32) (hdone : pc ≠ .done) (hoverflow : pc ≠ .overflow) :
    ∃ e pc', pc.next bound = some (e, pc') := by
  cases pc with
  | test i => exact ⟨_, _, rfl⟩
  | body i => exact ⟨_, _, rfl⟩
  | increment i =>
    cases hj : Counting.increment i with
    | none => exact ⟨.overflow, .overflow, by simp [next, hj]⟩
    | some j => exact ⟨.increment, .test j, by simp [next, hj]⟩
  | done => exact (hdone rfl).elim
  | overflow => exact (hoverflow rfl).elim

theorem overflow_of_next (h : pc.next bound = some (.overflow, pc')) : pc' = .overflow := by
  cases pc with
  | increment i =>
    cases hj : Counting.increment i <;> simp [next, hj] at h
    exact h.symm
  | _ => simp [next] at h

end LoopPC

end Counting
