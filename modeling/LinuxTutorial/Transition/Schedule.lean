import Mathlib.Data.List.Iterate

/-!
# Schedules of whole iterations

Threads whose loop bodies run undisturbed form a deterministic transducer: a schedule is
a list of inputs, each input names the body that runs next.
-/

namespace Transition

universe u v w x

/-- Where a schedule splits at an input, seen from its end. -/
theorem snoc_eq_append_cons_iff {Input : Type v} {xs pre post : List Input} {a b : Input} :
    xs ++ [a] = pre ++ b :: post ↔
      (xs = pre ∧ a = b ∧ post = []) ∨ ∃ mid, post = mid ++ [a] ∧ xs = pre ++ b :: mid := by
  constructor
  · intro h
    rcases List.eq_nil_or_concat post with rfl | ⟨mid, c, rfl⟩
    · obtain ⟨hxs, hab⟩ := List.append_inj' h rfl
      exact Or.inl ⟨hxs, by simpa using hab, rfl⟩
    · rw [List.concat_eq_append, ← List.cons_append, ← List.append_assoc] at h
      obtain ⟨hxs, hac⟩ := List.append_inj' h rfl
      exact Or.inr ⟨mid, by simp_all, hxs⟩
  · rintro (⟨rfl, rfl, rfl⟩ | ⟨mid, rfl, rfl⟩)
    · rfl
    · simp

/-- A deterministic machine that may emit one output for each input. -/
structure Transducer (State : Type u) (Input : Type v) (Output : Type w) where
  step : Input → State → Option Output × State

namespace Transducer

variable {State : Type u} {Input : Type v} {Output : Type w} {Obs : Type x}
  (T : Transducer State Input Output) {s t : State} {a : Input} {xs ys : List Input}

/-- The state after a schedule. -/
def run (s : State) (xs : List Input) : State := xs.foldl (fun s a => (T.step a s).2) s

/-- The outputs of a schedule, in order. -/
def outputs : State → List Input → List Output
  | _, [] => []
  | s, a :: xs => (T.step a s).1.toList ++ outputs (T.step a s).2 xs

@[simp] theorem run_nil : T.run s [] = s := rfl

@[simp] theorem run_cons : T.run s (a :: xs) = T.run (T.step a s).2 xs := rfl

theorem run_append : T.run s (xs ++ ys) = T.run (T.run s xs) ys := by
  simp [run, List.foldl_append]

@[simp] theorem run_snoc : T.run s (xs ++ [a]) = (T.step a (T.run s xs)).2 := T.run_append

@[simp] theorem outputs_nil : T.outputs s [] = [] := rfl

@[simp] theorem outputs_cons :
    T.outputs s (a :: xs) = (T.step a s).1.toList ++ T.outputs (T.step a s).2 xs := rfl

theorem outputs_append : T.outputs s (xs ++ ys) = T.outputs s xs ++ T.outputs (T.run s xs) ys := by
  induction xs generalizing s with
  | nil => rfl
  | cons a xs ih => simp only [List.cons_append, outputs_cons, run_cons, ih, List.append_assoc]

variable {T}

/-- A change of the state that every input commutes with can be made before or after. -/
theorem run_comm {f : State → State} (h : ∀ a ∈ xs, ∀ s, (T.step a (f s)).2 = f (T.step a s).2) :
    T.run (f s) xs = f (T.run s xs) := by
  induction xs generalizing s with
  | nil => rfl
  | cons a xs ih =>
    rw [run_cons, run_cons, h a (by simp)]
    exact ih fun b hb => h b (by simp [hb])

theorem outputs_eq_nil (h : ∀ a ∈ xs, ∀ s, (T.step a s).1 = none) : T.outputs s xs = [] := by
  induction xs generalizing s with
  | nil => rfl
  | cons a xs ih =>
    rw [outputs_cons, h a (by simp), ih fun b hb => h b (by simp [hb])]
    rfl

/-- What no input changes is the same after the run. -/
theorem run_eq {obs : State → Obs} (h : ∀ a ∈ xs, ∀ s, obs (T.step a s).2 = obs s) :
    obs (T.run s xs) = obs s := by
  induction xs generalizing s with
  | nil => rfl
  | cons a xs ih =>
    rw [run_cons, ih fun b hb => h b (by simp [hb])]
    exact h a (by simp) s

/-- Inputs that never touch an observation can be erased from the schedule. -/
theorem purge {P : State → Prop} {obs : State → Obs} {visible : Input → Bool}
    (inv : ∀ a s, P s → P (T.step a s).2)
    (hidden : ∀ a s, P s → visible a = false → obs (T.step a s).2 = obs s)
    (agree : ∀ a s t, P s → P t → visible a = true → obs s = obs t →
      obs (T.step a s).2 = obs (T.step a t).2)
    (hs : P s) (ht : P t) (h : obs s = obs t) :
    obs (T.run s xs) = obs (T.run t (xs.filter visible)) := by
  induction xs generalizing s t with
  | nil => exact h
  | cons a xs ih =>
    cases hv : visible a with
    | false =>
      rw [List.filter_cons_of_neg (by simp [hv]), run_cons]
      exact ih (inv a s hs) ht ((hidden a s hs hv).trans h)
    | true =>
      rw [List.filter_cons_of_pos hv, run_cons, run_cons]
      exact ih (inv a s hs) (inv a t ht) (agree a s t hs ht hv h)

/-- Two schedules that agree on their visible inputs end in the same observation. -/
theorem noninterference {P : State → Prop} {obs : State → Obs} {visible : Input → Bool}
    (inv : ∀ a s, P s → P (T.step a s).2)
    (hidden : ∀ a s, P s → visible a = false → obs (T.step a s).2 = obs s)
    (agree : ∀ a s t, P s → P t → visible a = true → obs s = obs t →
      obs (T.step a s).2 = obs (T.step a t).2)
    (hs : P s) (h : xs.filter visible = ys.filter visible) :
    obs (T.run s xs) = obs (T.run s ys) := by
  calc obs (T.run s xs) = obs (T.run s (xs.filter visible)) :=
        purge inv hidden agree hs hs rfl
    _ = obs (T.run s (ys.filter visible)) := by rw [h]
    _ = obs (T.run s ys) := (purge inv hidden agree hs hs rfl).symm

/-- How many inputs of a schedule meet a condition on the state they start from. -/
def count (T : Transducer State Input Output) (p : Input → State → Bool) :
    State → List Input → ℕ
  | _, [] => 0
  | s, a :: xs => (p a s).toNat + count T p (T.step a s).2 xs

theorem count_snoc (p : Input → State → Bool) :
    T.count p s (xs ++ [a]) = T.count p s xs + (p a (T.run s xs)).toNat := by
  induction xs generalizing s with
  | nil => simp [count]
  | cons b xs ih => simp only [List.cons_append, count, run_cons, ih, Nat.add_assoc]

variable {Index Value : Type*} {sel : Output → Option Value}

/-- A channel that reads a table through its own index: each output on the channel is the
entry at the index and advances it, everything else leaves the index alone. -/
def IndexedBy (T : Transducer State Input Output) (sel : Output → Option Value)
    (index : State → Index) (succ : Index → Index) (entry : Index → Value) : Prop :=
  ∀ a s, ((T.step a s).1.bind sel = none ∧ index (T.step a s).2 = index s) ∨
    ((T.step a s).1.bind sel = some (entry (index s)) ∧
      index (T.step a s).2 = succ (index s))

theorem filterMap_outputs_cons :
    (T.outputs s (a :: xs)).filterMap sel =
      ((T.step a s).1.bind sel).toList ++ (T.outputs (T.step a s).2 xs).filterMap sel := by
  rw [outputs_cons, List.filterMap_append]
  congr 1
  cases (T.step a s).1 with
  | none => rfl
  | some o => cases h : sel o <;> simp [h]

/-- The values on an indexed channel are the entries at successive indices. -/
theorem IndexedBy.outputs_eq {index : State → Index} {succ : Index → Index}
    {entry : Index → Value} (h : T.IndexedBy sel index succ entry) (s : State)
    (xs : List Input) :
    (T.outputs s xs).filterMap sel =
      (List.iterate succ (index s) ((T.outputs s xs).filterMap sel).length).map entry := by
  induction xs generalizing s with
  | nil => rfl
  | cons a xs ih =>
    rw [filterMap_outputs_cons]
    rcases h a s with ⟨hnone, hidx⟩ | ⟨hsome, hidx⟩
    · rw [hnone]
      have hrest := ih (T.step a s).2
      rw [hidx] at hrest
      simpa using hrest
    · rw [hsome]
      have hrest := ih (T.step a s).2
      rw [hidx] at hrest
      simpa using hrest

/-- The `n`-th value on an indexed channel is the entry `n` indices further on. -/
theorem IndexedBy.getElem?_outputs {index : State → Index} {succ : Index → Index}
    {entry : Index → Value} {n : ℕ} {v : Value} (h : T.IndexedBy sel index succ entry)
    (hv : ((T.outputs s xs).filterMap sel)[n]? = some v) : v = entry (succ^[n] (index s)) := by
  obtain ⟨hn, -⟩ := List.getElem?_eq_some_iff.mp hv
  rw [h.outputs_eq s xs, List.getElem?_map, List.getElem?_iterate _ _ _ _ hn] at hv
  exact (Option.some.inj hv).symm

/-- Two runs from the same index that emit equally many values emit the same values. -/
theorem IndexedBy.outputs_eq_of_length_eq {index : State → Index} {succ : Index → Index}
    {entry : Index → Value} (h : T.IndexedBy sel index succ entry) (hi : index s = index t)
    (hl : ((T.outputs s xs).filterMap sel).length = ((T.outputs t ys).filterMap sel).length) :
    (T.outputs s xs).filterMap sel = (T.outputs t ys).filterMap sel := by
  rw [h.outputs_eq s xs, h.outputs_eq t ys, hl, hi]

end Transducer

end Transition
