import LinuxTutorial.Transition.Schedule
import Mathlib.Data.List.Basic

/-!
# Reordering across threads

Two sequences of items agree up to the order between threads if every thread finds its own items
in the same order in both. In a schedule, an input of a thread that works on variables of its own
can come earlier.
-/

namespace Transition

universe u v

variable {Item : Type u} {Thread : Type v} [DecidableEq Thread] {thread : Item → Thread}
  {xs ys zs us vs : List Item}

def SameOrder (thread : Item → Thread) (xs ys : List Item) : Prop :=
  ∀ w, xs.filter (fun a => thread a = w) = ys.filter (fun a => thread a = w)

theorem SameOrder.refl (xs : List Item) : SameOrder thread xs xs := fun _ => rfl

theorem SameOrder.trans (h : SameOrder thread xs ys) (k : SameOrder thread ys zs) :
    SameOrder thread xs zs := fun w => (h w).trans (k w)

theorem SameOrder.append (h : SameOrder thread xs ys) (k : SameOrder thread us vs) :
    SameOrder thread (xs ++ us) (ys ++ vs) := by
  intro w
  rw [List.filter_append, List.filter_append, h w, k w]

/-- Blocks of items without a common thread can be exchanged. -/
theorem sameOrder_comm (h : ∀ a ∈ xs, ∀ b ∈ ys, thread a ≠ thread b) :
    SameOrder thread (xs ++ ys) (ys ++ xs) := by
  intro w
  rw [List.filter_append, List.filter_append]
  by_cases hw : ∃ a ∈ xs, thread a = w
  · obtain ⟨a, ha, rfl⟩ := hw
    have hys : ys.filter (fun b => thread b = thread a) = [] := by
      apply List.filter_eq_nil_iff.mpr
      intro b hb
      simpa using (h a ha b hb).symm
    rw [hys, List.append_nil, List.nil_append]
  · have hxs : xs.filter (fun a => thread a = w) = [] := by
      apply List.filter_eq_nil_iff.mpr
      intro a ha
      simpa using fun haw => hw ⟨a, ha, haw⟩
    rw [hxs, List.append_nil, List.nil_append]

/-- The last item of a sequence may as well stand before items of other threads. -/
theorem SameOrder.snoc_before {a : Item} (h : SameOrder thread (xs ++ ys) zs)
    (ha : ∀ b ∈ ys, thread b ≠ thread a) :
    SameOrder thread (xs ++ a :: ys) (zs ++ [a]) := by
  have hswap : SameOrder thread ([a] ++ ys) (ys ++ [a]) := by
    apply sameOrder_comm
    intro b hb c hc
    rw [List.mem_singleton.mp hb]
    exact (ha c hc).symm
  have hxs : SameOrder thread (xs ++ ([a] ++ ys)) (xs ++ (ys ++ [a])) :=
    (SameOrder.refl xs).append hswap
  refine hxs.trans ?_
  rw [← List.append_assoc]
  exact h.append (.refl [a])

namespace Transducer

variable {State Input Output Obs Kind Owner : Type*} {T : Transducer State Input Output}
  {owner : Input → Owner} {w : Owner} {change : Kind → State → State} {obs : State → Obs}
  {k : Kind} {o : Obs} {s : State} {a : Input} {ps qs : List Input}

/-- Only the thread has outputs, and its changes of the state commute with the inputs of the
others. -/
structure Private (T : Transducer State Input Output) (owner : Input → Owner) (w : Owner)
    (change : Kind → State → State) : Prop where
  silent : ∀ a s, owner a ≠ w → (T.step a s).1 = none
  comm : ∀ a k s, owner a ≠ w → (T.step a (change k s)).2 = change k (T.step a s).2

/-- An input of the thread that comes before those of the others changes the end in the same way
as one that comes last. -/
theorem Private.run_insert (h : T.Private owner w change) (hqs : ∀ b ∈ qs, owner b ≠ w)
    (hstep : (T.step a (T.run s ps)).2 = change k (T.run s ps)) :
    T.run s (ps ++ a :: qs) = change k (T.run s (ps ++ qs)) := by
  rw [run_append, run_append, run_cons, hstep]
  exact run_comm fun b hb s => h.comm b k s (hqs b hb)

theorem Private.outputs_insert (h : T.Private owner w change) (hqs : ∀ b ∈ qs, owner b ≠ w) :
    T.outputs s (ps ++ a :: qs) = T.outputs s (ps ++ qs) ++ (T.step a (T.run s ps)).1.toList := by
  have hnil : ∀ s, T.outputs s qs = [] := fun s =>
    outputs_eq_nil fun b hb s => h.silent b s (hqs b hb)
  rw [outputs_append, outputs_append, outputs_cons, hnil, hnil, List.append_nil, List.append_nil]

theorem Private.outputs_snoc (h : T.Private owner w change) (ha : owner a ≠ w) :
    T.outputs s (qs ++ [a]) = T.outputs s qs := by
  simp [outputs_append, h.silent a _ ha]

/-- The schedule can be split where the state is observed as `o`, with no input of the thread
behind. -/
def SplitsAt (T : Transducer State Input Output) (owner : Input → Owner) (w : Owner)
    (obs : State → Obs) (s : State) (qs : List Input) (o : Obs) : Prop :=
  ∃ ps rs, qs = ps ++ rs ∧ (∀ a ∈ rs, owner a ≠ w) ∧ obs (T.run s ps) = o

theorem splitsAt_end (h : obs (T.run s qs) = o) : T.SplitsAt owner w obs s qs o :=
  ⟨qs, [], by simp, by simp, h⟩

/-- An input of another thread may come last. -/
theorem SplitsAt.snoc (h : T.SplitsAt owner w obs s qs o) (ha : owner a ≠ w) :
    T.SplitsAt owner w obs s (qs ++ [a]) o := by
  obtain ⟨ps, rs, rfl, hrs, ho⟩ := h
  exact ⟨ps, rs ++ [a], by simp, List.forall_mem_append.mpr ⟨hrs, by simpa using ha⟩, ho⟩

end Transducer

end Transition
