import LinuxTutorial.Transition.Trace
import Mathlib.Data.Set.Basic

/-!
# Weak simulation

One system simulates another if it can answer every transition with a run that looks the same.
Then it has all of the observable traces.
-/

namespace Transition

namespace LTS

universe u v w x y

variable {State : Type u} {Label : Type v} {State' : Type w} {Label' : Type x} {Obs : Type y}
  {lts : LTS State Label} {lts' : LTS State' Label'} {obs : Label → Option Obs}
  {obs' : Label' → Option Obs} {R : State → State' → Prop} {s t : State} {s' : State'}
  {es : List Label}

/-- What an observer sees of the runs from a state. -/
def Traces (lts : LTS State Label) (obs : Label → Option Obs) (s : State) : Set (List Obs) :=
  {os | ∃ es t, lts.MTr s es t ∧ es.filterMap obs = os}

/-- Related states stay related: every transition of the first system is answered by a run of the
second one. -/
def Simulates (lts : LTS State Label) (lts' : LTS State' Label') (obs : Label → Option Obs)
    (obs' : Label' → Option Obs) (R : State → State' → Prop) : Prop :=
  ∀ s e t s', R s s' → lts.Tr s e t →
    ∃ fs t', lts'.MTr s' fs t' ∧ fs.filterMap obs' = (obs e).toList ∧ R t t'

theorem Simulates.mTr (h : Simulates lts lts' obs obs' R) (hs : R s s') (hrun : lts.MTr s es t) :
    ∃ fs t', lts'.MTr s' fs t' ∧ fs.filterMap obs' = es.filterMap obs ∧ R t t' := by
  induction hrun generalizing s' with
  | refl => exact ⟨[], s', .refl, rfl, hs⟩
  | @stepL s t u e es htr _ ih =>
    obtain ⟨fs, t', hfs, hobs, ht⟩ := h s e t s' hs htr
    obtain ⟨gs, u', hgs, hrest, hu⟩ := ih ht
    refine ⟨fs ++ gs, u', hfs.append hgs, ?_, hu⟩
    rw [List.filterMap_append, hobs, hrest]
    cases ho : obs e <;> simp [ho]

theorem Simulates.traces_subset (h : Simulates lts lts' obs obs' R) (hs : R s s') :
    lts.Traces obs s ⊆ lts'.Traces obs' s' := by
  rintro os ⟨es, t, hrun, rfl⟩
  obtain ⟨fs, t', hfs, hobs, -⟩ := h.mTr hs hrun
  exact ⟨fs, t', hfs, hobs⟩

end LTS

end Transition
