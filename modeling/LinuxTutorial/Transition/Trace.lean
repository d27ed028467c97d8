import Mathlib.Data.List.Basic
import Mathlib.Order.OrderIsoNat

/-!
# Finite traces of labelled transition systems

Atomic steps of interleaved threads are transitions; a finite run is a list of labels
between two states. Nothing here depends on what the states or the labels are.
-/

namespace Transition

universe u v w

/-- A labelled transition system. -/
structure LTS (State : Type u) (Label : Type v) where
  Tr : State → Label → State → Prop

namespace LTS

variable {State : Type u} {Label : Type v} {Action : Type w} {lts : LTS State Label}
  {s t u : State} {e : Label} {es fs : List Label}

/-- A finite run: the labels of its transitions, in order. -/
inductive MTr (lts : LTS State Label) : State → List Label → State → Prop
  | refl {s : State} : MTr lts s [] s
  | stepL {s t u : State} {e : Label} {es : List Label} :
      lts.Tr s e t → MTr lts t es u → MTr lts s (e :: es) u

theorem MTr.single (h : lts.Tr s e t) : lts.MTr s [e] t := .stepL h .refl

theorem MTr.append (h : lts.MTr s es t) (k : lts.MTr t fs u) : lts.MTr s (es ++ fs) u := by
  induction h with
  | refl => exact k
  | stepL h _ ih => exact .stepL h (ih k)

/-- A run over a concatenation passes through a state between the two parts. -/
theorem mTr_append_iff :
    lts.MTr s (es ++ fs) u ↔ ∃ t, lts.MTr s es t ∧ lts.MTr t fs u := by
  constructor
  · intro h
    induction es generalizing s with
    | nil => exact ⟨s, .refl, h⟩
    | cons e es ih =>
      cases h with
      | stepL h k =>
        obtain ⟨t, ht, hu⟩ := ih k
        exact ⟨t, .stepL h ht, hu⟩
  · rintro ⟨t, ht, hu⟩
    exact ht.append hu

theorem mTr_cons_iff :
    lts.MTr s (e :: es) u ↔ ∃ t, lts.Tr s e t ∧ lts.MTr t es u := by
  constructor
  · intro h
    cases h with
    | stepL h k => exact ⟨_, h, k⟩
  · rintro ⟨t, h, k⟩
    exact .stepL h k

theorem MTr.history_from {P : List Label → State → Prop} {pre : List Label}
    (h : lts.MTr s es t) (base : P pre s)
    (step : ∀ es s e t, P es s → lts.Tr s e t → P (es ++ [e]) t) : P (pre ++ es) t := by
  induction h generalizing pre with
  | refl => simpa using base
  | @stepL s t u e es hs _ ih => simpa using ih (step pre s e t base hs)

/-- A property of the history and the state that every transition extends holds of
every run. -/
theorem MTr.history {P : List Label → State → Prop} (h : lts.MTr s es t) (base : P [] s)
    (step : ∀ es s e t, P es s → lts.Tr s e t → P (es ++ [e]) t) : P es t := by
  simpa using h.history_from base step

/-- A property of states that every transition preserves holds along every run. -/
theorem MTr.invariant {P : State → Prop} (h : lts.MTr s es t) (base : P s)
    (step : ∀ s e t, P s → lts.Tr s e t → P t) : P t :=
  h.history (P := fun _ u => P u) base (fun _ s e t hp hs => step s e t hp hs)

/-- A label that is not observed leaves the observations of the history alone. -/
theorem filterMap_snoc {Obs : Type*} {obs : Label → Option Obs} (h : obs e = none) :
    (es ++ [e]).filterMap obs = es.filterMap obs := by
  simp [List.filterMap_append, h]

/-- Amortised counting: what a transition gains is paid for by what it costs and by the
potential of its source. -/
theorem MTr.countP_add_le (gain cost : Label → Bool) (potential : State → ℕ)
    (h : lts.MTr s es t)
    (step : ∀ s e t, lts.Tr s e t →
      (gain e).toNat + potential t ≤ potential s + (cost e).toNat) :
    es.countP gain + potential t ≤ potential s + es.countP cost := by
  induction h with
  | refl => simp
  | @stepL s t u e es hs _ ih =>
    have hstep := step s e t hs
    have hgain : (e :: es).countP gain = es.countP gain + (gain e).toNat := by
      cases hg : gain e <;> simp [hg]
    have hcost : (e :: es).countP cost = es.countP cost + (cost e).toNat := by
      cases hc : cost e <;> simp [hc]
    omega

/-- Exact counting along runs that keep an invariant: what goes out and what is left is what
was there and what came in. -/
theorem MTr.countP_add_eq {P : State → Prop} (out into : Label → Bool) (value : State → ℕ)
    (h : lts.MTr s es t) (hs : P s) (inv : ∀ s e t, P s → lts.Tr s e t → P t)
    (step : ∀ s e t, P s → lts.Tr s e t →
      (out e).toNat + value t = value s + (into e).toNat) :
    es.countP out + value t = value s + es.countP into := by
  induction h with
  | refl => simp
  | @stepL s t u e es htr _ ih =>
    have hstep := step s e t hs htr
    have htail := ih (inv s e t hs htr)
    have hout : (e :: es).countP out = es.countP out + (out e).toNat := by
      cases ho : out e <;> simp [ho]
    have hinto : (e :: es).countP into = es.countP into + (into e).toNat := by
      cases hi : into e <;> simp [hi]
    omega

/-- The last label of the history that `p` selects is `e`. -/
def LastIs (p : Label → Bool) (e : Label) (es : List Label) : Prop :=
  ∃ xs ys, es = xs ++ e :: ys ∧ ∀ f ∈ ys, p f = false

theorem lastIs_snoc {p : Label → Bool} (e : Label) (es : List Label) : LastIs p e (es ++ [e]) :=
  ⟨es, [], rfl, by simp⟩

theorem LastIs.snoc {p : Label → Bool} {f : Label} (h : LastIs p e es) (hf : p f = false) :
    LastIs p e (es ++ [f]) := by
  obtain ⟨xs, ys, rfl, hys⟩ := h
  refine ⟨xs, ys ++ [f], by simp, ?_⟩
  intro g hg
  rcases List.mem_append.mp hg with hg | hg
  · exact hys g hg
  · rwa [List.mem_singleton.mp hg]

theorem LastIs.mem {p : Label → Bool} (h : LastIs p e es) : e ∈ es := by
  obtain ⟨xs, ys, rfl, -⟩ := h
  simp

/-- The transitions that meet a condition on their source and their label. -/
def restrict (lts : LTS State Label) (C : State → Label → Prop) : LTS State Label where
  Tr s e t := lts.Tr s e t ∧ C s e

theorem MTr.of_restrict {C : State → Label → Prop} (h : (lts.restrict C).MTr s es t) :
    lts.MTr s es t := by
  induction h with
  | refl => exact .refl
  | stepL h _ ih => exact .stepL h.1 ih

/-- No transition leaves the state. -/
def Terminal (lts : LTS State Label) (s : State) : Prop := ∀ e t, ¬ lts.Tr s e t

/-- A measure that every transition from an invariant state decreases rules out
infinite runs. -/
theorem no_infinite_run (Inv : State → Prop) (measure : State → ℕ)
    (hinv : ∀ s e t, Inv s → lts.Tr s e t → Inv t)
    (hdec : ∀ s e t, Inv s → lts.Tr s e t → measure t < measure s)
    {run : ℕ → State} {label : ℕ → Label} (h0 : Inv (run 0)) :
    ¬ ∀ n, lts.Tr (run n) (label n) (run (n + 1)) := by
  intro h
  have hi : ∀ n, Inv (run n) := by
    intro n
    induction n with
    | zero => exact h0
    | succ n ih => exact hinv _ _ _ ih (h n)
  have hanti : StrictAnti fun n => measure (run n) :=
    strictAnti_nat_of_succ_lt fun n => hdec _ _ _ (hi n) (h n)
  exact not_strictAnti_of_wellFoundedLT _ hanti

/-- A measure that every transition decreases leads every state to one that no transition
leaves. -/
theorem exists_terminal (measure : State → ℕ)
    (hdec : ∀ s e t, lts.Tr s e t → measure t < measure s) (s : State) :
    ∃ es t, lts.MTr s es t ∧ lts.Terminal t := by
  induction hm : measure s using Nat.strong_induction_on generalizing s with
  | h m ih =>
    by_cases ht : lts.Terminal s
    · exact ⟨[], s, .refl, ht⟩
    · simp only [Terminal, not_forall, not_not] at ht
      obtain ⟨e, t, htr⟩ := ht
      obtain ⟨es, u, hrun, hu⟩ := ih _ (hm ▸ hdec s e t htr) t rfl
      exact ⟨e :: es, u, .stepL htr hrun, hu⟩

/-- Where a measure decreases and no state with a property has only transitions that lose it, the
property is kept up to a state that no transition leaves. -/
theorem exists_terminal_keeping (P : State → Prop) (measure : State → ℕ)
    (hdec : ∀ s e t, lts.Tr s e t → measure t < measure s)
    (hkeep : ∀ s, P s → ¬ lts.Terminal s → ∃ e t, lts.Tr s e t ∧ P t) (s : State) (hs : P s) :
    ∃ es t, lts.MTr s es t ∧ lts.Terminal t ∧ P t := by
  induction hm : measure s using Nat.strong_induction_on generalizing s with
  | h m ih =>
    by_cases ht : lts.Terminal s
    · exact ⟨[], s, .refl, ht, hs⟩
    · obtain ⟨e, t, htr, hkept⟩ := hkeep s hs ht
      obtain ⟨es, u, hrun, hu⟩ := ih _ (hm ▸ hdec s e t htr) t hkept rfl
      exact ⟨e :: es, u, .stepL htr hrun, hu⟩

/-- The transitions of an executable step function: an action is the choice the
scheduler or the environment makes, a label is what the step then does. -/
def ofNext (next : Action → State → Option (Label × State)) : LTS State Label where
  Tr s e t := ∃ a, next a s = some (e, t)

theorem terminal_ofNext {next : Action → State → Option (Label × State)}
    (h : ∀ a, next a s = none) : (ofNext next).Terminal s := by
  rintro e t ⟨a, ha⟩
  exact absurd (ha.symm.trans (h a)) (Option.some_ne_none _)

/-- Executes a list of actions, or fails where one of them is not enabled. -/
def replay (next : Action → State → Option (Label × State)) :
    State → List Action → Option (List Label × State)
  | s, [] => some ([], s)
  | s, a :: as =>
    match next a s with
    | none => none
    | some (e, t) => (replay next t as).map fun r => (e :: r.1, r.2)

theorem mTr_of_replay {next : Action → State → Option (Label × State)} (as : List Action)
    (h : replay next s as = some (es, t)) : (ofNext next).MTr s es t := by
  induction as generalizing s es with
  | nil =>
    simp only [replay, Option.some.injEq, Prod.mk.injEq] at h
    obtain ⟨rfl, rfl⟩ := h
    exact .refl
  | cons a as ih =>
    simp only [replay] at h
    split at h
    · simp at h
    · rename_i e u hu
      obtain ⟨⟨fs, v⟩, hr, heq⟩ := Option.map_eq_some_iff.mp h
      obtain ⟨rfl, rfl⟩ := Prod.mk.inj heq
      exact .stepL ⟨a, hu⟩ (ih hr)

end LTS

end Transition
