import LinuxTutorial.Transition.Trace
import Mathlib.Logic.Encodable.Basic

/-!
# Fair executions

Infinite executions with pauses, weak fairness for the actors of a system, and the response rule:
a rank that no step raises and that the step of a helpful actor lowers leads to a goal.
-/

namespace Transition

universe u v w

/-- An infinite observation of a system. Position `n` is a pause where `event n = none`. -/
structure Execution (State : Type u) (Label : Type v) where
  state : ℕ → State
  event : ℕ → Option Label

namespace LTS

variable {State : Type u} {Label : Type v} {Actor : Type w} {lts : LTS State Label}
  {actor : Label → Actor} {E : Execution State Label} {a : Actor} {m n : ℕ}

structure Valid (lts : LTS State Label) (E : Execution State Label) : Prop where
  pause : ∀ n, E.event n = none → E.state (n + 1) = E.state n
  tr : ∀ n e, E.event n = some e → lts.Tr (E.state n) e (E.state (n + 1))

/-- The labels of the first `n` positions. -/
def history (E : Execution State Label) (n : ℕ) : List Label :=
  (List.range n).filterMap E.event

theorem history_succ (E : Execution State Label) (n : ℕ) :
    history E (n + 1) = history E n ++ (E.event n).toList := by
  rw [history, history, List.range_succ, List.filterMap_append]
  cases h : E.event n <;> simp [h]

/-- Every prefix of an execution is a finite run. -/
theorem Valid.mTr (h : lts.Valid E) (n : ℕ) : lts.MTr (E.state 0) (history E n) (E.state n) := by
  induction n with
  | zero => exact .refl
  | succ n ih =>
    rw [history_succ]
    cases he : E.event n with
    | none => simpa [h.pause n he] using ih
    | some e => exact ih.append (.single (h.tr n e he))

/-- The actor can take a step. -/
def Enabled (lts : LTS State Label) (actor : Label → Actor) (a : Actor) (s : State) : Prop :=
  ∃ e t, lts.Tr s e t ∧ actor e = a

/-- The actor takes the step at position `n`. -/
def Taken (actor : Label → Actor) (E : Execution State Label) (a : Actor) (n : ℕ) : Prop :=
  ∃ e, E.event n = some e ∧ actor e = a

/-- If the actor can always take a step from some position on, it takes one. -/
def FairTo (lts : LTS State Label) (actor : Label → Actor) (a : Actor)
    (E : Execution State Label) : Prop :=
  ∀ m, (∀ n, m ≤ n → lts.Enabled actor a (E.state n)) → ∃ n, m ≤ n ∧ Taken actor E a n

def Fair (lts : LTS State Label) (actor : Label → Actor) (E : Execution State Label) : Prop :=
  ∀ a, lts.FairTo actor a E

/-- What a step may do to the rank: lower it, or leave it and the helpful actor alone. -/
def Progress (actor : Label → Actor) (helper : State → Actor) (rank : State → ℕ)
    (s : State) (e : Label) (t : State) : Prop :=
  rank t < rank s ∨ (rank t = rank s ∧ helper t = helper s ∧ actor e ≠ helper s)

variable {helper : State → Actor} {rank : State → ℕ}

/-- Where the rank never gets lower, neither it nor the helpful actor ever changes. -/
theorem rank_constant (h : lts.Valid E)
    (hp : ∀ n, m ≤ n → ∀ e, E.event n = some e →
      Progress actor helper rank (E.state n) e (E.state (n + 1)))
    (hlow : ∀ n, m ≤ n → rank (E.state m) ≤ rank (E.state n)) (hmn : m ≤ n) :
    rank (E.state n) = rank (E.state m) ∧ helper (E.state n) = helper (E.state m) := by
  induction n, hmn using Nat.le_induction with
  | base => exact ⟨rfl, rfl⟩
  | succ n hmn ih =>
    cases he : E.event n with
    | none => rwa [h.pause n he]
    | some e =>
      rcases hp n hmn e he with hlt | ⟨hrank, hhelper, -⟩
      · have hle := hlow (n + 1) (Nat.le_succ_of_le hmn)
        omega
      · exact ⟨hrank.trans ih.1, hhelper.trans ih.2⟩

/-- The response rule: an execution that is fair to the helpful actors reaches the goal if outside
of the goal the helpful actor is enabled and every step makes progress. -/
theorem eventually_of_helper (Inv goal : State → Prop)
    (hf : ∀ s, lts.FairTo actor (helper s) E) (h : lts.Valid E) (inv : ∀ n, Inv (E.state n))
    (enabled : ∀ s, Inv s → ¬ goal s → lts.Enabled actor (helper s) s)
    (progress : ∀ s e t, Inv s → ¬ goal s → lts.Tr s e t → Progress actor helper rank s e t) :
    ∃ n, goal (E.state n) := by
  by_contra hgoal
  have hno : ∀ n, ¬ goal (E.state n) := not_exists.mp hgoal
  have hp : ∀ n e, E.event n = some e →
      Progress actor helper rank (E.state n) e (E.state (n + 1)) :=
    fun n e he => progress _ _ _ (inv n) (hno n) (h.tr n e he)
  -- Any position is followed by one of lower rank, which cannot go on for ever.
  have hlower : ∀ m, ∃ n, m ≤ n ∧ rank (E.state n) < rank (E.state m) := by
    intro m
    by_contra hlow
    push Not at hlow
    have hconst := fun n hmn => rank_constant h (fun n _ => hp n) hlow (n := n) hmn
    obtain ⟨n, hmn, e, he, hactor⟩ := hf (E.state m) m fun n hmn => by
      rw [← (hconst n hmn).2]
      exact enabled _ (inv n) (hno n)
    rcases hp n e he with hlt | ⟨-, -, hne⟩
    · have hle := hlow (n + 1) (Nat.le_succ_of_le hmn)
      rw [← (hconst n hmn).1] at hle
      omega
    · exact hne (hactor.trans (hconst n hmn).2.symm)
  have hfalse : ∀ r m, rank (E.state m) = r → False := by
    intro r
    induction r using Nat.strong_induction_on with
    | h r ih =>
      intro m hm
      obtain ⟨n, -, hlt⟩ := hlower m
      exact ih _ (hm ▸ hlt) n rfl
  exact hfalse _ 0 rfl

theorem Fair.eventually (Inv goal : State → Prop) (hf : lts.Fair actor E) (h : lts.Valid E)
    (inv : ∀ n, Inv (E.state n))
    (enabled : ∀ s, Inv s → ¬ goal s → lts.Enabled actor (helper s) s)
    (progress : ∀ s e t, Inv s → ¬ goal s → lts.Tr s e t → Progress actor helper rank s e t) :
    ∃ n, goal (E.state n) :=
  eventually_of_helper Inv goal (fun s => hf (helper s)) h inv enabled progress

/-- What is observed from position `k` on. -/
def drop (E : Execution State Label) (k : ℕ) : Execution State Label where
  state n := E.state (k + n)
  event n := E.event (k + n)

theorem Valid.drop (h : lts.Valid E) (k : ℕ) : lts.Valid (drop E k) :=
  ⟨fun n => h.pause (k + n), fun n => h.tr (k + n)⟩

theorem Fair.drop (hf : lts.Fair actor E) (k : ℕ) : lts.Fair actor (drop E k) := by
  intro a m henabled
  obtain ⟨n, hmn, htaken⟩ := hf a (k + m) fun n hmn => by
    obtain ⟨j, rfl⟩ := Nat.exists_eq_add_of_le ((Nat.le_add_right k m).trans hmn)
    exact henabled j (by omega)
  obtain ⟨j, rfl⟩ := Nat.exists_eq_add_of_le ((Nat.le_add_right k m).trans hmn)
  exact ⟨j, by omega, htaken⟩

/-- The response rule from a position on. -/
theorem Fair.eventually_from (k : ℕ) (Inv goal : State → Prop) (hf : lts.Fair actor E)
    (h : lts.Valid E) (inv : ∀ n, k ≤ n → Inv (E.state n))
    (enabled : ∀ s, Inv s → ¬ goal s → lts.Enabled actor (helper s) s)
    (progress : ∀ s e t, Inv s → ¬ goal s → lts.Tr s e t → Progress actor helper rank s e t) :
    ∃ n, k ≤ n ∧ goal (E.state n) := by
  obtain ⟨n, hn⟩ := (hf.drop k).eventually Inv goal (h.drop k)
    (fun n => inv (k + n) (Nat.le_add_right k n)) enabled progress
  exact ⟨k + n, Nat.le_add_right k n, hn⟩

variable {P Q R : State → Prop} {allowed : Label → Prop} {k : ℕ}

/-- An actor that is enabled as long as `P` holds takes its step in a state with `P`, if the steps
of the other actors keep `P`. -/
theorem FairTo.taken_of_stable (hf : lts.FairTo actor a E) (h : lts.Valid E)
    (hallowed : ∀ n, m ≤ n → ∀ e, E.event n = some e → allowed e)
    (stable : ∀ s e t, lts.Tr s e t → allowed e → actor e ≠ a → P s → P t)
    (enabled : ∀ s, P s → lts.Enabled actor a s) (hm : P (E.state m)) :
    ∃ n e, m ≤ n ∧ P (E.state n) ∧ E.event n = some e ∧ actor e = a := by
  by_contra hnever
  push Not at hnever
  have hstays : ∀ n, m ≤ n → P (E.state n) := by
    intro n hmn
    induction n, hmn using Nat.le_induction with
    | base => exact hm
    | succ n hmn ih =>
      cases he : E.event n with
      | none => rwa [h.pause n he]
      | some e => exact stable _ e _ (h.tr n e he) (hallowed n hmn e he) (hnever n e hmn ih he) ih
  obtain ⟨n, hmn, e, he, hactor⟩ := hf m fun n hmn => enabled _ (hstays n hmn)
  exact hnever n e hmn (hstays n hmn) he hactor

/-- From position `k` on, a state with `P` is followed by one with `Q`. -/
def LeadsTo (E : Execution State Label) (k : ℕ) (P Q : State → Prop) : Prop :=
  ∀ m, k ≤ m → P (E.state m) → ∃ n, m ≤ n ∧ Q (E.state n)

theorem LeadsTo.trans (h : LeadsTo E k P Q) (h' : LeadsTo E k Q R) : LeadsTo E k P R := by
  intro m hkm hm
  obtain ⟨n, hmn, hn⟩ := h m hkm hm
  obtain ⟨l, hnl, hl⟩ := h' n (hkm.trans hmn) hn
  exact ⟨l, hmn.trans hnl, hl⟩

theorem LeadsTo.of_imp (h : ∀ s, P s → Q s) : LeadsTo E k P Q :=
  fun m _ hm => ⟨m, le_rfl, h _ hm⟩

theorem LeadsTo.or (h : LeadsTo E k P R) (h' : LeadsTo E k Q R) :
    LeadsTo E k (fun s => P s ∨ Q s) R := by
  intro m hkm hm
  rcases hm with hm | hm
  · exact h m hkm hm
  · exact h' m hkm hm

/-- The step of one actor leads from `P` to `Q`, and the others keep `P` until it comes. -/
theorem FairTo.leadsTo (hf : lts.FairTo actor a E) (h : lts.Valid E)
    (hallowed : ∀ n, k ≤ n → ∀ e, E.event n = some e → allowed e)
    (stable : ∀ s e t, lts.Tr s e t → allowed e → actor e ≠ a → P s → P t)
    (helpful : ∀ s e t, lts.Tr s e t → actor e = a → P s → Q t)
    (enabled : ∀ s, P s → lts.Enabled actor a s) : LeadsTo E k P Q := by
  intro m hkm hm
  obtain ⟨n, e, hmn, hn, he, hactor⟩ :=
    hf.taken_of_stable h (fun n hmn => hallowed n (hkm.trans hmn)) stable enabled hm
  exact ⟨n + 1, Nat.le_succ_of_le hmn, helpful _ e _ (h.tr n e he) hactor hn⟩

variable {next : Actor → State → Option (Label × State)}

/-- The states of an execution under a schedule. Where the scheduled actor cannot move, nothing
happens. -/
def scheduledState (next : Actor → State → Option (Label × State)) (schedule : ℕ → Actor)
    (s : State) : ℕ → State
  | 0 => s
  | n + 1 =>
    let t := scheduledState next schedule s n
    ((next (schedule n) t).map Prod.snd).getD t

/-- The execution under a schedule. -/
def scheduled (next : Actor → State → Option (Label × State)) (schedule : ℕ → Actor)
    (s : State) : Execution State Label where
  state := scheduledState next schedule s
  event n := (next (schedule n) (scheduledState next schedule s n)).map Prod.fst

theorem valid_scheduled (schedule : ℕ → Actor) (s : State) :
    (ofNext next).Valid (scheduled next schedule s) := by
  constructor
  · intro n hn
    have hnone : next (schedule n) (scheduledState next schedule s n) = none := by
      simpa [scheduled] using hn
    simp [scheduled, scheduledState, hnone]
  · intro n e he
    obtain ⟨⟨e, t⟩, hnext, rfl⟩ := Option.map_eq_some_iff.mp he
    refine ⟨schedule n, ?_⟩
    simp [scheduled, scheduledState, hnext]

/-- A schedule on which every actor comes up again and again is fair. -/
theorem fair_scheduled {schedule : ℕ → Actor} (s : State)
    (hactor : ∀ a s e t, next a s = some (e, t) → actor e = a)
    (hschedule : ∀ a m, ∃ n, m ≤ n ∧ schedule n = a) :
    (ofNext next).Fair actor (scheduled next schedule s) := by
  intro a m henabled
  obtain ⟨n, hmn, rfl⟩ := hschedule a m
  obtain ⟨e, t, ⟨b, hb⟩, hab⟩ := henabled n hmn
  obtain rfl : b = schedule n := (hactor _ _ _ _ hb).symm.trans hab
  refine ⟨n, hmn, e, ?_, hab⟩
  change (next _ (scheduledState next schedule s n)).map Prod.fst = some e
  exact Option.map_eq_some_iff.mpr ⟨(e, t), hb, rfl⟩

/-- The same for actors that have a choice of actions, none of which blocks the actor where it is
enabled. -/
theorem fair_scheduled_of {Action : Type*} {next : Action → State → Option (Label × State)}
    (owner : Action → Actor) {schedule : ℕ → Action} (s : State)
    (hactor : ∀ b s e t, next b s = some (e, t) → actor e = owner b)
    (hready : ∀ b s, (ofNext next).Enabled actor (owner b) s → next b s ≠ none)
    (hschedule : ∀ a m, ∃ n, m ≤ n ∧ owner (schedule n) = a) :
    (ofNext next).Fair actor (scheduled next schedule s) := by
  intro a m henabled
  obtain ⟨n, hmn, rfl⟩ := hschedule a m
  have hnext := hready (schedule n) _ (henabled n hmn)
  obtain ⟨⟨e, t⟩, het⟩ := Option.ne_none_iff_exists'.mp hnext
  refine ⟨n, hmn, e, ?_, hactor _ _ _ _ het⟩
  exact Option.map_eq_some_iff.mpr ⟨(e, t), het, rfl⟩

/-- A schedule of countably many actors that leaves none of them out. -/
def everyActor [Encodable Actor] [Inhabited Actor] (n : ℕ) : Actor :=
  (Encodable.decode n.unpair.1).getD default

theorem everyActor_recurs [Encodable Actor] [Inhabited Actor] (a : Actor) (m : ℕ) :
    ∃ n, m ≤ n ∧ everyActor n = a :=
  ⟨Nat.pair (Encodable.encode a) m, Nat.right_le_pair _ _, by simp [everyActor]⟩

end LTS

end Transition
