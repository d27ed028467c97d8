import LinuxTutorial.Transition.Trace
import Mathlib.Algebra.Order.BigOperators.Group.Finset
import Mathlib.Logic.Function.Basic

/-!
# Straight-line threads

Each thread runs once through a list of statements that take a lock, give one back or print a
line. The threads, the locks and the lines are arbitrary types.
-/

namespace Locking.Script

open Transition

universe u v w

inductive Stmt (Lock : Type u) (Text : Type v)
  | lock (l : Lock)
  | unlock (l : Lock)
  | print (x : Text)
  deriving DecidableEq, Repr

/-- How many statements each thread has done, and who owns each lock. -/
structure State (Thread : Type w) (Lock : Type u) where
  pc : Thread → ℕ
  owner : Lock → Option Thread

/-- A thread and the statement it does. -/
abbrev Event (Thread : Type w) (Lock : Type u) (Text : Type v) := Thread × Stmt Lock Text

variable {Thread : Type w} {Lock : Type u} {Text : Type v}

def initial : State Thread Lock where
  pc _ := 0
  owner _ := none

def Stmt.line? : Stmt Lock Text → Option Text
  | .print x => some x
  | _ => none

/-- The lines that some statements print. -/
def lines (xs : List (Stmt Lock Text)) : List Text := xs.filterMap Stmt.line?

/-- The lines that a run prints. -/
def printed (es : List (Event Thread Lock Text)) : List Text := lines (es.map Prod.snd)

section

variable [DecidableEq Lock]

/-- What a statement does to the locks that its thread holds. -/
def Stmt.apply : Stmt Lock Text → List Lock → List Lock
  | .lock l, ls => l :: ls
  | .unlock l, ls => ls.erase l
  | .print _, ls => ls

/-- The locks that are held after some statements. -/
def held (xs : List (Stmt Lock Text)) : List Lock := xs.foldl (fun ls i => i.apply ls) []

/-- No lock is taken twice, only held ones are given back, and in the end all of them are. -/
structure WellFormed (xs : List (Stmt Lock Text)) : Prop where
  fresh : ∀ k l, xs[k]? = some (.lock l) → l ∉ held (xs.take k)
  owned : ∀ k l, xs[k]? = some (.unlock l) → l ∈ held (xs.take k)
  released : held xs = []

variable {xs : List (Stmt Lock Text)} {i : Stmt Lock Text} {k : ℕ}

theorem held_take_succ (h : xs[k]? = some i) :
    held (xs.take (k + 1)) = i.apply (held (xs.take k)) := by
  simp [held, List.take_add_one, h, List.foldl_append]

theorem WellFormed.nodup_held (h : WellFormed xs) (k : ℕ) : (held (xs.take k)).Nodup := by
  induction k with
  | zero => simp [held]
  | succ k ih =>
    cases hi : xs[k]? with
    | none =>
      rw [List.take_add_one, hi]
      simpa using ih
    | some i =>
      rw [held_take_succ hi]
      cases i with
      | lock l => exact List.nodup_cons.mpr ⟨h.fresh k l hi, ih⟩
      | unlock l => exact ih.erase l
      | print x => exact ih

end

theorem lines_take_succ {xs : List (Stmt Lock Text)} {i : Stmt Lock Text} {k : ℕ}
    (h : xs[k]? = some i) : lines (xs.take (k + 1)) = lines (xs.take k) ++ lines [i] := by
  simp [lines, List.take_add_one, h, List.filterMap_append]

variable [DecidableEq Thread] [DecidableEq Lock] {script : Thread → List (Stmt Lock Text)}
  {s t : State Thread Lock} {e : Event Thread Lock Text} {es : List (Event Thread Lock Text)}
  {v w : Thread} {l : Lock}

/-- The thread has done its next statement. -/
def State.advance (s : State Thread Lock) (w : Thread) : State Thread Lock :=
  { s with pc := Function.update s.pc w (s.pc w + 1) }

/-- The next statement of a thread, if it is not blocked at a lock. -/
def next (script : Thread → List (Stmt Lock Text)) (w : Thread) (s : State Thread Lock) :
    Option (Event Thread Lock Text × State Thread Lock) :=
  match (script w)[s.pc w]? with
  | none => none
  | some (.lock l) =>
    match s.owner l with
    | none =>
      some ((w, .lock l), { s.advance w with owner := Function.update s.owner l (some w) })
    | some _ => none
  | some (.unlock l) =>
    some ((w, .unlock l), { s.advance w with owner := Function.update s.owner l none })
  | some (.print x) => some ((w, .print x), s.advance w)

/-- The steps of the threads. -/
inductive Step (script : Thread → List (Stmt Lock Text)) :
    State Thread Lock → Event Thread Lock Text → State Thread Lock → Prop
  | lock {s : State Thread Lock} {w : Thread} {l : Lock}
      (h : (script w)[s.pc w]? = some (.lock l)) (ho : s.owner l = none) :
      Step script s (w, .lock l)
        { s.advance w with owner := Function.update s.owner l (some w) }
  | unlock {s : State Thread Lock} {w : Thread} {l : Lock}
      (h : (script w)[s.pc w]? = some (.unlock l)) :
      Step script s (w, .unlock l)
        { s.advance w with owner := Function.update s.owner l none }
  | print {s : State Thread Lock} {w : Thread} {x : Text}
      (h : (script w)[s.pc w]? = some (.print x)) : Step script s (w, .print x) (s.advance w)

theorem next_iff : next script w s = some (e, t) ↔ Step script s e t ∧ e.1 = w := by
  constructor
  · intro h
    cases hi : (script w)[s.pc w]? with
    | none => simp [next, hi] at h
    | some i =>
      cases i with
      | lock l =>
        cases ho : s.owner l with
        | some v => simp [next, hi, ho] at h
        | none =>
          simp only [next, hi, ho, Option.some.injEq, Prod.mk.injEq] at h
          obtain ⟨rfl, rfl⟩ := h
          exact ⟨.lock hi ho, rfl⟩
      | unlock l =>
        simp only [next, hi, Option.some.injEq, Prod.mk.injEq] at h
        obtain ⟨rfl, rfl⟩ := h
        exact ⟨.unlock hi, rfl⟩
      | print x =>
        simp only [next, hi, Option.some.injEq, Prod.mk.injEq] at h
        obtain ⟨rfl, rfl⟩ := h
        exact ⟨.print hi, rfl⟩
  · rintro ⟨h, rfl⟩
    cases h with
    | lock h ho => simp [next, h, ho]
    | unlock h => simp [next, h]
    | print h => simp [next, h]

/-- A step does the next statement of its thread. -/
theorem Step.stmt (h : Step script s e t) :
    (script e.1)[s.pc e.1]? = some e.2 ∧ t.pc = Function.update s.pc e.1 (s.pc e.1 + 1) := by
  cases h with
  | lock h ho => exact ⟨h, rfl⟩
  | unlock h => exact ⟨h, rfl⟩
  | print h => exact ⟨h, rfl⟩

theorem Step.pc_self (h : Step script s e t) : t.pc e.1 = s.pc e.1 + 1 := by
  rw [h.stmt.2, Function.update_self]

theorem Step.pc_of_ne (h : Step script s e t) (hw : w ≠ e.1) : t.pc w = s.pc w := by
  rw [h.stmt.2, Function.update_of_ne hw]

/-- A thread that takes a lock finds it free. -/
theorem Step.free (h : Step script s e t) (hl : e.2 = .lock l) : s.owner l = none := by
  cases h with
  | lock h ho => rwa [← Stmt.lock.inj hl]
  | unlock h => cases hl
  | print h => cases hl

/-- A lock is owned by the thread that holds it. -/
def Owned (script : Thread → List (Stmt Lock Text)) (s : State Thread Lock) : Prop :=
  ∀ l w, s.owner l = some w ↔ l ∈ held ((script w).take (s.pc w))

omit [DecidableEq Thread] in
theorem owned_initial : Owned script initial := by
  intro l w
  simp [initial, held]

theorem owned_step (hwf : ∀ w, WellFormed (script w)) (h : Step script s e t)
    (hs : Owned script s) : Owned script t := by
  intro m v
  by_cases hv : v = e.1
  · subst v
    rw [h.pc_self, held_take_succ h.stmt.1]
    have hm := hs m e.1
    cases h with
    | @lock w l h ho =>
      by_cases hml : m = l
      · subst m
        simp [Stmt.apply]
      · simpa [Stmt.apply, hml, Function.update_of_ne hml] using hm
    | @unlock w l h =>
      by_cases hml : m = l
      · subst m
        simp [Stmt.apply, ((hwf w).nodup_held _).not_mem_erase]
      · simpa [Stmt.apply, hml, Function.update_of_ne hml, List.mem_erase_of_ne hml] using hm
    | print h => exact hm
  · rw [h.pc_of_ne hv]
    have hm := hs m v
    cases h with
    | @lock w l h ho =>
      by_cases hml : m = l
      · subst m
        rw [← hm, ho]
        simpa using Ne.symm hv
      · simpa [Function.update_of_ne hml] using hm
    | @unlock w l h =>
      by_cases hml : m = l
      · subst m
        rw [← hm, (hs l w).mpr ((hwf w).owned _ l h)]
        simpa using Ne.symm hv
      · simpa [Function.update_of_ne hml] using hm
    | print h => exact hm

/-- The thread waits for a lock that is taken. -/
def Blocked (script : Thread → List (Stmt Lock Text)) (s : State Thread Lock) (w : Thread) : Prop :=
  ∃ l v, (script w)[s.pc w]? = some (.lock l) ∧ s.owner l = some v

theorem step_or_blocked (hw : s.pc w < (script w).length) :
    (∃ e t, Step script s e t ∧ e.1 = w) ∨ Blocked script s w := by
  cases hi : (script w)[s.pc w]? with
  | none => simp only [List.getElem?_eq_none_iff] at hi; omega
  | some i =>
    cases i with
    | lock l =>
      cases ho : s.owner l with
      | none => exact Or.inl ⟨_, _, .lock hi ho, rfl⟩
      | some v => exact Or.inr ⟨l, v, hi, ho⟩
    | unlock l => exact Or.inl ⟨_, _, .unlock hi, rfl⟩
    | print x => exact Or.inl ⟨_, _, .print hi, rfl⟩

omit [DecidableEq Thread] in
/-- What a thread is blocked by is another thread, which has not come to its end. -/
theorem owner_unfinished (hwf : ∀ w, WellFormed (script w)) (hs : Owned script s)
    (h : (script w)[s.pc w]? = some (.lock l)) (ho : s.owner l = some v) :
    v ≠ w ∧ s.pc v < (script v).length := by
  have hheld := (hs l v).mp ho
  constructor
  · rintro rfl
    exact (hwf v).fresh _ l h hheld
  · by_contra hend
    rw [List.take_of_length_le (not_lt.mp hend), (hwf v).released] at hheld
    simp at hheld

/-- The statements that are left. -/
def left [Fintype Thread] (script : Thread → List (Stmt Lock Text)) (s : State Thread Lock) : ℕ :=
  ∑ w, ((script w).length - s.pc w)

theorem left_lt [Fintype Thread] (h : Step script s e t) : left script t < left script s := by
  have hlt : s.pc e.1 < (script e.1).length := (List.getElem?_eq_some_iff.mp h.stmt.1).1
  refine Finset.sum_lt_sum (fun w _ => ?_) ⟨e.1, Finset.mem_univ _, ?_⟩
  · by_cases hw : w = e.1
    · subst w
      rw [h.pc_self]
      omega
    · rw [h.pc_of_ne hw]
  · rw [h.pc_self]
    omega

/-- What a thread has done is the beginning of its script. -/
theorem done_step (h : Step script s e t)
    (hs : (es.filter fun e => e.1 = w).map Prod.snd = (script w).take (s.pc w)) :
    ((es ++ [e]).filter fun e => e.1 = w).map Prod.snd = (script w).take (t.pc w) := by
  rw [List.filter_append, List.map_append, hs]
  by_cases hw : w = e.1
  · subst w
    rw [h.pc_self, List.take_add_one, h.stmt.1]
    simp
  · rw [h.pc_of_ne hw]
    simp [Ne.symm hw]

end Locking.Script
