import LinuxTutorial.Mutex.Deadlock
import LinuxTutorial.Mutex.Nested

/-!
# `main` of `mutex_nested.c` and `mutex_deadlock.c`

`main` joins both threads in each of five iterations and takes an error of `pthread_join` for
a deadlock.
-/

namespace LinuxTutorial.Mutex.Join

open Transition

/-- The two sources. Their `main` functions differ only in a text. -/
inductive Program
  | mutexNested
  | mutexDeadlock
  deriving DecidableEq, Repr

def Program.threads : Program → Thread → Locking.Routine MutexId
  | .mutexNested => Nested.threads 5
  | .mutexDeadlock => Deadlock.threads 5

/-- What `main` writes to `stderr` in iteration `i`. -/
def Program.message (p : Program) (i : ℕ) : String :=
  let detected :=
    match p with
    | .mutexNested => "Potential Deadlock detected after "
    | .mutexDeadlock => "Deadlock detected after "
  detected ++ toString (i + 1) ++ " iterations\n"

/-- Where `main` is, with the results of the joins of this iteration. -/
inductive MainPC
  | loop (i : ℕ)
  | join1 (i : ℕ)
  | join2 (i : ℕ) (ret1 : Int32)
  | check (i : ℕ) (ret1 ret2 : Int32)
  | report (i : ℕ)
  | exitFailure
  | destroy1
  | destroy2
  | returned
  deriving DecidableEq, Repr

structure State where
  main : MainPC
  threads : Mutex.State
  joined : Thread → Bool
  destroyed : MutexId → Bool
  stderr : List String

/-- What `pthread_join` returns for a thread that was joined before. -/
abbrev JoinError := {ret : Int32 // ret ≠ 0}

inductive Action
  | thread (w : Thread)
  | main (err : JoinError)

inductive Event
  | thread (e : Locking.Event Thread MutexId)
  | main

def initial : State where
  main := .loop 0
  threads := Locking.initial
  joined _ := false
  destroyed _ := false
  stderr := []

/-- The process runs until `main` returns or exits. -/
def State.Running (s : State) : Prop := s.main ≠ .exitFailure ∧ s.main ≠ .returned

instance (s : State) : Decidable s.Running := inferInstanceAs (Decidable (_ ∧ _))

/-- `pthread_join` blocks until the thread has returned. -/
def State.pthreadJoin (s : State) (w : Thread) (err : JoinError) : Option Int32 :=
  if s.joined w then some err
  else if s.threads.pc w = .returned then some 0
  else none

def mainNext (p : Program) (err : JoinError) (s : State) : Option State :=
  match s.main with
  | .loop i => some { s with main := if i < 5 then .join1 i else .destroy1 }
  | .join1 i =>
    (s.pthreadJoin .thread1 err).map fun ret1 =>
      { s with main := .join2 i ret1, joined := Function.update s.joined .thread1 true }
  | .join2 i ret1 =>
    (s.pthreadJoin .thread2 err).map fun ret2 =>
      { s with main := .check i ret1 ret2, joined := Function.update s.joined .thread2 true }
  | .check i ret1 ret2 =>
    some { s with main := if ret1 ≠ 0 ∨ ret2 ≠ 0 then .report i else .loop (i + 1) }
  | .report i => some { s with main := .exitFailure, stderr := s.stderr ++ [p.message i] }
  | .destroy1 =>
    some { s with main := .destroy2, destroyed := Function.update s.destroyed .mutex1 true }
  | .destroy2 =>
    some { s with main := .returned, destroyed := Function.update s.destroyed .mutex2 true }
  | .exitFailure | .returned => none

def next (p : Program) (a : Action) (s : State) : Option (Event × State) :=
  match a with
  | .thread w =>
    if s.Running then
      (Locking.next p.threads ulongRange w s.threads).map fun r =>
        (.thread r.1, { s with threads := r.2 })
    else none
  | .main err => (mainNext p err s).map fun t => (.main, t)

/-- `main` and its two threads. -/
def system (p : Program) : LTS State Event := .ofNext (next p)

/-- The steps of the threads and of `main`. -/
inductive Step (p : Program) : State → Event → State → Prop
  | thread {s : State} {e : Locking.Event Thread MutexId} {t : Mutex.State} (hrun : s.Running)
      (h : Locking.Step p.threads ulongRange s.threads e t) :
      Step p s (.thread e) { s with threads := t }
  | enter {s : State} {i : ℕ} (h : s.main = .loop i) (hi : i < 5) :
      Step p s .main { s with main := .join1 i }
  | leave {s : State} {i : ℕ} (h : s.main = .loop i) (hi : ¬ i < 5) :
      Step p s .main { s with main := .destroy1 }
  | join1 {s : State} {i : ℕ} {ret1 : Int32} {err : JoinError} (h : s.main = .join1 i)
      (hjoin : s.pthreadJoin .thread1 err = some ret1) :
      Step p s .main
        { s with main := .join2 i ret1, joined := Function.update s.joined .thread1 true }
  | join2 {s : State} {i : ℕ} {ret1 ret2 : Int32} {err : JoinError} (h : s.main = .join2 i ret1)
      (hjoin : s.pthreadJoin .thread2 err = some ret2) :
      Step p s .main
        { s with main := .check i ret1 ret2, joined := Function.update s.joined .thread2 true }
  | detect {s : State} {i : ℕ} {ret1 ret2 : Int32} (h : s.main = .check i ret1 ret2)
      (hret : ret1 ≠ 0 ∨ ret2 ≠ 0) : Step p s .main { s with main := .report i }
  | proceed {s : State} {i : ℕ} (h : s.main = .check i 0 0) :
      Step p s .main { s with main := .loop (i + 1) }
  | report {s : State} {i : ℕ} (h : s.main = .report i) :
      Step p s .main { s with main := .exitFailure, stderr := s.stderr ++ [p.message i] }
  | destroy1 {s : State} (h : s.main = .destroy1) :
      Step p s .main
        { s with main := .destroy2, destroyed := Function.update s.destroyed .mutex1 true }
  | destroy2 {s : State} (h : s.main = .destroy2) :
      Step p s .main
        { s with main := .returned, destroyed := Function.update s.destroyed .mutex2 true }

variable {p : Program} {s t : State} {e : Event} {es : List Event} {w : Thread} {err : JoinError}

theorem step_main (h : mainNext p err s = some t) : Step p s .main t := by
  cases hpc : s.main with
  | loop i =>
    simp only [mainNext, hpc, Option.some.injEq] at h
    subst h
    by_cases hi : i < 5
    · simpa only [hi, if_true] using Step.enter hpc hi
    · simpa only [hi, if_false] using Step.leave hpc hi
  | join1 i =>
    simp only [mainNext, hpc, Option.map_eq_some_iff] at h
    obtain ⟨ret1, hjoin, rfl⟩ := h
    exact .join1 hpc hjoin
  | join2 i ret1 =>
    simp only [mainNext, hpc, Option.map_eq_some_iff] at h
    obtain ⟨ret2, hjoin, rfl⟩ := h
    exact .join2 hpc hjoin
  | check i ret1 ret2 =>
    simp only [mainNext, hpc, Option.some.injEq] at h
    subst h
    by_cases hret : ret1 ≠ 0 ∨ ret2 ≠ 0
    · simpa only [hret, if_true] using Step.detect hpc hret
    · have hzero : ret1 = 0 ∧ ret2 = 0 := by simpa using hret
      obtain ⟨rfl, rfl⟩ := hzero
      simpa using Step.proceed hpc
  | report i =>
    simp only [mainNext, hpc, Option.some.injEq] at h
    subst h
    exact .report hpc
  | destroy1 =>
    simp only [mainNext, hpc, Option.some.injEq] at h
    subst h
    exact .destroy1 hpc
  | destroy2 =>
    simp only [mainNext, hpc, Option.some.injEq] at h
    subst h
    exact .destroy2 hpc
  | exitFailure => simp [mainNext, hpc] at h
  | returned => simp [mainNext, hpc] at h

theorem tr_iff : (system p).Tr s e t ↔ Step p s e t := by
  constructor
  · rintro ⟨a, h⟩
    cases a with
    | thread w =>
      simp only [next] at h
      split at h
      · rename_i hrun
        obtain ⟨⟨f, u⟩, hnext, heq⟩ := Option.map_eq_some_iff.mp h
        obtain ⟨rfl, rfl⟩ := Prod.mk.inj heq
        exact .thread hrun (Locking.step_of_next hnext)
      · simp at h
    | main err =>
      simp only [next, Option.map_eq_some_iff, Prod.mk.injEq] at h
      obtain ⟨u, hmain, rfl, rfl⟩ := h
      exact step_main hmain
  · intro h
    cases h with
    | thread hrun h =>
      obtain ⟨w, hw⟩ := Locking.tr_iff.mpr h
      exact ⟨.thread w, by simp [next, hrun, hw]⟩
    | enter h hi => exact ⟨.main ⟨1, by decide⟩, by simp [next, mainNext, h, hi]⟩
    | leave h hi => exact ⟨.main ⟨1, by decide⟩, by simp [next, mainNext, h, hi]⟩
    | @join1 i ret1 err h hjoin => exact ⟨.main err, by simp [next, mainNext, h, hjoin]⟩
    | @join2 i ret1 ret2 err h hjoin => exact ⟨.main err, by simp [next, mainNext, h, hjoin]⟩
    | detect h hret => exact ⟨.main ⟨1, by decide⟩, by simp [next, mainNext, h, hret]⟩
    | proceed h => exact ⟨.main ⟨1, by decide⟩, by simp [next, mainNext, h]⟩
    | report h => exact ⟨.main ⟨1, by decide⟩, by simp [next, mainNext, h]⟩
    | destroy1 h => exact ⟨.main ⟨1, by decide⟩, by simp [next, mainNext, h]⟩
    | destroy2 h => exact ⟨.main ⟨1, by decide⟩, by simp [next, mainNext, h]⟩

/-- Where `main` can be, with the threads that are joined there. -/
inductive Position (joined : Thread → Bool) : MainPC → Prop
  | start (h1 : joined .thread1 = false) (h2 : joined .thread2 = false) :
      Position joined (.loop 0)
  | join1 (h1 : joined .thread1 = false) (h2 : joined .thread2 = false) :
      Position joined (.join1 0)
  | join2 (h1 : joined .thread1 = true) (h2 : joined .thread2 = false) :
      Position joined (.join2 0 0)
  | check (h : ∀ w, joined w = true) : Position joined (.check 0 0 0)
  | again (h : ∀ w, joined w = true) : Position joined (.loop 1)
  | rejoin1 (h : ∀ w, joined w = true) : Position joined (.join1 1)
  | rejoin2 {ret1 : Int32} (h : ∀ w, joined w = true) (hret : ret1 ≠ 0) :
      Position joined (.join2 1 ret1)
  | recheck {ret1 ret2 : Int32} (h : ∀ w, joined w = true) (hret : ret1 ≠ 0) :
      Position joined (.check 1 ret1 ret2)
  | report (h : ∀ w, joined w = true) : Position joined (.report 1)
  | exitFailure (h : ∀ w, joined w = true) : Position joined .exitFailure

structure Invariant (p : Program) (s : State) : Prop where
  position : Position s.joined s.main
  returned : ∀ w, s.joined w = true → s.threads.pc w = .returned
  stderr : s.stderr = if s.main = .exitFailure then [p.message 1] else []

theorem invariant_initial : Invariant p initial := by
  constructor
  · exact .start rfl rfl
  · intro w hw
    simp [initial] at hw
  · rfl

theorem pthreadJoin_joined {ret : Int32} (hw : s.joined w = true)
    (h : s.pthreadJoin w err = some ret) : ret ≠ 0 := by
  obtain rfl : err.val = ret := by simpa [State.pthreadJoin, hw] using h
  exact err.2

/-- The first join of a thread. -/
theorem pthreadJoin_first {ret : Int32} (hw : s.joined w = false)
    (h : s.pthreadJoin w err = some ret) : s.threads.pc w = .returned ∧ ret = 0 := by
  simp only [State.pthreadJoin, hw, Bool.false_eq_true, if_false] at h
  split at h
  · rename_i hret
    exact ⟨hret, (Option.some.inj h).symm⟩
  · simp at h

theorem returned_join (hr : ∀ v, s.joined v = true → s.threads.pc v = .returned)
    (hw : s.threads.pc w = .returned) (v : Thread)
    (hv : Function.update s.joined w true v = true) : s.threads.pc v = .returned := by
  by_cases hvw : v = w
  · rw [hvw]
    exact hw
  · rw [Function.update_of_ne hvw] at hv
    exact hr v hv

theorem invariant_step (h : Step p s e t) (hs : Invariant p s) : Invariant p t := by
  obtain ⟨hpos, hr, hstderr⟩ := hs
  cases h with
  | thread hrun h => exact ⟨hpos, fun w hw => h.pc_returned (hr w hw), hstderr⟩
  | @enter i h hi =>
    rw [h] at hpos hstderr
    cases hpos with
    | start h1 h2 => exact ⟨.join1 h1 h2, hr, hstderr⟩
    | again hj => exact ⟨.rejoin1 hj, hr, hstderr⟩
  | @leave i h hi =>
    rw [h] at hpos
    cases hpos with
    | start => exact (hi (by decide)).elim
    | again => exact (hi (by decide)).elim
  | @join1 i ret1 err h hjoin =>
    rw [h] at hpos hstderr
    cases hpos with
    | join1 h1 h2 =>
      obtain ⟨hret, rfl⟩ := pthreadJoin_first h1 hjoin
      exact ⟨.join2 (by simp) (by simpa using h2), returned_join hr hret, hstderr⟩
    | rejoin1 hj =>
      refine ⟨.rejoin2 ?_ (pthreadJoin_joined (hj _) hjoin),
        returned_join hr (hr _ (hj .thread1)), hstderr⟩
      intro w
      cases w <;> simp [hj]
  | @join2 i ret1 ret2 err h hjoin =>
    rw [h] at hpos hstderr
    cases hpos with
    | join2 h1 h2 =>
      obtain ⟨hret, rfl⟩ := pthreadJoin_first h2 hjoin
      refine ⟨.check ?_, returned_join hr hret, hstderr⟩
      intro w
      cases w <;> simp [h1]
    | rejoin2 hj hret =>
      refine ⟨.recheck ?_ hret, returned_join hr (hr _ (hj .thread2)), hstderr⟩
      intro w
      cases w <;> simp [hj]
  | @detect i ret1 ret2 h hret =>
    rw [h] at hpos hstderr
    cases hpos with
    | check => exact (hret.elim (· rfl) (· rfl)).elim
    | recheck hj => exact ⟨.report hj, hr, hstderr⟩
  | @proceed i h =>
    rw [h] at hpos hstderr
    cases hpos with
    | check hj => exact ⟨.again hj, hr, hstderr⟩
    | recheck hj hret => exact (hret rfl).elim
  | @report i h =>
    rw [h] at hpos hstderr
    cases hpos with
    | report hj => exact ⟨.exitFailure hj, hr, by simp [hstderr]⟩
  | destroy1 h =>
    rw [h] at hpos
    cases hpos
  | destroy2 h =>
    rw [h] at hpos
    cases hpos

theorem invariant_run (h : (system p).MTr initial es s) : Invariant p s :=
  h.invariant invariant_initial fun _ _ _ hs htr => invariant_step (tr_iff.mp htr) hs

/-- A thread has not finished and no thread can take a step. -/
def InDeadlock (p : Program) (s : State) : Prop :=
  (∃ w, s.threads.pc w ≠ .returned) ∧ (Locking.lts p.threads ulongRange).Terminal s.threads

/-- `main` has written its message and exited with a failure. -/
def Reported (p : Program) (s : State) : Prop :=
  s.main = .exitFailure ∧ ∃ i, p.message i ∈ s.stderr

/-- What is expected of the end of a run. -/
structure ReportCorrect (p : Program) (s : State) : Prop where
  reported_iff : Reported p s ↔ InDeadlock p s
  clean : (∀ w, s.threads.pc w = .returned) →
    (∀ m, s.destroyed m = true) ∧ s.main = .returned

theorem Invariant.reported_iff (hs : Invariant p s) : Reported p s ↔ s.main = .exitFailure := by
  constructor
  · exact And.left
  · intro h
    refine ⟨h, 1, ?_⟩
    rw [hs.stderr, if_pos h]
    exact List.mem_singleton_self _

theorem Invariant.returned_of_exitFailure (hs : Invariant p s) (h : s.main = .exitFailure)
    (w : Thread) : s.threads.pc w = .returned := by
  have hpos := hs.position
  rw [h] at hpos
  cases hpos with
  | exitFailure hj => exact hs.returned w (hj w)

/-- A join succeeds on a thread that has returned or that was joined before. -/
theorem pthreadJoin_enabled (err : JoinError)
    (h : s.joined w = true ∨ s.threads.pc w = .returned) :
    ∃ ret, s.pthreadJoin w err = some ret := by
  cases hj : s.joined w with
  | true => exact ⟨err, by simp [State.pthreadJoin, hj]⟩
  | false =>
    have hw : s.threads.pc w = .returned := by simpa [hj] using h
    exact ⟨0, by simp [State.pthreadJoin, hj, hw]⟩

/-- Nothing but the join of a running thread stops `main` before its exit. -/
theorem main_enabled (hs : Invariant p s) (hret : ∀ w, s.threads.pc w = .returned)
    (hmain : s.main ≠ .exitFailure) : ∃ t, Step p s .main t := by
  have hpos := hs.position
  obtain ⟨ret1, h1⟩ := pthreadJoin_enabled ⟨1, by decide⟩ (Or.inr (hret .thread1))
  obtain ⟨ret2, h2⟩ := pthreadJoin_enabled ⟨1, by decide⟩ (Or.inr (hret .thread2))
  generalize h : s.main = pc at hpos
  cases hpos with
  | start => exact ⟨_, .enter h (by decide)⟩
  | join1 => exact ⟨_, .join1 h h1⟩
  | join2 => exact ⟨_, .join2 h h2⟩
  | check => exact ⟨_, .proceed h⟩
  | again => exact ⟨_, .enter h (by decide)⟩
  | rejoin1 => exact ⟨_, .join1 h h1⟩
  | rejoin2 => exact ⟨_, .join2 h h2⟩
  | recheck hj hret1 => exact ⟨_, .detect h (Or.inl hret1)⟩
  | report => exact ⟨_, .report h⟩
  | exitFailure => exact (hmain h).elim

/-- `main` never comes to the end of its text. -/
theorem Invariant.running (hs : Invariant p s) (hmain : s.main ≠ .exitFailure) : s.Running := by
  refine ⟨hmain, fun h => ?_⟩
  have hpos := hs.position
  rw [h] at hpos
  cases hpos

/-- `main` reports a deadlock exactly when both threads have returned. -/
theorem exitFailure_iff_returned (hs : Invariant p s) (ht : (system p).Terminal s) :
    s.main = .exitFailure ↔ ∀ w, s.threads.pc w = .returned := by
  constructor
  · exact hs.returned_of_exitFailure
  · intro hret
    by_contra hmain
    obtain ⟨t, h⟩ := main_enabled hs hret hmain
    exact ht _ _ (tr_iff.mpr h)

/-- If a thread has not returned at the end of a run, the threads are in a deadlock. -/
theorem inDeadlock_of_terminal (hs : Invariant p s) (ht : (system p).Terminal s)
    (hw : ∃ w, s.threads.pc w ≠ .returned) : InDeadlock p s := by
  refine ⟨hw, fun e u h => ?_⟩
  have hmain : s.main ≠ .exitFailure := by
    intro hexit
    obtain ⟨w, hw⟩ := hw
    exact hw (hs.returned_of_exitFailure hexit w)
  exact ht _ _ (tr_iff.mpr (.thread (hs.running hmain) (Locking.tr_iff.mp h)))

/-- What `main` has left to do, in steps. -/
def MainPC.left : MainPC → ℕ
  | .loop i => 4 * (5 - i) + 4
  | .join1 i => 4 * (5 - (i + 1)) + 7
  | .join2 i _ => 4 * (5 - (i + 1)) + 6
  | .check i _ _ => 4 * (5 - (i + 1)) + 5
  | .destroy1 => 2
  | .report _ | .destroy2 => 1
  | .exitFailure | .returned => 0

def left (p : Program) (s : State) : ℕ :=
  s.main.left + ∑ w, (p.threads w).left (s.threads.pc w)

/-- A step of `main` leaves the threads alone. -/
theorem left_lt_main (hthreads : t.threads = s.threads) (h : t.main.left < s.main.left) :
    left p t < left p s := by
  rw [left, left, hthreads]
  exact Nat.add_lt_add_right h _

theorem left_lt (h : Step p s e t) : left p t < left p s := by
  cases h with
  | thread hrun h =>
    apply Nat.add_lt_add_left
    exact Locking.sum_left_lt h
  | enter h | leave h | join1 h | join2 h | detect h | proceed h | report h | destroy1 h
  | destroy2 h =>
    refine left_lt_main rfl ?_
    simp only [h, MainPC.left]
    omega

theorem maximal_run (p : Program) :
    ∃ es s, (system p).MTr initial es s ∧ (system p).Terminal s :=
  LTS.exists_terminal (left p) (fun _ _ _ h => left_lt (tr_iff.mp h)) initial

/-- Both programs have runs to an end, and `main` is wrong at the end of each of them: it
reports a deadlock exactly when both threads have returned. -/
theorem reported_iff_returned (p : Program) :
    (∃ es s, (system p).MTr initial es s ∧ (system p).Terminal s) ∧
      ∀ es s, (system p).MTr initial es s → (system p).Terminal s →
        (Reported p s ↔ ∀ w, s.threads.pc w = .returned) ∧ ¬ ReportCorrect p s := by
  refine ⟨maximal_run p, fun es s h ht => ?_⟩
  have hs := invariant_run h
  have hiff : Reported p s ↔ ∀ w, s.threads.pc w = .returned := by
    rw [hs.reported_iff]
    exact exitFailure_iff_returned hs ht
  refine ⟨hiff, fun hc => ?_⟩
  by_cases hret : ∀ w, s.threads.pc w = .returned
  · obtain ⟨⟨w, hw⟩, -⟩ := hc.reported_iff.mp (hiff.mpr hret)
    exact hw (hret w)
  · have hdead := inDeadlock_of_terminal hs ht (not_forall.mp hret)
    exact hret (hiff.mp (hc.reported_iff.mpr hdead))

/-- The runs of the threads under `main` are runs of the threads. -/
theorem threads_mTr (h : (system p).MTr s es t) :
    ∃ fs, (Locking.lts p.threads ulongRange).MTr s.threads fs t.threads := by
  induction h with
  | refl => exact ⟨[], .refl⟩
  | @stepL s t u e es htr _ ih =>
    obtain ⟨fs, hfs⟩ := ih
    cases tr_iff.mp htr with
    | @thread f _ hrun h => exact ⟨f :: fs, .stepL (Locking.tr_iff.mpr h) hfs⟩
    | _ => exact ⟨fs, hfs⟩

/-- `mutex_nested.c` never deadlocks, and at the end of a run it reports a deadlock. -/
theorem not_reportCorrect : ∃ es s, (system .mutexNested).MTr initial es s ∧
    (system .mutexNested).Terminal s ∧ (∀ w, s.threads.pc w = .returned) ∧
    Reported .mutexNested s ∧ ¬ ReportCorrect .mutexNested s := by
  obtain ⟨es, s, h, ht⟩ := maximal_run .mutexNested
  have hs := invariant_run h
  obtain ⟨fs, hfs⟩ := threads_mTr h
  have hret : ∀ w, s.threads.pc w = .returned := by
    by_contra hne
    obtain ⟨⟨w, hw⟩, hterminal⟩ := inDeadlock_of_terminal hs ht (not_forall.mp hne)
    exact hw (Nested.returned hfs hterminal w)
  have hreported : Reported .mutexNested s := by
    rw [hs.reported_iff]
    exact (exitFailure_iff_returned hs ht).mpr hret
  refine ⟨es, s, h, ht, hret, hreported, fun hc => ?_⟩
  obtain ⟨⟨w, hw⟩, -⟩ := hc.reported_iff.mp hreported
  exact hw (hret w)

end LinuxTutorial.Mutex.Join
