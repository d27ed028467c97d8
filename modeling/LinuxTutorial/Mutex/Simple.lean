import LinuxTutorial.Locking.Script
import LinuxTutorial.Mutex.Basic

/-!
# `mutex_deadlock_simple.c`

Each thread takes the two mutexes once, in opposite orders, and `main` joins both threads before
it destroys the mutexes. `pthread_mutex_init` has made the mutexes, and `sleep` only lets time
pass.
-/

namespace LinuxTutorial.Mutex.Simple

open Transition Locking

def thread1Function : List (Script.Stmt MutexId String) :=
  [.lock .mutex1, .print "Thread 1: locked mutex1", .print "Thread 1: trying to lock mutex2",
    .lock .mutex2, .print "Thread 1: locked mutex2", .unlock .mutex2, .unlock .mutex1]

def thread2Function : List (Script.Stmt MutexId String) :=
  [.lock .mutex2, .print "Thread 2: locked mutex2", .print "Thread 2: trying to lock mutex1",
    .lock .mutex1, .print "Thread 2: locked mutex1", .unlock .mutex1, .unlock .mutex2]

def threads : Thread → List (Script.Stmt MutexId String)
  | .thread1 => thread1Function
  | .thread2 => thread2Function

/-- The calls of `main` in their order. -/
inductive MainPC
  | create (w : Thread)
  | join (w : Thread)
  | destroy (m : MutexId)
  | returned
  deriving DecidableEq, Repr

def MainPC.next : MainPC → MainPC
  | .create .thread1 => .create .thread2
  | .create .thread2 => .join .thread1
  | .join .thread1 => .join .thread2
  | .join .thread2 => .destroy .mutex1
  | .destroy .mutex1 => .destroy .mutex2
  | .destroy .mutex2 => .returned
  | .returned => .returned

structure State extends Script.State Thread MutexId where
  main : MainPC
  created : Thread → Bool
  destroyed : MutexId → Bool

def initial : State where
  toState := Script.initial
  main := .create .thread1
  created _ := false
  destroyed _ := false

inductive Event
  | main
  | thread (e : Script.Event Thread MutexId String)
  deriving DecidableEq, Repr

inductive Action
  | main
  | thread (w : Thread)

/-- The thread function has returned. -/
def State.Returned (s : State) (w : Thread) : Prop := s.pc w = (threads w).length

instance (s : State) (w : Thread) : Decidable (s.Returned w) := inferInstanceAs (Decidable (_ = _))

def mainNext (s : State) : Option State :=
  let t := { s with main := s.main.next }
  match s.main with
  | .create w => some { t with created := Function.update s.created w true }
  | .join w => if s.Returned w then some t else none
  | .destroy m => some { t with destroyed := Function.update s.destroyed m true }
  | .returned => none

def next (a : Action) (s : State) : Option (Event × State) :=
  match a with
  | .main => (mainNext s).map fun t => (.main, t)
  | .thread w =>
    if s.created w then
      (Script.next threads w s.toState).map fun r => (.thread r.1, { s with toState := r.2 })
    else none

/-- `main` and the threads. -/
def system : LTS State Event := .ofNext next

inductive Step : State → Event → State → Prop
  | create {s : State} {w : Thread} (h : s.main = .create w) :
      Step s .main
        { s with main := s.main.next, created := Function.update s.created w true }
  | join {s : State} {w : Thread} (h : s.main = .join w) (hw : s.Returned w) :
      Step s .main { s with main := s.main.next }
  | destroy {s : State} {m : MutexId} (h : s.main = .destroy m) :
      Step s .main
        { s with main := s.main.next, destroyed := Function.update s.destroyed m true }
  | thread {s : State} {e : Script.Event Thread MutexId String}
      {u : Script.State Thread MutexId} (h : s.created e.1 = true)
      (hs : Script.Step threads s.toState e u) : Step s (.thread e) { s with toState := u }

variable {s t : State} {e : Event} {es : List Event} {v w : Thread}

theorem step_main (h : mainNext s = some t) : Step s .main t := by
  cases hpc : s.main with
  | create w =>
    simp only [mainNext, hpc, Option.some.injEq] at h
    subst h
    simpa only [hpc] using Step.create hpc
  | join w =>
    simp only [mainNext, hpc, Option.ite_none_right_eq_some, Option.some.injEq] at h
    obtain ⟨hw, rfl⟩ := h
    simpa only [hpc] using Step.join hpc hw
  | destroy m =>
    simp only [mainNext, hpc, Option.some.injEq] at h
    subst h
    simpa only [hpc] using Step.destroy hpc
  | returned => simp [mainNext, hpc] at h

theorem tr_iff : system.Tr s e t ↔ Step s e t := by
  constructor
  · rintro ⟨a, h⟩
    cases a with
    | main =>
      simp only [next, Option.map_eq_some_iff, Prod.mk.injEq] at h
      obtain ⟨u, hmain, rfl, rfl⟩ := h
      exact step_main hmain
    | thread w =>
      simp only [next, Option.ite_none_right_eq_some, Option.map_eq_some_iff,
        Prod.mk.injEq] at h
      obtain ⟨hw, ⟨e, u⟩, hnext, rfl, rfl⟩ := h
      obtain ⟨hstep, rfl⟩ := Script.next_iff.mp hnext
      exact .thread hw hstep
  · intro h
    cases h with
    | create h => exact ⟨.main, by simp [next, mainNext, h]⟩
    | join h hw => exact ⟨.main, by simp [next, mainNext, h, hw]⟩
    | destroy h => exact ⟨.main, by simp [next, mainNext, h]⟩
    | @thread e u h hs =>
      have hnext := Script.next_iff.mpr ⟨hs, rfl⟩
      exact ⟨.thread e.1, by simp [next, h, hnext]⟩

theorem length_threads (w : Thread) : (threads w).length = 7 := by
  cases w <;> rfl

variable {k : ℕ} {m : MutexId}

theorem lock_iff : (threads w)[k]? = some (.lock m) ↔
    (k = 0 ∧ m = first w) ∨ (k = 3 ∧ m = second w) := by
  rcases k with _ | _ | _ | _ | _ | _ | _ | k <;> cases w <;>
    simp [threads, thread1Function, thread2Function, first, second, eq_comm]

theorem unlock_iff : (threads w)[k]? = some (.unlock m) ↔
    (k = 5 ∧ m = second w) ∨ (k = 6 ∧ m = first w) := by
  rcases k with _ | _ | _ | _ | _ | _ | _ | k <;> cases w <;>
    simp [threads, thread1Function, thread2Function, first, second, eq_comm]

/-- The first mutex is held from the first statement to the last one, the second in between. -/
theorem mem_held_iff : m ∈ Script.held ((threads w).take k) ↔
    (m = first w ∧ 1 ≤ k ∧ k ≤ 6) ∨ (m = second w ∧ 4 ≤ k ∧ k ≤ 5) := by
  rcases k with _ | _ | _ | _ | _ | _ | _ | k <;> cases w <;>
    simp [threads, thread1Function, thread2Function, first, second, Script.held, Script.Stmt.apply,
      or_comm]

theorem wellFormed (w : Thread) : Script.WellFormed (threads w) := by
  refine ⟨fun k l h hl => ?_, fun k l h => ?_, by cases w <;> rfl⟩
  · have hheld := mem_held_iff.mp hl
    rcases lock_iff.mp h with ⟨rfl, rfl⟩ | ⟨rfl, rfl⟩
    · simp at hheld
    · simp [(first_ne_second w).symm] at hheld
  · rcases unlock_iff.mp h with ⟨rfl, rfl⟩ | ⟨rfl, rfl⟩ <;> simp [mem_held_iff]

/-- The statements of the threads in a run. -/
def threadEvents (es : List Event) : List (Script.Event Thread MutexId String) :=
  es.filterMap fun
    | .thread e => some e
    | .main => none

/-- The lines of a run. -/
def printed (es : List Event) : List String := Script.printed (threadEvents es)

/-- The lines of one thread in a run. -/
def printedBy (w : Thread) (es : List Event) : List String :=
  Script.printed ((threadEvents es).filter fun e => e.1 = w)

/-- Each thread has taken its first mutex and not the second one. -/
def Racing (s : State) : Prop := ∀ w, 1 ≤ s.pc w ∧ s.pc w ≤ 3

/-- Some thread has taken its second mutex. -/
def Decided (s : State) : Prop := ∃ w, 4 ≤ s.pc w

/-- Each thread waits for the mutex that the other one holds, and `main` waits for the first
thread. -/
structure Deadlocked (s : State) : Prop where
  main : s.main = .join .thread1
  holds : ∀ w, s.owner (first w) = some w
  waits : ∀ w, (threads w)[s.pc w]? = some (.lock (second w))

/-- Both threads have returned and `main` has destroyed both mutexes, which are free. -/
structure Completed (s : State) : Prop where
  main : s.main = .returned
  returned : ∀ w, s.Returned w
  free : ∀ m, s.owner m = none
  destroyed : ∀ m, s.destroyed m = true

/-- Either one thread has not begun until the other one has given back its second mutex, or the
threads race. -/
inductive Phase (pc : Thread → ℕ) (out : List String) : Prop
  | serial {v w : Thread} (hvw : v ≠ w) (hpc : pc w = 0 ∨ 6 ≤ pc v)
      (hout : out = Script.lines ((threads v).take (pc v)) ++
        Script.lines ((threads w).take (pc w)))
  | racing (h : ∀ w, 1 ≤ pc w ∧ pc w ≤ 3)

/-- The number of calls that `main` has made. -/
def MainPC.rank : MainPC → ℕ
  | .create .thread1 => 0
  | .create .thread2 => 1
  | .join .thread1 => 2
  | .join .thread2 => 3
  | .destroy .mutex1 => 4
  | .destroy .mutex2 => 5
  | .returned => 6

/-- What is known along every run. -/
structure Invariant (es : List Event) (s : State) : Prop where
  owned : Script.Owned threads s.toState
  bound : ∀ w, s.pc w ≤ 7
  created : ∀ w, s.created w = true ↔ (MainPC.create w).rank < s.main.rank
  idle : ∀ w, s.created w = false → s.pc w = 0
  joined : ∀ w, (MainPC.join w).rank < s.main.rank → s.Returned w
  destroyed : ∀ m, s.destroyed m = true ↔ (MainPC.destroy m).rank < s.main.rank
  done : ∀ w, ((threadEvents es).filter fun e => e.1 = w).map Prod.snd = (threads w).take (s.pc w)
  phase : Phase s.pc (printed es)

theorem MainPC.rank_next {pc : MainPC} (h : pc ≠ .returned) : pc.next.rank = pc.rank + 1 := by
  cases pc with
  | create w => cases w <;> rfl
  | join w => cases w <;> rfl
  | destroy m => cases m <;> rfl
  | returned => exact (h rfl).elim

theorem owner_iff (ho : Script.Owned threads s.toState) : s.owner m = some w ↔
    (m = first w ∧ 1 ≤ s.pc w ∧ s.pc w ≤ 6) ∨ (m = second w ∧ 4 ≤ s.pc w ∧ s.pc w ≤ 5) :=
  (ho m w).trans mem_held_iff

/-- A thread that races finds its second mutex taken. -/
theorem not_lock_second (ho : Script.Owned threads s.toState) (hvw : v ≠ w) (hv : 1 ≤ s.pc v)
    (hv' : s.pc v ≤ 6) : s.owner (second w) ≠ none := by
  have hown := (owner_iff ho).mpr (Or.inl ⟨second_eq_first_of_ne hvw.symm, hv, hv'⟩)
  simp [hown]

theorem exists_ne (w : Thread) : ∃ v, v ≠ w := by
  cases w
  · exact ⟨.thread2, by simp⟩
  · exact ⟨.thread1, by simp⟩

theorem stmt_zero (w : Thread) : (threads w)[0]? = some (.lock (first w)) := by
  cases w <;> rfl

theorem stmt_three (w : Thread) : (threads w)[3]? = some (.lock (second w)) := by
  cases w <;> rfl

theorem stmt_six (w : Thread) : (threads w)[6]? = some (.unlock (first w)) := by
  cases w <;> rfl

theorem racing_step {e : Script.Event Thread MutexId String} {u : Script.State Thread MutexId}
    (h : Script.Step threads s.toState e u) (ho : Script.Owned threads s.toState)
    (hs : Racing s) : ∀ w, 1 ≤ u.pc w ∧ u.pc w ≤ 3 := by
  intro w
  by_cases hw : w = e.1
  · subst w
    obtain ⟨hone, hthree⟩ := hs e.1
    rw [h.pc_self]
    refine ⟨by omega, ?_⟩
    by_contra hlt
    have hk : s.pc e.1 = 3 := by omega
    have hstmt := h.stmt.1
    rw [hk, stmt_three] at hstmt
    obtain ⟨v, hv⟩ := exists_ne e.1
    obtain ⟨hv1, hv3⟩ := hs v
    exact not_lock_second ho hv hv1 (by omega) (h.free (Option.some.inj hstmt).symm)
  · rw [h.pc_of_ne hw]
    exact hs w

theorem printed_snoc (es : List (Script.Event Thread MutexId String))
    (e : Script.Event Thread MutexId String) :
    Script.printed (es ++ [e]) = Script.printed es ++ Script.lines [e.2] := by
  simp [Script.printed, Script.lines, List.filterMap_append]

/-- The last statement prints nothing. -/
theorem lines_last {e : Script.Event Thread MutexId String} {u : Script.State Thread MutexId}
    (h : Script.Step threads s.toState e u) (hpc : 6 ≤ s.pc e.1) : Script.lines [e.2] = [] := by
  have hstmt := h.stmt.1
  have hlt := (List.getElem?_eq_some_iff.mp hstmt).1
  rw [length_threads] at hlt
  have hk : s.pc e.1 = 6 := by omega
  rw [hk, stmt_six] at hstmt
  rw [← Option.some.inj hstmt]
  rfl

/-- A thread that begins finds its first mutex free: the other one has not taken it. -/
theorem serial_begin {e : Script.Event Thread MutexId String} {u : Script.State Thread MutexId}
    (h : Script.Step threads s.toState e u) (ho : Script.Owned threads s.toState)
    (hv : v ≠ e.1) (h0 : s.pc e.1 = 0) (hlt : s.pc v < 6) :
    s.pc v ≤ 3 ∧ Script.lines [e.2] = [] := by
  have hstmt := h.stmt.1
  rw [h0, stmt_zero] at hstmt
  have hlock := (Option.some.inj hstmt).symm
  refine ⟨?_, by rw [hlock]; rfl⟩
  by_contra hfour
  have hown := (owner_iff ho (m := second v) (w := v)).mpr (Or.inr ⟨rfl, by omega, by omega⟩)
  rw [second_eq_first_of_ne hv, h.free hlock] at hown
  simp at hown

theorem phase_step {ts : List (Script.Event Thread MutexId String)}
    {e : Script.Event Thread MutexId String} {u : Script.State Thread MutexId}
    (h : Script.Step threads s.toState e u) (ho : Script.Owned threads s.toState)
    (hs : Phase s.pc (Script.printed ts)) : Phase u.pc (Script.printed (ts ++ [e])) := by
  rw [printed_snoc]
  cases hs with
  | racing hr => exact .racing (racing_step h ho hr)
  | @serial v w hvw hpc hout =>
    by_cases hev : e.1 = v
    · -- the thread that began goes on
      subst v
      have hw : u.pc w = s.pc w := h.pc_of_ne hvw.symm
      rcases hpc with h0 | h6
      · refine .serial hvw (Or.inl (hw.trans h0)) ?_
        rw [hout, hw, h0, h.pc_self, Script.lines_take_succ h.stmt.1]
        simp [Script.lines]
      · refine .serial hvw (Or.inr (by rw [h.pc_self]; omega)) ?_
        rw [hout, hw, h.pc_self, Script.lines_take_succ h.stmt.1, lines_last h h6]
        simp
    · have hew : e.1 = w := by
        cases hv : e.1 <;> cases v <;> cases w <;> simp_all
      subst w
      have hv : u.pc v = s.pc v := h.pc_of_ne hvw
      by_cases h6 : 6 ≤ s.pc v
      · refine .serial hvw (Or.inr (by rwa [hv])) ?_
        rw [hout, hv, h.pc_self, Script.lines_take_succ h.stmt.1, List.append_assoc]
      · have h0 : s.pc e.1 = 0 := hpc.resolve_right h6
        obtain ⟨h3, hline⟩ := serial_begin h ho hvw h0 (by omega)
        by_cases hv0 : s.pc v = 0
        · refine .serial hvw.symm (Or.inl (hv.trans hv0)) ?_
          rw [hout, hv, hv0, h.pc_self, Script.lines_take_succ h.stmt.1, h0, hline]
          simp [Script.lines]
        · refine .racing fun x => ?_
          by_cases hx : x = e.1
          · subst x
            rw [h.pc_self, h0]
            omega
          · have hxv : x = v := by
              cases hv : e.1 <;> cases v <;> cases x <;> simp_all
            rw [hxv, hv]
            omega

theorem threadEvents_snoc_main : threadEvents (es ++ [.main]) = threadEvents es := by
  simp [threadEvents, List.filterMap_append]

theorem threadEvents_snoc_thread (e : Script.Event Thread MutexId String) :
    threadEvents (es ++ [.thread e]) = threadEvents es ++ [e] := by
  simp [threadEvents, List.filterMap_append]

theorem invariant_initial : Invariant [] initial where
  owned := Script.owned_initial
  bound _ := Nat.zero_le _
  created w := by simp [initial, MainPC.rank]
  idle _ _ := rfl
  joined w h := by simp [initial, MainPC.rank] at h
  destroyed m := by simp [initial, MainPC.rank]
  done _ := rfl
  phase := .serial (v := .thread1) (w := .thread2) (by simp) (Or.inl rfl) rfl

theorem MainPC.rank_create_inj : (MainPC.create v).rank = (MainPC.create w).rank ↔ v = w := by
  cases v <;> cases w <;> simp [MainPC.rank]

theorem MainPC.rank_destroy_inj {m' : MutexId} :
    (MainPC.destroy m).rank = (MainPC.destroy m').rank ↔ m = m' := by
  cases m <;> cases m' <;> simp [MainPC.rank]

theorem MainPC.rank_join_inj : (MainPC.join v).rank = (MainPC.join w).rank ↔ v = w := by
  cases v <;> cases w <;> simp [MainPC.rank]

theorem MainPC.rank_bounds (w : Thread) (m : MutexId) :
    (MainPC.create w).rank < 2 ∧ 2 ≤ (MainPC.join w).rank ∧ (MainPC.join w).rank < 4 ∧
      4 ≤ (MainPC.destroy m).rank ∧ (MainPC.destroy m).rank < 6 := by
  cases w <;> cases m <;> simp [MainPC.rank]

theorem invariant_create (h : s.main = .create w) (hs : Invariant es s) :
    Invariant (es ++ [.main])
      { s with main := s.main.next, created := Function.update s.created w true } := by
  have hrank : s.main.next.rank = s.main.rank + 1 := MainPC.rank_next (by simp [h])
  have hw := MainPC.rank_bounds w .mutex1
  rw [h] at hrank
  refine ⟨hs.owned, hs.bound, fun v => ?_, fun v hv => ?_, fun v hv => ?_, fun m => ?_, ?_, ?_⟩
  · have hc := hs.created v
    simp only [h] at hc
    simp only [h, hrank]
    by_cases hvw : v = w
    · subst v
      simp
    · have hne := mt MainPC.rank_create_inj.mp hvw
      rw [Function.update_of_ne hvw, hc]
      omega
  · by_cases hvw : v = w
    · subst v
      simp at hv
    · simp only [Function.update_of_ne hvw] at hv
      exact hs.idle v hv
  · have hv2 := MainPC.rank_bounds v .mutex1
    simp only [h, hrank] at hv
    omega
  · have hm := hs.destroyed m
    have hm2 := MainPC.rank_bounds w m
    simp only [h] at hm
    simp only [h, hrank]
    rw [hm]
    omega
  · rw [threadEvents_snoc_main]
    exact hs.done
  · rw [printed, threadEvents_snoc_main]
    exact hs.phase

theorem invariant_join (h : s.main = .join w) (hw : s.Returned w) (hs : Invariant es s) :
    Invariant (es ++ [.main]) { s with main := s.main.next } := by
  have hrank : s.main.next.rank = s.main.rank + 1 := MainPC.rank_next (by simp [h])
  rw [h] at hrank
  refine ⟨hs.owned, hs.bound, fun v => ?_, hs.idle, fun v hv => ?_, fun m => ?_, ?_, ?_⟩
  · have hc := hs.created v
    have hv2 := MainPC.rank_bounds v .mutex1
    have hw2 := MainPC.rank_bounds w .mutex1
    simp only [h] at hc
    simp only [h, hrank]
    rw [hc]
    omega
  · simp only [h, hrank] at hv
    by_cases hvw : v = w
    · subst v
      exact hw
    · have hne := mt MainPC.rank_join_inj.mp hvw
      refine hs.joined v ?_
      rw [h]
      omega
  · have hm := hs.destroyed m
    have hm2 := MainPC.rank_bounds w m
    simp only [h] at hm
    simp only [h, hrank]
    rw [hm]
    omega
  · rw [threadEvents_snoc_main]
    exact hs.done
  · rw [printed, threadEvents_snoc_main]
    exact hs.phase

theorem invariant_destroy (h : s.main = .destroy m) (hs : Invariant es s) :
    Invariant (es ++ [.main])
      { s with main := s.main.next, destroyed := Function.update s.destroyed m true } := by
  have hrank : s.main.next.rank = s.main.rank + 1 := MainPC.rank_next (by simp [h])
  rw [h] at hrank
  refine ⟨hs.owned, hs.bound, fun v => ?_, hs.idle, fun v _ => ?_, fun m' => ?_, ?_, ?_⟩
  · have hc := hs.created v
    have hv2 := MainPC.rank_bounds v m
    simp only [h] at hc
    simp only [h, hrank]
    rw [hc]
    omega
  · have hv2 := MainPC.rank_bounds v m
    refine hs.joined v ?_
    rw [h]
    omega
  · have hm := hs.destroyed m'
    simp only [h] at hm
    simp only [h, hrank]
    by_cases hmm : m' = m
    · subst m'
      simp
    · have hne := mt MainPC.rank_destroy_inj.mp hmm
      rw [Function.update_of_ne hmm, hm]
      omega
  · rw [threadEvents_snoc_main]
    exact hs.done
  · rw [printed, threadEvents_snoc_main]
    exact hs.phase

theorem invariant_thread {e : Script.Event Thread MutexId String}
    {u : Script.State Thread MutexId} (h : s.created e.1 = true)
    (hstep : Script.Step threads s.toState e u) (hs : Invariant es s) :
    Invariant (es ++ [.thread e]) { s with toState := u } := by
  have hlt : s.pc e.1 < 7 := by
    have hlt := (List.getElem?_eq_some_iff.mp hstep.stmt.1).1
    rwa [length_threads] at hlt
  refine ⟨Script.owned_step wellFormed hstep hs.owned, fun w => ?_, hs.created, fun w hw => ?_,
    fun w hw => ?_, hs.destroyed, fun w => ?_, ?_⟩
  · by_cases hw : w = e.1
    · subst w
      rw [hstep.pc_self]
      omega
    · rw [hstep.pc_of_ne hw]
      exact hs.bound w
  · have hne : w ≠ e.1 := by
      rintro rfl
      simp [h] at hw
    rw [hstep.pc_of_ne hne]
    exact hs.idle w hw
  · have hret := hs.joined w hw
    have hne : w ≠ e.1 := by
      rintro rfl
      rw [State.Returned, length_threads] at hret
      omega
    change u.pc w = _
    rw [hstep.pc_of_ne hne]
    exact hret
  · rw [threadEvents_snoc_thread]
    exact Script.done_step hstep (hs.done w)
  · rw [printed, threadEvents_snoc_thread]
    exact phase_step hstep hs.owned hs.phase

theorem invariant_step (h : Step s e t) (hs : Invariant es s) : Invariant (es ++ [e]) t := by
  cases h with
  | create h => exact invariant_create h hs
  | join h hw => exact invariant_join h hw hs
  | destroy h => exact invariant_destroy h hs
  | thread h hstep => exact invariant_thread h hstep hs

theorem invariant_run (h : system.MTr initial es s) : Invariant es s :=
  h.history invariant_initial fun _ _ _ _ hs htr => invariant_step (tr_iff.mp htr) hs

/-- What is left to do for the threads and for `main`. -/
def left (s : State) : ℕ := Script.left threads s.toState + (6 - s.main.rank)

theorem left_lt (h : Step s e t) : left t < left s := by
  have hle : s.main ≠ .returned → s.main.rank ≤ 5 := by
    intro hne
    cases hm : s.main with
    | create w => cases w <;> simp [MainPC.rank]
    | join w => cases w <;> simp [MainPC.rank]
    | destroy m => cases m <;> simp [MainPC.rank]
    | returned => exact (hne hm).elim
  cases h with
  | create h =>
    have hne : s.main ≠ .returned := by simp [h]
    have hrank := MainPC.rank_next hne
    have hmain := hle hne
    simp only [left, hrank]
    omega
  | join h hw =>
    have hne : s.main ≠ .returned := by simp [h]
    have hrank := MainPC.rank_next hne
    have hmain := hle hne
    simp only [left, hrank]
    omega
  | destroy h =>
    have hne : s.main ≠ .returned := by simp [h]
    have hrank := MainPC.rank_next hne
    have hmain := hle hne
    simp only [left, hrank]
    omega
  | thread h hstep =>
    have hlt := Script.left_lt hstep
    simp only [left]
    omega

theorem length_add_left_le (h : system.MTr initial es s) : es.length + left s ≤ 20 := by
  refine h.history (P := fun es s => es.length + left s ≤ 20) (by decide) ?_
  intro es s e t hs htr
  have hlt := left_lt (tr_iff.mp htr)
  simp only [List.length_append, List.length_cons, List.length_nil]
  omega

/-- A thread that has not come to its end can go on, or is blocked at a mutex. -/
theorem thread_step_or_blocked (hs : Invariant es s) (hc : s.created w = true)
    (hw : ¬ s.Returned w) :
    (∃ e t, Step s e t) ∨ Script.Blocked threads s.toState w := by
  have hbound := hs.bound w
  have hlt : s.pc w < (threads w).length := by
    rw [State.Returned, length_threads] at hw
    rw [length_threads]
    omega
  rcases Script.step_or_blocked hlt with ⟨e, u, hstep, rfl⟩ | hb
  · exact Or.inl ⟨_, _, .thread hc hstep⟩
  · exact Or.inr hb

/-- Where no step is left, `main` has returned or waits for a thread. -/
theorem main_of_terminal (ht : system.Terminal s) :
    s.main = .returned ∨ ∃ w, s.main = .join w ∧ ¬ s.Returned w := by
  cases hm : s.main with
  | create w => exact (ht _ _ (tr_iff.mpr (.create hm))).elim
  | join w =>
    refine Or.inr ⟨w, rfl, fun hw => ?_⟩
    exact ht _ _ (tr_iff.mpr (.join hm hw))
  | destroy m => exact (ht _ _ (tr_iff.mpr (.destroy hm))).elim
  | returned => exact Or.inl rfl

/-- A thread that is blocked by a blocked one waits for its second mutex. -/
theorem pc_of_blocked (hs : Invariant es s) (hv : Script.Blocked threads s.toState v)
    {l : MutexId} (hown : s.owner l = some v) : s.pc v = 3 := by
  obtain ⟨k, u, hk, -⟩ := hv
  rcases lock_iff.mp hk with ⟨h0, -⟩ | ⟨h3, -⟩
  · rcases (owner_iff hs.owned).mp hown with ⟨-, h1, -⟩ | ⟨-, h4, -⟩ <;> omega
  · exact h3

theorem racing_of_blocked (hs : Invariant es s) (ht : system.Terminal s)
    (hcreated : ∀ w, s.created w = true) (hw : ¬ s.Returned w) : ∀ v, s.pc v = 3 := by
  have hblocked : ∀ v, ¬ s.Returned v → Script.Blocked threads s.toState v := by
    intro v hv
    rcases thread_step_or_blocked hs (hcreated v) hv with ⟨e, t, hstep⟩ | hb
    · exact (ht e t (tr_iff.mpr hstep)).elim
    · exact hb
  have hnext : ∀ v, ¬ s.Returned v → ∃ u, u ≠ v ∧ ¬ s.Returned u ∧ s.pc u = 3 := by
    intro v hv
    obtain ⟨l, u, hl, hown⟩ := hblocked v hv
    obtain ⟨huv, hlt⟩ := Script.owner_unfinished wellFormed hs.owned hl hown
    have hu : ¬ s.Returned u := hlt.ne
    exact ⟨u, huv, hu, pc_of_blocked hs (hblocked u hu) hown⟩
  obtain ⟨u, huw, hu, hpu⟩ := hnext w hw
  obtain ⟨x, hxu, -, hpx⟩ := hnext u hu
  intro v
  have hv : v = u ∨ v = x := by cases u <;> cases v <;> cases x <;> simp_all
  rcases hv with rfl | rfl
  · exact hpu
  · exact hpx

theorem deadlocked_of_racing (hs : Invariant es s) (hmain : ∃ w, s.main = .join w)
    (hpc : ∀ v, s.pc v = 3) : Deadlocked s := by
  refine ⟨?_, fun w => ?_, fun w => ?_⟩
  · obtain ⟨w, hw⟩ := hmain
    cases w with
    | thread1 => exact hw
    | thread2 =>
      have hret := hs.joined .thread1 (by rw [hw]; decide)
      rw [State.Returned, length_threads, hpc] at hret
      omega
  · exact (owner_iff hs.owned).mpr (Or.inl ⟨rfl, by rw [hpc]; omega, by rw [hpc]; omega⟩)
  · rw [hpc]
    exact stmt_three w

theorem completed_of_returned (hs : Invariant es s) (hmain : s.main = .returned) :
    Completed s := by
  have hret : ∀ w, s.Returned w := by
    intro w
    have hw := MainPC.rank_bounds w .mutex1
    refine hs.joined w ?_
    rw [hmain]
    change _ < 6
    omega
  refine ⟨hmain, hret, fun m => ?_, fun m => (hs.destroyed m).mpr ?_⟩
  · cases hown : s.owner m with
    | none => rfl
    | some w =>
      have hw := hret w
      rw [State.Returned, length_threads] at hw
      rcases (owner_iff hs.owned).mp hown with ⟨-, -, h6⟩ | ⟨-, -, h5⟩ <;> omega
  · rw [hmain]
    exact (MainPC.rank_bounds .thread1 m).2.2.2.2

/-- A run that can go no further has completed or is in the deadlock. -/
theorem completed_or_racing (hs : Invariant es s) (ht : system.Terminal s) :
    Completed s ∨ (Deadlocked s ∧ ∀ w, s.pc w = 3) := by
  rcases main_of_terminal ht with hmain | ⟨w, hmain, hw⟩
  · exact Or.inl (completed_of_returned hs hmain)
  · have hcreated : ∀ v, s.created v = true := by
      intro v
      have hv := MainPC.rank_bounds v .mutex1
      have hw := MainPC.rank_bounds w .mutex1
      refine (hs.created v).mpr ?_
      rw [hmain]
      omega
    have hpc := racing_of_blocked hs ht hcreated hw
    exact Or.inr ⟨deadlocked_of_racing hs ⟨w, hmain⟩ hpc, hpc⟩

/-- A completed run has printed the lines of one thread and then those of the other. -/
theorem printed_of_completed (hs : Invariant es s) (hc : Completed s) :
    printed es = Script.lines thread1Function ++ Script.lines thread2Function ∨
      printed es = Script.lines thread2Function ++ Script.lines thread1Function := by
  have hpc : ∀ w, s.pc w = (threads w).length := hc.returned
  cases hs.phase with
  | racing h =>
    have hle := (h .thread1).2
    rw [hpc, length_threads] at hle
    omega
  | @serial v w hvw _ hout =>
    rw [hpc, hpc, List.take_length, List.take_length] at hout
    cases v <;> cases w
    · exact (hvw rfl).elim
    · exact Or.inl hout
    · exact Or.inr hout
    · exact (hvw rfl).elim

theorem printedBy_of_pc (hs : Invariant es s) (hpc : s.pc w = k) :
    printedBy w es = Script.lines ((threads w).take k) := by
  rw [printedBy, Script.printed, hs.done w, hpc]

/-- Every run comes to an end within twenty steps: it completes, and then it has printed the lines
of one thread after those of the other, or it deadlocks after the first two lines of each thread.
A mutex that is destroyed is free. -/
theorem maximal_run_of_simple (h : system.MTr initial es s) :
    (∀ m, s.main = .destroy m → s.owner m = none) ∧
    (system.Terminal s →
      (Completed s ∧ (printed es = Script.lines thread1Function ++ Script.lines thread2Function ∨
        printed es = Script.lines thread2Function ++ Script.lines thread1Function)) ∨
      (Deadlocked s ∧ ∀ w, printedBy w es = (Script.lines (threads w)).take 2)) ∧
    es.length ≤ 20 := by
  have hs := invariant_run h
  refine ⟨fun m hm => ?_, fun ht => ?_, by have hlen := length_add_left_le h; omega⟩
  · cases hown : s.owner m with
    | none => rfl
    | some w =>
      have hw := MainPC.rank_bounds w m
      have hret := hs.joined w (by rw [hm]; omega)
      rw [State.Returned, length_threads] at hret
      rcases (owner_iff hs.owned).mp hown with ⟨-, -, h6⟩ | ⟨-, -, h5⟩ <;> omega
  · rcases completed_or_racing hs ht with hc | ⟨hd, hpc⟩
    · exact Or.inl ⟨hc, printed_of_completed hs hc⟩
    · refine Or.inr ⟨hd, fun w => ?_⟩
      rw [printedBy_of_pc hs (hpc w)]
      cases w <;> rfl

/-- Both threads wait for each other after their second lines. -/
theorem maximal_run_of_simple_stops :
    ∃ es s, system.MTr initial es s ∧ system.Terminal s ∧ s.main = .join .thread1 ∧
      ∀ w, printedBy w es = (Script.lines (threads w)).take 2 := by
  obtain ⟨es, s, h, hterm, hmain⟩ :
      ∃ es s, system.MTr initial es s ∧ system.Terminal s ∧ s.main = .join .thread1 := by
    refine ⟨_, _, LTS.mTr_of_replay
      [.main, .main, .thread .thread1, .thread .thread2, .thread .thread1, .thread .thread2,
        .thread .thread1, .thread .thread2] rfl, LTS.terminal_ofNext fun a => ?_, rfl⟩
    cases a with
    | main => rfl
    | thread w => cases w <;> rfl
  rcases (maximal_run_of_simple h).2.1 hterm with ⟨hc, -⟩ | ⟨-, hlines⟩
  · have hreturned := hc.main
    simp [hmain] at hreturned
  · exact ⟨es, s, h, hterm, hmain, hlines⟩

theorem invariant_continue (hs : Invariant es s) {fs : List Event} (h : system.MTr s fs t) :
    Invariant (es ++ fs) t :=
  h.history_from hs fun _ _ _ _ hs htr => invariant_step (tr_iff.mp htr) hs

/-- The mutexes that the threads race for decide nothing any more. -/
theorem racing_continue (h : Step s e t) (hs : Invariant es s) (hr : Racing s) : Racing t := by
  cases h with
  | create h => exact hr
  | join h hw => exact hr
  | destroy h => exact hr
  | thread h hstep => exact racing_step hstep hs.owned hr

theorem decided_continue (h : Step s e t) (hd : Decided s) : Decided t := by
  cases h with
  | create h => exact hd
  | join h hw => exact hd
  | destroy h => exact hd
  | @thread e u h hstep =>
    obtain ⟨w, hw⟩ := hd
    refine ⟨w, ?_⟩
    change 4 ≤ u.pc w
    by_cases hwe : w = e.1
    · subst w
      rw [hstep.pc_self]
      omega
    · rwa [hstep.pc_of_ne hwe]

/-- A thread that `main` has not created yet is created by the next call of `main`, or the other
one is. -/
theorem create_step (hs : Invariant es s) (hw : s.created w = false) :
    ∃ t, Step s .main t ∧ t.pc = s.pc := by
  have hrank : ¬ (MainPC.create w).rank < s.main.rank := by
    rw [← hs.created w, hw]
    simp
  have hb := MainPC.rank_bounds w .mutex1
  cases hm : s.main with
  | create v => exact ⟨_, .create hm, rfl⟩
  | join v =>
    have hv := MainPC.rank_bounds v .mutex1
    rw [hm] at hrank
    omega
  | destroy m =>
    have hv := MainPC.rank_bounds w m
    rw [hm] at hrank
    omega
  | returned =>
    rw [hm] at hrank
    exact (hrank (by simp only [MainPC.rank] at hb ⊢; omega)).elim

/-- A thread that has not taken its second mutex, and is not waiting for it, goes on. -/
theorem thread_step (hs : Invariant es s) (hc : s.created w = true) (hlt : s.pc w < 7)
    (hfree : ∀ v, v ≠ w → (s.pc w = 0 → s.pc v ≤ 3) ∧ (s.pc w = 3 → s.pc v = 0)) :
    ∃ e u, Step s (.thread e) { s with toState := u } ∧
      u.pc = Function.update s.pc w (s.pc w + 1) := by
  rcases Script.step_or_blocked (by rwa [length_threads] : s.pc w < (threads w).length) with
    ⟨e, u, hstep, rfl⟩ | ⟨l, v, hl, hown⟩
  · exact ⟨e, u, .thread hc hstep, hstep.stmt.2⟩
  · obtain ⟨hvw, -⟩ := Script.owner_unfinished wellFormed hs.owned hl hown
    obtain ⟨hzero, hthree⟩ := hfree v hvw
    have hv := (owner_iff hs.owned).mp hown
    rcases lock_iff.mp hl with ⟨hpc, rfl⟩ | ⟨hpc, rfl⟩
    · have hv3 := hzero hpc
      rcases hv with ⟨heq, -, -⟩ | ⟨-, h4, -⟩
      · rw [← second_eq_first_of_ne hvw] at heq
        exact (first_ne_second v heq.symm).elim
      · omega
    · have hv0 := hthree hpc
      omega

theorem step_of_not_terminal (h : ¬ system.Terminal s) : ∃ e t, Step s e t := by
  simp only [LTS.Terminal, not_forall, not_not] at h
  obtain ⟨e, t, htr⟩ := h
  exact ⟨e, t, tr_iff.mp htr⟩

theorem not_racing_of_decided (hd : Decided s) : ¬ Racing s := by
  obtain ⟨w, hw⟩ := hd
  intro hr
  have hle := (hr w).2
  omega

/-- Threads that do not race need not begin to: the one that has begun goes first. -/
theorem not_racing_step (hs : Invariant es s) (hr : ¬ Racing s) (ht : ¬ system.Terminal s) :
    ∃ e t, Step s e t ∧ ¬ Racing t := by
  by_cases hd : Decided s
  · obtain ⟨e, t, hstep⟩ := step_of_not_terminal ht
    exact ⟨e, t, hstep, not_racing_of_decided (decided_continue hstep hd)⟩
  · have hle : ∀ w, s.pc w ≤ 3 := fun w => not_lt.mp fun hw => hd ⟨w, hw⟩
    obtain ⟨w, hw⟩ : ∃ w, s.pc w = 0 := by
      by_contra hne
      exact hr fun w => ⟨Nat.pos_of_ne_zero fun hw => hne ⟨w, hw⟩, hle w⟩
    have hidle : ∀ t : State, t.pc w = 0 → ¬ Racing t := by
      intro t ht hr
      have hpos := (hr w).1
      omega
    obtain ⟨v, hvw⟩ := exists_ne w
    cases hc : s.created v with
    | false =>
      obtain ⟨t, hstep, hpc⟩ := create_step hs hc
      exact ⟨_, t, hstep, hidle t (by rw [hpc, hw])⟩
    | true =>
      have hfree : ∀ u, u ≠ v → (s.pc v = 0 → s.pc u ≤ 3) ∧ (s.pc v = 3 → s.pc u = 0) := by
        intro u huv
        have huw : u = w := by cases u <;> cases v <;> cases w <;> simp_all
        exact ⟨fun _ => hle u, fun _ => huw ▸ hw⟩
      have hv := hle v
      obtain ⟨e, u, hstep, hpc⟩ := thread_step hs hc (by omega) hfree
      refine ⟨_, _, hstep, hidle _ ?_⟩
      change u.pc w = 0
      rw [hpc, Function.update_of_ne hvw.symm, hw]

/-- Threads that have not taken their second mutexes need not do so: both come to wait. -/
theorem not_decided_step (hs : Invariant es s) (hd : ¬ Decided s) (ht : ¬ system.Terminal s) :
    ∃ e t, Step s e t ∧ ¬ Decided t := by
  have hle : ∀ w, s.pc w ≤ 3 := fun w => not_lt.mp fun hw => hd ⟨w, hw⟩
  by_cases hall : ∀ w, s.pc w = 3
  · obtain ⟨e, t, hstep⟩ := step_of_not_terminal ht
    have hr : Racing s := fun w => by rw [hall w]; omega
    exact ⟨e, t, hstep, fun hd => not_racing_of_decided hd (racing_continue hstep hs hr)⟩
  · obtain ⟨w, hw⟩ := not_forall.mp hall
    have hlt : s.pc w < 3 := lt_of_le_of_ne (hle w) hw
    cases hc : s.created w with
    | false =>
      obtain ⟨t, hstep, hpc⟩ := create_step hs hc
      refine ⟨_, t, hstep, fun ⟨v, hv⟩ => hd ⟨v, ?_⟩⟩
      rwa [← hpc]
    | true =>
      have hfree : ∀ v, v ≠ w → (s.pc w = 0 → s.pc v ≤ 3) ∧ (s.pc w = 3 → s.pc v = 0) :=
        fun v _ => ⟨fun _ => hle v, fun h3 => (hw h3).elim⟩
      obtain ⟨e, u, hstep, hpc⟩ := thread_step hs hc (by omega) hfree
      refine ⟨_, _, hstep, fun ⟨v, hv⟩ => ?_⟩
      change 4 ≤ u.pc v at hv
      rw [hpc] at hv
      by_cases hvw : v = w
      · subst v
        rw [Function.update_self] at hv
        omega
      · rw [Function.update_of_ne hvw] at hv
        have hv3 := hle v
        omega

theorem completed_of_not_racing (hs : Invariant es s) (hr : ¬ Racing s) :
    ∃ fs t, system.MTr s fs t ∧ system.Terminal t ∧ Completed t := by
  obtain ⟨fs, t, hrun, hterm, ⟨gs, ht⟩, hnot⟩ := LTS.exists_terminal_keeping
    (fun s => (∃ es, Invariant es s) ∧ ¬ Racing s) left
    (fun _ _ _ htr => left_lt (tr_iff.mp htr))
    (fun s ⟨⟨es, hs⟩, hr⟩ hterm => by
      obtain ⟨e, t, hstep, ht⟩ := not_racing_step hs hr hterm
      exact ⟨e, t, tr_iff.mpr hstep, ⟨_, invariant_step hstep hs⟩, ht⟩) s ⟨⟨es, hs⟩, hr⟩
  refine ⟨fs, t, hrun, hterm, ?_⟩
  rcases completed_or_racing ht hterm with hc | ⟨-, hpc⟩
  · exact hc
  · exact (hnot fun w => by rw [hpc]; omega).elim

theorem not_completed_of_not_decided (hd : ¬ Decided s) : ¬ Completed s := by
  intro hc
  refine hd ⟨.thread1, ?_⟩
  have hret := hc.returned .thread1
  rw [State.Returned, length_threads] at hret
  omega

theorem deadlocked_of_not_decided (hs : Invariant es s) (hd : ¬ Decided s) :
    ∃ fs t, system.MTr s fs t ∧ system.Terminal t ∧ ¬ Completed t := by
  obtain ⟨fs, t, hrun, hterm, -, hnot⟩ := LTS.exists_terminal_keeping
    (fun s => (∃ es, Invariant es s) ∧ ¬ Decided s) left
    (fun _ _ _ htr => left_lt (tr_iff.mp htr))
    (fun s ⟨⟨es, hs⟩, hd⟩ hterm => by
      obtain ⟨e, t, hstep, ht⟩ := not_decided_step hs hd hterm
      exact ⟨e, t, tr_iff.mpr hstep, ⟨_, invariant_step hstep hs⟩, ht⟩) s ⟨⟨es, hs⟩, hd⟩
  exact ⟨fs, t, hrun, hterm, not_completed_of_not_decided hnot⟩

theorem racing_run {fs : List Event} (hs : Invariant es s) (h : system.MTr s fs t)
    (hr : Racing s) : Racing t := by
  have hboth := h.invariant (P := fun s => (∃ es, Invariant es s) ∧ Racing s) ⟨⟨es, hs⟩, hr⟩
    fun s e t ⟨⟨es, hs⟩, hr⟩ htr =>
      ⟨⟨_, invariant_step (tr_iff.mp htr) hs⟩, racing_continue (tr_iff.mp htr) hs hr⟩
  exact hboth.2

theorem decided_run {fs : List Event} (h : system.MTr s fs t) (hd : Decided s) : Decided t :=
  h.invariant hd fun _ _ _ hd htr => decided_continue (tr_iff.mp htr) hd

theorem not_completed_of_deadlocked (hd : Deadlocked s) : ¬ Completed s := by
  intro hc
  have hmain := hd.main.symm.trans hc.main
  simp at hmain

/-- The deadlock is inevitable from the moment when each thread has taken its first mutex, and not
before; that the program completes is certain from the moment when one thread has taken its second
mutex, and not before. -/
theorem inevitable_iff (h : system.MTr initial es s) :
    ((∀ fs t, system.MTr s fs t → system.Terminal t → Deadlocked t) ↔ Racing s) ∧
    ((∀ fs t, system.MTr s fs t → system.Terminal t → Completed t) ↔ Decided s) := by
  have hs := invariant_run h
  refine ⟨⟨fun hall => ?_, fun hr fs t hrun hterm => ?_⟩,
    ⟨fun hall => ?_, fun hd fs t hrun hterm => ?_⟩⟩
  · by_contra hr
    obtain ⟨fs, t, hrun, hterm, hc⟩ := completed_of_not_racing hs hr
    exact not_completed_of_deadlocked (hall fs t hrun hterm) hc
  · rcases completed_or_racing (invariant_continue hs hrun) hterm with hc | ⟨hd, -⟩
    · have hracing := racing_run hs hrun hr
      refine (not_completed_of_not_decided ?_ hc).elim
      exact fun hd => not_racing_of_decided hd hracing
    · exact hd
  · by_contra hd
    obtain ⟨fs, t, hrun, hterm, hc⟩ := deadlocked_of_not_decided hs hd
    exact hc (hall fs t hrun hterm)
  · rcases completed_or_racing (invariant_continue hs hrun) hterm with hc | ⟨-, hpc⟩
    · exact hc
    · obtain ⟨w, hw⟩ := decided_run hrun hd
      rw [hpc] at hw
      omega

theorem inevitable_after_first_locks :
    ∃ es s, system.MTr initial es s ∧
      ∀ fs t, system.MTr s fs t → system.Terminal t → Deadlocked t := by
  have h : system.MTr initial _ _ :=
    LTS.mTr_of_replay [.main, .main, .thread .thread1, .thread .thread2] rfl
  refine ⟨_, _, h, (inevitable_iff h).1.mpr fun w => ?_⟩
  cases w <;> decide

end LinuxTutorial.Mutex.Simple
