import LinuxTutorial.PingPong.Runs

/-!
# The ends of the runs

Every run is finite. Below `INT32_MAX` the threads return with the counts of the sequential loop,
and `main` prints after both of them if it waits for both before.
-/

namespace LinuxTutorial.PingPong

open Transition Counting Memory

variable {s t : State} {e : Event} {es pre post : List Event} {u w : Task} {p : ℕ}
  {program passed rest : List Call} {maxLoop v : Int32} {c : Call} {pc : ThreadPC}

/-- The steps that a thread has left. -/
def ThreadPC.left : ThreadPC → ℕ
  | .absent => 0
  | .malloc => (LoopPC.test 1).left + 3
  | .assign _ => (LoopPC.test 1).left + 2
  | .loop _ pc => pc.left + 1
  | .returned _ => 0

def Call.left : Call → ℕ
  | .create _ | .call _ => ThreadPC.malloc.left + 1
  | _ => 1

def callsLeft : List Call → ℕ
  | [] => 0
  | c :: rest => c.left + callsLeft rest

def left (s : State) : ℕ :=
  callsLeft s.main + (!s.fault).toNat + ((s.thread .ping).left + (s.thread .pong).left)

theorem left_update (thread : Task → ThreadPC) (u : Task) (pc : ThreadPC) :
    (Function.update thread u pc .ping).left + (Function.update thread u pc .pong).left +
        (thread u).left = pc.left + ((thread .ping).left + (thread .pong).left) := by
  cases u <;> simp <;> omega

theorem left_lt_thread (hmain : t.main = s.main) (hf : t.fault = s.fault)
    (hthread : t.thread = Function.update s.thread u pc) (h : pc.left < (s.thread u).left) :
    left t < left s := by
  have hupdate := left_update s.thread u pc
  simp only [left, hmain, hf, hthread]
  omega

/-- A step of `main` past a call that starts nothing. -/
theorem left_lt_main (hmain : s.main = c :: t.main) (hc : 0 < c.left) (hf : t.fault = s.fault)
    (hthread : t.thread = s.thread) : left t < left s := by
  simp only [left, hmain, callsLeft, hf, hthread]
  omega

theorem left_lt (h : Step s e t) : left t < left s := by
  cases h with
  | @start c u rest hf h hc =>
    have hupdate := left_update s.thread u .malloc
    have hcost : c.left = ThreadPC.malloc.left + 1 := by
      rcases Call.starts_iff.mp hc with rfl | rfl <;> rfl
    simp only [left, h, callsLeft, hcost]
    omega
  | callReturn hf h | join hf h | print hf h => exact left_lt_main h Nat.one_pos rfl rfl
  | unassigned hf h hv => simp [left, hf]
  | malloc hf h | assign hf h | finish hf h =>
    exact left_lt_thread rfl rfl rfl (by simp [h, ThreadPC.left])
  | loop hf h hn =>
    refine left_lt_thread rfl rfl rfl ?_
    rw [h]
    exact Nat.succ_lt_succ (LoopPC.left_lt hn)

theorem not_infinite {run : ℕ → State} {label : ℕ → Event} :
    ¬ ∀ n, system.Tr (run n) (label n) (run (n + 1)) :=
  LTS.no_infinite_run (fun _ => True) left (fun _ _ _ _ _ => trivial)
    (fun _ _ _ _ h => left_lt (tr_iff.mp h)) trivial

/-- Every run can be continued to its end. -/
theorem exists_end (s : State) : ∃ es t, system.MTr s es t ∧ system.Terminal t :=
  LTS.exists_terminal left (fun _ _ _ h => left_lt (tr_iff.mp h)) s

/-- Where a thread can be stuck. -/
theorem thread_of_terminal (ht : system.Terminal s) (hf : s.fault = false) (w : Task) :
    s.thread w = .absent ∨ (∃ p, s.thread w = .returned p) ∨
      ∃ p, s.thread w = .loop p .overflow := by
  cases h : s.thread w with
  | absent => exact Or.inl rfl
  | malloc => exact (ht _ _ (tr_iff.mpr (.malloc hf h))).elim
  | assign p => exact (ht _ _ (tr_iff.mpr (.assign hf h))).elim
  | returned p => exact Or.inr (Or.inl ⟨p, rfl⟩)
  | loop p pc =>
    by_cases hdone : pc = .done
    · subst hdone
      exact (ht _ _ (tr_iff.mpr (.finish hf h))).elim
    · by_cases hoverflow : pc = .overflow
      · exact Or.inr (Or.inr ⟨p, by rw [hoverflow]⟩)
      · obtain ⟨le, pc', hn⟩ := LoopPC.exists_next s.maxLoop hdone hoverflow
        exact (ht _ _ (tr_iff.mpr (.loop hf h hn))).elim

/-- `main` is stuck only where it waits for a thread. -/
theorem main_of_terminal (ht : system.Terminal s) (hf : s.fault = false) :
    s.main = [] ∨ ∃ w rest, (s.main = .callReturn w :: rest ∨ s.main = .join w :: rest) ∧
      ∀ p, s.thread w ≠ .returned p := by
  cases hm : s.main with
  | nil => exact Or.inl rfl
  | cons c rest =>
    cases c with
    | create u =>
      exact (ht _ _ (tr_iff.mpr (.start hf hm (Call.starts_iff.mpr (Or.inl rfl))))).elim
    | call u =>
      exact (ht _ _ (tr_iff.mpr (.start hf hm (Call.starts_iff.mpr (Or.inr rfl))))).elim
    | callReturn u =>
      exact Or.inr ⟨u, rest, Or.inl rfl, fun p hr =>
        ht _ _ (tr_iff.mpr (.callReturn hf hm hr))⟩
    | join u =>
      exact Or.inr ⟨u, rest, Or.inr rfl, fun p hr => ht _ _ (tr_iff.mpr (.join hf hm hr))⟩
    | printReturn u =>
      cases hv : s.deref u with
      | none => exact (ht _ _ (tr_iff.mpr (.unassigned hf hm hv))).elim
      | some v => exact (ht _ _ (tr_iff.mpr (.print hf hm hv))).elim

/-- Each call of a program has the given relation to the calls before it. -/
def Follows (P : List Call → Call → Prop) (program : List Call) : Prop :=
  ∀ k, ∀ h : k < program.length, P (program.take k) program[k]

instance (P : List Call → Call → Prop) [∀ passed, DecidablePred (P passed)]
    (program : List Call) : Decidable (Follows P program) :=
  inferInstanceAs (Decidable (∀ _, ∀ _, _))

theorem Follows.of_split {P : List Call → Call → Prop} (h : Follows P program)
    (hprogram : program = passed ++ c :: rest) : P passed c := by
  subst hprogram
  have hk := h passed.length (by simp)
  simpa using hk

/-- A thread that is waited for has been started. -/
def StartedBefore (passed : List Call) (c : Call) : Prop :=
  ∀ w, c = .join w ∨ c = .callReturn w → ∃ d ∈ passed, d.starts w = true

/-- A return value is printed when every thread has been waited for. -/
def WaitedBefore (passed : List Call) (c : Call) : Prop :=
  ∀ u, c = .printReturn u → ∀ w, .join w ∈ passed ∨ .callReturn w ∈ passed

/-- A return value is printed when its thread has been joined. -/
def JoinedBefore (passed : List Call) (c : Call) : Prop :=
  ∀ u, c = .printReturn u → .join u ∈ passed

instance (passed : List Call) : DecidablePred (StartedBefore passed) :=
  fun _ => inferInstanceAs (Decidable (∀ _, _))

instance (passed : List Call) : DecidablePred (WaitedBefore passed) :=
  fun _ => inferInstanceAs (Decidable (∀ _, _))

instance (passed : List Call) : DecidablePred (JoinedBefore passed) :=
  fun _ => inferInstanceAs (Decidable (∀ _, _))

/-- The order in which both programs create, wait for and print. -/
structure WellOrdered (program : List Call) : Prop where
  startsOnce : StartsOnce program
  startsAll : ∀ u, ∃ c ∈ program, c.starts u = true
  started : Follows StartedBefore program
  waited : Follows WaitedBefore program

/-- Where the unassigned read has happened. -/
theorem fault_run (h : system.MTr (initial program maxLoop) es s) (hf : s.fault = true) :
    ∃ u rest, s.main = .printReturn u :: rest ∧ s.deref u = none ∧ .unassigned u ∈ es := by
  refine h.history (P := fun es s => s.fault = true → ∃ u rest,
    s.main = .printReturn u :: rest ∧ s.deref u = none ∧ .unassigned u ∈ es)
    (by simp [initial]) ?_ hf
  intro es s e t _ htr hfault
  cases tr_iff.mp htr with
  | @unassigned u rest hf h hv => exact ⟨u, rest, h, hv, by simp⟩
  | _ => simp_all

theorem Passed.returned_of_waited (hs : Passed passed es s)
    (h : .join w ∈ passed ∨ .callReturn w ∈ passed) : ∃ p, s.thread w = .returned p := by
  rcases h with h | h
  · obtain ⟨p, hp⟩ := hs.joined w h
    exact ⟨p, (hs.ret w p hp).2⟩
  · exact hs.called w h

theorem Passed.ne_absent (hs : Passed passed es s) (h : ∃ c ∈ passed, c.starts u = true) :
    s.thread u ≠ .absent := by
  obtain ⟨c, hmem, hc⟩ := h
  intro habsent
  rw [(hs.started u).mp habsent c hmem] at hc
  simp at hc

theorem Invariant.not_overflow (hs : Invariant program maxLoop es s)
    (hne : maxLoop ≠ Int32.maxValue) : s.thread u ≠ .loop p .overflow := by
  intro h
  have hu := hs.counted u
  simp [Counted, h, hs.maxLoop_eq, count_one hne, LoopPC.rest] at hu

/-- At the end of a run below `INT32_MAX` both threads have returned. -/
theorem WellOrdered.returned_of_terminal (hw : WellOrdered program)
    (hne : maxLoop ≠ Int32.maxValue) (h : system.MTr (initial program maxLoop) es s)
    (ht : system.Terminal s) (w : Task) : ∃ p, s.thread w = .returned p := by
  have hs := invariant_run hw.startsOnce h
  obtain ⟨passed, hprogram, hpassed⟩ := hs.passed
  cases hf : s.fault with
  | true =>
    obtain ⟨u, rest, hmain, -, -⟩ := fault_run h hf
    rw [hmain] at hprogram
    exact hpassed.returned_of_waited (hw.waited.of_split hprogram u rfl w)
  | false =>
    have hreturned : ∀ w, s.thread w ≠ .absent → ∃ p, s.thread w = .returned p := by
      intro w hstarted
      rcases thread_of_terminal ht hf w with habsent | hreturned | ⟨p, hoverflow⟩
      · exact (hstarted habsent).elim
      · exact hreturned
      · exact (hs.not_overflow hne hoverflow).elim
    rcases main_of_terminal ht hf with hmain | ⟨v, rest, hmain, hv⟩
    · rw [hmain, List.append_nil] at hprogram
      exact hreturned w (hpassed.ne_absent (hprogram ▸ hw.startsAll w))
    · -- `main` does not wait for a thread that it has not started.
      have hstarted : s.thread v ≠ .absent := by
        rcases hmain with hmain | hmain <;> rw [hmain] at hprogram
        · exact hpassed.ne_absent (hw.started.of_split hprogram v (Or.inr rfl))
        · exact hpassed.ne_absent (hw.started.of_split hprogram v (Or.inl rfl))
      obtain ⟨p, hp⟩ := hreturned v hstarted
      exact (hv p hp).elim

/-- A thread that has returned has printed the counts of the sequential loop. -/
theorem Invariant.counts_eq (hs : Invariant program maxLoop es s)
    (hne : maxLoop ≠ Int32.maxValue) (h : s.thread u = .returned p) :
    counts u (lines es) = upTo maxLoop ∧ .finished u ∈ lines es := by
  have hu := hs.counted u
  simp only [Counted, h, hs.maxLoop_eq, count_one hne, Option.some.injEq] at hu
  exact ⟨hu.1.symm, hu.2⟩

/-- At `INT32_MAX` no thread returns. -/
theorem Invariant.not_returned (hs : Invariant program Int32.maxValue es s) :
    s.thread u ≠ .returned p := by
  intro h
  have hu := hs.counted u
  simp [Counted, h, hs.maxLoop_eq, count_maxValue] at hu

/-- Below `INT32_MAX` no increment overflows. -/
theorem no_overflow (hp : StartsOnce program) (hne : maxLoop ≠ Int32.maxValue)
    (h : system.MTr (initial program maxLoop) es s) : .overflow u ∉ es := by
  intro hmem
  obtain ⟨pre, post, rfl⟩ := List.append_of_mem hmem
  obtain ⟨s', hpre, hpost⟩ := LTS.mTr_append_iff.mp h
  obtain ⟨t, hstep, -⟩ := LTS.mTr_cons_iff.mp hpost
  have ht := invariant_step hp (tr_iff.mp hstep) (invariant_run hp hpre)
  generalize he : Event.overflow u = e at hstep ht
  cases tr_iff.mp hstep with
  | @loop w p le pc pc' hf h hn =>
    cases le <;> simp [Event.ofLoop] at he
    rw [LoopPC.overflow_of_next hn] at ht
    exact ht.not_overflow hne (Function.update_self _ _ _)
  | _ => simp at he

/-- A return value is printed after both threads have finished. -/
theorem WellOrdered.finished_before (hw : WellOrdered program) (hne : maxLoop ≠ Int32.maxValue)
    (h : system.MTr (initial program maxLoop) (pre ++ .line (.returns u v) :: post) s)
    (w : Task) : .line (.finished w) ∈ pre := by
  obtain ⟨s', hpre, hpost⟩ := LTS.mTr_append_iff.mp h
  obtain ⟨t, hstep, -⟩ := LTS.mTr_cons_iff.mp hpost
  have hs := invariant_run hw.startsOnce hpre
  obtain ⟨passed, hprogram, hpassed⟩ := hs.passed
  generalize he : Event.line (.returns u v) = e at hstep
  cases tr_iff.mp hstep with
  | print hf h hv =>
    rw [h] at hprogram
    obtain ⟨p, hp⟩ := hpassed.returned_of_waited (hw.waited.of_split hprogram _ rfl w)
    exact mem_lines.mp (hs.counts_eq hne hp).2
  | @loop w p le pc pc' hf h hn => cases le <;> simp [Event.ofLoop] at he
  | _ => simp at he

/-- A program that joins before it prints reads no pointer without a value. -/
theorem no_unassigned (hp : StartsOnce program) (hj : Follows JoinedBefore program)
    (h : system.MTr (initial program maxLoop) es s) : s.fault = false := by
  by_contra hf
  have hs := invariant_run hp h
  obtain ⟨passed, hprogram, hpassed⟩ := hs.passed
  obtain ⟨u, rest, hmain, hnone, -⟩ := fault_run h (by simpa using hf)
  rw [hmain] at hprogram
  rw [hpassed.deref_of_join hs.owned (hj.of_split hprogram u rfl)] at hnone
  simp at hnone

/-- A run that has read no pointer without a value ends at the end of `main`. -/
theorem WellOrdered.main_eq_nil (hw : WellOrdered program) (hne : maxLoop ≠ Int32.maxValue)
    (h : system.MTr (initial program maxLoop) es s) (ht : system.Terminal s)
    (hf : s.fault = false) :
    s.main = [] ∧ returned (lines es) = program.filterMap Call.printed? := by
  have hs := invariant_run hw.startsOnce h
  obtain ⟨passed, hprogram, hpassed⟩ := hs.passed
  rcases main_of_terminal ht hf with hmain | ⟨v, rest, -, hv⟩
  · rw [hmain, List.append_nil] at hprogram
    exact ⟨hmain, hprogram ▸ hpassed.printed⟩
  · obtain ⟨p, hp⟩ := hw.returned_of_terminal hne h ht v
    exact (hv p hp).elim

end LinuxTutorial.PingPong
