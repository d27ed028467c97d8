import LinuxTutorial.PingPong.TimerLiveness
import LinuxTutorial.Transition.Simulation

/-!
# Semaphores as arguments

`ping_pong_pThread_withTimer_semArg.c` sets priorities that it then resets, and passes pointers to
the semaphores that `ping_pong_pThread_withTimer.c` names. Apart from the calls on the attributes
nobody can tell the programs from each other.
-/

namespace LinuxTutorial.PingPong.WithTimer

open Transition Posix Counting

variable {accepts accepts' : Int32 → Bool} {p q : Program} {s t s' t' : State} {e : Event}
  {es : List Event} {u v : Task} {k : ℕ} {pc : ThreadPC}

/-- Everything but the calls on the attributes. -/
def Event.observed : Event → Option Event
  | .attr => none
  | e => some e

def ThreadPC.withArg (arg : Arg) : ThreadPC → ThreadPC
  | .wait _ i => .wait arg i
  | .print _ i => .print arg i
  | .absent => .absent
  | .overflow => .overflow
  | .exited => .exited

/-- The states of two programs that differ in the arguments of the threads, in the attributes and
in the place of `main`. -/
structure Same (q : Program) (s s' : State) : Prop where
  thread : ∀ u, s'.thread u = (s.thread u).withArg (q.arg u)
  timer : s'.timer = s.timer
  handlers : s'.handlers = s.handlers
  semaphores : s'.semaphores = s.semaphores
  fault : s'.fault = s.fault

/-- The two `main` are at the same place. While the attributes are set up, all places are the
same. -/
structure Related (accepts accepts' : Int32 → Bool) (p q : Program) (s s' : State) : Prop
    extends Same q s s' where
  left : Invariant accepts p s
  right : Invariant accepts' q s'
  main : s'.main - q.first = s.main - p.first

theorem related_initial : Related accepts accepts' p q initial initial where
  thread u := rfl
  timer := rfl
  handlers := rfl
  semaphores := rfl
  fault := rfl
  left := invariant_initial
  right := invariant_initial
  main := by simp [initial]

/-- The other program sets up its attributes when it has to. -/
theorem Related.catch_up (h : Related accepts accepts' p q s s') (hf : s.fault = false)
    (hfirst : p.first ≤ s.main) :
    ∃ fs t', (system accepts' q).MTr s' fs t' ∧ fs.filterMap Event.observed = [] ∧
      Related accepts accepts' p q s t' ∧ t'.main + p.first = q.first + s.main := by
  induction hd : q.first - s'.main generalizing s' with
  | zero =>
    have hmain := h.main
    exact ⟨[], s', .refl, rfl, h, by omega⟩
  | succ d ih =>
    have hlt : s'.main < q.first := by omega
    obtain ⟨attrs, hattrs⟩ := attributes_next h.right hlt
    have hcall : q.main[s'.main]? = some q.attributes[s'.main] := by
      rw [Program.main, List.getElem?_append_left hlt, List.getElem?_eq_getElem hlt]
    have hstep : Step accepts' q s' .attr { s' with main := s'.main + 1, attrs := attrs } :=
      .attr (h.fault.trans hf) hcall hattrs
    have hmain := h.main
    have hnext : Related accepts accepts' p q s { s' with main := s'.main + 1, attrs := attrs } :=
      { h with right := invariant_step hstep h.right, main := by simp only; omega }
    obtain ⟨fs, t', hrun, hobs, ht, hplace⟩ := ih hnext (by simp only; omega)
    exact ⟨.attr :: fs, t', .stepL (tr_iff.mpr hstep) hrun, by simpa [Event.observed] using hobs,
      ht, hplace⟩

theorem withArg_update {thread thread' : Task → ThreadPC} {pc' : ThreadPC}
    (h : ∀ u, thread' u = (thread u).withArg (q.arg u)) (hpc : pc' = pc.withArg (q.arg v))
    (u : Task) :
    Function.update thread' v pc' u = (Function.update thread v pc u).withArg (q.arg u) := by
  by_cases huv : u = v
  · subst v
    simpa using hpc
  · simpa [Function.update_of_ne huv] using h u

theorem filterMap_singleton (e : Event) : [e].filterMap Event.observed = e.observed.toList := by
  cases h : e.observed <;> simp [h]

/-- The other program answers by the same step. -/
theorem Related.answer (h : Related accepts accepts' p q s s') (hstep : Step accepts p s e t)
    (hstep' : Step accepts' q s' e t') (hmain : t'.main - q.first = t.main - p.first)
    (hsame : Same q t t') :
    ∃ fs t', (system accepts' q).MTr s' fs t' ∧ fs.filterMap Event.observed = e.observed.toList ∧
      Related accepts accepts' p q t t' :=
  ⟨[e], t', .single (tr_iff.mpr hstep'), filterMap_singleton e,
    { hsame with
      left := invariant_step hstep h.left, right := invariant_step hstep' h.right, main := hmain }⟩

/-- For a call behind those on the attributes, it catches up first. -/
theorem Related.answer_call (h : Related accepts accepts' p q s s') (hf : s.fault = false)
    (hfirst : p.first ≤ s.main)
    (hcall : ∀ s', Related accepts accepts' p q s s' → s'.main + p.first = q.first + s.main →
      ∃ fs t', (system accepts' q).MTr s' fs t' ∧ fs.filterMap Event.observed = e.observed.toList ∧
        Related accepts accepts' p q t t') :
    ∃ fs t', (system accepts' q).MTr s' fs t' ∧ fs.filterMap Event.observed = e.observed.toList ∧
      Related accepts accepts' p q t t' := by
  obtain ⟨fs, u', hrun, hobs, hu, hplace⟩ := h.catch_up hf hfirst
  obtain ⟨gs, t', hrun', hobs', ht⟩ := hcall u' hu hplace
  exact ⟨fs ++ gs, t', hrun.append hrun', by rw [List.filterMap_append, hobs, hobs']; rfl, ht⟩

/-- A program is simulated by the other one, and by itself under another policy. -/
theorem simulates (accepts accepts' : Int32 → Bool) (p q : Program) :
    LTS.Simulates (system accepts p) (system accepts' q) Event.observed Event.observed
      (Related accepts accepts' p q) := by
  intro s e t s' h htr
  have hstep := tr_iff.mp htr
  have h' := hstep
  cases h' with
  | @attr c attrs hf hc ha =>
    obtain ⟨hlt, -⟩ := attr_at h.left hc ha
    have hmain := h.main
    exact ⟨[], s', .refl, rfl,
      { h with left := invariant_step hstep h.left, main := by simp only; omega }⟩
  | @create v arg r hf hc hr =>
    obtain ⟨hplace, -, -⟩ := create_at h.left hc
    obtain rfl : r = 0 := Option.some.inj (hr.symm.trans (h.left.priority (by omega) v))
    refine h.answer_call hf (by omega) fun s' h hplace' => ?_
    have hcall : q.main[s'.main]? = some (.create v (q.arg v)) := by
      rw [show s'.main = q.first + idx v by omega]
      exact (CallAt.create v).call
    refine h.answer hstep (.create (h.fault.trans hf) hcall (h.right.priority (by omega) v)) ?_
      { h.toSame with thread := withArg_update h.thread rfl }
    simp only
    omega
  | @timerCreate v hf hc =>
    have hplace := timerCreate_at h.left hc
    refine h.answer_call hf (by omega) fun s' h hplace' => ?_
    have hcall : q.main[s'.main]? = some (.timerCreate v) := by
      rw [show s'.main = q.first + 2 + idx v by omega]
      exact (CallAt.timerCreate v).call
    refine h.answer hstep (.timerCreate (h.fault.trans hf) hcall) ?_
      { h.toSame with timer := by simp only [h.timer] }
    simp only
    omega
  | @settime v hf hc =>
    have hplace := settime_at h.left hc
    refine h.answer_call hf (by omega) fun s' h hplace' => ?_
    have hcall : q.main[s'.main]? = some (.settime v) := by
      rw [show s'.main = q.first + 4 + idx v by omega]
      exact (CallAt.settime v).call
    refine h.answer hstep (.settime (h.fault.trans hf) hcall) ?_
      { h.toSame with timer := by simp only [h.timer] }
    simp only
    omega
  | join hf hc hu => exact (not_exited h.left _ hu).elim
  | semDestroy hf hc => exact (not_semDestroy h.left hc).elim
  | @expire v b tm hf ht =>
    exact h.answer hstep (.expire (h.fault.trans hf) (by rw [h.timer]; exact ht)) h.main
      { h.toSame with timer := by simp only [h.timer] }
  | @notify v tm hf ht =>
    exact h.answer hstep (.notify (h.fault.trans hf) (by rw [h.timer]; exact ht)) h.main
      { h.toSame with
        timer := by simp only [h.timer]
        handlers := by simp only [h.handlers] }
  | @post v handlers hf hw =>
    exact h.answer hstep (.post (h.fault.trans hf) (by rw [h.handlers]; exact hw)) h.main
      { h.toSame with
        handlers := rfl
        semaphores := by simp only [h.semaphores] }
  | @wait v w arg i semaphores hf hpc hv hw =>
    obtain rfl : v = w := Option.some.inj ((h.left.thread v).semaphore hpc ▸ hv)
    have hpc' : s'.thread v = .wait (q.arg v) i := by rw [h.thread, hpc, ThreadPC.withArg]
    have hv' := (h.right.thread v).semaphore hpc'
    exact h.answer hstep (.wait (h.fault.trans hf) hpc' hv' (by rw [h.semaphores]; exact hw)) h.main
      { h.toSame with
        thread := withArg_update h.thread rfl
        semaphores := rfl }
  | @segv v arg i hf hpc hv => simp [(h.left.thread v).semaphore hpc] at hv
  | @print v arg i j hf hpc hj =>
    have hpc' : s'.thread v = .print (q.arg v) i := by rw [h.thread, hpc, ThreadPC.withArg]
    exact h.answer hstep (.print (h.fault.trans hf) hpc' hj) h.main
      { h.toSame with thread := withArg_update h.thread rfl }
  | @overflow v arg i hf hpc hj =>
    have hpc' : s'.thread v = .print (q.arg v) i := by rw [h.thread, hpc, ThreadPC.withArg]
    exact h.answer hstep (.overflow (h.fault.trans hf) hpc' hj) h.main
      { h.toSame with thread := withArg_update h.thread rfl }

/-- The programs have the same observable traces, whatever priorities the scheduling policy
accepts. -/
theorem traces_semArg_eq (accepts accepts' : Int32 → Bool) :
    (system accepts .semArg).Traces Event.observed initial =
      (system accepts' .withTimer).Traces Event.observed initial :=
  Set.Subset.antisymm ((simulates _ _ _ _).traces_subset related_initial)
    ((simulates _ _ _ _).traces_subset related_initial)

end LinuxTutorial.PingPong.WithTimer
