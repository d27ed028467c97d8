import LinuxTutorial.PingPong.TimerRuns
import LinuxTutorial.Transition.Fair
import Mathlib.Tactic.DeriveEncodable

/-!
# Every number is printed

In a fair execution the timers go on and nothing that is on its way gets stuck: each thread prints
all numbers up to `INT_MAX`, and then its counter overflows.
-/

namespace LinuxTutorial.PingPong.WithTimer

open Transition Posix Counting

variable {accepts : Int32 → Bool} {p : Program} {s t : State} {e : Event} {es : List Event}
  {u v : Task} {k m n : ℕ}

def Event.actor : Event → Action
  | .attr | .create _ _ | .main => .main
  | .expire u _ => .timer u
  | .notify u => .signal u
  | .post u => .handler u
  | .wait u _ | .print u _ | .overflow u | .segv u => .thread u

theorem main_step (h : Step accepts p s e t) :
    (e.actor = .main ∧ t.main = s.main + 1) ∨ (e.actor ≠ .main ∧ t.main = s.main) := by
  cases h with
  | attr | create | timerCreate | settime | join | semDestroy => exact Or.inl ⟨rfl, rfl⟩
  | _ => exact Or.inr ⟨by simp [Event.actor], rfl⟩

theorem fault_run (h : (system accepts p).MTr initial es s) : s.fault = false := by
  have hboth := h.invariant (P := fun s => Invariant accepts p s ∧ s.fault = false)
    ⟨invariant_initial, rfl⟩ ?_
  · exact hboth.2
  · rintro s e t ⟨hs, hf⟩ htr
    have hstep := tr_iff.mp htr
    have hsound := sound_step hstep hs
    refine ⟨invariant_step hstep hs, ?_⟩
    cases hstep with
    | segv hf h hv => exact hsound.elim
    | _ => exact hf

theorem attributes_next (hs : Invariant accepts p s) (hlt : s.main < p.first) :
    ∃ attrs, s.attrs.apply accepts p.attributes[s.main] = some attrs := by
  obtain ⟨a, ha, -⟩ := attributes_run accepts p
  rw [← List.take_append_drop s.main p.attributes, List.foldlM_append, hs.attrs,
    List.drop_eq_getElem_cons hlt] at ha
  obtain ⟨b, hb, hrest⟩ := Option.bind_eq_some_iff.mp ha
  obtain rfl := Option.some.inj hb
  obtain ⟨attrs, hattrs, -⟩ := Option.bind_eq_some_iff.mp hrest
  exact ⟨attrs, hattrs⟩

theorem exists_position (hfirst : p.first ≤ k) (hk : k < p.first + 6) :
    ∃ u, k = p.first + idx u ∨ k = p.first + 2 + idx u ∨ k = p.first + 4 + idx u := by
  obtain ⟨j, rfl⟩ := Nat.exists_eq_add_of_le hfirst
  by_cases hj : j % 2 = 0
  · exact ⟨.ping, by simp only [idx]; omega⟩
  · exact ⟨.pong, by simp only [idx]; omega⟩

/-- Up to its first join nothing stops `main`. -/
theorem enabled_main (hs : Invariant accepts p s) (hf : s.fault = false)
    (hlt : s.main < p.first + 6) : (system accepts p).Enabled Event.actor .main s := by
  by_cases hfirst : s.main < p.first
  · have hcall : p.main[s.main]? = some p.attributes[s.main] := by
      rw [Program.main, List.getElem?_append_left hfirst, List.getElem?_eq_getElem hfirst]
    obtain ⟨attrs, hattrs⟩ := attributes_next hs hfirst
    exact ⟨_, _, tr_iff.mpr (.attr hf hcall hattrs), rfl⟩
  · obtain ⟨u, hu | hu | hu⟩ := exists_position (not_lt.mp hfirst) hlt
    · have hpriority := hs.priority (not_lt.mp hfirst) u
      exact ⟨_, _, tr_iff.mpr (.create hf (hu ▸ (CallAt.create u).call) hpriority), rfl⟩
    · exact ⟨_, _, tr_iff.mpr (.timerCreate hf (hu ▸ (CallAt.timerCreate u).call)), rfl⟩
    · exact ⟨_, _, tr_iff.mpr (.settime hf (hu ▸ (CallAt.settime u).call)), rfl⟩

/-- Everything is set up, and `main` waits at its first join. -/
structure Running (accepts : Int32 → Bool) (p : Program) (s : State) : Prop where
  inv : Invariant accepts p s
  fault : s.fault = false
  main : s.main = p.first + 6

theorem main_progress (h : Step accepts p s e t) (hlt : s.main < p.first + 6) :
    LTS.Progress Event.actor (fun _ => .main) (fun s => p.first + 6 - s.main) s e t := by
  rcases main_step h with ⟨-, hmain⟩ | ⟨hactor, hmain⟩
  · exact Or.inl (by simp only [hmain]; omega)
  · exact Or.inr ⟨by simp only [hmain], rfl, hactor⟩

theorem main_joins {E : Execution State Event} (hf : (system accepts p).Fair Event.actor E)
    (h : (system accepts p).Valid E) (h0 : E.state 0 = initial) :
    ∃ k, ∀ n, k ≤ n → Running accepts p (E.state n) := by
  have hrun : ∀ n, (system accepts p).MTr initial (LTS.history E n) (E.state n) :=
    fun n => h0 ▸ h.mTr n
  have hbase : ∀ n, Invariant accepts p (E.state n) ∧ (E.state n).fault = false :=
    fun n => ⟨invariant_run (hrun n), fault_run (hrun n)⟩
  obtain ⟨k, hk⟩ := hf.eventually (fun s => Invariant accepts p s ∧ s.fault = false)
    (fun s => p.first + 6 ≤ s.main) h hbase
    (fun s hs hlt => enabled_main hs.1 hs.2 (not_le.mp hlt))
    fun s e t _ hlt htr => main_progress (tr_iff.mp htr) (not_le.mp hlt)
  refine ⟨k, fun n hkn => ⟨(hbase n).1, (hbase n).2, ?_⟩⟩
  have hle := (hbase n).1.main_le
  have hge : p.first + 6 ≤ (E.state n).main := by
    induction n, hkn using Nat.le_induction with
    | base => exact hk
    | succ n hkn ih =>
      have hn := ih (hbase n).1.main_le
      cases he : E.event n with
      | none => rwa [h.pause n he]
      | some e =>
        rcases main_step (tr_iff.mp (h.tr n e he)) with ⟨-, hmain⟩ | ⟨-, hmain⟩ <;> omega
  omega

/-- How far the next number of a thread is from being printed. -/
def State.stage (s : State) (u : Task) : ℕ :=
  if 0 < (s.thread u).printing then 0
  else if 0 < s.semaphores u then 1
  else if 0 < s.handlers u then 2
  else if (s.timer u).queued then 3
  else 4

/-- Who takes the next number of a thread on. -/
def State.helper (s : State) (u : Task) : Action :=
  if 0 < (s.thread u).printing ∨ 0 < s.semaphores u then .thread u
  else if 0 < s.handlers u then .handler u
  else if (s.timer u).queued then .signal u
  else .timer u

def State.counter (s : State) (u : Task) : ℕ := (s.thread u).counter.toInt.toNat

/-- The goal is a number that is printed, or an overflow. -/
def Reached (u : Task) (n : ℕ) (s : State) : Prop := n ≤ s.counter u ∨ s.thread u = .overflow

theorem enabled_thread (hs : Running accepts p s) (hu : s.thread u ≠ .overflow)
    (hready : 0 < (s.thread u).printing ∨ 0 < s.semaphores u) :
    (system accepts p).Enabled Event.actor (.thread u) s := by
  have hat := hs.inv.thread u
  cases hpc : s.thread u with
  | absent =>
    have hidx := idx_le u
    have hmain := hs.main
    rw [hpc] at hat
    cases hat with
    | absent h => omega
  | wait arg i =>
    have hsem : 0 < s.semaphores u := by
      rcases hready with hready | hready
      · simp [hpc, ThreadPC.printing] at hready
      · exact hready
    obtain ⟨semaphores, hwait⟩ := Semaphore.wait_of_pos hsem
    exact ⟨_, _, tr_iff.mpr (.wait hs.fault hpc (hat.semaphore hpc) hwait), rfl⟩
  | print arg i =>
    cases hj : increment i with
    | some j => exact ⟨_, _, tr_iff.mpr (.print hs.fault hpc hj), rfl⟩
    | none => exact ⟨_, _, tr_iff.mpr (.overflow hs.fault hpc hj), rfl⟩
  | overflow => exact (hu hpc).elim
  | exited => exact (not_exited hs.inv u hpc).elim

theorem Running.armed (hs : Running accepts p s) (u : Task) :
    (s.timer u).timer = .armed () (its u) := by
  have hidx := idx_le u
  rw [hs.inv.timer u, hs.main, Program.timerAt, if_neg (by omega), if_neg (by omega)]

theorem enabled_helper (hs : Running accepts p s) (hu : s.thread u ≠ .overflow) :
    (system accepts p).Enabled Event.actor (s.helper u) s := by
  simp only [State.helper]
  split_ifs with hready hhandler hqueued
  · exact enabled_thread hs hu hready
  · obtain ⟨handlers, hwait⟩ := Semaphore.wait_of_pos hhandler
    exact ⟨_, _, tr_iff.mpr (.post hs.fault hwait), rfl⟩
  · have hdeliver : (s.timer u).deliver = some { s.timer u with queued := false } := if_pos hqueued
    exact ⟨_, _, tr_iff.mpr (.notify hs.fault hdeliver), rfl⟩
  · have hexpire := TimerSignal.expire_of_interval (hs.armed u) (by cases u <;> simp [its])
    exact ⟨_, _, tr_iff.mpr (.expire hs.fault hexpire), rfl⟩

/-- Whose number a step takes on. -/
def Event.task? : Event → Option Task
  | .expire u _ | .notify u | .post u | .wait u _ | .print u _ | .overflow u | .segv u => some u
  | .attr | .create _ _ | .main => none

/-- Once everything is set up, `main` makes no step. -/
theorem not_main (h : Step accepts p s e t) (hs : Running accepts p s) : e.actor ≠ .main := by
  intro ha
  rcases main_step h with ⟨-, hmain⟩ | ⟨hne, -⟩
  · have hle := (invariant_step h hs.inv).main_le
    have hjoin := hs.main
    omega
  · exact hne ha

/-- The number that a step takes on is one of its own task. -/
theorem task_frame (h : Step accepts p s e t) (hs : Running accepts p s) (hu : e.task? ≠ some u) :
    t.thread u = s.thread u ∧ t.semaphores u = s.semaphores u ∧ t.handlers u = s.handlers u ∧
      t.timer u = s.timer u := by
  have hmain := not_main h hs
  have hmoves := moves_step h hs.inv u
  have hne : ∀ v, e.task? = some v → u ≠ v := by
    rintro v hv rfl
    exact hu hv
  cases h with
  | attr | create | timerCreate | settime | join | semDestroy => exact (hmain rfl).elim
  | @expire v b tm hf h =>
    exact ⟨rfl, rfl, rfl, Function.update_of_ne (hne v rfl) _ _⟩
  | @notify v tm hf h =>
    exact ⟨rfl, rfl, Function.update_of_ne (hne v rfl) _ _, Function.update_of_ne (hne v rfl) _ _⟩
  | @post v handlers hf h =>
    have hv := hne v rfl
    have hhandler := hmoves.handler
    have hsemaphore := hmoves.semaphore
    simp only [Event.posts, Event.notifies, Event.waits, Ne.symm hv, decide_false,
      Bool.toNat_false, zero_add, add_zero] at hhandler hsemaphore
    exact ⟨rfl, hsemaphore, hhandler, rfl⟩
  | @wait v w arg i semaphores hf h hv hwait =>
    have hne := hne v rfl
    have hsemaphore := hmoves.semaphore
    simp only [Event.waits, Event.posts, Ne.symm hne, decide_false, Bool.toNat_false, zero_add,
      add_zero] at hsemaphore
    exact ⟨Function.update_of_ne hne _ _, hsemaphore, rfl, rfl⟩
  | segv hf h hv => exact ⟨rfl, rfl, rfl, rfl⟩
  | @print v arg i j hf h hj => exact ⟨Function.update_of_ne (hne v rfl) _ _, rfl, rfl, rfl⟩
  | @overflow v arg i hf h hj => exact ⟨Function.update_of_ne (hne v rfl) _ _, rfl, rfl, rfl⟩

theorem actor_ne_helper (hu : e.task? ≠ some u) (ha : e.actor ≠ .main) :
    e.actor ≠ s.helper u := by
  cases e <;> simp [Event.task?] at hu <;> simp [Event.actor, State.helper] at ha ⊢ <;>
    split_ifs <;> simp [hu]

/-- The numbers that are still to be printed, and how far the next one is. -/
def left (u : Task) (n : ℕ) (s : State) : ℕ :=
  if s.thread u = .overflow then 0 else 5 * (n - s.counter u) + s.stage u + 1

theorem stage_le (s : State) (u : Task) : s.stage u ≤ 4 := by
  simp only [State.stage]
  split_ifs <;> omega

theorem progress (h : Step accepts p s e t) (hs : Running accepts p s) (hn : ¬ Reached u n s) :
    LTS.Progress Event.actor (fun s => s.helper u) (left u n) s e t := by
  have hlt : s.counter u < n := not_le.mp fun hle => hn (Or.inl hle)
  have hu : s.thread u ≠ .overflow := fun hu => hn (Or.inr hu)
  have hstep := h
  by_cases htask : e.task? = some u
  · cases h with
    | attr | create | timerCreate | settime | join | semDestroy => simp [Event.task?] at htask
    | @expire v b tm hf h =>
      obtain rfl := Option.some.inj htask
      obtain ⟨-, rfl, rfl⟩ := armed_of_expire hs.inv h
      cases hq : (s.timer v).queued <;>
        simp only [LTS.Progress, left, State.counter, State.stage, State.helper, Event.actor, hu,
          Function.update_self, hq] <;> split_ifs <;> simp_all
    | @notify v tm hf h =>
      obtain rfl := Option.some.inj htask
      obtain ⟨hq, rfl⟩ := TimerSignal.deliver_eq_some h
      simp only [LTS.Progress, left, State.counter, State.stage, State.helper, Event.actor, hu,
        Function.update_self, hq]
      split_ifs <;> simp_all
    | @post v handlers hf h =>
      obtain rfl := Option.some.inj htask
      have hwait := Semaphore.wait_apply h v
      have hpost := Semaphore.post_apply s.semaphores v v
      simp only [decide_true, Bool.toNat_true] at hwait hpost
      simp only [LTS.Progress, left, State.counter, State.stage, State.helper, Event.actor, hu,
        timerHandler, hpost]
      split_ifs <;> simp_all
    | @wait v w arg i semaphores hf h hv hwait =>
      obtain rfl := Option.some.inj htask
      have hstage : 1 ≤ s.stage v := by
        simp only [State.stage, h, ThreadPC.printing]
        split_ifs <;> omega
      refine Or.inl ?_
      simp only [left, State.counter, h, Function.update_self, if_false, reduceCtorEq, State.stage,
        ThreadPC.printing, ThreadPC.counter, zero_lt_one, if_true] at hstage ⊢
      omega
    | segv hf h hv => exact (sound_step hstep hs.inv).elim
    | @print v arg i j hf h hj =>
      obtain rfl := Option.some.inj htask
      have hsucc := increment_eq_some hj
      have hi := (hs.inv.thread v).counter_nonneg
      have hstage := stage_le { s with thread := Function.update s.thread v (.wait arg j) } v
      refine Or.inl ?_
      simp only [State.counter, h, ThreadPC.counter] at hlt hi
      simp only [left, State.counter, h, Function.update_self, if_false, reduceCtorEq,
        ThreadPC.counter]
      omega
    | @overflow v arg i hf h hj =>
      obtain rfl := Option.some.inj htask
      refine Or.inl ?_
      simp [left, hu]
  · obtain ⟨hthread, hsemaphore, hhandler, htimer⟩ := task_frame h hs htask
    refine Or.inr ⟨?_, ?_, actor_ne_helper htask (not_main h hs)⟩
    · simp only [left, State.counter, State.stage, hthread, hsemaphore, hhandler, htimer]
    · simp only [State.helper, hthread, hsemaphore, hhandler, htimer]

variable {E : Execution State Event}

theorem reached (hf : (system accepts p).Fair Event.actor E) (h : (system accepts p).Valid E)
    (h0 : E.state 0 = initial) (u : Task) (n : ℕ) : ∃ k, Reached u n (E.state k) := by
  obtain ⟨k, hk⟩ := main_joins hf h h0
  obtain ⟨l, -, hl⟩ := hf.eventually_from k (Running accepts p) (Reached u n) h hk
    (fun s hs hn => enabled_helper hs fun hu => hn (Or.inr hu))
    fun s e t hs hn htr => progress (tr_iff.mp htr) hs hn
  exact ⟨l, hl⟩

theorem mem_printedBy {i : Int32} (h : i ∈ printedBy u es) : .print u i ∈ es := by
  obtain ⟨e, he, hi⟩ := List.mem_filterMap.mp h
  cases e <;> simp [Event.printed?] at hi
  obtain ⟨rfl, rfl⟩ := hi
  exact he

theorem overflow_of_thread (h : (system accepts p).MTr initial es s)
    (hu : s.thread u = .overflow) : .overflow u ∈ es := by
  refine h.history (P := fun es s => s.thread u = .overflow → .overflow u ∈ es) (by simp [initial])
    ?_ hu
  intro es s e t hs htr ht
  by_cases hu : s.thread u = .overflow
  · exact List.mem_append_left _ (hs hu)
  · cases tr_iff.mp htr with
    | @create v arg q hf h hq =>
      by_cases huv : u = v
      · subst v
        simp at ht
      · exact (hu (by simpa [Function.update_of_ne huv] using ht)).elim
    | @wait v w arg i semaphores hf h hv hwait =>
      by_cases huv : u = v
      · subst v
        simp at ht
      · exact (hu (by simpa [Function.update_of_ne huv] using ht)).elim
    | @print v arg i j hf h hj =>
      by_cases huv : u = v
      · subst v
        simp at ht
      · exact (hu (by simpa [Function.update_of_ne huv] using ht)).elim
    | @overflow v arg i hf h hj =>
      by_cases huv : u = v
      · subst v
        simp
      · exact (hu (by simpa [Function.update_of_ne huv] using ht)).elim
    | _ => exact (hu ht).elim

/-- In a fair execution of either program each thread prints every number up to `INT_MAX`, and
then its counter overflows. -/
theorem eventually_printed (hf : (system accepts p).Fair Event.actor E)
    (h : (system accepts p).Valid E) (h0 : E.state 0 = initial) (u : Task) :
    (∀ n, 1 ≤ n → n < 2 ^ 31 → ∃ k, .print u (Int32.ofNat n) ∈ LTS.history E k) ∧
      ∃ k, .overflow u ∈ LTS.history E k := by
  have hrun : ∀ n, (system accepts p).MTr initial (LTS.history E n) (E.state n) :=
    fun n => h0 ▸ h.mTr n
  constructor
  · intro n hn hn'
    obtain ⟨k, hk⟩ := reached hf h h0 u n
    refine ⟨k, mem_printedBy ?_⟩
    have hle : n ≤ (E.state k).counter u := by
      rcases hk with hk | hk
      · exact hk
      · rw [State.counter, hk]
        exact Nat.le_of_lt_succ hn'
    rw [counted_run (hrun k) u, upTo]
    refine List.mem_map.mpr ⟨n - 1, List.mem_range.mpr ?_, by rw [Nat.sub_add_cancel hn]⟩
    rw [State.counter] at hle
    omega
  · obtain ⟨k, hk | hk⟩ := reached hf h h0 u (2 ^ 31)
    · have hmax := ((E.state k).thread u).counter.toInt_le
      rw [Int32.toInt_maxValue] at hmax
      rw [State.counter] at hk
      omega
    · exact ⟨k, overflow_of_thread (hrun k) hk⟩

deriving instance Encodable for Task

deriving instance Encodable for Action

instance : Inhabited Action := ⟨.main⟩

theorem actor_of_map {α : Type} {f : α → Event × State} {o : Option α} {a : Action}
    (h : o.map f = some (e, t)) (hf : ∀ x, (f x).1.actor = a) : e.actor = a := by
  obtain ⟨x, -, hx⟩ := Option.map_eq_some_iff.mp h
  rw [← hf x, hx]

theorem actor_main (h : mainNext accepts p s = some (e, t)) : e.actor = .main := by
  simp only [mainNext] at h
  split at h
  · exact actor_of_map h fun _ => rfl
  · rw [← (Prod.mk.inj (Option.some.inj h)).1, Event.actor]
  · rw [← (Prod.mk.inj (Option.some.inj h)).1, Event.actor]
  · obtain ⟨-, heq⟩ := Option.ite_none_right_eq_some.mp h
    rw [← (Prod.mk.inj (Option.some.inj heq)).1, Event.actor]
  · rw [← (Prod.mk.inj (Option.some.inj h)).1, Event.actor]
  · exact actor_of_map h fun _ => rfl
  · simp at h

theorem actor_thread (h : threadNext u p s = some (e, t)) : e.actor = .thread u := by
  rw [threadNext_eq] at h
  simp only [waitingThread] at h
  split at h
  · split at h
    · exact actor_of_map h fun _ => rfl
    · rw [← (Prod.mk.inj (Option.some.inj h)).1, Event.actor]
  · split at h <;> rw [← (Prod.mk.inj (Option.some.inj h)).1, Event.actor]
  · simp at h
  · simp at h
  · simp at h

theorem actor_of_next {a : Action} (h : next accepts p a s = some (e, t)) : e.actor = a := by
  simp only [next] at h
  split at h
  · simp at h
  · cases a with
    | main => exact actor_main h
    | timer u => exact actor_of_map h fun _ => rfl
    | signal u => exact actor_of_map h fun _ => rfl
    | handler u => exact actor_of_map h fun _ => rfl
    | thread u => exact actor_thread h

/-- `ping_pong_pThread_withTimer.c` has fair executions. -/
theorem eventually_printed_scheduled : ∃ E : Execution State Event,
    (system (fun _ => false) .withTimer).Valid E ∧ E.state 0 = initial ∧
      ∃ k, .print .pong 7 ∈ LTS.history E k := by
  let E : Execution State Event :=
    LTS.scheduled (next (fun _ => false) .withTimer) LTS.everyActor initial
  have hvalid : (system (fun _ => false) .withTimer).Valid E := LTS.valid_scheduled _ _
  have hfair : (system (fun _ => false) .withTimer).Fair Event.actor E :=
    LTS.fair_scheduled _ (fun _ _ _ _ => actor_of_next) LTS.everyActor_recurs
  exact ⟨E, hvalid, rfl, (eventually_printed hfair hvalid rfl .pong).1 7 (by decide) (by decide)⟩

end LinuxTutorial.PingPong.WithTimer
