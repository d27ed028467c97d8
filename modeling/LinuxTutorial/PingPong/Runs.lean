import LinuxTutorial.PingPong.Threads

/-!
# The runs of the `ping_pong_pThread*` programs

The threads count as `ping_pong.c` does, the cells they return keep their values, and what `main`
has passed determines where the threads are.
-/

namespace LinuxTutorial.PingPong

open Transition Counting Memory

def Event.line? : Event → Option Line
  | .line l => some l
  | _ => none

/-- What has been printed. -/
def lines (es : List Event) : List Line := es.filterMap Event.line?

variable {s t : State} {e : Event} {es : List Event} {u w : Task} {p : ℕ}
  {program passed rest : List Call} {maxLoop bound : Int32} {c : Call} {ls ls' : List Line}
  {pc : ThreadPC}

@[simp] theorem lines_snoc (es : List Event) (e : Event) :
    lines (es ++ [e]) = lines es ++ e.line?.toList := by
  cases h : e.line? <;> simp [lines, h]

theorem mem_lines {l : Line} : l ∈ lines es ↔ .line l ∈ es := by
  simp only [lines, List.mem_filterMap]
  constructor
  · rintro ⟨e, he, hl⟩
    cases e <;> simp [Event.line?] at hl
    exact hl ▸ he
  · intro h
    exact ⟨_, h, rfl⟩

theorem counts_ofLoop (u w : Task) (e : LoopEvent) :
    counts w (Event.ofLoop u e).line?.toList = if u = w then e.value?.toList else [] := by
  cases e <;> by_cases h : u = w <;>
    simp [Event.ofLoop, Event.line?, Line.count?, LoopEvent.value?, h]

/-- The cell that a thread has allocated. -/
def ThreadPC.pointer? : ThreadPC → Option ℕ
  | .assign p | .loop p _ | .returned p => some p
  | _ => none

/-- The cell that a thread has stored its value in. -/
def ThreadPC.stored? : ThreadPC → Option ℕ
  | .loop p _ | .returned p => some p
  | _ => none

theorem ThreadPC.pointer_of_stored (h : pc.stored? = some p) : pc.pointer? = some p := by
  cases pc <;> simp_all [stored?, pointer?]

/-- Each thread has a cell of its own. -/
structure Owned (s : State) : Prop where
  allocated : ∀ u p, (s.thread u).pointer? = some p → s.heap.Allocated p
  separate : ∀ u w p, (s.thread u).pointer? = some p → (s.thread w).pointer? = some p → u = w
  value : ∀ u p, (s.thread u).stored? = some p → s.heap.load p = some u.value

theorem owned_initial (program : List Call) (maxLoop : Int32) :
    Owned (initial program maxLoop) := by
  constructor <;> simp [initial, ThreadPC.pointer?, ThreadPC.stored?]

/-- A step that leaves the heap alone and gives a thread no other cell. -/
theorem Owned.update (hs : Owned s) (hheap : t.heap = s.heap)
    (hthread : t.thread = Function.update s.thread u pc)
    (hpointer : ∀ p, pc.pointer? = some p → (s.thread u).pointer? = some p)
    (hstored : ∀ p, pc.stored? = some p → (s.thread u).stored? = some p) : Owned t := by
  have hp : ∀ w p, (t.thread w).pointer? = some p → (s.thread w).pointer? = some p := by
    intro w p hw
    rw [hthread] at hw
    by_cases hwu : w = u
    · subst hwu
      exact hpointer p (by simpa using hw)
    · simpa [hwu] using hw
  refine ⟨fun w p h => hheap ▸ hs.allocated w p (hp w p h),
    fun w v p hw hv => hs.separate w v p (hp w p hw) (hp v p hv), fun w p h => ?_⟩
  rw [hheap]
  apply hs.value
  rw [hthread] at h
  by_cases hwu : w = u
  · subst hwu
    exact hstored p (by simpa using h)
  · simpa [hwu] using h

theorem owned_malloc (hs : Owned s) : Owned { s with
    thread := Function.update s.thread u (.assign s.heap.malloc.1)
    heap := s.heap.malloc.2 } := by
  constructor
  · intro w p hw
    by_cases hwu : w = u
    · subst hwu
      simp only [Function.update_self, ThreadPC.pointer?, Option.some.injEq] at hw
      exact hw ▸ Heap.allocated_malloc
    · exact (hs.allocated w p (by simpa [hwu] using hw)).malloc
  · intro w v p hw hv
    -- The new cell is not the one of the other thread.
    by_cases hwu : w = u <;> by_cases hvu : v = u
    · exact hwu.trans hvu.symm
    · simp only [hwu, Function.update_self, ThreadPC.pointer?, Option.some.injEq] at hw
      have hp := hs.allocated v p (by simpa [hvu] using hv)
      exact (hp.ne_malloc hw.symm).elim
    · simp only [hvu, Function.update_self, ThreadPC.pointer?, Option.some.injEq] at hv
      have hp := hs.allocated w p (by simpa [hwu] using hw)
      exact (hp.ne_malloc hv.symm).elim
    · exact hs.separate w v p (by simpa [hwu] using hw) (by simpa [hvu] using hv)
  · intro w p hw
    by_cases hwu : w = u
    · simp [hwu, ThreadPC.stored?] at hw
    · have hw' : (s.thread w).stored? = some p := by simpa [hwu] using hw
      rw [Heap.load_malloc (hs.allocated w p (ThreadPC.pointer_of_stored hw'))]
      exact hs.value w p hw'

theorem owned_assign (hs : Owned s) (h : s.thread u = .assign p) : Owned { s with
    thread := Function.update s.thread u (.loop p (.test 1))
    heap := s.heap.store p u.value } := by
  have hu : (s.thread u).pointer? = some p := by rw [h]; rfl
  have hpointer : ∀ w q, (Function.update s.thread u (.loop p (.test 1)) w).pointer? = some q →
      (s.thread w).pointer? = some q := by
    intro w q hw
    by_cases hwu : w = u
    · subst hwu
      simp only [Function.update_self, ThreadPC.pointer?] at hw
      exact hu.trans hw
    · simpa [hwu] using hw
  refine ⟨fun w q hw => Heap.allocated_store.mpr (hs.allocated w q (hpointer w q hw)),
    fun w v q hw hv => hs.separate w v q (hpointer w q hw) (hpointer v q hv), fun w q hw => ?_⟩
  by_cases hwu : w = u
  · subst hwu
    simp only [Function.update_self, ThreadPC.stored?, Option.some.injEq] at hw
    exact hw ▸ Heap.load_store_self (hs.allocated w p hu)
  · have hw' : (s.thread w).stored? = some q := by simpa [hwu] using hw
    have hqp : q ≠ p := by
      rintro rfl
      exact hwu (hs.separate w u q (ThreadPC.pointer_of_stored hw') hu)
    exact (Heap.load_store_of_ne hqp).trans (hs.value w q hw')

theorem owned_step (h : Step s e t) (hs : Owned s) : Owned t := by
  cases h with
  | start hf h hc =>
    exact hs.update rfl rfl (by simp [ThreadPC.pointer?]) (by simp [ThreadPC.stored?])
  | callReturn | join | print | unassigned => exact ⟨hs.allocated, hs.separate, hs.value⟩
  | malloc hf h => exact owned_malloc hs
  | assign hf h => exact owned_assign hs h
  | loop hf h | finish hf h =>
    exact hs.update rfl rfl (by simp [h, ThreadPC.pointer?]) (by simp [h, ThreadPC.stored?])

def Call.printed? : Call → Option (Task × Int32)
  | .printReturn u => some (u, u.value)
  | _ => none

/-- Where the threads and the variables of `main` are when it has passed the given calls. -/
structure Passed (passed : List Call) (es : List Event) (s : State) : Prop where
  started : ∀ u, s.thread u = .absent ↔ ∀ c ∈ passed, c.starts u = false
  called : ∀ u, .callReturn u ∈ passed → ∃ p, s.thread u = .returned p
  joined : ∀ u, .join u ∈ passed → ∃ p, s.ret u = some p
  ret : ∀ u p, s.ret u = some p → .join u ∈ passed ∧ s.thread u = .returned p
  read : ∀ u, .printReturn u ∈ passed → .join u ∈ passed
  printed : returned (lines es) = passed.filterMap Call.printed?

/-- `main` starts each thread at most once. -/
def StartsOnce (program : List Call) : Prop :=
  ∀ u, program.countP (Call.starts u) ≤ 1

instance (program : List Call) : Decidable (StartsOnce program) :=
  inferInstanceAs (Decidable (∀ _, _))

theorem StartsOnce.not_started (hp : StartsOnce program) (h : program = passed ++ c :: rest)
    (hc : c.starts u = true) : ∀ d ∈ passed, d.starts u = false := by
  have hcount := hp u
  rw [h, List.countP_append, List.countP_cons_of_pos hc] at hcount
  have hzero : passed.countP (Call.starts u) = 0 := by omega
  simpa using hzero

theorem passed_initial : Passed [] [] (initial program maxLoop) := by
  constructor <;> simp [initial, lines]

/-- The calls that a thread has no step of its own in do not tell it from where it was. -/
theorem Passed.thread (hs : Passed passed es s) (hret : t.ret = s.ret)
    (hthread : t.thread = Function.update s.thread u pc) (habsent : s.thread u ≠ .absent)
    (hreturned : ∀ p, s.thread u ≠ .returned p) (hpc : pc ≠ .absent)
    (he : returned e.line?.toList = []) : Passed passed (es ++ [e]) t := by
  have hkept : ∀ w p, s.thread w = .returned p → t.thread w = .returned p := by
    intro w p hw
    have hwu : w ≠ u := by
      rintro rfl
      exact hreturned p hw
    rw [hthread, Function.update_of_ne hwu, hw]
  constructor
  · intro w
    rw [← hs.started w, hthread]
    by_cases hwu : w = u
    · subst hwu
      simp [hpc, habsent]
    · rw [Function.update_of_ne hwu]
  · intro w hw
    obtain ⟨p, hp⟩ := hs.called w hw
    exact ⟨p, hkept w p hp⟩
  · rw [hret]
    exact hs.joined
  · intro w p hw
    rw [hret] at hw
    exact ⟨(hs.ret w p hw).1, hkept w p (hs.ret w p hw).2⟩
  · exact hs.read
  · rw [lines_snoc, returned_append, he, List.append_nil]
    exact hs.printed

theorem Call.starts_iff : c.starts u = true ↔ c = .create u ∨ c = .call u := by
  cases c <;> simp [Call.starts]

theorem not_started_snoc (hc : c.starts w = false) :
    (∀ d ∈ passed ++ [c], d.starts w = false) ↔ ∀ d ∈ passed, d.starts w = false := by
  rw [List.forall_mem_append, List.forall_mem_singleton]
  exact and_iff_left hc

theorem Passed.start (hs : Passed passed es s) (habsent : s.thread u = .absent)
    (hc : c.starts u = true) : Passed (passed ++ [c]) (es ++ [.main]) { s with
      main := rest, thread := Function.update s.thread u .malloc } := by
  have hother : ∀ w p, s.thread w = .returned p →
      Function.update s.thread u .malloc w = .returned p := by
    intro w p hw
    have hwu : w ≠ u := by
      rintro rfl
      simp [habsent] at hw
    rw [Function.update_of_ne hwu, hw]
  have hmem : ∀ d, d.starts u = false → d ∈ passed ++ [c] → d ∈ passed := by
    intro d hd hdc
    rcases List.mem_append.mp hdc with h | h
    · exact h
    · rw [List.mem_singleton.mp h, hc] at hd
      simp at hd
  constructor
  · intro w
    by_cases hwu : w = u
    · subst hwu
      simp [hc]
    · have hcw : c.starts w = false := by
        rcases Call.starts_iff.mp hc with rfl | rfl <;> simp [Call.starts, Ne.symm hwu]
      simp only [Function.update_of_ne hwu, hs.started w, not_started_snoc hcw]
  · intro w hw
    obtain ⟨p, hp⟩ := hs.called w (hmem _ rfl hw)
    exact ⟨p, hother w p hp⟩
  · intro w hw
    exact hs.joined w (hmem _ rfl hw)
  · intro w p hw
    have hret := hs.ret w p hw
    exact ⟨List.mem_append_left _ hret.1, hother w p hret.2⟩
  · intro w hw
    exact List.mem_append_left _ (hs.read w (hmem _ rfl hw))
  · have hprinted : c.printed? = none := by
      rcases Call.starts_iff.mp hc with rfl | rfl <;> rfl
    simp [Event.line?, hprinted, hs.printed]

/-- `main` passes a call that starts nothing. -/
theorem Passed.snoc (hs : Passed passed es s) (hthread : t.thread = s.thread)
    (hc : ∀ w, c.starts w = false)
    (hcalled : ∀ w, c = .callReturn w → ∃ p, s.thread w = .returned p)
    (hjoined : ∀ w, .join w ∈ passed ++ [c] → ∃ p, t.ret w = some p)
    (hret : ∀ w p, t.ret w = some p → .join w ∈ passed ++ [c] ∧ s.thread w = .returned p)
    (hread : ∀ w, c = .printReturn w → .join w ∈ passed)
    (hprinted : returned e.line?.toList = c.printed?.toList) :
    Passed (passed ++ [c]) (es ++ [e]) t := by
  refine ⟨fun w => ?_, fun w hw => ?_, hjoined, fun w p hw => ?_, fun w hw => ?_, ?_⟩
  · rw [hthread, not_started_snoc (hc w)]
    exact hs.started w
  · rw [hthread]
    rcases List.mem_append.mp hw with h | h
    · exact hs.called w h
    · exact hcalled w (List.mem_singleton.mp h).symm
  · rw [hthread]
    exact hret w p hw
  · apply List.mem_append_left
    rcases List.mem_append.mp hw with h | h
    · exact hs.read w h
    · exact hread w (List.mem_singleton.mp h).symm
  · rw [lines_snoc, returned_append, hs.printed, hprinted, List.filterMap_append]
    cases h : c.printed? <;> simp [h]

/-- A call that leaves the variables of `main` alone. -/
theorem Passed.snoc_of_ret_eq (hs : Passed passed es s) (hthread : t.thread = s.thread)
    (hreteq : t.ret = s.ret) (hc : ∀ w, c.starts w = false) (hjoin : ∀ w, c ≠ .join w)
    (hcalled : ∀ w, c = .callReturn w → ∃ p, s.thread w = .returned p)
    (hread : ∀ w, c = .printReturn w → .join w ∈ passed)
    (hprinted : returned e.line?.toList = c.printed?.toList) :
    Passed (passed ++ [c]) (es ++ [e]) t := by
  refine hs.snoc hthread hc hcalled (fun w hw => ?_) (fun w p hw => ?_) hread hprinted
  · rw [hreteq]
    rcases List.mem_append.mp hw with h | h
    · exact hs.joined w h
    · exact (hjoin w (List.mem_singleton.mp h).symm).elim
  · rw [hreteq] at hw
    exact ⟨List.mem_append_left _ (hs.ret w p hw).1, (hs.ret w p hw).2⟩

theorem Passed.callReturn (hs : Passed passed es s) (hr : s.thread u = .returned p) :
    Passed (passed ++ [.callReturn u]) (es ++ [.main]) { s with main := rest } := by
  refine hs.snoc_of_ret_eq rfl rfl (fun _ => rfl) (by simp) (fun w hw => ?_) (by simp) rfl
  obtain rfl := Call.callReturn.inj hw
  exact ⟨p, hr⟩

theorem Passed.join (hs : Passed passed es s) (hr : s.thread u = .returned p) :
    Passed (passed ++ [.join u]) (es ++ [.main]) { s with
      main := rest, ret := Function.update s.ret u (some p) } := by
  refine hs.snoc rfl (fun _ => rfl) (by simp) (fun w hw => ?_) (fun w q hw => ?_) (by simp) rfl
  · by_cases hwu : w = u
    · exact ⟨p, by simp [hwu]⟩
    · obtain ⟨q, hq⟩ := hs.joined w (by simpa [hwu] using hw)
      exact ⟨q, by simpa [hwu] using hq⟩
  · by_cases hwu : w = u
    · subst hwu
      obtain rfl : p = q := by simpa using hw
      exact ⟨by simp, hr⟩
    · have hret := hs.ret w q (by simpa [hwu] using hw)
      exact ⟨List.mem_append_left _ hret.1, hret.2⟩

/-- A pointer that `main` can read leads to the value of its task. -/
theorem Passed.deref_eq (hs : Passed passed es s) (ho : Owned s) {v : Int32}
    (hv : s.deref u = some v) : .join u ∈ passed ∧ v = u.value := by
  obtain ⟨p, hp, hload⟩ := Option.bind_eq_some_iff.mp hv
  obtain ⟨hjoin, hthread⟩ := hs.ret u p hp
  have hvalue := ho.value u p (by rw [hthread]; rfl)
  exact ⟨hjoin, Option.some.inj (hload.symm.trans hvalue)⟩

/-- A pointer that `main` has joined for can be read. -/
theorem Passed.deref_of_join (hs : Passed passed es s) (ho : Owned s) (h : .join u ∈ passed) :
    s.deref u = some u.value := by
  obtain ⟨p, hp⟩ := hs.joined u h
  have hvalue := ho.value u p (by rw [(hs.ret u p hp).2]; rfl)
  rw [State.deref, hp]
  exact hvalue

theorem Passed.print (hs : Passed passed es s) (ho : Owned s) {v : Int32}
    (hv : s.deref u = some v) : Passed (passed ++ [.printReturn u])
      (es ++ [.line (.returns u v)]) { s with main := rest } := by
  obtain ⟨hjoin, rfl⟩ := hs.deref_eq ho hv
  refine hs.snoc_of_ret_eq rfl rfl (fun _ => rfl) (by simp) (by simp) (fun w hw => ?_) rfl
  obtain rfl := Call.printReturn.inj hw
  exact hjoin

/-- What `main` has passed, after each step. -/
theorem passed_step (hp : StartsOnce program) (h : Step s e t) (ho : Owned s)
    (hprogram : program = passed ++ s.main) (hs : Passed passed es s) :
    ∃ passed', program = passed' ++ t.main ∧ Passed passed' (es ++ [e]) t := by
  cases h with
  | start hf h hc =>
    rw [h] at hprogram
    have habsent := (hs.started _).mpr (hp.not_started hprogram hc)
    exact ⟨_, by rw [hprogram, List.append_cons], hs.start habsent hc⟩
  | callReturn hf h hr =>
    rw [h, List.append_cons] at hprogram
    exact ⟨_, hprogram, hs.callReturn hr⟩
  | join hf h hr =>
    rw [h, List.append_cons] at hprogram
    exact ⟨_, hprogram, hs.join hr⟩
  | print hf h hv =>
    rw [h, List.append_cons] at hprogram
    exact ⟨_, hprogram, hs.print ho hv⟩
  | unassigned hf h hv =>
    refine ⟨passed, hprogram, hs.started, hs.called, hs.joined, hs.ret, hs.read, ?_⟩
    simpa [Event.line?] using hs.printed
  | malloc hf h | assign hf h | finish hf h =>
    exact ⟨passed, hprogram, hs.thread rfl rfl (by simp [h]) (by simp [h]) (by simp) rfl⟩
  | @loop u p le pc pc' hf h hn =>
    refine ⟨passed, hprogram, hs.thread rfl rfl (by simp [h]) (by simp [h]) (by simp) ?_⟩
    cases le <;> rfl

/-- What a thread has printed and what its loop has still to print make up the sequential
loop. -/
def Counted (bound : Int32) (u : Task) (ls : List Line) : ThreadPC → Prop
  | .absent | .malloc | .assign _ => counts u ls = []
  | .loop _ pc => count bound 1 = (pc.rest bound).map (counts u ls ++ ·)
  | .returned _ => count bound 1 = some (counts u ls) ∧ .finished u ∈ ls

theorem Counted.mono (h : Counted bound u ls pc) (hcounts : counts u ls' = counts u ls)
    (hsub : ls ⊆ ls') : Counted bound u ls' pc := by
  cases pc <;> simp only [Counted, hcounts] at h ⊢
  case returned => exact ⟨h.1, hsub h.2⟩
  all_goals exact h

/-- A step that leaves the thread where it is. -/
theorem counted_frame (h : Counted bound u (lines es) (s.thread u))
    (hthread : t.thread u = s.thread u) (he : counts u e.line?.toList = []) :
    Counted bound u (lines (es ++ [e])) (t.thread u) := by
  rw [hthread]
  refine h.mono ?_ ?_
  · rw [lines_snoc, counts_append, he, List.append_nil]
  · rw [lines_snoc]
    exact List.subset_append_left _ _

theorem counted_update (h : ∀ w, Counted bound w (lines es) (s.thread w))
    (hthread : t.thread = Function.update s.thread u pc)
    (he : ∀ w, w ≠ u → counts w e.line?.toList = [])
    (hu : Counted bound u (lines (es ++ [e])) pc) (w : Task) :
    Counted bound w (lines (es ++ [e])) (t.thread w) := by
  by_cases hwu : w = u
  · rw [hwu, hthread, Function.update_self]
    exact hu
  · exact counted_frame (h w) (by rw [hthread, Function.update_of_ne hwu]) (he w hwu)

theorem counted_step (hp : StartsOnce program) (h : Step s e t)
    (hprogram : program = passed ++ s.main) (hpassed : Passed passed es s)
    (hs : ∀ w, Counted s.maxLoop w (lines es) (s.thread w)) (w : Task) :
    Counted t.maxLoop w (lines (es ++ [e])) (t.thread w) := by
  cases h with
  | @start c u rest hf h hc =>
    rw [h] at hprogram
    have habsent := (hpassed.started u).mpr (hp.not_started hprogram hc)
    have hu := hs u
    rw [habsent] at hu
    refine counted_update hs rfl (fun _ _ => rfl) ?_ w
    simpa [Counted, Event.line?] using hu
  | callReturn | join | print | unassigned => exact counted_frame (hs w) rfl rfl
  | @malloc u hf h =>
    have hu := hs u
    rw [h] at hu
    refine counted_update hs rfl (fun _ _ => rfl) ?_ w
    simpa [Counted, Event.line?] using hu
  | @assign u p hf h =>
    have hu : counts u (lines es) = [] := by simpa [Counted, h] using hs u
    refine counted_update hs rfl (fun _ _ => rfl) ?_ w
    simp [Counted, Event.line?, hu, LoopPC.rest]
  | @loop u p le pc pc' hf h hn =>
    have hu : count s.maxLoop 1 = (pc.rest s.maxLoop).map (counts u (lines es) ++ ·) := by
      simpa [Counted, h] using hs u
    refine counted_update hs rfl (fun v hv => ?_) ?_ w
    · rw [counts_ofLoop, if_neg (Ne.symm hv)]
    · simp only [Counted, lines_snoc, counts_append, counts_ofLoop, if_true]
      rw [hu, LoopPC.rest_next hn, Option.map_map]
      congr 1
      funext is
      simp
  | @finish u p hf h =>
    have hu : count s.maxLoop 1 = some (counts u (lines es)) := by
      simpa [Counted, h, LoopPC.rest] using hs u
    refine counted_update hs rfl (fun _ _ => rfl) ?_ w
    simp [Counted, Event.line?, Line.count?, hu]

/-- What holds along the runs of a program. -/
structure Invariant (program : List Call) (maxLoop : Int32) (es : List Event) (s : State) :
    Prop where
  owned : Owned s
  passed : ∃ passed, program = passed ++ s.main ∧ Passed passed es s
  counted : ∀ u, Counted s.maxLoop u (lines es) (s.thread u)
  maxLoop_eq : s.maxLoop = maxLoop

theorem invariant_step (hp : StartsOnce program) (h : Step s e t)
    (hs : Invariant program maxLoop es s) : Invariant program maxLoop (es ++ [e]) t := by
  obtain ⟨ho, ⟨passed, hprogram, hpassed⟩, hcounted, hmax⟩ := hs
  refine ⟨owned_step h ho, passed_step hp h ho hprogram hpassed,
    counted_step hp h hprogram hpassed hcounted, ?_⟩
  rw [← hmax]
  cases h <;> rfl

theorem invariant_run (hp : StartsOnce program)
    (h : system.MTr (initial program maxLoop) es s) : Invariant program maxLoop es s := by
  refine h.history ⟨owned_initial _ _, ⟨[], rfl, passed_initial⟩, fun _ => rfl, rfl⟩ ?_
  intro es s e t hs htr
  exact invariant_step hp (tr_iff.mp htr) hs

end LinuxTutorial.PingPong
