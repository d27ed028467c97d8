import LinuxTutorial.Transition.Trace
import Mathlib.Logic.Function.Basic

/-!
# `watchdog_timer.c`

`main` opens the watchdog and starts two threads that pat it. They never leave their loops, so
the first join of `main` never returns.
-/

namespace LinuxTutorial.Watchdog

open Transition

/-- Which calls of `main` succeed. -/
structure Outcomes where
  openDevice : Bool
  setTimeout : Bool
  createA : Bool
  createB : Bool
  deriving DecidableEq, Repr

/-- What `watchdog_fd` refers to. -/
inductive WatchdogFd
  | unopened
  | opened
  | closed
  deriving DecidableEq, Repr

/-- The calls of `main`: `close` and `exit` end its error paths. -/
inductive MainPC
  | openDevice
  | setTimeout
  | signal
  | createA
  | createB
  | join
  | close
  | exit
  deriving DecidableEq, Repr

inductive Thread
  | threadA
  | threadB
  deriving DecidableEq, Repr

/-- Where a thread is: not started, in its loop, or in the error path of `pat_watchdog`. -/
inductive ThreadPC
  | absent
  | loop
  | exit
  deriving DecidableEq, Repr

structure State where
  main : MainPC
  thread : Thread → ThreadPC
  watchdogFd : WatchdogFd
  ended : Bool

def initial : State where
  main := .openDevice
  thread _ := .absent
  watchdogFd := .unopened
  ended := false

inductive Action
  | main
  | thread (w : Thread) (ok : Bool)

inductive Event
  | main
  | keepalive (w : Thread) (fd : WatchdogFd)
  | perror (text : String)
  deriving DecidableEq, Repr

def mainNext (o : Outcomes) (s : State) : Option (Event × State) :=
  match s.main with
  | .openDevice =>
    if o.openDevice then some (.main, { s with main := .setTimeout, watchdogFd := .opened })
    else some (.perror "Failed to open watchdog device", { s with main := .exit })
  | .setTimeout =>
    if o.setTimeout then some (.main, { s with main := .signal })
    else some (.perror "Failed to set watchdog timeout", { s with main := .close })
  | .signal => some (.main, { s with main := .createA })
  | .createA =>
    if o.createA then
      some (.main, { s with main := .createB, thread := Function.update s.thread .threadA .loop })
    else some (.perror "Failed to create threads", { s with main := .close })
  | .createB =>
    if o.createB then
      some (.main, { s with main := .join, thread := Function.update s.thread .threadB .loop })
    else some (.perror "Failed to create threads", { s with main := .close })
  | .join => none
  | .close => some (.main, { s with main := .exit, watchdogFd := .closed })
  | .exit => some (.main, { s with ended := true })

/-- The loop bodies of `thread_A` and `thread_B`, with the result of the `ioctl` in
`pat_watchdog`. Its `perror` and its `exit` are one step. -/
def patWatchdog (w : Thread) (ok : Bool) (s : State) : Option (Event × State) :=
  match s.thread w with
  | .absent => none
  | .loop =>
    some (.keepalive w s.watchdogFd,
      { s with thread := Function.update s.thread w (if ok then .loop else .exit) })
  | .exit => some (.perror "Failed to reset watchdog", { s with ended := true })

def next (o : Outcomes) (a : Action) (s : State) : Option (Event × State) :=
  if s.ended then none
  else
    match a with
    | .main => mainNext o s
    | .thread w ok => patWatchdog w ok s

/-- `main` and the threads, for given outcomes of the calls of `main`. -/
def system (o : Outcomes) : LTS State Event := .ofNext (next o)

/-- The steps of a process that has not ended. -/
inductive Step (o : Outcomes) : State → Event → State → Prop
  | openDevice {s : State} (h : s.main = .openDevice) (ho : o.openDevice = true) :
      Step o s .main { s with main := .setTimeout, watchdogFd := .opened }
  | openFailed {s : State} (h : s.main = .openDevice) (ho : o.openDevice = false) :
      Step o s (.perror "Failed to open watchdog device") { s with main := .exit }
  | setTimeout {s : State} (h : s.main = .setTimeout) (ho : o.setTimeout = true) :
      Step o s .main { s with main := .signal }
  | setTimeoutFailed {s : State} (h : s.main = .setTimeout) (ho : o.setTimeout = false) :
      Step o s (.perror "Failed to set watchdog timeout") { s with main := .close }
  | signal {s : State} (h : s.main = .signal) : Step o s .main { s with main := .createA }
  | createA {s : State} (h : s.main = .createA) (ho : o.createA = true) :
      Step o s .main
        { s with main := .createB, thread := Function.update s.thread .threadA .loop }
  | createAFailed {s : State} (h : s.main = .createA) (ho : o.createA = false) :
      Step o s (.perror "Failed to create threads") { s with main := .close }
  | createB {s : State} (h : s.main = .createB) (ho : o.createB = true) :
      Step o s .main
        { s with main := .join, thread := Function.update s.thread .threadB .loop }
  | createBFailed {s : State} (h : s.main = .createB) (ho : o.createB = false) :
      Step o s (.perror "Failed to create threads") { s with main := .close }
  | close {s : State} (h : s.main = .close) :
      Step o s .main { s with main := .exit, watchdogFd := .closed }
  | exit {s : State} (h : s.main = .exit) : Step o s .main { s with ended := true }
  | keepalive {s : State} {w : Thread} (ok : Bool) (h : s.thread w = .loop) :
      Step o s (.keepalive w s.watchdogFd)
        { s with thread := Function.update s.thread w (if ok then .loop else .exit) }
  | threadExit {s : State} {w : Thread} (h : s.thread w = .exit) :
      Step o s (.perror "Failed to reset watchdog") { s with ended := true }

variable {o : Outcomes} {s t : State} {e : Event} {es : List Event} {w : Thread}

theorem step_main (h : mainNext o s = some (e, t)) : Step o s e t := by
  cases hpc : s.main with
  | openDevice =>
    cases ho : o.openDevice <;>
      simp only [mainNext, hpc, ho, Bool.false_eq_true, reduceIte, Option.some.injEq,
        Prod.mk.injEq] at h <;>
      obtain ⟨rfl, rfl⟩ := h
    · exact .openFailed hpc ho
    · exact .openDevice hpc ho
  | setTimeout =>
    cases ho : o.setTimeout <;>
      simp only [mainNext, hpc, ho, Bool.false_eq_true, reduceIte, Option.some.injEq,
        Prod.mk.injEq] at h <;>
      obtain ⟨rfl, rfl⟩ := h
    · exact .setTimeoutFailed hpc ho
    · exact .setTimeout hpc ho
  | signal =>
    simp only [mainNext, hpc, Option.some.injEq, Prod.mk.injEq] at h
    obtain ⟨rfl, rfl⟩ := h
    exact .signal hpc
  | createA =>
    cases ho : o.createA <;>
      simp only [mainNext, hpc, ho, Bool.false_eq_true, reduceIte, Option.some.injEq,
        Prod.mk.injEq] at h <;>
      obtain ⟨rfl, rfl⟩ := h
    · exact .createAFailed hpc ho
    · exact .createA hpc ho
  | createB =>
    cases ho : o.createB <;>
      simp only [mainNext, hpc, ho, Bool.false_eq_true, reduceIte, Option.some.injEq,
        Prod.mk.injEq] at h <;>
      obtain ⟨rfl, rfl⟩ := h
    · exact .createBFailed hpc ho
    · exact .createB hpc ho
  | join => simp [mainNext, hpc] at h
  | close =>
    simp only [mainNext, hpc, Option.some.injEq, Prod.mk.injEq] at h
    obtain ⟨rfl, rfl⟩ := h
    exact .close hpc
  | exit =>
    simp only [mainNext, hpc, Option.some.injEq, Prod.mk.injEq] at h
    obtain ⟨rfl, rfl⟩ := h
    simpa only [hpc] using Step.exit hpc

theorem step_thread {ok : Bool} (h : patWatchdog w ok s = some (e, t)) : Step o s e t := by
  cases hpc : s.thread w with
  | absent => simp [patWatchdog, hpc] at h
  | loop =>
    simp only [patWatchdog, hpc, Option.some.injEq, Prod.mk.injEq] at h
    obtain ⟨rfl, rfl⟩ := h
    exact .keepalive ok hpc
  | exit =>
    simp only [patWatchdog, hpc, Option.some.injEq, Prod.mk.injEq] at h
    obtain ⟨rfl, rfl⟩ := h
    exact .threadExit hpc

theorem tr_iff : (system o).Tr s e t ↔ s.ended = false ∧ Step o s e t := by
  constructor
  · rintro ⟨a, h⟩
    simp only [next, Option.ite_none_left_eq_some, Bool.not_eq_true] at h
    obtain ⟨hended, h⟩ := h
    refine ⟨hended, ?_⟩
    cases a with
    | main => exact step_main h
    | thread w ok => exact step_thread h
  · rintro ⟨hended, h⟩
    cases h with
    | openDevice h ho => exact ⟨.main, by simp [next, mainNext, hended, h, ho]⟩
    | openFailed h ho => exact ⟨.main, by simp [next, mainNext, hended, h, ho]⟩
    | setTimeout h ho => exact ⟨.main, by simp [next, mainNext, hended, h, ho]⟩
    | setTimeoutFailed h ho => exact ⟨.main, by simp [next, mainNext, hended, h, ho]⟩
    | signal h => exact ⟨.main, by simp [next, mainNext, hended, h]⟩
    | createA h ho => exact ⟨.main, by simp [next, mainNext, hended, h, ho]⟩
    | createAFailed h ho => exact ⟨.main, by simp [next, mainNext, hended, h, ho]⟩
    | createB h ho => exact ⟨.main, by simp [next, mainNext, hended, h, ho]⟩
    | createBFailed h ho => exact ⟨.main, by simp [next, mainNext, hended, h, ho]⟩
    | close h => exact ⟨.main, by simp [next, mainNext, hended, h]⟩
    | exit h => exact ⟨.main, by simp [next, mainNext, hended, h]⟩
    | @keepalive w ok h => exact ⟨.thread w ok, by simp [next, patWatchdog, hended, h]⟩
    | @threadExit w h => exact ⟨.thread w true, by simp [next, patWatchdog, hended, h]⟩

/-- The second thread cannot be started while the first one is running. -/
def Outcomes.Partial (o : Outcomes) : Prop :=
  o.openDevice = true ∧ o.setTimeout = true ∧ o.createA = true ∧ o.createB = false

/-- Where `main` can be, with the calls that succeeded on the way there. -/
inductive Position (o : Outcomes) : WatchdogFd → (Thread → ThreadPC) → MainPC → Prop
  | openDevice {thread : Thread → ThreadPC} (h : ∀ w, thread w = .absent) :
      Position o .unopened thread .openDevice
  | setTimeout {thread : Thread → ThreadPC} (h : ∀ w, thread w = .absent)
      (ho : o.openDevice = true) : Position o .opened thread .setTimeout
  | signal {thread : Thread → ThreadPC} (h : ∀ w, thread w = .absent)
      (ho : o.openDevice = true) (hs : o.setTimeout = true) : Position o .opened thread .signal
  | createA {thread : Thread → ThreadPC} (h : ∀ w, thread w = .absent)
      (ho : o.openDevice = true) (hs : o.setTimeout = true) : Position o .opened thread .createA
  | createB {thread : Thread → ThreadPC} (ho : o.openDevice = true) (hs : o.setTimeout = true)
      (ha : o.createA = true) : Position o .opened thread .createB
  | join {thread : Thread → ThreadPC} : Position o .opened thread .join
  | close {thread : Thread → ThreadPC} (h : ∀ w, thread w = .absent) :
      Position o .opened thread .close
  | exit {fd : WatchdogFd} {thread : Thread → ThreadPC} (h : ∀ w, thread w = .absent) :
      Position o fd thread .exit

/-- The descriptor is open wherever a thread runs. -/
theorem Position.opened {fd : WatchdogFd} {thread : Thread → ThreadPC} {pc : MainPC}
    (h : Position o fd thread pc) (hw : thread w ≠ .absent) : fd = .opened := by
  cases h with
  | openDevice h => exact (hw (h w)).elim
  | exit h => exact (hw (h w)).elim
  | setTimeout => rfl
  | signal => rfl
  | createA => rfl
  | createB => rfl
  | join => rfl
  | close => rfl

/-- Where a thread runs, the positions say nothing about the threads. -/
theorem Position.update {fd : WatchdogFd} {thread thread' : Thread → ThreadPC} {pc : MainPC}
    (h : Position o fd thread pc) (hw : thread w ≠ .absent) : Position o fd thread' pc := by
  cases h with
  | openDevice h => exact (hw (h w)).elim
  | setTimeout h => exact (hw (h w)).elim
  | signal h => exact (hw (h w)).elim
  | createA h => exact (hw (h w)).elim
  | createB ho hs ha => exact .createB ho hs ha
  | join => exact .join
  | close h => exact (hw (h w)).elim
  | exit h => exact (hw (h w)).elim

theorem position_step (h : Step o s e t) (ho : ¬ o.Partial)
    (hs : Position o s.watchdogFd s.thread s.main) :
    Position o t.watchdogFd t.thread t.main := by
  cases h with
  | @keepalive w ok h => exact hs.update (w := w) (by simp [h])
  | threadExit h => exact hs
  | exit h => exact hs
  | openDevice h hopen =>
    rw [h] at hs
    generalize s.watchdogFd = fd at hs
    cases hs with
    | openDevice habsent => exact .setTimeout habsent hopen
  | openFailed h hopen =>
    rw [h] at hs
    generalize s.watchdogFd = fd at hs ⊢
    cases hs with
    | openDevice habsent => exact .exit habsent
  | setTimeout h hset =>
    rw [h] at hs
    generalize s.watchdogFd = fd at hs ⊢
    cases hs with
    | setTimeout habsent hopen => exact .signal habsent hopen hset
  | setTimeoutFailed h hset =>
    rw [h] at hs
    generalize s.watchdogFd = fd at hs ⊢
    cases hs with
    | setTimeout habsent hopen => exact .close habsent
  | signal h =>
    rw [h] at hs
    generalize s.watchdogFd = fd at hs ⊢
    cases hs with
    | signal habsent hopen hset => exact .createA habsent hopen hset
  | createA h hcreate =>
    rw [h] at hs
    generalize s.watchdogFd = fd at hs ⊢
    cases hs with
    | createA habsent hopen hset => exact .createB hopen hset hcreate
  | createAFailed h hcreate =>
    rw [h] at hs
    generalize s.watchdogFd = fd at hs ⊢
    cases hs with
    | createA habsent hopen hset => exact .close habsent
  | createB h hcreate =>
    rw [h] at hs
    generalize s.watchdogFd = fd at hs ⊢
    cases hs with
    | createB => exact .join
  | createBFailed h hcreate =>
    rw [h] at hs
    generalize s.watchdogFd = fd at hs ⊢
    cases hs with
    | createB hopen hset hA => exact (ho ⟨hopen, hset, hA, hcreate⟩).elim
  | close h =>
    rw [h] at hs
    generalize s.watchdogFd = fd at hs
    cases hs with
    | close habsent => exact .exit habsent

/-- No `KEEPALIVE` was issued before the descriptor was open or after it was closed. -/
def OnlyOpened (es : List Event) : Prop := ∀ w fd, .keepalive w fd ∈ es → fd = .opened

theorem onlyOpened_step (h : Step o s e t) (hes : OnlyOpened es)
    (hs : Position o s.watchdogFd s.thread s.main) : OnlyOpened (es ++ [e]) := by
  intro w fd hmem
  rcases List.mem_append.mp hmem with hmem | hmem
  · exact hes w fd hmem
  · obtain rfl := List.mem_singleton.mp hmem
    cases h with
    | keepalive ok h => exact hs.opened (w := w) (by simp [h])

theorem onlyOpened_run (ho : ¬ o.Partial) (h : (system o).MTr initial es s) : OnlyOpened es := by
  suffices hall : OnlyOpened es ∧ Position o s.watchdogFd s.thread s.main from hall.1
  refine h.history
    (P := fun es s => OnlyOpened es ∧ Position o s.watchdogFd s.thread s.main) ?_ ?_
  · refine ⟨fun w fd hmem => ?_, .openDevice fun _ => rfl⟩
    simp at hmem
  · rintro es s e t ⟨hes, hs⟩ htr
    have hstep := (tr_iff.mp htr).2
    exact ⟨onlyOpened_step hstep hes hs, position_step hstep ho hs⟩

/-- Thread A pats the watchdog after `main` has closed it on its way out. -/
theorem closed_of_partial (ho : o.Partial) :
    ∃ es s, (system o).MTr initial es s ∧ .keepalive .threadA .closed ∈ es := by
  obtain ⟨hopen, hset, hA, hB⟩ := ho
  obtain ⟨a, b, c, d⟩ := o
  simp only at hopen hset hA hB
  subst hopen hset hA hB
  exact ⟨[.main, .main, .main, .main, .perror "Failed to create threads", .main,
      .keepalive .threadA .closed], _,
    LTS.mTr_of_replay
      [.main, .main, .main, .main, .main, .main, .thread .threadA true] rfl, by simp⟩

/-- `KEEPALIVE` is only issued on an open watchdog, unless thread A is started and thread B is
not. -/
theorem onlyOpened_iff (o : Outcomes) :
    (∀ es s, (system o).MTr initial es s → OnlyOpened es) ↔ ¬ o.Partial := by
  constructor
  · intro hall ho
    obtain ⟨es, s, h, hmem⟩ := closed_of_partial ho
    exact absurd (hall es s h .threadA .closed hmem) (by simp)
  · intro ho es s h
    exact onlyOpened_run ho h

/-- The second `pthread_create` fails. -/
theorem not_onlyOpened : ¬ ∀ o es s, (system o).MTr initial es s → OnlyOpened es := by
  intro hall
  obtain ⟨es, s, h, hmem⟩ := closed_of_partial (o := ⟨true, true, true, false⟩) ⟨rfl, rfl, rfl, rfl⟩
  exact absurd (hall _ es s h .threadA .closed hmem) (by simp)

end LinuxTutorial.Watchdog
