import LinuxTutorial.Counting.Loop
import LinuxTutorial.PingPong.Sequential
import LinuxTutorial.Posix.Timer
import LinuxTutorial.Transition.Semaphore
import LinuxTutorial.Transition.Trace

/-!
# `ping_pong_pThread_withTimer.c` and `ping_pong_pThread_withTimer_semArg.c`

Two periodic timers start handlers, the handlers post the semaphores of two threads, and each
thread counts its permits. In the second program the threads get their semaphores as arguments.
`sem_init` has set the semaphores to zero, and the calls of `main` succeed, except that
`pthread_attr_setschedparam` may reject a priority. `sem_post` never meets `SEM_VALUE_MAX`, and
`sigev_notify_attributes`, which `main` leaves unset, is taken as `NULL`.
-/

namespace LinuxTutorial.PingPong.WithTimer

open Transition Posix

inductive Program
  | withTimer
  | semArg
  deriving DecidableEq, Repr

/-- The argument of a thread: `NULL`, or the address of a semaphore. -/
abbrev Arg := Option Task

inductive Call
  | attrInit (t : Task)
  | getschedparam (t : Task)
  | setPriority (q : Int32)
  | setschedparam (t : Task)
  | create (t : Task) (arg : Arg)
  | timerCreate (t : Task)
  | settime (t : Task)
  | join (t : Task)
  | semDestroy (t : Task)
  | attrDestroy (t : Task)
  deriving DecidableEq, Repr

def Program.arg : Program → Task → Arg
  | .withTimer, _ => none
  | .semArg, t => some t

/-- The calls that set up `ping_attr` and `pong_attr`. The second `pthread_attr_init` resets what
the second program has set. -/
def Program.attributes : Program → List Call
  | .withTimer => [.attrInit .ping, .attrInit .pong]
  | .semArg =>
    [.attrInit .ping, .getschedparam .ping, .setPriority 10, .setschedparam .ping, .attrInit .ping,
      .attrInit .pong, .getschedparam .pong, .setPriority 20, .setschedparam .pong, .attrInit .pong]

def Program.main (p : Program) : List Call :=
  p.attributes ++
    [.create .ping (p.arg .ping), .create .pong (p.arg .pong), .timerCreate .ping,
      .timerCreate .pong, .settime .ping, .settime .pong, .join .ping, .join .pong,
      .semDestroy .ping, .semDestroy .pong, .attrDestroy .ping, .attrDestroy .pong]

/-- `ping_ts` and `pong_ts`. -/
def its : Task → Itimerspec
  | .ping => { valueSec := 1, valueNsec := 0, intervalSec := 1, intervalNsec := 0 }
  | .pong => { valueSec := 2, valueNsec := 0, intervalSec := 2, intervalNsec := 0 }

/-- The priorities in `param` and in the attributes of the threads. -/
structure Attrs where
  param : Option Int32
  priority : Task → Option Int32

/-- The calls on the attributes. The default priority is zero, and a priority that the scheduling
policy does not accept is not set. -/
def Attrs.apply (accepts : Int32 → Bool) (a : Attrs) : Call → Option Attrs
  | .attrInit t => some { a with priority := Function.update a.priority t (some 0) }
  | .getschedparam t => (a.priority t).map fun q => { a with param := some q }
  | .setPriority q => some { a with param := some q }
  | .setschedparam t =>
    match a.param, a.priority t with
    | some q, some r =>
      some { a with priority := Function.update a.priority t (some (if accepts q then q else r)) }
    | _, _ => none
  | .attrDestroy t => some { a with priority := Function.update a.priority t none }
  | _ => none

/-- Where a thread is: not created, at `sem_wait`, at `printf`, past an overflow of its counter
`i`, or finished. -/
inductive ThreadPC
  | absent
  | wait (arg : Arg) (i : Int32)
  | print (arg : Arg) (i : Int32)
  | overflow
  | exited
  deriving DecidableEq, Repr

/-- `main` is the number of calls that `main` has made, and `handlers` counts the notifications
that have not posted yet. `fault` ends the run: a thread has waited for a semaphore at `NULL`. -/
structure State where
  main : ℕ
  attrs : Attrs
  thread : Task → ThreadPC
  timer : Task → TimerSignal Unit
  handlers : Task → ℕ
  semaphores : Task → ℕ
  destroyed : Task → Bool
  fault : Bool

def initial : State where
  main := 0
  attrs := { param := none, priority := fun _ => none }
  thread _ := .absent
  timer _ := { timer := .absent, queued := false }
  handlers _ := 0
  semaphores _ := 0
  destroyed _ := false
  fault := false

inductive Event
  | attr
  | create (t : Task) (priority : Int32)
  | main
  | expire (t : Task) (queued : Bool)
  | notify (t : Task)
  | post (t : Task)
  | wait (t u : Task)
  | print (t : Task) (i : Int32)
  | overflow (t : Task)
  | segv (t : Task)
  deriving DecidableEq, Repr

/-- The text of `ping_timer_handler` and `pong_timer_handler`. -/
def timerHandler (t : Task) (semaphores : Task → ℕ) : Task → ℕ := Semaphore.post semaphores t

def pingTimerHandler : (Task → ℕ) → Task → ℕ := timerHandler .ping

def pongTimerHandler : (Task → ℕ) → Task → ℕ := timerHandler .pong

/-- `sigev_notify_function`. -/
def notifyFunction : Task → (Task → ℕ) → Task → ℕ
  | .ping => pingTimerHandler
  | .pong => pongTimerHandler

/-- The semaphore that a thread waits for, if it is not `NULL`. -/
def Program.semaphore : Program → Task → Arg → Option Task
  | .withTimer, t, _ => some t
  | .semArg, _, arg => arg

/-- The text of `ping_thread` and `pong_thread`. -/
def waitingThread (t : Task) (p : Program) (s : State) : Option (Event × State) :=
  match s.thread t with
  | .wait arg i =>
    match p.semaphore t arg with
    | some u =>
      (Semaphore.wait s.semaphores u).map fun semaphores =>
        (.wait t u,
          { s with
            thread := Function.update s.thread t (.print arg i), semaphores := semaphores })
    | none => some (.segv t, { s with fault := true })
  | .print arg i =>
    match Counting.increment i with
    | some j => some (.print t j, { s with thread := Function.update s.thread t (.wait arg j) })
    | none => some (.overflow t, { s with thread := Function.update s.thread t .overflow })
  | .absent | .overflow | .exited => none

def pingThread : Program → State → Option (Event × State) := waitingThread .ping

def pongThread : Program → State → Option (Event × State) := waitingThread .pong

def threadNext : Task → Program → State → Option (Event × State)
  | .ping => pingThread
  | .pong => pongThread

def mainNext (accepts : Int32 → Bool) (p : Program) (s : State) : Option (Event × State) :=
  let t := { s with main := s.main + 1 }
  match p.main[s.main]? with
  | some (.create u arg) =>
    (s.attrs.priority u).map fun q =>
      (.create u q, { t with thread := Function.update s.thread u (.wait arg 0) })
  | some (.timerCreate u) =>
    some (.main,
      { t with timer := Function.update s.timer u { timer := .disarmed (), queued := false } })
  | some (.settime u) =>
    some (.main,
      { t with
        timer := Function.update s.timer u
          { s.timer u with timer := (s.timer u).timer.settime (its u) } })
  | some (.join u) => if s.thread u = .exited then some (.main, t) else none
  | some (.semDestroy u) =>
    some (.main, { t with destroyed := Function.update s.destroyed u true })
  | some c => (s.attrs.apply accepts c).map fun attrs => (.attr, { t with attrs := attrs })
  | none => none

/-- `main`, the clocks, the signals of the timers, the notifications and the threads. -/
inductive Action
  | main
  | timer (t : Task)
  | signal (t : Task)
  | handler (t : Task)
  | thread (t : Task)
  deriving DecidableEq, Repr

def next (accepts : Int32 → Bool) (p : Program) (a : Action) (s : State) :
    Option (Event × State) :=
  if s.fault then none
  else
    match a with
    | .main => mainNext accepts p s
    | .timer t =>
      (s.timer t).expire.map fun r =>
        (.expire t r.1, { s with timer := Function.update s.timer t r.2 })
    | .signal t =>
      (s.timer t).deliver.map fun r =>
        (.notify t,
          { s with
            timer := Function.update s.timer t r
            handlers := Function.update s.handlers t (s.handlers t + 1) })
    | .handler t =>
      (Semaphore.wait s.handlers t).map fun handlers =>
        (.post t, { s with handlers := handlers, semaphores := notifyFunction t s.semaphores })
    | .thread t => threadNext t p s

/-- A program where the scheduling policy accepts some priorities. -/
def system (accepts : Int32 → Bool) (p : Program) : LTS State Event := .ofNext (next accepts p)

/-- The steps of a program without a fault. -/
inductive Step (accepts : Int32 → Bool) (p : Program) : State → Event → State → Prop
  | attr {s : State} {c : Call} {attrs : Attrs} (hf : s.fault = false)
      (h : p.main[s.main]? = some c) (ha : s.attrs.apply accepts c = some attrs) :
      Step accepts p s .attr { s with main := s.main + 1, attrs := attrs }
  | create {s : State} {u : Task} {arg : Arg} {q : Int32} (hf : s.fault = false)
      (h : p.main[s.main]? = some (.create u arg)) (hq : s.attrs.priority u = some q) :
      Step accepts p s (.create u q)
        { s with
          main := s.main + 1, thread := Function.update s.thread u (.wait arg 0) }
  | timerCreate {s : State} {u : Task} (hf : s.fault = false)
      (h : p.main[s.main]? = some (.timerCreate u)) :
      Step accepts p s .main
        { s with
          main := s.main + 1
          timer := Function.update s.timer u { timer := .disarmed (), queued := false } }
  | settime {s : State} {u : Task} (hf : s.fault = false)
      (h : p.main[s.main]? = some (.settime u)) :
      Step accepts p s .main
        { s with
          main := s.main + 1
          timer := Function.update s.timer u
            { s.timer u with timer := (s.timer u).timer.settime (its u) } }
  | join {s : State} {u : Task} (hf : s.fault = false) (h : p.main[s.main]? = some (.join u))
      (hu : s.thread u = .exited) : Step accepts p s .main { s with main := s.main + 1 }
  | semDestroy {s : State} {u : Task} (hf : s.fault = false)
      (h : p.main[s.main]? = some (.semDestroy u)) :
      Step accepts p s .main
        { s with main := s.main + 1, destroyed := Function.update s.destroyed u true }
  | expire {s : State} {u : Task} {b : Bool} {tm : TimerSignal Unit} (hf : s.fault = false)
      (h : (s.timer u).expire = some (b, tm)) :
      Step accepts p s (.expire u b) { s with timer := Function.update s.timer u tm }
  | notify {s : State} {u : Task} {tm : TimerSignal Unit} (hf : s.fault = false)
      (h : (s.timer u).deliver = some tm) :
      Step accepts p s (.notify u)
        { s with
          timer := Function.update s.timer u tm
          handlers := Function.update s.handlers u (s.handlers u + 1) }
  | post {s : State} {u : Task} {handlers : Task → ℕ} (hf : s.fault = false)
      (h : Semaphore.wait s.handlers u = some handlers) :
      Step accepts p s (.post u)
        { s with handlers := handlers, semaphores := timerHandler u s.semaphores }
  | wait {s : State} {u v : Task} {arg : Arg} {i : Int32} {semaphores : Task → ℕ}
      (hf : s.fault = false) (h : s.thread u = .wait arg i) (hv : p.semaphore u arg = some v)
      (hwait : Semaphore.wait s.semaphores v = some semaphores) :
      Step accepts p s (.wait u v)
        { s with
          thread := Function.update s.thread u (.print arg i), semaphores := semaphores }
  | segv {s : State} {u : Task} {arg : Arg} {i : Int32} (hf : s.fault = false)
      (h : s.thread u = .wait arg i) (hv : p.semaphore u arg = none) :
      Step accepts p s (.segv u) { s with fault := true }
  | print {s : State} {u : Task} {arg : Arg} {i j : Int32} (hf : s.fault = false)
      (h : s.thread u = .print arg i) (hj : Counting.increment i = some j) :
      Step accepts p s (.print u j)
        { s with thread := Function.update s.thread u (.wait arg j) }
  | overflow {s : State} {u : Task} {arg : Arg} {i : Int32} (hf : s.fault = false)
      (h : s.thread u = .print arg i) (hj : Counting.increment i = none) :
      Step accepts p s (.overflow u) { s with thread := Function.update s.thread u .overflow }

variable {accepts : Int32 → Bool} {p : Program} {s t : State} {e : Event} {es : List Event}
  {u v : Task} {k : ℕ}

/-- Both threads run the same text. -/
theorem threadNext_eq (u : Task) : threadNext u = waitingThread u := by
  cases u <;> rfl

theorem notifyFunction_eq (u : Task) : notifyFunction u = timerHandler u := by
  cases u <;> rfl

theorem step_thread (hf : s.fault = false) (h : threadNext u p s = some (e, t)) :
    Step accepts p s e t := by
  rw [threadNext_eq] at h
  cases hpc : s.thread u with
  | wait arg i =>
    cases hv : p.semaphore u arg with
    | some v =>
      simp only [waitingThread, hpc, hv, Option.map_eq_some_iff, Prod.mk.injEq] at h
      obtain ⟨semaphores, hwait, rfl, rfl⟩ := h
      exact .wait hf hpc hv hwait
    | none =>
      simp only [waitingThread, hpc, hv, Option.some.injEq, Prod.mk.injEq] at h
      obtain ⟨rfl, rfl⟩ := h
      simpa only [hpc] using Step.segv hf hpc hv
  | print arg i =>
    cases hj : Counting.increment i with
    | some j =>
      simp only [waitingThread, hpc, hj, Option.some.injEq, Prod.mk.injEq] at h
      obtain ⟨rfl, rfl⟩ := h
      exact .print hf hpc hj
    | none =>
      simp only [waitingThread, hpc, hj, Option.some.injEq, Prod.mk.injEq] at h
      obtain ⟨rfl, rfl⟩ := h
      exact .overflow hf hpc hj
  | absent => simp [waitingThread, hpc] at h
  | overflow => simp [waitingThread, hpc] at h
  | exited => simp [waitingThread, hpc] at h

theorem step_main (hf : s.fault = false) (h : mainNext accepts p s = some (e, t)) :
    Step accepts p s e t := by
  simp only [mainNext] at h
  split at h
  · obtain ⟨q, hq, heq⟩ := Option.map_eq_some_iff.mp h
    obtain ⟨rfl, rfl⟩ := Prod.mk.inj heq
    exact .create hf ‹_› hq
  · obtain ⟨rfl, rfl⟩ := Prod.mk.inj (Option.some.inj h)
    exact .timerCreate hf ‹_›
  · obtain ⟨rfl, rfl⟩ := Prod.mk.inj (Option.some.inj h)
    exact .settime hf ‹_›
  · obtain ⟨hu, heq⟩ := Option.ite_none_right_eq_some.mp h
    obtain ⟨rfl, rfl⟩ := Prod.mk.inj (Option.some.inj heq)
    exact .join hf ‹_› hu
  · obtain ⟨rfl, rfl⟩ := Prod.mk.inj (Option.some.inj h)
    exact .semDestroy hf ‹_›
  · obtain ⟨attrs, ha, heq⟩ := Option.map_eq_some_iff.mp h
    obtain ⟨rfl, rfl⟩ := Prod.mk.inj heq
    exact .attr hf ‹_› ha
  · simp at h

/-- A call that has an effect on the attributes has no other one. -/
theorem mainNext_attr {c : Call} {attrs : Attrs} (h : p.main[s.main]? = some c)
    (ha : s.attrs.apply accepts c = some attrs) :
    mainNext accepts p s = some (.attr, { s with main := s.main + 1, attrs := attrs }) := by
  cases c with
  | create u arg => simp [Attrs.apply] at ha
  | timerCreate u => simp [Attrs.apply] at ha
  | settime u => simp [Attrs.apply] at ha
  | join u => simp [Attrs.apply] at ha
  | semDestroy u => simp [Attrs.apply] at ha
  | _ => simp only [mainNext, h, ha, Option.map_some]

theorem tr_iff : (system accepts p).Tr s e t ↔ Step accepts p s e t := by
  constructor
  · rintro ⟨a, h⟩
    simp only [next] at h
    split at h
    · simp at h
    · have hf : s.fault = false := by simpa using ‹¬ s.fault = true›
      cases a with
      | main => exact step_main hf h
      | timer u =>
        obtain ⟨⟨b, tm⟩, hexpire, heq⟩ := Option.map_eq_some_iff.mp h
        obtain ⟨rfl, rfl⟩ := Prod.mk.inj heq
        exact .expire hf hexpire
      | signal u =>
        obtain ⟨tm, hdeliver, heq⟩ := Option.map_eq_some_iff.mp h
        obtain ⟨rfl, rfl⟩ := Prod.mk.inj heq
        exact .notify hf hdeliver
      | handler u =>
        obtain ⟨handlers, hwait, heq⟩ := Option.map_eq_some_iff.mp h
        obtain ⟨rfl, rfl⟩ := Prod.mk.inj heq
        rw [notifyFunction_eq]
        exact .post hf hwait
      | thread u => exact step_thread hf h
  · intro h
    cases h with
    | attr hf h ha => exact ⟨.main, by simp [next, hf, mainNext_attr h ha]⟩
    | create hf h hq => exact ⟨.main, by simp [next, mainNext, hf, h, hq]⟩
    | timerCreate hf h => exact ⟨.main, by simp [next, mainNext, hf, h]⟩
    | settime hf h => exact ⟨.main, by simp [next, mainNext, hf, h]⟩
    | join hf h hu => exact ⟨.main, by simp [next, mainNext, hf, h, hu]⟩
    | semDestroy hf h => exact ⟨.main, by simp [next, mainNext, hf, h]⟩
    | @expire u b tm hf h => exact ⟨.timer u, by simp [next, hf, h]⟩
    | @notify u tm hf h => exact ⟨.signal u, by simp [next, hf, h]⟩
    | @post u handlers hf h => exact ⟨.handler u, by simp [next, hf, h, notifyFunction_eq]⟩
    | @wait u v arg i semaphores hf h hv hwait =>
      exact ⟨.thread u, by simp [next, threadNext_eq, waitingThread, hf, h, hv, hwait]⟩
    | @segv u arg i hf h hv =>
      exact ⟨.thread u, by simp [next, threadNext_eq, waitingThread, hf, h, hv]⟩
    | @print u arg i j hf h hj =>
      exact ⟨.thread u, by simp [next, threadNext_eq, waitingThread, hf, h, hj]⟩
    | @overflow u arg i hf h hj =>
      exact ⟨.thread u, by simp [next, threadNext_eq, waitingThread, hf, h, hj]⟩

end LinuxTutorial.PingPong.WithTimer
