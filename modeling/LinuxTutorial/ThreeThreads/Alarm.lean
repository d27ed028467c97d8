import LinuxTutorial.Transition.Semaphore
import LinuxTutorial.Transition.Trace

/-!
# `chatGPT_3Threads_withAlarm.c`

Three calls of `alarm` are meant for three threads. `sem_init` has set the semaphores to zero,
and the threads never leave their loops, so the first join of `main` never returns.
-/

namespace LinuxTutorial.ThreeThreads.Alarm

open Transition

inductive Sem
  | semA
  | semB
  | semC
  deriving DecidableEq, Repr

/-- The number of the signal on Linux. -/
def sigalrm : ℕ := 14

/-- The semaphore that the handler posts. -/
def timerHandler (signum : ℕ) : Option Sem :=
  if signum = sigalrm then some .semA
  else if signum = sigalrm + 1 then some .semB
  else if signum = sigalrm + 2 then some .semC
  else none

/-- The calls of `main` in their order. -/
inductive MainPC
  | pthreadCreate (x : Sem)
  | signal
  | alarm (seconds : ℕ)
  | join
  deriving DecidableEq, Repr

def MainPC.next : MainPC → MainPC
  | .pthreadCreate .semA => .pthreadCreate .semB
  | .pthreadCreate .semB => .pthreadCreate .semC
  | .pthreadCreate .semC => .signal
  | .signal => .alarm 1
  | .alarm 1 => .alarm 2
  | .alarm 2 => .alarm 5
  | .alarm _ => .join
  | .join => .join

structure State where
  main : MainPC
  created : Sem → Bool
  alarm : Option ℕ
  signal : Bool
  sem : Sem → ℕ

def initial : State where
  main := .pthreadCreate .semA
  created _ := false
  alarm := none
  signal := false
  sem _ := 0

inductive Action
  | main
  | expire
  | deliver
  | thread (x : Sem)

/-- A delivery carries the semaphore that the handler posts. -/
inductive Event
  | main
  | expire
  | deliver (post : Option Sem)
  | semWait (x : Sem)
  deriving DecidableEq, Repr

def semPost (sem : Sem → ℕ) : Option Sem → Sem → ℕ
  | some x => Semaphore.post sem x
  | none => sem

/-- A call of `alarm` cancels the pending alarm. -/
def mainNext (s : State) : Option State :=
  let t := { s with main := s.main.next }
  match s.main with
  | .pthreadCreate x => some { t with created := Function.update s.created x true }
  | .signal => some t
  | .alarm seconds => some { t with alarm := some seconds }
  | .join => none

/-- Signals of one number do not queue. -/
def next (a : Action) (s : State) : Option (Event × State) :=
  match a with
  | .main => (mainNext s).map fun t => (.main, t)
  | .expire => s.alarm.map fun _ => (.expire, { s with alarm := none, signal := true })
  | .deliver =>
    if s.signal then
      some (.deliver (timerHandler sigalrm),
        { s with signal := false, sem := semPost s.sem (timerHandler sigalrm) })
    else none
  | .thread x =>
    if s.created x then
      (Semaphore.wait s.sem x).map fun sem => (.semWait x, { s with sem := sem })
    else none

/-- `main`, the alarm, its signal and the threads. -/
def system : LTS State Event := .ofNext next

/-- The steps of `main`, of the alarm and of the threads. -/
inductive Step : State → Event → State → Prop
  | pthreadCreate {s : State} {x : Sem} (h : s.main = .pthreadCreate x) :
      Step s .main
        { s with main := s.main.next, created := Function.update s.created x true }
  | signal {s : State} (h : s.main = .signal) : Step s .main { s with main := s.main.next }
  | alarm {s : State} {seconds : ℕ} (h : s.main = .alarm seconds) :
      Step s .main { s with main := s.main.next, alarm := some seconds }
  | expire {s : State} {n : ℕ} (h : s.alarm = some n) :
      Step s .expire { s with alarm := none, signal := true }
  | deliver {s : State} (h : s.signal = true) :
      Step s (.deliver (timerHandler sigalrm))
        { s with signal := false, sem := semPost s.sem (timerHandler sigalrm) }
  | semWait {s : State} {x : Sem} {sem : Sem → ℕ} (h : s.created x = true)
      (hwait : Semaphore.wait s.sem x = some sem) : Step s (.semWait x) { s with sem := sem }

variable {s t : State} {e : Event} {es : List Event} {x : Sem}

theorem step_main (h : mainNext s = some t) : Step s .main t := by
  cases hpc : s.main with
  | pthreadCreate x =>
    simp only [mainNext, hpc, Option.some.injEq] at h
    subst h
    simpa only [hpc] using Step.pthreadCreate hpc
  | signal =>
    simp only [mainNext, hpc, Option.some.injEq] at h
    subst h
    simpa only [hpc] using Step.signal hpc
  | alarm i =>
    simp only [mainNext, hpc, Option.some.injEq] at h
    subst h
    simpa only [hpc] using Step.alarm hpc
  | join => simp [mainNext, hpc] at h

theorem tr_iff : system.Tr s e t ↔ Step s e t := by
  constructor
  · rintro ⟨a, h⟩
    cases a with
    | main =>
      simp only [next, Option.map_eq_some_iff, Prod.mk.injEq] at h
      obtain ⟨u, hmain, rfl, rfl⟩ := h
      exact step_main hmain
    | expire =>
      simp only [next, Option.map_eq_some_iff, Prod.mk.injEq] at h
      obtain ⟨n, hn, rfl, rfl⟩ := h
      exact .expire hn
    | deliver =>
      simp only [next, Option.ite_none_right_eq_some, Option.some.injEq, Prod.mk.injEq] at h
      obtain ⟨hsignal, rfl, rfl⟩ := h
      exact .deliver hsignal
    | thread x =>
      simp only [next, Option.ite_none_right_eq_some, Option.map_eq_some_iff,
        Prod.mk.injEq] at h
      obtain ⟨hx, sem, hwait, rfl, rfl⟩ := h
      exact .semWait hx hwait
  · intro h
    cases h with
    | pthreadCreate h => exact ⟨.main, by simp [next, mainNext, h]⟩
    | signal h => exact ⟨.main, by simp [next, mainNext, h]⟩
    | alarm h => exact ⟨.main, by simp [next, mainNext, h]⟩
    | expire h => exact ⟨.expire, by simp [next, h]⟩
    | deliver h => exact ⟨.deliver, by simp [next, h]⟩
    | @semWait x sem h hwait => exact ⟨.thread x, by simp [next, h, hwait]⟩

def isPost (x : Sem) : Event → Bool
  | .deliver (some y) => y = x
  | _ => false

def isSemWait (x : Sem) : Event → Bool
  | .semWait y => y = x
  | _ => false

/-- A post is one permit for the thread of the semaphore. -/
theorem semWait_step (h : Step s e t) (x : Sem) :
    (isSemWait x e).toNat + t.sem x = s.sem x + (isPost x e).toNat := by
  cases h with
  | deliver h =>
    cases timerHandler sigalrm with
    | none => simp [isSemWait, isPost, semPost]
    | some y => simp [isSemWait, isPost, semPost, Semaphore.post_apply]
  | semWait h hwait => simpa [isSemWait, isPost] using Semaphore.wait_apply hwait x
  | _ => simp [isSemWait, isPost]

/-- The calls of `alarm` that `main` has ahead. -/
def MainPC.alarmsLeft : MainPC → ℕ
  | .pthreadCreate _ | .signal => 3
  | .alarm 1 => 3
  | .alarm 2 => 2
  | .alarm _ => 1
  | .join => 0

/-- The deliveries that can still come. -/
def ahead (s : State) : ℕ := s.main.alarmsLeft + s.alarm.isSome.toNat + s.signal.toNat

/-- A signal needs an alarm, and an alarm a call. -/
theorem ahead_step (h : Step s e t) : (isPost .semA e).toNat + ahead t ≤ ahead s + 0 := by
  cases h with
  | @pthreadCreate x h =>
    cases x <;> simp [isPost, ahead, MainPC.next, MainPC.alarmsLeft, h]
  | signal h => simp [isPost, ahead, MainPC.next, MainPC.alarmsLeft, h]
  | @alarm seconds h =>
    have hnext : s.main.next.alarmsLeft + 1 = s.main.alarmsLeft := by
      rw [h]
      rcases seconds with _ | _ | _ | n <;> rfl
    simp only [isPost, ahead, Option.isSome_some, Bool.toNat_true, Bool.toNat_false]
    omega
  | expire h =>
    simp only [isPost, ahead, h, Option.isSome_some, Option.isSome_none, Bool.toNat_true,
      Bool.toNat_false]
    omega
  | deliver h =>
    simp only [ahead, h, Bool.toNat_true, Bool.toNat_false]
    have hone : (isPost .semA (.deliver (timerHandler sigalrm))).toNat = 1 := rfl
    omega
  | semWait => exact le_of_eq (Nat.zero_add _)

theorem isPost_step (h : Step s e t) (hx : x ≠ .semA) : isPost x e = false := by
  cases h with
  | deliver h => simpa [isPost, timerHandler] using hx.symm
  | _ => rfl

theorem semWait_run (h : system.MTr initial es s) (x : Sem) :
    es.countP (isSemWait x) + s.sem x = es.countP (isPost x) := by
  have hcount := h.countP_add_eq (P := fun _ => True) (isSemWait x) (isPost x)
    (fun s => s.sem x) trivial (fun _ _ _ _ _ => trivial)
    (fun _ _ _ _ htr => semWait_step (tr_iff.mp htr) x)
  simpa [initial] using hcount

/-- The signal of an alarm is always `SIGALRM`. -/
theorem post_run (h : system.MTr initial es s) (hx : x ≠ .semA) : es.countP (isPost x) = 0 := by
  have hcount := h.countP_add_le (isPost x) (fun _ => false) (fun _ => 0) ?_
  · simpa using hcount
  · intro s e t htr
    rw [isPost_step (tr_iff.mp htr) hx]
    exact le_refl _

theorem post_semA_le (h : system.MTr initial es s) : es.countP (isPost .semA) ≤ 3 := by
  have hcount := h.countP_add_le (isPost .semA) (fun _ => false) ahead
    (fun _ _ _ htr => ahead_step (tr_iff.mp htr))
  have hinitial : ahead initial = 3 := rfl
  simp only [List.countP_false, Function.const_apply] at hcount
  omega

/-- The last alarm is not cancelled. -/
def LastAlarm (es : List Event) (s : State) : Prop :=
  s.main = .join → 1 ≤ es.countP (isPost .semA) + s.alarm.isSome.toNat + s.signal.toNat

theorem lastAlarm_step (h : Step s e t) (hs : LastAlarm es s) : LastAlarm (es ++ [e]) t := by
  have hpost : ∀ f : Event, (es ++ [f]).countP (isPost .semA) =
      es.countP (isPost .semA) + (isPost .semA f).toNat := by
    intro f
    cases hf : isPost .semA f <;> simp [hf]
  intro hjoin
  rw [hpost]
  cases h with
  | @pthreadCreate x h => cases x <;> simp [MainPC.next, h] at hjoin
  | signal h => simp [MainPC.next, h] at hjoin
  | alarm h =>
    simp only [Option.isSome_some, Bool.toNat_true]
    omega
  | expire h =>
    simp only [Bool.toNat_true]
    omega
  | deliver h =>
    have hone : (isPost .semA (.deliver (timerHandler sigalrm))).toNat = 1 := rfl
    omega
  | semWait h hwait =>
    have hlast := hs hjoin
    simp only [isPost, Bool.toNat_false]
    omega

theorem lastAlarm_run (h : system.MTr initial es s) : LastAlarm es s := by
  refine h.history ?_ ?_
  · intro hjoin
    simp [initial] at hjoin
  · intro es s e t hs htr
    exact lastAlarm_step (tr_iff.mp htr) hs

/-- `main` has made its calls of `alarm` and nothing is pending. -/
structure Done (s : State) : Prop where
  main : s.main = .join
  alarm : s.alarm = none
  signal : s.signal = false

/-- `main` makes its calls before the last alarm expires. -/
theorem run_to_done : ∃ es s, system.MTr initial es s ∧ Done s :=
  ⟨_, _, LTS.mTr_of_replay
    [.main, .main, .main, .main, .main, .main, .main, .expire, .deliver] rfl, rfl, rfl, rfl⟩

/-- Every alarm that is not cancelled releases thread A, and the other threads never run. -/
theorem only_semA_posted (h : system.MTr initial es s) :
    (∀ x, x ≠ .semA → es.countP (isPost x) = 0 ∧ es.countP (isSemWait x) = 0) ∧
    es.countP (isPost .semA) ≤ 3 ∧
    (Done s → 1 ≤ es.countP (isPost .semA) ∧ ¬ ∀ x, es.countP (isPost x) = 1) := by
  refine ⟨fun x hx => ?_, post_semA_le h, fun hd => ⟨?_, fun hall => ?_⟩⟩
  · have hpost := post_run h hx
    have hwait := semWait_run h x
    omega
  · have hlast := lastAlarm_run h hd.main
    rw [hd.alarm, hd.signal] at hlast
    exact hlast
  · have hpost := post_run h (show Sem.semB ≠ .semA by simp)
    have hone := hall .semB
    omega

theorem only_semA_posted_done :
    ∃ es s, system.MTr initial es s ∧ Done s ∧ ¬ ∀ x, es.countP (isPost x) = 1 := by
  obtain ⟨es, s, h, hd⟩ := run_to_done
  exact ⟨es, s, h, hd, ((only_semA_posted h).2.2 hd).2⟩

/-- `sem_B` is not posted in a run in which nothing is pending any more. -/
theorem not_posted_once : ¬ ∀ es s, system.MTr initial es s → Done s →
    ∀ x, es.countP (isPost x) = 1 := by
  intro hall
  obtain ⟨es, s, h, hd⟩ := run_to_done
  have hpost := post_run h (show Sem.semB ≠ .semA by simp)
  have hone := hall es s h hd .semB
  omega

end LinuxTutorial.ThreeThreads.Alarm
