import LinuxTutorial.Memory.Heap
import LinuxTutorial.PingPong.Sequential
import LinuxTutorial.Transition.Trace

/-!
# `ping_thread` and `pong_thread`

The two functions of the `ping_pong_pThread*` programs, one access to memory or loop step at a
time, under a `main` that creates, calls and joins them. They return pointers to cells that they
have allocated.
-/

namespace LinuxTutorial.PingPong

open Transition Counting Memory

/-- Where a thread is. `p` is its `ping_return` or `pong_return`. -/
inductive ThreadPC
  | absent
  | malloc
  | assign (p : ℕ)
  | loop (p : ℕ) (pc : LoopPC)
  | returned (p : ℕ)
  deriving DecidableEq, Repr

/-- The statements of a `main`, in order. A direct call is over at its `callReturn`, which drops
the value. -/
inductive Call
  | create (t : Task)
  | call (t : Task)
  | callReturn (t : Task)
  | join (t : Task)
  | printReturn (t : Task)
  deriving DecidableEq, Repr

/-- `main` is what `main` has still to do, `ret` holds its variables `ping_return` and
`pong_return`, `maxLoop` is the variable that the threads read through `max_count`. `fault` ends
the run: `main` has read an `int32_t` through a pointer without a value. -/
structure State where
  main : List Call
  fault : Bool
  thread : Task → ThreadPC
  heap : Heap Int32
  ret : Task → Option ℕ
  maxLoop : Int32

def initial (program : List Call) (maxLoop : Int32) : State where
  main := program
  fault := false
  thread _ := .absent
  heap := .empty
  ret _ := none
  maxLoop := maxLoop

inductive Event
  | main
  | silent (t : Task)
  | line (l : Line)
  | overflow (t : Task)
  | unassigned (t : Task)
  deriving DecidableEq, Repr

def Event.ofLoop (t : Task) : LoopEvent → Event
  | .test | .increment => .silent t
  | .body i => .line (.count t i)
  | .overflow => .overflow t

/-- The text of `ping_thread` and `pong_thread`. -/
def countThread (t : Task) (value maxCount : Int32) (heap : Heap Int32) :
    ThreadPC → Option (Event × ThreadPC × Heap Int32)
  | .absent => none
  | .malloc => some (.silent t, .assign heap.malloc.1, heap.malloc.2)
  | .assign p => some (.silent t, .loop p (.test 1), heap.store p value)
  | .loop p .done => some (.line (.finished t), .returned p, heap)
  | .loop p pc => (pc.next maxCount).map fun r => (.ofLoop t r.1, .loop p r.2, heap)
  | .returned _ => none

def pingThread (maxCount : Int32) (heap : Heap Int32) (pc : ThreadPC) :
    Option (Event × ThreadPC × Heap Int32) :=
  countThread .ping 5 maxCount heap pc

def pongThread (maxCount : Int32) (heap : Heap Int32) (pc : ThreadPC) :
    Option (Event × ThreadPC × Heap Int32) :=
  countThread .pong 10 maxCount heap pc

def threadNext (t : Task) (s : State) : Option (Event × State) :=
  let step :=
    match t with
    | .ping => pingThread s.maxLoop s.heap (s.thread t)
    | .pong => pongThread s.maxLoop s.heap (s.thread t)
  step.map fun r =>
    (r.1, { s with thread := Function.update s.thread t r.2.1, heap := r.2.2 })

/-- What `main` reads through its pointer for a task. -/
def State.deref (s : State) (t : Task) : Option Int32 := (s.ret t).bind s.heap.load

def mainNext (s : State) : Option (Event × State) :=
  match s.main with
  | [] => none
  | .create t :: rest | .call t :: rest =>
    some (.main, { s with main := rest, thread := Function.update s.thread t .malloc })
  | .callReturn t :: rest =>
    match s.thread t with
    | .returned _ => some (.main, { s with main := rest })
    | _ => none
  | .join t :: rest =>
    match s.thread t with
    | .returned p =>
      some (.main, { s with main := rest, ret := Function.update s.ret t (some p) })
    | _ => none
  | .printReturn t :: rest =>
    match s.deref t with
    | some v => some (.line (.returns t v), { s with main := rest })
    | none => some (.unassigned t, { s with fault := true })

inductive Worker
  | main
  | thread (t : Task)
  deriving DecidableEq, Repr

def next (w : Worker) (s : State) : Option (Event × State) :=
  if s.fault then none
  else
    match w with
    | .main => mainNext s
    | .thread t => threadNext t s

/-- `main` and the functions it starts. -/
def system : LTS State Event := .ofNext next

/-- The value that a task returns. -/
def Task.value : Task → Int32
  | .ping => 5
  | .pong => 10

def Call.starts (t : Task) : Call → Bool
  | .create u | .call u => u = t
  | _ => false

inductive Step : State → Event → State → Prop
  | start {s : State} {c : Call} {t : Task} {rest : List Call} (hf : s.fault = false)
      (h : s.main = c :: rest) (hc : c.starts t = true) :
      Step s .main { s with main := rest, thread := Function.update s.thread t .malloc }
  | callReturn {s : State} {t : Task} {p : ℕ} {rest : List Call} (hf : s.fault = false)
      (h : s.main = .callReturn t :: rest) (hr : s.thread t = .returned p) :
      Step s .main { s with main := rest }
  | join {s : State} {t : Task} {p : ℕ} {rest : List Call} (hf : s.fault = false)
      (h : s.main = .join t :: rest) (hr : s.thread t = .returned p) :
      Step s .main { s with main := rest, ret := Function.update s.ret t (some p) }
  | print {s : State} {t : Task} {v : Int32} {rest : List Call} (hf : s.fault = false)
      (h : s.main = .printReturn t :: rest) (hv : s.deref t = some v) :
      Step s (.line (.returns t v)) { s with main := rest }
  | unassigned {s : State} {t : Task} {rest : List Call} (hf : s.fault = false)
      (h : s.main = .printReturn t :: rest) (hv : s.deref t = none) :
      Step s (.unassigned t) { s with fault := true }
  | malloc {s : State} {t : Task} (hf : s.fault = false) (h : s.thread t = .malloc) :
      Step s (.silent t)
        { s with
          thread := Function.update s.thread t (.assign s.heap.malloc.1)
          heap := s.heap.malloc.2 }
  | assign {s : State} {t : Task} {p : ℕ} (hf : s.fault = false) (h : s.thread t = .assign p) :
      Step s (.silent t)
        { s with
          thread := Function.update s.thread t (.loop p (.test 1))
          heap := s.heap.store p t.value }
  | loop {s : State} {t : Task} {p : ℕ} {e : LoopEvent} {pc pc' : LoopPC} (hf : s.fault = false)
      (h : s.thread t = .loop p pc) (hn : pc.next s.maxLoop = some (e, pc')) :
      Step s (.ofLoop t e) { s with thread := Function.update s.thread t (.loop p pc') }
  | finish {s : State} {t : Task} {p : ℕ} (hf : s.fault = false)
      (h : s.thread t = .loop p .done) :
      Step s (.line (.finished t)) { s with thread := Function.update s.thread t (.returned p) }

variable {s t : State} {e : Event} {es : List Event} {u : Task} {p : ℕ}
  {program : List Call} {maxLoop : Int32}

/-- Both threads run the same text, each with its own value. -/
theorem threadNext_eq (u : Task) (s : State) : threadNext u s =
    (countThread u u.value s.maxLoop s.heap (s.thread u)).map fun r =>
      (r.1, { s with thread := Function.update s.thread u r.2.1, heap := r.2.2 }) := by
  cases u <;> rfl

theorem countThread_loop {pc : LoopPC} {value : Int32} {heap : Heap Int32} (h : pc ≠ .done) :
    countThread u value maxLoop heap (.loop p pc) =
      (pc.next maxLoop).map fun r => (.ofLoop u r.1, .loop p r.2, heap) := by
  cases pc with
  | done => exact (h rfl).elim
  | _ => rfl

theorem step_thread (hf : s.fault = false) (h : threadNext u s = some (e, t)) : Step s e t := by
  rw [threadNext_eq] at h
  obtain ⟨r, hr, heq⟩ := Option.map_eq_some_iff.mp h
  obtain ⟨rfl, rfl⟩ := Prod.mk.inj heq
  cases hpc : s.thread u with
  | absent => simp [countThread, hpc] at hr
  | malloc =>
    obtain rfl := Option.some.inj (hpc ▸ hr)
    exact .malloc hf hpc
  | assign p =>
    obtain rfl := Option.some.inj (hpc ▸ hr)
    exact .assign hf hpc
  | returned p => simp [countThread, hpc] at hr
  | loop p pc =>
    by_cases hdone : pc = .done
    · subst hdone
      obtain rfl := Option.some.inj (hpc ▸ hr)
      exact .finish hf hpc
    · rw [hpc, countThread_loop hdone] at hr
      obtain ⟨⟨le, pc'⟩, hn, rfl⟩ := Option.map_eq_some_iff.mp hr
      exact .loop hf hpc hn

theorem step_main (hf : s.fault = false) (h : mainNext s = some (e, t)) : Step s e t := by
  cases hm : s.main with
  | nil => simp [mainNext, hm] at h
  | cons c rest =>
    cases c with
    | create u =>
      simp only [mainNext, hm, Option.some.injEq, Prod.mk.injEq] at h
      obtain ⟨rfl, rfl⟩ := h
      exact .start hf hm (by simp [Call.starts])
    | call u =>
      simp only [mainNext, hm, Option.some.injEq, Prod.mk.injEq] at h
      obtain ⟨rfl, rfl⟩ := h
      exact .start hf hm (by simp [Call.starts])
    | callReturn u =>
      simp only [mainNext, hm] at h
      split at h
      · obtain ⟨rfl, rfl⟩ := Prod.mk.inj (Option.some.inj h)
        exact .callReturn hf hm ‹_›
      · simp at h
    | join u =>
      simp only [mainNext, hm] at h
      split at h
      · obtain ⟨rfl, rfl⟩ := Prod.mk.inj (Option.some.inj h)
        exact .join hf hm ‹_›
      · simp at h
    | printReturn u =>
      simp only [mainNext, hm] at h
      split at h <;> obtain ⟨rfl, rfl⟩ := Prod.mk.inj (Option.some.inj h)
      · exact .print hf hm ‹_›
      · simpa only [hm] using Step.unassigned hf hm ‹_›

theorem next_thread (hf : s.fault = false) {pc : ThreadPC} {heap : Heap Int32}
    (h : countThread u u.value s.maxLoop s.heap (s.thread u) = some (e, pc, heap)) :
    next (.thread u) s =
      some (e, { s with thread := Function.update s.thread u pc, heap := heap }) := by
  simp [next, hf, threadNext_eq, h]

theorem tr_iff : system.Tr s e t ↔ Step s e t := by
  constructor
  · rintro ⟨w, h⟩
    simp only [next] at h
    split at h
    · simp at h
    · have hf : s.fault = false := by simpa using ‹¬ s.fault = true›
      cases w with
      | main => exact step_main hf h
      | thread u => exact step_thread hf h
  · intro h
    cases h with
    | @start c u rest hf h hc =>
      refine ⟨.main, ?_⟩
      cases c <;> simp [Call.starts] at hc <;> subst hc <;> simp [next, mainNext, hf, h]
    | callReturn hf h hr => exact ⟨.main, by simp [next, mainNext, hf, h, hr]⟩
    | join hf h hr => exact ⟨.main, by simp [next, mainNext, hf, h, hr]⟩
    | print hf h hv => exact ⟨.main, by simp [next, mainNext, hf, h, hv]⟩
    | unassigned hf h hv => exact ⟨.main, by simp [next, mainNext, hf, h, hv]⟩
    | @malloc u hf h => exact ⟨.thread u, next_thread hf (by rw [h]; rfl)⟩
    | @assign u p hf h => exact ⟨.thread u, next_thread hf (by rw [h]; rfl)⟩
    | @loop u p le pc pc' hf h hn =>
      refine ⟨.thread u, next_thread hf ?_⟩
      rw [h, countThread_loop (LoopPC.ne_done_of_next hn), hn]
      rfl
    | @finish u p hf h => exact ⟨.thread u, next_thread hf (by rw [h]; rfl)⟩

end LinuxTutorial.PingPong
