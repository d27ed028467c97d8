import LinuxTutorial.ModeCycle
import LinuxTutorial.Transition.Reorder

/-!
# Iterations under way

What is common to the controllers when the single steps of their threads are put together to loop
iterations: `ascii_read_thread` is under way from `getchar` to its store, `state_machine_thread`
from the read of the mode to where its iteration takes effect.
-/

namespace LinuxTutorial.Iteration

open Transition

/-- The iteration of `ascii_read_thread` that has read its byte and not stored it, with the `char`
that the thread holds. -/
def PendingRead (accepts : Int8 → Prop) : Option Int8 → List Iteration → Prop
  | none, rs => rs = []
  | some c, rs => ∃ r, rs = [.asciiRead r] ∧ toChar (getchar r) = c ∧ accepts c

/-- The iteration of `state_machine_thread` that is under way. -/
def pendingMachine (started : Bool) : List Iteration := if started then [.stateMachine] else []

/-- The iterations `is` that have begun are those of the schedule `zs` and the ones under way, in
the order of each thread. -/
structure Arranged (accepts : Int8 → Prop) (held : Option Int8) (started : Bool)
    (zs rs is : List Iteration) : Prop where
  pending : PendingRead accepts held rs
  order : SameOrder thread (zs ++ (rs ++ pendingMachine started)) is

variable {accepts : Int8 → Prop} {held : Option Int8} {started : Bool} {c : Int8}
  {r : Option UInt8} {xs ys zs rs is : List Iteration} {a : Iteration}

theorem thread_pendingMachine (ha : a ∈ pendingMachine started) : a.thread = .stateMachine := by
  cases started <;> simp [pendingMachine] at ha
  rw [ha, thread]

theorem PendingRead.thread_eq (h : PendingRead accepts held rs) :
    ∀ a ∈ rs, a.thread = .asciiRead := by
  cases held with
  | none =>
    obtain rfl := h
    simp
  | some c =>
    obtain ⟨r, rfl, -⟩ := h
    simp [thread]

theorem arranged_nil : Arranged accepts none false [] [] [] := ⟨rfl, .refl []⟩

/-- `getchar` returns: the iteration goes before the one of `state_machine_thread`. -/
theorem Arranged.order_getchar (h : Arranged accepts none started zs rs is) (r : Option UInt8) :
    SameOrder thread (zs ++ .asciiRead r :: pendingMachine started) (is ++ [.asciiRead r]) := by
  obtain ⟨rfl, horder⟩ := h
  refine horder.snoc_before fun a ha => ?_
  rw [thread_pendingMachine ha]
  simp [thread]

/-- A byte that will be stored. -/
theorem Arranged.getchar (h : Arranged accepts none started zs rs is)
    (ha : accepts (toChar (getchar r))) :
    Arranged accepts (some (toChar (LinuxTutorial.getchar r))) started zs [.asciiRead r]
      (is ++ [.asciiRead r]) :=
  ⟨⟨r, rfl, rfl, ha⟩, h.order_getchar r⟩

/-- A byte that will not be stored makes a whole iteration. -/
theorem Arranged.ignored (h : Arranged accepts none started zs rs is) (r : Option UInt8) :
    Arranged accepts none started (zs ++ [.asciiRead r]) [] (is ++ [.asciiRead r]) :=
  ⟨rfl, by simpa using h.order_getchar r⟩

/-- The store of the byte completes its iteration. -/
theorem Arranged.keyStore (h : Arranged accepts (some c) started zs rs is) :
    ∃ r, toChar (LinuxTutorial.getchar r) = c ∧ accepts c ∧
      Arranged accepts none started (zs ++ [.asciiRead r]) [] is := by
  obtain ⟨⟨r, rfl, hc, ha⟩, horder⟩ := h
  exact ⟨r, hc, ha, rfl, by simpa using horder⟩

/-- An iteration of `timer_event_thread` may go before iterations of the other threads. -/
theorem Arranged.timerEvent (h : Arranged accepts held started (xs ++ ys) rs is)
    (hys : ∀ a ∈ ys, a.thread ≠ .timerEvent) :
    Arranged accepts held started (xs ++ .timerEvent :: ys) rs (is ++ [.timerEvent]) := by
  have hother : ∀ a ∈ ys ++ (rs ++ pendingMachine started), a.thread ≠ .timerEvent := by
    intro a ha
    rcases List.mem_append.mp ha with ha | ha
    · exact hys a ha
    · rcases List.mem_append.mp ha with ha | ha
      · simp [h.pending.thread_eq a ha]
      · simp [thread_pendingMachine ha]
  refine ⟨h.pending, ?_⟩
  rw [List.append_assoc, List.cons_append]
  refine SameOrder.snoc_before ?_ hother
  simpa using h.order

/-- `state_machine_thread` reads the mode. -/
theorem Arranged.machineLoad (h : Arranged accepts held false zs rs is) :
    Arranged accepts held true zs rs (is ++ [.stateMachine]) := by
  refine ⟨h.pending, ?_⟩
  have horder := h.order.append (.refl [Iteration.stateMachine])
  simpa [pendingMachine] using horder

/-- Its iteration takes effect, before a byte that is held is stored. -/
theorem Arranged.machineDone (h : Arranged accepts held true zs rs is) :
    Arranged accepts held false (zs ++ [.stateMachine]) rs is := by
  refine ⟨h.pending, SameOrder.trans ?_ h.order⟩
  simp only [pendingMachine, if_true, Bool.false_eq_true, if_false]
  rw [List.append_assoc, List.append_nil]
  refine (SameOrder.refl _).append (sameOrder_comm ?_)
  intro a ha b hb
  rw [h.pending.thread_eq b hb, List.mem_singleton.mp ha]
  simp [thread]

/-- With nothing under way the schedule has all iterations. -/
theorem Arranged.sameOrder (h : Arranged accepts none false zs rs is) : SameOrder thread zs is := by
  obtain ⟨rfl, horder⟩ := h
  simpa [pendingMachine] using horder

/-- A change that keeps the mode commutes with a loop body that goes by the mode, if it commutes
with each branch. -/
theorem comm_of_mode {Globals : Type*} {mode : Globals → StateDefine} {f : Globals → Globals}
    {known : Probe → Globals → Globals} {start : Globals → Globals} (body : Globals → Globals)
    (hknown : ∀ p g, mode g = p.mode → body g = known p g)
    (hstart : ∀ g, mode g = .unknow → body g = start g) (hmode : ∀ g, mode (f g) = mode g)
    (hcomm : ∀ p g, known p (f g) = f (known p g)) (hcomm' : ∀ g, start (f g) = f (start g))
    (g : Globals) : body (f g) = f (body g) := by
  by_cases hu : mode g = .unknow
  · rw [hstart g hu, hstart _ ((hmode g).trans hu), hcomm']
  · obtain ⟨p, hp⟩ := StateDefine.exists_probe hu
    rw [hknown p g hp.symm, hknown p _ ((hmode g).trans hp.symm), hcomm]

end LinuxTutorial.Iteration
