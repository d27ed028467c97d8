import LinuxTutorial.Controller.Reference
import LinuxTutorial.TimerController.Sampling
import Mathlib.Tactic.Ring

/-!
# What the older controller computes

The purpose of `StateMc_pThread_Timer.c` without its globals: the last byte read is a key that
stays down. Each state machine iteration of a known mode turns the position by it, each timer
iteration of a known mode reads the probe there, and all readings share one numbering.
-/

namespace LinuxTutorial.TimerController

open Transition
open LinuxTutorial.Controller (probeAt nextState_forward nextState_back)

/-- How far a held key turns the position. -/
def turn : Option KeyEvent → ℤ
  | none => 0
  | some .left => -1
  | some .right => 1

/-- The abstract controller: the position once a mode is known, what `getchar` returned last,
and the probes read so far. -/
structure Reference where
  position : Option ℤ := none
  last : Option (Option UInt8) := none
  readings : List Probe := []

def Reference.step (r : Reference) : Iteration → Reference
  | .asciiRead b => { r with last := some b }
  | .timerEvent =>
    match r.position with
    | none => { r with position := some (-1) }
    | some n => { r with readings := r.readings ++ [probeAt n] }
  | .stateMachine =>
    match r.position with
    | none => { r with position := some 0 }
    | some n => { r with position := some (n + turn (r.last.bind keyByte)) }

def reference (xs : List Iteration) : Reference := xs.foldl Reference.step {}

def Reference.mode (r : Reference) : StateDefine :=
  match r.position with
  | none => .unknow
  | some n => (probeAt n).mode

/-- The readings with their values: the `n`-th one, of whatever probe, is at `n` in its table. -/
def Reference.samples (r : Reference) : List Sample :=
  r.readings.mapIdx fun n p => ⟨p, entry (table p) (UInt32.ofNat n)⟩

/-- The variable that the readings of a probe are assigned to. -/
def Globals.value (g : Globals) : Probe → Int32
  | .cond => g.conductivity
  | .ph => g.phValue
  | .mv => g.miliVoltValue

/-- The last value of a probe, zero before the first one. -/
def lastValue (p : Probe) (xs : List Sample) : Int32 :=
  (xs.filterMap (Sample.at? p)).getLast?.getD 0

/-- The concrete globals show the abstract controller. -/
structure Refines (g : Globals) (r : Reference) : Prop where
  running : g.ESCPressed = 0
  mode : g.state = r.mode
  key : g.keyPressed = (r.last.map fun b => toChar (getchar b)).getD 0
  counter : g.i = UInt32.ofNat r.readings.length
  values : ∀ p, g.value p = lastValue p r.samples

variable {g : Globals} {r : Reference} {p : Probe} {n : ℤ}

theorem keyEvent_last (b : Option (Option UInt8)) :
    keyEvent ((b.map fun b => toChar (getchar b)).getD 0) = b.bind keyByte := by
  cases b with
  | none => exact keyEvent_zero
  | some b => exact keyEvent_toChar_getchar b

/-- The nine arrows of the source turn the position by the key. -/
theorem nextState_turn (n : ℤ) (c : Int8) :
    LinuxTutorial.nextState (probeAt n) (switchKey c) =
      (probeAt (n + turn (keyEvent c))).mode := by
  cases hk : keyEvent c with
  | none => simp [switchKey_eq_stayPut.mpr hk, turn]
  | some k =>
    rw [switchKey_of_keyEvent hk]
    cases k with
    | left => exact nextState_back n
    | right => exact nextState_forward n

/-- In the mode of a probe `timer_event_thread` reads that probe and no other. -/
theorem timerEventThread_probe (hesc : g.ESCPressed = 0) (hm : g.state = p.mode) :
    (timerEventThread g).1 = some ⟨p, entry (table p) g.i⟩ ∧
      (timerEventThread g).2.i = g.i + 1 ∧
      (timerEventThread g).2.value = Function.update g.value p (entry (table p) g.i) := by
  cases p <;> simp only [Probe.mode] at hm <;> simp only [timerEventThread, hesc, hm] <;>
    refine ⟨rfl, rfl, ?_⟩ <;> funext q <;> cases q <;> rfl

theorem samples_snoc (h : r.position = some n) :
    (r.step .timerEvent).samples =
      r.samples ++ [⟨probeAt n, entry (table (probeAt n)) (UInt32.ofNat r.readings.length)⟩] := by
  simp [Reference.step, Reference.samples, h, List.mapIdx_append]

theorem lastValue_snoc (xs : List Sample) (p q : Probe) (v : Int32) :
    lastValue q (xs ++ [⟨p, v⟩]) = Function.update (fun q => lastValue q xs) p v q := by
  by_cases h : p = q
  · subst h
    simp [lastValue, Sample.at?]
  · simp [lastValue, Sample.at?, h, Function.update_of_ne (Ne.symm h)]

theorem refines_initial : Refines initial {} where
  running := rfl
  mode := rfl
  key := rfl
  counter := rfl
  values := by
    intro p
    cases p <;> rfl

/-- A byte is stored, whatever it is. -/
theorem refines_asciiRead (h : Refines g r) (b : Option UInt8) :
    Refines (asciiReadThread b g) (r.step (.asciiRead b)) := by
  refine ⟨h.running, h.mode, rfl, h.counter, ?_⟩
  intro p
  have hvalue := h.values p
  cases p <;> exact hvalue

/-- The timer starts the controller in front of COND, or takes the next reading. -/
theorem refines_timerEvent (h : Refines g r) :
    Refines (timerEventThread g).2 (r.step .timerEvent) := by
  have hm := h.mode
  cases hp : r.position with
  | none =>
    simp only [Reference.mode, hp] at hm
    have hstep : (timerEventThread g).2 = { g with state := .mv } := by
      simp [timerEventThread, hm, h.running]
    have hnext : r.step .timerEvent = { r with position := some (-1) } := by
      simp [Reference.step, hp]
    rw [hstep, hnext]
    refine ⟨h.running, rfl, h.key, h.counter, ?_⟩
    intro p
    have hvalue := h.values p
    cases p <;> exact hvalue
  | some n =>
    simp only [Reference.mode, hp] at hm
    have hnext : r.step .timerEvent = { r with readings := r.readings ++ [probeAt n] } := by
      simp [Reference.step, hp]
    obtain ⟨-, hi, hvalue⟩ := timerEventThread_probe h.running hm
    have hsame : (timerEventThread g).2.state = g.state := timerEventThread_known (by simp [hm])
    have hesc := step_ESCPressed .timerEvent g
    refine ⟨hesc.trans h.running, ?_, ?_, ?_, ?_⟩
    · rw [hsame, hm, hnext]
      simp [Reference.mode, hp]
    · rw [timerEventThread_key, hnext]
      exact h.key
    · rw [hi, h.counter, hnext]
      simp
    · intro q
      rw [hvalue, samples_snoc hp, lastValue_snoc, h.counter]
      congr 1
      funext q
      exact h.values q

/-- The state machine turns the position by the held key, or starts the controller at COND. -/
theorem refines_stateMachine (h : Refines g r) :
    Refines (stateMachineThread g) (r.step .stateMachine) := by
  have hm := h.mode
  have hkeep : ∀ (m : StateDefine) p, ({ g with state := m } : Globals).value p = g.value p := by
    intro m p
    cases p <;> rfl
  cases hp : r.position with
  | none =>
    simp only [Reference.mode, hp] at hm
    have hnext : r.step .stateMachine = { r with position := some 0 } := by
      simp [Reference.step, hp]
    rw [stateMachineThread_unknow hm, hnext]
    exact ⟨h.running, rfl, h.key, h.counter, fun p => (hkeep _ p).trans (h.values p)⟩
  | some n =>
    simp only [Reference.mode, hp] at hm
    have hnext : r.step .stateMachine =
        { r with position := some (n + turn (r.last.bind keyByte)) } := by
      simp [Reference.step, hp]
    have hturn : LinuxTutorial.nextState (probeAt n) (switchKey g.keyPressed) =
        (probeAt (n + turn (r.last.bind keyByte))).mode := by
      rw [nextState_turn, h.key, keyEvent_last]
    rw [stateMachineThread_probe hm, hturn, hnext]
    exact ⟨h.running, rfl, h.key, h.counter, fun p => (hkeep _ p).trans (h.values p)⟩

theorem refines_step (h : Refines g r) (a : Iteration) :
    Refines (controller.step a g).2 (r.step a) := by
  cases a with
  | asciiRead b => exact refines_asciiRead h b
  | timerEvent => exact refines_timerEvent h
  | stateMachine => exact refines_stateMachine h

/-- What an iteration emits is what it adds to the samples. -/
theorem samples_step (h : Refines g r) (a : Iteration) :
    (r.step a).samples = r.samples ++ (controller.step a g).1.toList := by
  have hm := h.mode
  cases hp : r.position with
  | none =>
    simp only [Reference.mode, hp] at hm
    cases a <;> simp [Reference.step, Reference.samples, hp, controller, timerEventThread, hm,
      h.running]
  | some n =>
    simp only [Reference.mode, hp] at hm
    cases a with
    | asciiRead b => simp [Reference.step, Reference.samples, controller]
    | timerEvent =>
      obtain ⟨hout, -⟩ := timerEventThread_probe h.running hm
      change _ = r.samples ++ (timerEventThread g).1.toList
      rw [samples_snoc hp, hout, h.counter]
      rfl
    | stateMachine => simp [Reference.step, Reference.samples, hp, controller]

theorem reference_snoc (xs : List Iteration) (a : Iteration) :
    reference (xs ++ [a]) = (reference xs).step a := by
  simp [reference, List.foldl_append]

theorem refines_run (xs : List Iteration) :
    Refines (controller.run initial xs) (reference xs) ∧
      controller.outputs initial xs = (reference xs).samples := by
  induction xs using List.reverseRecOn with
  | nil => exact ⟨refines_initial, rfl⟩
  | append_singleton xs a ih =>
    obtain ⟨hrun, hout⟩ := ih
    rw [Transducer.run_snoc, Transducer.outputs_append, reference_snoc, hout]
    refine ⟨refines_step hrun a, ?_⟩
    rw [samples_step hrun a]
    simp

/-- Until the next byte is read every state machine iteration makes the same turn. -/
theorem position_held {xs ys : List Iteration} (hpos : (reference xs).position = some n)
    (hys : ∀ r, .asciiRead r ∉ ys) :
    (reference (xs ++ ys)).last = (reference xs).last ∧
      (reference (xs ++ ys)).position =
        some (n + ys.count .stateMachine * turn ((reference xs).last.bind keyByte)) := by
  induction ys using List.reverseRecOn with
  | nil => simp [hpos]
  | append_singleton ys a ih =>
    obtain ⟨hlast, hsome⟩ := ih fun r hr => hys r (List.mem_append_left _ hr)
    rw [← List.append_assoc, reference_snoc]
    cases a with
    | asciiRead r => exact (hys r (by simp)).elim
    | timerEvent => simp [Reference.step, hsome, hlast]
    | stateMachine =>
      have hcount : (ys ++ [Iteration.stateMachine]).count .stateMachine =
          ys.count .stateMachine + 1 := by simp
      simp only [Reference.step, hsome, hlast, hcount, Nat.cast_add, Nat.cast_one, true_and,
        Option.some.injEq]
      ring

/-- Mode, key, samples and values after every schedule of whole iterations, and what a key does
until the next byte is read. -/
theorem run_eq_positions (xs : List Iteration) :
    (controller.run initial xs).state = (reference xs).mode ∧
    (controller.run initial xs).keyPressed =
      ((reference xs).last.map fun b => toChar (getchar b)).getD 0 ∧
    controller.outputs initial xs = (reference xs).samples ∧
    (∀ p, (controller.run initial xs).value p = lastValue p (reference xs).samples) ∧
    ∀ n ys, (reference xs).position = some n → (∀ r, .asciiRead r ∉ ys) →
      (controller.run initial (xs ++ ys)).state =
        (probeAt (n + ys.count .stateMachine * turn ((reference xs).last.bind keyByte))).mode := by
  obtain ⟨hrun, hout⟩ := refines_run xs
  refine ⟨hrun.mode, hrun.key, hout, hrun.values, ?_⟩
  intro n ys hpos hys
  obtain ⟨-, hheld⟩ := position_held hpos hys
  rw [(refines_run (xs ++ ys)).1.mode, Reference.mode, hheld]

end LinuxTutorial.TimerController
