import LinuxTutorial.Controller.Basic
import Mathlib.Tactic.Common

/-!
# What the controller computes

The purpose of `StateMc_pThread.c` without its globals: bytes collect in a window, each
state machine iteration of a known mode closes the window, and the last supported key of a
closed window turns the mode one position.
-/

namespace LinuxTutorial.Controller

open Transition

/-- The key that a window of `getchar` results amounts to: the last supported one. -/
def effectiveKey (window : List (Option UInt8)) : Option KeyEvent :=
  (window.filterMap keyByte).getLast?

/-- The probe at a position of the cycle COND, PH, MV, counted from COND. -/
def probeAt (n : ℤ) : Probe :=
  if n % 3 = 0 then .cond else if n % 3 = 1 then .ph else .mv

/-- The abstract controller: whether a mode is known yet, the keys that took effect, and
the bytes read since the last state machine iteration of a known mode. -/
structure Reference where
  started : Bool := false
  effective : List KeyEvent := []
  window : List (Option UInt8) := []

def Reference.step (r : Reference) : Iteration → Reference
  | .asciiRead b => { r with window := r.window ++ [b] }
  | .timerEvent => { r with started := true }
  | .stateMachine =>
    if r.started then
      { r with effective := r.effective ++ (effectiveKey r.window).toList, window := [] }
    else { r with started := true }

def reference (xs : List Iteration) : Reference := xs.foldl Reference.step {}

/-- Effective right keys minus effective left keys. -/
def Reference.turns (r : Reference) : ℤ :=
  r.effective.count .right - r.effective.count .left

/-- The concrete globals show the abstract controller. -/
structure Refines (g : Globals) (r : Reference) : Prop where
  mode : g.stateSingleton = if r.started then (probeAt r.turns).mode else .unknow
  mailbox : keyEvent g.keyPressedGlobal = effectiveKey r.window
  idle : r.started = false → r.effective = []

theorem effectiveKey_snoc (w : List (Option UInt8)) (b : Option UInt8) :
    effectiveKey (w ++ [b]) = (keyByte b).or (effectiveKey w) := by
  cases h : keyByte b <;> simp [effectiveKey, List.filterMap_append, h]

theorem nextState_forward (n : ℤ) :
    nextState (probeAt n) .goForward = (probeAt (n + 1)).mode := by
  have h3 : n % 3 = 0 ∨ n % 3 = 1 ∨ n % 3 = 2 := by omega
  rcases h3 with h | h | h
  · have hn : (n + 1) % 3 = 1 := by omega
    simp [probeAt, h, hn, nextState, Probe.mode]
  · have hn : (n + 1) % 3 = 2 := by omega
    simp [probeAt, h, hn, nextState, Probe.mode]
  · have hn : (n + 1) % 3 = 0 := by omega
    simp [probeAt, h, hn, nextState, Probe.mode]

theorem nextState_back (n : ℤ) : nextState (probeAt n) .goBack = (probeAt (n - 1)).mode := by
  have h3 : n % 3 = 0 ∨ n % 3 = 1 ∨ n % 3 = 2 := by omega
  rcases h3 with h | h | h
  · have hn : (n - 1) % 3 = 2 := by omega
    simp [probeAt, h, hn, nextState, Probe.mode]
  · have hn : (n - 1) % 3 = 0 := by omega
    simp [probeAt, h, hn, nextState, Probe.mode]
  · have hn : (n - 1) % 3 = 1 := by omega
    simp [probeAt, h, hn, nextState, Probe.mode]

theorem turns_left (r : Reference) :
    Reference.turns { r with effective := r.effective ++ [.left] } = r.turns - 1 := by
  have hcount : (r.effective ++ [KeyEvent.left]).count .left = r.effective.count .left + 1 := by
    simp
  simp only [Reference.turns, hcount, List.count_append]
  simp
  omega

theorem turns_right (r : Reference) :
    Reference.turns { r with effective := r.effective ++ [.right] } = r.turns + 1 := by
  have hcount : (r.effective ++ [KeyEvent.right]).count .right =
      r.effective.count .right + 1 := by simp
  simp only [Reference.turns, hcount, List.count_append]
  simp
  omega

/-- Closing a window turns the mode exactly as the nine arrows of the source do. -/
theorem nextState_close {g : Globals} {r : Reference} (h : Refines g r) :
    nextState (probeAt r.turns) (switchKey g.keyPressedGlobal) =
      (probeAt (Reference.turns
        { r with effective := r.effective ++ (effectiveKey r.window).toList })).mode := by
  have hm := h.mailbox
  cases hk : effectiveKey r.window with
  | none =>
    rw [hk] at hm
    simp [switchKey_eq_stayPut.mpr hm, Reference.turns]
  | some k =>
    rw [hk] at hm
    rw [switchKey_of_keyEvent hm]
    cases k with
    | left => exact (nextState_back r.turns).trans (by rw [Option.toList_some, turns_left])
    | right => exact (nextState_forward r.turns).trans (by rw [Option.toList_some, turns_right])

theorem refines_initial : Refines initial {} where
  mode := rfl
  mailbox := keyEvent_zero
  idle := fun _ => rfl

/-- A byte extends the open window. -/
theorem refines_asciiRead {g : Globals} {r : Reference} (h : Refines g r) (b : Option UInt8) :
    Refines (asciiReadThread b g) (r.step (.asciiRead b)) := by
  rw [asciiReadThread_eq]
  refine ⟨?_, ?_, h.idle⟩
  · cases keyByte b <;> exact h.mode
  · simp only [Reference.step, effectiveKey_snoc]
    cases hk : keyByte b with
    | none => simpa using h.mailbox
    | some k => simp

/-- The timer at most starts the controller. -/
theorem refines_timerEvent {g : Globals} {r : Reference} (h : Refines g r) :
    Refines (timerEventThread g).2 (r.step .timerEvent) := by
  have hm := h.mode
  cases hs : r.started with
  | true =>
    rw [hs, if_pos rfl] at hm
    have hkept := timerEventThread_known (g := g) (by simp [hm])
    refine ⟨?_, ?_, by simp [Reference.step]⟩
    · simpa [Reference.step, Reference.turns, hkept.1] using hm
    · simpa [Reference.step, hkept.2] using h.mailbox
  | false =>
    rw [hs] at hm
    rw [timerEventThread_unknow (by simpa using hm)]
    refine ⟨?_, h.mailbox, by simp [Reference.step]⟩
    simp [Reference.step, Reference.turns, h.idle hs, probeAt, Probe.mode]

/-- The state machine closes the window, or starts the controller and leaves it open. -/
theorem refines_stateMachine {g : Globals} {r : Reference} (h : Refines g r) :
    Refines (stateMachineThread g) (r.step .stateMachine) := by
  have hm := h.mode
  cases hs : r.started with
  | true =>
    rw [hs, if_pos rfl] at hm
    rw [stateMachineThread_probe hm, nextState_close h]
    refine ⟨?_, ?_, by simp [Reference.step, hs]⟩
    · simp [Reference.step, hs, Reference.turns]
    · simp [Reference.step, hs, effectiveKey]
  | false =>
    rw [hs] at hm
    rw [stateMachineThread_unknow (by simpa using hm)]
    refine ⟨?_, ?_, by simp [Reference.step, hs]⟩
    · simp [Reference.step, hs, Reference.turns, h.idle hs, probeAt, Probe.mode]
    · simpa [Reference.step, hs] using h.mailbox

theorem refines_step {g : Globals} {r : Reference} (h : Refines g r) (a : Iteration) :
    Refines (controller.step a g).2 (r.step a) := by
  cases a with
  | asciiRead b => exact refines_asciiRead h b
  | timerEvent => exact refines_timerEvent h
  | stateMachine => exact refines_stateMachine h

theorem reference_snoc (xs : List Iteration) (a : Iteration) :
    reference (xs ++ [a]) = (reference xs).step a := by
  simp [reference, List.foldl_append]

theorem refines_run (xs : List Iteration) : Refines (controller.run initial xs) (reference xs) := by
  induction xs using List.reverseRecOn with
  | nil => exact refines_initial
  | append_singleton xs a ih =>
    rw [Transducer.run_snoc, reference_snoc]
    exact refines_step ih a

/-- The mode is known once the timer or the state machine has run. -/
theorem started_iff (xs : List Iteration) :
    (reference xs).started = true ↔ .timerEvent ∈ xs ∨ .stateMachine ∈ xs := by
  induction xs using List.reverseRecOn with
  | nil => simp [reference]
  | append_singleton xs a ih =>
    rw [reference_snoc]
    cases a with
    | asciiRead b => simpa [Reference.step] using ih
    | timerEvent => simp [Reference.step]
    | stateMachine => cases hs : (reference xs).started <;> simp [Reference.step, hs]

theorem effectiveKey_eq_none {w : List (Option UInt8)} :
    effectiveKey w = none ↔ ∀ b ∈ w, keyByte b = none := by
  simp [effectiveKey]

/-- Mode and mailbox after every schedule of whole iterations. -/
theorem run_eq_reference (xs : List Iteration) :
    ((controller.run initial xs).stateSingleton = .unknow ↔
      .timerEvent ∉ xs ∧ .stateMachine ∉ xs) ∧
    ((controller.run initial xs).stateSingleton ≠ .unknow →
      (controller.run initial xs).stateSingleton =
        (probeAt ((reference xs).effective.count .right -
          (reference xs).effective.count .left)).mode) ∧
    ((controller.run initial xs).keyPressedGlobal = KeyEvent.left.char ∨
      (controller.run initial xs).keyPressedGlobal = KeyEvent.right.char ↔
      ∃ b ∈ (reference xs).window, keyByte b ≠ none) ∧
    (∀ k, effectiveKey (reference xs).window = some k →
      (controller.run initial xs).keyPressedGlobal = k.char) := by
  obtain ⟨hmode, hmail, -⟩ := refines_run xs
  have hstart := started_iff xs
  have hunknow : (controller.run initial xs).stateSingleton = .unknow ↔
      (reference xs).started = false := by
    rw [hmode]
    cases (reference xs).started <;> simp
  refine ⟨?_, ?_, ?_, ?_⟩
  · rw [hunknow, ← Bool.not_eq_true, hstart, not_or]
  · intro hne
    have hs : (reference xs).started = true := by simpa using fun hf => hne (hunknow.mpr hf)
    rw [hmode, hs, if_pos rfl]
    rfl
  · rw [← keyEvent_eq_some, ← keyEvent_eq_some, hmail]
    have hex := (effectiveKey_eq_none (w := (reference xs).window)).not
    push Not at hex
    rw [← hex]
    cases effectiveKey (reference xs).window with
    | none => simp
    | some k => cases k <;> simp
  · intro k hk
    exact keyEvent_eq_some.mp (hmail.trans hk)

end LinuxTutorial.Controller
