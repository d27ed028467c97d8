import LinuxTutorial.Controller.Interference
import LinuxTutorial.TimerController.Basic

/-!
# The clearing controller against the keeping one

`StateMc_pThread.c` filters the bytes it stores and clears the key it acts on,
`StateMc_pThread_Timer.c` does neither. With one byte for each state machine iteration the
difference cannot be seen on the mode.
-/

namespace LinuxTutorial.TimerController

open Transition

/-- One round: the byte both programs read, and how often the timer of each runs. -/
structure Round where
  byte : Option UInt8
  clearingTimers : ℕ
  keepingTimers : ℕ

/-- The iterations of a round that contains the given number of timer iterations. -/
def schedule (byte : Option UInt8) (timers : ℕ) : List Iteration :=
  .asciiRead byte :: (List.replicate timers .timerEvent ++ [.stateMachine])

/-- The schedule of `StateMc_pThread.c`. -/
def clearing (rounds : List Round) : List Iteration :=
  rounds.flatMap fun r => schedule r.byte r.clearingTimers

/-- The schedule of `StateMc_pThread_Timer.c`. -/
def keeping (rounds : List Round) : List Iteration :=
  rounds.flatMap fun r => schedule r.byte r.keepingTimers

/-- Between rounds: the same known mode, and no key left over in the clearing program. The
key of the keeping program is arbitrary. -/
structure Lockstep (g : Controller.Globals) (h : Globals) : Prop where
  mode : g.stateSingleton = h.state
  known : h.state ≠ .unknow
  cleared : keyEvent g.keyPressedGlobal = none

theorem clearing_timers {g : Controller.Globals} (n : ℕ) (h : g.stateSingleton ≠ .unknow) :
    (Controller.controller.run g (List.replicate n .timerEvent)).navigation = g.navigation := by
  induction n generalizing g with
  | zero => rfl
  | succ n ih =>
    rw [List.replicate_succ, Transducer.run_cons, ih (Controller.known_step _ g h)]
    exact Controller.timer_hidden _ g h rfl

theorem keeping_timers {h : Globals} (n : ℕ) (hm : h.state ≠ .unknow) :
    (controller.run h (List.replicate n .timerEvent)).state = h.state ∧
      (controller.run h (List.replicate n .timerEvent)).keyPressed = h.keyPressed := by
  induction n generalizing h with
  | zero => exact ⟨rfl, rfl⟩
  | succ n ih =>
    have hmode : (controller.step .timerEvent h).2.state = h.state := timerEventThread_known hm
    obtain ⟨hs, hk⟩ := ih (h := (controller.step .timerEvent h).2) (by rwa [hmode])
    rw [List.replicate_succ, Transducer.run_cons]
    exact ⟨hs.trans hmode, hk.trans (timerEventThread_key h)⟩

/-- The mode after a round of the clearing program, and the mailbox it leaves behind. -/
theorem clearing_round {g : Controller.Globals} {p : Probe} (hp : g.stateSingleton = p.mode)
    (hk : keyEvent g.keyPressedGlobal = none) (b : Option UInt8) (n : ℕ) :
    (Controller.controller.run g (schedule b n)).stateSingleton =
        LinuxTutorial.nextState p (switchKey (toChar (getchar b))) ∧
      keyEvent (Controller.controller.run g (schedule b n)).keyPressedGlobal = none := by
  have hread : (Controller.asciiReadThread b g).stateSingleton = p.mode :=
    (Controller.asciiReadThread_mode b g).trans hp
  have htimers := clearing_timers n (g := Controller.asciiReadThread b g) (by simp [hread])
  obtain ⟨hmode, hkey⟩ := Prod.mk.inj htimers
  have hevent : switchKey (Controller.asciiReadThread b g).keyPressedGlobal =
      switchKey (toChar (getchar b)) := by
    rw [Controller.asciiReadThread_eq]
    cases hb : keyByte b with
    | none => simp [switchKey, hk, keyEvent_toChar_getchar, hb]
    | some k => simp [switchKey, keyEvent_toChar_getchar, hb]
  have hrun : Controller.controller.run g (schedule b n) = Controller.stateMachineThread
      (Controller.controller.run (Controller.asciiReadThread b g)
        (List.replicate n .timerEvent)) := by
    rw [schedule, Transducer.run_cons, Transducer.run_snoc]
    rfl
  rw [hrun, Controller.stateMachineThread_probe (hmode.trans hread)]
  exact ⟨by rw [hkey, hevent], keyEvent_newline⟩

theorem keeping_round {h : Globals} {p : Probe} (hp : h.state = p.mode) (b : Option UInt8)
    (n : ℕ) : (controller.run h (schedule b n)).state =
      LinuxTutorial.nextState p (switchKey (toChar (getchar b))) := by
  have hread : (asciiReadThread b h).state = p.mode := hp
  obtain ⟨hmode, hkey⟩ := keeping_timers n (h := asciiReadThread b h) (by simp [hread])
  have hrun : controller.run h (schedule b n) = stateMachineThread
      (controller.run (asciiReadThread b h) (List.replicate n .timerEvent)) := by
    rw [schedule, Transducer.run_cons, Transducer.run_snoc]
    rfl
  rw [hrun, stateMachineThread_probe (hmode.trans hread), hkey]
  rfl

theorem lockstep_round {g : Controller.Globals} {h : Globals} (hl : Lockstep g h) (r : Round) :
    Lockstep (Controller.controller.run g (schedule r.byte r.clearingTimers))
      (controller.run h (schedule r.byte r.keepingTimers)) := by
  obtain ⟨p, hp⟩ := StateDefine.exists_probe hl.known
  obtain ⟨hclear, hkey⟩ := clearing_round (hl.mode.trans hp.symm) hl.cleared r.byte r.clearingTimers
  have hkeep := keeping_round hp.symm r.byte r.keepingTimers
  refine ⟨hclear.trans hkeep.symm, ?_, hkey⟩
  rw [hkeep]
  exact nextState_ne_unknow _ _

theorem lockstep_run {g : Controller.Globals} {h : Globals} (hl : Lockstep g h)
    (rounds : List Round) : Lockstep (Controller.controller.run g (clearing rounds))
      (controller.run h (keeping rounds)) := by
  induction rounds generalizing g h with
  | nil => exact hl
  | cons r rounds ih =>
    simp only [clearing, keeping, List.flatMap_cons, Transducer.run_append]
    exact ih (lockstep_round hl r)

/-- Both programs are in the same mode after every sequence of rounds. -/
theorem lockstep_mode (g : Controller.Globals) (h : Globals) (hmode : g.stateSingleton = h.state)
    (hknown : h.state ≠ .unknow) (hleft : g.keyPressedGlobal ≠ KeyEvent.left.char)
    (hright : g.keyPressedGlobal ≠ KeyEvent.right.char) (rounds : List Round) :
    (Controller.controller.run g (clearing rounds)).stateSingleton =
      (controller.run h (keeping rounds)).state := by
  have hcleared : keyEvent g.keyPressedGlobal = none := by simp [keyEvent, hleft, hright]
  exact (lockstep_run ⟨hmode, hknown, hcleared⟩ rounds).mode

/-- A key left over in the keeping program only, an unsupported byte, then a right key. -/
theorem lockstep_mode_leftover :
    (Controller.controller.run { stateSingleton := .mv, keyPressedGlobal := newline }
        (clearing [⟨some 120, 1, 0⟩, ⟨some 100, 0, 2⟩])).stateSingleton =
      (controller.run { state := .mv, keyPressed := 97 }
        (keeping [⟨some 120, 1, 0⟩, ⟨some 100, 0, 2⟩])).state :=
  lockstep_mode _ _ rfl (by decide) (by decide) (by decide) _

end LinuxTutorial.TimerController
