import LinuxTutorial.Controller.Basic

/-!
# Navigation and sampling

Neither side of the controller can be observed on the other: the timer leaves the mode and
the mailbox alone, the keys decide when a table is read but not what is read from it.
-/

namespace LinuxTutorial.Controller

open Transition

variable {g : Globals} {a : Iteration}

/-- What the keyboard side of the controller sees. -/
def Globals.navigation (g : Globals) : StateDefine × Int8 :=
  (g.stateSingleton, g.keyPressedGlobal)

/-- `cond_index`, `ph_index` and `mv_index`. -/
def Globals.index (g : Globals) : Probe → UInt32
  | .cond => g.condIndex
  | .ph => g.phIndex
  | .mv => g.mvIndex

/-- `cond_data`, `ph_data` and `mv_data`. -/
def data : Probe → Fin 10 → Int32
  | .cond => condData
  | .ph => phData
  | .mv => mvData

/-- The values assigned to the variable of a probe, in order. -/
def assigned (p : Probe) (g : Globals) (xs : List Iteration) : List Int32 :=
  (controller.outputs g xs).filterMap (Sample.at? p)

theorem asciiReadThread_mode (r : Option UInt8) (g : Globals) :
    (asciiReadThread r g).stateSingleton = g.stateSingleton := by
  rw [asciiReadThread_eq]
  cases keyByte r <;> rfl

theorem asciiReadThread_index (r : Option UInt8) (g : Globals) :
    (asciiReadThread r g).index = g.index := by
  rw [asciiReadThread_eq]
  cases keyByte r <;> rfl

theorem stateMachineThread_index (g : Globals) : (stateMachineThread g).index = g.index := by
  by_cases h : g.stateSingleton = .unknow
  · rw [stateMachineThread_unknow h]
    rfl
  · obtain ⟨p, hp⟩ := StateDefine.exists_probe h
    rw [stateMachineThread_probe hp.symm]
    rfl

/-- No iteration returns to the unknown mode. -/
theorem known_step (a : Iteration) (g : Globals) (h : g.stateSingleton ≠ .unknow) :
    (controller.step a g).2.stateSingleton ≠ .unknow := by
  cases a with
  | asciiRead r =>
    change (asciiReadThread r g).stateSingleton ≠ .unknow
    rwa [asciiReadThread_mode]
  | timerEvent =>
    change (timerEventThread g).2.stateSingleton ≠ .unknow
    rwa [(timerEventThread_known h).1]
  | stateMachine =>
    change (stateMachineThread g).stateSingleton ≠ .unknow
    obtain ⟨p, hp⟩ := StateDefine.exists_probe h
    rw [stateMachineThread_probe hp.symm]
    exact nextState_ne_unknow _ _

theorem timer_hidden (a : Iteration) (g : Globals) (h : g.stateSingleton ≠ .unknow)
    (ha : (!a.isTimer) = false) : (controller.step a g).2.navigation = g.navigation := by
  cases a with
  | timerEvent =>
    have hkept := timerEventThread_known h
    exact Prod.ext hkept.1 hkept.2
  | asciiRead r => simp [Iteration.isTimer] at ha
  | stateMachine => simp [Iteration.isTimer] at ha

/-- Mode and mailbox alone determine what the keyboard and the state machine do next. -/
theorem navigation_agree (a : Iteration) (g g' : Globals) (h : g.stateSingleton ≠ .unknow)
    (_ : g'.stateSingleton ≠ .unknow) (ha : (!a.isTimer) = true)
    (heq : g.navigation = g'.navigation) :
    (controller.step a g).2.navigation = (controller.step a g').2.navigation := by
  obtain ⟨hmode, hkey⟩ := Prod.mk.inj heq
  cases a with
  | timerEvent => simp [Iteration.isTimer] at ha
  | asciiRead r =>
    change (asciiReadThread r g).navigation = (asciiReadThread r g').navigation
    rw [asciiReadThread_eq, asciiReadThread_eq]
    cases keyByte r with
    | none => exact heq
    | some k => simp [Globals.navigation, hmode]
  | stateMachine =>
    change (stateMachineThread g).navigation = (stateMachineThread g').navigation
    obtain ⟨p, hp⟩ := StateDefine.exists_probe h
    rw [stateMachineThread_probe hp.symm, stateMachineThread_probe (hp.trans hmode).symm]
    simp [Globals.navigation, hkey]

/-- Each probe's values come from its own table through its own index. -/
theorem indexedBy (p : Probe) :
    controller.IndexedBy (Sample.at? p) (fun g => g.index p) (· + 1) (entry (data p)) := by
  intro a g
  cases a with
  | asciiRead r => exact Or.inl ⟨rfl, congrFun (asciiReadThread_index r g) p⟩
  | stateMachine => exact Or.inl ⟨rfl, congrFun (stateMachineThread_index g) p⟩
  | timerEvent =>
    change ((timerEventThread g).1.bind (Sample.at? p) = none ∧
        (timerEventThread g).2.index p = _) ∨
      ((timerEventThread g).1.bind (Sample.at? p) = _ ∧ (timerEventThread g).2.index p = _)
    cases hm : g.stateSingleton <;> cases p <;>
      simp [timerEventThread, hm, Sample.at?, Globals.index, data]

/-- Timer iterations cannot be observed on the navigation, and neither the keys nor the other
probes can be observed on the values of a probe. -/
theorem navigation_sampling_noninterference (g : Globals) (h : g.stateSingleton ≠ .unknow)
    (xs ys : List Iteration) :
    (withoutTimer xs = withoutTimer ys →
      (controller.run g xs).stateSingleton = (controller.run g ys).stateSingleton ∧
      (controller.run g xs).keyPressedGlobal = (controller.run g ys).keyPressedGlobal) ∧
    (∀ p, (assigned p g xs).length = (assigned p g ys).length →
      assigned p g xs = assigned p g ys) := by
  constructor
  · intro hxy
    have hnav := Transducer.noninterference (T := controller) known_step timer_hidden
      navigation_agree h hxy
    exact Prod.mk.inj hnav
  · intro p hl
    exact (indexedBy p).outputs_eq_of_length_eq rfl hl

/-- A pending left key in mode PH, with one or no sample before it takes effect. -/
theorem navigation_sampling_noninterference_ph :
    let g : Globals := { stateSingleton := .ph, keyPressedGlobal := 97 }
    let xs : List Iteration := [.timerEvent, .stateMachine, .timerEvent, .timerEvent]
    let ys : List Iteration := [.stateMachine, .timerEvent, .timerEvent]
    (controller.run g xs).stateSingleton = (controller.run g ys).stateSingleton ∧
    (controller.run g xs).keyPressedGlobal = (controller.run g ys).keyPressedGlobal ∧
    assigned .cond g xs = assigned .cond g ys := by
  intro g xs ys
  obtain ⟨hnav, hval⟩ := navigation_sampling_noninterference g (by decide) xs ys
  obtain ⟨hmode, hkey⟩ := hnav (by decide)
  exact ⟨hmode, hkey, hval .cond (by decide)⟩

end LinuxTutorial.Controller
