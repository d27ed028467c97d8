import LinuxTutorial.TimerController.Basic

/-!
# Moves and key presses

`key_pressed` keeps the last byte until the next one is read. Each state machine iteration
acts on it again.
-/

namespace LinuxTutorial.TimerController

open Transition

variable {xs ys zs : List Iteration} {a : Iteration} {r : Option UInt8}

/-- The iteration starts in a known mode and changes it. -/
def moves (a : Iteration) (g : Globals) : Bool :=
  a = .stateMachine && g.state ≠ .unknow && (controller.step a g).2.state ≠ g.state

/-- The iteration reads an `'a'` or a `'d'`. -/
def presses : Iteration → Bool
  | .asciiRead r => (keyByte r).isSome
  | _ => false

/-- Since the last byte was read, a state machine iteration has run in a known mode. -/
def Spent (xs : List Iteration) : Prop :=
  ∃ pre post, xs = pre ++ .stateMachine :: post ∧
    (controller.run initial pre).state ≠ .unknow ∧ ∀ r, .asciiRead r ∉ post

/-- No state machine iteration of a known mode finds a key that is spent already. -/
def NoSpentKey (xs : List Iteration) : Prop :=
  ∀ pre post, xs = pre ++ .stateMachine :: post →
    (controller.run initial pre).state ≠ .unknow →
    (keyEvent (controller.run initial pre).keyPressed).isSome → ¬ Spent pre

theorem spent_snoc : Spent (xs ++ [a]) ↔
    (a = .stateMachine ∧ (controller.run initial xs).state ≠ .unknow) ∨
      (Spent xs ∧ ∀ r, a ≠ .asciiRead r) := by
  constructor
  · rintro ⟨pre, post, heq, hknown, hread⟩
    rcases snoc_eq_append_cons_iff.mp heq with ⟨rfl, rfl, rfl⟩ | ⟨mid, rfl, rfl⟩
    · exact Or.inl ⟨rfl, hknown⟩
    · refine Or.inr ⟨⟨pre, mid, rfl, hknown, fun r hr => hread r (by simp [hr])⟩, ?_⟩
      rintro r rfl
      exact hread r (by simp)
  · rintro (⟨rfl, hknown⟩ | ⟨⟨pre, post, rfl, hknown, hread⟩, hne⟩)
    · exact ⟨xs, [], by simp, hknown, by simp⟩
    · refine ⟨pre, post ++ [a], by simp, hknown, ?_⟩
      intro r hr
      rcases List.mem_append.mp hr with hr | hr
      · exact hread r hr
      · exact hne r (List.mem_singleton.mp hr).symm

theorem noSpentKey_snoc : NoSpentKey (xs ++ [a]) ↔ NoSpentKey xs ∧
    (a = .stateMachine → (controller.run initial xs).state ≠ .unknow →
      (keyEvent (controller.run initial xs).keyPressed).isSome → ¬ Spent xs) := by
  constructor
  · intro h
    refine ⟨?_, fun ha => h xs [] (by rw [ha])⟩
    rintro pre post rfl
    exact h pre (post ++ [a]) (by simp)
  · rintro ⟨hxs, hlast⟩ pre post heq
    rcases snoc_eq_append_cons_iff.mp heq with ⟨rfl, rfl, rfl⟩ | ⟨mid, rfl, rfl⟩
    · exact hlast rfl
    · exact hxs pre mid rfl

theorem nextState_eq_mode_iff {p : Probe} {c : Int8} :
    LinuxTutorial.nextState p (switchKey c) = p.mode ↔ keyEvent c = none := by
  constructor
  · intro h
    cases hk : keyEvent c with
    | none => rfl
    | some k =>
      rw [switchKey_of_keyEvent hk] at h
      cases p <;> cases k <;> exact absurd h (by decide)
  · intro h
    rw [switchKey_eq_stayPut.mpr h, nextState_stayPut]

/-- The state machine moves a known mode exactly when it finds a supported key. -/
theorem moves_stateMachine (g : Globals) :
    moves .stateMachine g = (g.state ≠ .unknow && (keyEvent g.keyPressed).isSome) := by
  by_cases h : g.state = .unknow
  · simp [moves, h]
  · obtain ⟨p, hp⟩ := StateDefine.exists_probe h
    have hstep : (controller.step .stateMachine g).2.state =
        LinuxTutorial.nextState p (switchKey g.keyPressed) := by
      change (stateMachineThread g).state = _
      rw [stateMachineThread_probe hp.symm]
    cases hk : keyEvent g.keyPressed with
    | none =>
      have heq := nextState_eq_mode_iff (p := p).mpr hk
      simp [moves, hstep, heq, hp]
    | some k =>
      have hne : LinuxTutorial.nextState p (switchKey g.keyPressed) ≠ g.state := by
        rw [← hp]
        intro he
        simp [nextState_eq_mode_iff.mp he] at hk
      simp [moves, hstep, hne, h]

/-- The number of moves after a schedule, and one more while an unspent key is pending. -/
def Paid (xs : List Iteration) : Prop :=
  controller.count moves initial xs ≤ xs.countP presses ∧
    ((keyEvent (controller.run initial xs).keyPressed).isSome → ¬ Spent xs →
      controller.count moves initial xs < xs.countP presses)

theorem paid_asciiRead (r : Option UInt8) (h : Paid xs) : Paid (xs ++ [.asciiRead r]) := by
  have hkey : keyEvent (controller.run initial (xs ++ [.asciiRead r])).keyPressed =
      keyByte r := by
    rw [Transducer.run_snoc]
    exact keyEvent_toChar_getchar r
  have hmoves : moves (.asciiRead r) (controller.run initial xs) = false := by simp [moves]
  have hcount := h.1
  rw [Paid, hkey, Transducer.count_snoc, hmoves, List.countP_append]
  cases hr : (keyByte r).isSome with
  | false => simpa [presses, hr] using hcount
  | true =>
    have hone : [Iteration.asciiRead r].countP presses = 1 := by simp [presses, hr]
    rw [hone]
    simp only [Bool.toNat_false]
    omega

theorem paid_timerEvent (h : Paid xs) : Paid (xs ++ [.timerEvent]) := by
  have hkey : (controller.run initial (xs ++ [.timerEvent])).keyPressed =
      (controller.run initial xs).keyPressed := by
    rw [Transducer.run_snoc]
    exact timerEventThread_key _
  have hmoves : moves .timerEvent (controller.run initial xs) = false := by simp [moves]
  have hone : [Iteration.timerEvent].countP presses = 0 := by simp [presses]
  rw [Paid, hkey, Transducer.count_snoc, hmoves, List.countP_append, hone]
  refine ⟨h.1, fun hk hns => h.2 hk fun hs => hns ?_⟩
  exact spent_snoc.mpr (Or.inr ⟨hs, by simp⟩)

/-- The state machine may move the mode only by an unspent key, and spends it. -/
theorem paid_stateMachine (hfresh : NoSpentKey (xs ++ [.stateMachine])) (h : Paid xs) :
    Paid (xs ++ [.stateMachine]) := by
  have hkey : (controller.run initial (xs ++ [.stateMachine])).keyPressed =
      (controller.run initial xs).keyPressed := by
    rw [Transducer.run_snoc]
    exact stateMachineThread_key _
  have hone : [Iteration.stateMachine].countP presses = 0 := by simp [presses]
  rw [Paid, hkey, Transducer.count_snoc, moves_stateMachine, List.countP_append, hone]
  by_cases hknown : (controller.run initial xs).state = .unknow
  · simp only [hknown, ne_eq, not_true_eq_false, decide_false, Bool.false_and, Bool.toNat_false,
      Nat.add_zero]
    refine ⟨h.1, fun hk hns => h.2 hk fun hs => hns ?_⟩
    exact spent_snoc.mpr (Or.inr ⟨hs, by simp⟩)
  · have hspent : Spent (xs ++ [.stateMachine]) := spent_snoc.mpr (Or.inl ⟨rfl, hknown⟩)
    refine ⟨?_, fun _ hns => (hns hspent).elim⟩
    cases hk : (keyEvent (controller.run initial xs).keyPressed).isSome with
    | false => simpa [hk] using h.1
    | true =>
      have hlt := h.2 hk ((noSpentKey_snoc.mp hfresh).2 rfl hknown hk)
      simp only [ne_eq, hknown, not_false_eq_true, decide_true, Bool.and_self, Bool.toNat_true]
      omega

theorem paid_run (xs : List Iteration) (h : NoSpentKey xs) : Paid xs := by
  induction xs using List.reverseRecOn with
  | nil => simp [Paid, Transducer.count, initial]
  | append_singleton xs a ih =>
    have hprev := ih (noSpentKey_snoc.mp h).1
    cases a with
    | asciiRead r => exact paid_asciiRead r hprev
    | timerEvent => exact paid_timerEvent hprev
    | stateMachine => exact paid_stateMachine h hprev

/-- If no state machine iteration finds a spent key, one key press moves the mode at most
once. -/
theorem moves_le_presses (xs : List Iteration) (h : NoSpentKey xs) :
    controller.count moves initial xs ≤ xs.countP presses := (paid_run xs h).1

/-- One right key, one move. -/
theorem moves_le_presses_right :
    controller.count moves initial [.stateMachine, .asciiRead (some 100), .stateMachine] ≤
      [Iteration.stateMachine, .asciiRead (some 100), .stateMachine].countP presses := by
  apply moves_le_presses
  have hread : ¬ Spent [.stateMachine, .asciiRead (some 100)] := by
    rw [show [Iteration.stateMachine, .asciiRead (some 100)] =
      [.stateMachine] ++ [.asciiRead (some 100)] from rfl, spent_snoc]
    simp
  rw [show [Iteration.stateMachine, .asciiRead (some 100), .stateMachine] =
    (([] ++ [.stateMachine]) ++ [.asciiRead (some 100)]) ++ [.stateMachine] from rfl,
    noSpentKey_snoc, noSpentKey_snoc, noSpentKey_snoc]
  refine ⟨⟨⟨?_, fun _ hne => (hne rfl).elim⟩, by simp⟩, fun _ _ _ => hread⟩
  intro pre post heq
  simp at heq

/-- How often `ys` moves the mode after the byte `r` has been read. -/
def movesSince (xs : List Iteration) (r : Option UInt8) (ys : List Iteration) : ℕ :=
  controller.count moves (controller.run initial (xs ++ [.asciiRead r])) ys

theorem run_read : controller.run initial (xs ++ .asciiRead r :: ys) =
    controller.run (controller.run initial (xs ++ [.asciiRead r])) ys := by
  rw [← Transducer.run_append, List.append_assoc, List.singleton_append]

/-- Only `ascii_read_thread` changes the key. -/
theorem run_keyPressed (hread : ∀ q, .asciiRead q ∉ ys) (g : Globals) :
    (controller.run g ys).keyPressed = g.keyPressed := by
  refine Transducer.run_eq fun a ha g => ?_
  cases a with
  | asciiRead q => exact (hread q ha).elim
  | timerEvent => exact timerEventThread_key g
  | stateMachine => exact stateMachineThread_key g

/-- The last byte stays in force until the next one is read. -/
theorem keyEvent_run_read (hread : ∀ q, .asciiRead q ∉ ys) :
    keyEvent (controller.run initial (xs ++ .asciiRead r :: ys)).keyPressed = keyByte r := by
  rw [run_read, run_keyPressed hread, Transducer.run_snoc]
  exact keyEvent_toChar_getchar r

/-- While the key is in force, the state machine iterations of a known mode are the moves. -/
theorem movesSince_snoc (hkey : (keyByte r).isSome) (hread : ∀ q, .asciiRead q ∉ ys ++ [a]) :
    movesSince xs r (ys ++ [a]) = movesSince xs r ys +
      if a = .stateMachine ∧ (controller.run initial (xs ++ .asciiRead r :: ys)).state ≠ .unknow
      then 1 else 0 := by
  have hpresent : keyEvent (controller.run initial (xs ++ .asciiRead r :: ys)).keyPressed =
      keyByte r := keyEvent_run_read fun q hq => hread q (List.mem_append_left [a] hq)
  rw [movesSince, Transducer.count_snoc, ← run_read]
  cases a with
  | asciiRead q => exact (hread q (by simp)).elim
  | timerEvent => simp [moves, movesSince]
  | stateMachine =>
    rw [moves_stateMachine, hpresent, hkey]
    by_cases hu : (controller.run initial (xs ++ .asciiRead r :: ys)).state = .unknow
    · rw [if_neg fun h => h.2 hu, decide_eq_false fun h => h hu]
      rfl
    · rw [if_pos ⟨rfl, hu⟩, decide_eq_true hu]
      rfl

/-- A key is spent exactly if it has moved the mode already. -/
theorem spent_iff_movesSince (hkey : (keyByte r).isSome) (hread : ∀ q, .asciiRead q ∉ ys) :
    Spent (xs ++ .asciiRead r :: ys) ↔ 0 < movesSince xs r ys := by
  induction ys using List.reverseRecOn with
  | nil => simp [spent_snoc, movesSince, Transducer.count]
  | append_singleton ys a ih =>
    have hprev : ∀ q, .asciiRead q ∉ ys := fun q hq => hread q (List.mem_append_left _ hq)
    have ha : ∀ q, a ≠ .asciiRead q := by
      rintro q rfl
      exact hread q (by simp)
    rw [← List.cons_append, ← List.append_assoc, spent_snoc, ih hprev, movesSince_snoc hkey hread]
    split_ifs with hmove
    · simp [hmove]
    · simp [hmove, ha]

/-- The condition is exact: a state machine iteration that finds a supported key in a known mode
is the first one that this key moves if the key is not spent, and a further one otherwise. -/
theorem movesSince_le_one_iff (hkey : (keyByte r).isSome) (hread : ∀ q, .asciiRead q ∉ ys)
    (hknown : (controller.run initial (xs ++ .asciiRead r :: ys)).state ≠ .unknow) :
    movesSince xs r (ys ++ [.stateMachine]) ≤ 1 ↔ ¬ Spent (xs ++ .asciiRead r :: ys) := by
  rw [spent_iff_movesSince hkey hread, movesSince_snoc hkey (by simpa using hread),
    if_pos ⟨rfl, hknown⟩]
  omega

/-- A supported key in the mailbox is the last byte that was read. -/
theorem exists_read (h : (keyEvent (controller.run initial xs).keyPressed).isSome) :
    ∃ pre r ys, xs = pre ++ .asciiRead r :: ys ∧ (keyByte r).isSome ∧ ∀ q, .asciiRead q ∉ ys := by
  induction xs using List.reverseRecOn with
  | nil => simp [initial] at h
  | append_singleton xs a ih =>
    rw [Transducer.run_snoc] at h
    have hkept : (∀ q, a ≠ .asciiRead q) →
        (controller.step a (controller.run initial xs)).2.keyPressed =
          (controller.run initial xs).keyPressed → ∃ pre r ys,
        xs ++ [a] = pre ++ .asciiRead r :: ys ∧ (keyByte r).isSome ∧ ∀ q, .asciiRead q ∉ ys := by
      intro ha hkey
      rw [hkey] at h
      obtain ⟨pre, r, ys, rfl, hr, hread⟩ := ih h
      exact ⟨pre, r, ys ++ [a], by simp, hr, by simp [hread, (ha _).symm]⟩
    cases a with
    | asciiRead r =>
      refine ⟨xs, r, [], rfl, ?_, by simp⟩
      rw [← keyEvent_toChar_getchar r]
      exact h
    | timerEvent => exact hkept (by simp) (timerEventThread_key _)
    | stateMachine => exact hkept (by simp) (stateMachineThread_key _)

/-- That no spent key is found means that each single key press moves the mode at most once. -/
theorem noSpentKey_iff : NoSpentKey zs ↔ ∀ xs r ys rest, zs = xs ++ .asciiRead r :: ys ++ rest →
    (keyByte r).isSome → (∀ q, .asciiRead q ∉ ys) → movesSince xs r ys ≤ 1 := by
  constructor
  · rintro h xs r ys rest rfl hkey hread
    induction ys using List.reverseRecOn generalizing rest with
    | nil => simp [movesSince, Transducer.count]
    | append_singleton ys a ih =>
      have hprev : ∀ q, .asciiRead q ∉ ys := fun q hq => hread q (List.mem_append_left _ hq)
      have hle := ih (a :: rest) (by simpa using h) hprev
      rw [movesSince_snoc hkey hread]
      split_ifs with hmove
      · obtain ⟨rfl, hknown⟩ := hmove
        have hfresh := h (xs ++ .asciiRead r :: ys) rest (by simp) hknown
          (by rwa [keyEvent_run_read hprev])
        rw [spent_iff_movesSince hkey hprev] at hfresh
        omega
      · exact hle
  · rintro h pre post rfl hknown hpresent
    obtain ⟨xs, r, ys, rfl, hkey, hread⟩ := exists_read hpresent
    refine (movesSince_le_one_iff hkey hread hknown).mp ?_
    exact h xs r (ys ++ [.stateMachine]) post (by simp) hkey (by simpa using hread)

/-- One right key moves the mode from COND to PH and from PH to MV. -/
theorem not_moves_le_presses :
    ¬ ∀ xs, controller.count moves initial xs ≤ xs.countP presses := by
  intro h
  exact absurd (h [.stateMachine, .asciiRead (some 100), .stateMachine, .stateMachine])
    (by decide)

end LinuxTutorial.TimerController
