import LinuxTutorial.PingPong.Completion

/-!
# `ping_pong_pThread.c`

`main` runs `pong_thread` itself, by a direct call whose value it drops, and joins `ping_thread`.
It then reads through both of its pointers.
-/

namespace LinuxTutorial.PingPong.PThread

open Transition Counting

/-- `main` of `ping_pong_pThread.c`. -/
def main : List Call :=
  [.create .ping, .call .pong, .callReturn .pong, .join .ping, .printReturn .ping,
    .printReturn .pong]

theorem wellOrdered : WellOrdered main := ⟨by decide, by decide, by decide, by decide⟩

/-- What `main` has done when it comes to the value of `pong_thread`. -/
def PrintsPing (passed : List Call) (c : Call) : Prop :=
  (c = .printReturn .ping → .join .ping ∈ passed) ∧
    (c = .printReturn .pong → passed.filterMap Call.printed? = [(.ping, 5)])

instance (passed : List Call) : DecidablePred (PrintsPing passed) :=
  fun _ => inferInstanceAs (Decidable (_ ∧ _))

theorem printsPing : Follows PrintsPing main := by decide

/-- What `ping_pong.c` makes one expect of the runs. -/
structure Matches (maxLoop : Int32) : Prop where
  unassigned : ∀ es s, system.MTr (initial main maxLoop) es s → ∀ u, .unassigned u ∉ es
  complete : ∀ es s, system.MTr (initial main maxLoop) es s → system.Terminal s →
    ∃ ls, sequentialMain maxLoop = some ls ∧ (∀ u, counts u (lines es) = counts u ls) ∧
      returned (lines es) = returned ls
  after : ∀ pre post u v s,
    system.MTr (initial main maxLoop) (pre ++ .line (.returns u v) :: post) s →
    ∀ w, .line (.finished w) ∈ pre

variable {s : State} {es : List Event} {maxLoop : Int32}

/-- A run ends only where `main` reads its `pong_return`, which no join has assigned. -/
theorem fault_of_terminal (hne : maxLoop ≠ Int32.maxValue)
    (h : system.MTr (initial main maxLoop) es s) (ht : system.Terminal s) : s.fault = true := by
  by_contra hf
  have hf : s.fault = false := by simpa using hf
  obtain ⟨passed, hprogram, hpassed⟩ := (invariant_run wellOrdered.startsOnce h).passed
  rw [(wellOrdered.main_eq_nil hne h ht hf).1, List.append_nil] at hprogram
  have hjoin : .join .pong ∈ main := hprogram ▸ hpassed.read .pong (hprogram ▸ by decide)
  exact absurd hjoin (by decide)

/-- What the end of a run has printed. -/
theorem end_of_run (hne : maxLoop ≠ Int32.maxValue)
    (h : system.MTr (initial main maxLoop) es s) (ht : system.Terminal s) :
    (∀ u, counts u (lines es) = upTo maxLoop) ∧ returned (lines es) = [(.ping, 5)] ∧
      .unassigned .pong ∈ es := by
  have hs := invariant_run wellOrdered.startsOnce h
  obtain ⟨passed, hprogram, hpassed⟩ := hs.passed
  obtain ⟨u, rest, hmain, hnone, hmem⟩ := fault_run h (fault_of_terminal hne h ht)
  rw [hmain] at hprogram
  obtain ⟨hping, hpong⟩ := printsPing.of_split hprogram
  refine ⟨fun w => ?_, ?_⟩
  · obtain ⟨p, hp⟩ := wellOrdered.returned_of_terminal hne h ht w
    exact (hs.counts_eq hne hp).1
  · cases u with
    | ping =>
      rw [hpassed.deref_of_join hs.owned (hping rfl)] at hnone
      simp at hnone
    | pong => exact ⟨hpassed.printed.trans (hpong rfl), hmem⟩

theorem not_matches_of_ne (hne : maxLoop ≠ Int32.maxValue) : ¬ Matches maxLoop := by
  intro h
  obtain ⟨es, s, hrun, ht⟩ := exists_end (initial main maxLoop)
  exact h.unassigned es s hrun .pong (end_of_run hne hrun ht).2.2

/-- Every run comes to an end, has the counts of `ping_pong.c` and its value of `ping_thread`
there, and has read the `pong_return` that nothing has been assigned to. -/
theorem pong_return_unassigned (maxLoop : Int32) (h : maxLoop < Int32.maxValue) :
    (∀ es s, system.MTr (initial main maxLoop) es s →
      ∃ fs t, system.MTr s fs t ∧ system.Terminal t) ∧
    (∀ es s, system.MTr (initial main maxLoop) es s → system.Terminal s →
      ∃ ls, sequentialMain maxLoop = some ls ∧ (∀ u, counts u (lines es) = counts u ls) ∧
        returned (lines es) = [(.ping, 5)] ∧ .unassigned .pong ∈ es) ∧
    ¬ Matches maxLoop := by
  have hne : maxLoop ≠ Int32.maxValue := by
    rintro rfl
    exact Int32.lt_irrefl h
  refine ⟨fun es s _ => exists_end s, fun es s hrun ht => ?_, not_matches_of_ne hne⟩
  obtain ⟨ls, hls, hcounts, -⟩ := sequentialMain_eq hne
  obtain ⟨hrun_counts, hreturned, hmem⟩ := end_of_run hne hrun ht
  exact ⟨ls, hls, fun u => (hrun_counts u).trans (hcounts u).symm, hreturned, hmem⟩

/-- A run with the bound in the source. -/
theorem pong_return_unassigned_five : ∃ es s, system.MTr (initial main 5) es s ∧
    system.Terminal s ∧ returned (lines es) = [(.ping, 5)] ∧ .unassigned .pong ∈ es := by
  obtain ⟨hend, hrun, -⟩ := pong_return_unassigned 5 (by decide)
  obtain ⟨es, s, h, ht⟩ := hend [] _ .refl
  obtain ⟨ls, -, -, hreturned, hmem⟩ := hrun es s h ht
  exact ⟨es, s, h, ht, hreturned, hmem⟩

theorem not_matches : ¬ Matches 5 := not_matches_of_ne (by decide)

end LinuxTutorial.PingPong.PThread
