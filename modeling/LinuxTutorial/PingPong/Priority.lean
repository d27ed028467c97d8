import LinuxTutorial.PingPong.Completion

/-!
# `ping_pong_pThread_priority.c`

`main` creates both threads and joins both of them. Priorities only change how likely an
interleaving is.
-/

namespace LinuxTutorial.PingPong.Priority

open Transition Counting

/-- `main` of `ping_pong_pThread_priority.c`. -/
def main : List Call :=
  [.create .ping, .create .pong, .join .ping, .join .pong, .printReturn .ping,
    .printReturn .pong]

theorem wellOrdered : WellOrdered main := ⟨by decide, by decide, by decide, by decide⟩

theorem joinedBefore : Follows JoinedBefore main := by decide

/-- What is expected of the runs with a loop bound. -/
structure Finishes (maxLoop : Int32) : Prop where
  finite : ∀ (run : ℕ → State) (label : ℕ → Event), run 0 = initial main maxLoop →
    ¬ ∀ n, system.Tr (run n) (label n) (run (n + 1))
  noOverflow : ∀ es s, system.MTr (initial main maxLoop) es s → ∀ u, .overflow u ∉ es
  after : ∀ pre post u v s,
    system.MTr (initial main maxLoop) (pre ++ .line (.returns u v) :: post) s →
    ∀ w, .line (.finished w) ∈ pre
  complete : ∀ es s, system.MTr (initial main maxLoop) es s → system.Terminal s →
    s.main = [] ∧ (∀ u, counts u (lines es) = upTo maxLoop ∧ ∃ p, s.thread u = .returned p) ∧
      returned (lines es) = [(.ping, 5), (.pong, 10)]

variable {maxLoop : Int32}

theorem finishes_of_ne (hne : maxLoop ≠ Int32.maxValue) : Finishes maxLoop := by
  refine ⟨fun _ _ _ => not_infinite, fun es s h u => no_overflow wellOrdered.startsOnce hne h,
    fun pre post u v s h w => wellOrdered.finished_before hne h w, fun es s h ht => ?_⟩
  have hs := invariant_run wellOrdered.startsOnce h
  have hf := no_unassigned wellOrdered.startsOnce joinedBefore h
  obtain ⟨hmain, hreturned⟩ := wellOrdered.main_eq_nil hne h ht hf
  refine ⟨hmain, fun u => ?_, hreturned⟩
  obtain ⟨p, hp⟩ := wellOrdered.returned_of_terminal hne h ht u
  exact ⟨(hs.counts_eq hne hp).1, p, hp⟩

/-- At `INT32_MAX` the loop test never fails. -/
theorem not_finishes_of_eq (hmax : maxLoop = Int32.maxValue) : ¬ Finishes maxLoop := by
  subst hmax
  intro h
  obtain ⟨es, s, hrun, ht⟩ := exists_end (initial main Int32.maxValue)
  obtain ⟨-, hthreads, -⟩ := h.complete es s hrun ht
  obtain ⟨-, p, hp⟩ := hthreads .ping
  exact (invariant_run wellOrdered.startsOnce hrun).not_returned hp

/-- The program finishes for every loop bound but `INT32_MAX`. -/
theorem finishes_iff (maxLoop : Int32) : Finishes maxLoop ↔ maxLoop ≠ Int32.maxValue := by
  constructor
  · intro h hmax
    exact not_finishes_of_eq hmax h
  · exact finishes_of_ne

theorem not_finishes : ¬ Finishes 2147483647 := not_finishes_of_eq rfl

end LinuxTutorial.PingPong.Priority
