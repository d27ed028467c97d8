import LinuxTutorial.SemController.Basic

/-!
# What reaches `key_pressed_global`

`verify_user_input` accepts every byte, so `ascii_read_thread` stores every byte.
-/

namespace LinuxTutorial.SemController

open Transition

variable {arg : Writer → Option Status} {s t : State} {e : Event} {es : List Event}
  {r : Option UInt8} {rs : List (Option UInt8)}

/-- The byte is `'a'`, `'d'` or a line feed. -/
def supported (r : Option UInt8) : Bool := r = some 97 || r = some 100 || r = some 10

def Event.byte? : Event → Option (Option UInt8)
  | .getchar r => some r
  | _ => none

/-- The bytes that `ascii_read_thread` has read, in order. -/
def reads (es : List Event) : List (Option UInt8) := es.filterMap Event.byte?

/-- The bytes of its completed iterations. -/
def completedReads (es : List Event) (s : State) : List (Option UInt8) :=
  match s.reader with
  | .loop => reads es
  | .store _ => (reads es).dropLast

/-- The last byte, as a `char`. -/
def lastRead (rs : List (Option UInt8)) : Int8 :=
  rs.foldl (fun _ r => toChar (getchar r)) 0

/-- The last supported byte, as a `char`. -/
def lastSupported (rs : List (Option UInt8)) : Int8 :=
  rs.foldl (fun c r => if supported r then toChar (getchar r) else c) 0

/-- What is expected after a run: the mailbox holds the last supported byte, and every other
byte took the path of `Not Supported Keyboard Entry`. -/
structure Filtered (es : List Event) (s : State) : Prop where
  mailbox : s.keyPressedGlobal = lastSupported (completedReads es s)
  rejected : ∀ r, .getchar r ∈ es → supported r = false →
    verifyUserInput (toChar (getchar r)) ≠ .goodStatus

theorem reads_append (es : List Event) (e : Event) :
    reads (es ++ [e]) = reads es ++ e.byte?.toList := by
  rw [reads, List.filterMap_append]
  cases e <;> rfl

theorem mem_reads : r ∈ reads es ↔ .getchar r ∈ es := by
  simp only [reads, List.mem_filterMap]
  constructor
  · rintro ⟨e, he, hr⟩
    cases e <;> simp [Event.byte?] at hr
    subst hr
    exact he
  · intro h
    exact ⟨_, h, rfl⟩

theorem lastRead_snoc : lastRead (rs ++ [r]) = toChar (getchar r) := by simp [lastRead]

/-- If every byte is supported, the last supported byte is the last byte. -/
theorem lastSupported_eq (h : ∀ r ∈ rs, supported r = true) : lastSupported rs = lastRead rs := by
  refine List.foldl_ext _ _ _ fun c r hr => ?_
  rw [if_pos (h r hr)]

theorem verifyUserInput_eq (c : Int8) : verifyUserInput c = .goodStatus := by
  simp [verifyUserInput]

/-- The mailbox holds the byte of the last completed iteration, and the reader holds the byte
of the one under way. -/
structure Stored (es : List Event) (s : State) : Prop where
  mailbox : s.keyPressedGlobal = lastRead (completedReads es s)
  held : ∀ c, s.reader = .store c → ∃ rs r, reads es = rs ++ [r] ∧ c = toChar (getchar r)

/-- No other thread stores into the mailbox. -/
theorem stored_frame (hs : Stored es s) (hkey : t.keyPressedGlobal = s.keyPressedGlobal)
    (hreader : t.reader = s.reader) (he : e.byte? = none) : Stored (es ++ [e]) t := by
  have hreads : reads (es ++ [e]) = reads es := by simp [reads_append, he]
  constructor
  · rw [hkey, hs.mailbox]
    simp only [completedReads, hreader, hreads]
  · rw [hreader, hreads]
    exact hs.held

theorem stored_step (h : Step s e t) (hs : Stored es s) : Stored (es ++ [e]) t := by
  cases h with
  | @getchar r h =>
    have hreads : reads (es ++ [.getchar r]) = reads es ++ [r] := reads_append es (.getchar r)
    constructor
    · have hmailbox := hs.mailbox
      simp only [completedReads, h] at hmailbox
      simp only [completedReads, verifyUserInput_eq, if_true, hreads, List.dropLast_concat]
      exact hmailbox
    · intro c hc
      obtain rfl : toChar (getchar r) = c := by simpa [verifyUserInput_eq] using hc
      exact ⟨reads es, r, hreads, rfl⟩
  | @keyStore c h =>
    obtain ⟨rs, r, hrs, rfl⟩ := hs.held c h
    have hreads : reads (es ++ [.keyStore (toChar (getchar r))]) = rs ++ [r] := by
      rw [reads_append, hrs]
      exact List.append_nil _
    constructor
    · simp only [completedReads, hreads]
      exact lastRead_snoc.symm
    · intro c hc
      simp at hc
  | @timerSample p h hm => cases p <;> exact stored_frame hs rfl rfl rfl
  | _ => exact stored_frame hs rfl rfl rfl

theorem stored_run (h : atomic.MTr (initial arg) es s) : Stored es s := by
  refine h.history ?_ ?_
  · refine ⟨rfl, fun c hc => ?_⟩
    simp [initial] at hc
  · intro es s e t hs htr
    exact stored_step (tr_iff.mp htr).2 hs

theorem mem_of_mem_completedReads (h : r ∈ completedReads es s) : .getchar r ∈ es := by
  apply mem_reads.mp
  simp only [completedReads] at h
  split at h
  · exact h
  · exact List.mem_of_mem_dropLast h

/-- The input is filtered exactly in the runs that read supported bytes only. -/
theorem filtered_iff_supported (h : atomic.MTr (initial arg) es s) :
    Filtered es s ↔ ∀ r, .getchar r ∈ es → supported r = true := by
  constructor
  · intro hf r hr
    by_contra hne
    exact hf.rejected r hr (by simpa using hne) (verifyUserInput_eq _)
  · intro hall
    constructor
    · rw [(stored_run h).mailbox]
      exact (lastSupported_eq fun r hr => hall r (mem_of_mem_completedReads hr)).symm
    · intro r hr hne
      exact absurd (hall r hr) (by simp [hne])

/-- A left key is read and stored. -/
theorem filtered_iff_supported_left :
    Filtered [.getchar (some 97), .keyStore 97] { start with keyPressedGlobal := 97 } := by
  have hrun : atomic.MTr start [.getchar (some 97), .keyStore 97]
      { start with keyPressedGlobal := 97 } :=
    LTS.mTr_of_replay [.reader (some 97), .reader none] rfl
  refine (filtered_iff_supported hrun).mpr fun r hr => ?_
  obtain rfl : r = some 97 := by simpa using hr
  rfl

/-- An `'x'` read after a left key replaces it in the mailbox. -/
theorem not_filtered : ¬ ∀ es s, atomic.MTr start es s →
    s.keyPressedGlobal = lastSupported (completedReads es s) := by
  intro hall
  have hrun : atomic.MTr start
      [.getchar (some 97), .keyStore 97, .getchar (some 120), .keyStore 120]
      { start with keyPressedGlobal := 120 } :=
    LTS.mTr_of_replay [.reader (some 97), .reader none, .reader (some 120), .reader none] rfl
  exact absurd (hall _ _ hrun) (by decide)

end LinuxTutorial.SemController
