import LinuxTutorial.Watchdog

/-!
# The four steps of `watchdog_timer`

The `main` functions of `1_watchdog_timer_basic_setup.c` to `4_watchdog_timer_timeout_handler.c` are
straight-line scripts of calls with error paths. Which calls fail is open.
-/

namespace LinuxTutorial.Watchdog.Variants

open Transition
open LinuxTutorial.Watchdog (WatchdogFd Thread)

/-- The calls of the four `main` functions. -/
inductive Call
  | openDevice
  | setTimeout (timeout : ℕ)
  | enable
  | keepalive
  | signal
  | pthreadCreate (w : Thread)
  | pthreadJoin (w : Thread)
  | close
  deriving DecidableEq, Repr

/-- What `perror` prints when the call fails, where its result is looked at. -/
def Call.message : Call → Option String
  | .openDevice => some "Failed to open watchdog device"
  | .setTimeout _ => some "Failed to set watchdog timeout"
  | .enable => some "Failed to enable watchdog"
  | .keepalive => some "Failed to reset watchdog"
  | .pthreadCreate _ => some "Failed to create threads"
  | .signal | .pthreadJoin _ | .close => none

/-- The `ioctl` requests. -/
def Call.isIoctl : Call → Bool
  | .setTimeout _ | .enable | .keepalive => true
  | .openDevice | .signal | .pthreadCreate _ | .pthreadJoin _ | .close => false

/-- A call, and whether its error path closes the descriptor before `exit`. -/
structure Statement where
  call : Call
  closes : Bool := false
  deriving DecidableEq, Repr

/-- How `main` goes on after its last statement. -/
inductive Finish
  | loop (body : Statement)
  | returns
  deriving DecidableEq, Repr

structure Program where
  statements : List Statement
  finish : Finish

/-- `1_watchdog_timer_basic_setup.c`. -/
def basicSetup : Program where
  statements := [⟨.openDevice, false⟩, ⟨.setTimeout 10, true⟩, ⟨.enable, true⟩]
  finish := .loop ⟨.keepalive, true⟩

/-- The joins, the last `close` and the `return` that end the other programs. -/
def ending : List Statement := [⟨.pthreadJoin .threadA, false⟩, ⟨.pthreadJoin .threadB, false⟩,
  ⟨.close, false⟩]

/-- `2_watchdog_timer_timeout_default.c`. -/
def timeoutDefault : Program where
  statements := [⟨.openDevice, false⟩, ⟨.pthreadCreate .threadA, false⟩,
    ⟨.pthreadCreate .threadB, false⟩] ++ ending
  finish := .returns

/-- `3_watchdog_timer_timeout_3sec.c`. -/
def timeout3sec : Program where
  statements := [⟨.openDevice, false⟩, ⟨.setTimeout 3, true⟩, ⟨.pthreadCreate .threadA, true⟩,
    ⟨.pthreadCreate .threadB, true⟩] ++ ending
  finish := .returns

/-- `4_watchdog_timer_timeout_handler.c`. -/
def timeoutHandler : Program where
  statements := [⟨.openDevice, false⟩, ⟨.setTimeout 3, true⟩, ⟨.signal, false⟩,
    ⟨.pthreadCreate .threadA, true⟩, ⟨.pthreadCreate .threadB, true⟩] ++ ending
  finish := .returns

/-- Where `main` is: before its next statement, or on an error path. -/
inductive MainPC
  | run (rest : List Statement)
  | perror (text : String) (closes : Bool)
  | close
  | exit
  deriving DecidableEq, Repr

/-- Where a thread is: not started, in its loop, or on the error path of `pat_watchdog`. -/
inductive ThreadPC
  | absent
  | loop
  | perror
  | exit
  deriving DecidableEq, Repr

structure State where
  main : MainPC
  thread : Thread → ThreadPC
  watchdogFd : WatchdogFd
  ended : Bool

def initial (p : Program) : State where
  main := .run p.statements
  thread _ := .absent
  watchdogFd := .unopened
  ended := false

/-- Which thread runs next, with the result of the call it makes. -/
inductive Action
  | main (ok : Bool)
  | thread (w : Thread) (ok : Bool)
  deriving DecidableEq, Repr

/-- The calls carry what the descriptor refers to and whether they succeed. -/
inductive Event
  | call (c : Call) (fd : WatchdogFd) (ok : Bool)
  | keepalive (w : Thread) (fd : WatchdogFd) (ok : Bool)
  | perror (text : String)
  | close
  | exit
  | returned
  deriving DecidableEq, Repr

/-- The effect of a call that succeeds. -/
def Call.effect (c : Call) (s : State) : State :=
  match c with
  | .openDevice => { s with watchdogFd := .opened }
  | .pthreadCreate w => { s with thread := Function.update s.thread w .loop }
  | .close => { s with watchdogFd := .closed }
  | .setTimeout _ | .enable | .keepalive | .signal | .pthreadJoin _ => s

/-- A call of `main`, which goes on with `rest`. The threads never return, so neither does a
join. -/
def perform (x : Statement) (rest : List Statement) (ok : Bool) (s : State) :
    Option (Event × State) :=
  match x.call with
  | .pthreadJoin _ => none
  | c =>
    match c.message with
    | none => some (.call c s.watchdogFd ok, c.effect { s with main := .run rest })
    | some text =>
      some (.call c s.watchdogFd ok,
        if ok then c.effect { s with main := .run rest }
        else { s with main := .perror text x.closes })

def mainNext (f : Finish) (ok : Bool) (s : State) : Option (Event × State) :=
  match s.main with
  | .run (x :: rest) => perform x rest ok s
  | .run [] =>
    match f with
    | .loop body => perform body [] ok s
    | .returns => some (.returned, { s with ended := true })
  | .perror text closes => some (.perror text, { s with main := if closes then .close else .exit })
  | .close => some (.close, { s with main := .exit, watchdogFd := .closed })
  | .exit => some (.exit, { s with ended := true })

/-- The loop bodies of `thread_A` and `thread_B`, with the result of the `ioctl` in
`pat_watchdog`. -/
def patWatchdog (w : Thread) (ok : Bool) (s : State) : Option (Event × State) :=
  match s.thread w with
  | .absent => none
  | .loop =>
    some (.keepalive w s.watchdogFd ok,
      { s with thread := Function.update s.thread w (if ok then .loop else .perror) })
  | .perror =>
    some (.perror "Failed to reset watchdog",
      { s with thread := Function.update s.thread w .exit })
  | .exit => some (.exit, { s with ended := true })

def next (f : Finish) (a : Action) (s : State) : Option (Event × State) :=
  if s.ended then none
  else
    match a with
    | .main ok => mainNext f ok s
    | .thread w ok => patWatchdog w ok s

/-- `main` and the threads. -/
def system (f : Finish) : LTS State Event := .ofNext (next f)

/-- What `main` performs next, and with what it goes on. -/
inductive Pending (f : Finish) : MainPC → Statement → List Statement → Prop
  | statement {x : Statement} {rest : List Statement} : Pending f (.run (x :: rest)) x rest
  | body {x : Statement} (h : f = .loop x) : Pending f (.run []) x []

/-- The steps of a process that has not ended. -/
inductive Step (f : Finish) : State → Event → State → Prop
  | call {s : State} {x : Statement} {rest : List Statement} {ok : Bool}
      (h : Pending f s.main x rest) (hjoin : ∀ w, x.call ≠ .pthreadJoin w)
      (hok : x.call.message = none ∨ ok = true) :
      Step f s (.call x.call s.watchdogFd ok) (x.call.effect { s with main := .run rest })
  | callFailed {s : State} {x : Statement} {rest : List Statement} {text : String}
      (h : Pending f s.main x rest) (htext : x.call.message = some text) :
      Step f s (.call x.call s.watchdogFd false) { s with main := .perror text x.closes }
  | returned {s : State} (h : s.main = .run []) (hf : f = .returns) :
      Step f s .returned { s with ended := true }
  | perror {s : State} {text : String} {closes : Bool} (h : s.main = .perror text closes) :
      Step f s (.perror text) { s with main := if closes then .close else .exit }
  | close {s : State} (h : s.main = .close) :
      Step f s .close { s with main := .exit, watchdogFd := .closed }
  | exit {s : State} (h : s.main = .exit) : Step f s .exit { s with ended := true }
  | keepalive {s : State} {w : Thread} (ok : Bool) (h : s.thread w = .loop) :
      Step f s (.keepalive w s.watchdogFd ok)
        { s with thread := Function.update s.thread w (if ok then .loop else .perror) }
  | threadPerror {s : State} {w : Thread} (h : s.thread w = .perror) :
      Step f s (.perror "Failed to reset watchdog")
        { s with thread := Function.update s.thread w .exit }
  | threadExit {s : State} {w : Thread} (h : s.thread w = .exit) :
      Step f s .exit { s with ended := true }

variable {f : Finish} {s t : State} {e : Event} {es : List Event} {w : Thread}
  {x : Statement} {rest : List Statement} {ok : Bool}

theorem ne_join_of_message {c : Call} {text : String} (h : c.message = some text) :
    ∀ w, c ≠ .pthreadJoin w := by
  rintro w rfl
  cases h

theorem perform_eq (hjoin : ∀ w, x.call ≠ .pthreadJoin w) :
    perform x rest ok s = match x.call.message with
      | none => some (.call x.call s.watchdogFd ok, x.call.effect { s with main := .run rest })
      | some text =>
        some (.call x.call s.watchdogFd ok,
          if ok then x.call.effect { s with main := .run rest }
          else { s with main := .perror text x.closes }) := by
  unfold perform
  cases hc : x.call with
  | pthreadJoin w => exact (hjoin w hc).elim
  | _ => rfl

theorem perform_join (h : x.call = .pthreadJoin w) : perform x rest ok s = none := by
  simp [perform, h]

theorem step_perform (hp : Pending f s.main x rest) (h : perform x rest ok s = some (e, t)) :
    Step f s e t := by
  have hjoin : ∀ w, x.call ≠ .pthreadJoin w := by
    intro w hw
    simp [perform_join hw] at h
  rw [perform_eq hjoin] at h
  cases htext : x.call.message with
  | none =>
    simp only [htext, Option.some.injEq, Prod.mk.injEq] at h
    obtain ⟨rfl, rfl⟩ := h
    exact .call hp hjoin (Or.inl htext)
  | some text =>
    simp only [htext, Option.some.injEq, Prod.mk.injEq] at h
    obtain ⟨rfl, rfl⟩ := h
    cases ok with
    | true => exact .call hp hjoin (Or.inr rfl)
    | false => exact .callFailed hp htext

theorem step_main (h : mainNext f ok s = some (e, t)) : Step f s e t := by
  unfold mainNext at h
  split at h
  · next x rest hpc => exact step_perform (by rw [hpc]; exact .statement) h
  · next hpc =>
    cases hf : f with
    | loop body =>
      rw [hf] at h
      exact step_perform (by rw [hpc]; exact .body rfl) h
    | returns =>
      simp only [hf, Option.some.injEq, Prod.mk.injEq] at h
      obtain ⟨rfl, rfl⟩ := h
      exact .returned hpc rfl
  · next text closes hpc =>
    obtain ⟨rfl, rfl⟩ := Prod.mk.inj (Option.some.inj h)
    exact .perror hpc
  · next hpc =>
    obtain ⟨rfl, rfl⟩ := Prod.mk.inj (Option.some.inj h)
    exact .close hpc
  · next hpc =>
    obtain ⟨rfl, rfl⟩ := Prod.mk.inj (Option.some.inj h)
    exact .exit hpc

theorem step_thread (h : patWatchdog w ok s = some (e, t)) : Step f s e t := by
  unfold patWatchdog at h
  split at h
  · cases h
  · next hpc =>
    obtain ⟨rfl, rfl⟩ := Prod.mk.inj (Option.some.inj h)
    exact .keepalive ok hpc
  · next hpc =>
    obtain ⟨rfl, rfl⟩ := Prod.mk.inj (Option.some.inj h)
    exact .threadPerror hpc
  · next hpc =>
    obtain ⟨rfl, rfl⟩ := Prod.mk.inj (Option.some.inj h)
    exact .threadExit hpc

theorem Pending.mainNext (h : Pending f s.main x rest) :
    mainNext f ok s = perform x rest ok s := by
  unfold Variants.mainNext
  generalize s.main = pc at h
  cases h with
  | statement => rfl
  | body hf => rw [hf]

theorem tr_iff : (system f).Tr s e t ↔ s.ended = false ∧ Step f s e t := by
  constructor
  · rintro ⟨a, h⟩
    simp only [next, Option.ite_none_left_eq_some, Bool.not_eq_true] at h
    obtain ⟨hended, h⟩ := h
    refine ⟨hended, ?_⟩
    cases a with
    | main ok => exact step_main h
    | thread w ok => exact step_thread h
  · rintro ⟨hended, h⟩
    cases h with
    | @call x rest ok h hjoin hok =>
      refine ⟨.main ok, ?_⟩
      simp only [next, hended, Bool.false_eq_true, if_false, h.mainNext, perform_eq hjoin]
      rcases hok with hok | rfl
      · simp [hok]
      · cases x.call.message <;> simp
    | @callFailed x rest text h htext =>
      refine ⟨.main false, ?_⟩
      have hjoin := ne_join_of_message htext
      simp only [next, hended, Bool.false_eq_true, if_false, h.mainNext, perform_eq hjoin, htext]
    | returned h hf => exact ⟨.main true, by simp [next, hended, Variants.mainNext, h, hf]⟩
    | perror h => exact ⟨.main true, by simp [next, hended, Variants.mainNext, h]⟩
    | close h => exact ⟨.main true, by simp [next, hended, Variants.mainNext, h]⟩
    | exit h => exact ⟨.main true, by simp [next, hended, Variants.mainNext, h]⟩
    | @keepalive w ok h => exact ⟨.thread w ok, by simp [next, hended, patWatchdog, h]⟩
    | @threadPerror w h => exact ⟨.thread w true, by simp [next, hended, patWatchdog, h]⟩
    | @threadExit w h => exact ⟨.thread w true, by simp [next, hended, patWatchdog, h]⟩

/-- The descriptor that a step passes to `ioctl`. -/
def Event.ioctlFd? : Event → Option WatchdogFd
  | .call c fd _ => if c.isIoctl then some fd else none
  | .keepalive _ fd _ => some fd
  | .perror _ | .close | .exit | .returned => none

/-- No request is made before the descriptor is open or after it is closed. -/
def OnlyOpened (es : List Event) : Prop := ∀ e ∈ es, ∀ fd, e.ioctlFd? = some fd → fd = .opened

/-- Whether a thread has been started and what the descriptor refers to after a call. -/
def Call.after (c : Call) (started : Bool) (fd : WatchdogFd) : Bool × WatchdogFd :=
  match c with
  | .openDevice => (started, .opened)
  | .pthreadCreate _ => (true, fd)
  | .close => (started, .closed)
  | .setTimeout _ | .enable | .keepalive | .signal | .pthreadJoin _ => (started, fd)

def Call.isJoin : Call → Bool
  | .pthreadJoin _ => true
  | .openDevice | .setTimeout _ | .enable | .keepalive | .signal | .pthreadCreate _ | .close =>
    false

/-- A statement makes no request on a descriptor that is not open, and leaves none to a thread:
neither by its effect nor by closing on its error path. -/
def Statement.fits (x : Statement) (started : Bool) (fd : WatchdogFd) : Bool :=
  (!x.call.isIoctl || fd = .opened) &&
    !(x.closes && x.call.message.isSome && started) &&
    (!(x.call.after started fd).1 || (x.call.after started fd).2 = .opened)

/-- Every statement fits where it stands, up to the first join. -/
def check (f : Finish) (started : Bool) (fd : WatchdogFd) : List Statement → Bool
  | [] =>
    match f with
    | .returns => true
    | .loop x =>
      x.call.isJoin || (x.fits started fd &&
        x.fits (x.call.after started fd).1 (x.call.after started fd).2)
  | x :: rest =>
    x.call.isJoin || (x.fits started fd &&
      check f (x.call.after started fd).1 (x.call.after started fd).2 rest)

variable {st : Bool} {fd : WatchdogFd} {l : List Statement}

theorem isJoin_iff {c : Call} : c.isJoin = false ↔ ∀ w, c ≠ .pthreadJoin w := by
  cases c <;> simp [Call.isJoin]

/-- Doing a call again changes nothing more. -/
theorem after_after (c : Call) (st : Bool) (fd : WatchdogFd) :
    c.after (c.after st fd).1 (c.after st fd).2 = c.after st fd := by
  cases c <;> rfl

theorem Pending.check (hp : Pending f (.run l) x rest) (hjoin : ∀ w, x.call ≠ .pthreadJoin w)
    (h : check f st fd l = true) : x.fits st fd = true ∧
      Variants.check f (x.call.after st fd).1 (x.call.after st fd).2 rest = true := by
  have hnot := isJoin_iff.mpr hjoin
  cases hp with
  | statement => simpa [Variants.check, hnot] using h
  | body hf =>
    subst hf
    simp only [Variants.check, hnot, Bool.false_or, Bool.and_eq_true] at h ⊢
    rw [after_after]
    exact ⟨h.1, h.2, h.2⟩

theorem fits_iff : x.fits st fd = true ↔
    (x.call.isIoctl = true → fd = .opened) ∧
    (x.closes = true → x.call.message ≠ none → st = false) ∧
    ((x.call.after st fd).1 = true → (x.call.after st fd).2 = .opened) := by
  simp only [Statement.fits, Bool.and_eq_true, Bool.or_eq_true, Bool.not_eq_true',
    decide_eq_true_eq, Bool.and_eq_false_iff, Option.isSome_eq_false_iff, Option.isNone_iff_eq_none]
  constructor
  · rintro ⟨⟨h1, h2⟩, h3⟩
    refine ⟨fun h => ?_, fun h h' => ?_, fun h => ?_⟩
    · simpa [h] using h1
    · simpa [h, h'] using h2
    · simpa [h] using h3
  · rintro ⟨h1, h2, h3⟩
    refine ⟨⟨?_, ?_⟩, ?_⟩
    · cases hi : x.call.isIoctl <;> simp_all
    · cases hc : x.closes <;> cases hm : x.call.message <;> simp_all
    · cases ha : (x.call.after st fd).1 <;> simp_all

/-- Some thread has been started. -/
def Started (s : State) : Prop := ∃ w, s.thread w ≠ .absent

theorem started_effect {c : Call} (hst : Started s → st = true)
    (h : Started (c.effect { s with main := .run rest })) :
    (c.after st s.watchdogFd).1 = true := by
  cases c with
  | pthreadCreate w => rfl
  | _ => exact hst h

theorem fd_effect (c : Call) (s : State) (st : Bool) (rest : List Statement) :
    (c.effect { s with main := .run rest }).watchdogFd = (c.after st s.watchdogFd).2 := by
  cases c <;> rfl

theorem main_effect (c : Call) (s : State) :
    (c.effect { s with main := .run rest }).main = .run rest := by
  cases c <;> rfl

/-- Where `main` is in a program that has been checked. -/
inductive Position (f : Finish) (s : State) : MainPC → Prop
  | run {st : Bool} {l : List Statement} (hst : Started s → st = true)
      (hfd : st = true → s.watchdogFd = .opened) (hcheck : check f st s.watchdogFd l = true) :
      Position f s (.run l)
  | perror {text : String} {closes : Bool} (hcloses : closes = true → ¬ Started s)
      (hfd : Started s → s.watchdogFd = .opened) : Position f s (.perror text closes)
  | close (h : ¬ Started s) : Position f s .close
  | exit (hfd : Started s → s.watchdogFd = .opened) : Position f s .exit

theorem Position.opened {pc : MainPC} (h : Position f s pc) (hs : Started s) :
    s.watchdogFd = .opened := by
  cases h with
  | run hst hfd _ => exact hfd (hst hs)
  | perror _ hfd => exact hfd hs
  | close h => exact (h hs).elim
  | exit hfd => exact hfd hs

/-- A step of a thread that has been started is none for the position of `main`. -/
theorem Position.of_thread {pc : MainPC} (h : Position f s pc) (hs : Started s)
    (hfd : t.watchdogFd = s.watchdogFd) : Position f t pc := by
  have hopened := hfd.trans (h.opened hs)
  cases h with
  | run hst hfd' hcheck =>
    rw [← hfd] at hcheck
    exact .run (fun _ => hst hs) (fun _ => hopened) hcheck
  | perror hcloses _ => exact .perror (fun hc => (hcloses hc hs).elim) fun _ => hopened
  | close h => exact (h hs).elim
  | exit _ => exact .exit fun _ => hopened

theorem Pending.run (h : Pending f s.main x rest) : ∃ l, s.main = .run l := by
  generalize s.main = pc at h
  cases h with
  | statement => exact ⟨_, rfl⟩
  | body _ => exact ⟨_, rfl⟩

/-- The statement that comes next fits. -/
theorem Position.fits (hs : Position f s s.main) (h : Pending f s.main x rest)
    (hjoin : ∀ w, x.call ≠ .pthreadJoin w) :
    ∃ st, (Started s → st = true) ∧ x.fits st s.watchdogFd = true ∧
      Variants.check f (x.call.after st s.watchdogFd).1 (x.call.after st s.watchdogFd).2 rest =
        true := by
  obtain ⟨l, hl⟩ := h.run
  rw [hl] at h hs
  cases hs with
  | @run st _ hst hfd hcheck => exact ⟨st, hst, h.check hjoin hcheck⟩

theorem position_step (h : Step f s e t) (hs : Position f s s.main) :
    Position f t t.main := by
  cases h with
  | @call x rest ok h hjoin hok =>
    obtain ⟨st, hst, hfits, hrest⟩ := hs.fits h hjoin
    rw [main_effect]
    rw [← fd_effect x.call s st rest] at hrest
    refine .run (fun hstarted => started_effect hst hstarted) ?_ hrest
    rw [fd_effect x.call s st rest]
    exact (fits_iff.mp hfits).2.2
  | @callFailed x rest text h htext =>
    obtain ⟨st, hst, hfits, -⟩ := hs.fits h (ne_join_of_message htext)
    refine .perror (fun hc hstarted => ?_) hs.opened
    have hno := (fits_iff.mp hfits).2.1 hc (by simp [htext])
    exact absurd (hst hstarted) (by simp [hno])
  | returned h hf =>
    rw [h] at hs ⊢
    cases hs with
    | run hst hfd hcheck => exact .run hst hfd hcheck
  | @perror text closes h =>
    rw [h] at hs
    cases hs with
    | perror hcloses hfd =>
      cases closes with
      | true => exact .close (hcloses rfl)
      | false => exact .exit hfd
  | close h =>
    rw [h] at hs
    cases hs with
    | close hno => exact .exit fun hstarted => (hno hstarted).elim
  | exit h =>
    rw [h] at hs ⊢
    cases hs with
    | exit hfd => exact .exit hfd
  | @keepalive w ok h => exact hs.of_thread ⟨w, by simp [h]⟩ rfl
  | @threadPerror w h => exact hs.of_thread ⟨w, by simp [h]⟩ rfl
  | @threadExit w h => exact hs.of_thread ⟨w, by simp [h]⟩ rfl

/-- A program that has been checked makes its requests on the open descriptor. -/
theorem ioctl_step (h : Step f s e t) (hs : Position f s s.main) (he : e.ioctlFd? = some fd) :
    fd = .opened := by
  have hcall : ∀ {x : Statement} {rest : List Statement} {ok : Bool}, Pending f s.main x rest →
      (∀ w, x.call ≠ .pthreadJoin w) → (Event.call x.call s.watchdogFd ok).ioctlFd? = some fd →
      fd = .opened := by
    intro x rest ok h hjoin he
    obtain ⟨st, -, hfits, -⟩ := hs.fits h hjoin
    simp only [Event.ioctlFd?, Option.ite_none_right_eq_some, Option.some.injEq] at he
    exact he.2 ▸ (fits_iff.mp hfits).1 he.1
  cases h with
  | call h hjoin hok => exact hcall h hjoin he
  | callFailed h htext => exact hcall h (ne_join_of_message htext) he
  | @keepalive w ok h =>
    simp only [Event.ioctlFd?, Option.some.injEq] at he
    exact he ▸ hs.opened ⟨w, by simp [h]⟩
  | returned | perror | close | exit | threadPerror | threadExit => cases he

theorem onlyOpened_of_check {p : Program}
    (hcheck : check p.finish false .unopened p.statements = true)
    (h : (system p.finish).MTr (initial p) es s) : OnlyOpened es := by
  suffices hall : OnlyOpened es ∧ Position p.finish s s.main from hall.1
  refine h.history (P := fun es s => OnlyOpened es ∧ Position p.finish s s.main) ?_ ?_
  · have hposition : Position p.finish (initial p) (.run p.statements) := by
      refine .run ?_ (by simp) hcheck
      rintro ⟨w, hw⟩
      exact (hw rfl).elim
    exact ⟨by simp [OnlyOpened], hposition⟩
  · rintro es s e t ⟨hes, hs⟩ htr
    have hstep := (tr_iff.mp htr).2
    refine ⟨?_, position_step hstep hs⟩
    intro f hf fd hfd
    rcases List.mem_append.mp hf with hf | hf
    · exact hes f hf fd hfd
    · obtain rfl := List.mem_singleton.mp hf
      exact ioctl_step hstep hs hfd

/-- Some run from the state on makes a request on a descriptor that is not open. -/
def Violates (f : Finish) (s : State) : Prop :=
  ∃ es t, (system f).MTr s es t ∧ ¬ OnlyOpened es

theorem Violates.of_event (h : (system f).Tr s e t) (he : e.ioctlFd? = some fd)
    (hfd : fd ≠ .opened) : Violates f s :=
  ⟨[e], t, .single h, fun hall => hfd (hall e (by simp) fd he)⟩

theorem Violates.of_step (h : (system f).Tr s e t) (ht : Violates f t) : Violates f s := by
  obtain ⟨es, u, hrun, hes⟩ := ht
  exact ⟨e :: es, u, .stepL h hrun, fun hall => hes fun e' he' => hall e' (by simp [he'])⟩

/-- `main` can get this far with every thread in its loop. -/
structure Ready (st : Bool) (s : State) : Prop where
  running : s.ended = false
  loop : st = true → ∃ w, s.thread w = .loop

theorem Violates.of_loop (hended : s.ended = false) (h : s.thread w = .loop)
    (hfd : s.watchdogFd ≠ .opened) : Violates f s :=
  .of_event (tr_iff.mpr ⟨hended, .keepalive true h⟩) rfl hfd

theorem ready_effect (c : Call) (rest : List Statement) (hs : Ready st s) :
    Ready (c.after st s.watchdogFd).1 (c.effect { s with main := .run rest }) := by
  obtain ⟨hended, hloop⟩ := hs
  cases c with
  | pthreadCreate w => exact ⟨hended, fun _ => ⟨w, by simp [Call.effect]⟩⟩
  | _ => exact ⟨hended, hloop⟩

/-- A statement that does not fit makes a run go wrong, by a request of its own or of a thread. -/
theorem violates_of_not_fits (h : Pending f s.main x rest) (hs : Ready st s)
    (hjoin : ∀ w, x.call ≠ .pthreadJoin w) (hfits : x.fits st s.watchdogFd = false) :
    Violates f s := by
  have hok : (system f).Tr s (.call x.call s.watchdogFd true)
      (x.call.effect { s with main := .run rest }) :=
    tr_iff.mpr ⟨hs.running, .call h hjoin (Or.inr rfl)⟩
  by_cases hioctl : x.call.isIoctl = true ∧ s.watchdogFd ≠ .opened
  · exact .of_event hok (by simp [Event.ioctlFd?, hioctl.1]) hioctl.2
  by_cases hafter : (x.call.after st s.watchdogFd).1 = true ∧
      (x.call.after st s.watchdogFd).2 ≠ .opened
  · have hready := ready_effect x.call rest hs
    obtain ⟨w, hw⟩ := hready.loop hafter.1
    refine .of_step hok (.of_loop hready.running hw ?_)
    rw [fd_effect x.call s st rest]
    exact hafter.2
  -- what is left is an error path that closes while a thread runs
  have hclose : x.closes = true ∧ x.call.message ≠ none ∧ st = true := by
    by_contra hno
    have hyes : x.fits st s.watchdogFd = true := by
      refine fits_iff.mpr ⟨?_, ?_, ?_⟩
      · intro hi
        by_contra hfd
        exact hioctl ⟨hi, hfd⟩
      · intro hc hm
        by_contra hst
        exact hno ⟨hc, hm, by simpa using hst⟩
      · intro ha
        by_contra hfd
        exact hafter ⟨ha, hfd⟩
    simp [hfits] at hyes
  obtain ⟨hcloses, hmessage, hst⟩ := hclose
  obtain ⟨text, htext⟩ := Option.ne_none_iff_exists'.mp hmessage
  obtain ⟨w, hw⟩ := hs.loop hst
  refine .of_step (tr_iff.mpr ⟨hs.running, .callFailed h htext⟩) ?_
  refine .of_step (tr_iff.mpr ⟨hs.running, .perror rfl⟩) ?_
  refine .of_step (tr_iff.mpr ⟨hs.running, .close (by simp [hcloses])⟩) ?_
  exact .of_loop hs.running hw (by simp)

theorem violates_of_check (h : check f st s.watchdogFd l = false) (hmain : s.main = .run l)
    (hs : Ready st s) : Violates f s := by
  induction l generalizing st s with
  | nil =>
    cases hf : f with
    | returns => simp [check, hf] at h
    | loop x =>
      simp only [check, hf, Bool.or_eq_false_iff, isJoin_iff] at h
      obtain ⟨hjoin, h⟩ := h
      have hpending : Pending (.loop x) s.main x [] := by
        rw [hmain]
        exact .body rfl
      cases hfits : x.fits st s.watchdogFd with
      | false => exact violates_of_not_fits hpending hs hjoin hfits
      | true =>
        -- the second round
        refine .of_step (tr_iff.mpr ⟨hs.running, .call hpending hjoin (Or.inr rfl)⟩) ?_
        have hagain : Pending (.loop x) (x.call.effect { s with main := .run [] }).main x [] := by
          rw [main_effect]
          exact .body rfl
        refine violates_of_not_fits hagain (ready_effect x.call [] hs) hjoin ?_
        rw [fd_effect x.call s st []]
        simpa [hfits] using h
  | cons x rest ih =>
    simp only [check, Bool.or_eq_false_iff, isJoin_iff] at h
    obtain ⟨hjoin, h⟩ := h
    have hpending : Pending f s.main x rest := by
      rw [hmain]
      exact .statement
    cases hfits : x.fits st s.watchdogFd with
    | false => exact violates_of_not_fits hpending hs hjoin hfits
    | true =>
      refine .of_step (tr_iff.mpr ⟨hs.running, .call hpending hjoin (Or.inr rfl)⟩) ?_
      refine ih ?_ (main_effect x.call s) (ready_effect x.call rest hs)
      rw [fd_effect x.call s st rest]
      simpa [hfits] using h

/-- The check is exact. -/
theorem check_iff (p : Program) : check p.finish false .unopened p.statements = true ↔
    ∀ es s, (system p.finish).MTr (initial p) es s → OnlyOpened es := by
  constructor
  · intro hcheck es s h
    exact onlyOpened_of_check hcheck h
  · intro hall
    by_contra hcheck
    have hfalse : check p.finish false (initial p).watchdogFd p.statements = false := by
      simpa [initial] using hcheck
    have hready : Ready false (initial p) := ⟨rfl, by simp⟩
    obtain ⟨es, s, h, hes⟩ := violates_of_check hfalse rfl hready
    exact hes (hall es s h)

/-- The files of the tutorial. -/
inductive Variant
  | basicSetup
  | timeoutDefault
  | timeout3sec
  | timeoutHandler
  deriving DecidableEq, Repr

def Variant.program : Variant → Program
  | .basicSetup => Variants.basicSetup
  | .timeoutDefault => Variants.timeoutDefault
  | .timeout3sec => Variants.timeout3sec
  | .timeoutHandler => Variants.timeoutHandler

/-- The runs of a file. -/
def Variant.Run (v : Variant) (es : List Event) (s : State) : Prop :=
  (system v.program.finish).MTr (initial v.program) es s

variable {v : Variant}

/-- The first two files make every request on the open descriptor, whatever fails. In the other two
`main` may close it under a thread. -/
theorem requests_opened_iff (v : Variant) :
    (∀ es s, v.Run es s → OnlyOpened es) ↔ v = .basicSetup ∨ v = .timeoutDefault := by
  have hcheck := check_iff v.program
  refine hcheck.symm.trans ?_
  cases v <;> decide

/-- A program starts each thread once, and joins before it returns. -/
structure Program.WellFormed (p : Program) : Prop where
  nodup : (p.statements.map Statement.call).Nodup
  join : p.finish = .returns → ∃ w, .pthreadJoin w ∈ p.statements.map Statement.call
  loop : ∀ x, p.finish = .loop x → ∀ w, x.call ≠ .pthreadCreate w

theorem wellFormed (v : Variant) : v.program.WellFormed := by
  cases v with
  | basicSetup =>
    refine ⟨by decide, ?_, ?_⟩
    · intro h
      cases h
    · rintro x hx w
      cases hx
      simp
  | timeoutDefault | timeout3sec | timeoutHandler =>
    refine ⟨by decide, fun _ => ⟨.threadA, by decide⟩, ?_⟩
    intro x hx
    cases hx

/-- What `main` has ahead of it. -/
structure Ahead (f : Finish) (s : State) : Prop where
  nodup : ∀ l, s.main = .run l → (l.map Statement.call).Nodup
  fresh : ∀ l w, s.main = .run l → .pthreadCreate w ∈ l.map Statement.call → s.thread w = .absent
  join : ∀ l, s.main = .run l → f = .returns → ∃ w, .pthreadJoin w ∈ l.map Statement.call

/-- An error path has no statements ahead. -/
theorem Ahead.of_error (h : ∀ l, s.main ≠ .run l) : Ahead f s :=
  ⟨fun l hl => (h l hl).elim, fun l _ hl => (h l hl).elim, fun l hl => (h l hl).elim⟩

/-- A thread that has been started moves. -/
theorem Ahead.of_thread (hs : Ahead f s) (hmain : t.main = s.main)
    (hthread : ∀ w, s.thread w = .absent → t.thread w = .absent) : Ahead f t := by
  refine ⟨?_, ?_, ?_⟩
  · rw [hmain]
    exact hs.nodup
  · rw [hmain]
    exact fun l w hl hw => hthread w (hs.fresh l w hl hw)
  · rw [hmain]
    exact hs.join

theorem absent_update {thread : Thread → ThreadPC} {w v : Thread} {pc : ThreadPC}
    (hw : thread w ≠ .absent) (hv : thread v = .absent) :
    Function.update thread w pc v = .absent := by
  have hvw : v ≠ w := by
    rintro rfl
    exact hw hv
  rwa [Function.update_of_ne hvw]

theorem ahead_step {p : Program} (hp : p.WellFormed) (h : Step p.finish s e t)
    (hs : Ahead p.finish s) : Ahead p.finish t := by
  cases h with
  | @call x rest ok h hjoin hok =>
    generalize hpc : s.main = pc at h
    cases h with
    | body hf =>
      have hnot := hp.loop x hf
      refine ⟨?_, ?_, ?_⟩ <;> rw [main_effect]
      · rintro l hl
        cases hl
        simp
      · rintro l w hl hw
        cases hl
        simp at hw
      · intro l _ hf'
        simp [hf] at hf'
    | statement =>
      have hnodup := hs.nodup _ hpc
      rw [List.map_cons, List.nodup_cons] at hnodup
      refine ⟨?_, ?_, ?_⟩ <;> rw [main_effect]
      · rintro l hl
        cases hl
        exact hnodup.2
      · rintro l w hl hw
        cases hl
        have habsent := hs.fresh _ w hpc (List.mem_cons_of_mem _ hw)
        cases hc : x.call with
        | pthreadCreate v =>
          have hvw : w ≠ v := by
            rintro rfl
            exact hnodup.1 (hc ▸ hw)
          simpa [Call.effect, Function.update_of_ne hvw] using habsent
        | _ => exact habsent
      · rintro l hl hf
        cases hl
        obtain ⟨w, hw⟩ := hs.join _ hpc hf
        rcases List.mem_cons.mp hw with hw | hw
        · exact (hjoin w hw.symm).elim
        · exact ⟨w, hw⟩
  | callFailed h htext => exact .of_error (by simp)
  | returned h hf => exact hs.of_thread rfl fun w hw => hw
  | @perror text closes h =>
    refine .of_error ?_
    cases closes <;> simp
  | close h => exact .of_error (by simp)
  | exit h => exact hs.of_thread rfl fun w hw => hw
  | @keepalive w ok h => exact hs.of_thread rfl fun v => absent_update (by simp [h])
  | @threadPerror w h => exact hs.of_thread rfl fun v => absent_update (by simp [h])
  | @threadExit w h => exact hs.of_thread rfl fun v hv => hv

/-- Something has been reported. -/
def Reported (es : List Event) : Prop := ∃ text, .perror text ∈ es

theorem Reported.snoc (h : Reported es) (e : Event) : Reported (es ++ [e]) := by
  obtain ⟨text, htext⟩ := h
  exact ⟨text, List.mem_append_left _ htext⟩

end LinuxTutorial.Watchdog.Variants
