import LinuxTutorial.Transition.Simulation
import LinuxTutorial.Watchdog.Variants

/-!
# The two models of the timeout handler

`watchdog_timer.c` and `4_watchdog_timer_timeout_handler.c` are one text. The model of the first
fixes which calls of `main` succeed and takes `perror` and `exit` of a thread as one step. It has
exactly the traces that the model of the second has under these two restrictions.
-/

namespace LinuxTutorial.Watchdog.Handler

open Transition
open Variants (Statement timeoutHandler ending)

/-- The calls of `main` come out as given. -/
def Agrees (o : Outcomes) : Variants.Event → Prop
  | .call .openDevice _ ok => ok = o.openDevice
  | .call (.setTimeout _) _ ok => ok = o.setTimeout
  | .call (.pthreadCreate .threadA) _ ok => ok = o.createA
  | .call (.pthreadCreate .threadB) _ ok => ok = o.createB
  | _ => True

/-- Nothing comes between `perror` and `exit` of a thread. -/
structure Within (o : Outcomes) (s : Variants.State) (e : Variants.Event) : Prop where
  outcome : Agrees o e
  prompt : ∀ w, s.thread w = .exit → e = .exit

/-- The fine model under the two restrictions. -/
def handler (o : Outcomes) : LTS Variants.State Variants.Event :=
  (Variants.system timeoutHandler.finish).restrict (Within o)

/-- Both models show the `KEEPALIVE` requests and the texts of `perror`. -/
def shown : Event → Option Event
  | .main => none
  | .keepalive w fd => some (.keepalive w fd)
  | .perror text => some (.perror text)

def handlerShown : Variants.Event → Option Event
  | .keepalive w fd _ => some (.keepalive w fd)
  | .perror text => some (.perror text)
  | .call _ _ _ | .close | .exit | .returned => none

/-- Where the two models of `main` are. A call that fails and its `perror` are one step of the
coarse one. -/
inductive MainAt (o : Outcomes) : MainPC → Variants.MainPC → Prop
  | openDevice : MainAt o .openDevice (.run timeoutHandler.statements)
  | openFailed (h : o.openDevice = false) :
      MainAt o .openDevice (.perror "Failed to open watchdog device" false)
  | setTimeout : MainAt o .setTimeout (.run (timeoutHandler.statements.drop 1))
  | setTimeoutFailed (h : o.setTimeout = false) :
      MainAt o .setTimeout (.perror "Failed to set watchdog timeout" true)
  | signal : MainAt o .signal (.run (timeoutHandler.statements.drop 2))
  | createA : MainAt o .createA (.run (timeoutHandler.statements.drop 3))
  | createAFailed (h : o.createA = false) :
      MainAt o .createA (.perror "Failed to create threads" true)
  | createB : MainAt o .createB (.run (timeoutHandler.statements.drop 4))
  | createBFailed (h : o.createB = false) :
      MainAt o .createB (.perror "Failed to create threads" true)
  | join : MainAt o .join (.run ending)
  | close : MainAt o .close .close
  | exit : MainAt o .exit .exit

/-- Where a thread is in the fine model, up to its `perror`. -/
def fine : ThreadPC → Variants.ThreadPC
  | .absent => .absent
  | .loop => .loop
  | .exit => .perror

structure Matches (o : Outcomes) (s : State) (s' : Variants.State) : Prop where
  main : MainAt o s.main s'.main
  thread : ∀ w, s'.thread w = fine (s.thread w)
  watchdogFd : s'.watchdogFd = s.watchdogFd
  ended : s'.ended = s.ended

/-- The coarse process has ended when a thread of the fine one is about to `exit`. -/
def Related (o : Outcomes) (s : State) (s' : Variants.State) : Prop :=
  Matches o s s' ∨ s.ended = true ∧ ∃ w, s'.thread w = .exit

/-- The fine model reaches a match of the state, and shows the events on the way. -/
def Reaches (o : Outcomes) (s' : Variants.State) (es : List Event) (t : State) : Prop :=
  ∃ fs t', (handler o).MTr s' fs t' ∧ fs.filterMap handlerShown = es ∧ Matches o t t'

variable {o : Outcomes} {s t : State} {s' t' : Variants.State} {e : Event} {e' : Variants.Event}
  {x : Statement} {rest : List Statement}

theorem fine_ne_exit (pc : ThreadPC) : fine pc ≠ .exit := by cases pc <;> simp [fine]

theorem fine_loop {pc : ThreadPC} (h : fine pc = .loop) : pc = .loop := by
  cases pc <;> simp_all [fine]

theorem fine_perror {pc : ThreadPC} (h : fine pc = .perror) : pc = .exit := by
  cases pc <;> simp_all [fine]

theorem tr_handler_iff : (handler o).Tr s' e' t' ↔
    (s'.ended = false ∧ Variants.Step timeoutHandler.finish s' e' t') ∧ Within o s' e' :=
  and_congr_left fun _ => Variants.tr_iff

theorem matches_initial : Matches o initial (Variants.initial timeoutHandler) :=
  ⟨.openDevice, fun _ => rfl, rfl, rfl⟩

/-- The head of the script is what the fine model performs next. -/
theorem pending_run (h : s'.main = .run (x :: rest)) :
    Variants.Pending timeoutHandler.finish s'.main x rest := by
  rw [h]
  exact .statement

theorem pending_script {f : Variants.Finish} {y : Statement} {l : List Statement}
    (h : Variants.Pending f (.run (y :: l)) x rest) : x = y ∧ rest = l := by
  cases h with
  | statement => exact ⟨rfl, rfl⟩

namespace Matches

theorem within (h : Matches o s s') (ha : Agrees o e') : Within o s' e' := by
  refine ⟨ha, fun w hw => ?_⟩
  rw [h.thread] at hw
  exact (fine_ne_exit _ hw).elim

theorem update (h : Matches o s s') (w : Thread) (pc : ThreadPC) :
    Matches o { s with thread := Function.update s.thread w pc }
      { s' with thread := Function.update s'.thread w (fine pc) } := by
  refine ⟨h.main, fun v => ?_, h.watchdogFd, h.ended⟩
  simp only [Function.update_apply]
  split
  · rfl
  · exact h.thread v

theorem exit (h : Matches o s s') : Matches o { s with ended := true } { s' with ended := true } :=
  ⟨h.main, h.thread, h.watchdogFd, rfl⟩

theorem tr (h : Matches o s s') (hended : s.ended = false)
    (hs : Variants.Step timeoutHandler.finish s' e' t') (ha : Agrees o e') :
    (handler o).Tr s' e' t' :=
  tr_handler_iff.mpr ⟨⟨h.ended.trans hended, hs⟩, h.within ha⟩

/-- A call of the script that goes through. -/
theorem call {ok : Bool} (h : Matches o s s') (hended : s.ended = false)
    (hmain : s'.main = .run (x :: rest)) (hjoin : ∀ w, x.call ≠ .pthreadJoin w)
    (hok : x.call.message = none ∨ ok = true) (ha : Agrees o (.call x.call s'.watchdogFd ok))
    (ht : Matches o t (x.call.effect { s' with main := .run rest })) : Reaches o s' [] t :=
  ⟨_, _, .single (h.tr hended (.call (pending_run hmain) hjoin hok) ha), rfl, ht⟩

/-- The error path of `main`, up to its `close` or its `exit`. -/
theorem perror {text : String} {closes : Bool} {pc : MainPC} (h : Matches o s s')
    (hended : s.ended = false) (hmain : s'.main = .perror text closes)
    (hpc : MainAt o pc (if closes then .close else .exit)) :
    Reaches o s' [.perror text] { s with main := pc } :=
  ⟨_, _, .single (h.tr hended (.perror hmain) trivial), rfl, hpc, h.thread, h.watchdogFd, h.ended⟩

/-- A call of the script that fails, with its error path. -/
theorem callFailed {text : String} {pc : MainPC} (h : Matches o s s') (hended : s.ended = false)
    (hmain : s'.main = .run (x :: rest)) (htext : x.call.message = some text)
    (ha : Agrees o (.call x.call s'.watchdogFd false))
    (hat : MainAt o s.main (.perror text x.closes))
    (hpc : MainAt o pc (if x.closes then .close else .exit)) :
    Reaches o s' [.perror text] { s with main := pc } := by
  have hfailed : Matches o s { s' with main := .perror text x.closes } :=
    ⟨hat, h.thread, h.watchdogFd, h.ended⟩
  obtain ⟨fs, t', hfs, hshown, ht⟩ := hfailed.perror hended rfl hpc
  refine ⟨_, t', .stepL (h.tr hended (.callFailed (pending_run hmain) htext) ha) hfs, ?_, ht⟩
  simpa [List.filterMap_cons, handlerShown] using hshown

/-- A call of `main` that fails, whether the fine model has made it yet or not. -/
theorem fails {text : String} {closes : Bool} {pc pc' : MainPC} (h : Matches o s s')
    (hended : s.ended = false) (hmain : s.main = pc) (hat : MainAt o pc (.perror text closes))
    (hpc : MainAt o pc' (if closes then .close else .exit)) :
    Reaches o s' [.perror text] { s with main := pc' } := by
  have hcall : ∀ {x rest}, s'.main = .run (x :: rest) → x.call.message = some text →
      x.closes = closes → Agrees o (.call x.call s'.watchdogFd false) →
      Reaches o s' [.perror text] { s with main := pc' } := by
    rintro x rest hrun htext rfl ha
    exact h.callFailed hended hrun htext ha (hmain ▸ hat) hpc
  have hfine := h.main
  rw [hmain] at hfine
  generalize hrun : s'.main = fine at hfine
  cases hat with
  | openFailed ho =>
    cases hfine with
    | openDevice => exact hcall hrun rfl rfl ho.symm
    | openFailed => exact h.perror hended hrun hpc
  | setTimeoutFailed ho =>
    cases hfine with
    | setTimeout => exact hcall hrun rfl rfl ho.symm
    | setTimeoutFailed => exact h.perror hended hrun hpc
  | createAFailed ho =>
    cases hfine with
    | createA => exact hcall hrun rfl rfl ho.symm
    | createAFailed => exact h.perror hended hrun hpc
  | createBFailed ho =>
    cases hfine with
    | createB => exact hcall hrun rfl rfl ho.symm
    | createBFailed => exact h.perror hended hrun hpc

end Matches

theorem Reaches.related {es : List Event} (h : Reaches o s' es t) :
    ∃ fs t', (handler o).MTr s' fs t' ∧ fs.filterMap handlerShown = es ∧ Related o t t' := by
  obtain ⟨fs, t', hfs, hshown, ht⟩ := h
  exact ⟨fs, t', hfs, hshown, Or.inl ht⟩

/-- Every step of the coarse model is answered by the fine one. -/
theorem simulates_handler :
    (system o).Simulates (handler o) shown handlerShown (Related o) := by
  rintro s e t s' (h | ⟨hs, -⟩) htr
  swap
  · simp [(tr_iff.mp htr).1] at hs
  obtain ⟨hended, hstep⟩ := tr_iff.mp htr
  have hmain := h.main
  generalize hpc' : s'.main = pc' at hmain
  cases hstep with
  | openDevice hpc ho =>
    rw [hpc] at hmain
    refine Reaches.related ?_
    cases hmain with
    | openFailed hfail => simp [ho] at hfail
    | openDevice =>
      exact h.call hended hpc' (by simp) (Or.inr rfl) ho.symm
        ⟨.setTimeout, h.thread, rfl, h.ended⟩
  | setTimeout hpc ho =>
    rw [hpc] at hmain
    refine Reaches.related ?_
    cases hmain with
    | setTimeoutFailed hfail => simp [ho] at hfail
    | setTimeout =>
      exact h.call hended hpc' (by simp) (Or.inr rfl) ho.symm
        ⟨.signal, h.thread, h.watchdogFd, h.ended⟩
  | signal hpc =>
    rw [hpc] at hmain
    refine Reaches.related ?_
    cases hmain with
    | signal =>
      exact h.call hended hpc' (by simp) (Or.inr rfl) trivial
        ⟨.createA, h.thread, h.watchdogFd, h.ended⟩
  | createA hpc ho =>
    rw [hpc] at hmain
    refine Reaches.related ?_
    cases hmain with
    | createAFailed hfail => simp [ho] at hfail
    | createA =>
      have hupdate := h.update .threadA .loop
      exact h.call hended hpc' (by simp) (Or.inr rfl) ho.symm
        ⟨.createB, hupdate.thread, h.watchdogFd, h.ended⟩
  | createB hpc ho =>
    rw [hpc] at hmain
    refine Reaches.related ?_
    cases hmain with
    | createBFailed hfail => simp [ho] at hfail
    | createB =>
      have hupdate := h.update .threadB .loop
      exact h.call hended hpc' (by simp) (Or.inr rfl) ho.symm
        ⟨.join, hupdate.thread, h.watchdogFd, h.ended⟩
  | openFailed hpc ho =>
    exact (h.fails hended hpc (.openFailed ho) .exit).related
  | setTimeoutFailed hpc ho =>
    exact (h.fails hended hpc (.setTimeoutFailed ho) .close).related
  | createAFailed hpc ho =>
    exact (h.fails hended hpc (.createAFailed ho) .close).related
  | createBFailed hpc ho =>
    exact (h.fails hended hpc (.createBFailed ho) .close).related
  | close hpc =>
    rw [hpc] at hmain
    cases hmain with
    | close =>
      exact ⟨_, _, .single (h.tr hended (.close hpc') trivial), rfl,
        Or.inl ⟨.exit, h.thread, rfl, h.ended⟩⟩
  | exit hpc =>
    rw [hpc] at hmain
    cases hmain with
    | exit =>
      exact ⟨_, _, .single (h.tr hended (.exit hpc') trivial), rfl, Or.inl h.exit⟩
  | @keepalive w ok hw =>
    have hw' : s'.thread w = .loop := by rw [h.thread, hw, fine]
    have hupdate := h.update w (if ok then .loop else .exit)
    refine ⟨_, _, .single (h.tr hended (.keepalive ok hw') trivial), ?_, Or.inl ?_⟩
    · simp [shown, handlerShown, h.watchdogFd]
    · cases ok <;> exact hupdate
  | @threadExit w hw =>
    have hw' : s'.thread w = .perror := by rw [h.thread, hw, fine]
    refine ⟨_, _, .single (h.tr hended (.threadPerror hw') trivial), rfl, Or.inr ⟨rfl, w, ?_⟩⟩
    simp

/-- The coarse model answers with one step. -/
theorem Matches.answer (h : Matches o s s') (hended : s'.ended = false) (hs : Step o s e t)
    (ht : Related o t t') :
    ∃ fs u, (system o).MTr s fs u ∧ fs.filterMap shown = (shown e).toList ∧ Related o u t' := by
  refine ⟨[e], t, .single (tr_iff.mpr ⟨h.ended.symm.trans hended, hs⟩), ?_, ht⟩
  cases e <;> rfl

/-- The coarse model answers a call that goes through. -/
theorem Matches.answer_call {ok : Bool} (h : Matches o s s') (hended : s'.ended = false)
    (hp : Variants.Pending timeoutHandler.finish s'.main x rest)
    (hjoin : ∀ w, x.call ≠ .pthreadJoin w) (hok : x.call.message = none ∨ ok = true)
    (ha : Agrees o (.call x.call s'.watchdogFd ok)) :
    ∃ fs u, (system o).MTr s fs u ∧ fs.filterMap shown = [] ∧
      Related o u (x.call.effect { s' with main := .run rest }) := by
  have hmain := h.main
  generalize s'.main = pc' at hp hmain
  generalize hpc : s.main = pc at hmain
  cases hmain with
  | openDevice =>
    obtain ⟨rfl, rfl⟩ := pending_script hp
    obtain rfl := hok.resolve_left (by simp [Variants.Call.message])
    exact h.answer hended (.openDevice hpc ha.symm)
      (Or.inl ⟨.setTimeout, h.thread, rfl, h.ended⟩)
  | setTimeout =>
    obtain ⟨rfl, rfl⟩ := pending_script hp
    obtain rfl := hok.resolve_left (by simp [Variants.Call.message])
    exact h.answer hended (.setTimeout hpc ha.symm)
      (Or.inl ⟨.signal, h.thread, h.watchdogFd, h.ended⟩)
  | signal =>
    obtain ⟨rfl, rfl⟩ := pending_script hp
    exact h.answer hended (.signal hpc) (Or.inl ⟨.createA, h.thread, h.watchdogFd, h.ended⟩)
  | createA =>
    obtain ⟨rfl, rfl⟩ := pending_script hp
    obtain rfl := hok.resolve_left (by simp [Variants.Call.message])
    have hupdate := h.update .threadA .loop
    exact h.answer hended (.createA hpc ha.symm)
      (Or.inl ⟨.createB, hupdate.thread, h.watchdogFd, h.ended⟩)
  | createB =>
    obtain ⟨rfl, rfl⟩ := pending_script hp
    obtain rfl := hok.resolve_left (by simp [Variants.Call.message])
    have hupdate := h.update .threadB .loop
    exact h.answer hended (.createB hpc ha.symm)
      (Or.inl ⟨.join, hupdate.thread, h.watchdogFd, h.ended⟩)
  | join =>
    obtain ⟨rfl, rfl⟩ := pending_script hp
    exact (hjoin .threadA rfl).elim
  | openFailed | setTimeoutFailed | createAFailed | createBFailed | close | exit => cases hp

/-- A call that fails is still ahead of the coarse model. -/
theorem Matches.at_failed {text : String} (h : Matches o s s')
    (hp : Variants.Pending timeoutHandler.finish s'.main x rest)
    (htext : x.call.message = some text) (ha : Agrees o (.call x.call s'.watchdogFd false)) :
    MainAt o s.main (.perror text x.closes) := by
  have hmain := h.main
  generalize s'.main = pc' at hp hmain
  generalize s.main = pc at hmain ⊢
  cases hmain with
  | openDevice =>
    obtain ⟨rfl, -⟩ := pending_script hp
    cases htext
    exact .openFailed ha.symm
  | setTimeout =>
    obtain ⟨rfl, -⟩ := pending_script hp
    cases htext
    exact .setTimeoutFailed ha.symm
  | createA =>
    obtain ⟨rfl, -⟩ := pending_script hp
    cases htext
    exact .createAFailed ha.symm
  | createB =>
    obtain ⟨rfl, -⟩ := pending_script hp
    cases htext
    exact .createBFailed ha.symm
  | signal | join =>
    obtain ⟨rfl, -⟩ := pending_script hp
    cases htext
  | openFailed | setTimeoutFailed | createAFailed | createBFailed | close | exit => cases hp

/-- The coarse model answers the `perror` of `main`. -/
theorem Matches.answer_perror {text : String} {closes : Bool} (h : Matches o s s')
    (hended : s'.ended = false) (hpc' : s'.main = .perror text closes) :
    ∃ fs u, (system o).MTr s fs u ∧ fs.filterMap shown = [.perror text] ∧
      Related o u { s' with main := if closes then .close else .exit } := by
  have hmain := h.main
  rw [hpc'] at hmain
  generalize hpc : s.main = pc at hmain
  cases hmain with
  | openFailed ho =>
    exact h.answer hended (.openFailed hpc ho) (Or.inl ⟨.exit, h.thread, h.watchdogFd, h.ended⟩)
  | setTimeoutFailed ho =>
    exact h.answer hended (.setTimeoutFailed hpc ho)
      (Or.inl ⟨.close, h.thread, h.watchdogFd, h.ended⟩)
  | createAFailed ho =>
    exact h.answer hended (.createAFailed hpc ho)
      (Or.inl ⟨.close, h.thread, h.watchdogFd, h.ended⟩)
  | createBFailed ho =>
    exact h.answer hended (.createBFailed hpc ho)
      (Or.inl ⟨.close, h.thread, h.watchdogFd, h.ended⟩)

/-- Every step of the fine model is answered by the coarse one. -/
theorem handler_simulates :
    (handler o).Simulates (system o) handlerShown shown fun s' s => Related o s s' := by
  rintro s' e' t' s hs htr
  obtain ⟨⟨hended, hstep⟩, hwithin⟩ := tr_handler_iff.mp htr
  obtain h | ⟨hs, w, hw⟩ := hs
  swap
  · obtain rfl := hwithin.prompt w hw
    cases hstep with
    | exit => exact ⟨[], s, .refl, rfl, Or.inr ⟨hs, w, hw⟩⟩
    | threadExit => exact ⟨[], s, .refl, rfl, Or.inr ⟨hs, w, hw⟩⟩
  have hmain := h.main
  generalize hpc : s.main = pc at hmain
  cases hstep with
  | call hp hjoin hok => exact h.answer_call hended hp hjoin hok hwithin.outcome
  | callFailed hp htext =>
    exact ⟨[], s, .refl, rfl,
      Or.inl ⟨h.at_failed hp htext hwithin.outcome, h.thread, h.watchdogFd, h.ended⟩⟩
  | returned hpc' =>
    rw [hpc'] at hmain
    cases hmain
  | perror hpc' => exact h.answer_perror hended hpc'
  | close hpc' =>
    rw [hpc'] at hmain
    cases hmain with
    | close =>
      exact h.answer hended (.close hpc) (Or.inl ⟨.exit, h.thread, rfl, h.ended⟩)
  | exit hpc' =>
    rw [hpc'] at hmain
    cases hmain with
    | exit => exact h.answer hended (.exit hpc) (Or.inl h.exit)
  | @keepalive w ok hw =>
    rw [h.thread] at hw
    have hupdate := h.update w (if ok then .loop else .exit)
    rw [h.watchdogFd]
    refine h.answer hended (.keepalive ok (fine_loop hw)) (Or.inl ?_)
    cases ok <;> exact ⟨h.main, hupdate.thread, rfl, h.ended⟩
  | @threadPerror w hw =>
    rw [h.thread] at hw
    exact h.answer hended (.threadExit (fine_perror hw)) (Or.inr ⟨rfl, w, by simp⟩)
  | @threadExit w hw =>
    rw [h.thread] at hw
    exact (fine_ne_exit _ hw).elim

/-- The traces of the coarse model are those of the fine one. -/
theorem traces_eq (o : Outcomes) : (system o).Traces shown initial =
    (handler o).Traces handlerShown (Variants.initial timeoutHandler) :=
  (simulates_handler.traces_subset (Or.inl matches_initial)).antisymm
    (handler_simulates.traces_subset (Or.inl matches_initial))

end LinuxTutorial.Watchdog.Handler
