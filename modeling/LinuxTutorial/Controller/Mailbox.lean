import LinuxTutorial.Controller.Atomic

/-!
# The key mailbox

`key_pressed_global` holds one key. A service function reads it in one step and clears it in
a later one, and nothing keeps `ascii_read_thread` out of the window in between.
-/

namespace LinuxTutorial.Controller.Atomic

open Transition

variable {s t : State} {e : Event} {es : List Event} {c : Int8}

/-- A store of a supported key into the mailbox. -/
def Event.storesKey : Event → Bool
  | .keyStore c => (keyEvent c).isSome
  | _ => false

/-- A service function returns `GO_BACK` or `GO_FORWARD`. -/
def Event.returnsTurn : Event → Bool
  | .serviceReturn _ st => st == .goBack || st == .goForward
  | _ => false

/-- The service function is between its `switch` and its clear. -/
def InWindow (s : State) : Prop := ∃ p st, s.machine = .clear p st

/-- Some service function read the key and, in the same call, returned its direction. -/
def ActedOn (c : Int8) (es : List Event) : Prop :=
  ∃ p xs zs, es = xs ++ .serviceReturn p (switchKey c) :: zs ∧
    LTS.LastIs Event.ofMachine (.serviceLoad p c) xs ∧
    (switchKey c = .goBack ∨ switchKey c = .goForward)

/-- The last key stored so far is `c`, and no service function has read it since. -/
def Unread (c : Int8) (es : List Event) : Prop :=
  ∃ xs ys, es = xs ++ .keyStore c :: ys ∧ (∀ e ∈ ys, e.storesKey = false) ∧
    ∀ p, .serviceLoad p c ∉ ys

/-- What the mailbox promises in the state `s` that the run `pre` reaches: a key stored into
the empty mailbox stays there until a service function acts on it, and the clear erases no
unread key. -/
def NoKeyLost (lts : LTS State Event) (pre : List Event) (s : State) : Prop :=
  (∀ c t post u, keyEvent s.keyPressedGlobal = none → lts.Tr s (.keyStore c) t →
    (keyEvent c).isSome → lts.MTr t post u → (∀ e ∈ post, e.storesKey = false) →
    u.keyPressedGlobal = c ∨ ActedOn c post) ∧
  (∀ p st t, lts.Tr s (.serviceReturn p st) t → (keyEvent s.keyPressedGlobal).isSome →
    ¬ Unread s.keyPressedGlobal pre)

/-- Whether a turn is still owed for a key: the key in the mailbox or, inside the window, the
key already read. -/
def owed (s : State) : ℕ :=
  match s.machine with
  | .clear _ st => (st == .goBack || st == .goForward).toNat
  | _ => (keyEvent s.keyPressedGlobal).isSome.toNat

theorem switchKey_turns (c : Int8) :
    (switchKey c == .goBack || switchKey c == .goForward) = (keyEvent c).isSome := by
  simp only [switchKey]
  cases keyEvent c with
  | none => rfl
  | some k => cases k <;> rfl

theorem owed_step (h : Step s e t) :
    e.returnsTurn.toNat + owed t ≤ owed s + e.storesKey.toNat := by
  cases h with
  | getchar h => simp [owed, Event.returnsTurn, Event.storesKey]
  | @keyStore c h =>
    cases hm : s.machine <;> simp [owed, Event.returnsTurn, Event.storesKey, hm]
  | @timerSample p h hm =>
    have hkey := (timerEventThread_known (g := s.toGlobals) (by simp [hm])).2
    simp [owed, Event.returnsTurn, Event.storesKey, hkey]
  | timerUnknow h hm => simp [owed, Event.returnsTurn, Event.storesKey]
  | timerStore h => simp [owed, Event.returnsTurn, Event.storesKey]
  | machineKnown h hm => simp [owed, Event.returnsTurn, Event.storesKey, h]
  | machineUnknow h hm => simp [owed, Event.returnsTurn, Event.storesKey, h]
  | serviceLoad h => simp [owed, Event.returnsTurn, Event.storesKey, h, switchKey_turns]
  | serviceReturn h => simp [owed, Event.returnsTurn, Event.storesKey, h]
  | machineStore h => simp [owed, Event.returnsTurn, Event.storesKey, h]

/-- No key is acted on twice, at any interleaving. -/
theorem turns_le_stores (es : List Event) (s : State) (h : atomic.MTr initial es s) :
    es.countP Event.returnsTurn ≤ es.countP Event.storesKey := by
  have hcount := h.countP_add_le Event.returnsTurn Event.storesKey owed
    fun s e t hs => owed_step (tr_iff.mp hs)
  have hinit : owed initial = 0 := by decide
  omega

/-- A key overwritten inside the window: two stores, one turn. -/
theorem turns_le_stores_overwritten :
    let es : List Event := [.machineLoad .unknow, .machineStore .cond, .getchar (some 97),
      .keyStore 97, .machineLoad .cond, .serviceLoad .cond 97, .getchar (some 100),
      .keyStore 100, .serviceReturn .cond .goBack]
    es.countP Event.returnsTurn ≤ es.countP Event.storesKey := by
  intro es
  let s : State := { initial with
    stateSingleton := .cond, keyPressedGlobal := newline, machine := .store .mv }
  have h : atomic.MTr initial es s := LTS.mTr_of_replay
    [.machine, .machine, .reader (some 97), .reader none, .machine, .machine,
      .reader (some 100), .reader none, .machine] rfl
  exact turns_le_stores es s h

/-- What `ascii_read_thread` is about to store is a supported key. -/
def ReaderHoldsKey (s : State) : Prop := ∀ c, s.reader = .store c → (keyEvent c).isSome

theorem readerHoldsKey_step (h : Step s e t) (hr : ReaderHoldsKey s) : ReaderHoldsKey t := by
  cases h with
  | @getchar r h =>
    intro c hc
    by_cases ha : accepts (toChar (LinuxTutorial.getchar r))
    · simp only [ha, if_true, ReaderPC.store.injEq] at hc
      exact hc ▸ accepts_iff.mp ha
    · simp [ha] at hc
  | keyStore h => intro c hc; simp at hc
  | timerSample h hm => exact hr
  | timerUnknow h hm => exact hr
  | timerStore h => exact hr
  | machineKnown h hm => exact hr
  | machineUnknow h hm => exact hr
  | serviceLoad h => exact hr
  | serviceReturn h => exact hr
  | machineStore h => exact hr

theorem readerHoldsKey_run (h : atomic.MTr initial es s) : ReaderHoldsKey s :=
  h.invariant (by intro c hc; cases hc) fun _ _ _ hp hs => readerHoldsKey_step (tr_iff.mp hs) hp

/-- Where a key stored outside the window can be, as long as no other key follows it. -/
inductive Fate (c : Int8) (es : List Event) (s : State) : Prop
  | waiting (hk : s.keyPressedGlobal = c) (hw : ¬ InWindow s)
  | seen {p : Probe} (hk : s.keyPressedGlobal = c) (hm : s.machine = .clear p (switchKey c))
      (hl : LTS.LastIs Event.ofMachine (.serviceLoad p c) es)
  | actedOn (ha : ActedOn c es)

theorem actedOn_snoc (h : ActedOn c es) : ActedOn c (es ++ [e]) := by
  obtain ⟨p, xs, zs, rfl, hl, ht⟩ := h
  exact ⟨p, xs, zs ++ [e], by simp, hl, ht⟩

theorem switchKey_of_isSome (h : (keyEvent c).isSome) :
    switchKey c = .goBack ∨ switchKey c = .goForward := by
  simpa [h] using switchKey_turns c

/-- A key outside the window stays in the mailbox until a service function reads it. -/
theorem fate_waiting_step (hr : ReaderHoldsKey s) (h : Step s e t) (he : e.storesKey = false)
    (hk : s.keyPressedGlobal = c) (hw : ¬ InWindow s) : Fate c (es ++ [e]) t := by
  cases h with
  | getchar h => exact .waiting hk hw
  | keyStore h => simp [Event.storesKey, hr _ h] at he
  | @timerSample p h hm =>
    have hkey := (timerEventThread_known (g := s.toGlobals) (by simp [hm])).2
    exact .waiting (hkey.trans hk) hw
  | timerUnknow h hm => exact .waiting hk hw
  | timerStore h => exact .waiting hk hw
  | machineKnown h hm => exact .waiting hk (by simp [InWindow])
  | machineUnknow h hm => exact .waiting hk (by simp [InWindow])
  | @serviceLoad p h =>
    rw [hk]
    exact .seen hk rfl (LTS.lastIs_snoc _ es)
  | serviceReturn h => exact (hw ⟨_, _, h⟩).elim
  | machineStore h => exact .waiting hk (by simp [InWindow])

/-- A key that was read is acted on by the next step of `state_machine_thread`. -/
theorem fate_seen_step {p : Probe} (hc : (keyEvent c).isSome) (hr : ReaderHoldsKey s)
    (h : Step s e t) (he : e.storesKey = false) (hk : s.keyPressedGlobal = c)
    (hm : s.machine = .clear p (switchKey c))
    (hl : LTS.LastIs Event.ofMachine (.serviceLoad p c) es) : Fate c (es ++ [e]) t := by
  cases h with
  | getchar h => exact .seen hk hm (hl.snoc rfl)
  | keyStore h => simp [Event.storesKey, hr _ h] at he
  | @timerSample q h hmode =>
    have hkey := (timerEventThread_known (g := s.toGlobals) (by simp [hmode])).2
    exact .seen (hkey.trans hk) hm (hl.snoc rfl)
  | timerUnknow h hmode => exact .seen hk hm (hl.snoc rfl)
  | timerStore h => exact .seen hk hm (hl.snoc rfl)
  | machineKnown h hmode => simp [hm] at h
  | machineUnknow h hmode => simp [hm] at h
  | serviceLoad h => simp [hm] at h
  | @serviceReturn q st h =>
    obtain ⟨rfl, rfl⟩ := MachinePC.clear.inj (hm.symm.trans h)
    exact .actedOn ⟨p, es, [], rfl, hl, switchKey_of_isSome hc⟩
  | machineStore h => simp [hm] at h

/-- One step of any thread that stores no key, from each of the three fates. -/
theorem fate_step (hc : (keyEvent c).isSome) (hr : ReaderHoldsKey s) (h : Step s e t)
    (he : e.storesKey = false) (hf : Fate c es s) : Fate c (es ++ [e]) t := by
  cases hf with
  | waiting hk hw => exact fate_waiting_step hr h he hk hw
  | seen hk hm hl => exact fate_seen_step hc hr h he hk hm hl
  | actedOn ha => exact .actedOn (actedOn_snoc ha)

/-- The fate of a key stored outside the window, along every later run without a store. -/
theorem fate_run {pre post : List Event} {u : State} (h : atomic.MTr initial pre s)
    (hs : Step s (.keyStore c) t) (hc : (keyEvent c).isSome) (hw : ¬ InWindow s)
    (hpost : atomic.MTr t post u) (hq : ∀ e ∈ post, e.storesKey = false) : Fate c post u := by
  have hreader : ReaderHoldsKey t := readerHoldsKey_step hs (readerHoldsKey_run h)
  have hstart : Fate c [] t := by
    cases hs with
    | keyStore h => exact .waiting rfl hw
  have hrun := hpost.history
    (P := fun es v => ReaderHoldsKey v ∧ ((∀ e ∈ es, e.storesKey = false) → Fate c es v))
    ⟨hreader, fun _ => hstart⟩ ?_
  · exact hrun.2 hq
  · rintro es v e w ⟨hr, hf⟩ hvw
    have hstep := tr_iff.mp hvw
    refine ⟨readerHoldsKey_step hstep hr, fun hes => ?_⟩
    exact fate_step hc hr hstep (hes e (by simp)) (hf fun f hm => hes f (by simp [hm]))

theorem Fate.kept (h : Fate c es s) : s.keyPressedGlobal = c ∨ ActedOn c es := by
  cases h with
  | waiting hk _ => exact Or.inl hk
  | seen hk _ _ => exact Or.inl hk
  | actedOn ha => exact Or.inr ha

theorem Fate.read_of_inWindow (h : Fate c es s) (hw : InWindow s) :
    ∃ p, .serviceLoad p c ∈ es := by
  cases h with
  | waiting hk hout => exact (hout hw).elim
  | @seen p hk hm hl => exact ⟨p, hl.mem⟩
  | actedOn ha =>
    obtain ⟨p, xs, zs, rfl, hl, -⟩ := ha
    exact ⟨p, List.mem_append_left _ hl.mem⟩

/-- `ascii_read_thread` stores a supported key only outside the window. -/
def StoresOutsideWindow (s : State) (e : Event) : Prop := e.storesKey = true → ¬ InWindow s

/-- As long as every key is stored outside the window, none is lost. -/
theorem noKeyLost_of_storesOutsideWindow {pre : List Event}
    (h : (atomic.restrict StoresOutsideWindow).MTr initial pre s) :
    NoKeyLost (atomic.restrict StoresOutsideWindow) pre s := by
  constructor
  · intro c t post u _ hs hc hpost hq
    exact (fate_run h.of_restrict (tr_iff.mp hs.1) hc (hs.2 hc) hpost.of_restrict hq).kept
  · rintro p st t hs hc ⟨xs, ys, rfl, hq, hunread⟩
    obtain ⟨v, hxs, hrest⟩ := LTS.mTr_append_iff.mp h
    obtain ⟨w, hstore, hys⟩ := LTS.mTr_cons_iff.mp hrest
    have hfate := fate_run hxs.of_restrict (tr_iff.mp hstore.1) hc (hstore.2 hc)
      hys.of_restrict hq
    cases tr_iff.mp hs.1 with
    | serviceReturn hm =>
      obtain ⟨q, hq⟩ := hfate.read_of_inWindow ⟨p, st, hm⟩
      exact hunread q hq

/-- A left key is about to be stored and will not be lost. -/
theorem noKeyLost_of_storesOutsideWindow_left :
    NoKeyLost (atomic.restrict StoresOutsideWindow) [.getchar (some 97)]
      { initial with reader := .store 97 } :=
  noKeyLost_of_storesOutsideWindow
    (.single ⟨⟨.reader (some 97), rfl⟩, by simp [StoresOutsideWindow, Event.storesKey]⟩)

theorem not_actedOn_return {p : Probe} {st : Status} : ¬ ActedOn c [.serviceReturn p st] := by
  rintro ⟨q, xs, zs, heq, hl, -⟩
  have hlen := congrArg List.length heq
  have hpos := List.length_pos_of_mem hl.mem
  simp at hlen
  omega

/-- The condition is exact: a key stored inside the window is gone after the next step of
`state_machine_thread`. -/
theorem kept_iff_outside_window {pre : List Event} (h : atomic.MTr initial pre s)
    (hs : atomic.Tr s (.keyStore c) t) (hc : (keyEvent c).isSome) :
    (∀ post u, atomic.MTr t post u → (∀ e ∈ post, e.storesKey = false) →
      u.keyPressedGlobal = c ∨ ActedOn c post) ↔ ¬ InWindow s := by
  constructor
  · rintro hkept ⟨p, st, hm⟩
    have hmt : t.machine = .clear p st := by
      cases tr_iff.mp hs with
      | keyStore h => exact hm
    rcases hkept _ _ (.single (tr_iff.mpr (.serviceReturn hmt))) (by simp [Event.storesKey])
      with hk | ha
    · simp [← hk] at hc
    · exact not_actedOn_return ha
  · intro hw post u hpost hq
    exact (fate_run h (tr_iff.mp hs) hc hw hpost hq).kept

/-- The order in which a key is lost: the service function has read the empty mailbox, the
key arrives, the clear erases it. -/
theorem not_noKeyLost : ¬ ∀ pre s, atomic.MTr initial pre s → NoKeyLost atomic pre s := by
  intro h
  let pre : List Event := [.machineLoad .unknow, .machineStore .cond, .machineLoad .cond,
    .serviceLoad .cond 0, .getchar (some 97)]
  let s : State := { initial with
    stateSingleton := .cond, reader := .store 97, machine := .clear .cond .stayPut }
  let t : State := { s with keyPressedGlobal := 97, reader := .loop }
  let u : State := { t with keyPressedGlobal := newline, machine := .store .cond }
  have hpre : atomic.MTr initial pre s := LTS.mTr_of_replay
    [.machine, .machine, .machine, .machine, .reader (some 97)] rfl
  have hstore : atomic.Tr s (.keyStore 97) t := ⟨.reader none, rfl⟩
  have hclear : atomic.MTr t [.serviceReturn .cond .stayPut] u := .single ⟨.machine, rfl⟩
  rcases (h pre s hpre).1 97 t _ u (by decide) hstore (by decide) hclear (by decide) with hk | ha
  · exact absurd hk (by decide)
  · exact not_actedOn_return ha

end LinuxTutorial.Controller.Atomic
