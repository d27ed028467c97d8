import LinuxTutorial.Keyboard
import LinuxTutorial.Transition.Fair
import Mathlib.Tactic.DeriveEncodable

/-!
# `Basic_pThread.c`

One thread echoes the keyboard until ESC is pressed, another one prints until it sees the flag
that the first one sets. `main` joins both of them.
-/

namespace LinuxTutorial.BasicThread

open Transition

/-- The ASCII code of ESC. -/
def esc : UInt8 := 27

inductive Thread
  | main
  | print
  | asciiRead
  deriving DecidableEq, Repr, Encodable

instance : Inhabited Thread := ⟨.main⟩

inductive MainPC
  | createPrint
  | createRead
  | joinPrint
  | joinRead
  | returned
  deriving DecidableEq, Repr

inductive PrintPC
  | absent
  | test
  | printing
  | finished
  | returned
  deriving DecidableEq, Repr

/-- Where `ascii_read_thread` is. `getchar` stands for the whole loop test. -/
inductive ReadPC
  | absent
  | getchar
  | echo (ch : Int8)
  | store
  | message
  | returned
  deriving DecidableEq, Repr

/-- `stdin` is what is left of the input. After it `getchar` returns `EOF` for ever. -/
structure State where
  main : MainPC
  print : PrintPC
  asciiRead : ReadPC
  ESCPressed : Int32
  stdin : List UInt8
  deriving DecidableEq, Repr

def initial (input : List UInt8) : State where
  main := .createPrint
  print := .absent
  asciiRead := .absent
  ESCPressed := 0
  stdin := input

/-- What a step does: `echo`, `escPressed`, `printing` and `finished` are the lines that the
threads print, `printTest` is the loop test of `print` and whether the loop goes on. -/
inductive Event
  | main
  | getchar (r : Option UInt8)
  | echo (c : UInt8)
  | store
  | escPressed
  | printTest (again : Bool)
  | printing
  | finished
  deriving DecidableEq, Repr

def Event.thread : Event → Thread
  | .main => .main
  | .getchar _ | .echo _ | .store | .escPressed => .asciiRead
  | .printTest _ | .printing | .finished => .print

def mainNext (s : State) : Option (Event × State) :=
  match s.main with
  | .createPrint => some (.main, { s with main := .createRead, print := .test })
  | .createRead => some (.main, { s with main := .joinPrint, asciiRead := .getchar })
  | .joinPrint =>
    if s.print = .returned then some (.main, { s with main := .joinRead }) else none
  | .joinRead =>
    if s.asciiRead = .returned then some (.main, { s with main := .returned }) else none
  | .returned => none

/-- The value that the loop test of `ascii_read_thread` assigns to `ch`. -/
def State.ch (s : State) : Int8 := toChar (LinuxTutorial.getchar s.stdin.head?)

def asciiReadThread (s : State) : Option (Event × State) :=
  match s.asciiRead with
  | .absent => none
  | .getchar =>
    some (.getchar s.stdin.head?,
      { s with
        asciiRead := if s.ch.toInt32 ≠ 27 then .echo s.ch else .store
        stdin := s.stdin.tail })
  -- `%c` prints its argument as an `unsigned char`.
  | .echo ch => some (.echo ch.toUInt8, { s with asciiRead := .getchar })
  | .store => some (.store, { s with asciiRead := .message, ESCPressed := 1 })
  | .message => some (.escPressed, { s with asciiRead := .returned })
  | .returned => none

def print (s : State) : Option (Event × State) :=
  match s.print with
  | .absent => none
  | .test =>
    if s.ESCPressed = 0 then some (.printTest true, { s with print := .printing })
    else some (.printTest false, { s with print := .finished })
  | .printing => some (.printing, { s with print := .test })
  | .finished => some (.finished, { s with print := .returned })
  | .returned => none

def next (w : Thread) (s : State) : Option (Event × State) :=
  match w with
  | .main => mainNext s
  | .print => print s
  | .asciiRead => asciiReadThread s

def system : LTS State Event := .ofNext next

inductive Step : State → Event → State → Prop
  | createPrint {s : State} (h : s.main = .createPrint) :
      Step s .main { s with main := .createRead, print := .test }
  | createRead {s : State} (h : s.main = .createRead) :
      Step s .main { s with main := .joinPrint, asciiRead := .getchar }
  | joinPrint {s : State} (h : s.main = .joinPrint) (hp : s.print = .returned) :
      Step s .main { s with main := .joinRead }
  | joinRead {s : State} (h : s.main = .joinRead) (hr : s.asciiRead = .returned) :
      Step s .main { s with main := .returned }
  | getchar {s : State} (h : s.asciiRead = .getchar) (hch : s.ch.toInt32 ≠ 27) :
      Step s (.getchar s.stdin.head?) { s with asciiRead := .echo s.ch, stdin := s.stdin.tail }
  | getcharEsc {s : State} (h : s.asciiRead = .getchar) (hch : s.ch.toInt32 = 27) :
      Step s (.getchar s.stdin.head?) { s with asciiRead := .store, stdin := s.stdin.tail }
  | echo {s : State} {ch : Int8} (h : s.asciiRead = .echo ch) :
      Step s (.echo ch.toUInt8) { s with asciiRead := .getchar }
  | store {s : State} (h : s.asciiRead = .store) :
      Step s .store { s with asciiRead := .message, ESCPressed := 1 }
  | message {s : State} (h : s.asciiRead = .message) :
      Step s .escPressed { s with asciiRead := .returned }
  | again {s : State} (h : s.print = .test) (hesc : s.ESCPressed = 0) :
      Step s (.printTest true) { s with print := .printing }
  | leave {s : State} (h : s.print = .test) (hesc : s.ESCPressed ≠ 0) :
      Step s (.printTest false) { s with print := .finished }
  | printing {s : State} (h : s.print = .printing) : Step s .printing { s with print := .test }
  | finished {s : State} (h : s.print = .finished) :
      Step s .finished { s with print := .returned }

variable {input : List UInt8} {s t : State} {e : Event} {es : List Event} {w : Thread}

theorem step_main (h : mainNext s = some (e, t)) : Step s e t := by
  cases hpc : s.main with
  | createPrint =>
    simp only [mainNext, hpc, Option.some.injEq, Prod.mk.injEq] at h
    obtain ⟨rfl, rfl⟩ := h
    exact .createPrint hpc
  | createRead =>
    simp only [mainNext, hpc, Option.some.injEq, Prod.mk.injEq] at h
    obtain ⟨rfl, rfl⟩ := h
    exact .createRead hpc
  | joinPrint =>
    simp only [mainNext, hpc, Option.ite_none_right_eq_some, Option.some.injEq,
      Prod.mk.injEq] at h
    obtain ⟨hp, rfl, rfl⟩ := h
    exact .joinPrint hpc hp
  | joinRead =>
    simp only [mainNext, hpc, Option.ite_none_right_eq_some, Option.some.injEq,
      Prod.mk.injEq] at h
    obtain ⟨hr, rfl, rfl⟩ := h
    exact .joinRead hpc hr
  | returned => simp [mainNext, hpc] at h

theorem step_asciiRead (h : asciiReadThread s = some (e, t)) : Step s e t := by
  cases hpc : s.asciiRead with
  | absent => simp [asciiReadThread, hpc] at h
  | getchar =>
    simp only [asciiReadThread, hpc, Option.some.injEq, Prod.mk.injEq] at h
    obtain ⟨rfl, rfl⟩ := h
    split
    · exact .getchar hpc ‹_›
    · exact .getcharEsc hpc (not_not.mp ‹_›)
  | echo ch =>
    simp only [asciiReadThread, hpc, Option.some.injEq, Prod.mk.injEq] at h
    obtain ⟨rfl, rfl⟩ := h
    exact .echo hpc
  | store =>
    simp only [asciiReadThread, hpc, Option.some.injEq, Prod.mk.injEq] at h
    obtain ⟨rfl, rfl⟩ := h
    exact .store hpc
  | message =>
    simp only [asciiReadThread, hpc, Option.some.injEq, Prod.mk.injEq] at h
    obtain ⟨rfl, rfl⟩ := h
    exact .message hpc
  | returned => simp [asciiReadThread, hpc] at h

theorem step_print (h : print s = some (e, t)) : Step s e t := by
  cases hpc : s.print with
  | absent => simp [print, hpc] at h
  | test =>
    simp only [print, hpc] at h
    split at h <;> obtain ⟨rfl, rfl⟩ := Prod.mk.inj (Option.some.inj h)
    · exact .again hpc ‹_›
    · exact .leave hpc ‹_›
  | printing =>
    simp only [print, hpc, Option.some.injEq, Prod.mk.injEq] at h
    obtain ⟨rfl, rfl⟩ := h
    exact .printing hpc
  | finished =>
    simp only [print, hpc, Option.some.injEq, Prod.mk.injEq] at h
    obtain ⟨rfl, rfl⟩ := h
    exact .finished hpc
  | returned => simp [print, hpc] at h

theorem tr_iff : system.Tr s e t ↔ Step s e t := by
  constructor
  · rintro ⟨w, h⟩
    cases w with
    | main => exact step_main h
    | print => exact step_print h
    | asciiRead => exact step_asciiRead h
  · intro h
    cases h with
    | createPrint h => exact ⟨.main, by simp [next, mainNext, h]⟩
    | createRead h => exact ⟨.main, by simp [next, mainNext, h]⟩
    | joinPrint h hp => exact ⟨.main, by simp [next, mainNext, h, hp]⟩
    | joinRead h hr => exact ⟨.main, by simp [next, mainNext, h, hr]⟩
    | getchar h hch => exact ⟨.asciiRead, by simp [next, asciiReadThread, h, hch]⟩
    | getcharEsc h hch => exact ⟨.asciiRead, by simp [next, asciiReadThread, h, hch]⟩
    | echo h => exact ⟨.asciiRead, by simp [next, asciiReadThread, h]⟩
    | store h => exact ⟨.asciiRead, by simp [next, asciiReadThread, h]⟩
    | message h => exact ⟨.asciiRead, by simp [next, asciiReadThread, h]⟩
    | again h hesc => exact ⟨.print, by simp [next, print, h, hesc]⟩
    | leave h hesc => exact ⟨.print, by simp [next, print, h, hesc]⟩
    | printing h => exact ⟨.print, by simp [next, print, h]⟩
    | finished h => exact ⟨.print, by simp [next, print, h]⟩

/-- The bytes that `ascii_read_thread` has echoed. -/
def Event.echo? : Event → Option UInt8
  | .echo c => some c
  | _ => none

def echoes (es : List Event) : List UInt8 := es.filterMap Event.echo?

def Event.isGetchar : Event → Bool
  | .getchar _ => true
  | _ => false

def Event.isEcho (e : Event) : Bool := e.echo?.isSome

/-- The bytes before the first ESC, all of them where there is none. -/
def beforeEsc (input : List UInt8) : List UInt8 := input.takeWhile (· ≠ esc)

/-- What is expected of the runs on an input. -/
structure Ends (input : List UInt8) : Prop where
  echoed : ∀ es s, system.MTr (initial input) es s → echoes es <+: beforeEsc input ∧
    (s.ESCPressed ≠ 0 → echoes es = beforeEsc input)
  getchars : ∃ k, ∀ es s, system.MTr (initial input) es s → es.countP Event.isGetchar ≤ k
  noTest : ∀ pre post s, system.MTr (initial input) (pre ++ .store :: post) s →
    .printTest true ∉ post
  joined : ∀ E, system.Valid E → system.Fair Event.thread E → E.state 0 = initial input →
    ∃ n, (E.state n).main = .returned ∧ (E.state n).ESCPressed ≠ 0

/-- Only the byte ESC ends the loop: the end of the input is the `char` 255. -/
theorem leaves_loop_iff (r : Option UInt8) :
    (toChar (LinuxTutorial.getchar r)).toInt32 = 27 ↔ r = some esc := by
  cases r with
  | none => decide
  | some b =>
    have hb : b.toInt8 = esc.toInt8 ↔ b = esc := toInt8_inj
    rw [toChar_getchar_some, Option.some.injEq, ← hb]
    constructor
    · intro h
      exact (Int8.toInt8_toInt32 _).symm.trans (congrArg Int32.toInt8 h)
    · intro h
      rw [h]
      rfl

@[simp] theorem echoes_snoc (es : List Event) (e : Event) :
    echoes (es ++ [e]) = echoes es ++ e.echo?.toList := by
  cases h : e.echo? <;> simp [echoes, h]

/-- Where the threads are relative to `main` and to the flag. -/
structure Placed (s : State) : Prop where
  print_absent : s.print = .absent ↔ s.main = .createPrint
  read_absent : s.asciiRead = .absent ↔ s.main = .createPrint ∨ s.main = .createRead
  pressed : s.ESCPressed = 0 ↔ s.asciiRead ≠ .message ∧ s.asciiRead ≠ .returned
  joined : s.main = .returned → s.asciiRead = .returned

theorem placed_initial (input : List UInt8) : Placed (initial input) := by
  constructor <;> simp [initial]

theorem placed_step (h : Step s e t) (hs : Placed s) : Placed t := by
  obtain ⟨hprint, hread, hpressed, hjoined⟩ := hs
  cases h <;> constructor <;> simp_all

theorem placed_run (h : system.MTr (initial input) es s) : Placed s :=
  h.invariant (placed_initial input) fun _ _ _ hs htr => placed_step (tr_iff.mp htr) hs

/-- The flag is never cleared. -/
theorem pressed_step (h : Step s e t) (hs : s.ESCPressed ≠ 0) : t.ESCPressed ≠ 0 := by
  cases h <;> simp_all

theorem noTest_run (h : system.MTr s es t) (hs : s.ESCPressed ≠ 0) : .printTest true ∉ es := by
  induction h with
  | refl => simp
  | @stepL s t u e es htr _ ih =>
    have hstep := tr_iff.mp htr
    have hne : e ≠ .printTest true := by
      rintro rfl
      cases hstep with
      | again h hesc => exact hs hesc
    exact List.not_mem_cons_of_ne_of_not_mem hne.symm (ih (pressed_step hstep hs))

/-- Whether a call of `getchar` comes before the next echo. -/
def ReadPC.ahead : ReadPC → ℕ
  | .absent | .getchar => 1
  | _ => 0

theorem ahead_step (h : Step s e t) (hs : Placed s) :
    e.isGetchar.toNat + t.asciiRead.ahead = s.asciiRead.ahead + e.isEcho.toNat := by
  cases h with
  | createRead h =>
    have hread : s.asciiRead = .absent := hs.read_absent.mpr (.inr h)
    simp [hread, ReadPC.ahead, Event.isGetchar, Event.isEcho, Event.echo?]
  | _ => simp_all [ReadPC.ahead, Event.isGetchar, Event.isEcho, Event.echo?]

/-- Each call of `getchar` but the last one is followed by an echo. -/
theorem getchars_le (h : system.MTr (initial input) es s) :
    es.countP Event.isGetchar ≤ (echoes es).length + 1 := by
  have hcount := h.countP_add_eq Event.isGetchar Event.isEcho (fun s => s.asciiRead.ahead)
    (placed_initial input) (fun _ _ _ hs htr => placed_step (tr_iff.mp htr) hs)
    (fun _ _ _ hs htr => ahead_step (tr_iff.mp htr) hs)
  have hinitial : (initial input).asciiRead.ahead = 1 := rfl
  have hechoes : (echoes es).length = es.countP Event.isEcho := by
    rw [echoes, List.length_filterMap_eq_countP]
    rfl
  omega

/-- What has been echoed and what comes before the first ESC of the rest of the input. -/
def Heard (input : List UInt8) (es : List Event) (s : State) : Prop :=
  match s.asciiRead with
  | .absent | .getchar => esc ∈ s.stdin ∧ beforeEsc input = echoes es ++ beforeEsc s.stdin
  | .echo ch =>
    esc ∈ s.stdin ∧ beforeEsc input = echoes es ++ ch.toUInt8 :: beforeEsc s.stdin
  | .store | .message | .returned => beforeEsc input = echoes es

/-- A step that is none of `ascii_read_thread`. -/
theorem heard_frame (he : e.echo? = none) (hread : t.asciiRead = s.asciiRead)
    (hstdin : t.stdin = s.stdin) (hs : Heard input es s) : Heard input (es ++ [e]) t := by
  simpa [Heard, he, hread, hstdin] using hs

/-- A byte other than ESC. -/
theorem stdin_of_ch_ne (hesc : esc ∈ s.stdin) (hch : s.ch.toInt32 ≠ 27) :
    esc ∈ s.stdin.tail ∧ beforeEsc s.stdin = s.ch.toUInt8 :: beforeEsc s.stdin.tail := by
  rw [State.ch, ne_eq, leaves_loop_iff] at hch
  cases hs : s.stdin with
  | nil => simp [hs] at hesc
  | cons b bs =>
    have hb : b ≠ esc := by simpa [hs] using hch
    have hbs : esc ∈ bs := by
      rw [hs] at hesc
      exact List.mem_of_ne_of_mem hb.symm hesc
    refine ⟨hbs, ?_⟩
    simp [State.ch, hs, toChar_getchar_some, beforeEsc, hb]

theorem beforeEsc_of_ch_eq (hch : s.ch.toInt32 = 27) : beforeEsc s.stdin = [] := by
  obtain ⟨bs, hs⟩ : ∃ bs, s.stdin = esc :: bs :=
    List.head?_eq_some_iff.mp ((leaves_loop_iff _).mp hch)
  simp [hs, beforeEsc]

theorem heard_step (h : Step s e t) (hp : Placed s) (hs : Heard input es s) :
    Heard input (es ++ [e]) t := by
  cases h with
  | createPrint | joinPrint | joinRead | again | leave | printing | finished =>
    exact heard_frame rfl rfl rfl hs
  | createRead h =>
    have hread : s.asciiRead = .absent := hp.read_absent.mpr (.inr h)
    simpa [Heard, hread, Event.echo?] using hs
  | getchar h hch =>
    simp only [Heard, h] at hs
    obtain ⟨hesc, hbefore⟩ := stdin_of_ch_ne hs.1 hch
    simp only [Heard, echoes_snoc]
    refine ⟨hesc, ?_⟩
    rw [hs.2, hbefore]
    simp [Event.echo?]
  | getcharEsc h hch =>
    simp only [Heard, h, beforeEsc_of_ch_eq hch] at hs
    simpa [Heard, Event.echo?] using hs.2
  | echo h =>
    simp only [Heard, h] at hs
    simpa [Heard, Event.echo?] using hs
  | store h => simpa [Heard, h, Event.echo?] using hs
  | message h => simpa [Heard, h, Event.echo?] using hs

theorem heard_run (hesc : esc ∈ input) (h : system.MTr (initial input) es s) :
    Heard input es s := by
  have hrun := h.history (P := fun es s => Placed s ∧ Heard input es s)
    ⟨placed_initial input, hesc, rfl⟩ fun es s e t hs htr =>
      ⟨placed_step (tr_iff.mp htr) hs.1, heard_step (tr_iff.mp htr) hs.1 hs.2⟩
  exact hrun.2

theorem Heard.echoed (hs : Heard input es s) : echoes es <+: beforeEsc input := by
  cases h : s.asciiRead <;> simp only [Heard, h] at hs
  case absent | getchar | echo => exact hs.2 ▸ List.prefix_append _ _
  case store | message | returned => exact hs ▸ List.prefix_refl _

/-- The flag is set when everything before the first ESC has been echoed. -/
theorem Heard.echoed_of_pressed (hs : Heard input es s) (hp : Placed s)
    (hesc : s.ESCPressed ≠ 0) : echoes es = beforeEsc input := by
  have hread : s.asciiRead = .message ∨ s.asciiRead = .returned := by
    by_contra hne
    exact hesc (hp.pressed.mpr (not_or.mp hne))
  rcases hread with h | h <;> simp only [Heard, h] at hs <;> exact hs.symm

def MainPC.left : MainPC → ℕ
  | .createPrint => 4
  | .createRead => 3
  | .joinPrint => 2
  | .joinRead => 1
  | .returned => 0

/-- The steps of `ascii_read_thread` when `n` bytes come before the first ESC. -/
def ReadPC.left (n : ℕ) : ReadPC → ℕ
  | .absent | .getchar => 2 * n + 3
  | .echo _ => 2 * n + 4
  | .store => 2
  | .message => 1
  | .returned => 0

def PrintPC.left : PrintPC → ℕ
  | .absent | .printing => 3
  | .test => 2
  | .finished => 1
  | .returned => 0

/-- The steps that are left. Those of `print` count from the moment the flag is set. -/
def rank (s : State) : ℕ :=
  s.main.left + s.asciiRead.left (beforeEsc s.stdin).length +
    if s.ESCPressed = 0 then 3 else s.print.left

/-- The thread that the others wait for. -/
def helper (s : State) : Thread :=
  if s.main = .createPrint ∨ s.main = .createRead then .main
  else if s.asciiRead ≠ .returned then .asciiRead
  else if s.print ≠ .returned then .print
  else .main

theorem PrintPC.left_le (pc : PrintPC) : pc.left ≤ 3 := by
  cases pc <;> decide

/-- `print` is not waited for before the flag is set. -/
theorem helper_ne_print (h : s.asciiRead ≠ .returned) : helper s ≠ .print := by
  simp only [helper, h, ne_eq, not_false_eq_true, if_true]
  split <;> decide

theorem Placed.of_unpressed (hs : Placed s) (h : s.ESCPressed = 0) : s.asciiRead ≠ .returned :=
  (hs.pressed.mp h).2

/-- A step of `print`. -/
theorem progress_print (hs : Placed s) (he : e.thread = .print) (hmain : t.main = s.main)
    (hread : t.asciiRead = s.asciiRead) (hstdin : t.stdin = s.stdin)
    (hpressed : t.ESCPressed = s.ESCPressed)
    (hleft : s.ESCPressed ≠ 0 → t.print.left < s.print.left) :
    LTS.Progress Event.thread helper rank s e t := by
  by_cases hesc : s.ESCPressed = 0
  · have hrunning := hs.of_unpressed hesc
    refine Or.inr ⟨by simp [rank, hmain, hread, hstdin, hpressed, hesc], ?_, ?_⟩
    · simp [helper, hmain, hread, hrunning]
    · rw [he]
      exact (helper_ne_print hrunning).symm
  · refine Or.inl ?_
    simpa [rank, hmain, hread, hstdin, hpressed, hesc] using hleft hesc

theorem progress (hp : Placed s) (hs : Heard input es s) (h : Step s e t) :
    LTS.Progress Event.thread helper rank s e t := by
  cases h with
  | createPrint h =>
    have hread : s.asciiRead = .absent := hp.read_absent.mpr (.inl h)
    have hpressed : s.ESCPressed = 0 := hp.pressed.mpr (by simp [hread])
    exact Or.inl (by simp [rank, h, hpressed, MainPC.left])
  | createRead h =>
    have hread : s.asciiRead = .absent := hp.read_absent.mpr (.inr h)
    exact Or.inl (by simp [rank, h, hread, MainPC.left, ReadPC.left])
  | joinPrint h hp => exact Or.inl (by simp [rank, h, MainPC.left])
  | joinRead h hr => exact Or.inl (by simp [rank, h, MainPC.left])
  | getchar h hch =>
    simp only [Heard, h] at hs
    obtain ⟨-, hbefore⟩ := stdin_of_ch_ne hs.1 hch
    refine Or.inl ?_
    simp only [rank, h, hbefore, ReadPC.left, List.length_cons]
    omega
  | getcharEsc h hch =>
    refine Or.inl ?_
    simp only [rank, h, ReadPC.left]
    omega
  | echo h =>
    refine Or.inl ?_
    simp only [rank, h, ReadPC.left]
    omega
  | store h =>
    have hpressed : s.ESCPressed = 0 := hp.pressed.mpr (by simp [h])
    have hprint := s.print.left_le
    have hset : (1 : Int32) ≠ 0 := by decide
    refine Or.inl ?_
    simp only [rank, h, hpressed, ReadPC.left, reduceIte, if_neg hset]
    omega
  | message h =>
    refine Or.inl ?_
    simp only [rank, h, ReadPC.left]
    omega
  | again h hesc => exact progress_print hp rfl rfl rfl rfl rfl (fun hne => (hne hesc).elim)
  | leave h | printing h | finished h =>
    exact progress_print hp rfl rfl rfl rfl rfl (by simp [h, PrintPC.left])

/-- The thread that the others wait for is never blocked itself. -/
theorem enabled_helper (hs : Placed s) (hmain : s.main ≠ .returned) :
    system.Enabled Event.thread (helper s) s := by
  simp only [helper]
  split
  · rename_i h
    rcases h with h | h
    · exact ⟨_, _, tr_iff.mpr (.createPrint h), rfl⟩
    · exact ⟨_, _, tr_iff.mpr (.createRead h), rfl⟩
  · rename_i hcreated
    split
    · cases h : s.asciiRead with
      | absent => exact (hcreated (hs.read_absent.mp h)).elim
      | getchar =>
        by_cases hch : s.ch.toInt32 = 27
        · exact ⟨_, _, tr_iff.mpr (.getcharEsc h hch), rfl⟩
        · exact ⟨_, _, tr_iff.mpr (.getchar h hch), rfl⟩
      | echo ch => exact ⟨_, _, tr_iff.mpr (.echo h), rfl⟩
      | store => exact ⟨_, _, tr_iff.mpr (.store h), rfl⟩
      | message => exact ⟨_, _, tr_iff.mpr (.message h), rfl⟩
      | returned => exact absurd h ‹_›
    · rename_i hread
      rw [not_not] at hread
      split
      · cases h : s.print with
        | absent => exact (hcreated (Or.inl (hs.print_absent.mp h))).elim
        | test =>
          by_cases hesc : s.ESCPressed = 0
          · exact ⟨_, _, tr_iff.mpr (.again h hesc), rfl⟩
          · exact ⟨_, _, tr_iff.mpr (.leave h hesc), rfl⟩
        | printing => exact ⟨_, _, tr_iff.mpr (.printing h), rfl⟩
        | finished => exact ⟨_, _, tr_iff.mpr (.finished h), rfl⟩
        | returned => exact absurd h ‹_›
      · rename_i hprint
        rw [not_not] at hprint
        cases h : s.main with
        | createPrint => exact (hcreated (Or.inl h)).elim
        | createRead => exact (hcreated (Or.inr h)).elim
        | joinPrint => exact ⟨_, _, tr_iff.mpr (.joinPrint h hprint), rfl⟩
        | joinRead => exact ⟨_, _, tr_iff.mpr (.joinRead h hread), rfl⟩
        | returned => exact (hmain h).elim

theorem Placed.pressed_of_returned (hs : Placed s) (hmain : s.main = .returned) :
    s.ESCPressed ≠ 0 := fun h => hs.of_unpressed h (hs.joined hmain)

/-- With an ESC in the input every fair execution comes to the end of `main`. -/
theorem joined_of_mem (hesc : esc ∈ input) {E : Execution State Event} (h : system.Valid E)
    (hf : system.Fair Event.thread E) (hinitial : E.state 0 = initial input) :
    ∃ n, (E.state n).main = .returned ∧ (E.state n).ESCPressed ≠ 0 := by
  have hrun : ∀ n, system.MTr (initial input) (LTS.history E n) (E.state n) := by
    intro n
    rw [← hinitial]
    exact h.mTr n
  obtain ⟨n, hn⟩ := LTS.Fair.eventually (fun s => Placed s ∧ ∃ es, Heard input es s)
    (fun s => s.main = .returned) hf h
    (fun n => ⟨placed_run (hrun n), _, heard_run hesc (hrun n)⟩)
    (fun s hs hmain => enabled_helper hs.1 hmain)
    (fun s e t hs _ htr => by
      obtain ⟨hp, es, hheard⟩ := hs
      exact progress hp hheard (tr_iff.mp htr))
  exact ⟨n, hn, (placed_run (hrun n)).pressed_of_returned hn⟩

/-- Without an ESC in the rest of the input `ascii_read_thread` is in its loop for good. -/
def Unheard (s : State) : Prop :=
  esc ∉ s.stdin ∧
    match s.asciiRead with
    | .absent | .getchar | .echo _ => True
    | .store | .message | .returned => False

theorem unheard_step (h : Step s e t) (hs : Unheard s) : Unheard t := by
  obtain ⟨hesc, hread⟩ := hs
  cases h with
  | getchar h hch => exact ⟨fun hmem => hesc (List.mem_of_mem_tail hmem), trivial⟩
  | getcharEsc h hch =>
    exact (hesc (List.mem_of_head? ((leaves_loop_iff _).mp hch))).elim
  | createRead h => exact ⟨hesc, trivial⟩
  | echo h => exact ⟨hesc, trivial⟩
  | store h => simp [h] at hread
  | message h => simp [h] at hread
  | _ => exact ⟨hesc, hread⟩

theorem event_thread (w : Thread) (s : State) (e : Event) (t : State)
    (h : next w s = some (e, t)) : e.thread = w := by
  cases w with
  | main =>
    simp only [next, mainNext] at h
    grind [Event.thread]
  | print =>
    simp only [next, print] at h
    grind [Event.thread]
  | asciiRead =>
    simp only [next, asciiReadThread] at h
    grind [Event.thread]

/-- Without an ESC in the input no execution comes to the end of `main`. -/
theorem not_ends_of_not_mem (hesc : esc ∉ input) : ¬ Ends input := by
  intro h
  let E : Execution State Event := LTS.scheduled next LTS.everyActor (initial input)
  have hvalid : system.Valid E := LTS.valid_scheduled _ _
  have hfair : system.Fair Event.thread E :=
    LTS.fair_scheduled _ event_thread LTS.everyActor_recurs
  obtain ⟨n, hmain, -⟩ := h.joined E hvalid hfair rfl
  have hrun : system.MTr (initial input) (LTS.history E n) (E.state n) := hvalid.mTr n
  have hunheard : Unheard (E.state n) :=
    hrun.invariant ⟨hesc, trivial⟩ fun _ _ _ hs htr => unheard_step (tr_iff.mp htr) hs
  have hread := hunheard.2
  rw [(placed_run hrun).joined hmain] at hread
  exact hread

theorem noTest (pre post : List Event)
    (h : system.MTr (initial input) (pre ++ .store :: post) s) : .printTest true ∉ post := by
  obtain ⟨t, -, hpost⟩ := LTS.mTr_append_iff.mp h
  obtain ⟨u, hstore, hu⟩ := LTS.mTr_cons_iff.mp hpost
  cases tr_iff.mp hstore with
  | store h =>
    have hset : (1 : Int32) ≠ 0 := by decide
    exact noTest_run hu hset

/-- The program ends on exactly the inputs that contain an ESC. -/
theorem ends_iff (input : List UInt8) : Ends input ↔ esc ∈ input := by
  constructor
  · intro h
    by_contra hesc
    exact not_ends_of_not_mem hesc h
  · intro hesc
    refine ⟨fun es s h => ?_, ⟨(beforeEsc input).length + 1, fun es s h => ?_⟩,
      fun pre post s h => noTest pre post h, fun E h hf hi => joined_of_mem hesc h hf hi⟩
    · have hheard := heard_run hesc h
      exact ⟨hheard.echoed, hheard.echoed_of_pressed (placed_run h)⟩
    · have hcount := getchars_le h
      have hlength := (heard_run hesc h).echoed.length_le
      omega

/-- On the input `ab` the program goes on for ever. -/
theorem not_ends : ¬ Ends [97, 98] := not_ends_of_not_mem (by decide)

end LinuxTutorial.BasicThread
