import LinuxTutorial.Counting.Loop
import Mathlib.Data.Fintype.Basic

/-!
# `ping_pong.c`

`main` calls `ping_function` and then `pong_function`. Each of them counts up to its argument and
returns a number of its own.
-/

namespace LinuxTutorial.PingPong

/-- What is called `ping` and what is called `pong` in the programs. -/
inductive Task
  | ping
  | pong
  deriving DecidableEq, Repr

instance : Fintype Task := ⟨{.ping, .pong}, fun t => by cases t <;> simp⟩

/-- The lines that the programs print. Their wording differs between the programs. -/
inductive Line
  | count (t : Task) (i : Int32)
  | finished (t : Task)
  | returns (t : Task) (v : Int32)
  deriving DecidableEq, Repr

/-- The text of `ping_function` and `pong_function`: the lines it prints and what it returns,
unless `i++` overflows. -/
def countFunction (t : Task) (value maxCountArg : Int32) : Option (List Line × Int32) :=
  let maxCount := maxCountArg
  (Counting.count maxCount 1).map fun is => (is.map (.count t) ++ [.finished t], value)

def pingFunction (maxCountArg : Int32) : Option (List Line × Int32) :=
  countFunction .ping 5 maxCountArg

def pongFunction (maxCountArg : Int32) : Option (List Line × Int32) :=
  countFunction .pong 10 maxCountArg

/-- `main` of `ping_pong.c` for any `max_loop`. -/
def sequentialMain (maxLoop : Int32) : Option (List Line) := do
  let (pingLines, pingReturn) ← pingFunction maxLoop
  let (pongLines, pongReturn) ← pongFunction maxLoop
  return pingLines ++ pongLines ++ [.returns .ping pingReturn, .returns .pong pongReturn]

def Line.count? (t : Task) : Line → Option Int32
  | .count u i => if u = t then some i else none
  | _ => none

def Line.returns? : Line → Option (Task × Int32)
  | .returns t v => some (t, v)
  | _ => none

/-- The counts that a task has printed, in order. -/
def counts (t : Task) (ls : List Line) : List Int32 := ls.filterMap (Line.count? t)

/-- The return values that `main` has printed, in order. -/
def returned (ls : List Line) : List (Task × Int32) := ls.filterMap Line.returns?

variable {maxLoop : Int32}

@[simp] theorem counts_nil (t : Task) : counts t [] = [] := rfl

@[simp] theorem returned_nil : returned [] = [] := rfl

@[simp] theorem counts_cons (t : Task) (l : Line) (ls : List Line) :
    counts t (l :: ls) = (l.count? t).toList ++ counts t ls := by
  cases h : l.count? t <;> simp [counts, h]

@[simp] theorem returned_cons (l : Line) (ls : List Line) :
    returned (l :: ls) = l.returns?.toList ++ returned ls := by
  cases h : l.returns? <;> simp [returned, h]

@[simp] theorem counts_append (t : Task) (ls ls' : List Line) :
    counts t (ls ++ ls') = counts t ls ++ counts t ls' := List.filterMap_append ..

@[simp] theorem returned_append (ls ls' : List Line) :
    returned (ls ++ ls') = returned ls ++ returned ls' := List.filterMap_append ..

@[simp] theorem counts_map_count (t u : Task) (is : List Int32) :
    counts t (is.map (.count u)) = if u = t then is else [] := by
  by_cases h : u = t <;> simp [counts, List.filterMap_map, Function.comp_def, Line.count?, h]

@[simp] theorem returned_map_count (t : Task) (is : List Int32) :
    returned (is.map (.count t)) = [] := by
  simp [returned, List.filterMap_map, Function.comp_def, Line.returns?]

/-- What `ping_pong.c` prints when `max_loop` is not `INT32_MAX`. -/
theorem sequentialMain_eq (h : maxLoop ≠ Int32.maxValue) :
    ∃ ls, sequentialMain maxLoop = some ls ∧ (∀ t, counts t ls = Counting.upTo maxLoop) ∧
      returned ls = [(.ping, 5), (.pong, 10)] := by
  refine ⟨(Counting.upTo maxLoop).map (.count .ping) ++ [.finished .ping] ++
      ((Counting.upTo maxLoop).map (.count .pong) ++ [.finished .pong]) ++
      [.returns .ping 5, .returns .pong 10], ?_, fun t => ?_, ?_⟩
  · simp [sequentialMain, pingFunction, pongFunction, countFunction, Counting.count_one h]
  · cases t <;> simp [Line.count?]
  · simp [Line.returns?]

end LinuxTutorial.PingPong
