import Mathlib.Data.Fintype.Basic

/-!
# Keyboard input

How a `getchar` result becomes a `char` and a `char` a key event, in each of the three
`StateMc_pThread*` controllers.
-/

namespace LinuxTutorial

/-- `Key_event_t`. -/
inductive KeyEvent
  | left
  | right
  deriving DecidableEq, Repr

/-- The value of the enumerator: `LEFT = 'a'`, `RIGHT = 'd'`. -/
def KeyEvent.char : KeyEvent → Int8
  | .left => 97
  | .right => 100

/-- The `char` literal of a line feed. -/
def newline : Int8 := 10

/-- The result of `getchar`: the byte read as an `unsigned char`, or `EOF`. -/
def getchar : Option UInt8 → Int32
  | none => -1
  | some b => b.toUInt32.toInt32

/-- Storing an `int` in a `char`, which is signed on this platform. -/
def toChar (c : Int32) : Int8 := c.toInt8

/-- The `case LEFT` and `case RIGHT` labels a `char` matches in a `switch`. -/
def keyEvent (c : Int8) : Option KeyEvent :=
  if c = KeyEvent.left.char then some .left
  else if c = KeyEvent.right.char then some .right
  else none

/-- The supported key that the user pressed, as a property of the byte read. -/
def keyByte (r : Option UInt8) : Option KeyEvent :=
  if r = some 97 then some .left else if r = some 100 then some .right else none

@[simp] theorem keyEvent_char (k : KeyEvent) : keyEvent k.char = some k := by
  cases k <;> decide

theorem keyEvent_eq_some {c : Int8} {k : KeyEvent} : keyEvent c = some k ↔ c = k.char := by
  constructor
  · intro h
    simp only [keyEvent] at h
    split at h
    · cases h; assumption
    · split at h <;> cases h; assumption
  · rintro rfl
    exact keyEvent_char k

@[simp] theorem keyEvent_newline : keyEvent newline = none := by decide

@[simp] theorem keyEvent_zero : keyEvent 0 = none := by decide

/-- Sign extension of a `char` to `uint32_t` loses nothing. -/
theorem toUInt32_inj {c d : Int8} : c.toInt32.toUInt32 = d.toInt32.toUInt32 ↔ c = d := by
  constructor
  · intro h
    have h32 : c.toInt32 = d.toInt32 := by simpa using congrArg UInt32.toInt32 h
    simpa using congrArg Int32.toInt8 h32
  · rintro rfl
    rfl

/-- A byte survives the trip through `int`: only its sign is reinterpreted. -/
theorem toChar_getchar_some (b : UInt8) : toChar (getchar (some b)) = b.toInt8 := by
  apply Int8.toBitVec_inj.mp
  simp only [toChar, getchar, Int32.toBitVec_toInt8, UInt32.toBitVec_toInt32,
    UInt8.toBitVec_toUInt32, UInt8.toBitVec_toInt8]
  generalize b.toBitVec = v
  revert v
  decide

theorem toInt8_inj {b d : UInt8} : b.toInt8 = d.toInt8 ↔ b = d := by
  constructor
  · intro h
    simpa using congrArg Int8.toUInt8 h
  · rintro rfl
    rfl

/-- The conversions between `getchar` and the `switch` neither lose a key nor invent one. -/
theorem keyEvent_toChar_getchar (r : Option UInt8) :
    keyEvent (toChar (getchar r)) = keyByte r := by
  cases r with
  | none => decide
  | some b =>
    have hl : b.toInt8 = KeyEvent.left.char ↔ b = 97 := toInt8_inj (d := 97)
    have hr : b.toInt8 = KeyEvent.right.char ↔ b = 100 := toInt8_inj (d := 100)
    simp only [toChar_getchar_some, keyEvent, keyByte, hl, hr, Option.some.injEq]

end LinuxTutorial
