import Mathlib.Data.Nat.Notation

/-!
# POSIX interval timers

A timer that is set to zero is disarmed, and one without an interval expires once. The expiry passes
on the value with which the timer was created. At most one signal of a timer is queued: an expiry
that finds one queued is an overrun.
-/

namespace Posix

universe u

/-- `struct itimerspec`. -/
structure Itimerspec where
  valueSec : ℕ
  valueNsec : ℕ
  intervalSec : ℕ
  intervalNsec : ℕ
  deriving DecidableEq, Repr

inductive Timer (Value : Type u)
  | absent
  | disarmed (value : Value)
  | armed (value : Value) (spec : Itimerspec)
  deriving DecidableEq, Repr

namespace Timer

variable {Value : Type u}

def settime (spec : Itimerspec) : Timer Value → Timer Value
  | .absent => .absent
  | .disarmed v | .armed v _ =>
    if spec.valueSec = 0 ∧ spec.valueNsec = 0 then .disarmed v else .armed v spec

/-- The value for the handler, and the timer after its expiry: an interval arms it again. -/
def expire : Timer Value → Option (Value × Timer Value)
  | .absent | .disarmed _ => none
  | .armed v spec =>
    some (v, if spec.intervalSec = 0 ∧ spec.intervalNsec = 0 then .disarmed v else .armed v spec)

end Timer

/-- A timer with its signal. -/
structure TimerSignal (Value : Type u) where
  timer : Timer Value
  queued : Bool
  deriving DecidableEq, Repr

namespace TimerSignal

variable {Value : Type u}

/-- The expiry queues a signal, or is an overrun. -/
def expire (s : TimerSignal Value) : Option (Bool × TimerSignal Value) :=
  s.timer.expire.map fun r => (!s.queued, { timer := r.2, queued := true })

def deliver (s : TimerSignal Value) : Option (TimerSignal Value) :=
  if s.queued then some { s with queued := false } else none

variable {s t : TimerSignal Value} {b : Bool} {v : Value} {spec : Itimerspec}

/-- Exactly the expiries that are no overruns queue a signal. -/
theorem expire_queued (h : s.expire = some (b, t)) :
    t.queued = true ∧ t.queued.toNat = s.queued.toNat + b.toNat := by
  obtain ⟨r, -, heq⟩ := Option.map_eq_some_iff.mp h
  obtain ⟨rfl, rfl⟩ := Prod.mk.inj heq
  cases hq : s.queued <;> simp

theorem deliver_eq_some (h : s.deliver = some t) :
    s.queued = true ∧ t = { s with queued := false } := by
  obtain ⟨hq, heq⟩ := Option.ite_none_right_eq_some.mp h
  exact ⟨hq, (Option.some.inj heq).symm⟩

/-- A timer with an interval goes on. -/
theorem expire_of_interval (h : s.timer = .armed v spec) (hi : spec.intervalSec ≠ 0) :
    s.expire = some (!s.queued, { s with queued := true }) := by
  simp [expire, Timer.expire, h, hi]

end TimerSignal

end Posix
