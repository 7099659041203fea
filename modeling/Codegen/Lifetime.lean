/-!
# Lifetimes

The stretch of instructions during which a value is needed. A bound of `-1` is not set yet.

* `Lifetime.extend`, `Lifetime.union`: grow a lifetime over a position or another lifetime;
* `Lifetime.covers`, `Lifetime.isActive`: ask about it.
-/

namespace Codegen

/-- An interval of instruction positions. -/
structure Lifetime where
  start : Int
  stop : Int
deriving DecidableEq

namespace Lifetime

/-- The lifetime of a value that nothing uses. -/
def unused : Lifetime := ⟨-1, -1⟩

instance : Inhabited Lifetime := ⟨unused⟩

/-- Is the start set? -/
def isActive (l : Lifetime) : Bool := l.start != -1

/-- Does the position lie within the lifetime? -/
def covers (l : Lifetime) (p : Int) : Bool := l.isActive && l.start ≤ p && p ≤ l.stop

/-- The lifetime grown to a position. -/
def extend (l : Lifetime) (p : Int) : Lifetime where
  start := if l.start = -1 ∨ p < l.start then p else l.start
  stop := if l.stop = -1 ∨ l.stop < p then p else l.stop

/-- The lifetime grown to both ends of another one. -/
def union (l m : Lifetime) : Lifetime :=
  if m.isActive then (l.extend m.start).extend m.stop else l

end Lifetime

end Codegen
