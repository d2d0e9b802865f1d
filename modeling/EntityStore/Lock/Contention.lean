import EntityStore.Lock.Word

/-!
# Contention

Diagnosis of slow waits for one lock. Waits of at least a threshold are slow. Slow waits are
kept in a chain, and when enough of them came one after the other the chain is reported.
Durations are numbers of nanoseconds.
-/
namespace EntityStore.Lock

structure Watch where
  /-- The shortest slow wait. -/
  threshold : Nat := 500000
  /-- How many slow waits make a report. -/
  consecutive : Nat := 8
  /-- How many waits are kept, at least one. -/
  chain : Nat := 16
  deriving DecidableEq, Repr, Inhabited

structure Wait where
  /-- Who held the lock when the wait began, if it was known. -/
  holder : Option Thread
  nanos : Nat
  deriving DecidableEq, Repr

/-- Slow waits for one lock, the latest last. -/
structure Report where
  lock : String
  waits : List Wait
  deriving DecidableEq, Repr

structure Contention where
  /-- The slow waits since the last report, as many as are kept. -/
  chain : List Wait := []
  /-- The slow waits since the last wait that was not, or the last report. -/
  streak : Nat := 0
  deriving DecidableEq, Repr, Inhabited

/-- Adds a wait at the end of the chain; the oldest one leaves a chain that is full. -/
def Contention.keep (w : Watch) (chain : List Wait) (wait : Wait) : List Wait :=
  (if max w.chain 1 ≤ chain.length then chain.tail else chain) ++ [wait]

/-- Takes note of a wait. Gives the waits to report, if that many were slow in a row. A wait
that is not slow ends the row but does not empty the chain. -/
def Contention.record (w : Watch) (c : Contention) (wait : Wait) :
    Option (List Wait) × Contention :=
  if wait.nanos < w.threshold then (none, { c with streak := 0 })
  else
    let chain := keep w c.chain wait
    if c.streak + 1 < w.consecutive then (none, { chain, streak := c.streak + 1 })
    else (some chain, {})

end EntityStore.Lock
