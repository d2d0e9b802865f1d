/-!
# The word of a lock

A lock is a word of two bits and a queue. Threads race for the word by single exchanges, each
of which may also fail for no reason; a thread that finds the word held spins for a while, sets
the second bit, and joins the queue. Whoever clears a word with the second bit set wakes the
thread that has waited longest.

A call is a walk through phases, one access to the word at a time (`Gate.step`). Run without
interruption it ends, or it leaves the thread asleep (`Gate.settle`).
-/
namespace EntityStore

abbrev Thread := Nat

namespace Lock

/-- The bits that threads race for. -/
structure Word where
  held : Bool := false
  /-- Whether threads may be waiting in the queue. -/
  parked : Bool := false
  deriving DecidableEq, Repr

inductive Phase
  /-- Take the word if it is clear. -/
  | enter
  /-- Read the word, having spun a number of times. -/
  | look (spins : Nat)
  /-- Hold the word, seen not held. -/
  | claim (spins : Nat) (seen : Word)
  /-- Announce a waiting thread on the word seen held. -/
  | flag (spins : Nat) (seen : Word)
  /-- Join the queue, if the word is still held and flagged. -/
  | park
  /-- Sleep until woken. -/
  | asleep
  /-- Read the word without the intention to wait. -/
  | peek
  /-- Hold the word, seen not held, without the intention to wait. -/
  | grab (seen : Word)
  /-- Clear a word that is held and nothing else. -/
  | leave
  /-- Clear the word and wake the first thread of the queue. -/
  | wake
  deriving DecidableEq, Repr

inductive Turn
  | goOn (next : Phase)
  | finish (success : Bool)
  deriving DecidableEq, Repr

structure Gate where
  word : Word := {}
  /-- The threads asleep, the one that waits longest first. -/
  queue : List Thread := []
  deriving DecidableEq, Repr

def Phase.onSight (limit spins : Nat) (seen : Word) : Phase :=
  if !seen.held then .claim spins seen
  else if seen.parked then .park
  else if spins < limit then .look (spins + 1)
  else .flag spins seen

namespace Gate

/-- One step of a thread. An exchange fails if the word is not the one expected, and may fail
otherwise (`fails`), except when the lock is left. -/
def step (limit : Nat) (me : Thread) (fails : Bool) (g : Gate) : Phase → Turn × Gate
  | .enter =>
    if g.word = {} ∧ fails = false then (.finish true, { g with word := { held := true } })
    else (.goOn (.look 0), g)
  | .look spins => (.goOn (.onSight limit spins g.word), g)
  | .claim spins seen =>
    if g.word = seen ∧ fails = false then
      (.finish true, { g with word := { seen with held := true } })
    else (.goOn (.onSight limit spins g.word), g)
  | .flag spins seen =>
    if g.word = seen ∧ fails = false then
      (.goOn .park, { g with word := { seen with parked := true } })
    else (.goOn (.onSight limit spins g.word), g)
  | .park =>
    if g.word = { held := true, parked := true } then
      (.goOn .asleep, { g with queue := g.queue ++ [me] })
    else (.goOn (.look 0), g)
  | .asleep => if me ∈ g.queue then (.goOn .asleep, g) else (.goOn (.look 0), g)
  | .peek => if g.word.held then (.finish false, g) else (.goOn (.grab g.word), g)
  | .grab seen =>
    if g.word = seen ∧ fails = false then
      (.finish true, { g with word := { seen with held := true } })
    else if g.word.held then (.finish false, g)
    else (.goOn (.grab g.word), g)
  | .leave =>
    if g.word = { held := true } then (.finish true, { g with word := {} })
    else (.goOn .wake, g)
  | .wake =>
    (.finish true, { word := { parked := !g.queue.tail.isEmpty }, queue := g.queue.tail })

/-- Runs a thread alone and without failures of no reason, for at most a number of steps, until
its call ends or it sleeps in the queue. -/
def settle (limit : Nat) (me : Thread) : (steps : Nat) → Phase → Gate → Option Bool × Gate
  | 0, _, g => (none, g)
  | steps + 1, phase, g =>
    match g.step limit me false phase with
    | (.finish success, g) => (some success, g)
    | (.goOn .asleep, g) => (none, g)
    | (.goOn phase, g) => settle limit me steps phase g

/-- A thread that runs alone never needs more steps than this: it spins up to the limit, and
the other phases are passed a bounded number of times. -/
def enough (limit : Nat) : Nat := limit + 8

end Gate

end Lock

end EntityStore
