import EntityStore.Fault
import EntityStore.Signal
import EntityStore.Tracing

/-!
# Journal

What is written to the journal, as causes. Each notice has a severity and a line of text.
-/
namespace EntityStore

inductive Severity
  | error | warn | info | debug | trace
  deriving DecidableEq, Repr

namespace Severity

/-- The most serious has rank zero. -/
def rank : Severity → Nat
  | error => 0
  | warn => 1
  | info => 2
  | debug => 3
  | trace => 4

def reaches (s threshold : Severity) : Bool := s.rank ≤ threshold.rank

def text : Severity → String
  | error => "ERROR"
  | warn => "WARN"
  | info => "INFO"
  | debug => "DEBUG"
  | trace => "TRACE"

end Severity

/-- The owner of a handle, as a message names it. -/
inductive Owner
  | entity (e : Entity)
  | name (n : String)
  deriving DecidableEq, Repr

def Owner.text : Owner → String
  | entity e => e.display
  | name n => Text.quoted n

/-- A cause for a line in the journal. -/
inductive Notice
  | reissued (index : Nat) (generation : Generation)
  /-- A value left an arena; the slot is where the last value moved to. -/
  | removed (ident : String) (slot : Nat)
  | fired (signal : Signal)
  | handleAdded (id : HandleId) (kind : Nat)
  | handleReleased (id : HandleId)
  | cannotRelease (id : HandleId) (owner : Owner) (table : String) (cause : Fault)
  | rejectedStale (entity : Entity) (table : String) (occupant : Entity)
  | evictedStale (occupant : Entity) (table : String) (entity : Entity)
  | snapshotInUse (table : String)
  | orderedFallback (locks rounds : Nat)
  | contended (lock : String) (times : Nat)
  | archetypeRegistered (id : Nat)
  | tableInstantiated (name : String)
  | sharedInstantiated (name : String)
  | systemInstantiated (name : String)
  | minted (entity : Entity) (archetype : Nat)
  | cannotRollBack (entity : Entity) (cause : Fault)
  | destroyed (entity : Entity)
  | alreadyQueued (entity : Entity)
  | skippedFreed (entity : Entity)
  | committedDestructions (count : Nat)
  | committedCreations (count : Nat)
  | systemFailed (name : String) (cause : Fault)
  | pausedAll
  | resumedAll
  | turboIgnored (on : Bool)
  | traced (severity : Severity) (event : TraceEvent)
  | tickCompleted (stats : TickStats)
  | tickFailed (cause : Fault)
  deriving DecidableEq, Repr

namespace Notice

def severity : Notice → Severity
  | systemFailed .. | tickFailed .. => .error
  | cannotRelease .. | contended .. | cannotRollBack .. => .warn
  | rejectedStale .. | evictedStale .. | archetypeRegistered .. | tableInstantiated ..
  | sharedInstantiated .. | systemInstantiated .. | skippedFreed .. | committedDestructions ..
  | committedCreations .. | pausedAll | resumedAll => .debug
  | traced severity _ => severity
  | reissued .. | removed .. | fired .. | handleAdded .. | handleReleased .. | snapshotInUse ..
  | orderedFallback .. | minted .. | destroyed .. | alreadyQueued .. | turboIgnored ..
  | tickCompleted .. => .trace

def text : Notice → String
  | reissued i g => s!"reissue cookie index {i} at generation {g.text}"
  | removed ident slot => s!"removed {ident}, next slot {slot}"
  | fired signal => s!"Fire {signal.text}"
  | handleAdded id kind => s!"Added {id.display} of HandleKind({kind})"
  | handleReleased id => s!"Released {id.display}"
  | cannotRelease id owner table cause =>
    s!"Cannot release {id.display} owned by {owner.text} in {table}: {cause.message}"
  | rejectedStale e table occupant =>
    s!"Rejecting stale {e.display} in {table}, owned by {occupant.display}"
  | evictedStale occupant table e =>
    s!"Evicting stale record of {occupant.display} from {table} for {e.display}"
  | snapshotInUse table => s!"Snapshot of {table} is in use, not replacing"
  | orderedFallback locks rounds =>
    s!"Falling back to ordered acquisition of {locks} locks after {rounds} rounds"
  | contended lock times => s!"Lock {lock} waited pathologically {times} times in a row (max _)"
  | archetypeRegistered id => s!"Registered archetype #{id}"
  | tableInstantiated name => s!"Instantiated component table {name}"
  | sharedInstantiated name => s!"Instantiated shared table {name}"
  | systemInstantiated name => s!"Instantiated system {name}"
  | minted e archetype => s!"Minted {e.display} of archetype #{archetype}"
  | cannotRollBack e cause => s!"Cannot roll back creation of {e.display}: {cause.message}"
  | destroyed e => s!"Destroyed {e.display}"
  | alreadyQueued e => s!"{e.display} is already queued for destruction"
  | skippedFreed e => s!"Skipping queued destruction of freed {e.display}"
  | committedDestructions n => s!"Committed {n} entity destructions"
  | committedCreations n => s!"Committed {n} entity creations"
  | systemFailed name cause => s!"System {name} failed: {cause.message}"
  | pausedAll => "Paused all systems"
  | resumedAll => "Resumed all systems"
  | turboIgnored on => s!"Ignoring turbo hint {on}"
  | traced _ event => event.text
  | tickCompleted stats => s!"Tick completed: {stats.text}"
  | tickFailed cause => s!"Tick failed: {cause.message}"

end Notice

end EntityStore
