import EntityStore.Text.Quoted

/-!
# Tracing a tick

The figures of one tick, and the moments of a tick that a tracer is told about.
-/
namespace EntityStore

structure TickStats where
  /-- Systems run, the failed ones among them. -/
  run : Nat := 0
  /-- Systems passed over because they were paused, not ready or subordinate. -/
  skipped : Nat := 0
  failed : Nat := 0
  destroyed : Nat := 0
  created : Nat := 0
  deriving DecidableEq, Repr, Inhabited

def TickStats.text (s : TickStats) : String :=
  Text.braced "TickStats" [
    ("systems_run", toString s.run),
    ("systems_skipped", toString s.skipped),
    ("systems_failed", toString s.failed),
    ("destroyed", toString s.destroyed),
    ("created", toString s.created)] false

inductive TraceEvent
  | startTick
  | endTick (stats : TickStats)
  | startRun (system : String)
  | endRun (system : String) (ok : Bool)
  | skip (system : String)
  | commitDestruction (count : Nat)
  | commitCreation (count : Nat)
  deriving DecidableEq, Repr

/-- The line of a moment. Elapsed times are no part of it: an underscore stands for them. -/
def TraceEvent.text : TraceEvent → String
  | startTick => "start_tick()"
  | endTick stats => s!"end_tick(_, {stats.text})"
  | startRun system => s!"start_run_system({system})"
  | endRun system ok => s!"end_run_system(_, {system}, ok = {ok})"
  | skip system => s!"skip_system({system})"
  | commitDestruction n => s!"commit_destruction({n})"
  | commitCreation n => s!"commit_creation({n})"

inductive Tap
  /-- Shows every moment under a tag. -/
  | tagged (tag : String)
  /-- Writes every moment to the journal at the usual level. -/
  | journal
  deriving DecidableEq, Repr

/-- Receivers that are told of every moment one after the other. -/
abbrev Tracer := List Tap

/-- What a tagged receiver returns when a tick or a run starts, and is given back when it
ends. -/
def TraceEvent.context? (tag : String) : TraceEvent → Option Nat
  | endTick _ => some (tag.length + 10)
  | endRun system _ => some system.utf8ByteSize
  | _ => none

end EntityStore
