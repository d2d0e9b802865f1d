import EntityStore.Catalog
import EntityStore.Lock.Contention
import EntityStore.Lock.Group
import EntityStore.Text.Duration
import EntityStore.World.Script

/-!
# The state of a world

Entities and their bookkeeping, the tables, the systems, the observers, and what has happened.
-/
namespace EntityStore

structure Settings where
  /-- The number of threads of the workforce, if no other workforce is given. -/
  concurrency : Nat := 0
  workforce : Option Workforce := none
  /-- The time between two ticks of a ticker, in nanoseconds. -/
  tickPeriod : Nat := 16000000
  /-- Up to how many systems are run by the caller alone. -/
  inlineThreshold : Nat := 1
  /-- Whether pausing and resuming the systems is hinted to the host. -/
  turboOnPause : Bool := false
  /-- Whether the host listens to the hint. -/
  hostListens : Bool := false
  watch : Option Lock.Watch := none
  spinLimit : Nat := 64
  /-- The first reading of the clock, in milliseconds. -/
  clockStart : Nat := 0
  /-- How much the clock advances between two readings. -/
  clockStep : Nat := 0

def Settings.crew (s : Settings) : Workforce :=
  match s.workforce with
  | some w => w
  | none => if 0 < s.concurrency then .threads s.concurrency else .caller

def Settings.text (s : Settings) : String :=
  let watch := match s.watch with
    | none => "None"
    | some w => "Some(" ++ Text.braced "ProfilerConfig" [
        ("threshold", Text.duration w.threshold), ("consecutive", toString w.consecutive),
        ("chain_len", toString w.chain)] false ++ ")"
  Text.braced "Config" [
    ("concurrency", toString s.concurrency), ("tick_period", Text.duration s.tickPeriod),
    ("system_inline_threshold", toString s.inlineThreshold),
    ("turbo_on_pause", toString s.turboOnPause), ("profiler", watch),
    ("spin_limit", toString s.spinLimit)] false

structure Archetype (K : Type) [Schema K] where
  name : String
  /-- The records that new entities start with, at most one of a kind. -/
  defaults : List ((k : K) × Schema.Row k)

/-- The defaults in the order given, except that a later one of a kind replaces an earlier
one. -/
def Archetype.ofList {K : Type} [Schema K] [DecidableEq K] (name : String)
    (defaults : List ((k : K) × Schema.Row k)) : Archetype K where
  name := name
  defaults := defaults.foldl (fun ds d => ds.filter (·.1 ≠ d.1) ++ [d]) []

/-- The bookkeeping of an entity. -/
structure EntityInfo where
  archetype : ArchetypeId
  /-- The reading of the clock at its creation, in milliseconds. -/
  createdAt : Nat
  /-- Whether it waits in the queue of destructions. -/
  marked : Bool := false
  deriving DecidableEq, Repr

structure Registration where
  /-- Whether a factory makes it. -/
  byFactory : Bool
  /-- How often the factory was called. -/
  calls : Nat := 0

structure Instance where
  runs : Nat := 0
  /-- How often it was asked whether it is ready. -/
  checks : Nat := 0
  paused : Bool := false
  /-- What it was told when its pause flag changed. -/
  heard : List Bool := []

/-- The entities that live, and all records. -/
structure Scenery (K : Type) [Schema K] where
  population : Nat
  isLive : Entity → Bool
  record? : (k : K) → Entity → Option (Schema.Row k)
  /-- The records by name. -/
  shared? : (k : K) → String → Option (Schema.Row k)

/-- What is seen of a world by looking at it. -/
structure Outlook (K : Type) [Schema K] where
  scenery : Scenery K
  info? : Entity → Option EntityInfo
  /-- The numbers of queued destructions and creations. -/
  queued : Nat × Nat
  handles : HandleTable
  archetypes : Catalog ArchetypeId (fun _ => Archetype K)
  settings : Settings
  paused : Bool

/-- What is done to answer a question: looking at the world, running scripts, and going on by what
was seen and by whether they failed. -/
inductive Inquiry (K : Type) [Schema K]
  | answer (b : Bool)
  | look (next : Outlook K → Inquiry K)
  | act (script : Script K) (next : Except Fault Unit → Inquiry K)

/-- How a system, such as it is when it is asked, finds out whether it is ready. -/
def Readiness (K : Type) [Schema K] := Instance → Inquiry K

namespace Readiness

variable {K : Type} [Schema K]

def always : Readiness K := fun _ => .answer true

/-- When there are at least so many entities. -/
def population (least : Nat) : Readiness K :=
  fun _ => .look fun o => .answer (least ≤ o.scenery.population)

/-- The answers to the first questions; after that, always. -/
def answers (bs : List Bool) : Readiness K := fun i => .answer (bs.getD i.checks true)

end Readiness

structure Plan (K : Type) [Schema K] where
  name : String
  /-- The scripts of its runs, the first one first; after that it does nothing. -/
  runs : List (Script K) := []
  /-- The scripts of the calls of its factory. -/
  factory : List (Script K) := []
  readiness : Readiness K := .always
  /-- Whether another system runs it, so that a tick does not. -/
  isSubordinate : Bool := false
  /-- Whether it reacts to being paused and resumed. -/
  hearsPauses : Bool := false

structure Destruction where
  entity : Entity
  notify : Bool
  deriving DecidableEq, Repr

structure Creation (K : Type) [Schema K] where
  archetype : ArchetypeId
  init : Script K

/-- The entities that live, and those that are to go and to come. -/
structure Roster (K : Type) [Schema K] where
  arena : Arena 32 EntityInfo := {}
  /-- The destructions not committed yet, the first one first. -/
  destructions : List Destruction := []
  /-- The creations not committed yet, the first one first. -/
  creations : List (Creation K) := []

structure Desk (σ : Type) where
  lock : Nat
  contents : σ

structure Observer (K : Type) [Schema K] where
  name : String
  /-- How many more scripts it runs. -/
  left : Nat
  on : List (Topic × Script K)

/-- A lock and its table, as seen while the locks of all tables are held. -/
structure LockSight where
  table : String
  controlled : Bool
  held : Bool
  depth : Nat
  size : Nat

inductive Answer (K : Type) [Schema K]
  | nothing
  | flag (b : Bool)
  | count (n : Nat)
  | entity (e : Entity)
  | name (s : String)
  | archetype (id : ArchetypeId) (a : Archetype K)
  /-- How often a system ran, and what it heard, if it listens. -/
  | system (runs : Nat) (heard : Option (List Bool))
  | info (isLive isDestroyed : Bool) (info : Option EntityInfo)
  | stats (s : TickStats)
  | handle (a : HandleAnswer)
  | table (k : K) (a : Table.Answer (Schema.Row k))
  | shared (k : K) (a : NamedTable.Answer (Schema.Row k))
  | snapshots (k : K) (before after : List (Entity × Schema.Row k))
  | locks (size : Nat) (isEmpty : Bool) (rounds : List (List LockSight))
  | world (text : String) (watched : Bool) (concurrency : Nat)
  /-- Whether a ticker ran, and whether it stopped. -/
  | ticker (ran stopped : Bool)

inductive Event (K : Type) [Schema K]
  | notice (n : Notice)
  /-- A step of a script was done. -/
  | acted (label : String) (result : Except Fault (Answer K))
  | observed (observer : String) (s : Signal)
  | ran (s : SystemId) (call : Nat)
  | built (s : SystemId) (call : Nat)
  | pauseHeard (s : SystemId) (paused : Bool)
  | turbo (on : Bool)
  /-- A tagged receiver was told of a moment, and given back its context. -/
  | traced (tag : String) (moment : TraceEvent) (context : Option Nat)

structure World (K : Type) [Schema K] where
  settings : Settings := {}
  /-- What the systems do. -/
  plans : List (SystemId × Plan K) := []
  bank : Bank := {}
  handles : HandleTable := {}
  roster : Roster K := {}
  /-- How often the clock was read. -/
  readings : Nat := 0
  archetypes : Catalog ArchetypeId (fun _ => Archetype K) := {}
  components : Catalog K (fun _ => Unit) := {}
  tables : Catalog K (fun k => Desk (Table (Schema.Row k))) := {}
  sharedComponents : Catalog K (fun _ => Unit) := {}
  sharedTables : Catalog K (fun k => Desk (NamedTable (Schema.Row k))) := {}
  systems : Catalog SystemId (fun _ => Registration) := {}
  instances : Catalog SystemId (fun _ => Instance) := {}
  observers : List (Observer K) := []
  paused : Bool := false
  /-- How often the workforce was given systems to run. -/
  dispatches : Nat := 0
  /-- What happened, the first event first. -/
  events : Array (Event K) := #[]

namespace World

variable {K : Type} [Schema K]

instance : Inhabited (World K) := ⟨{}⟩

def population (w : World K) : Nat := w.roster.arena.size

def isLive (w : World K) (e : Entity) : Bool := w.roster.arena.contains e.ident

def info? (w : World K) (e : Entity) : Option EntityInfo := w.roster.arena.get? e.ident

/-- Whether an entity is to be destroyed or does not live. -/
def isDestroyed (w : World K) (e : Entity) : Bool := (w.info? e).all (·.marked)

/-- The tables with the numbers of their records, in the order in which they came to be. -/
def tableSizes (w : World K) : List (String × Nat) :=
  w.tables.entries.map fun t => (Schema.tableName t.1, t.2.contents.rows.size)

/-- What a system does; one without a plan does nothing. -/
def plan (w : World K) (s : SystemId) : Plan K := (w.plans.lookup s).getD { name := s }

section Looking

variable [DecidableEq K]

def record? (w : World K) (k : K) (e : Entity) : Option (Schema.Row k) :=
  (w.tables.find? k).bind fun d => d.contents.rows.get? e

def shared? (w : World K) (k : K) (name : String) : Option (Schema.Row k) :=
  (w.sharedTables.find? k).bind fun d => d.contents.find? name

def scenery (w : World K) : Scenery K := ⟨w.population, w.isLive, w.record?, w.shared?⟩

def outlook (w : World K) : Outlook K where
  scenery := w.scenery
  info? := w.info?
  queued := (w.roster.destructions.length, w.roster.creations.length)
  handles := w.handles
  archetypes := w.archetypes
  settings := w.settings
  paused := w.paused

end Looking

def text (w : World K) : String :=
  Text.braced "Orchestrator" [
    ("config", w.settings.text), ("entities", toString w.population),
    ("tables", toString w.tables.size), ("systems", toString w.instances.size),
    ("paused", toString w.paused)] true

end World

def Archetype.text {K : Type} [Schema K] (id : ArchetypeId) (a : Archetype K) : String :=
  Text.braced "Archetype" [
    ("id", s!"ArchetypeId({id})"), ("name", Text.quoted a.name),
    ("defaults", Text.bracketed (a.defaults.map fun d => Schema.typeName d.1))] false

end EntityStore
