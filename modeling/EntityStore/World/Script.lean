import EntityStore.Handle.Request
import EntityStore.NamedTable
import EntityStore.Table.Request
import EntityStore.Tracing

/-!
# Scripts

What is done to a world, as data. The code that initialises an entity, that a system runs, or
that an observer runs on a signal is a script: a list of actions, each of which may carry
scripts of its own.
-/
namespace EntityStore

abbrev ArchetypeId := Nat

/-- The name of the type of a system, by which it is registered. -/
abbrev SystemId := String

inductive Who
  /-- The entity that the script is run for. -/
  | itself
  | known (e : Entity)

def Who.resolve (self : Option Entity) : Who → Entity
  | itself => self.getD .void
  | known e => e

structure Action (V : Type) where
  /-- The name under which the step is shown when it is done. -/
  label : String
  verb : V
  /-- Whether the script goes on after a fault of this step. -/
  tolerated : Bool := false

/-- What is done while the locks of all tables are held, in this order. -/
structure Errand (K : Type) [Schema K] (V : Type) where
  /-- A value offered to the first table of a name. -/
  offer : Option (String × Who × Option ((k : K) × Schema.Row k)) := none
  script : List (Action V) := []
  /-- Tables whose locks are left while another script is run. -/
  window : Option (List String × List (Action V)) := none
  /-- Tables whose locks are left, and tables whose locks are entered after that. -/
  exchange : Option (List String × List String) := none

inductive Verb (K : Type) [Schema K]
  | registerComponent (k : K)
  | registerShared (k : K)
  | registerArchetype (id : ArchetypeId) (name : String) (defaults : List ((k : K) × Schema.Row k))
  | registerSystem (s : SystemId) (byFactory : Bool)
  | showArchetype (id : ArchetypeId)
  | showComponent (k : K)
  | showShared (k : K)
  | showSystem (s : SystemId)
  | runSystem (s : SystemId)
  | create (a : ArchetypeId) (init : List (Action (Verb K)))
  | queueCreation (a : ArchetypeId) (init : List (Action (Verb K)))
  | destroy (e : Who) (notify : Bool)
  | queueDestruction (e : Who) (notify : Bool)
  | commitDestructions
  | commitCreations
  | showEntity (e : Who)
  | tick (tracer : Tracer)
  | setPaused (paused : Bool)
  /-- A request to the handle table. Unless it is made directly, a target is answered by
  whether it is a word. -/
  | handle (q : HandleRequest) (direct : Bool)
  | table (k : K) (q : Table.Request Who (Schema.Row k))
  | shared (k : K) (q : NamedTable.Request (Schema.Row k))
  /-- Runs a script for every entity of a table while the table is taken from behind its lock. -/
  | forEach (k : K) (body : List (Action (Verb K)))
  /-- Shows the copy for readers before and after a script that is run as a reader. -/
  | withSnapshot (k : K) (body : List (Action (Verb K)))
  | withAllTables (errand : Errand K (Verb K))
  /-- Subscribes an observer that runs scripts on some topics, so often at most. -/
  | subscribe (name : String) (times : Nat) (on : List (Topic × List (Action (Verb K))))
  | describe
  | fail (f : Fault)
  /-- Starts a clock that ticks the world, and stops it after that many ticks and one. -/
  | runTicker (ticks : Nat)

instance {K : Type} [Schema K] : Inhabited (Verb K) := ⟨.describe⟩

abbrev Script (K : Type) [Schema K] := List (Action (Verb K))

end EntityStore
