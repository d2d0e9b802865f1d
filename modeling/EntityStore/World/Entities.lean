import EntityStore.World.Tables

/-!
# The entities of a world

An entity is created with the records of its archetype, and destroyed with all its records,
at once or when the queues are committed. A creation that fails is undone and leaves nothing
but a used-up generation. A destruction that fails stays queued; a creation that fails does not.
-/
namespace EntityStore

namespace Roster

variable {K : Type} [Schema K]

def enrol (r : Roster K) (info : EntityInfo) : Except Failure Entity × Roster K :=
  match r.arena.insert info with
  | (.ok i, arena) => (.ok ⟨i⟩, { r with arena })
  | (.error (.fault (.identsExhausted n)), arena) =>
    (.error (.fault (.entitiesExhausted n)), { r with arena })
  | (.error e, arena) => (.error e, { r with arena })

def free (r : Roster K) (e : Entity) : Except Failure Unit × Roster K :=
  match r.arena.remove e.ident with
  | (.ok _, arena) => (.ok (), { r with arena })
  | (.error (.fault _), arena) =>
    (.error (.fault (.recordNotFound e Fault.registryName)), { r with arena })
  | (.error f, arena) => (.error f, { r with arena })

/-- Queues the destruction of a live entity, unless it is queued already. The answer is whether
it was queued now. -/
def mark (r : Roster K) (e : Entity) (notify : Bool) : Except Fault (Bool × Roster K) :=
  match r.arena.get? e.ident with
  | none => .error (.recordNotFound e Fault.registryName)
  | some info =>
    if info.marked then .ok (false, r)
    else .ok (true, { r with
      arena := r.arena.modify e.ident fun info => { info with marked := true }
      destructions := r.destructions ++ [⟨e, notify⟩] })

end Roster

namespace Run

variable {K α : Type} [Schema K] [DecidableEq K]

def onRoster (call : Roster K → Except Failure α × Roster K) : Run K α := fun w =>
  let (result, roster) := call w.roster
  match result with
  | .ok a => .ok a { w with roster }
  | .error e => .error e { w with roster }

def registerArchetype (id : ArchetypeId) (a : Archetype K) : Run K Unit := do
  match (← get).archetypes.insertNew? id a with
  | none => fail (.alreadyExists (.archetype id))
  | some c =>
    modify fun w => { w with archetypes := c }
    note (.archetypeRegistered id)

def archetype (id : ArchetypeId) : Run K (Archetype K) := do
  match (← get).archetypes.find? id with
  | some a => return a
  | none => fail (.archetypeNotFound id)

def readClock : Run K Nat := do
  let w ← get
  set { w with readings := w.readings + 1 }
  return w.settings.clockStart + w.readings * w.settings.clockStep

def enrol (a : ArchetypeId) : Run K Entity := do
  let createdAt ← readClock
  noteAll (← get).roster.arena.insertNotices
  let e ← onRoster (·.enrol { archetype := a, createdAt })
  note (.minted e a)
  return e

def free (e : Entity) : Run K Unit := do
  noteAll ((← get).roster.arena.removeNotices e.ident)
  onRoster (·.free e)

def furnishEntity (e : Entity) : (defaults : List ((k : K) × Schema.Row k)) → Run K Unit
  | [] => return ()
  | d :: ds => do
    let _ ← onTable d.1 (Table.populate World.caller e d.2)
    furnishEntity e ds

def populate (run : Runner K) (a : Archetype K) (e : Entity) (init : Script K) : Run K Unit := do
  furnishEntity e a.defaults
  run (some e) init

def prepare : (defaults : List ((k : K) × Schema.Row k)) → Run K Unit
  | [] => return ()
  | d :: ds => do
    let _ ← component d.1
    prepare ds

def clearEntity (e : Entity) : (kinds : List K) → Run K Unit
  | [] => return ()
  | k :: ks => do
    if ← onTable k (Table.read World.caller (·.rows.contains e)) then
      let _ ← onTable k (Table.destroy World.caller e)
    clearEntity e ks

/-- Destroys an entity with all its records. If asked to, it first tells the observers, who
still see the entity as it was. -/
def destroy (run : Runner K) (e : Entity) (notify : Bool) : Run K Unit := do
  unless (← get).isLive e do fail (.recordNotFound e Fault.registryName)
  if notify then fire run (.entityDestroyed e)
  let kinds := (← get).tables.keys
  withAllTables do
    LockedRun.lift (clearEntity e kinds)
    LockedRun.lift (free e)
  note (.destroyed e)

/-- Undoes a creation that failed. -/
def rollBack (run : Runner K) (e : Entity) : Run K Unit := do
  match ← attempt (destroy run e false) with
  | .ok () => return ()
  | .error f => note (.cannotRollBack e f)

def create (run : Runner K) (id : ArchetypeId) (init : Script K) : Run K Entity := do
  let a ← archetype id
  let e ← enrol id
  match ← attempt (populate run a e init) with
  | .error f =>
    rollBack run e
    fail f
  | .ok () =>
    fire run (.entityCreated e)
    return e

def queueCreation (id : ArchetypeId) (init : Script K) : Run K Unit := do
  unless (← get).archetypes.contains id do fail (.archetypeNotFound id)
  modify fun w =>
    { w with roster := { w.roster with creations := w.roster.creations ++ [⟨id, init⟩] } }

def queueDestruction (e : Entity) (notify : Bool) : Run K Unit := do
  match (← get).roster.mark e notify with
  | .error f => fail f
  | .ok (queued, roster) =>
    modify fun w => { w with roster }
    unless queued do note (.alreadyQueued e)

/-- Destroys the queued entities, the first one first, passing over those that do not live any
more, and gives their number. A destruction that fails goes back to the front of the queue. -/
def commitDestructions (run : Runner K) : (turns count : Nat) → Run K Nat
  | 0, _ => throw .exhausted
  | turns + 1, count => do
    let w ← get
    match w.roster.destructions with
    | [] =>
      if 0 < count then note (.committedDestructions count)
      return count
    | d :: ds =>
      set { w with roster := { w.roster with destructions := ds } }
      if !w.isLive d.entity then
        note (.skippedFreed d.entity)
        commitDestructions run turns count
      else
        match ← attempt (destroy run d.entity d.notify) with
        | .ok () => commitDestructions run turns (count + 1)
        | .error f =>
          modify fun w =>
            { w with roster := { w.roster with destructions := d :: w.roster.destructions } }
          fail f

def commitCreation (run : Runner K) (c : Creation K) : Run K Unit := do
  let a ← archetype c.archetype
  prepare a.defaults
  let e ← enrol c.archetype
  match ← attempt (withAllTables (LockedRun.lift (populate run a e c.init))) with
  | .error f =>
    rollBack run e
    fail f
  | .ok () => fire run (.entityCreated e)

/-- Creates the queued entities, the first one first, and gives their number. A creation that
fails leaves the queue. -/
def commitCreations (run : Runner K) : (turns count : Nat) → Run K Nat
  | 0, _ => throw .exhausted
  | turns + 1, count => do
    let w ← get
    match w.roster.creations with
    | [] =>
      if 0 < count then note (.committedCreations count)
      return count
    | c :: cs =>
      set { w with roster := { w.roster with creations := cs } }
      commitCreation run c
      commitCreations run turns (count + 1)

end Run

end EntityStore
