import EntityStore.World.Run

/-!
# The tables of a world

A kind of records is registered first; its table comes to be when it is first asked for. All
tables can be locked together, which keeps other threads out of every one of them.
-/
namespace EntityStore

namespace Run

variable {K α : Type} [Schema K] [DecidableEq K]

def tablesView : Catalog.View (World K) K (fun k => Desk (Table (Schema.Row k))) :=
  ⟨World.tables, fun c w => { w with tables := c }⟩

def sharedView : Catalog.View (World K) K (fun k => Desk (NamedTable (Schema.Row k))) :=
  ⟨World.sharedTables, fun c w => { w with sharedTables := c }⟩

def registerComponent (k : K) : Run K Unit := do
  match (← get).components.insertNew? k () with
  | some c => modify fun w => { w with components := c }
  | none => fail (.alreadyExists (.component (Schema.typeName k)))

def registerShared (k : K) : Run K Unit := do
  match (← get).sharedComponents.insertNew? k () with
  | some c => modify fun w => { w with sharedComponents := c }
  | none => fail (.alreadyExists (.sharedComponent (Schema.typeName k)))

/-- Puts an empty store behind a new lock. -/
def furnish {σ : Type} (name : String) (contents : σ) : Run K (Desk σ) := do
  let w ← get
  let (lock, bank) := w.bank.add { name, spinLimit := w.settings.spinLimit }
  set { w with bank }
  return ⟨lock, contents⟩

def component (k : K) : Run K (Desk (Table (Schema.Row k))) :=
  Catalog.getOrCreate tablesView k do
    unless (← get).components.contains k do fail (.componentNotFound (Schema.typeName k))
    let desk ← furnish (Schema.tableName k) {}
    note (.tableInstantiated (Schema.tableName k))
    return desk

def shared (k : K) : Run K (Desk (NamedTable (Schema.Row k))) :=
  Catalog.getOrCreate sharedView k do
    unless (← get).sharedComponents.contains k do fail (.componentNotFound (Schema.tableName k))
    note (.sharedInstantiated (Schema.tableName k))
    furnish (Schema.tableName k) {}

/-- Runs an operation on a store of the world, and puts the store back. -/
def atDesk {σ : Type} (desk : Desk σ) (put : σ → World K → World K) (op : Guarded.Op σ α) :
    Run K α := fun w =>
  let back := fun (g : Guarded σ) => put g.contents { w with
    bank := w.bank.set desk.lock g.lock
    handles := g.handles
    events := w.events ++ g.journal.map Event.notice }
  match op {
    lock := w.bank.get desk.lock, contents := desk.contents, handles := w.handles
    connected := true } with
  | .ok a g => .ok a (back g)
  | .error e g => .error e (back g)

def onTable (k : K) (op : Guarded.Op (Table (Schema.Row k)) α) : Run K α := do
  let desk ← component k
  atDesk desk (fun t w => { w with tables := w.tables.update k fun d => { d with contents := t } }) op

def onShared (k : K) (op : Guarded.Op (NamedTable (Schema.Row k)) α) : Run K α := do
  let desk ← shared k
  atDesk desk
    (fun t w => { w with sharedTables := w.sharedTables.update k fun d => { d with contents := t } })
    op

def onLock (lock : Nat) (call : Lock → Except Failure α × Lock) : Run K α := fun w =>
  let (result, bank) := w.bank.on lock call
  match result with
  | .ok a => .ok a { w with bank }
  | .error e => .error e { w with bank }

/-- Runs an operation for every record of a table, while the table is taken from behind its
lock. -/
def forEachRow (k : K) (body : Entity → Run K Unit) : Run K Unit := do
  let desk ← component k
  onLock desk.lock (Lock.openGuard World.caller)
  let entities := desk.contents.rows.keys
  ensuring (entities.forM body) (onLock desk.lock (Lock.closeGuard World.caller))

/-- Runs an operation as a reader of the copy of a table. -/
def asReader (k : K) (body : Run K α) : Run K α := do
  let reader ← onTable k (Table.admitReader World.caller)
  ensuring body (onTable k (Table.dismissReader reader))

def copyRows (k : K) : Run K (List (Entity × Schema.Row k)) := do
  return (← component k).contents.copy.toList

end Run

/-- An operation on a world while a group of locks is held, which it may change. -/
abbrev LockedRun (K : Type) [Schema K] := EStateM Failure (LockGroup × World K)

namespace LockedRun

variable {K α : Type} [Schema K]

def lift (body : Run K α) : LockedRun K α := fun (g, w) =>
  match body w with
  | .ok a w => .ok a (g, w)
  | .error e w => .error e (g, w)

def call (c : LockGroup → LockGroup.Call) : LockedRun K Unit := fun (g, w) =>
  match (c g).advance World.caller w.bank with
  | (.finished (g, none), bank, ns) =>
    .ok () (g, { w with bank, events := w.events ++ (ns.map Event.notice).toArray })
  | (.finished (g, some b), bank, ns) =>
    .error (.breach b) (g, { w with bank, events := w.events ++ (ns.map Event.notice).toArray })
  | (.waiting .., bank, ns) =>
    .error .stuck (g, { w with bank, events := w.events ++ (ns.map Event.notice).toArray })

def ensuring (body : LockedRun K α) (after : LockedRun K Unit) : LockedRun K α := fun s =>
  match body s with
  | .ok a s =>
    match after s with
    | .ok () s => .ok a s
    | .error e s => .error e s
  | .error e s =>
    match after s with
    | .ok () s => .error e s
    | .error _ s => .error e s

end LockedRun

/-- The locks of all component tables as a group, none of them entered. -/
def World.tableGroup {K : Type} [Schema K] (w : World K) : LockGroup :=
  .ofList (w.tables.entries.map fun t => (t.2.lock, Schema.tableName t.1, true))

/-- Runs an operation while the locks of all tables are held. Tables that come to be meanwhile
are no part of the group. -/
def Run.withAllTables {K α : Type} [Schema K] (body : LockedRun K α) : Run K α := fun w =>
  let whole : LockedRun K α := do
    LockedRun.call (·.enterAll)
    body.ensuring (LockedRun.call (·.release))
  match whole (w.tableGroup, w) with
  | .ok a (_, w) => .ok a w
  | .error e (_, w) => .error e w

end EntityStore
