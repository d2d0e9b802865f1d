import EntityStore.World.Systems

/-!
# Doing what a script says

Every verb is done by the operation of that name. A script runs to the first fault that it does
not tolerate. Scripts that run scripts are bounded by an allowance, which only a script that
calls itself for ever can use up.
-/
namespace EntityStore

namespace Run

variable {K : Type} [Schema K] [DecidableEq K]

def handle (run : Runner K) (q : HandleRequest) : Run K HandleAnswer := do
  let effect := (← get).handles.serve q
  modify fun w => { w with handles := effect.table }
  noteAll effect.notices
  match effect.signal with
  | some s => fire run s
  | none => pure ()
  orThrow effect.answer

def lockSights (g : LockGroup) : (kinds : List K) → Run K (List LockSight)
  | [] => return []
  | k :: ks => do
    let desk ← component k
    let depth := ((← get).bank.get desk.lock).depthOf World.caller
    let size ← onTable k (Table.read World.caller (·.rows.size))
    let rest ← lockSights g ks
    return ⟨Schema.tableName k, g.controls desk.lock, g.holds desk.lock, depth, size⟩ :: rest

def locksNamed (w : World K) (names : List String) : List Nat :=
  w.tables.entries.filterMap fun t =>
    if Schema.tableName t.1 ∈ names then some t.2.lock else none

def offerTo (k : K) : Option ((k : K) × Schema.Row k) → Table.Offer (Schema.Row k)
  | none => .missing
  | some ⟨k', r⟩ => if h : k' = k then .record (h ▸ r) else .foreign

def offerByName (kinds : List K) (name : String) (e : Entity)
    (value : Option ((k : K) × Schema.Row k)) : Run K Unit := do
  match kinds.find? fun k => Schema.tableName k = name with
  | none => return ()
  | some k => onTable k (Table.populateAny World.caller e (offerTo k value))

def sights (kinds : List K) : LockedRun K (List LockSight) := do
  LockedRun.lift (lockSights (← get).1 kinds)

def makeOffer (kinds : List K) (self : Option Entity) :
    Option (String × Who × Option ((k : K) × Schema.Row k)) → Run K Unit
  | none => return ()
  | some (name, who, value) => offerByName kinds name (who.resolve self) value

/-- Leaves the locks of some tables while another script is run. -/
def openWindow (run : Runner K) (self : Option Entity) (kinds : List K) :
    Option (List String × Script K) → LockedRun K (List (List LockSight))
  | none => return []
  | some (names, script) => do
    let locks := locksNamed (← get).2 names
    LockedRun.call (·.leaveOnly locks)
    let inside ← LockedRun.ensuring
      (do
        let inside ← sights kinds
        LockedRun.lift (run self script)
        return inside)
      (LockedRun.call (·.endWindow))
    return [inside, ← sights kinds]

def exchangeLocks (kinds : List K) :
    Option (List String × List String) → LockedRun K (List (List LockSight))
  | none => return []
  | some (left, entered) => do
    let w := (← get).2
    LockedRun.call (·.leaveOnly (locksNamed w left))
    let without ← sights kinds
    LockedRun.call (·.enterOnly (locksNamed w entered))
    return [without, ← sights kinds]

/-- Runs an errand while the locks of all tables are held. -/
def runErrand (run : Runner K) (self : Option Entity) (errand : Errand K (Verb K)) :
    Run K (Answer K) := do
  let kinds := (← get).tables.keys
  withAllTables do
    let group := (← get).1
    let first ← sights kinds
    LockedRun.lift (makeOffer kinds self errand.offer)
    LockedRun.lift (run self errand.script)
    let window ← openWindow run self kinds errand.window
    let exchange ← exchangeLocks kinds errand.exchange
    return .locks group.size group.isEmpty (first :: window ++ exchange)

/-- The answer of the handle table, as it is shown through the world. -/
def handleAnswer (direct : Bool) : HandleAnswer → Answer K
  | .target t => if direct then .handle (.target t) else .flag (t.type = .word)
  | a => .handle a

def perform (run : Runner K) (turns : Nat) (self : Option Entity) : Verb K → Run K (Answer K)
  | .registerComponent k => do
    registerComponent k
    return .nothing
  | .registerShared k => do
    registerShared k
    return .nothing
  | .registerArchetype id name defaults => do
    registerArchetype id (.ofList name defaults)
    return .nothing
  | .registerSystem s byFactory => do
    registerSystem s byFactory
    return .nothing
  | .showArchetype id => do return .archetype id (← archetype id)
  | .showComponent k => do
    let _ ← component k
    return .name (Schema.tableName k)
  | .showShared k => do
    let _ ← shared k
    return .name (Schema.tableName k)
  | .showSystem s => do
    system run s
    let i ← instanceOf s
    return .system i.runs (if ((← get).plan s).hearsPauses then some i.heard else none)
  | .runSystem s => do return .flag (← runSystem run s)
  | .create a init => do return .entity (← create run a init)
  | .queueCreation a init => do
    queueCreation a init
    return .nothing
  | .destroy e notify => do
    destroy run (e.resolve self) notify
    return .nothing
  | .queueDestruction e notify => do
    queueDestruction (e.resolve self) notify
    return .nothing
  | .commitDestructions => do return .count (← commitDestructions run turns 0)
  | .commitCreations => do return .count (← commitCreations run turns 0)
  | .showEntity e => do
    let w ← get
    let e := e.resolve self
    return .info (w.isLive e) (w.isDestroyed e) (w.info? e)
  | .tick tracer => do return .stats (← tick run turns tracer)
  | .setPaused paused => do
    setPaused run paused
    return .nothing
  | .handle q direct => do return handleAnswer direct (← handle run q)
  | .table k q => do
    return .table k (← onTable k (Table.serve World.caller (q.mapEntity (·.resolve self))))
  | .shared k q => do return .shared k (← onShared k (NamedTable.serve World.caller q))
  | .forEach k body => do
    forEachRow k fun e => run (some e) body
    return .nothing
  | .withSnapshot k body => asReader k do
    let before ← copyRows k
    run self body
    return .snapshots k before (← copyRows k)
  | .withAllTables errand => runErrand run self errand
  | .subscribe name times on => do
    modify fun w => { w with observers := w.observers ++ [⟨name, times, on⟩] }
    return .nothing
  | .describe => do
    let w ← get
    return .world w.text w.settings.watch.isSome w.settings.crew.concurrency
  | .fail f => fail f
  | .runTicker ticks => do
    runTicker run turns (ticks + 1)
    return .ticker true true

/-- Runs the steps of a script, each of them by what does its verb, up to the first fault that is
not tolerated, and shows each of them when it is done. -/
def runSteps (step : Verb K → Run K (Answer K)) : Script K → Run K Unit
  | [] => return ()
  | a :: rest => do
    let result ← attempt (step a.verb)
    emit (.acted a.label result)
    match result with
    | .ok _ => runSteps step rest
    | .error f => if a.tolerated then runSteps step rest else fail f

/-- Runs a script within an allowance. -/
def runScript : (allowance : Nat) → Runner K
  | 0, _, _ => throw .exhausted
  | n + 1, self, script => runSteps (perform (runScript n) n self) script

end Run

namespace World

variable {K : Type} [Schema K] [DecidableEq K]

/-- How deep scripts may be nested, and how many queued operations a commit may find. -/
def allowance : Nat := 1000000

def serve (w : World K) (v : Verb K) :
    Except Failure (Answer K) × List (Event K) × World K :=
  match Run.perform (Run.runScript allowance) allowance none v { w with events := #[] } with
  | .ok a w => (.ok a, w.events.toList, w)
  | .error e w => (.error e, w.events.toList, w)

end World

end EntityStore
