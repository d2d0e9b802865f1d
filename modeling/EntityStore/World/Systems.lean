import EntityStore.World.Entities

/-!
# The systems of a world

A system is registered first and comes to be when it is first asked for. A tick runs every
system that is neither paused nor subordinate and that is ready, then commits the queued
destructions, then the queued creations.
-/
namespace EntityStore

namespace Run

variable {K : Type} [Schema K]

def instancesView : Catalog.View (World K) SystemId (fun _ => Instance) :=
  ⟨World.instances, fun c w => { w with instances := c }⟩

def registerSystem (s : SystemId) (byFactory : Bool) : Run K Unit := do
  match (← get).systems.insertNew? s { byFactory } with
  | some c => modify fun w => { w with systems := c }
  | none => fail (.alreadyExists (.system s))

def editInstance (s : SystemId) (f : Instance → Instance) : Run K Unit :=
  modify fun w => { w with instances := w.instances.update s f }

def instanceOf (s : SystemId) : Run K Instance := do
  return ((← get).instances.find? s).getD {}

def setPausedOf (s : SystemId) (paused : Bool) : Run K Unit := do
  if (← instanceOf s).paused = paused then return ()
  editInstance s fun i => { i with paused, heard := i.heard ++ [paused] }
  if ((← get).plan s).hearsPauses then emit (.pauseHeard s paused)

def build (run : Runner K) (s : SystemId) : Run K Instance := do
  let w ← get
  match w.systems.find? s with
  | none => fail (.systemNotFound s)
  | some r =>
    if r.byFactory then
      set { w with systems := w.systems.update s fun r => { r with calls := r.calls + 1 } }
      match (w.plan s).factory[r.calls]? with
      | none => pure ()
      | some script =>
        emit (.built s r.calls)
        run none script
    note (.systemInstantiated (w.plan s).name)
    return {}

/-- Has a system come to be. A new one takes over the pause flag of the world. -/
def system (run : Runner K) (s : SystemId) : Run K Unit := do
  if (← get).instances.contains s then return ()
  let _ ← Catalog.getOrCreate instancesView s (build run s)
  setPausedOf s (← get).paused

/-- Has a system begin a run, and gives what it does this time. -/
def startRun (tracer : Tracer) (s : SystemId) : Run K (Script K) := do
  trace tracer (.startRun ((← get).plan s).name)
  let call := (← instanceOf s).runs
  editInstance s fun i => { i with runs := i.runs + 1 }
  match ((← get).plan s).runs[call]? with
  | none => return []
  | some script =>
    emit (.ran s call)
    return script

def endRun (tracer : Tracer) (s : SystemId) (result : Except Fault Unit) : Run K Unit := do
  let name := ((← get).plan s).name
  trace tracer (.endRun name result.isOk)
  match result with
  | .ok () => return ()
  | .error f => note (.systemFailed name f)

/-- Does what is left of the run of a system, step by step, and gives its fault, if it has one. -/
def goOn (run : Runner K) (tracer : Tracer) (s : SystemId) (script : Script K) :
    Run K (Except Fault Unit) := do
  let result ← attempt (script.forM fun a => run none [a])
  endRun tracer s result
  return result

def runEntry (run : Runner K) (tracer : Tracer) (s : SystemId) : Run K (Except Fault Unit) := do
  let script ← startRun tracer s
  goOn run tracer s script

/-- Runs a system on its own, unless it is paused. -/
def runSystem (run : Runner K) (s : SystemId) : Run K Bool := do
  system run s
  if (← instanceOf s).paused then return false
  orFail (← runEntry run [] s)
  return true

section Readiness

variable [DecidableEq K]

def answer (run : Runner K) : Inquiry K → Run K Bool
  | .answer b => return b
  | .look next => do answer run (next (← get).outlook)
  | .act script next => do answer run (next (← attempt (run none script)))

def isReady (run : Runner K) (s : SystemId) : Run K Bool := do
  let i ← instanceOf s
  editInstance s fun i => { i with checks := i.checks + 1 }
  answer run (((← get).plan s).readiness i)

def isRunnable (run : Runner K) (s : SystemId) : Run K Bool := do
  if (← instanceOf s).paused then return false
  if ((← get).plan s).isSubordinate then return false
  isReady run s

def sortOut (run : Runner K) (tracer : Tracer) : List SystemId → Run K (List SystemId)
  | [] => return []
  | s :: ss => do
    system run s
    if ← isRunnable run s then
      return s :: (← sortOut run tracer ss)
    else
      trace tracer (.skip ((← get).plan s).name)
      sortOut run tracer ss

end Readiness

/-- Runs systems one after the other, and gives the number of those that failed. -/
def runAll (run : Runner K) (tracer : Tracer) : List SystemId → Run K Nat
  | [] => return 0
  | s :: ss => do
    match ← runEntry run tracer s with
    | .ok () => runAll run tracer ss
    | .error _ => return (← runAll run tracer ss) + 1

structure Shift (K : Type) [Schema K] where
  /-- The system that it is running, and what is left of the run. -/
  current : Option (SystemId × Script K) := none
  /-- The systems that it runs after that. -/
  next : List SystemId := []

/-- Has a worker take one step: begin a run, do one step of it, or end it. Gives what it has still
to do, and the number of runs that failed by this. -/
def move (run : Runner K) (tracer : Tracer) : Shift K → Run K (Shift K × Nat)
  | ⟨none, []⟩ => return ({}, 0)
  | ⟨none, s :: ss⟩ => do return (⟨some (s, ← startRun tracer s), ss⟩, 0)
  | ⟨some (s, []), ss⟩ => do
    endRun tracer s (.ok ())
    return (⟨none, ss⟩, 0)
  | ⟨some (s, a :: rest), ss⟩ => do
    match ← attempt (run none [a]) with
    | .ok () => return (⟨some (s, rest), ss⟩, 0)
    | .error f =>
      endRun tracer s (.error f)
      return (⟨none, ss⟩, 1)

/-- Has a worker do all that it has still to do, and gives the number of runs that failed. -/
def finish (run : Runner K) (tracer : Tracer) : Shift K → Run K Nat
  | ⟨none, ss⟩ => runAll run tracer ss
  | ⟨some (s, script), ss⟩ => do
    match ← goOn run tracer s script with
    | .ok () => runAll run tracer ss
    | .error _ => return (← runAll run tracer ss) + 1

theorem runAll_cons (run : Runner K) (tracer : Tracer) (s : SystemId) (ss : List SystemId) :
    runAll run tracer (s :: ss) =
      (do finish run tracer ⟨some (s, ← startRun tracer s), ss⟩ : Run K Nat) := by
  rw [runAll, runEntry, bind_assoc]
  rfl

/-- Does something, and then something else that goes by what came of it, and adds up what failed.
If the first breaks, the others go on with nothing. -/
def amid {α : Type} (first : Run K (α × Nat)) (nothing : α) (others : α → Run K Nat) : Run K Nat :=
  fun w =>
    match first w with
    | .ok (a, failed) w =>
      match others a w with
      | .ok rest w => .ok (failed + rest) w
      | .error e w => .error e w
    | .error e w =>
      match others nothing w with
      | .ok _ w => .error e w
      | .error _ w => .error e w

/-- Has the workers come to an end, the first one first. -/
def finishAll (run : Runner K) (tracer : Tracer) : List (Shift K) → Run K Nat
  | [] => return 0
  | shift :: shifts =>
    amid (do return ((), ← finish run tracer shift)) () fun () => finishAll run tracer shifts

def takeTurns (run : Runner K) (tracer : Tracer) : (turns : List Nat) → List (Shift K) → Run K Nat
  | [], shifts => finishAll run tracer shifts
  | turn :: turns, shifts =>
    match shifts[turn]? with
    | none => takeTurns run tracer turns shifts
    | some shift =>
      amid (move run tracer shift) {} fun shift => takeTurns run tracer turns (shifts.set turn shift)

/-- Has the workforce run some systems, if there are any, and gives the number of those that
failed. -/
def dispatch (run : Runner K) (tracer : Tracer) : List SystemId → Run K Nat
  | [] => return 0
  | s :: ss => do
    let w ← get
    set { w with dispatches := w.dispatches + 1 }
    let crew := w.settings.crew
    let ranges := crew.division w.dispatches (s :: ss).length w.settings.inlineThreshold
    takeTurns run tracer (crew.turns w.dispatches)
      (ranges.map fun range => { next := Workforce.slice (s :: ss) range })

/-- Runs the systems, then commits the destructions, then the creations. -/
def tick [DecidableEq K] (run : Runner K) (turns : Nat) (tracer : Tracer) : Run K TickStats := do
  trace tracer .startTick
  let registered := (← get).systems.keys
  let runnable ← sortOut run tracer registered
  let failed ← dispatch run tracer runnable
  let destroyed ← commitDestructions run turns 0
  trace tracer (.commitDestruction destroyed)
  let created ← commitCreations run turns 0
  trace tracer (.commitCreation created)
  let stats : TickStats := {
    run := runnable.length, skipped := registered.length - runnable.length
    failed, destroyed, created }
  trace tracer (.endTick stats)
  return stats

/-- Ticks the world so many times, whatever becomes of the ticks. -/
def runTicker [DecidableEq K] (run : Runner K) (turns : Nat) : (ticks : Nat) → Run K Unit
  | 0 => return ()
  | ticks + 1 => do
    match ← attempt (tick run turns []) with
    | .ok stats => note (.tickCompleted stats)
    | .error f => note (.tickFailed f)
    runTicker run turns ticks

/-- Pauses or resumes all systems, those included that come to be later. -/
def setPaused (run : Runner K) (paused : Bool) : Run K Unit := do
  if (← get).paused = paused then return ()
  modify fun w => { w with paused }
  (← get).instances.keys.forM (setPausedOf · paused)
  note (if paused then .pausedAll else .resumedAll)
  let settings := (← get).settings
  if settings.turboOnPause then
    if settings.hostListens then emit (.turbo !paused) else note (.turboIgnored !paused)
  fire run (if paused then .systemsPaused else .systemsResumed)

end Run

end EntityStore
