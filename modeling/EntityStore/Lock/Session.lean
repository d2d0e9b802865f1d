import EntityStore.Lock.Contention
import EntityStore.Lock.Group

/-!
# Sessions of threads

Several threads use the locks of a bank, one request at a time. A request that has to wait
leaves its thread asleep; when a later request lets it go on, it is answered then. Behind every
lock stands a number, and threads keep groups and guards under names of their own.
-/
namespace EntityStore.Lock

inductive Request
  | enter (lock : Nat)
  | tryEnter (lock : Nat)
  | leave (lock : Nat)
  | inspect (lock : Nat)
  | depths
  /-- Adds to the number behind a lock, which is entered for this alone. -/
  | add (lock : Nat) (n : Int64)
  /-- Keeps the number behind a lock under a name. -/
  | openGuard (lock : Nat) (name : String)
  | addThrough (name : String) (n : Int64)
  | closeGuard (name : String)
  /-- Acquires a group of locks, each named with whether it is to be controlled, and keeps it. -/
  | build (group : String) (locks : List (Nat × Bool))
  | inspectGroup (group : String)
  | leaveOnly (group : String) (locks : List Nat)
  | enterOnly (group : String) (locks : List Nat)
  | release (group : String)
  /-- Leaves locks of a group until the window is ended. -/
  | openWindow (group : String) (locks : List Nat)
  | endWindow (group : String)
  | drop (group : String)
  /-- The reports delivered since this was last asked. -/
  | reports

def Request.locks : Request → List Nat
  | enter l | tryEnter l | leave l | inspect l | add l _ | openGuard l _ => [l]
  | build _ ls => ls.map (·.1)
  | leaveOnly _ ls | enterOnly _ ls | openWindow _ ls => ls
  | _ => []

inductive Answer
  | nothing
  | flag (b : Bool)
  | count (n : Nat)
  | value (n : Int64)
  | lock (name : String) (isLocked owned : Bool) (depth : Nat)
  | depths (ds : List Nat)
  /-- A group, with whether it controls and whether it holds each lock of the bank. -/
  | group (g : LockGroup) (controls holds : List Bool)
  | reports (rs : List Report)

abbrev Outcome := Except Failure Answer

/-- What is left to do for a request once its routine has ended. -/
inductive Ending
  | answer (outcome : Outcome)
  | add (lock : Nat) (n : Int64)
  | openGuard (lock : Nat) (name : String)
  | keep (name : String) (g : LockGroup) (outcome : Outcome)
  /-- Keeps a group and a window on it. -/
  | keepOpen (name : String) (g : LockGroup) (outcome : Outcome)

structure Sleeper where
  thread : Thread
  lock : Nat
  /-- Who held the lock when the thread came. -/
  holder : Option Thread
  /-- How the thread goes on once it has entered. -/
  next : Routine Ending

structure Session where
  bank : Bank := {}
  /-- The numbers behind the locks. -/
  values : Array Int64 := #[]
  /-- When waits are reported, if they are. -/
  watch : Option Watch := none
  contention : Array Contention := #[]
  /-- How many observers are told of each report. -/
  observers : Nat := 1
  delivered : List Report := []
  groups : List ((Thread × String) × LockGroup) := []
  /-- The groups on which a window is open. -/
  windows : List (Thread × String) := []
  guards : List ((Thread × String) × Nat) := []
  sleepers : List Sleeper := []

namespace Session

/-- A session with locks `L0`, `L1` and so on. -/
def ofSize (locks spinLimit : Nat) (watch : Option Watch) (observers : Nat) : Session where
  bank := ⟨(Array.range locks).map fun i => { name := s!"L{i}", spinLimit }⟩
  values := Array.replicate locks 0
  watch := watch
  contention := Array.replicate locks {}
  observers := observers

def owners (s : Session) : List (Option Thread) := s.bank.locks.toList.map (·.owner)

def group? (s : Session) (me : Thread) (name : String) : Option LockGroup :=
  s.groups.lookup (me, name)

def keepGroup (s : Session) (me : Thread) (name : String) (g : LockGroup) : Session :=
  { s with groups := ((me, name), g) :: s.groups.filter (·.1 ≠ (me, name)) }

def forgetGroup (s : Session) (me : Thread) (name : String) : Session :=
  { s with groups := s.groups.filter (·.1 ≠ (me, name)) }

def setWindow (s : Session) (me : Thread) (name : String) (isOpen : Bool) : Session :=
  let others := s.windows.filter (· ≠ (me, name))
  { s with windows := if isOpen then (me, name) :: others else others }

def valueOf (s : Session) (lock : Nat) : Int64 := s.values.getD lock 0

def grow (s : Session) (lock : Nat) (n : Int64) : Session :=
  { s with values := s.values.setIfInBounds lock (s.valueOf lock + n) }

def outcome (breach : Option Breach) (a : Answer) : Outcome :=
  match breach with
  | none => .ok a
  | some b => .error (.breach b)

/-- Adds to the number behind a lock that was entered for this. -/
def addInside (s : Session) (me : Thread) (lock : Nat) (n : Int64) : Outcome × Session :=
  match s.bank.on lock (Lock.lend me) with
  | (.error f, bank) => (.error f, { s with bank })
  | (.ok (), bank) =>
    let s := ({ s with bank } : Session).grow lock n
    let (closed, bank) := s.bank.on lock (Lock.closeGuard me)
    (closed.map fun _ => .value (s.valueOf lock), { s with bank })

def dropGuard (s : Session) (me : Thread) (name : String) : Except Failure Unit × Session :=
  match s.guards.lookup (me, name) with
  | none => (.ok (), s)
  | some lock =>
    let (closed, bank) := s.bank.on lock (Lock.closeGuard me)
    (closed, { s with bank, guards := s.guards.filter (·.1 ≠ (me, name)) })

/-- Keeps a guard on a lock that was entered for this. It takes the place of one of the same
name, which is given back. -/
def keepGuard (s : Session) (me : Thread) (lock : Nat) (name : String) : Outcome × Session :=
  match s.bank.on lock (Lock.lend me) with
  | (.error f, bank) => (.error f, { s with bank })
  | (.ok (), bank) =>
    let (dropped, s) := ({ s with bank } : Session).dropGuard me name
    (dropped.map fun _ => .value (s.valueOf lock),
      { s with guards := ((me, name), lock) :: s.guards })

def conclude (s : Session) (me : Thread) : Ending → Outcome × Session
  | .answer o => (o, s)
  | .add lock n => s.addInside me lock n
  | .openGuard lock name => s.keepGuard me lock name
  | .keep name g o => (o, s.keepGroup me name g)
  | .keepOpen name g o => (o, (s.keepGroup me name g).setWindow me name true)

/-- Runs a routine of a thread. Without an outcome the thread sleeps. -/
def run (s : Session) (me : Thread) (r : Routine Ending) :
    Option Outcome × Session × List Notice :=
  match r.advance me s.bank with
  | (.finished e, bank, notices) =>
    let (o, s) := ({ s with bank } : Session).conclude me e
    (some o, s, notices)
  | (.waiting lock holder next, bank, notices) =>
    (none, { s with bank, sleepers := s.sleepers ++ [⟨me, lock, holder, next⟩] }, notices)

/-- A routine on a group, which is kept afterwards. -/
def regroup (s : Session) (me : Thread) (name : String) (call : LockGroup → LockGroup.Call) :
    Routine Ending :=
  match s.group? me name with
  | none => .done (.answer (.ok .nothing))
  | some g => do
    let (g, breach) ← call g
    return .keep name g (outcome breach .nothing)

def assemble (name : String) (g : LockGroup) : Routine Ending := do
  let (g, breach) ← g.enterAll
  return .keep name g (outcome breach (.count g.size))

/-- Leaves locks of a group until the window is ended. A window that is open already ends, and
the new one takes its place. -/
def reopen (s : Session) (me : Thread) (name : String) (locks : List Nat) : Routine Ending :=
  match s.group? me name with
  | none => .done (.answer (.ok .nothing))
  | some g => do
    let (g, breach) ← g.leaveOnly locks
    if breach.isSome then return .keep name g (outcome breach .nothing)
    if (me, name) ∈ s.windows then
      let (g, breach) ← g.endWindow
      return .keepOpen name g (outcome breach .nothing)
    return .keepOpen name g (.ok .nothing)

def routine (s : Session) (me : Thread) : Request → Routine Ending
  | .enter l => do
    Routine.take l
    return .answer (.ok .nothing)
  | .tryEnter l => do return .answer (.ok (.flag (← Routine.tryTake l)))
  | .leave l => do
    if ← Routine.give l then return .answer (.ok .nothing)
    return .answer (.error (.breach (.notHolder (s.bank.get l).name)))
  | .add l n => do
    Routine.take l
    return .add l n
  | .openGuard l name => do
    Routine.take l
    return .openGuard l name
  | .build name locks =>
    assemble name (.ofList (locks.map fun i => (i.1, (s.bank.get i.1).name, i.2)))
  | .leaveOnly name locks => s.regroup me name (·.leaveOnly locks)
  | .enterOnly name locks => s.regroup me name (·.enterOnly locks)
  | .release name => s.regroup me name (·.release)
  | .openWindow name locks => s.reopen me name locks
  | .endWindow name =>
    if (me, name) ∈ s.windows then s.regroup me name (·.endWindow)
    else .done (.answer (.ok .nothing))
  | .drop name =>
    match s.group? me name with
    | none => .done (.answer (.ok .nothing))
    | some g => do
      let (_, breach) ← g.release
      return .answer (outcome breach .nothing)
  | .inspect l =>
    let lock := s.bank.get l
    .done (.answer (.ok (.lock lock.name lock.isLocked (lock.isOwnedBy me) (lock.depthOf me))))
  | .depths => .done (.answer (.ok (.depths (s.bank.locks.toList.map (·.depthOf me)))))
  | .inspectGroup name =>
    match s.group? me name with
    | none => .done (.answer (.ok .nothing))
    | some g =>
      let locks := List.range s.bank.size
      .done (.answer (.ok (.group g (locks.map g.controls) (locks.map g.holds))))
  | .reports => .done (.answer (.ok (.reports s.delivered)))
  | .addThrough .. | .closeGuard _ => .done (.answer (.ok .nothing))

/-- Answers a request that names locks of the bank only, unless its thread has to sleep. -/
def request (s : Session) (me : Thread) (q : Request) : Option Outcome × Session × List Notice :=
  match q with
  | .addThrough name n =>
    match s.guards.lookup (me, name) with
    | none => (some (.ok .nothing), s, [])
    | some lock =>
      let s := s.grow lock n
      (some (.ok (.value (s.valueOf lock))), s, [])
  | .closeGuard name =>
    let (closed, s) := s.dropGuard me name
    (some (closed.map fun _ => .nothing), s, [])
  | .drop name =>
    let (o, s, notices) := s.run me (s.routine me q)
    (o, (s.forgetGroup me name).setWindow me name false, notices)
  | .endWindow name => (s.setWindow me name false).run me (s.routine me q)
  | .reports =>
    let (o, s, notices) := s.run me (s.routine me q)
    (o, { s with delivered := [] }, notices)
  | q => s.run me (s.routine me q)

/-- Takes note of the end of a wait. The session has no clock: every wait counts as the
shortest one. -/
def noteWait (s : Session) (lock : Nat) (holder : Option Thread) : List Notice × Session :=
  match s.watch with
  | none => ([], s)
  | some w =>
    let (report, c) := (s.contention.getD lock {}).record w ⟨holder, 0⟩
    let s := { s with contention := s.contention.setIfInBounds lock c }
    match report with
    | none => ([], s)
    | some waits =>
      let name := (s.bank.get lock).name
      ([.contended name waits.length],
        { s with delivered := s.delivered ++ List.replicate s.observers ⟨name, waits⟩ })

def woken? (b : Bank) : List Sleeper → Option (Sleeper × List Sleeper)
  | [] => none
  | w :: ws =>
    if (b.get w.lock).isAsleep w.thread then
      (woken? b ws).map fun found => (found.1, w :: found.2)
    else some (w, ws)

/-- Lets the threads go on that have been woken, for at most a number of turns. -/
def settle : (turns : Nat) → Session → List (Thread × Outcome) × Session × List Notice
  | 0, s => ([], s, [])
  | turns + 1, s =>
    match woken? s.bank s.sleepers with
    | none => ([], s, [])
    | some (w, others) =>
      match s.bank.on w.lock (Lock.resume w.thread) with
      | (false, bank) => settle turns { s with bank, sleepers := others ++ [w] }
      | (true, bank) =>
        let (notices, s) := ({ s with bank, sleepers := others } : Session).noteWait w.lock w.holder
        let (o, s, more) := s.run w.thread w.next
        let (rest, s, last) := settle turns s
        let ended := match o with
          | some o => [(w.thread, o)]
          | none => []
        (ended ++ rest, s, notices ++ more ++ last)

/-- The turns that woken threads are given: in each failed round of a group, and for each of its
locks, a thread waits once. -/
def turns (s : Session) : Nat :=
  2 * s.sleepers.length * (s.bank.size + LockGroup.triedRounds + 1)

/-- What comes of a request: its outcome, unless the thread sleeps, and the outcomes of the
threads that it let go on. -/
structure Reply where
  outcome : Option Outcome
  joined : List (Thread × Outcome)
  notices : List Notice

def serve (s : Session) (me : Thread) (q : Request) : Reply × Session :=
  let (outcome, s, notices) :=
    if q.locks.all (· < s.bank.size) then s.request me q
    else (some (.error (.breach .outOfBounds)), s, [])
  let (joined, s, more) := s.settle s.turns
  (⟨outcome, joined, notices ++ more⟩, s)

end Session

/-- A number behind a lock of its own: the number after an addition through the lock, and
whether the lock is held afterwards. -/
def cell (name : String) (v n : Int64) : Int64 × String × Bool :=
  let l : Lock := { name }
  let (_, l) := l.openGuard 0
  let (_, l) := l.closeGuard 0
  (v + n, l.name, l.isLocked)

end EntityStore.Lock
