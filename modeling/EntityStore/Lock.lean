import EntityStore.Fault
import EntityStore.Lock.Word

/-!
# Locks

A lock is owned by one thread at a time, which may enter it again and has to leave it as often.
The contents behind a lock are lent to the owner once at a time: asking for them again is a
breach, however often the lock was entered.
-/
namespace EntityStore

structure Lock where
  name : String
  /-- How often a waiting thread spins before it sleeps. -/
  spinLimit : Nat := 64
  gate : Lock.Gate := {}
  owner : Option Thread := none
  /-- How often the owner has entered without leaving. -/
  depth : Nat := 0
  /-- Whether the contents are lent out. -/
  lent : Bool := false
  deriving DecidableEq, Repr

namespace Lock

instance : Inhabited Lock := ⟨{ name := "" }⟩

def isLocked (l : Lock) : Bool := l.gate.word.held

def isOwnedBy (l : Lock) (me : Thread) : Bool := l.owner = some me

/-- How often the thread has entered without leaving. -/
def depthOf (l : Lock) (me : Thread) : Nat := if l.isOwnedBy me then l.depth else 0

/-- Runs a call from a phase on. Unless the call ends with success, the owner stays. -/
def proceed (me : Thread) (phase : Phase) (l : Lock) : Bool × Lock :=
  match l.gate.settle l.spinLimit me (Gate.enough l.spinLimit) phase with
  | (some true, gate) => (true, { l with gate, owner := some me, depth := 1 })
  | (_, gate) => (false, { l with gate })

/-- Enters the lock. If that is not possible yet, the thread sleeps in the queue. -/
def enter (me : Thread) (l : Lock) : Bool × Lock :=
  if l.isOwnedBy me then (true, { l with depth := l.depth + 1 }) else l.proceed me .enter

def tryEnter (me : Thread) (l : Lock) : Bool × Lock :=
  if l.isOwnedBy me then (true, { l with depth := l.depth + 1 }) else l.proceed me .peek

def isAsleep (l : Lock) (me : Thread) : Bool := me ∈ l.gate.queue

/-- Enters the lock after having slept. A thread that is still in the queue sleeps on. -/
def resume (me : Thread) (l : Lock) : Bool × Lock :=
  if l.isAsleep me then (false, l) else l.proceed me .asleep

def leave (me : Thread) (l : Lock) : Except Breach Lock :=
  if !l.isOwnedBy me then .error (.notHolder l.name)
  else if 1 < l.depth then .ok { l with depth := l.depth - 1 }
  else .ok { l with
    gate := (l.gate.settle l.spinLimit me (Gate.enough l.spinLimit) .leave).2
    owner := none
    depth := l.depth - 1 }

/-- Takes the contents of a lock that the thread has entered for this. If they are lent out
already, the lock is left again. -/
def lend (me : Thread) (l : Lock) : Except Failure Unit × Lock :=
  if l.lent then
    match l.leave me with
    | .ok l => (.error (.breach (.nestedGuard l.name)), l)
    | .error b => (.error (.breach b), l)
  else (.ok (), { l with lent := true })

def openGuard (me : Thread) (l : Lock) : Except Failure Unit × Lock :=
  match l.enter me with
  | (true, l) => l.lend me
  | (false, l) => (.error .stuck, l)

def closeGuard (me : Thread) (l : Lock) : Except Failure Unit × Lock :=
  match ({ l with lent := false } : Lock).leave me with
  | .ok l => (.ok (), l)
  | .error b => (.error (.breach b), { l with lent := false })

theorem depthOf_of_not_owned {l : Lock} {me : Thread} (h : l.isOwnedBy me = false) :
    l.depthOf me = 0 := by
  simp [depthOf, h]

@[simp] theorem leave_of_not_owned {l : Lock} {me : Thread} (h : l.isOwnedBy me = false) :
    l.leave me = .error (.notHolder l.name) := by
  simp [leave, h]

@[simp] theorem enter_of_owned {l : Lock} {me : Thread} (h : l.isOwnedBy me = true) :
    l.enter me = (true, { l with depth := l.depth + 1 }) := by
  simp [enter, h]

end Lock

end EntityStore
