import EntityStore.Lock.Routine
import EntityStore.Text.Quoted

/-!
# Groups of locks

A thread acquires the locks of a group as one unit: it waits for the first one only, and if a
later one is taken it gives all of them back and tries again. After a number of failed rounds
it enters them one after the other in the order of the bank, which no other group can block for
ever. The locks that a group was told to leave alone are part of it but never touched.

Every call is a routine that ends in the group afterwards; a breach, where a lock turns out to
be held by nobody the group knows of, leaves the group as it was at that point.
-/
namespace EntityStore

namespace LockGroup

/-- A lock as a group sees it. -/
structure Member where
  /-- The number of the lock in the bank. -/
  lock : Nat
  name : String
  /-- Whether the group is responsible for entering and leaving the lock. -/
  controlled : Bool
  /-- Whether the group has entered the lock and not left it. -/
  held : Bool := false
  deriving DecidableEq, Repr

def Member.isMissing (m : Member) : Bool := m.controlled && !m.held

def Member.isKept (m : Member) : Bool := m.controlled && m.held

end LockGroup

open LockGroup

/-- Locks acquired as one unit, in ascending order of their numbers. -/
structure LockGroup where
  members : List Member := []
  deriving DecidableEq, Repr

namespace LockGroup

instance : Inhabited LockGroup := ⟨{}⟩

/-- Adds a lock to members in ascending order. One that is named twice is controlled only if
both times it was meant to be. -/
def enlist (lock : Nat) (name : String) (controlled : Bool) : List Member → List Member
  | [] => [{ lock, name, controlled }]
  | m :: ms =>
    if lock < m.lock then { lock, name, controlled } :: m :: ms
    else if lock = m.lock then { m with controlled := m.controlled && controlled } :: ms
    else m :: enlist lock name controlled ms

/-- The group of some locks, none of them entered yet. Each is named with whether the group is
to control it; to leave a lock alone takes precedence. -/
def ofList (items : List (Nat × String × Bool)) : LockGroup :=
  ⟨items.foldr (fun i => enlist i.1 i.2.1 i.2.2) []⟩

def size (g : LockGroup) : Nat := g.members.length

def isEmpty (g : LockGroup) : Bool := g.members.isEmpty

def find? (g : LockGroup) (lock : Nat) : Option Member := g.members.find? (·.lock = lock)

def controls (g : LockGroup) (lock : Nat) : Bool := (g.find? lock).any (·.controlled)

def holds (g : LockGroup) (lock : Nat) : Bool := (g.find? lock).any (·.held)

/-- The names of the locks, each with whether the group holds it as its own. -/
def text (g : LockGroup) : String :=
  Text.bracketed (g.members.map fun m => s!"({Text.quoted m.name}, {m.isKept})")

/-- How many rounds of trying fail before the locks are entered in order. -/
def triedRounds : Nat := 8

/-- Enters the locks if all of them are free; otherwise gives back those entered, the last one
first. -/
def tryAll : (locks : List Nat) → Routine Bool
  | [] => return true
  | l :: ls => do
    if ← .tryTake l then
      if ← tryAll ls then return true
      let _ ← Routine.give l
      return false
    else return false

/-- One round: waits for the first lock and tries the others. -/
def round : (locks : List Nat) → Routine Bool
  | [] => return true
  | l :: ls => do
    Routine.take l
    if ← tryAll ls then return true
    let _ ← Routine.give l
    return false

def rounds (locks : List Nat) : (count : Nat) → Routine Bool
  | 0 => return false
  | n + 1 => do
    if ← round locks then return true
    rounds locks n

def takeAll : (locks : List Nat) → Routine Unit
  | [] => return ()
  | l :: ls => do
    Routine.take l
    takeAll ls

def acquire (locks : List Nat) : Routine Unit := do
  if ← rounds locks triedRounds then return ()
  Routine.say (.orderedFallback locks.length triedRounds)
  takeAll locks

/-- Leaves the locks chosen that the group keeps, the last one first, up to a lock that the
thread does not hold. -/
def leaveMembers (chosen : Member → Bool) : List Member → Routine (List Member × Option Breach)
  | [] => return ([], none)
  | m :: ms => do
    let (ms, breach) ← leaveMembers chosen ms
    if breach.isNone && chosen m && m.isKept then
      if ← Routine.give m.lock then return ({ m with held := false } :: ms, none)
      else return (m :: ms, some (.notHolder m.name))
    else return (m :: ms, breach)

/-- What a call leaves of the group, and the breach that ended it. -/
abbrev Call := Routine (LockGroup × Option Breach)

def leaveWhere (g : LockGroup) (chosen : Member → Bool) : Call := do
  let (members, breach) ← leaveMembers chosen g.members
  return (⟨members⟩, breach)

/-- Enters the locks chosen that the group controls and does not hold. Locks that it holds and
that come after the first of them are left before and entered again with them. -/
def enterWhere (g : LockGroup) (chosen : Member → Bool) : Call := do
  match g.members.find? fun m => chosen m && m.isMissing with
  | none => return (g, none)
  | some first =>
    let wanted := fun (m : Member) =>
      (chosen m && m.isMissing) || (first.lock ≤ m.lock && m.isKept)
    let targets := (g.members.filter wanted).map (·.lock)
    let (g, breach) ← g.leaveWhere fun m => first.lock ≤ m.lock
    if breach.isSome then return (g, breach)
    acquire targets
    return (⟨g.members.map fun m => if m.lock ∈ targets then { m with held := true } else m⟩, none)

def leaveOnly (g : LockGroup) (locks : List Nat) : Call := g.leaveWhere (·.lock ∈ locks)

def enterOnly (g : LockGroup) (locks : List Nat) : Call := g.enterWhere (·.lock ∈ locks)

def release (g : LockGroup) : Call := g.leaveWhere fun _ => true

def enterAll (g : LockGroup) : Call := g.enterWhere fun _ => true

/-- Ends a window in which some locks were left: the whole group is acquired again as one
unit. -/
def endWindow (g : LockGroup) : Call := do
  let (g, breach) ← g.release
  if breach.isSome then return (g, breach)
  g.enterAll

end LockGroup

end EntityStore
