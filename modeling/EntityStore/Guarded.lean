import EntityStore.Handle.Table
import EntityStore.Lock
import EntityStore.Record

/-!
# Contents behind a lock

A store of records behind its lock, next to the handle table in which its records own handles.
Operations keep what they did before they failed; the lock is always given back.
-/
namespace EntityStore

structure Guarded (σ : Type) where
  lock : Lock
  contents : σ
  handles : HandleTable := {}
  /-- Whether the handles of a record are released when the record is destroyed. -/
  connected : Bool := false
  /-- What was written, the first line first. -/
  journal : Array Notice := #[]

namespace Guarded

variable {σ α : Type}

abbrev Op (σ α : Type) := EStateM Failure (Guarded σ) α

/-- Runs an operation with the contents taken from behind the lock. -/
def within (me : Thread) (body : Op σ α) : Op σ α := fun s =>
  match s.lock.openGuard me with
  | (.error f, lock) => .error f { s with lock }
  | (.ok (), lock) =>
    match body { s with lock } with
    | .error f s => .error f { s with lock := (s.lock.closeGuard me).2 }
    | .ok a s =>
      match s.lock.closeGuard me with
      | (.error f, lock) => .error f { s with lock }
      | (.ok (), lock) => .ok a { s with lock }

/-- Enters the lock without taking the contents from behind it. -/
def beside (me : Thread) (body : σ → α × σ) : Op σ α := fun s =>
  match s.lock.enter me with
  | (false, lock) => .error .stuck { s with lock }
  | (true, lock) =>
    let (a, contents) := body s.contents
    match lock.leave me with
    | .error b => .error (.breach b) { s with lock, contents }
    | .ok lock => .ok a { s with lock, contents }

def contents? : Op σ σ := return (← get).contents

def put (contents : σ) : Op σ Unit := modify fun s => { s with contents }

def note (n : Notice) : Op σ Unit := modify fun s => { s with journal := s.journal.push n }

def fail (f : Fault) : Op σ α := throw (.fault f)

/-- Releases the handles that a record owns. One that is dead already is noticed and passed
over. -/
def releaseOwned {R : Type} [Record R] (owner : Owner) (record : R) : Op σ Unit :=
  modify fun s =>
    if s.connected then
      let (notices, handles) :=
        s.handles.releaseOwned owner (Record.tableName R) (Record.owned record).ids
      { s with handles, journal := s.journal ++ notices.toArray }
    else s

end Guarded

end EntityStore
