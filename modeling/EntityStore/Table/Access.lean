import EntityStore.Guarded
import EntityStore.Table

/-!
# Access to a guarded table

Every call takes the table from behind its lock for itself, and therefore fails inside a call
that has it. A record that leaves releases the handles that it owns first.
-/
namespace EntityStore.Table

open Guarded (Op within note fail)

variable {R α : Type} [Record R]

def read (me : Thread) (f : Table R → α) : Op (Table R) α :=
  within me do return f (← Guarded.contents?)

def change (me : Thread) (f : Table R → α × Table R) : Op (Table R) α :=
  within me do
    let (a, t) := f (← Guarded.contents?)
    Guarded.put t
    return a

def takeOut (e : Entity) : Op (Table R) R := do
  match (← Guarded.contents?).rows.get? e with
  | some r => Guarded.releaseOwned (.entity e) r
  | none => pure ()
  match (← Guarded.contents?).remove e with
  | .error f => fail f
  | .ok (r, t) =>
    Guarded.put t
    return r

/-- Places a record for an entity, and gives the one that it replaces. -/
def populate (me : Thread) (e : Entity) (r : R) : Op (Table R) (Option R) := do
  if e.isVoid then fail (.invalid e)
  within me do
    match (← Guarded.contents?).verdict e with
    | .replace previous =>
      Guarded.put ((← Guarded.contents?).edit e fun _ => r)
      return some previous
    | .refuse occupant =>
      note (.rejectedStale e (Record.tableName R) occupant)
      fail (.invalid e)
    | .evict occupant =>
      note (.evictedStale occupant (Record.tableName R) e)
      let _ ← takeOut occupant
    | .accept => pure ()
    match (← Guarded.contents?).insert e r with
    | .error f => fail f
    | .ok t =>
      Guarded.put t
      return none

def destroy (me : Thread) (e : Entity) : Op (Table R) R :=
  within me do
    if (← Guarded.contents?).rows.contains e then takeOut e
    else fail (.recordNotFound e (Record.tableName R))

/-- A value offered to a table by someone who does not know its record type. -/
inductive Offer (R : Type)
  | missing
  /-- Of another type, be it one whose tables have the same name. -/
  | foreign
  | record (r : R)

def populateAny (me : Thread) (e : Entity) : Offer R → Op (Table R) Unit
  | .missing => fail (.invalidData (Record.tableName R) .missing)
  | .foreign => fail (.invalidData (Record.tableName R) .mismatch)
  | .record r => do let _ ← populate me e r

def sortRows (me : Thread) (m : Measure) (f : R → Int64) : Op (Table R) Unit :=
  within me do
    match (← Guarded.contents?).sortBy m f with
    | .error b => throw (.breach b)
    | .ok t => Guarded.put t

def takeSnapshot (me : Thread) : Op (Table R) Bool :=
  within me do
    let (taken, t) := (← Guarded.contents?).freeze
    unless taken do note (.snapshotInUse (Record.tableName R))
    Guarded.put t
    return taken

/-- Admits a reader. The lock is entered, but the table is not taken from behind it. -/
def admitReader (me : Thread) : Op (Table R) Nat := Guarded.beside me openReader

/-- Lets a reader go, without the lock. -/
def dismissReader (reader : Nat) : Op (Table R) Unit := do
  Guarded.put ((← Guarded.contents?).closeReader reader)

def text (R : Type) [Record R] : String :=
  Text.braced "Table" [("name", Text.quoted (Record.tableName R))] true

end EntityStore.Table
