import EntityStore.Table.Access

/-!
# Requests to a table

Each call of a table as data, with its answer. Entities are named by values of a type of their
own, so that a request can be written down before the entity is known.
-/
namespace EntityStore.Table

inductive Request (E R : Type)
  | populate (e : E) (r : R)
  | offer (e : E) (o : Offer R)
  | find (e : E)
  /-- A number read off the record. -/
  | measure (e : E) (f : R → Int64)
  /-- Changes the record and reads a number off it. -/
  | adjust (e : E) (change : R → R) (f : R → Int64)
  | contains (e : E)
  | destroy (e : E)
  /-- Destroys the record without showing it. -/
  | discard (e : E)
  | count
  | entities
  | rows
  | adjustAll (change : R → R)
  /-- Reads a number off every record, dividing the records among a workforce. -/
  | survey (w : Workforce) (least : Nat) (f : R → Int64)
  /-- Sorts the records by a number of each. -/
  | sort (m : Measure) (f : R → Int64)
  | takeSnapshot
  | snapshotState
  /-- The names of the table and of its lock, and the table as it is shown. -/
  | names
  | fields
  /-- Changes every record, then that of one entity once more, and looks around. -/
  | inspect (e : E) (change : R → R)
  /-- Counts the records while the table is taken from behind its lock. -/
  | nest
  | admitReader
  | dismissReader (reader : Nat)
  /-- What a reader sees, and what it sees of one entity. -/
  | readCopy (reader : Nat) (e : Option E)

structure Sight (R : Type) where
  slot : Option Nat
  /-- The entity that has the place. -/
  occupant : Option Entity
  record : Option R
  /-- One more than the largest index ever stored. -/
  reach : Nat

inductive Answer (R : Type)
  | nothing
  | record (r : Option R)
  | number (n : Option Int64)
  | flag (b : Bool)
  /-- Whether an entity has a record. -/
  | found (b : Bool)
  | count (size : Nat) (isEmpty : Bool)
  | entities (es : List Entity)
  | rows (rs : List (Entity × R))
  | numbers (ns : List (Entity × Int64))
  | snapshotState (isFrozen : Bool) (readers : Nat)
  | names (ns : List String)
  | fields (fs : List Field)
  | inspection (depth : Nat) (keys : List Entity) (s : Sight R)
  | reader (number : Nat)
  | copy (rows : List (Entity × R)) (s : Option (Sight R))

def Request.mapEntity {E E' R : Type} (f : E → E') : Request E R → Request E' R
  | populate e r => populate (f e) r
  | offer e o => offer (f e) o
  | find e => find (f e)
  | measure e g => measure (f e) g
  | adjust e change g => adjust (f e) change g
  | contains e => contains (f e)
  | destroy e => destroy (f e)
  | discard e => discard (f e)
  | count => count
  | entities => entities
  | rows => rows
  | adjustAll change => adjustAll change
  | survey w least g => survey w least g
  | sort m g => sort m g
  | takeSnapshot => takeSnapshot
  | snapshotState => snapshotState
  | names => names
  | fields => fields
  | inspect e change => inspect (f e) change
  | nest => nest
  | admitReader => admitReader
  | dismissReader reader => dismissReader reader
  | readCopy reader e => readCopy reader (e.map f)

def sight {R : Type} (p : Packed Entity R) (e : Entity) : Sight R :=
  ⟨p.slotOf? e, p.occupant? e, p.get? e, p.reach⟩

def entityLe (a b : Entity × Int64) : Bool := (a.1.ident.compare b.1.ident).isLE

variable {R : Type} [Record R]

open Guarded (Op within)

/-- Changes every record and one of them again, and looks around before the table goes back. -/
def lookAround (me : Thread) (e : Entity) (change : R → R) : Op (Table R) (Answer R) :=
  within me do
    Guarded.put (((← Guarded.contents?).editAll change).edit e change)
    let s ← get
    return .inspection (s.lock.depthOf me) s.contents.rows.keys (sight s.contents.rows e)

def serve (me : Thread) : Request Entity R → Op (Table R) (Answer R)
  | .populate e r => do return .record (← populate me e r)
  | .offer e o => do
    populateAny me e o
    return .nothing
  | .find e => do return .record (← read me (·.rows.get? e))
  | .measure e f => do return .number (← read me fun t => (t.rows.get? e).map f)
  | .adjust e g f => do
    return .number (← change me fun t => (((t.edit e g).rows.get? e).map f, t.edit e g))
  | .contains e => do return .found (← read me (·.rows.contains e))
  | .destroy e => do return .record (some (← destroy me e))
  | .discard e => do
    let _ ← destroy me e
    return .nothing
  | .count => do
    return .count (← read me (·.rows.size)) (← read me (·.rows.isEmpty))
  | .entities => do return .entities (← read me (·.rows.keys))
  | .rows => do return .rows (← read me (·.rows.toList))
  | .adjustAll g => do
    change me fun t => ((), t.editAll g)
    return .nothing
  | .survey w least f => do
    let rows ← read me (·.divided w least)
    return .numbers ((rows.map fun r => (r.1, f r.2)).mergeSort entityLe)
  | .sort m f => do
    sortRows me m f
    return .nothing
  | .takeSnapshot => do return .flag (← takeSnapshot me)
  | .snapshotState => do
    let isFrozen ← read me (·.isFrozen)
    return .snapshotState isFrozen (← Guarded.contents?).readers.length
  | .names => do
    let name := Record.tableName R
    return .names [name, name, text R, (← get).lock.name]
  | .fields => return .fields (Record.fields R)
  | .inspect e g => lookAround me e g
  | .nest => within me do
    let n ← read me (·.rows.size)
    return .count n (n == 0)
  | .admitReader => do return .reader (← admitReader me)
  | .dismissReader reader => do
    dismissReader reader
    return .nothing
  | .readCopy reader e => do
    let t ← Guarded.contents?
    if reader ∈ t.readers then return .copy t.copy.toList (e.map (sight t.copy))
    return .nothing

end EntityStore.Table
