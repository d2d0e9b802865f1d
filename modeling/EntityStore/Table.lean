import EntityStore.Packed
import EntityStore.Workforce

/-!
# Tables

A table keeps one record per entity. Of all the entities that share an index only one, the
newest that was ever placed, can have a record: an older one is refused, a newer one evicts.

A table can be frozen: readers then see the copy of that moment, from which only records that
leave the table disappear. It is not frozen again while anyone reads.
-/
namespace EntityStore

structure Table (R : Type) where
  rows : Packed Entity R := {}
  /-- Whether the table was ever frozen. -/
  isFrozen : Bool := false
  /-- The copy for readers. -/
  copy : Packed Entity R := {}
  /-- The numbers of the readers there are. -/
  readers : List Nat := []
  /-- How many readers there ever were. -/
  admitted : Nat := 0

inductive Verdict (R : Type)
  /-- It replaces the record that the entity has. -/
  | replace (previous : R)
  /-- A newer entity, or one not comparable, has the place. -/
  | refuse (occupant : Entity)
  /-- An older entity has the place and loses its record. -/
  | evict (occupant : Entity)
  /-- The place is free. -/
  | accept

namespace Table

variable {R : Type}

instance : Inhabited (Table R) := ⟨{}⟩

def verdict (t : Table R) (e : Entity) : Verdict R :=
  match t.rows.get? e with
  | some previous => .replace previous
  | none =>
    match t.rows.occupant? e with
    | none => .accept
    | some o => if e.generation.isNewerThan o.generation then .evict o else .refuse o

def edit (t : Table R) (e : Entity) (f : R → R) : Table R :=
  { t with rows := t.rows.modify e f }

def editAll (t : Table R) (f : R → R) : Table R :=
  { t with rows := t.rows.mapRows fun _ => f }

def insert (t : Table R) (e : Entity) (r : R) : Except Fault (Table R) :=
  match t.rows.insert e r with
  | .ok (_, rows) => .ok { t with rows }
  | .error f => .error f

/-- What readers see after a record has left. -/
def withoutCopy (t : Table R) (e : Entity) : Packed Entity R :=
  if t.isFrozen then
    match t.copy.erase e with
    | .ok (_, _, copy) => copy
    | .error _ => t.copy
  else t.copy

/-- Removes a record, also from the copy for readers. -/
def remove (t : Table R) (e : Entity) : Except Fault (R × Table R) :=
  match t.rows.erase e with
  | .ok (_, r, rows) => .ok (r, { t with rows, copy := t.withoutCopy e })
  | .error f => .error f

def sort (t : Table R) (le : R → R → Bool) : Table R := { t with rows := t.rows.sort le }

def sortBy (t : Table R) (m : Measure) (f : R → Int64) : Except Breach (Table R) :=
  (t.rows.sortBy m f).map fun rows => { t with rows }

/-- Copies the records for readers, unless there are any. -/
def freeze (t : Table R) : Bool × Table R :=
  if t.readers.isEmpty then (true, { t with copy := t.rows, isFrozen := true }) else (false, t)

def openReader (t : Table R) : Nat × Table R :=
  (t.admitted, { t with readers := t.admitted :: t.readers, admitted := t.admitted + 1 })

def closeReader (t : Table R) (reader : Nat) : Table R :=
  { t with readers := t.readers.erase reader }

def divided (t : Table R) (w : Workforce) (least : Nat) : List (Entity × R) :=
  (w.ranges t.rows.size least).flatMap (Workforce.slice t.rows.toList)

theorem freeze_fst (t : Table R) : t.freeze.1 = t.readers.isEmpty := by
  unfold freeze
  split <;> simp_all

end Table

end EntityStore
