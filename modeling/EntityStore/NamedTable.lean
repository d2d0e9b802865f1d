import EntityStore.Guarded

/-!
# Tables by name

Records under names, in the order in which the names came. A name that is destroyed and comes
back stands at the end. The handles of a destroyed record are released when it has left.
-/
namespace EntityStore

structure NamedTable (R : Type) where
  entries : List (String × R) := []

namespace NamedTable

open Guarded (Op within)

section Contents

variable {R : Type}

instance : Inhabited (NamedTable R) := ⟨{}⟩

def size (t : NamedTable R) : Nat := t.entries.length

def isEmpty (t : NamedTable R) : Bool := t.entries.isEmpty

def names (t : NamedTable R) : List String := t.entries.map (·.1)

def find? (t : NamedTable R) (name : String) : Option R := t.entries.lookup name

def contains (t : NamedTable R) (name : String) : Bool := (t.find? name).isSome

def edit (t : NamedTable R) (name : String) (f : R → R) : NamedTable R :=
  ⟨t.entries.map fun e => if e.1 = name then (name, f e.2) else e⟩

/-- Stores a record under a name; a new name goes to the end. -/
def insert (t : NamedTable R) (name : String) (r : R) : NamedTable R :=
  if t.contains name then t.edit name fun _ => r else ⟨t.entries ++ [(name, r)]⟩

/-- Removes a name; the others keep their order. -/
def erase (t : NamedTable R) (name : String) : NamedTable R :=
  ⟨t.entries.filter (·.1 ≠ name)⟩

theorem names_edit (t : NamedTable R) (name : String) (f : R → R) :
    (t.edit name f).names = t.names := by
  simp only [edit, names, List.map_map]
  refine List.map_congr_left fun e _ => ?_
  simp only [Function.comp_apply]
  split <;> simp_all

theorem names_erase (t : NamedTable R) (name : String) :
    (t.erase name).names = t.names.filter (· ≠ name) := by
  simp [erase, names, List.filter_map, Function.comp_def]

end Contents

variable {R α : Type} [Record R]

def read (me : Thread) (f : NamedTable R → α) : Op (NamedTable R) α :=
  within me do return f (← Guarded.contents?)

def populate (me : Thread) (name : String) (r : R) : Op (NamedTable R) (Option R) :=
  within me do
    let t ← Guarded.contents?
    Guarded.put (t.insert name r)
    return t.find? name

def adjust (me : Thread) (name : String) (change : R → R) (f : R → α) :
    Op (NamedTable R) (Option α) :=
  within me do
    Guarded.put ((← Guarded.contents?).edit name change)
    return ((← Guarded.contents?).find? name).map f

def destroy (me : Thread) (name : String) : Op (NamedTable R) (Option R) := do
  let found ← within me do
    let t ← Guarded.contents?
    Guarded.put (t.erase name)
    return t.find? name
  match found with
  | some r => Guarded.releaseOwned (.name name) r
  | none => pure ()
  return found

inductive Request (R : Type)
  | populate (name : String) (r : R)
  | find (name : String)
  /-- A number read off the record. -/
  | measure (name : String) (f : R → Int64)
  /-- Changes the record and reads a number off it. -/
  | adjust (name : String) (change : R → R) (f : R → Int64)
  | contains (name : String)
  | destroy (name : String)
  | names
  | count
  /-- The names of the table and of its lock. -/
  | titles
  /-- Counts the records while the record of a name is taken from behind the lock. -/
  | nest (name : String)

inductive Answer (R : Type)
  | record (r : Option R)
  | number (n : Option Int64)
  | flag (b : Bool)
  | names (ns : List String)
  | count (size : Nat) (isEmpty : Bool)

def serve (me : Thread) : Request R → Op (NamedTable R) (Answer R)
  | .populate name r => do return .record (← populate me name r)
  | .find name => do return .record (← read me (·.find? name))
  | .measure name f => do return .number (← read me fun t => (t.find? name).map f)
  | .adjust name g f => do return .number (← adjust me name g f)
  | .contains name => do return .flag (← read me (·.contains name))
  | .destroy name => do return .record (← destroy me name)
  | .names => do return .names (← read me (·.names))
  | .count => do return .count (← read me (·.size)) (← read me (·.isEmpty))
  | .titles => do return .names [Record.tableName R, (← get).lock.name]
  | .nest name => within me do
    if (← Guarded.contents?).contains name then
      let n ← read me (·.size)
      return .count n (n == 0)
    else return .record none

end NamedTable

end EntityStore
