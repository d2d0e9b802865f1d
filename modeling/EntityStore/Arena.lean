import EntityStore.Issuer
import EntityStore.Packed

/-!
# Arenas

An arena is packed storage whose keys it issues itself. A value is stored under a fresh
identifier, or under one reserved before; when it is removed the identifier goes back to the
issuer, and no copy of it resolves again.
-/
namespace EntityStore

/-- Values under identifiers issued by the arena itself. -/
structure Arena (bits : Nat) (α : Type) where
  issuer : Issuer bits := {}
  store : Packed (Ident bits) α := {}

namespace Arena

variable {bits : Nat} {α : Type}

instance : Inhabited (Arena bits α) := ⟨{}⟩

def size (a : Arena bits α) : Nat := a.store.size

def isEmpty (a : Arena bits α) : Bool := a.store.isEmpty

def contains (a : Arena bits α) (i : Ident bits) : Bool := a.store.contains i

def slotOf? (a : Arena bits α) (i : Ident bits) : Option Nat := a.store.slotOf? i

def get? (a : Arena bits α) (i : Ident bits) : Option α := a.store.get? i

def identAt? (a : Arena bits α) (slot : Nat) : Option (Ident bits) := a.store.keyAt? slot

def toList (a : Arena bits α) : List (Ident bits × α) := a.store.toList

def modify (a : Arena bits α) (i : Ident bits) (f : α → α) : Arena bits α :=
  { a with store := a.store.modify i f }

def mapValues (a : Arena bits α) (f : α → α) : Arena bits α :=
  { a with store := a.store.mapRows fun _ => f }

def sort (a : Arena bits α) (le : α → α → Bool) : Arena bits α :=
  { a with store := a.store.sort le }

def sortBy (a : Arena bits α) (m : Measure) (f : α → Int64) : Except Breach (Arena bits α) :=
  (a.store.sortBy m f).map fun store => { a with store }

def reserve (a : Arena bits α) : Except Fault (Ident bits × Arena bits α) :=
  match a.issuer.issue with
  | .error f => .error f
  | .ok (i, issuer) => .ok (i, { a with issuer })

/-- Gives a reserved identifier back. One that has a value must be removed instead. -/
def giveBack (a : Arena bits α) (i : Ident bits) : Except Fault (Arena bits α) :=
  if a.contains i then .error (.added i)
  else match a.issuer.giveBack i with
    | .error f => .error f
    | .ok issuer => .ok { a with issuer }

/-- Stores a value under a fresh identifier that the value may mention. A value that cannot be
stored gives its identifier back. -/
def emplace (a : Arena bits α) (build : Ident bits → α) :
    Except Failure (Ident bits) × Arena bits α :=
  let ⟨issuer, store⟩ := a
  match issuer.next? with
  | none => (.error (.fault (.identsExhausted issuer.gauge)), ⟨issuer, store⟩)
  | some i =>
    let issuer := issuer.advance
    if store.isFree i then (.ok i, ⟨issuer, store.push i (build i)⟩)
    else if issuer.accepts i then (.error (.fault (.added i)), ⟨issuer.recycle i, store⟩)
    else (.error (.breach .notCurrent), ⟨issuer, store⟩)

def insert (a : Arena bits α) (v : α) : Except Failure (Ident bits) × Arena bits α :=
  a.emplace fun _ => v

/-- Stores a value under an identifier reserved before, and gives its slot. -/
def add (a : Arena bits α) (i : Ident bits) (v : α) : Except Fault (Nat × Arena bits α) :=
  if a.contains i then .error (.added i)
  else if !a.issuer.isCurrent i then .error (.invalid i)
  else match a.store.insert i v with
    | .error f => .error f
    | .ok (slot, store) => .ok (slot, { a with store })

/-- Removes the value of an identifier and recycles the identifier. Gives the value and the
slot that the last value moved to, from which an iteration by slots continues. -/
def remove (a : Arena bits α) (i : Ident bits) :
    Except Failure (Nat × α) × Arena bits α :=
  let ⟨issuer, store⟩ := a
  match store.row? i with
  | none => (.error (.fault (.invalid i)), ⟨issuer, store⟩)
  | some (slot, v) =>
    if issuer.accepts i then (.ok (slot, v), ⟨issuer.recycle i, store.vacate i slot⟩)
    else (.error (.breach .notCurrent), ⟨issuer, store.vacate i slot⟩)

/-- The value of an identifier that the caller knows to be live. -/
def fetch (a : Arena bits α) (i : Ident bits) : Except Breach α :=
  match a.get? i with
  | some v => .ok v
  | none => .error (.notLive i.display)

def put (a : Arena bits α) (i : Ident bits) (v : α) : Except Breach (Arena bits α) :=
  if a.contains i then .ok (a.modify i fun _ => v)
  else .error (.notLive i.display)

@[simp] theorem size_modify (a : Arena bits α) (i : Ident bits) (f : α → α) :
    (a.modify i f).size = a.size := by
  simp only [modify, size, Packed.size, Packed.modify]
  split <;> simp

end Arena

end EntityStore
