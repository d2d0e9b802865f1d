import EntityStore.Measure

/-!
# Packed storage

Rows are kept without gaps and found by key. The reverse index says, for every key index ever
stored, in which slot its row is; two keys of one index exclude each other whatever their
generations. A row that leaves is replaced by the last one, so slots move but keys do not.
-/
namespace EntityStore

/-- Rows with their keys, and the slot of every key index. -/
structure Packed (K α : Type) where
  rows : Array (K × α) := #[]
  /-- The slot of each key index; the array covers every index ever stored and never shrinks. -/
  reverse : Array (Option Nat) := #[]

namespace Packed

variable {K α : Type} [Keyed K] [DecidableEq K]

instance : Inhabited (Packed K α) := ⟨{}⟩

def size (p : Packed K α) : Nat := p.rows.size

def isEmpty (p : Packed K α) : Bool := p.rows.isEmpty

/-- One more than the largest index ever stored, or zero. -/
def reach (p : Packed K α) : Nat := p.reverse.size

def keys (p : Packed K α) : List K := p.rows.toList.map (·.1)

def values (p : Packed K α) : List α := p.rows.toList.map (·.2)

def toList (p : Packed K α) : List (K × α) := p.rows.toList

def keyAt? (p : Packed K α) (slot : Nat) : Option K := p.rows[slot]?.map (·.1)

/-- The slot that the index of the key points to, whatever the generation stored there. -/
def pointed? (p : Packed K α) (k : K) : Option Nat := p.reverse[Keyed.index k]?.join

/-- The key stored at the index of `k`, of whatever generation. -/
def occupant? (p : Packed K α) (k : K) : Option K := (p.pointed? k).bind p.keyAt?

def slotOf? (p : Packed K α) (k : K) : Option Nat :=
  (p.pointed? k).filter fun slot => p.keyAt? slot = some k

def contains (p : Packed K α) (k : K) : Bool := (p.slotOf? k).isSome

def get? (p : Packed K α) (k : K) : Option α :=
  (p.slotOf? k).bind fun slot => p.rows[slot]?.map (·.2)

def modify (p : Packed K α) (k : K) (f : α → α) : Packed K α :=
  match p.slotOf? k with
  | none => p
  | some slot => { p with rows := p.rows.modify slot fun row => (row.1, f row.2) }

def mapRows (p : Packed K α) (f : K → α → α) : Packed K α :=
  { p with rows := p.rows.map fun row => (row.1, f row.1 row.2) }

/-- Extends the reverse index to cover an index. -/
def cover (p : Packed K α) (index : Nat) : Packed K α :=
  if p.reverse.size ≤ index then
    { p with reverse := p.reverse ++ Array.replicate (index + 1 - p.reverse.size) none }
  else p

def isFree (p : Packed K α) (k : K) : Bool := (p.pointed? k).isNone

/-- Appends a row under a key whose index is free. -/
def push (p : Packed K α) (k : K) (v : α) : Packed K α :=
  let ⟨rows, reverse⟩ := p.cover (Keyed.index k)
  let slot := rows.size
  ⟨rows.push (k, v), reverse.setIfInBounds (Keyed.index k) (some slot)⟩

def insert (p : Packed K α) (k : K) (v : α) : Except Fault (Nat × Packed K α) :=
  if p.isFree k then .ok (p.size, p.push k v) else .error (.added k)

/-- The most indices that a reverse index can cover. -/
def mostCovered : Nat := Nat.pow 2 60 - 1

/-- Appends a row under a key of any index, also one that no reverse index can cover. -/
def insertWithin (p : Packed K α) (k : K) (v : α) : Except Failure (Nat × Packed K α) :=
  if p.reach ≤ Keyed.index k ∧ mostCovered ≤ Keyed.index k then .error (.breach .beyondReach)
  else (p.insert k v).mapError .fault

/-- Makes the reverse index agree with what is in a slot. -/
def point (p : Packed K α) (slot : Nat) : Packed K α :=
  match p.keyAt? slot with
  | none => p
  | some k => { p with reverse := p.reverse.setIfInBounds (Keyed.index k) (some slot) }

/-- Exchanges two rows and mends the reverse index of both keys. -/
def exchange (p : Packed K α) (a b : Nat) : Packed K α :=
  (({ p with rows := p.rows.swapIfInBounds a b } : Packed K α).point a).point b

/-- Exchanges two rows on request. A slot exchanged with itself is not even looked at. -/
def swap (p : Packed K α) (a b : Nat) : Except Breach (Packed K α) :=
  if a = b then .ok p
  else if a < p.rows.size ∧ b < p.rows.size then .ok (p.exchange a b)
  else .error .outOfBounds

def row? (p : Packed K α) (k : K) : Option (Nat × α) :=
  (p.slotOf? k).bind fun slot => p.rows[slot]?.map fun row => (slot, row.2)

/-- Removes the row in the slot of a key; the last row takes the slot. -/
def vacate (p : Packed K α) (k : K) (slot : Nat) : Packed K α :=
  let last := p.rows.size - 1
  let ⟨rows, reverse⟩ := if slot = last then p else p.exchange slot last
  ⟨rows.pop, reverse.setIfInBounds (Keyed.index k) none⟩

def erase (p : Packed K α) (k : K) : Except Fault (Nat × α × Packed K α) :=
  match p.row? k with
  | none => .error (.invalid k)
  | some (slot, v) => .ok (slot, v, p.vacate k slot)

/-- Removes every row; the reverse index keeps its length. -/
def clear (p : Packed K α) : Packed K α :=
  { rows := #[]
    reverse := p.rows.foldl
      (fun reverse row => reverse.setIfInBounds (Keyed.index row.1) none) p.reverse }

/-- Walks one cycle of a permutation: `order[i]` names the slot of the row that belongs in
slot `i`. Rows are exchanged along the cycle until it comes back to `start`, and each entry
passed is marked as settled. -/
def followCycle (start : Nat) :
    (steps : Nat) → (current : Nat) → Array Nat → Packed K α → Array Nat × Packed K α
  | 0, _, order, p => (order, p)
  | steps + 1, current, order, p =>
    let source := order.getD current start
    let order := order.setIfInBounds current current
    if source = start then (order, p)
    else followCycle start steps source order (p.exchange current source)

/-- Puts into every slot `i` the row that is in slot `order[i]`, cycle by cycle. -/
def rearrange (p : Packed K α) (order : Array Nat) : Packed K α :=
  ((List.range order.size).foldl
    (fun (acc : Array Nat × Packed K α) start =>
      followCycle start order.size start acc.1 acc.2) (order, p)).2

/-- The slots in the order of their values; equal values keep the order of their slots. -/
def sortedSlots (p : Packed K α) (le : α → α → Bool) : List Nat :=
  (List.range p.rows.size).mergeSort fun a b =>
    match p.rows[a]?, p.rows[b]? with
    | some x, some y => le x.2 y.2
    | _, _ => true

def sort (p : Packed K α) (le : α → α → Bool) : Packed K α :=
  p.rearrange (p.sortedSlots le).toArray

def sortBy (p : Packed K α) (m : Measure) (f : α → Int64) : Except Breach (Packed K α) :=
  if m.compares (p.values.map f) then .ok (p.sort fun a b => m.le (f a) (f b))
  else .error .noRemainder

end Packed

end EntityStore
