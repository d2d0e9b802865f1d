/-!
# Catalogs

A catalog keeps one value for every key entered, of a type that may depend on the key, in the
order in which the keys were entered. Nothing leaves a catalog.
-/
namespace EntityStore

/-- Values by key, in the order of entry. -/
structure Catalog (K : Type) (V : K → Type) where
  entries : List ((k : K) × V k) := []

namespace Catalog

variable {K : Type} {V : K → Type} [DecidableEq K]

instance : Inhabited (Catalog K V) := ⟨{}⟩

def size (c : Catalog K V) : Nat := c.entries.length

def keys (c : Catalog K V) : List K := c.entries.map (·.1)

def lookup (k : K) : List ((k : K) × V k) → Option (V k)
  | [] => none
  | ⟨k', v⟩ :: rest => if h : k' = k then some (h ▸ v) else lookup k rest

def find? (c : Catalog K V) (k : K) : Option (V k) := lookup k c.entries

def contains (c : Catalog K V) (k : K) : Bool := (c.find? k).isSome

def push (c : Catalog K V) (k : K) (v : V k) : Catalog K V := ⟨c.entries ++ [⟨k, v⟩]⟩

def insertNew? (c : Catalog K V) (k : K) (v : V k) : Option (Catalog K V) :=
  if c.contains k then none else some (c.push k v)

def findOrInsert (c : Catalog K V) (k : K) (v : V k) : V k × Catalog K V :=
  match c.find? k with
  | some found => (found, c)
  | none => (v, c.push k v)

def update (c : Catalog K V) (k : K) (f : V k → V k) : Catalog K V :=
  ⟨c.entries.map fun e => if h : e.1 = k then ⟨k, f (h ▸ e.2)⟩ else e⟩

/-- A catalog inside a larger state. -/
structure View (σ K : Type) (V : K → Type) where
  read : σ → Catalog K V
  write : Catalog K V → σ → σ

def View.self : View (Catalog K V) K V := ⟨fun c => c, fun c _ => c⟩

/-- The value of a key, created on first use. The creation may itself use the catalog; if it
enters the key, the value entered first is the one that stays. -/
def getOrCreate {σ ε : Type} (view : View σ K V) (k : K) (create : EStateM ε σ (V k)) :
    EStateM ε σ (V k) := do
  match (view.read (← get)).find? k with
  | some v => return v
  | none =>
    let created ← create
    let (v, c) := (view.read (← get)).findOrInsert k created
    modify (view.write c)
    return v

omit [DecidableEq K] in
@[simp] theorem keys_push (c : Catalog K V) (k : K) (v : V k) :
    (c.push k v).keys = c.keys ++ [k] := by
  simp [keys, push]

@[simp] theorem keys_update (c : Catalog K V) (k : K) (f : V k → V k) :
    (c.update k f).keys = c.keys := by
  simp only [keys, update, List.map_map]
  refine List.map_congr_left fun e _ => ?_
  simp only [Function.comp_apply]
  split
  · next h => exact h.symm
  · rfl

theorem lookup_eq_none_iff {k : K} {es : List ((k : K) × V k)} :
    lookup k es = none ↔ k ∉ es.map (·.1) := by
  induction es with
  | nil => simp [lookup]
  | cons e es ih =>
    simp only [lookup, List.map_cons, List.mem_cons, not_or]
    split
    · next h => simp [h]
    · next h => simpa [ih] using fun _ hk => h hk.symm

theorem insertNew?_eq_none_iff {c : Catalog K V} {k : K} {v : V k} :
    c.insertNew? k v = none ↔ k ∈ c.keys := by
  have h : lookup k c.entries = none ↔ k ∉ c.entries.map (·.1) := lookup_eq_none_iff
  cases hl : lookup k c.entries <;> simp_all [insertNew?, contains, find?, keys]

end Catalog

end EntityStore
