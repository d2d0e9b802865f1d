import EntityStore.Lock

/-!
# Banks of locks

The locks of a store, numbered in the order in which groups of them are acquired.
-/
namespace EntityStore

structure Bank where
  locks : Array Lock := #[]

namespace Bank

instance : Inhabited Bank := ⟨{}⟩

def size (b : Bank) : Nat := b.locks.size

/-- The lock of a number. No number outside of the bank is ever used. -/
def get (b : Bank) (i : Nat) : Lock := b.locks.getD i default

def set (b : Bank) (i : Nat) (l : Lock) : Bank := ⟨b.locks.setIfInBounds i l⟩

def add (b : Bank) (l : Lock) : Nat × Bank := (b.locks.size, ⟨b.locks.push l⟩)

def on {α : Type} (b : Bank) (i : Nat) (call : Lock → α × Lock) : α × Bank :=
  let (a, l) := call (b.get i)
  (a, b.set i l)

@[simp] theorem size_set (b : Bank) (i : Nat) (l : Lock) : (b.set i l).size = b.size := by
  simp [size, set]

theorem get_set_ne {b : Bank} {i j : Nat} (l : Lock) (h : i ≠ j) :
    (b.set i l).get j = b.get j := by
  simp [get, set, Array.getD_eq_getD_getElem?, Array.getElem?_setIfInBounds_ne h]

end Bank

end EntityStore
