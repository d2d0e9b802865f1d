/-!
# Generations

The number of times an index has been recycled, counted in a wrapping 32-bit word. Zero is
never issued. Order is by wrapping distance, so it survives the wrap.
-/
namespace EntityStore

/-- How often an index has been recycled. -/
structure Generation where
  val : UInt32
  deriving DecidableEq, Repr, Inhabited

namespace Generation

def unissued : Generation := ⟨0⟩

def first : Generation := ⟨1⟩

/-- The generation that supersedes this one; the wrap skips `unissued`. -/
def next (g : Generation) : Generation :=
  if g.val + 1 = 0 then first else ⟨g.val + 1⟩

/-- Whether `g` was issued after `h`: the wrapping distance from `h` to `g` is positive and
below half the range. -/
def isNewerThan (g h : Generation) : Bool :=
  0 < g.val - h.val && g.val - h.val < 0x80000000

def toNat (g : Generation) : Nat := g.val.toNat

def ofNat (n : Nat) : Generation := ⟨UInt32.ofNat n⟩

/-- The plain order of the counters, which does not survive the wrap. -/
def compare (g h : Generation) : Ordering := Ord.compare g.val.toNat h.val.toNat

def text (g : Generation) : String := toString g.val.toNat

theorem next_ne_unissued (g : Generation) : g.next ≠ unissued := by
  unfold next
  split
  · decide
  · next h => exact fun hn => h (congrArg val hn)

theorem isNewerThan_irrefl (g : Generation) : g.isNewerThan g = false := by
  simp [isNewerThan]

end Generation

end EntityStore
