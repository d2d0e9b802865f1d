import EntityStore.Fault

/-!
# Measures

Orders by which signed 64-bit values can be sorted. Each is a total preorder: values may tie.
A remainder does not exist by zero, nor where its quotient leaves the 64 bits.
-/
namespace EntityStore

def hasRemainder (k x : Int64) : Bool := k ≠ 0 && !(k = -1 && x = Int64.minValue)

def divides (k x : Int64) : Except Breach Bool :=
  if hasRemainder k x then .ok (x % k = 0) else .error .noRemainder

inductive Measure
  | ascending
  | descending
  /-- Everything ties. -/
  | level
  /-- By absolute value, that of the least value included. -/
  | magnitude
  /-- By the remainder from zero up to the divisor. -/
  | residue (divisor : Int64)
  deriving DecidableEq, Repr

def Measure.rank : Measure → Int64 → Int
  | ascending, x => x.toInt
  | descending, x => -x.toInt
  | level, _ => 0
  | magnitude, x => x.toInt.natAbs
  | residue k, x => x.toInt % k.toInt

/-- Whether values can be compared with each other. A single one always can. -/
def Measure.compares (m : Measure) (xs : List Int64) : Bool :=
  match m with
  | residue k => xs.length ≤ 1 || xs.all (hasRemainder k)
  | _ => true

def Measure.le (m : Measure) (x y : Int64) : Bool := m.rank x ≤ m.rank y

theorem Measure.le_total (m : Measure) (x y : Int64) : m.le x y || m.le y x := by
  simp only [Measure.le, Bool.or_eq_true, decide_eq_true_eq]
  omega

theorem Measure.le_trans (m : Measure) {x y z : Int64} (hxy : m.le x y) (hyz : m.le y z) :
    m.le x z := by
  simp only [Measure.le, decide_eq_true_eq] at *
  omega

end EntityStore
