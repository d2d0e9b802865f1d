import EntityStore.Generation
import Mathlib.Algebra.Group.Nat.Defs
import Mathlib.Logic.Function.Iterate

/-!
# The order of generations

The successor of a generation leaves out zero, while the distance between two counts it: across the
wrap a successor is one further away than the steps that led to it. So the order tells a successor
from its origin for all but one of the steps in half the range, wherever they begin.
-/
namespace EntityStore.Generation

variable {g h : Generation} {k : Nat}

/-- How far one has to count from `h`, around the wrap, to come to `g`. -/
def ahead (g h : Generation) : Nat := (g.val - h.val).toNat

theorem ahead_eq (g h : Generation) : g.ahead h = (2 ^ 32 - h.toNat + g.toNat) % 2 ^ 32 :=
  UInt32.toNat_sub ..

theorem toNat_lt (g : Generation) : g.toNat < 2 ^ 32 := UInt32.toNat_lt g.val

theorem isNewerThan_iff_ahead : g.isNewerThan h = true ↔ 0 < g.ahead h ∧ g.ahead h < 2 ^ 31 := by
  simp only [isNewerThan, ahead, Bool.and_eq_true, decide_eq_true_eq, UInt32.lt_iff_toNat_lt]
  rfl

/-- There and back is once around. -/
theorem ahead_add_ahead (hpos : 0 < g.ahead h) : g.ahead h + h.ahead g = 2 ^ 32 := by
  have hg := g.toNat_lt
  have hh := h.toNat_lt
  rw [ahead_eq] at hpos
  rw [ahead_eq, ahead_eq]
  omega

/-- Of two generations at most one is newer. -/
theorem not_isNewerThan_of_isNewerThan (hn : g.isNewerThan h = true) : h.isNewerThan g = false := by
  obtain ⟨hpos, hlt⟩ := isNewerThan_iff_ahead.mp hn
  have haround := ahead_add_ahead hpos
  rw [Bool.eq_false_iff, Ne, isNewerThan_iff_ahead]
  omega

theorem toNat_next_eq (g : Generation) : g.next.toNat = g.toNat % (2 ^ 32 - 1) + 1 := by
  have hg := g.toNat_lt
  have hadd : (g.val + 1).toNat = (g.toNat + 1) % 2 ^ 32 := UInt32.toNat_add ..
  unfold next
  split
  · next h0 =>
    have hzero : (g.toNat + 1) % 2 ^ 32 = 0 := by
      rw [← hadd, h0]
      rfl
    have hone : first.toNat = 1 := rfl
    omega
  · next h0 =>
    have hne : (g.val + 1).toNat ≠ 0 := fun hz => h0 (UInt32.toNat_inj.mp hz)
    show (g.val + 1).toNat = _
    omega

/-- The generations that are issued come around one after the other. -/
theorem toNat_iterate_next (hg : 1 ≤ g.toNat) (k : Nat) :
    (next^[k] g).toNat = (g.toNat - 1 + k) % (2 ^ 32 - 1) + 1 := by
  induction k with
  | zero =>
    have := g.toNat_lt
    rw [Function.iterate_zero_apply]
    omega
  | succ k ih =>
    rw [Function.iterate_succ_apply', toNat_next_eq, ih]
    omega

/-- Across the wrap a successor is one further ahead. -/
theorem ahead_iterate_next (hg : 1 ≤ g.toNat) (hk : k < 2 ^ 32 - 1) :
    (next^[k] g).ahead g = if g.toNat + k < 2 ^ 32 then k else k + 1 := by
  have hlt := g.toNat_lt
  rw [ahead_eq, toNat_iterate_next hg]
  split <;> omega

/-- Within one round the successor is newer for the steps in half the range, but for the last one if
it is taken across the wrap. -/
theorem isNewerThan_iterate_next_iff (hg : 1 ≤ g.toNat) (hk : k < 2 ^ 32 - 1) :
    (next^[k] g).isNewerThan g = true ↔
      1 ≤ k ∧ k ≤ if g.toNat + k < 2 ^ 32 then 2 ^ 31 - 1 else 2 ^ 31 - 2 := by
  have hlt := g.toNat_lt
  rw [isNewerThan_iff_ahead, ahead_iterate_next hg hk]
  split <;> omega

/-- However often a generation that is issued is superseded, up to two less than half the range, it
comes to one that is issued and newer, and is not newer itself. Of no two generations each is newer
than the other. -/
theorem newer_within_window :
    (∀ (g : Generation) (k : Nat), 1 ≤ g.toNat → 1 ≤ k → k ≤ 2 ^ 31 - 2 →
      (next^[k] g).toNat = (g.toNat - 1 + k) % (2 ^ 32 - 1) + 1 ∧ next^[k] g ≠ unissued ∧
      (next^[k] g).isNewerThan g = true ∧ g.isNewerThan (next^[k] g) = false) ∧
    ∀ a b : Generation, ¬(a.isNewerThan b = true ∧ b.isNewerThan a = true) := by
  refine ⟨fun g k hg hk hle => ?_, fun a b hab => ?_⟩
  · have hcount := toNat_iterate_next hg k
    have hnewer : (next^[k] g).isNewerThan g = true := by
      rw [isNewerThan_iterate_next_iff hg (by omega)]
      split <;> omega
    refine ⟨hcount, fun hzero => ?_, hnewer, not_isNewerThan_of_isNewerThan hnewer⟩
    rw [hzero] at hcount
    exact Nat.succ_ne_zero _ hcount.symm
  · have hnot := not_isNewerThan_of_isNewerThan hab.1
    rw [hab.2] at hnot
    cases hnot

/-- Three steps from the last generation lead past zero to the third. -/
theorem newer_within_window_wrapped :
    let last : Generation := ⟨0xffffffff⟩
    next^[3] last = ⟨3⟩ ∧ (next^[3] last).isNewerThan last = true ∧
      last.isNewerThan (next^[3] last) = false := by
  have h := newer_within_window.1 ⟨0xffffffff⟩ 3 (by decide) (by decide) (by decide)
  exact ⟨by decide, h.2.2⟩

end EntityStore.Generation
