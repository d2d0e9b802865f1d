import EntityStore.Packed
import Mathlib.Logic.Function.Basic

/-!
# Sound packed storage

A packed store is sound if its reverse index points at every row and at nothing else. What
it stores at a key index is then a function of the index alone, its cell, which no exchange of rows
can change. Every call keeps a store sound, and changes the cell of at most the index it names.
-/
namespace EntityStore.Packed

variable {K α : Type} [Keyed K]

/-- The rows and the reverse index point at each other. -/
structure Sound (p : Packed K α) : Prop where
  /-- The reverse index points at every row. -/
  pointed : ∀ {slot : Nat} {row : K × α}, p.rows[slot]? = some row →
    p.reverse[Keyed.index row.1]? = some (some slot)
  /-- An entry of the reverse index is vacant or points at a row of exactly that index. -/
  owned : ∀ {i slot : Nat}, p.reverse[i]? = some (some slot) →
    ∃ row, p.rows[slot]? = some row ∧ Keyed.index row.1 = i

def cell (p : Packed K α) (i : Nat) : Option (K × α) := p.reverse[i]?.join.bind (p.rows[·]?)

theorem getElem?_swapIfInBounds {β : Type} {xs : Array β} {a b : Nat} (ha : a < xs.size)
    (hb : b < xs.size) (s : Nat) :
    (xs.swapIfInBounds a b)[s]? = if s = b then xs[a]? else if s = a then xs[b]? else xs[s]? := by
  rw [Array.swapIfInBounds_def, dif_pos ha, dif_pos hb, Array.getElem?_swap]
  simp [eq_comm, ha, hb]

theorem sound_empty : ({} : Packed K α).Sound :=
  ⟨fun h => by simp at h, fun h => by simp at h⟩

namespace Sound

variable {p q : Packed K α}

theorem cell_eq_some_iff (h : p.Sound) {i : Nat} {row : K × α} :
    p.cell i = some row ↔ row ∈ p.rows ∧ Keyed.index row.1 = i := by
  constructor
  · intro hc
    obtain ⟨slot, hs, hrow⟩ := Option.bind_eq_some_iff.mp hc
    obtain ⟨row', hrow', hi⟩ := h.owned (Option.join_eq_some_iff.mp hs)
    obtain rfl : row' = row := Option.some.inj (hrow'.symm.trans hrow)
    exact ⟨Array.mem_of_getElem? hrow, hi⟩
  · rintro ⟨hm, rfl⟩
    obtain ⟨slot, hs⟩ := Array.mem_iff_getElem?.mp hm
    simp [cell, h.pointed hs, hs]

/-- Two rows of one index are the same row, in the same slot. -/
theorem slot_unique (h : p.Sound) {s t : Nat} {a b : K × α} (hs : p.rows[s]? = some a)
    (ht : p.rows[t]? = some b) (hab : Keyed.index a.1 = Keyed.index b.1) : s = t := by
  have hp := h.pointed hs
  rw [hab, h.pointed ht] at hp
  simpa using hp.symm

/-- The cells are determined by which rows there are, in whatever slots. -/
theorem cell_congr (hp : p.Sound) (hq : q.Sound) (h : ∀ row, row ∈ q.rows ↔ row ∈ p.rows) :
    q.cell = p.cell := by
  funext i
  ext row
  rw [hp.cell_eq_some_iff, hq.cell_eq_some_iff, h]

theorem index_lt_reach (h : p.Sound) {row : K × α} (hm : row ∈ p.rows) :
    Keyed.index row.1 < p.reach := by
  obtain ⟨slot, hs⟩ := Array.mem_iff_getElem?.mp hm
  exact (Array.getElem?_eq_some_iff.mp (h.pointed hs)).1

end Sound

variable {p : Packed K α}

theorem exchange_eq {a b : Nat} {x y : K × α} (hx : p.rows[a]? = some x)
    (hy : p.rows[b]? = some y) :
    p.exchange a b = ⟨p.rows.swapIfInBounds a b,
      (p.reverse.setIfInBounds (Keyed.index y.1) (some a)).setIfInBounds
        (Keyed.index x.1) (some b)⟩ := by
  have ha : a < p.rows.size := (Array.getElem?_eq_some_iff.mp hx).1
  have hb : b < p.rows.size := (Array.getElem?_eq_some_iff.mp hy).1
  have hya : (p.rows.swapIfInBounds a b)[a]? = some y := by
    rw [getElem?_swapIfInBounds ha hb]
    by_cases h : a = b
    · subst h; simpa using hy
    · simp [h, hy]
  have hxb : (p.rows.swapIfInBounds a b)[b]? = some x := by
    rw [getElem?_swapIfInBounds ha hb, if_pos rfl, hx]
  simp only [exchange, point, keyAt?, hya, hxb, Option.map_some]

theorem getElem?_exchange {a b : Nat} (ha : a < p.rows.size) (hb : b < p.rows.size) (s : Nat) :
    (p.exchange a b).rows[s]? =
      if s = b then p.rows[a]? else if s = a then p.rows[b]? else p.rows[s]? := by
  rw [exchange_eq (Array.getElem?_eq_getElem ha) (Array.getElem?_eq_getElem hb)]
  exact getElem?_swapIfInBounds ha hb s

theorem Sound.exchange (h : p.Sound) {a b : Nat} (ha : a < p.rows.size) (hb : b < p.rows.size) :
    (p.exchange a b).Sound := by
  obtain ⟨x, hx⟩ : ∃ x, p.rows[a]? = some x := ⟨_, Array.getElem?_eq_getElem ha⟩
  obtain ⟨y, hy⟩ : ∃ y, p.rows[b]? = some y := ⟨_, Array.getElem?_eq_getElem hb⟩
  have hreverse : ∀ i, ((p.reverse.setIfInBounds (Keyed.index y.1) (some a)).setIfInBounds
      (Keyed.index x.1) (some b))[i]? =
      if i = Keyed.index x.1 then some (some b)
      else if i = Keyed.index y.1 then some (some a) else p.reverse[i]? := by
    intro i
    have hxlt := (Array.getElem?_eq_some_iff.mp (h.pointed hx)).1
    have hylt := (Array.getElem?_eq_some_iff.mp (h.pointed hy)).1
    simp only [Array.getElem?_setIfInBounds, Array.size_setIfInBounds, hxlt, hylt, if_true,
      eq_comm (a := Keyed.index x.1), eq_comm (a := Keyed.index y.1)]
  have hrows := getElem?_swapIfInBounds ha hb
  rw [exchange_eq hx hy]
  constructor
  · intro slot row hs
    rw [hrows] at hs
    rw [hreverse]
    split at hs
    · next hslot =>
      obtain rfl : x = row := Option.some.inj (hx.symm.trans hs)
      rw [if_pos rfl, hslot]
    · next hb' =>
      split at hs
      · next hslot =>
        obtain rfl : y = row := Option.some.inj (hy.symm.trans hs)
        have hne : Keyed.index y.1 ≠ Keyed.index x.1 := fun he =>
          hb' (hslot.trans (h.slot_unique hx hy he.symm))
        rw [if_neg hne, if_pos rfl, hslot]
      · next ha' =>
        have hnx : Keyed.index row.1 ≠ Keyed.index x.1 := fun he => ha' (h.slot_unique hs hx he)
        have hny : Keyed.index row.1 ≠ Keyed.index y.1 := fun he => hb' (h.slot_unique hs hy he)
        rw [if_neg hnx, if_neg hny]
        exact h.pointed hs
  · intro i slot hs
    rw [hreverse] at hs
    rw [hrows]
    split at hs
    · next hi =>
      obtain rfl : b = slot := by simpa using hs
      exact ⟨x, by rw [if_pos rfl, hx], hi.symm⟩
    · next hnx =>
      split at hs
      · next hi =>
        obtain rfl : a = slot := by simpa using hs
        have hab : a ≠ b := by
          rintro rfl
          rw [hx] at hy
          exact hnx (Option.some.inj hy ▸ hi)
        exact ⟨y, by rw [if_neg hab, if_pos rfl, hy], hi.symm⟩
      · next hny =>
        obtain ⟨row, hrow, rfl⟩ := h.owned hs
        refine ⟨row, ?_, rfl⟩
        have hnb : slot ≠ b := by
          rintro rfl
          exact hny (Option.some.inj (hrow.symm.trans hy) ▸ rfl)
        have hna : slot ≠ a := by
          rintro rfl
          exact hnx (Option.some.inj (hrow.symm.trans hx) ▸ rfl)
        rw [if_neg hnb, if_neg hna, hrow]

/-- `q` holds the rows of `p`, perhaps in other slots. -/
structure Reordered (p q : Packed K α) : Prop where
  sound : q.Sound
  perm : q.rows.Perm p.rows
  reach_eq : q.reach = p.reach

namespace Reordered

variable {q r : Packed K α}

theorem refl (h : p.Sound) : Reordered p p := ⟨h, .rfl, rfl⟩

theorem trans (hpq : Reordered p q) (hqr : Reordered q r) : Reordered p r :=
  ⟨hqr.sound, hqr.perm.trans hpq.perm, hqr.reach_eq.trans hpq.reach_eq⟩

theorem size_eq (h : Reordered p q) : q.rows.size = p.rows.size := h.perm.size_eq

theorem cell_eq (h : Reordered p q) (hp : p.Sound) : q.cell = p.cell :=
  hp.cell_congr h.sound fun _ => h.perm.mem_iff

end Reordered

theorem Sound.reordered_exchange (h : p.Sound) {a b : Nat} (ha : a < p.rows.size)
    (hb : b < p.rows.size) : Reordered p (p.exchange a b) := by
  have hx := Array.getElem?_eq_getElem ha
  have hy := Array.getElem?_eq_getElem hb
  refine ⟨h.exchange ha hb, ?_, ?_⟩
  · rw [exchange_eq hx hy, Array.swapIfInBounds_def, dif_pos ha, dif_pos hb]
    exact Array.swap_perm ha hb
  · rw [exchange_eq hx hy]
    simp [reach]

end EntityStore.Packed
