import EntityStore.Arena
import EntityStore.Proofs.Issuer.Timely
import EntityStore.Proofs.Packed.Cells

/-!
# Arenas that only store and remove

An arena whose identifiers are never reserved without a value hands out as many as it has values.
Every identifier outside has its value, so storing fails only when the identifiers are used up, and
removing only where there is nothing; and this does not depend on how often an index has come back.
-/
namespace EntityStore.Arena

open Issuer (Ledger Traced Orderly)

variable {bits : Nat} {α : Type}

/-- An account of the identifiers of an arena in which those outside are those with a value. -/
structure Stocked (a : Arena bits α) (l : Ledger bits) : Prop where
  issuer_eq : l.issuer = a.issuer
  traced : Traced l
  orderly : Orderly l
  sound : a.store.Sound
  out_iff : ∀ i, i ∈ l.out ↔ (a.get? i).isSome = true

def stored (a : Arena bits α) (i : Ident bits) (v : α) : Arena bits α :=
  ⟨a.issuer.advance, a.store.push i v⟩

def without (a : Arena bits α) (i : Ident bits) : Arena bits α := (a.remove i).2

def rewritten (a : Arena bits α) (f : Ident bits → α → α) : Arena bits α :=
  { a with store := a.store.mapRows f }

theorem rewritten_self (a : Arena bits α) : a.rewritten (fun _ v => v) = a := by
  rw [rewritten, Packed.mapRows_self]

theorem rewritten_rewritten (a : Arena bits α) (f g : Ident bits → α → α) :
    (a.rewritten f).rewritten g = a.rewritten fun i v => g i (f i v) :=
  congrArg (Arena.mk a.issuer) (Packed.mapRows_mapRows a.store f g)

/-- A value is removed whatever it has become. -/
theorem without_rewritten (a : Arena bits α) (f : Ident bits → α → α) (i : Ident bits) :
    (a.rewritten f).without i = (a.without i).rewritten f := by
  simp only [without, remove, rewritten, Packed.row?_mapRows]
  cases a.store.row? i with
  | none => rfl
  | some row =>
    simp only [Option.map_some, Packed.vacate_mapRows]
    split <;> rfl

namespace Stocked

variable {a : Arena bits α} {l : Ledger bits} {i : Ident bits} {v : α}

theorem empty : Stocked ({} : Arena bits α) {} := by
  refine ⟨rfl, .empty, .empty, Packed.sound_empty, fun i => ?_⟩
  have hnone : ({} : Arena bits α).get? i = none := rfl
  simp [hnone]

theorem contains_eq (h : Stocked a l) (i : Ident bits) : a.contains i = (a.get? i).isSome :=
  Packed.contains_eq_isSome h.sound i

/-- The index that is issued next is free. -/
theorem isFree_of_next? (h : Stocked a l) (hi : a.issuer.next? = some i) :
    a.store.isFree i = true := by
  rw [← Packed.cell_eq_none_iff h.sound]
  by_contra hne
  obtain ⟨⟨j, v⟩, hrow⟩ := Option.ne_none_iff_exists'.mp hne
  have hindex : j.index = i.index := (h.sound.cell_eq_some_iff.mp hrow).2
  have hout : j ∈ l.out := by
    rw [h.out_iff, get?, (Packed.get?_eq_some_iff h.sound).mpr
      ((congrArg a.store.cell hindex).trans hrow)]
    rfl
  rw [← h.issuer_eq] at hi
  exact h.orderly.index_ne_of_next? h.traced hi j hout hindex

/-- A value is stored under a fresh identifier if there is one. -/
theorem insert_eq (h : Stocked a l) (v : α) : a.insert v = match a.issuer.next? with
    | none => (.error (.fault (.identsExhausted a.issuer.gauge)), a)
    | some i => (.ok i, a.stored i v) := by
  cases hi : a.issuer.next? with
  | none =>
    obtain ⟨issuer, store⟩ := a
    simp_all [insert, emplace]
  | some i =>
    have hfree := h.isFree_of_next? hi
    obtain ⟨issuer, store⟩ := a
    simp_all [insert, emplace, stored]

theorem get?_stored (h : Stocked a l) (hi : a.issuer.next? = some i) (v : α) :
    (a.stored i v).get? = Function.update a.get? i (some v) :=
  Packed.get?_push h.sound (h.isFree_of_next? hi) v

theorem stored (h : Stocked a l) (hi : a.issuer.next? = some i) (v : α) :
    Stocked (a.stored i v) (l.issued i) := by
  have hi' : l.issuer.next? = some i := h.issuer_eq ▸ hi
  refine ⟨congrArg Issuer.advance h.issuer_eq, h.traced.issued hi', h.orderly.issued h.traced hi',
    h.sound.push (h.isFree_of_next? hi) v, fun j => ?_⟩
  rw [h.get?_stored hi, Function.update_apply]
  show j ∈ i :: l.out ↔ _
  by_cases hj : j = i
  · simp [hj]
  · rw [if_neg hj, ← h.out_iff]
    simp [hj]

/-- A value that is there can be removed. -/
theorem remove_eq (h : Stocked a l) (hv : a.get? i = some v) :
    ∃ slot, a.store.rows[slot]? = some (i, v) ∧ a.remove i = (.ok (slot, v), a.without i) ∧
      a.without i = ⟨a.issuer.recycle i, a.store.vacate i slot⟩ := by
  obtain ⟨slot, hrow, hr, -⟩ := h.sound.exists_row hv
  have hacc : a.issuer.accepts i = true := by
    rw [← h.issuer_eq, h.traced.accepts_iff]
    exact .inl ((h.out_iff i).mpr (by rw [hv]; rfl))
  refine ⟨slot, hrow, ?_⟩
  simp [without, remove, hr, hacc]

theorem remove_of_none (h : Stocked a l) (hv : a.get? i = none) :
    a.remove i = (.error (.fault (.invalid i)), a) := by
  simp [remove, Packed.row?, h.sound.slotOf?_eq_none hv]

theorem without_of_none (h : Stocked a l) (hv : a.get? i = none) : a.without i = a := by
  rw [Arena.without, h.remove_of_none hv]

theorem get?_without (h : Stocked a l) (i : Ident bits) :
    (a.without i).get? = Function.update a.get? i none := by
  cases hv : a.get? i with
  | none => rw [h.without_of_none hv, ← hv, Function.update_eq_self]
  | some v =>
    obtain ⟨slot, hrow, -, hw⟩ := h.remove_eq hv
    rw [hw]
    exact Packed.get?_vacate h.sound hrow

theorem without (h : Stocked a l) (hv : a.get? i = some v) :
    Stocked (a.without i) (l.tookBack i) := by
  obtain ⟨slot, hrow, -, hw⟩ := h.remove_eq hv
  have hout : i ∈ l.out := (h.out_iff i).mpr (by rw [hv]; rfl)
  have hacc := (h.traced.accepts_iff i).mpr (.inl hout)
  refine ⟨?_, h.traced.tookBack hacc, h.orderly.tookBack h.traced hout, ?_, fun j => ?_⟩
  · rw [hw]
    exact congrArg (Issuer.recycle · i) h.issuer_eq
  · rw [hw]
    exact h.sound.vacate hrow
  · rw [h.get?_without, Function.update_apply]
    simp only [Ledger.tookBack, List.mem_filter, decide_eq_true_eq]
    by_cases hj : j = i
    · simp [hj]
    · rw [if_neg hj, ← h.out_iff, and_iff_left hj]

theorem get?_modify (h : Stocked a l) (i : Ident bits) (f : α → α) (j : Ident bits) :
    (a.modify i f).get? j = if j = i then (a.get? j).map f else a.get? j :=
  Packed.get?_modify h.sound i f j

theorem modify (h : Stocked a l) (i : Ident bits) (f : α → α) : Stocked (a.modify i f) l := by
  refine ⟨h.issuer_eq, h.traced, h.orderly, h.sound.modify i f, fun j => ?_⟩
  rw [h.out_iff, h.get?_modify]
  split <;> simp

theorem modify_eq (h : Stocked a l) (i : Ident bits) (f : α → α) :
    a.modify i f = a.rewritten fun j v => if j = i then f v else v :=
  congrArg (Arena.mk a.issuer) (h.sound.modify_eq i f)

theorem get?_rewritten (h : Stocked a l) (f : Ident bits → α → α) (i : Ident bits) :
    (a.rewritten f).get? i = (a.get? i).map (f i) := Packed.get?_mapRows h.sound f i

theorem rewritten (h : Stocked a l) (f : Ident bits → α → α) : Stocked (a.rewritten f) l := by
  refine ⟨h.issuer_eq, h.traced, h.orderly, h.sound.mapRows f, fun j => ?_⟩
  rw [h.out_iff, h.get?_rewritten]
  simp

theorem rewritten_congr (h : Stocked a l) {f g : Ident bits → α → α}
    (hfg : ∀ i v, a.get? i = some v → f i v = g i v) : a.rewritten f = a.rewritten g := by
  refine congrArg (Arena.mk a.issuer) (Packed.mapRows_congr fun row hrow => hfg _ _ ?_)
  exact (Packed.get?_eq_some_iff h.sound).mpr (h.sound.cell_eq_some_iff.mpr ⟨hrow, rfl⟩)

/-- There is one value more. -/
theorem size_stored (a : Arena bits α) (i : Ident bits) (v : α) :
    (a.stored i v).size = a.size + 1 := by
  have hcover : (a.store.cover (Keyed.index i)).rows = a.store.rows := by
    unfold Packed.cover
    split <;> rfl
  show ((a.store.cover (Keyed.index i)).rows.push (i, v)).size = _
  rw [hcover, Array.size_push]
  rfl

/-- One value less is left. -/
theorem size_without (h : Stocked a l) (hv : a.get? i = some v) :
    (a.without i).size + 1 = a.size := by
  obtain ⟨slot, hrow, -, hw⟩ := h.remove_eq hv
  have hlt := (Array.getElem?_eq_some_iff.mp hrow).1
  rw [hw]
  simp only [size, Packed.size, Packed.vacate_eq, Packed.dropLast, Array.size_pop,
    (h.sound.reordered_moveLast hlt).size_eq]
  omega

end Stocked

end EntityStore.Arena
