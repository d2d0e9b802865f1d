import EntityStore.Proofs.Arena.Account

/-!
# Arenas given what is in hand

An identifier is in hand if the arena handed it out and does not wait to hand it out again. As long
as the calls name no others, every value in the arena is under an identifier that is outside, at an
index that does not wait; and this does not depend on how often an index has come back.
-/
namespace EntityStore.Arena

open Issuer (Orderly Traced mostReturns)

variable {bits : Nat} {α : Type}

/-- Every identifier that the calls are given was handed out before and is not awaited. -/
def Book.InHand (b : Book bits α) : List (Call bits α) → Prop
  | [] => True
  | c :: calls =>
    (∀ i ∈ c.idents, i ∈ b.handed ∧ ¬b.arena.issuer.Awaits i) ∧ (b.after c).InHand calls

/-- The values of the arena are under identifiers outside, whose indices do not wait. -/
structure Housed (b : Book bits α) : Prop where
  traced : Traced b.ledger
  orderly : Orderly b.ledger
  sound : b.arena.store.Sound
  out_of_get? : ∀ {i : Ident bits} {v : α}, b.arena.get? i = some v → i ∈ b.out

namespace Housed

variable {b : Book bits α} {i : Ident bits} {v : α}

theorem empty : Housed ({} : Book bits α) :=
  ⟨.empty, .empty, Packed.sound_empty, fun h => absurd h (Option.some_ne_none _).symm⟩

theorem out_of_cell (h : Housed b) {n : Nat} {row : Ident bits × α}
    (hc : b.arena.store.cell n = some row) : row.1 ∈ b.out ∧ row.1.index = n := by
  have hn : row.1.index = n := (h.sound.cell_eq_some_iff.mp hc).2
  refine ⟨h.out_of_get? (v := row.2) ?_, hn⟩
  rw [get?, Packed.get?_eq_some_iff h.sound]
  exact (congrArg b.arena.store.cell hn).trans hc

/-- A current identifier that is not awaited is outside. -/
theorem out_of_accepts (h : Housed b) (hi : b.arena.issuer.accepts i = true)
    (ha : ¬b.arena.issuer.Awaits i) : i ∈ b.out :=
  ((h.traced.accepts_iff i).mp hi).resolve_right ha

theorem isFree_of_out (h : Housed b) (hi : i ∈ b.out) (hv : b.arena.get? i = none) :
    b.arena.store.isFree i = true := by
  rw [← Packed.cell_eq_none_iff h.sound]
  by_contra hne
  obtain ⟨row, hrow⟩ := Option.ne_none_iff_exists'.mp hne
  obtain ⟨hout, hindex⟩ := h.out_of_cell hrow
  obtain rfl := h.traced.eq_of_index_eq hout hi hindex
  have hget := (Packed.get?_eq_some_iff h.sound).mpr hrow
  rw [get?, hget] at hv
  cases hv

theorem isFree_of_next? (h : Housed b) (hi : b.arena.issuer.next? = some i) :
    b.arena.store.isFree i = true := by
  rw [← Packed.cell_eq_none_iff h.sound]
  by_contra hne
  obtain ⟨row, hrow⟩ := Option.ne_none_iff_exists'.mp hne
  obtain ⟨hout, hindex⟩ := h.out_of_cell hrow
  exact h.orderly.index_ne_of_next? h.traced hi _ hout hindex

theorem get?_eq_none_of_contains (h : Housed b) (hi : b.arena.contains i ≠ true) :
    b.arena.get? i = none := by
  rw [contains, Packed.contains_eq_isSome h.sound] at hi
  exact Option.not_isSome_iff_eq_none.mp hi

/-- A value is removed from its slot, and its identifier can be taken back. -/
theorem remove_of_get? (h : Housed b) (hv : b.arena.get? i = some v) :
    ∃ slot, b.arena.store.rows[slot]? = some (i, v) ∧
      b.arena.remove i =
        (.ok (slot, v), ⟨b.arena.issuer.recycle i, b.arena.store.vacate i slot⟩) := by
  obtain ⟨slot, hrow, hr, -⟩ := h.sound.exists_row hv
  have hacc : b.arena.issuer.accepts i = true :=
    (h.traced.accepts_iff i).mpr (.inl (h.out_of_get? hv))
  refine ⟨slot, hrow, ?_⟩
  simp [remove, hr, hacc]

theorem of_store (h : Housed b) {store : Packed (Ident bits) α} (hs : store.Sound)
    (ho : ∀ i v, store.get? i = some v → i ∈ b.out) (stored : Ident bits → Option α) :
    Housed { b with arena := { b.arena with store }, stored } :=
  ⟨h.traced, h.orderly, hs, fun {i v} => ho i v⟩

theorem of_reordered (h : Housed b) {store : Packed (Ident bits) α}
    (hs : Packed.Reordered b.arena.store store) :
    Housed { b with arena := { b.arena with store } } := by
  apply h.of_store hs.sound
  rw [hs.get?_eq h.sound]
  exact fun _ _ => h.out_of_get?

theorem rewritten (h : Housed b) (f : Ident bits → α → α) (stored : Ident bits → Option α) :
    Housed { b with arena := { b.arena with store := b.arena.store.mapRows f }, stored } := by
  apply h.of_store (h.sound.mapRows f)
  intro i v hv
  rw [Packed.get?_mapRows h.sound] at hv
  obtain ⟨w, hw, -⟩ := Option.map_eq_some_iff.mp hv
  exact h.out_of_get? hw

theorem modified (h : Housed b) (i : Ident bits) (f : α → α) (stored : Ident bits → Option α) :
    Housed { b with arena := b.arena.modify i f, stored } := by
  rw [modify, h.sound.modify_eq]
  exact h.rewritten _ stored

theorem added (h : Housed b) (hi : i ∈ b.out) (hfree : b.arena.store.isFree i = true) (v : α)
    (stored : Ident bits → Option α) :
    Housed { b with arena := { b.arena with store := b.arena.store.push i v }, stored } := by
  apply h.of_store (h.sound.push hfree v)
  intro j w hw
  rw [Packed.get?_push h.sound hfree, Function.update_apply] at hw
  split at hw
  · next hj => exact hj ▸ hi
  · exact h.out_of_get? hw

theorem issued (h : Housed b) (hi : b.arena.issuer.next? = some i) :
    Housed { b.hand i with arena := { b.arena with issuer := b.arena.issuer.advance } } :=
  ⟨h.traced.issued hi, h.orderly.issued h.traced hi, h.sound,
    fun hv => List.mem_cons_of_mem _ (h.out_of_get? hv)⟩

theorem tookBack (h : Housed b) (hi : i ∈ b.out) (hv : b.arena.get? i = none) :
    Housed { b.takeBack i with arena := { b.arena with issuer := b.arena.issuer.recycle i } } := by
  have hacc := (h.traced.accepts_iff i).mpr (.inl hi)
  refine ⟨h.traced.tookBack hacc, h.orderly.tookBack h.traced hi, h.sound, ?_⟩
  intro j w (hj : b.arena.get? j = some w)
  refine List.mem_filter.mpr ⟨h.out_of_get? hj, ?_⟩
  simp only [decide_eq_true_eq]
  rintro rfl
  rw [hv] at hj
  cases hj

theorem removed (h : Housed b) {slot : Nat} (hrow : b.arena.store.rows[slot]? = some (i, v))
    (stored : Ident bits → Option α) :
    Housed { b.takeBack i with
      arena := ⟨b.arena.issuer.recycle i, b.arena.store.vacate i slot⟩, stored } := by
  have hget := Packed.get?_vacate h.sound hrow
  have hv : b.arena.get? i = some v := by
    rw [get?, Packed.get?_eq_some_iff h.sound, h.sound.cell_eq_some_iff]
    exact ⟨Array.mem_of_getElem? hrow, rfl⟩
  have hvacated : Housed { b with
      arena := { b.arena with store := b.arena.store.vacate i slot }, stored } := by
    apply h.of_store (h.sound.vacate hrow)
    intro j w hw
    rw [hget, Function.update_apply] at hw
    split at hw
    · cases hw
    · exact h.out_of_get? hw
  apply hvacated.tookBack (h.out_of_get? hv)
  exact (congrFun hget i).trans (Function.update_self ..)

/-- One step: a call that names only identifiers that are not awaited. -/
theorem after (h : Housed b) (c : Call bits α)
    (hc : ∀ i ∈ c.idents, ¬b.arena.issuer.Awaits i) : Housed (b.after c) := by
  rw [Book.after]
  cases c with
  | reserve =>
    simp only [Call.perform, reserve, Issuer.issue]
    cases hi : b.arena.issuer.next? with
    | none => exact h
    | some i => exact h.issued hi
  | giveBack i =>
    simp only [Call.perform, giveBack, Issuer.giveBack]
    by_cases hs : b.arena.contains i = true
    · rw [if_pos hs]
      exact h
    · rw [if_neg hs]
      by_cases ha : b.arena.issuer.accepts i = true
      · rw [if_pos ha]
        have ho := h.out_of_accepts ha (hc i List.mem_cons_self)
        exact h.tookBack ho (h.get?_eq_none_of_contains hs)
      · rw [if_neg ha]
        exact h
  | emplace build =>
    simp only [Call.perform]
    cases hi : b.arena.issuer.next? with
    | none =>
      rw [emplace_of_none hi]
      exact h
    | some i =>
      have hfree := h.isFree_of_next? hi
      rw [emplace_of_isFree hi hfree]
      exact (h.issued hi).added List.mem_cons_self hfree (build i) _
  | add i v =>
    simp only [Call.perform, add]
    by_cases hs : b.arena.contains i = true
    · rw [if_pos hs]
      exact h
    · rw [if_neg hs]
      by_cases hcur : b.arena.issuer.isCurrent i = true
      · have hacc : b.arena.issuer.accepts i = true := by
          rw [Issuer.isCurrent, Bool.and_eq_true] at hcur
          exact hcur.1
        have ho := h.out_of_accepts hacc (hc i List.mem_cons_self)
        have hfree := h.isFree_of_out ho (h.get?_eq_none_of_contains hs)
        simp only [hcur, Packed.insert, hfree, if_true, Bool.not_true, Bool.false_eq_true, if_false]
        exact h.added ho hfree v _
      · simp only [hcur, Bool.not_false, if_true]
        exact h
  | remove i =>
    simp only [Call.perform]
    cases hv : b.arena.get? i with
    | none =>
      have hr : b.arena.remove i = (.error (.fault (.invalid i)), b.arena) := by
        simp [remove, Packed.row?, h.sound.slotOf?_eq_none hv]
      rw [hr]
      exact h
    | some v =>
      obtain ⟨slot, hrow, hr⟩ := h.remove_of_get? hv
      rw [hr]
      exact h.removed hrow _
  | sort le =>
    exact h.of_reordered (Packed.rearrange_spec h.sound (Packed.isOrder_sortedSlots le)).2.1
  | rearrange order =>
    simp only [Call.perform]
    split
    · next ho => exact h.of_reordered (Packed.rearrange_spec h.sound ho).2.1
    · exact h
  | modify i f => exact h.modified i f _
  | put i v =>
    simp only [Call.perform, put]
    by_cases hs : b.arena.contains i = true
    · rw [if_pos hs]
      exact h.modified i _ _
    · rw [if_neg hs]
      exact h
  | rewrite f => exact h.rewritten f _

end Housed

/-- As long as no index has come around, calls that are given only identifiers handed out before
name only what is in hand. -/
theorem Book.Own.inHand {b : Book bits α} (h : Joint b) {calls : List (Call bits α)}
    (hown : b.Own calls) (hb : ∀ n, (calls.foldl Book.after b).returned.count n < mostReturns) :
    b.InHand calls := by
  induction calls generalizing b with
  | nil => trivial
  | cons c calls ih =>
    have hcount : ∀ n, (b.after c).returned.count n < mostReturns := fun n =>
      ((Book.returned_suffix calls _).sublist.count_le n).trans_lt (hb n)
    refine ⟨fun i hi => ⟨hown.1 i hi, fun ha => ?_⟩, ih (h.after hown.1 hcount) hown.2 hb⟩
    have ho := h.kept.out_of_handed i (hown.1 i hi) ha.2
    exact h.kept.orderly.apart i ho ha.1

theorem housed_run (calls : List (Call bits α)) (h : ({} : Book bits α).InHand calls) :
    Housed (Book.run calls) := by
  rw [Book.run]
  have hb : Housed ({} : Book bits α) := .empty
  generalize ({} : Book bits α) = b at h hb ⊢
  induction calls generalizing b with
  | nil => exact hb
  | cons c calls ih => exact ih _ h.2 (hb.after c fun i hi => (h.1 i hi).2)

end EntityStore.Arena
