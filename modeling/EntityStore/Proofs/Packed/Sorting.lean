import EntityStore.Proofs.Packed.Contents

/-!
# Sorting packed storage

The rows of a store are sorted by finding the order of the slots and carrying it out in place. What
results is told from the rows alone: they are the same rows, in rank order, and rows that tie stand
as they stood before. There is only one such list.
-/
namespace EntityStore.Packed

variable {K α : Type}

/-- A comparison that ranks any two values; different values may tie. -/
structure Ranks (le : α → α → Bool) : Prop where
  total : ∀ a b, le a b ∨ le b a
  trans : ∀ {a b c}, le a b → le b c → le a c

/-- Whether the value of a row has the rank of `v`. -/
def ties (le : α → α → Bool) (v : α) (row : K × α) : Bool := le v row.2 && le row.2 v

/-- The rows of `before` in rank order, those that tie in their old order. -/
structure StablySorted (le : α → α → Bool) (before after : List (K × α)) : Prop where
  perm : after.Perm before
  sorted : after.Pairwise fun x y => le x.2 y.2
  stable : ∀ v, after.filter (ties le v) = before.filter (ties le v)

/-- What the rows are sorted by ranks any two values. -/
theorem ranks_measure (m : Measure) (f : α → Int64) : Ranks fun a b => m.le (f a) (f b) where
  total a b := by simpa using m.le_total (f a) (f b)
  trans := m.le_trans

namespace Ranks

variable {le : α → α → Bool} {l m : List (K × α)}

theorem ties_self (h : Ranks le) (row : K × α) : ties le row.2 row = true := by
  have hle := h.total row.2 row.2
  simpa [ties] using hle

/-- The first of some rows in rank order ranks no higher than any of them. -/
theorem head_le (h : Ranks le) {a b : K × α} (hs : (a :: l).Pairwise fun x y => le x.2 y.2)
    (hb : b ∈ a :: l) : le a.2 b.2 = true := by
  rcases List.mem_cons.mp hb with rfl | hb
  · simpa using h.total b.2 b.2
  · exact List.rel_of_pairwise_cons hs hb

/-- Lists with the same rows at each rank have the same rows. -/
theorem mem_congr (h : Ranks le) (hlm : ∀ v, l.filter (ties le v) = m.filter (ties le v))
    (row : K × α) : row ∈ l ↔ row ∈ m := by
  have hrow : row ∈ l.filter (ties le row.2) ↔ row ∈ m.filter (ties le row.2) := by rw [hlm]
  simpa [h.ties_self row] using hrow

/-- Rows in rank order are determined by the order of those that tie. -/
theorem eq_of_ties (h : Ranks le) (hl : l.Pairwise fun x y => le x.2 y.2)
    (hm : m.Pairwise fun x y => le x.2 y.2)
    (hlm : ∀ v, l.filter (ties le v) = m.filter (ties le v)) : l = m := by
  induction l generalizing m with
  | nil =>
    cases m with
    | nil => rfl
    | cons b m => simpa using h.mem_congr hlm b
  | cons a l ih =>
    cases m with
    | nil => simpa using h.mem_congr hlm a
    | cons b m =>
      -- each head is among the rows of the other list, so they tie and are the first of their ties
      have hab : le a.2 b.2 = true :=
        h.head_le hl ((h.mem_congr hlm b).mpr List.mem_cons_self)
      have hba : le b.2 a.2 = true :=
        h.head_le hm ((h.mem_congr hlm a).mp List.mem_cons_self)
      have hb : ties le a.2 b = true := by simp [ties, hab, hba]
      have hheads := hlm a.2
      rw [List.filter_cons_of_pos (h.ties_self a), List.filter_cons_of_pos hb] at hheads
      obtain rfl := (List.cons.inj hheads).1
      have htails : ∀ v, l.filter (ties le v) = m.filter (ties le v) := by
        intro v
        have hv := hlm v
        by_cases ha : ties le v a = true
        · rw [List.filter_cons_of_pos ha, List.filter_cons_of_pos ha] at hv
          exact (List.cons.inj hv).2
        · rwa [List.filter_cons_of_neg ha, List.filter_cons_of_neg ha] at hv
      rw [ih hl.of_cons hm.of_cons htails]

/-- Rows that tie with one value are in rank order however they stand. -/
theorem pairwise_ties (h : Ranks le) (v : α) (l : List (K × α)) :
    (l.filter (ties le v)).Pairwise fun x y => le x.2 y.2 := by
  apply List.pairwise_of_forall_mem_list
  intro x hx y hy
  have hxv : ties le v x = true := (List.mem_filter.mp hx).2
  have hvy : ties le v y = true := (List.mem_filter.mp hy).2
  simp only [ties, Bool.and_eq_true] at hxv hvy
  exact h.trans hxv.2 hvy.1

theorem trans_rows (h : Ranks le) (x y z : K × α) (hxy : le x.2 y.2 = true)
    (hyz : le y.2 z.2 = true) : le x.2 z.2 = true := h.trans hxy hyz

theorem total_rows (h : Ranks le) (x y : K × α) : (le x.2 y.2 || le y.2 x.2) = true := by
  simpa using h.total x.2 y.2

theorem stablySorted_mergeSort (h : Ranks le) (l : List (K × α)) :
    StablySorted le l (l.mergeSort fun x y => le x.2 y.2) where
  perm := List.mergeSort_perm _ _
  sorted := List.pairwise_mergeSort h.trans_rows h.total_rows l
  stable v := by
    -- rows that tie are in rank order, so they are left as they stand
    have hsub : (l.filter (ties le v)).Sublist (l.mergeSort fun x y => le x.2 y.2) :=
      List.sublist_mergeSort h.trans_rows h.total_rows (h.pairwise_ties v l)
        List.filter_sublist
    have hties := hsub.filter (ties le v)
    rw [List.filter_filter] at hties
    simp only [Bool.and_self] at hties
    have hlen := ((List.mergeSort_perm l fun x y => le x.2 y.2).filter (ties le v)).length_eq
    exact (hties.eq_of_length hlen.symm).symm

/-- There is one way to sort rows stably. -/
theorem stablySorted_iff (h : Ranks le) {rows : List (K × α)} :
    StablySorted le l rows ↔ rows = l.mergeSort fun x y => le x.2 y.2 := by
  have hsort := h.stablySorted_mergeSort l
  constructor
  · intro hrows
    apply h.eq_of_ties hrows.sorted hsort.sorted
    intro v
    rw [hrows.stable, hsort.stable]
  · rintro rfl
    exact hsort

end Ranks

variable [Keyed K] {p q : Packed K α}

/-- Every slot holds the row that was in the slot that the order names for it. -/
theorem toList_rearrange (hp : p.Sound) {order : Array Nat} (ho : IsOrder p.rows.size order)
    (i : Nat) : (p.rearrange order).toList[i]? = order[i]?.bind (p.toList[·]?) := by
  obtain ⟨-, hre, hrow⟩ := rearrange_spec hp ho
  simp only [toList, Array.getElem?_toList]
  cases hi : order[i]? with
  | some s => exact hrow hi
  | none =>
    have hsize : (p.rearrange order).rows.size = order.size := by rw [hre.size_eq, ho.size_eq]
    rw [Array.getElem?_eq_none_iff] at hi
    simpa [hsize] using hi

def leSlot (le : α → α → Bool) (x y : Option (K × α)) : Bool :=
  x.elim true fun x => y.elim true fun y => le x.2 y.2

omit [Keyed K] in
theorem map_sortedSlots (p : Packed K α) (le : α → α → Bool) :
    (p.sortedSlots le).map (p.rows[·]?) =
      ((List.range p.rows.size).map (p.rows[·]?)).mergeSort (leSlot le) := by
  apply List.map_mergeSort
  intro a _ b _
  cases p.rows[a]? <;> cases p.rows[b]? <;> rfl

/-- The rows after sorting are the merge sort of the rows before. -/
theorem toList_sort (hp : p.Sound) (le : α → α → Bool) :
    (p.sort le).toList = p.toList.mergeSort fun x y => le x.2 y.2 := by
  have hrows : (List.range p.rows.size).map (p.rows[·]?) = p.toList.map some := by
    apply List.ext_getElem?
    intro i
    by_cases hi : i < p.rows.size <;> simp [toList, hi]
  have hsorted : (p.sort le).toList.map some = (p.sortedSlots le).map (p.rows[·]?) := by
    apply List.ext_getElem?
    intro i
    have hi := toList_rearrange hp (isOrder_sortedSlots le) i
    rw [List.getElem?_toArray] at hi
    rw [List.getElem?_map, List.getElem?_map, sort, hi]
    cases hs : (p.sortedSlots le)[i]? with
    | none => rfl
    | some s =>
      have hlt : s < p.rows.size := (isOrder_sortedSlots le).lt (by simpa using hs)
      simp [toList, hlt]
  apply List.map_injective_iff.mpr (Option.some_injective _)
  calc (p.sort le).toList.map some
      = (p.sortedSlots le).map (p.rows[·]?) := hsorted
    _ = ((List.range p.rows.size).map (p.rows[·]?)).mergeSort (leSlot le) := map_sortedSlots p le
    _ = (p.toList.map some).mergeSort (leSlot le) := by rw [hrows]
    _ = (p.toList.mergeSort fun x y => le x.2 y.2).map some :=
        (List.map_mergeSort (f := some) (s := leSlot le) fun _ _ _ _ => rfl).symm

/-- Every key is found as before, in the slot that its row has come to. -/
structure StillFound [DecidableEq K] (p q : Packed K α) : Prop where
  get_eq : q.get? = p.get?
  slotOf_iff : ∀ k slot, q.slotOf? k = some slot ↔ ∃ v, q.toList[slot]? = some (k, v)
  reach_eq : q.reach = p.reach

theorem Reordered.stillFound [DecidableEq K] (h : Reordered p q) (hp : p.Sound) :
    StillFound p q where
  get_eq := h.get?_eq hp
  slotOf_iff k slot := by
    rw [slotOf?_eq_some_iff h.sound]
    simp [keyAt?, toList]
  reach_eq := h.reach_eq

/-- Sorting a store ends, breaks no expectation and leaves the stable sort of its rows, whatever
values tie; and carrying out any order at all brings into every slot the row of the slot that the
order names. No key is lost either way. -/
theorem sorted_in_place [DecidableEq K] (hp : p.Sound) :
    (∀ le : α → α → Bool, Ranks le →
      Strict.perform p (.sort le) = some (.ok (), p.sort le) ∧
      (∀ rows, StablySorted le p.toList rows ↔ rows = (p.sort le).toList) ∧
      StillFound p (p.sort le)) ∧
    ∀ order : Array Nat, IsOrder p.rows.size order →
      Strict.rearrange p order = some (p.rearrange order) ∧
      (∀ i : Nat, (p.rearrange order).toList[i]? = order[i]?.bind (p.toList[·]?)) ∧
      StillFound p (p.rearrange order) := by
  constructor
  · intro le hle
    obtain ⟨hstrict, hre, -⟩ := rearrange_spec hp (isOrder_sortedSlots le)
    refine ⟨?_, ?_, hre.stillFound hp⟩
    · rw [Strict.perform, hstrict]
      rfl
    · intro rows
      rw [hle.stablySorted_iff, toList_sort hp]
  · intro order ho
    obtain ⟨hstrict, hre, -⟩ := rearrange_spec hp ho
    exact ⟨hstrict, toList_rearrange hp ho, hre.stillFound hp⟩

/-- Two ranks of two rows each, in a store that a row has left, and an order of three slots in one
cycle and one slot that stays. -/
theorem sorted_in_place_tied :
    let key (i : Fin 16) : Ident 4 := ⟨i, .first, i.isLt⟩
    let le (a b : Fin 3) : Bool := a ≤ b
    let p : Packed (Ident 4) (Fin 3) := run [.insert (key 5) 2, .insert (key 1) 1,
      .insert (key 0) 0, .insert (key 3) 2, .insert (key 4) 1, .erase (key 0)]
    p.Sound ∧ p.toList = [(key 5, 2), (key 1, 1), (key 4, 1), (key 3, 2)] ∧
      Ranks le ∧ (p.sort le).toList = [(key 1, 1), (key 4, 1), (key 5, 2), (key 3, 2)] ∧
      (p.sort le).get? (key 5) = some 2 ∧ (p.sort le).slotOf? (key 5) = some 2 ∧
      IsOrder p.rows.size #[2, 0, 1, 3] ∧
      (p.rearrange #[2, 0, 1, 3]).toList[0]? = some (key 4, 1) ∧
      (p.rearrange #[2, 0, 1, 3]).slotOf? (key 1) = some 2 := by
  intro key le p
  have hp : p.Sound := (represents_run _).sound
  have hlist : p.toList = [(key 5, 2), (key 1, 1), (key 4, 1), (key 3, 2)] := by decide +kernel
  have hle : Ranks le := ⟨by decide, by decide⟩
  have ho : IsOrder p.rows.size #[2, 0, 1, 3] := by decide +kernel
  obtain ⟨-, hsorted, hfound⟩ := (sorted_in_place hp).1 le hle
  obtain ⟨-, hrows, hfound'⟩ := (sorted_in_place hp).2 _ ho
  have hsort : (p.sort le).toList = [(key 1, 1), (key 4, 1), (key 5, 2), (key 3, 2)] := by
    rw [hlist] at hsorted
    exact ((hsorted _).mp ⟨by decide, by decide, by decide⟩).symm
  refine ⟨hp, hlist, hle, hsort, ?_, ?_, ho, ?_, ?_⟩
  · rw [hfound.get_eq]
    decide +kernel
  · exact (hfound.slotOf_iff _ _).mpr ⟨2, by rw [hsort]; rfl⟩
  · rw [hrows, hlist]
    rfl
  · exact (hfound'.slotOf_iff _ _).mpr ⟨1, by rw [hrows, hlist]; rfl⟩

end EntityStore.Packed
