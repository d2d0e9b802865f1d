import EntityStore.Proofs.Packed.Sound

/-!
# The cells of packed storage

What each lookup of a sound store reads off the cell of an index, and what each call does to the
cells.
-/
namespace EntityStore.Packed

variable {K α : Type} {p : Packed K α}

@[simp] theorem rows_cover (n : Nat) : (p.cover n).rows = p.rows := by
  unfold cover; split <;> rfl

theorem reach_cover (n : Nat) : (p.cover n).reach = max p.reach (n + 1) := by
  unfold cover
  split <;> simp only [reach, Array.size_append, Array.size_replicate] <;> omega

theorem getElem?_cover (n i : Nat) :
    (p.cover n).reverse[i]? =
      if i < p.reach then p.reverse[i]? else if i ≤ n then some none else none := by
  unfold cover reach
  by_cases hc : p.reverse.size ≤ n
  · rw [if_pos hc, Array.getElem?_append, Array.getElem?_replicate]
    by_cases hi : i < p.reverse.size
    · rw [if_pos hi, if_pos hi]
    · rw [if_neg hi, if_neg hi]
      by_cases hn : i ≤ n
      · rw [if_pos hn, if_pos (by omega)]
      · rw [if_neg hn, if_neg (by omega)]
  · rw [if_neg hc]
    by_cases hi : i < p.reverse.size
    · rw [if_pos hi]
    · rw [if_neg hi, if_neg (by omega), Array.getElem?_eq_none (by omega)]

theorem cell_mapRows (f : K → α → α) (i : Nat) :
    (p.mapRows f).cell i = (p.cell i).map fun row => (row.1, f row.1 row.2) := by
  simp only [cell, mapRows, Array.getElem?_map, Option.map_bind]
  rfl

variable [Keyed K]

theorem occupant?_eq (k : K) : p.occupant? k = (p.cell (Keyed.index k)).map (·.1) := by
  simp only [occupant?, pointed?, cell, Option.map_bind]
  rfl

theorem cell_eq_none_iff (h : p.Sound) (k : K) :
    p.cell (Keyed.index k) = none ↔ p.isFree k = true := by
  simp only [isFree, pointed?, cell, Option.isNone_iff_eq_none]
  constructor
  · intro hc
    cases hj : p.reverse[Keyed.index k]?.join with
    | none => rfl
    | some slot =>
      obtain ⟨row, hrow, -⟩ := h.owned (Option.join_eq_some_iff.mp hj)
      simp [hj, hrow] at hc
  · intro hj
    simp [hj]

section Lookup
variable [DecidableEq K]

theorem slotOf?_eq_some_iff {k : K} {slot : Nat} (h : p.Sound) :
    p.slotOf? k = some slot ↔ p.keyAt? slot = some k := by
  simp only [slotOf?, Option.filter_eq_some_iff, decide_eq_true_eq, pointed?]
  refine ⟨fun hs => hs.2, fun hk => ⟨?_, hk⟩⟩
  obtain ⟨row, hrow, rfl⟩ := Option.map_eq_some_iff.mp hk
  rw [h.pointed hrow]
  rfl

/-- A key has a slot exactly if it is the key of a row, and then the slot is that row's. -/
theorem row?_eq_some_iff {k : K} {slot : Nat} {v : α} (h : p.Sound) :
    p.row? k = some (slot, v) ↔ p.rows[slot]? = some (k, v) := by
  simp only [row?, Option.bind_eq_some_iff, Option.map_eq_some_iff, slotOf?_eq_some_iff h, keyAt?]
  constructor
  · rintro ⟨s, ⟨x, hx, rfl⟩, y, hy, hsv⟩
    obtain ⟨rfl, rfl⟩ := Prod.mk.inj hsv
    obtain rfl := Option.some.inj (hx.symm.trans hy)
    exact hx
  · intro hr
    exact ⟨slot, ⟨_, hr, rfl⟩, _, hr, rfl⟩

theorem get?_eq (h : p.Sound) (k : K) :
    p.get? k = ((p.cell (Keyed.index k)).filter (·.1 = k)).map (·.2) := by
  ext v
  simp only [get?, Option.bind_eq_some_iff, Option.map_eq_some_iff, Option.filter_eq_some_iff,
    slotOf?_eq_some_iff h, keyAt?, h.cell_eq_some_iff, decide_eq_true_eq]
  constructor
  · rintro ⟨s, ⟨x, hx, rfl⟩, y, hy, rfl⟩
    obtain rfl := Option.some.inj (hx.symm.trans hy)
    exact ⟨x, ⟨⟨Array.mem_of_getElem? hx, rfl⟩, rfl⟩, rfl⟩
  · rintro ⟨x, ⟨⟨hm, -⟩, rfl⟩, rfl⟩
    obtain ⟨s, hs⟩ := Array.mem_iff_getElem?.mp hm
    exact ⟨s, ⟨x, hs, rfl⟩, x, hs, rfl⟩

theorem contains_eq (h : p.Sound) (k : K) :
    p.contains k = ((p.cell (Keyed.index k)).filter (·.1 = k)).isSome := by
  rw [Bool.eq_iff_iff, contains, Option.isSome_iff_exists, Option.isSome_iff_exists]
  simp only [Option.filter_eq_some_iff, slotOf?_eq_some_iff h, h.cell_eq_some_iff, keyAt?,
    Option.map_eq_some_iff, decide_eq_true_eq]
  constructor
  · rintro ⟨s, x, hx, rfl⟩
    exact ⟨x, ⟨Array.mem_of_getElem? hx, rfl⟩, rfl⟩
  · rintro ⟨x, ⟨hm, -⟩, rfl⟩
    obtain ⟨s, hs⟩ := Array.mem_iff_getElem?.mp hm
    exact ⟨s, x, hs, rfl⟩

end Lookup

theorem push_eq (k : K) (v : α) :
    p.push k v = ⟨p.rows.push (k, v),
      (p.cover (Keyed.index k)).reverse.setIfInBounds (Keyed.index k) (some p.rows.size)⟩ := by
  simp [push]

theorem Sound.push (h : p.Sound) {k : K} (hf : p.isFree k) (v : α) : (p.push k v).Sound := by
  have hfree : ∀ {slot : Nat} {row : K × α}, p.rows[slot]? = some row →
      Keyed.index row.1 ≠ Keyed.index k := by
    intro slot row hrow he
    have := h.pointed hrow
    simp [isFree, pointed?, ← he, this] at hf
  have hin : Keyed.index k < (p.cover (Keyed.index k)).reverse.size := by
    have := reach_cover (p := p) (Keyed.index k)
    simp only [reach] at this
    omega
  rw [push_eq]
  constructor
  · intro slot row hs
    rw [Array.getElem?_push] at hs
    rw [Array.getElem?_setIfInBounds]
    split at hs
    · cases hs
      simp [*]
    · have hne := hfree hs
      have hp := h.pointed hs
      rw [if_neg hne.symm, getElem?_cover, if_pos (h.index_lt_reach (Array.mem_of_getElem? hs)),
        hp]
  · intro i slot hs
    rw [Array.getElem?_setIfInBounds] at hs
    simp only [Array.getElem?_push]
    split at hs
    · cases hs
      exact ⟨(k, v), by simp_all⟩
    · rw [getElem?_cover] at hs
      have hp : p.reverse[i]? = some (some slot) := by
        split at hs
        · exact hs
        · split at hs <;> cases hs
      obtain ⟨row, hrow, hi⟩ := h.owned hp
      have hlt := (Array.getElem?_eq_some_iff.mp hrow).1
      exact ⟨row, by rw [if_neg (by omega)]; exact hrow, hi⟩

theorem reach_push (k : K) (v : α) : (p.push k v).reach = max p.reach (Keyed.index k + 1) := by
  rw [push_eq, ← reach_cover]
  simp [reach]

theorem cell_push (h : p.Sound) {k : K} (hf : p.isFree k) (v : α) :
    (p.push k v).cell = Function.update p.cell (Keyed.index k) (some (k, v)) := by
  have hfree := (cell_eq_none_iff h k).mpr hf
  funext i
  ext row
  rw [(h.push hf v).cell_eq_some_iff, push_eq, Array.mem_push]
  by_cases hi : i = Keyed.index k
  · subst i
    rw [Function.update_self, Option.some.injEq, eq_comm (a := (k, v))]
    constructor
    · rintro ⟨hm | rfl, hrow⟩
      · rw [h.cell_eq_some_iff.mpr ⟨hm, hrow⟩] at hfree
        cases hfree
      · rfl
    · rintro rfl
      exact ⟨.inr rfl, rfl⟩
  · rw [Function.update_of_ne hi, h.cell_eq_some_iff]
    constructor
    · rintro ⟨hm | rfl, hrow⟩
      · exact ⟨hm, hrow⟩
      · exact absurd hrow.symm hi
    · rintro ⟨hm, hrow⟩
      exact ⟨.inl hm, hrow⟩

/-- The store without its last row, which is that of `k`. -/
def dropLast (p : Packed K α) (k : K) : Packed K α :=
  ⟨p.rows.pop, p.reverse.setIfInBounds (Keyed.index k) none⟩

theorem Sound.dropLast (h : p.Sound) {k : K} {v : α}
    (hl : p.rows[p.rows.size - 1]? = some (k, v)) : (p.dropLast k).Sound := by
  constructor
  · intro slot row hs
    rw [Packed.dropLast, Array.getElem?_pop] at hs
    split at hs
    · have hne : Keyed.index k ≠ Keyed.index row.1 := by
        intro he
        have := h.slot_unique hl hs he
        omega
      simp only [Packed.dropLast, Array.getElem?_setIfInBounds_ne hne]
      exact h.pointed hs
    · cases hs
  · intro i slot hs
    simp only [Packed.dropLast, Array.getElem?_setIfInBounds] at hs
    split at hs
    · split at hs <;> cases hs
    · next hne =>
      obtain ⟨row, hrow, hi⟩ := h.owned hs
      refine ⟨row, ?_, hi⟩
      have hlt := (Array.getElem?_eq_some_iff.mp hrow).1
      have hslot : slot ≠ p.rows.size - 1 := by
        rintro rfl
        obtain rfl := Option.some.inj (hl.symm.trans hrow)
        exact hne hi
      rw [Packed.dropLast, Array.getElem?_pop, if_pos (by omega)]
      exact hrow

theorem cell_dropLast (h : p.Sound) {k : K} {v : α}
    (hl : p.rows[p.rows.size - 1]? = some (k, v)) :
    (p.dropLast k).cell = Function.update p.cell (Keyed.index k) none := by
  funext i
  by_cases hi : i = Keyed.index k
  · subst i
    have hlt : Keyed.index k < p.reverse.size := h.index_lt_reach (Array.mem_of_getElem? hl)
    simp [cell, Packed.dropLast, hlt]
  · rw [Function.update_of_ne hi]
    ext row
    rw [(h.dropLast hl).cell_eq_some_iff, h.cell_eq_some_iff]
    refine and_congr_left fun hrow => ⟨fun hm => ?_, fun hm => ?_⟩
    · obtain ⟨s, hs⟩ := Array.mem_iff_getElem?.mp hm
      rw [Packed.dropLast, Array.getElem?_pop] at hs
      split at hs
      · exact Array.mem_of_getElem? hs
      · cases hs
    · obtain ⟨s, hs⟩ := Array.mem_iff_getElem?.mp hm
      have hlt := (Array.getElem?_eq_some_iff.mp hs).1
      have hne : s ≠ p.rows.size - 1 := by
        rintro rfl
        obtain rfl := Option.some.inj (hl.symm.trans hs)
        exact hi hrow.symm
      apply Array.mem_of_getElem? (i := s)
      rw [Packed.dropLast, Array.getElem?_pop, if_pos (by omega)]
      exact hs

/-- The store with the row of a slot in the last slot. -/
def moveLast (p : Packed K α) (slot : Nat) : Packed K α :=
  if slot = p.rows.size - 1 then p else p.exchange slot (p.rows.size - 1)

theorem vacate_eq (k : K) (slot : Nat) : p.vacate k slot = (p.moveLast slot).dropLast k := rfl

theorem Sound.reordered_moveLast (h : p.Sound) {slot : Nat} (hs : slot < p.rows.size) :
    Reordered p (p.moveLast slot) := by
  unfold moveLast
  split
  · exact .refl h
  · exact h.reordered_exchange hs (by omega)

theorem getElem?_moveLast {slot : Nat} {row : K × α} (hs : p.rows[slot]? = some row) :
    (p.moveLast slot).rows[(p.moveLast slot).rows.size - 1]? = some row := by
  have hlt := (Array.getElem?_eq_some_iff.mp hs).1
  unfold moveLast
  split
  · next he => rwa [← he]
  · have hlast : p.rows.size - 1 < p.rows.size := by omega
    rw [exchange_eq hs (Array.getElem?_eq_getElem hlast)]
    simp only [Array.size_swapIfInBounds]
    rw [getElem?_swapIfInBounds hlt hlast, if_pos rfl, hs]

theorem Sound.vacate (h : p.Sound) {k : K} {slot : Nat} {v : α}
    (hs : p.rows[slot]? = some (k, v)) : (p.vacate k slot).Sound := by
  rw [vacate_eq]
  have hlt := (Array.getElem?_eq_some_iff.mp hs).1
  exact (h.reordered_moveLast hlt).sound.dropLast (getElem?_moveLast hs)

theorem cell_vacate (h : p.Sound) {k : K} {slot : Nat} {v : α}
    (hs : p.rows[slot]? = some (k, v)) :
    (p.vacate k slot).cell = Function.update p.cell (Keyed.index k) none := by
  have hre := h.reordered_moveLast (Array.getElem?_eq_some_iff.mp hs).1
  rw [vacate_eq, cell_dropLast hre.sound (getElem?_moveLast hs), hre.cell_eq h]

theorem reach_vacate (h : p.Sound) {k : K} {slot : Nat} (hs : slot < p.rows.size) :
    (p.vacate k slot).reach = p.reach := by
  rw [vacate_eq, ← (h.reordered_moveLast hs).reach_eq]
  simp [reach, Packed.dropLast]

/-- The rows before the slot stay, and of those behind it the last one takes the slot. -/
theorem toList_vacate {k : K} {row : K × α} {before after : List (K × α)}
    (hl : p.toList = before ++ row :: after) :
    ∃ after', (p.vacate k before.length).toList = before ++ after' ∧ after'.Perm after := by
  have hrows : p.rows = (before ++ row :: after).toArray := by rw [← hl, toList]
  have hslot : p.rows[before.length]? = some row := by simp [hrows]
  rcases List.eq_nil_or_concat after with rfl | ⟨mid, last, rfl⟩
  · refine ⟨[], ?_, .refl _⟩
    simp [vacate_eq, moveLast, dropLast, toList, hrows]
  · refine ⟨last :: mid, ?_, ?_⟩
    · have hlast : p.rows[p.rows.size - 1]? = some last := by simp [hrows]
      have hne : before.length ≠ p.rows.size - 1 := by simp [hrows]
      have hswap : (p.rows.swapIfInBounds before.length (p.rows.size - 1)).toList =
          (before ++ last :: mid) ++ [row] := by
        simp [hrows, Array.swapIfInBounds_def]
      rw [vacate_eq, moveLast, if_neg hne, exchange_eq hslot hlast, dropLast, toList,
        Array.toList_pop, hswap, List.dropLast_concat]
    · rw [List.concat_eq_append]
      exact (List.perm_append_singleton last mid).symm

theorem getElem?_clear (i : Nat) :
    p.clear.reverse[i]? = p.reverse[i]?.map fun entry =>
      if ∃ row ∈ p.rows, Keyed.index row.1 = i then none else entry := by
  suffices hl : ∀ (rows : List (K × α)) (reverse : Array (Option Nat)),
      (rows.foldl (fun reverse row => reverse.setIfInBounds (Keyed.index row.1) none) reverse)[i]? =
        reverse[i]?.map fun entry => if ∃ row ∈ rows, Keyed.index row.1 = i then none else entry by
    simpa only [clear, Array.foldl_toList, Array.mem_toList_iff] using hl p.rows.toList p.reverse
  intro rows
  induction rows with
  | nil => simp
  | cons row rows ih =>
    intro reverse
    rw [List.foldl_cons, ih, Array.getElem?_setIfInBounds]
    by_cases hi : Keyed.index row.1 = i
    · by_cases hlt : i < reverse.size <;> simp [hi, hlt]
    · simp only [hi, if_false, List.mem_cons, exists_eq_or_imp, false_or]

theorem cell_clear : p.clear.cell = fun _ => none := by
  ext i
  simp [cell, clear]

theorem Sound.clear (h : p.Sound) : p.clear.Sound := by
  constructor
  · intro slot row hs
    simp [Packed.clear] at hs
  · intro i slot hs
    rw [getElem?_clear, Option.map_eq_some_iff] at hs
    obtain ⟨entry, he, hif⟩ := hs
    split at hif
    · cases hif
    · next hno =>
      subst hif
      obtain ⟨row, hrow, hi⟩ := h.owned he
      exact absurd ⟨row, Array.mem_of_getElem? hrow, hi⟩ hno

theorem reach_clear : p.clear.reach = p.reach := by
  have hs : ∀ i, p.clear.reverse.size ≤ i ↔ p.reverse.size ≤ i := by
    intro i
    rw [← Array.getElem?_eq_none_iff, ← Array.getElem?_eq_none_iff, getElem?_clear,
      Option.map_eq_none_iff]
  have := hs p.reverse.size
  have := hs p.clear.reverse.size
  simp only [reach]
  omega

theorem Sound.mapRows (h : p.Sound) (f : K → α → α) : (p.mapRows f).Sound := by
  constructor
  · intro slot row hs
    rw [Packed.mapRows, Array.getElem?_map] at hs
    obtain ⟨x, hx, rfl⟩ := Option.map_eq_some_iff.mp hs
    exact (h.pointed hx :)
  · intro i slot hs
    obtain ⟨row, hrow, hi⟩ := h.owned hs
    refine ⟨(row.1, f row.1 row.2), ?_, hi⟩
    rw [Packed.mapRows, Array.getElem?_map, hrow, Option.map_some]

/-- A change in place moves no key. -/
theorem keyAt?_modify [DecidableEq K] (p : Packed K α) (k : K) (f : α → α) (slot : Nat) :
    (p.modify k f).keyAt? slot = p.keyAt? slot := by
  unfold modify keyAt?
  split
  · rfl
  · rw [Array.getElem?_modify]
    split <;> simp [Function.comp_def]

theorem slotOf?_modify [DecidableEq K] (p : Packed K α) (k : K) (f : α → α) (j : K) :
    (p.modify k f).slotOf? j = p.slotOf? j := by
  have hreverse : (p.modify k f).reverse = p.reverse := by
    unfold modify
    split <;> rfl
  simp only [slotOf?, pointed?, hreverse, keyAt?_modify]

/-- Changing the value of one key is changing every value by a function that minds the key. -/
theorem Sound.modify_eq [DecidableEq K] (h : p.Sound) (k : K) (f : α → α) :
    p.modify k f = p.mapRows fun k' v => if k' = k then f v else v := by
  unfold modify
  split
  · next hs =>
    suffices p.rows = p.rows.map fun row => (row.1, if row.1 = k then f row.2 else row.2) by
      rw [Packed.mapRows, ← this]
    apply Array.ext (by simp)
    intro s hlt _
    have hne : (p.rows[s]).1 ≠ k := by
      rintro rfl
      have := (slotOf?_eq_some_iff h).mpr (by simp [keyAt?, hlt] : p.keyAt? s = some p.rows[s].1)
      simp [this] at hs
    simp [hne]
  · next slot hs =>
    rw [slotOf?_eq_some_iff h] at hs
    obtain ⟨row, hrow, rfl⟩ := Option.map_eq_some_iff.mp hs
    simp only [Packed.mapRows, mk.injEq, and_true]
    apply Array.ext (by simp)
    intro s hlt _
    rw [Array.size_modify] at hlt
    rw [Array.getElem_modify, Array.getElem_map]
    by_cases he : slot = s
    · subst he
      obtain ⟨_, rfl⟩ := Array.getElem?_eq_some_iff.mp hrow
      simp
    · have hne : (p.rows[s]).1 ≠ row.1 := fun hk =>
        he (h.slot_unique hrow (Array.getElem?_eq_getElem hlt) (by rw [hk]))
      simp [he, hne]

theorem Sound.modify [DecidableEq K] (h : p.Sound) (k : K) (f : α → α) :
    (p.modify k f).Sound := by
  rw [h.modify_eq]
  exact h.mapRows _

/-- No two rows have one key. -/
theorem Sound.keys_nodup (h : p.Sound) : (p.toList.map (·.1)).Nodup := by
  rw [List.Nodup, List.pairwise_map, List.pairwise_iff_getElem]
  intro s t hs ht hst he
  have hs' : p.rows[s]? = some p.toList[s] := by simp [toList]
  have ht' : p.rows[t]? = some p.toList[t] := by simp [toList]
  have := h.slot_unique hs' ht' (congrArg Keyed.index he)
  omega

section Rewrite

variable {f g : K → α → α}

omit [Keyed K] in
/-- Functions that agree on all rows change the store alike. -/
theorem mapRows_congr (h : ∀ row ∈ p.rows, f row.1 row.2 = g row.1 row.2) :
    p.mapRows f = p.mapRows g := by
  have hrows : p.rows.map (fun row => (row.1, f row.1 row.2)) =
      p.rows.map fun row => (row.1, g row.1 row.2) :=
    Array.map_congr_left fun row hrow => by rw [h row hrow]
  rw [mapRows, hrows, mapRows]

omit [Keyed K] in
theorem mapRows_mapRows (p : Packed K α) (f g : K → α → α) :
    (p.mapRows f).mapRows g = p.mapRows fun k v => g k (f k v) := by
  simp only [mapRows, Array.map_map, Function.comp_def]

omit [Keyed K] in
theorem mapRows_self (p : Packed K α) : p.mapRows (fun _ v => v) = p := by
  simp [mapRows]

omit [Keyed K] in
theorem keyAt?_mapRows (p : Packed K α) (f : K → α → α) (slot : Nat) :
    (p.mapRows f).keyAt? slot = p.keyAt? slot := by
  simp [keyAt?, mapRows, Function.comp_def]

theorem row?_mapRows [DecidableEq K] (p : Packed K α) (f : K → α → α) (k : K) :
    (p.mapRows f).row? k = (p.row? k).map fun row => (row.1, f k row.2) := by
  have hpointed : (p.mapRows f).pointed? k = p.pointed? k := rfl
  have hslot : (p.mapRows f).slotOf? k = p.slotOf? k := by
    simp only [slotOf?, hpointed, keyAt?_mapRows]
  rw [row?, hslot, row?]
  cases hs : p.slotOf? k with
  | none => rfl
  | some slot =>
    have hkey : p.keyAt? slot = some k := by
      simpa using (Option.filter_eq_some_iff.mp hs).2
    obtain ⟨row, hrow, rfl⟩ := Option.map_eq_some_iff.mp hkey
    simp [mapRows, hrow]

theorem point_mapRows (p : Packed K α) (f : K → α → α) (slot : Nat) :
    (p.mapRows f).point slot = (p.point slot).mapRows f := by
  unfold point
  rw [keyAt?_mapRows]
  cases p.keyAt? slot <;> rfl

theorem exchange_mapRows (p : Packed K α) (f : K → α → α) (a b : Nat) :
    (p.mapRows f).exchange a b = (p.exchange a b).mapRows f := by
  have hswap : ({ p.mapRows f with rows := (p.mapRows f).rows.swapIfInBounds a b } : Packed K α) =
      ({ p with rows := p.rows.swapIfInBounds a b } : Packed K α).mapRows f := by
    simp only [mapRows, mk.injEq, and_true]
    apply Array.ext_getElem?
    intro s
    by_cases ha : a < p.rows.size <;> by_cases hb : b < p.rows.size <;>
      simp only [Array.swapIfInBounds_def, Array.size_map, ha, hb, dite_true, dite_false,
        Array.getElem?_map, Array.getElem?_swap, Array.getElem_map]
    split
    · rfl
    · split <;> rfl
  rw [exchange, hswap, point_mapRows, point_mapRows, exchange]

/-- A row that leaves does so whatever the values are. -/
theorem vacate_mapRows (p : Packed K α) (f : K → α → α) (k : K) (slot : Nat) :
    (p.mapRows f).vacate k slot = (p.vacate k slot).mapRows f := by
  have hsize : (p.mapRows f).rows.size = p.rows.size := Array.size_map ..
  have hmove : (p.mapRows f).moveLast slot = (p.moveLast slot).mapRows f := by
    rw [moveLast, hsize, exchange_mapRows, moveLast]
    split <;> rfl
  rw [vacate_eq, hmove, vacate_eq]
  simp [dropLast, mapRows]

end Rewrite

section Lookup
variable [DecidableEq K]

theorem get?_eq_some_iff (h : p.Sound) {k : K} {v : α} :
    p.get? k = some v ↔ p.cell (Keyed.index k) = some (k, v) := by
  rw [get?_eq h, Option.map_eq_some_iff]
  simp only [Option.filter_eq_some_iff, decide_eq_true_eq]
  constructor
  · rintro ⟨row, ⟨hrow, rfl⟩, rfl⟩
    exact hrow
  · intro hc
    exact ⟨_, ⟨hc, rfl⟩, rfl⟩

theorem Sound.mem_toList_iff (h : p.Sound) {k : K} {v : α} :
    (k, v) ∈ p.toList ↔ p.get? k = some v := by
  rw [get?_eq_some_iff h, h.cell_eq_some_iff, toList, Array.mem_toList_iff]
  simp

theorem contains_eq_isSome (h : p.Sound) (k : K) : p.contains k = (p.get? k).isSome := by
  rw [contains_eq h, get?_eq h, Option.isSome_map]

/-- The row of a key that is stored, with its slot. -/
theorem Sound.exists_row (h : p.Sound) {k : K} {v : α} (hv : p.get? k = some v) :
    ∃ slot, p.rows[slot]? = some (k, v) ∧ p.row? k = some (slot, v) ∧ p.slotOf? k = some slot := by
  have hm := (h.cell_eq_some_iff.mp ((get?_eq_some_iff h).mp hv)).1
  obtain ⟨slot, hs⟩ := Array.mem_iff_getElem?.mp hm
  refine ⟨slot, hs, (row?_eq_some_iff h).mpr hs, ?_⟩
  rw [slotOf?_eq_some_iff h, keyAt?, hs]
  rfl

theorem Sound.slotOf?_eq_none (h : p.Sound) {k : K} (hv : p.get? k = none) :
    p.slotOf? k = none := by
  have hc := contains_eq_isSome h k
  rw [hv, contains] at hc
  simpa using hc

theorem Reordered.get?_eq {q : Packed K α} (h : Reordered p q) (hp : p.Sound) :
    q.get? = p.get? := by
  ext k
  rw [Packed.get?_eq h.sound, Packed.get?_eq hp, h.cell_eq hp]

/-- A store that differs in the cell of one index, where it has at most the key `k` and had no
other, differs in what it answers for `k`. -/
theorem get?_of_cell_update {q : Packed K α} (hp : p.Sound) (hq : q.Sound) {k : K} {w : Option α}
    (hc : q.cell = Function.update p.cell (Keyed.index k) (w.map (k, ·)))
    (hk : ∀ row, p.cell (Keyed.index k) = some row → row.1 = k) :
    q.get? = Function.update p.get? k w := by
  ext j v
  rw [get?_eq_some_iff hq, hc]
  by_cases hjk : j = k
  · subst hjk
    simp
  · rw [Function.update_of_ne hjk, get?_eq_some_iff hp]
    by_cases hi : Keyed.index j = Keyed.index k
    · rw [hi, Function.update_self]
      constructor
      · intro hw
        obtain ⟨_, -, he⟩ := Option.map_eq_some_iff.mp hw
        exact absurd (congrArg Prod.fst he).symm hjk
      · exact fun hrow => absurd (hk _ hrow) hjk
    · rw [Function.update_of_ne hi]

theorem get?_push (h : p.Sound) {k : K} (hf : p.isFree k) (v : α) :
    (p.push k v).get? = Function.update p.get? k (some v) := by
  apply get?_of_cell_update h (h.push hf v) (cell_push h hf v)
  intro row hrow
  rw [(cell_eq_none_iff h k).mpr hf] at hrow
  cases hrow

theorem get?_vacate (h : p.Sound) {k : K} {slot : Nat} {v : α}
    (hs : p.rows[slot]? = some (k, v)) :
    (p.vacate k slot).get? = Function.update p.get? k none := by
  apply get?_of_cell_update h (h.vacate hs) (cell_vacate h hs)
  intro row hrow
  rw [h.cell_eq_some_iff.mpr ⟨Array.mem_of_getElem? hs, rfl⟩] at hrow
  obtain rfl := Option.some.inj hrow
  rfl

theorem get?_mapRows (h : p.Sound) (f : K → α → α) (k : K) :
    (p.mapRows f).get? k = (p.get? k).map (f k) := by
  rw [get?_eq (h.mapRows f), get?_eq h, cell_mapRows]
  cases p.cell (Keyed.index k) with
  | none => rfl
  | some row => by_cases hk : row.1 = k <;> simp [Option.filter, hk]

theorem get?_modify (h : p.Sound) (k : K) (f : α → α) (j : K) :
    (p.modify k f).get? j = if j = k then (p.get? j).map f else p.get? j := by
  rw [h.modify_eq, get?_mapRows h]
  split <;> simp

end Lookup

end EntityStore.Packed
