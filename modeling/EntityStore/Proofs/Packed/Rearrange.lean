import EntityStore.Proofs.Packed.Strict
import Mathlib.Data.Finset.Card
import Mathlib.Data.Finset.Range

/-!
# Rearranging packed storage in place

An order that names every slot once is carried out cycle by cycle. While a cycle is walked, the
order differs from a permutation in one place: `start` counts as settled although its row has not
come around yet. Each exchange settles one more slot, so the walk ends, and in the end every slot
holds the row that the order named for it.
-/
namespace EntityStore.Packed

variable {K α : Type}

/-- The order names each of the first `n` slots once. -/
def IsOrder (n : Nat) (order : Array Nat) : Prop := order.toList.Perm (List.range n)

namespace IsOrder

variable {n : Nat} {order : Array Nat} {i j s : Nat}

theorem size_eq (h : IsOrder n order) : order.size = n := by simpa using h.length_eq

theorem lt (h : IsOrder n order) (hs : order[i]? = some s) : s < n := by
  have hm : s ∈ order.toList := by simpa using Array.mem_of_getElem? hs
  exact List.mem_range.mp (h.mem_iff.mp hm)

theorem unique (h : IsOrder n order) (hi : order[i]? = some s) (hj : order[j]? = some s) :
    i = j := by
  have hn : order.toList.Nodup := h.nodup_iff.mpr List.nodup_range
  have hlt : i < order.toList.length := (Array.getElem?_eq_some_iff.mp hi).1
  exact (List.getElem?_inj hlt hn).mp (by simp [hi, hj])

theorem exists_get (h : IsOrder n order) (hi : i < n) : ∃ s, order[i]? = some s :=
  ⟨_, Array.getElem?_eq_getElem (by rwa [h.size_eq])⟩

theorem swap (h : IsOrder n order) (hi : i < n) (hj : j < n) :
    IsOrder n (order.swapIfInBounds i j) := by
  rw [← h.size_eq] at hi hj
  rw [Array.swapIfInBounds_def, dif_pos hi, dif_pos hj]
  exact (Array.perm_iff_toList_perm.mp (Array.swap_perm hi hj)).trans h

end IsOrder

/-- The slots of an order that do not name themselves. -/
def unsettled (order : Array Nat) : Finset Nat :=
  (Finset.range order.size).filter fun i => order[i]? ≠ some i

theorem mem_unsettled {order : Array Nat} {i : Nat} :
    i ∈ unsettled order ↔ ∃ s, order[i]? = some s ∧ s ≠ i := by
  simp only [unsettled, Finset.mem_filter, Finset.mem_range]
  constructor
  · rintro ⟨hi, hne⟩
    have hs := Array.getElem?_eq_getElem hi
    exact ⟨_, hs, fun he => hne (hs.trans (congrArg some he))⟩
  · rintro ⟨s, hs, hne⟩
    exact ⟨(Array.getElem?_eq_some_iff.mp hs).1, fun hi => hne (Option.some.inj (hs.symm.trans hi))⟩

/-- A slot that names another settles when it trades with the slot that names it. -/
theorem unsettled_swap {n start current : Nat} {order : Array Nat} (h : IsOrder n order)
    (hstart : order[start]? = some current) (hne : current ≠ start) :
    unsettled (order.swapIfInBounds start current) ⊂ unsettled order := by
  have hs : start < order.size := (Array.getElem?_eq_some_iff.mp hstart).1
  have hc : current < order.size := by rw [h.size_eq]; exact h.lt hstart
  have hget := getElem?_swapIfInBounds hs hc
  refine Finset.ssubset_iff_subset_ne.mpr ⟨fun i hi => ?_, fun he => ?_⟩
  · obtain ⟨s, his, hsi⟩ := mem_unsettled.mp hi
    rw [hget] at his
    apply mem_unsettled.mpr
    split at his
    · subst i
      exact absurd (Option.some.inj (hstart.symm.trans his)).symm hsi
    · split at his
      · subst i
        exact ⟨current, hstart, hne⟩
      · exact ⟨s, his, hsi⟩
  · have hcur : current ∈ unsettled order := by
      obtain ⟨s, hs⟩ := h.exists_get (h.lt hstart)
      refine mem_unsettled.mpr ⟨s, hs, ?_⟩
      rintro rfl
      exact hne (h.unique hs hstart)
    rw [← he] at hcur
    obtain ⟨s, hs, hsne⟩ := mem_unsettled.mp hcur
    rw [hget, if_pos rfl, hstart] at hs
    exact hsne (Option.some.inj hs).symm

/-- The order names every slot once, and the row that `want` has for a slot is in the slot that the
order names for it. -/
structure Places (want : Nat → Option (K × α)) (order : Array Nat) (p : Packed K α) : Prop where
  isOrder : IsOrder p.rows.size order
  row_eq : ∀ {i s : Nat}, order[i]? = some s → p.rows[s]? = want i

/-- Where the walk of a cycle finds the row that is in slot `s` by an order in which `start` has
been settled too early: `current` and `start` trade places. -/
def crossed (start current s : Nat) : Nat :=
  if s = start then current else if s = current then start else s

@[simp] theorem crossed_start (start current : Nat) : crossed start current start = current :=
  if_pos rfl

@[simp] theorem crossed_current (start current : Nat) : crossed start current current = start := by
  unfold crossed
  split
  · assumption
  · exact if_pos rfl

theorem crossed_of_ne {start current s : Nat} (hs : s ≠ start) (hc : s ≠ current) :
    crossed start current s = s := by
  rw [crossed, if_neg hs, if_neg hc]

/-- The order after `start` and the slot that it names have traded entries. -/
theorem IsOrder.swap_cases {n start current source i s : Nat} {whole : Array Nat}
    (hw : IsOrder n whole) (hstart : whole[start]? = some current)
    (hsource : whole[current]? = some source)
    (his : (whole.swapIfInBounds start current)[i]? = some s) :
    (i = current ∧ s = current) ∨ (i = start ∧ s = source) ∨
      (whole[i]? = some s ∧ s ≠ current ∧ s ≠ source) := by
  rw [getElem?_swapIfInBounds (Array.getElem?_eq_some_iff.mp hstart).1
    (Array.getElem?_eq_some_iff.mp hsource).1] at his
  split at his
  · next hi => exact .inl ⟨hi, Option.some.inj (his.symm.trans hstart)⟩
  · next hc =>
    split at his
    · next hi => exact .inr (.inl ⟨hi, Option.some.inj (his.symm.trans hsource)⟩)
    · next hs =>
      refine .inr (.inr ⟨his, ?_, ?_⟩)
      · rintro rfl
        exact hs (hw.unique his hstart)
      · rintro rfl
        exact hc (hw.unique his hsource)

/-- Settling two entries is trading them and settling one, if one of them names the other. -/
theorem setIfInBounds_current {start current : Nat} {whole : Array Nat} (hne : current ≠ start)
    (hstart : whole[start]? = some current) (hc : current < whole.size) :
    (whole.setIfInBounds start start).setIfInBounds current current =
      (whole.swapIfInBounds start current).setIfInBounds start start := by
  have hs : start < whole.size := (Array.getElem?_eq_some_iff.mp hstart).1
  apply Array.ext_getElem?
  intro i
  simp only [Array.getElem?_setIfInBounds, Array.size_setIfInBounds, Array.size_swapIfInBounds,
    getElem?_swapIfInBounds hs hc, hs, hc, if_true]
  by_cases hic : current = i
  · rw [if_pos hic, ← hic, if_neg hne.symm, if_pos rfl, hstart]
  · by_cases his : start = i
    · rw [if_neg hic, if_pos his, if_pos his]
    · rw [if_neg hic, if_neg his, if_neg his, if_neg (Ne.symm hic), if_neg (Ne.symm his)]

/-- Settling an entry that is settled changes nothing. -/
theorem setIfInBounds_self {order : Array Nat} {i : Nat} (hi : order[i]? = some i) :
    order.setIfInBounds i i = order := by
  apply Array.ext_getElem?
  intro j
  rw [Array.getElem?_setIfInBounds]
  by_cases hj : i = j
  · rw [if_pos hj, if_pos (Array.getElem?_eq_some_iff.mp hi).1, ← hj, hi]
  · rw [if_neg hj]

/-- An entry that is settled is neither of those traded. -/
theorem IsOrder.settled_swap {n start current i : Nat} {whole : Array Nat} (hw : IsOrder n whole)
    (hstart : whole[start]? = some current) (hne : current ≠ start) (hi : whole[i]? = some i) :
    (whole.swapIfInBounds start current)[i]? = some i := by
  have hs : start < whole.size := (Array.getElem?_eq_some_iff.mp hstart).1
  have hc : current < whole.size := hw.size_eq.symm ▸ hw.lt hstart
  have hnc : i ≠ current := by
    rintro rfl
    exact hne (hw.unique hi hstart)
  have hns : i ≠ start := by
    rintro rfl
    exact hne (Option.some.inj (hstart.symm.trans hi))
  rw [getElem?_swapIfInBounds hs hc, if_neg hnc, if_neg hns, hi]

/-- What the walk of a cycle leaves: the order names `start` itself, and all that named themselves
before still do. -/
structure Walked [Keyed K] (want : Nat → Option (K × α)) (start : Nat) (before : Array Nat)
    (p : Packed K α) (order : Array Nat) (q : Packed K α) : Prop where
  reordered : Reordered p q
  places : Places want order q
  settled : order[start]? = some start
  kept : ∀ {i : Nat}, before[i]? = some i → order[i]? = some i

section Cycle
variable [Keyed K] {p : Packed K α} {want : Nat → Option (K × α)} {start : Nat}

/-- An exchange with the slot of the row that `start` has brings the rows to where the walk finds
them from there on. -/
theorem getElem?_exchange_crossed {source : Nat} (hstart : start < p.rows.size)
    (hsource : source < p.rows.size) (s : Nat) :
    (p.exchange start source).rows[crossed start source s]? = p.rows[s]? := by
  rw [getElem?_exchange hstart hsource]
  by_cases hs : s = start
  · rw [hs, crossed_start, if_pos rfl]
  · by_cases hc : s = source
    · subst hc
      rw [crossed_current, if_pos rfl]
      split
      · next he => rw [he]
      · rfl
    · rw [crossed_of_ne hs hc, if_neg hc, if_neg hs]

/-- An exchange on the way brings the rows to where the traded order has them. -/
theorem rows_crossed_exchange {current source : Nat} {whole : Array Nat}
    (hw : IsOrder p.rows.size whole) (hstart : whole[start]? = some current)
    (hsource : whole[current]? = some source) (hne : current ≠ start) (hss : source ≠ start)
    (hrow : ∀ {i s : Nat}, whole[i]? = some s → p.rows[crossed start current s]? = want i)
    {i s : Nat} (his : (whole.swapIfInBounds start current)[i]? = some s) :
    (p.exchange current source).rows[crossed start source s]? = want i := by
  have hsc : source ≠ current := by
    rintro rfl
    exact hne (hw.unique hsource hstart)
  rw [getElem?_exchange (hw.lt hstart) (hw.lt hsource)]
  rcases hw.swap_cases hstart hsource his with ⟨rfl, rfl⟩ | ⟨rfl, rfl⟩ | ⟨hi, hsc', hss'⟩
  · rw [crossed_of_ne hne hsc.symm, if_neg hsc.symm, if_pos rfl, ← hrow hsource,
      crossed_of_ne hss hsc]
  · rw [crossed_current, if_neg (Ne.symm hss), if_neg hne.symm, ← hrow hstart, crossed_current]
  · by_cases hs' : s = start
    · rw [hs', crossed_start, if_pos rfl, ← hrow hi, hs', crossed_start]
    · rw [crossed_of_ne hs' hss', if_neg hss', if_neg hsc', ← hrow hi, crossed_of_ne hs' hsc']

/-- The walk from a slot that `start` leads to. `whole` is the order in which `start` is not yet
settled. -/
theorem followCycle_walked {steps current : Nat} {whole : Array Nat} (hp : p.Sound)
    (hw : IsOrder p.rows.size whole) (hstart : whole[start]? = some current)
    (hne : current ≠ start)
    (hrow : ∀ {i s : Nat}, whole[i]? = some s → p.rows[crossed start current s]? = want i)
    (hsteps : (unsettled whole).card ≤ steps + 1) :
    ∃ order q, Strict.followCycle start steps current (whole.setIfInBounds start start) p =
        some (order, q) ∧
      followCycle start steps current (whole.setIfInBounds start start) p = (order, q) ∧
      Walked want start whole p order q := by
  induction steps generalizing current whole p with
  | zero =>
    obtain ⟨s, hs⟩ := hw.exists_get (hw.lt hstart)
    have hsne : s ≠ current := by
      rintro rfl
      exact hne (hw.unique hs hstart)
    have := Finset.one_lt_card.mpr ⟨start, mem_unsettled.mpr ⟨current, hstart, hne⟩,
      current, mem_unsettled.mpr ⟨s, hs, hsne⟩, hne.symm⟩
    omega
  | succ steps ih =>
    have hs : start < whole.size := (Array.getElem?_eq_some_iff.mp hstart).1
    have hc : current < whole.size := by rw [hw.size_eq]; exact hw.lt hstart
    obtain ⟨source, hsource⟩ : ∃ source, whole[current]? = some source :=
      ⟨_, Array.getElem?_eq_getElem hc⟩
    have hread : (whole.setIfInBounds start start)[current]? = some source := by
      rw [Array.getElem?_setIfInBounds_ne hne.symm, hsource]
    have hread' : (whole.setIfInBounds start start).getD current start = source := by
      rw [Array.getD_eq_getD_getElem?, hread]; rfl
    -- settling `current` is a trade of entries, after which `start` leads to `source`
    have hset := setIfInBounds_current hne hstart hc
    have hw' : IsOrder p.rows.size (whole.swapIfInBounds start current) :=
      hw.swap (hw.size_eq ▸ hs) (hw.size_eq ▸ hc)
    have hstart' : (whole.swapIfInBounds start current)[start]? = some source := by
      rw [getElem?_swapIfInBounds hs hc, if_neg hne.symm, if_pos rfl, hsource]
    have hkept := fun {i : Nat} => hw.settled_swap (i := i) hstart hne
    simp only [Strict.followCycle, followCycle, hread, hread', hset]
    by_cases hss : source = start
    · subst hss
      simp only [if_true, setIfInBounds_self hstart']
      refine ⟨_, _, rfl, rfl, .refl hp, ⟨hw', fun {i s} his => ?_⟩, hstart', hkept⟩
      rcases hw.swap_cases hstart hsource his with ⟨rfl, rfl⟩ | ⟨rfl, rfl⟩ | ⟨hi, hsc', hss'⟩
      · rw [← hrow hsource, crossed_start]
      · rw [← hrow hstart, crossed_current]
      · rw [← hrow hi, crossed_of_ne hss' hsc']
    · have hsource' : source < p.rows.size := hw.lt hsource
      have hcurrent' : current < p.rows.size := hw.lt hstart
      have hex := hp.reordered_exchange hcurrent' hsource'
      simp only [hss, if_false, Strict.exchange_eq hp hcurrent' hsource', Option.bind_some]
      rw [← hex.size_eq] at hw'
      have hrow' := fun {i s : Nat} => rows_crossed_exchange (i := i) (s := s) hw hstart hsource hne
        hss hrow
      have hcard := Finset.card_lt_card (unsettled_swap hw hstart hne)
      obtain ⟨order, q, hst, hfc, hwalk⟩ := ih hex.sound hw' hstart' hss hrow' (by omega)
      exact ⟨order, q, hst, hfc, hex.trans hwalk.reordered, hwalk.places, hwalk.settled,
        fun hi => hwalk.kept (hkept hi)⟩

/-- The walk of a whole cycle, from any of its slots. As many steps as there are rows suffice. -/
theorem followCycle_start {order : Array Nat} {n : Nat} (hp : p.Sound)
    (h : Places want order p) (hn : p.rows.size = n) (hlt : start < n) :
    ∃ order' q, Strict.followCycle start n start order p = some (order', q) ∧
      followCycle start n start order p = (order', q) ∧
      Walked want start order p order' q := by
  subst hn
  obtain ⟨source, hsource⟩ := h.isOrder.exists_get hlt
  obtain ⟨n, hn⟩ : ∃ n, p.rows.size = n + 1 := ⟨p.rows.size - 1, by omega⟩
  have hread : order.getD start start = source := by
    rw [Array.getD_eq_getD_getElem?, hsource]; rfl
  rw [hn]
  simp only [Strict.followCycle, followCycle, hread, hsource]
  by_cases hss : source = start
  · subst hss
    simp only [if_true, setIfInBounds_self hsource]
    exact ⟨_, _, rfl, rfl, .refl hp, h, hsource, id⟩
  · have hsource' : source < p.rows.size := h.isOrder.lt hsource
    have hex := hp.reordered_exchange hlt hsource'
    simp only [hss, if_false, Strict.exchange_eq hp hlt hsource', Option.bind_some]
    have hrows := getElem?_exchange_crossed hlt hsource'
    have hcard : (unsettled order).card ≤ n + 1 := by
      rw [← hn, ← h.isOrder.size_eq]
      exact (Finset.card_filter_le _ _).trans_eq (Finset.card_range _)
    obtain ⟨order', q, hst, hfc, hwalk⟩ := followCycle_walked hex.sound
      (hex.size_eq ▸ h.isOrder) hsource hss (fun his => (hrows _).trans (h.row_eq his)) hcard
    exact ⟨order', q, hst, hfc, hex.trans hwalk.reordered, hwalk.places, hwalk.settled,
      hwalk.kept⟩

/-- Carrying out an order breaks no expectation and ends with the row in slot `i` that was in slot
`order[i]`. -/
theorem rearrange_spec {order : Array Nat} (hp : p.Sound) (ho : IsOrder p.rows.size order) :
    Strict.rearrange p order = some (p.rearrange order) ∧ Reordered p (p.rearrange order) ∧
      ∀ {i s : Nat}, order[i]? = some s → (p.rearrange order).rows[i]? = p.rows[s]? := by
  let want : Nat → Option (K × α) := fun i => order[i]?.bind (p.rows[·]?)
  -- the cycles walked so far have settled the slots that they started at
  suffices hl : ∀ k ≤ p.rows.size, ∃ order' q,
      (List.range k).foldlM (fun (acc : Array Nat × Packed K α) start =>
        Strict.followCycle start order.size start acc.1 acc.2) (order, p) = some (order', q) ∧
      (List.range k).foldl (fun (acc : Array Nat × Packed K α) start =>
        followCycle start order.size start acc.1 acc.2) (order, p) = (order', q) ∧
      Reordered p q ∧ Places want order' q ∧ ∀ i < k, order'[i]? = some i by
    obtain ⟨order', q, hst, hfc, hre, hpl, hall⟩ := hl p.rows.size (Nat.le_refl _)
    rw [← ho.size_eq] at hst hfc
    have hq : p.rearrange order = q := by rw [rearrange, hfc]
    refine ⟨by rw [Strict.rearrange, hst, hq]; rfl, hq ▸ hre, fun {i s} his => ?_⟩
    have hi : i < p.rows.size := ho.size_eq ▸ (Array.getElem?_eq_some_iff.mp his).1
    rw [hq, hpl.row_eq (hall i hi)]
    simp [want, his]
  intro k
  induction k with
  | zero =>
    intro _
    exact ⟨order, p, rfl, rfl, .refl hp, ⟨ho, fun his => by simp [want, his]⟩, by simp⟩
  | succ k ih =>
    intro hk
    obtain ⟨order₁, q₁, hst, hfc, hre, hpl, hall⟩ := ih (by omega)
    have hlt : k < order.size := by rw [ho.size_eq]; omega
    obtain ⟨order₂, q₂, hst₂, hfc₂, hwalk⟩ := followCycle_start hre.sound hpl
      (hre.size_eq.trans ho.size_eq.symm) hlt
    refine ⟨order₂, q₂, ?_, ?_, hre.trans hwalk.reordered, hwalk.places, fun i hi => ?_⟩
    · rw [List.range_succ, List.foldlM_append, hst]
      simp [hst₂]
    · rw [List.range_succ, List.foldl_append, hfc]
      simp [hfc₂]
    · rcases Nat.lt_succ_iff_lt_or_eq.mp hi with hi | rfl
      · exact hwalk.kept (hall i hi)
      · exact hwalk.settled

omit [Keyed K] in
theorem isOrder_sortedSlots (le : α → α → Bool) :
    IsOrder p.rows.size (p.sortedSlots le).toArray := List.mergeSort_perm _ _

end Cycle

end EntityStore.Packed
