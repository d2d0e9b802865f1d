import EntityStore.Proofs.Packed.Cells

/-!
# Packed storage, access by access

The calls of a packed store once more, as the single accesses that they consist of, in the order in
which these are made. Each access must find what the call relies on: a slot must hold a row, an
index must be covered, the order of a sort must lead back to where it started. An expectation that
is broken gives no result at all. On a sound store none is broken, and the calls are those of
`Packed`; in particular a call that fails after an access has changed nothing.
-/
namespace EntityStore.Packed.Strict

variable {K α : Type} [Keyed K] {p : Packed K α}

/-- Sets the entry of a key in the reverse index, which must cover it. -/
def mark (reverse : Array (Option Nat)) (k : K) (entry : Option Nat) :
    Option (Array (Option Nat)) :=
  if Keyed.index k < reverse.size then some (reverse.setIfInBounds (Keyed.index k) entry) else none

/-- Makes the reverse index agree with a slot, which must hold a row. -/
def point (p : Packed K α) (slot : Nat) : Option (Packed K α) :=
  (p.keyAt? slot).bind fun owner => (mark p.reverse owner (some slot)).map (⟨p.rows, ·⟩)

/-- Exchanges two rows, which must be there. -/
def exchange (p : Packed K α) (a b : Nat) : Option (Packed K α) :=
  if a = b then some p
  else if a < p.rows.size ∧ b < p.rows.size then
    (point { p with rows := p.rows.swapIfInBounds a b } a).bind (point · b)
  else none

/-- Appends a row. The reverse index grows first, and is then read. -/
def insert (p : Packed K α) (k : K) (v : α) : Option (Except Fault Nat × Packed K α) :=
  let grown := p.cover (Keyed.index k)
  match grown.reverse[Keyed.index k]? with
  | none => none
  | some (some _) => some (.error (.added k), grown)
  | some none => (mark grown.reverse k (some grown.rows.size)).map fun reverse =>
      (.ok grown.rows.size, ⟨grown.rows.push (k, v), reverse⟩)

/-- Removes every row; each index must be covered when its entry is vacated. -/
def clear (p : Packed K α) : Option (Packed K α) :=
  (p.rows.toList.foldlM (fun reverse row => mark reverse row.1 none) p.reverse).map (⟨#[], ·⟩)

/-- Walks one cycle of an order, which must come back to `start` within the steps allowed. -/
def followCycle (start : Nat) :
    (steps : Nat) → (current : Nat) → Array Nat → Packed K α → Option (Array Nat × Packed K α)
  | 0, _, _, _ => none
  | steps + 1, current, order, p =>
    match order[current]? with
    | none => none
    | some source =>
      let order := order.setIfInBounds current current
      if source = start then some (order, p)
      else (exchange p current source).bind (followCycle start steps source order)

def rearrange (p : Packed K α) (order : Array Nat) : Option (Packed K α) :=
  ((List.range order.size).foldlM
    (fun (acc : Array Nat × Packed K α) start =>
      followCycle start order.size start acc.1 acc.2) (order, p)).map (·.2)

/-- The key stored at an index. What the index points at must hold a row. -/
def occupant (p : Packed K α) (k : K) : Option (Option K) :=
  match p.pointed? k with
  | none => some none
  | some slot => (p.keyAt? slot).map some

section Lookup
variable [DecidableEq K]

def slotOf (p : Packed K α) (k : K) : Option (Option Nat) :=
  match p.pointed? k with
  | none => some none
  | some slot => (p.keyAt? slot).map fun owner => if owner = k then some slot else none

/-- Removes the row of a key, which is moved to the end first. The value is what the last slot
then holds. -/
def erase (p : Packed K α) (k : K) : Option (Except Fault (Nat × α) × Packed K α) :=
  (slotOf p k).bind fun
    | none => some (.error (.invalid k), p)
    | some slot =>
      let last := p.rows.size - 1
      (if slot = last then some p else exchange p slot last).bind fun q =>
        q.rows.back?.bind fun row =>
          (mark q.reverse k none).map fun reverse => (.ok (slot, row.2), ⟨q.rows.pop, reverse⟩)

end Lookup

theorem mark_eq {reverse : Array (Option Nat)} {k : K} (h : Keyed.index k < reverse.size)
    (entry : Option Nat) :
    mark reverse k entry = some (reverse.setIfInBounds (Keyed.index k) entry) := if_pos h

theorem point_eq {slot : Nat} {row : K × α} (hrow : p.rows[slot]? = some row)
    (hlt : Keyed.index row.1 < p.reach) : point p slot = some (p.point slot) := by
  have hk : p.keyAt? slot = some row.1 := by simp [keyAt?, hrow]
  simp only [point, Packed.point, hk, Option.bind_some, mark_eq hlt, Option.map_some]

theorem exchange_self (h : p.Sound) {a : Nat} (ha : a < p.rows.size) : p.exchange a a = p := by
  have hx := Array.getElem?_eq_getElem ha
  have hp := h.pointed hx
  rw [Packed.exchange_eq hx hx]
  have hrows : p.rows.swapIfInBounds a a = p.rows := by
    apply Array.ext_getElem?
    intro s
    rw [getElem?_swapIfInBounds ha ha]
    split <;> simp_all
  have hreverse : p.reverse.setIfInBounds (Keyed.index (p.rows[a]).1) (some a) = p.reverse := by
    apply Array.ext_getElem?
    intro i
    rw [Array.getElem?_setIfInBounds]
    split
    · next hi =>
      have hlt : Keyed.index (p.rows[a]).1 < p.reverse.size :=
        h.index_lt_reach (Array.mem_of_getElem? hx)
      rw [← hi, if_pos hlt, hp]
    · rfl
  rw [hrows, hreverse, hreverse]

theorem exchange_eq (h : p.Sound) {a b : Nat} (ha : a < p.rows.size) (hb : b < p.rows.size) :
    exchange p a b = some (p.exchange a b) := by
  unfold exchange
  split
  · next hab => subst hab; rw [exchange_self h ha]
  · next hab =>
    have hx := Array.getElem?_eq_getElem ha
    have hy := Array.getElem?_eq_getElem hb
    have hya : (p.rows.swapIfInBounds a b)[a]? = some p.rows[b] := by
      rw [getElem?_swapIfInBounds ha hb, if_neg hab, if_pos rfl, hy]
    have hxb : (p.rows.swapIfInBounds a b)[b]? = some p.rows[a] := by
      rw [getElem?_swapIfInBounds ha hb, if_pos rfl, hx]
    have hlx := h.index_lt_reach (Array.mem_of_getElem? hx)
    have hly := h.index_lt_reach (Array.mem_of_getElem? hy)
    rw [if_pos ⟨ha, hb⟩, point_eq (p := ⟨p.rows.swapIfInBounds a b, p.reverse⟩) hya hly,
      Option.bind_some]
    have hpoint : (Packed.point ⟨p.rows.swapIfInBounds a b, p.reverse⟩ a : Packed K α) =
        ⟨p.rows.swapIfInBounds a b,
          p.reverse.setIfInBounds (Keyed.index (p.rows[b]).1) (some a)⟩ := by
      simp only [Packed.point, keyAt?, hya, Option.map_some]
    rw [hpoint]
    refine (point_eq hxb ?_).trans ?_
    · simpa [reach] using hlx
    · rw [← hpoint]; rfl

theorem insert_eq (k : K) (v : α) :
    insert p k v = some (match p.insert k v with
      | .ok (slot, q) => (.ok slot, q)
      | .error f => (.error f, p)) := by
  have hlt : Keyed.index k < (p.cover (Keyed.index k)).reverse.size := by
    have := reach_cover (p := p) (Keyed.index k)
    simp only [reach] at this
    omega
  have hentry := getElem?_cover (p := p) (Keyed.index k) (Keyed.index k)
  unfold insert Packed.insert
  by_cases hcov : Keyed.index k < p.reach
  · have hcover : p.cover (Keyed.index k) = p := if_neg (Nat.not_le.mpr hcov)
    rw [if_pos hcov] at hentry
    simp only [hentry]
    cases he : p.reverse[Keyed.index k]? with
    | none => exact absurd he (by simpa [reach] using hcov)
    | some entry =>
      cases entry with
      | none =>
        simp only [isFree, pointed?, he, Option.join_some, Option.isNone_none, if_true, push_eq,
          mark_eq hlt, Option.map_some, rows_cover, size]
      | some slot => simp [isFree, pointed?, he, hcover]
  · have hnone : p.reverse[Keyed.index k]? = none := by simpa [reach] using hcov
    rw [if_neg hcov, if_pos (Nat.le_refl _)] at hentry
    simp only [hentry, isFree, pointed?, hnone, Option.join_none, Option.isNone_none, if_true,
      push_eq, mark_eq hlt, Option.map_some, rows_cover, size]

theorem clear_eq (h : p.Sound) : clear p = some p.clear := by
  suffices hl : ∀ (rows : List (K × α)) (reverse : Array (Option Nat)),
      (∀ row ∈ rows, Keyed.index row.1 < reverse.size) →
      rows.foldlM (fun reverse row => mark reverse row.1 none) reverse =
        some (rows.foldl (fun reverse row => reverse.setIfInBounds (Keyed.index row.1) none)
          reverse) by
    have hall := hl p.rows.toList p.reverse fun row hm => h.index_lt_reach (by simpa using hm)
    simp only [clear, Packed.clear, hall, Option.map_some, Array.foldl_toList]
  intro rows
  induction rows with
  | nil => intro reverse _; rfl
  | cons row rows ih =>
    intro reverse hlt
    rw [List.foldlM_cons, mark_eq (hlt row (by simp))]
    exact ih _ fun r hm => by simpa using hlt r (by simp [hm])

theorem occupant_eq (h : p.Sound) (k : K) : occupant p k = some (p.occupant? k) := by
  unfold occupant occupant?
  cases hp : p.pointed? k with
  | none => rfl
  | some slot =>
    obtain ⟨row, hrow, -⟩ := h.owned (Option.join_eq_some_iff.mp hp)
    simp [keyAt?, hrow]

section Lookup
variable [DecidableEq K]

theorem slotOf_eq (h : p.Sound) (k : K) : slotOf p k = some (p.slotOf? k) := by
  unfold slotOf slotOf?
  cases hp : p.pointed? k with
  | none => rfl
  | some slot =>
    obtain ⟨row, hrow, -⟩ := h.owned (Option.join_eq_some_iff.mp hp)
    simp [keyAt?, hrow, Option.filter]

theorem erase_eq (h : p.Sound) (k : K) :
    erase p k = some (match p.erase k with
      | .ok (slot, v, q) => (.ok (slot, v), q)
      | .error f => (.error f, p)) := by
  unfold erase Packed.erase
  rw [slotOf_eq h]
  cases hs : p.slotOf? k with
  | none => simp [row?, hs]
  | some slot =>
    rw [slotOf?_eq_some_iff h] at hs
    obtain ⟨row, hrow, rfl⟩ := Option.map_eq_some_iff.mp hs
    have hr := (row?_eq_some_iff h).mpr hrow
    have hlt := (Array.getElem?_eq_some_iff.mp hrow).1
    have hmoved : (if slot = p.rows.size - 1 then some p else exchange p slot (p.rows.size - 1)) =
        some (p.moveLast slot) := by
      unfold moveLast
      split
      · rfl
      · exact exchange_eq h hlt (by omega)
    have hback : (p.moveLast slot).rows.back? = some row := by
      rw [Array.back?_eq_getElem?]
      exact getElem?_moveLast hrow
    have hin : Keyed.index row.1 < (p.moveLast slot).reverse.size :=
      (h.reordered_moveLast hlt).sound.index_lt_reach (Array.mem_of_back? hback)
    simp only [Option.bind_some, hmoved, hback, mark_eq hin, Option.map_some, hr]
    rfl

end Lookup

end EntityStore.Packed.Strict
