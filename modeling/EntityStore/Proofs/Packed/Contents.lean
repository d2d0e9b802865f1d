import EntityStore.Proofs.Packed.Rearrange

/-!
# What packed storage stores

Seen from outside, a packed store is a map from key indices to the key stored there, in full, with
its value. `Contents` is this map together with the indices under which anything was ever stored,
and each call changes it by a rule that knows of no slots. After every sequence of calls the store
answers, fails and reaches as the map says.
-/
namespace EntityStore.Packed

inductive Call (K α : Type)
  | insert (k : K) (v : α)
  | erase (k : K)
  | swap (a b : Nat)
  | sort (le : α → α → Bool)
  /-- What sorting by a comparison that is no order does: the rows come into some order. -/
  | rearrange (order : Array Nat)
  | clear
  | copy
  | modify (k : K) (f : α → α)
  /-- Writes every value. No two rows have one key, so a write that minds the slot is one that
  minds the key. -/
  | mapRows (f : K → α → α)

instance (n : Nat) (order : Array Nat) : Decidable (IsOrder n order) :=
  inferInstanceAs (Decidable (order.toList.Perm (List.range n)))

variable {K α : Type} [Keyed K] [DecidableEq K]

/-- The store after a call, or why the call fails. -/
def Call.perform (p : Packed K α) : Call K α → Except Failure (Packed K α)
  | .insert k v => (p.insertWithin k v).map (·.2)
  | .erase k => ((p.erase k).mapError .fault).map (·.2.2)
  | .swap a b => (p.swap a b).mapError .breach
  | .sort le => .ok (p.sort le)
  | .rearrange order => .ok (if IsOrder p.rows.size order then p.rearrange order else p)
  | .clear => .ok p.clear
  | .copy => .ok p
  | .modify k f => .ok (p.modify k f)
  | .mapRows f => .ok (p.mapRows f)

def Call.after (p : Packed K α) (c : Call K α) : Packed K α :=
  match c.perform p with
  | .ok q => q
  | .error _ => p

def run (calls : List (Call K α)) : Packed K α := calls.foldl Call.after {}

/-- A call access by access: its success or failure, and the store as it is then. -/
def Strict.perform (p : Packed K α) : Call K α → Option (Except Failure Unit × Packed K α)
  | .insert k v =>
    if p.reach ≤ Keyed.index k ∧ mostCovered ≤ Keyed.index k then
      some (.error (.breach .beyondReach), p)
    else (Strict.insert p k v).map fun (answer, q) =>
      ((answer.mapError .fault).map fun _ => (), q)
  | .erase k => (Strict.erase p k).map fun (answer, q) =>
      ((answer.mapError .fault).map fun _ => (), q)
  | .swap a b =>
    if a = b ∨ a < p.rows.size ∧ b < p.rows.size then (Strict.exchange p a b).map (.ok (), ·)
    else some (.error (.breach .outOfBounds), p)
  | .sort le => (Strict.rearrange p (p.sortedSlots le).toArray).map (.ok (), ·)
  | .rearrange order =>
    if IsOrder p.rows.size order then (Strict.rearrange p order).map (.ok (), ·)
    else some (.ok (), p)
  | .clear => (Strict.clear p).map (.ok (), ·)
  | .copy => some (.ok (), p)
  | .modify k f => (Strict.slotOf p k).map fun
      | none => (.ok (), p)
      | some slot => (.ok (), { p with rows := p.rows.modify slot fun row => (row.1, f row.2) })
  | .mapRows f => some (.ok (), p.mapRows f)

/-- What is stored: at each index at most one key, with its value. -/
structure Contents (K α : Type) where
  cell : Nat → Option (K × α) := fun _ => none
  /-- The indices under which anything was ever stored. -/
  stored : List Nat := []

namespace Contents

def get? (c : Contents K α) (k : K) : Option α :=
  ((c.cell (Keyed.index k)).filter (·.1 = k)).map (·.2)

def after (c : Contents K α) : Call K α → Contents K α
  | .insert k v =>
    if (c.cell (Keyed.index k)).isNone ∧ Keyed.index k < mostCovered then
      { cell := Function.update c.cell (Keyed.index k) (some (k, v))
        stored := Keyed.index k :: c.stored }
    else c
  | .erase k =>
    if (c.get? k).isSome then { c with cell := Function.update c.cell (Keyed.index k) none } else c
  | .swap .. | .sort _ | .rearrange _ | .copy => c
  | .clear => { c with cell := fun _ => none }
  | .modify k f =>
    { c with cell := fun i =>
        (c.cell i).map fun row => (row.1, if row.1 = k then f row.2 else row.2) }
  | .mapRows f => { c with cell := fun i => (c.cell i).map fun row => (row.1, f row.1 row.2) }

def run (calls : List (Call K α)) : Contents K α := calls.foldl after {}

end Contents

/-- The store is sound and its cells are those of the map; its reverse index reaches as far as
anything was ever stored. -/
structure Represents (p : Packed K α) (c : Contents K α) : Prop where
  sound : p.Sound
  cell_eq : p.cell = c.cell
  stored_lt_reach : ∀ i ∈ c.stored, i < p.reach
  reach_attained : p.reach = 0 ∨ ∃ i ∈ c.stored, p.reach = i + 1
  reach_le : p.reach ≤ mostCovered

/-- The answers of the store are those of the map. -/
structure Agrees (p : Packed K α) (c : Contents K α) : Prop where
  get : ∀ k, p.get? k = c.get? k
  contains : ∀ k, p.contains k = (c.get? k).isSome
  /-- A key has a slot exactly if it is stored, and the slot holds its row. -/
  slotOf : ∀ k, (p.slotOf? k).bind (p.rows[·]?) = (c.cell (Keyed.index k)).filter (·.1 = k)
  occupant : ∀ k, p.occupant? k = (c.cell (Keyed.index k)).map (·.1)
  /-- A row is refused exactly if its index is taken, by whatever generation. -/
  insert : ∀ k v, (p.insertWithin k v).map (·.1) =
    if (c.cell (Keyed.index k)).isSome then .error (.fault (.added k))
    else if mostCovered ≤ Keyed.index k then .error (.breach .beyondReach)
    else .ok p.size
  /-- A key cannot be removed exactly if it is not the one stored. -/
  erase : ∀ k, (p.erase k).map (fun r => (some r.1, some r.2.1)) =
    if (c.get? k).isSome then .ok (p.slotOf? k, c.get? k) else .error (.invalid k)
  reach : (∀ i ∈ c.stored, i < p.reach) ∧ (p.reach = 0 ∨ ∃ i ∈ c.stored, p.reach = i + 1)

/-- No lookup and no call breaks an expectation, and a call that fails changes nothing. -/
structure Unbroken (p : Packed K α) : Prop where
  slotOf : ∀ k, Strict.slotOf p k = some (p.slotOf? k)
  occupant : ∀ k, Strict.occupant p k = some (p.occupant? k)
  perform : ∀ c : Call K α, Strict.perform p c = some (match c.perform p with
    | .ok q => (.ok (), q)
    | .error f => (.error f, p))

namespace Represents

variable {p q : Packed K α} {c : Contents K α}

omit [DecidableEq K] in
theorem of_reordered (h : Represents p c) (hq : Reordered p q) : Represents q c where
  sound := hq.sound
  cell_eq := (hq.cell_eq h.sound).trans h.cell_eq
  stored_lt_reach := hq.reach_eq ▸ h.stored_lt_reach
  reach_attained := hq.reach_eq ▸ h.reach_attained
  reach_le := hq.reach_eq ▸ h.reach_le

omit [DecidableEq K] in
/-- A call that leaves the reach keeps the account of the indices stored. -/
theorem of_cell (h : Represents p c) (hq : q.Sound) (hreach : q.reach = p.reach)
    {cell : Nat → Option (K × α)} (hcell : q.cell = cell) : Represents q { c with cell } where
  sound := hq
  cell_eq := hcell
  stored_lt_reach := hreach ▸ h.stored_lt_reach
  reach_attained := hreach ▸ h.reach_attained
  reach_le := hreach ▸ h.reach_le

omit [DecidableEq K] in
theorem isFree_iff (h : Represents p c) (k : K) :
    p.isFree k = true ↔ c.cell (Keyed.index k) = none := by
  rw [← cell_eq_none_iff h.sound, h.cell_eq]

theorem get?_eq (h : Represents p c) (k : K) : p.get? k = c.get? k := by
  rw [Packed.get?_eq h.sound, h.cell_eq]; rfl

omit [DecidableEq K] in
theorem insertWithin_eq (h : Represents p c) (k : K) (v : α) :
    p.insertWithin k v =
      if (c.cell (Keyed.index k)).isSome then .error (.fault (.added k))
      else if mostCovered ≤ Keyed.index k then .error (.breach .beyondReach)
      else .ok (p.size, p.push k v) := by
  unfold insertWithin insert
  cases hc : c.cell (Keyed.index k) with
  | none =>
    have hfree : p.isFree k = true := (h.isFree_iff k).mpr hc
    have hle := h.reach_le
    by_cases hm : mostCovered ≤ Keyed.index k
    · rw [if_pos ⟨by omega, hm⟩]
      simp [hm]
    · rw [if_neg fun hand => hm hand.2]
      simp [hfree, hm, Except.mapError]
  | some row =>
    have hfree : ¬p.isFree k = true := by rw [h.isFree_iff k, hc]; simp
    have hin : row ∈ p.rows ∧ Keyed.index row.1 = Keyed.index k := by
      rw [← h.sound.cell_eq_some_iff, h.cell_eq, hc]
    have hlt : Keyed.index k < p.reach := hin.2 ▸ h.sound.index_lt_reach hin.1
    rw [if_neg fun hand => absurd hand.1 (Nat.not_le.mpr hlt)]
    simp [hfree, Except.mapError]

theorem erase_eq (h : Represents p c) (k : K) :
    p.erase k = match p.slotOf? k, c.get? k with
      | some slot, some v => .ok (slot, v, p.vacate k slot)
      | _, _ => .error (.invalid k) := by
  unfold erase
  cases hv : c.get? k with
  | none => simp [row?, h.sound.slotOf?_eq_none ((h.get?_eq k).trans hv)]
  | some v =>
    obtain ⟨slot, -, hr, hs⟩ := h.sound.exists_row ((h.get?_eq k).trans hv)
    simp only [hr, hs]

theorem agrees (h : Represents p c) : Agrees p c where
  get := h.get?_eq
  contains k := by rw [contains_eq_isSome h.sound, h.get?_eq]
  slotOf k := by
    ext row
    rw [Option.bind_eq_some_iff, Option.filter_eq_some_iff, ← h.cell_eq,
      h.sound.cell_eq_some_iff, decide_eq_true_eq]
    simp only [slotOf?_eq_some_iff h.sound, keyAt?, Option.map_eq_some_iff]
    constructor
    · rintro ⟨slot, ⟨x, hx, rfl⟩, hrow⟩
      obtain rfl := Option.some.inj (hx.symm.trans hrow)
      exact ⟨⟨Array.mem_of_getElem? hrow, rfl⟩, rfl⟩
    · rintro ⟨⟨hm, -⟩, rfl⟩
      obtain ⟨slot, hs⟩ := Array.mem_iff_getElem?.mp hm
      exact ⟨slot, ⟨row, hs, rfl⟩, hs⟩
  occupant k := by rw [occupant?_eq, h.cell_eq]
  insert k v := by
    rw [h.insertWithin_eq]
    split
    · rfl
    · split <;> rfl
  erase k := by
    rw [h.erase_eq]
    cases hv : c.get? k with
    | none => simp [h.sound.slotOf?_eq_none ((h.get?_eq k).trans hv), Except.map]
    | some v =>
      obtain ⟨slot, -, -, hs⟩ := h.sound.exists_row ((h.get?_eq k).trans hv)
      simp [hs, Except.map]
  reach := ⟨h.stored_lt_reach, h.reach_attained⟩

theorem unbroken (h : Represents p c) : Unbroken p where
  slotOf := Strict.slotOf_eq h.sound
  occupant := Strict.occupant_eq h.sound
  perform call := by
    cases call with
    | insert k v =>
      simp only [Strict.perform, Call.perform, insertWithin, Strict.insert_eq, Option.map_some]
      split
      · rfl
      · cases p.insert k v <;> rfl
    | erase k =>
      simp only [Strict.perform, Call.perform, Strict.erase_eq h.sound, Option.map_some]
      cases p.erase k <;> rfl
    | swap a b =>
      simp only [Strict.perform, Call.perform, swap]
      by_cases hab : a = b
      · simp [hab, Strict.exchange, Except.mapError]
      · by_cases hin : a < p.rows.size ∧ b < p.rows.size
        · simp [hab, hin, Strict.exchange_eq h.sound hin.1 hin.2, Except.mapError]
        · simp [hab, hin, Except.mapError]
    | sort le =>
      simp only [Strict.perform, Call.perform, sort,
        (rearrange_spec h.sound (isOrder_sortedSlots le)).1, Option.map_some]
    | rearrange order =>
      simp only [Strict.perform, Call.perform]
      split
      · next ho => rw [(rearrange_spec h.sound ho).1]; rfl
      · rfl
    | clear => simp only [Strict.perform, Call.perform, Strict.clear_eq h.sound, Option.map_some]
    | copy => rfl
    | modify k f =>
      simp only [Strict.perform, Call.perform, Strict.slotOf_eq h.sound, Option.map_some, modify]
      cases p.slotOf? k <;> rfl
    | mapRows f => rfl

/-- One step: the store after a call is what the map says. -/
theorem after (h : Represents p c) (call : Call K α) :
    Represents (call.after p) (c.after call) := by
  cases call with
  | insert k v =>
    simp only [Call.after, Call.perform, h.insertWithin_eq, Contents.after]
    cases hc : c.cell (Keyed.index k) with
    | some row => simpa [Except.map] using h
    | none =>
      by_cases hm : mostCovered ≤ Keyed.index k
      · simpa [Except.map, hm, Nat.not_lt.mpr hm] using h
      · have hfree := (h.isFree_iff k).mpr hc
        have hlt : Keyed.index k < mostCovered := by omega
        simp only [hm, hlt, Option.isSome_none, Option.isNone_none, if_true, if_false, and_self,
          Bool.false_eq_true, Except.map]
        refine ⟨h.sound.push hfree v, by rw [cell_push h.sound hfree, h.cell_eq], ?_, ?_, ?_⟩
        · intro i hi
          rw [reach_push]
          rcases List.mem_cons.mp hi with rfl | hi
          · omega
          · have := h.stored_lt_reach i hi
            omega
        · rw [reach_push]
          right
          by_cases hge : p.reach ≤ Keyed.index k
          · exact ⟨_, List.mem_cons_self, by omega⟩
          · rcases h.reach_attained with h0 | ⟨i, hi, he⟩
            · omega
            · exact ⟨i, List.mem_cons_of_mem _ hi, by omega⟩
        · have := h.reach_le
          rw [reach_push]
          omega
  | erase k =>
    simp only [Call.after, Call.perform, h.erase_eq, Contents.after]
    cases hv : c.get? k with
    | none =>
      have hs := h.sound.slotOf?_eq_none ((h.get?_eq k).trans hv)
      simpa [hs, Except.map, Except.mapError] using h
    | some v =>
      obtain ⟨slot, hrow, -, hs⟩ := h.sound.exists_row ((h.get?_eq k).trans hv)
      simp only [hs, Except.mapError, Except.map, Option.isSome_some, if_true]
      apply h.of_cell (h.sound.vacate hrow)
      · exact reach_vacate h.sound (Array.getElem?_eq_some_iff.mp hrow).1
      · rw [cell_vacate h.sound hrow, h.cell_eq]
  | swap a b =>
    simp only [Call.after, Call.perform, swap, Contents.after]
    split
    · next q hq =>
      split at hq
      · cases hq; exact h
      · split at hq
        · next hin => cases hq; exact h.of_reordered (h.sound.reordered_exchange hin.1 hin.2)
        · cases hq
    · exact h
  | sort le => exact h.of_reordered (rearrange_spec h.sound (isOrder_sortedSlots le)).2.1
  | rearrange order =>
    simp only [Call.after, Call.perform, Contents.after]
    split
    · next ho => exact h.of_reordered (rearrange_spec h.sound ho).2.1
    · exact h
  | clear => exact h.of_cell h.sound.clear reach_clear cell_clear
  | copy => exact h
  | modify k f =>
    simp only [Call.after, Call.perform, Contents.after, h.sound.modify_eq]
    apply h.of_cell (h.sound.mapRows _) rfl
    ext i
    rw [cell_mapRows, h.cell_eq]
  | mapRows f =>
    apply h.of_cell (h.sound.mapRows f) rfl
    ext i
    rw [cell_mapRows, h.cell_eq]

end Represents

theorem represents_run (calls : List (Call K α)) : Represents (run calls) (Contents.run calls) := by
  suffices hl : ∀ (p : Packed K α) (c : Contents K α), Represents p c →
      Represents (calls.foldl (fun p c => c.after p) p) (calls.foldl Contents.after c) from
    hl _ _ ⟨sound_empty, by funext i; rfl, by simp, .inl rfl, Nat.zero_le _⟩
  induction calls with
  | nil => exact fun _ _ h => h
  | cons call calls ih => exact fun _ _ h => ih _ _ (h.after call)

/-- After any calls on an empty store its rows and its reverse index point at each other, nothing
that it relies on can turn out otherwise, and it answers as the map of what is stored. That there
are as many keys as values goes without saying here, since a row is one of each. A key whose index
would need more than `mostCovered` entries is not added: that is a breach, and changes nothing. -/
theorem run_agrees (calls : List (Call K α)) :
    (run calls).keys.length = (run calls).values.length ∧ (run calls).Sound ∧
      Unbroken (run calls) ∧ Agrees (run calls) (Contents.run calls) := by
  have h := represents_run calls
  exact ⟨by simp [keys, values], h.sound, h.unbroken, h.agrees⟩

end EntityStore.Packed
