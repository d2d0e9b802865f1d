import EntityStore.Catalog
import Mathlib.Data.List.Nodup

/-!
# Values in a catalog

What is found under a key after a value has been entered or changed.
-/
namespace EntityStore.Catalog

variable {K : Type} {V : K → Type} [DecidableEq K] {c : Catalog K V} {k j : K} {v : V k}

theorem lookup_cons_self (v : V k) (es : List ((k : K) × V k)) :
    lookup k (⟨k, v⟩ :: es) = some v := by
  simp [lookup]

theorem lookup_cons_ne (h : j ≠ k) (v : V j) (es : List ((k : K) × V k)) :
    lookup k (⟨j, v⟩ :: es) = lookup k es := by
  simp [lookup, h]

theorem lookup_append (es es' : List ((k : K) × V k)) :
    lookup k (es ++ es') = (lookup k es).or (lookup k es') := by
  induction es with
  | nil => rfl
  | cons e es ih =>
    by_cases he : e.1 = k
    · subst he
      exact (lookup_cons_self ..).trans (by rw [lookup_cons_self, Option.some_or])
    · rw [List.cons_append, lookup_cons_ne he, lookup_cons_ne he, ih]

/-- Entries of other keys make no difference. -/
theorem lookup_filter_ne (h : j ≠ k) (es : List ((k : K) × V k)) :
    lookup k (es.filter (·.1 ≠ j)) = lookup k es := by
  induction es with
  | nil => rfl
  | cons e es ih =>
    by_cases hej : e.1 = j
    · rw [List.filter_cons_of_neg (by simp [hej]), ih, lookup_cons_ne (hej ▸ h)]
    · rw [List.filter_cons_of_pos (by simp [hej])]
      by_cases hek : e.1 = k
      · subst hek
        exact (lookup_cons_self ..).trans (lookup_cons_self ..).symm
      · rw [lookup_cons_ne hek, lookup_cons_ne hek, ih]

theorem mem_of_lookup {es : List ((k : K) × V k)} (h : lookup k es = some v) : ⟨k, v⟩ ∈ es := by
  induction es with
  | nil => cases h
  | cons e es ih =>
    obtain ⟨j, x⟩ := e
    by_cases hj : j = k
    · subst hj
      rw [lookup_cons_self] at h
      exact Option.some.inj h ▸ List.mem_cons_self
    · rw [lookup_cons_ne hj] at h
      exact List.mem_cons_of_mem _ (ih h)

theorem mem_entries_of_find? (h : c.find? k = some v) : ⟨k, v⟩ ∈ c.entries := mem_of_lookup h

theorem find?_eq_none_iff : c.find? k = none ↔ k ∉ c.keys := lookup_eq_none_iff

theorem exists_find?_of_mem (h : k ∈ c.keys) : ∃ v, c.find? k = some v := by
  rw [← Option.isSome_iff_exists, Option.isSome_iff_ne_none, Ne, find?_eq_none_iff]
  exact fun hn => hn h

theorem find?_push_self (h : c.find? k = none) : (c.push k v).find? k = some v := by
  have hl : lookup k c.entries = none := h
  show lookup k (c.entries ++ [⟨k, v⟩]) = some v
  generalize c.entries = es at hl
  induction es with
  | nil => exact lookup_cons_self v []
  | cons e es ih =>
    obtain ⟨j, x⟩ := e
    have hj : j ≠ k := by
      rintro rfl
      rw [lookup_cons_self] at hl
      cases hl
    rw [lookup_cons_ne hj] at hl
    rw [List.cons_append, lookup_cons_ne hj, ih hl]

theorem find?_push_ne (h : j ≠ k) : (c.push k v).find? j = c.find? j := by
  show lookup j (c.entries ++ [⟨k, v⟩]) = lookup j c.entries
  induction c.entries with
  | nil => exact lookup_cons_ne h.symm v []
  | cons e es ih => simp only [List.cons_append, lookup, ih]

theorem find?_update_self (f : V k → V k) : (c.update k f).find? k = (c.find? k).map f := by
  simp only [find?, update]
  induction c.entries with
  | nil => rfl
  | cons e es ih =>
    obtain ⟨j, x⟩ := e
    by_cases hj : j = k
    · subst hj
      simp [lookup]
    · rw [List.map_cons, dif_neg hj, lookup_cons_ne hj, lookup_cons_ne hj, ih]

theorem find?_update_ne (h : j ≠ k) (f : V k → V k) : (c.update k f).find? j = c.find? j := by
  simp only [find?, update]
  induction c.entries with
  | nil => rfl
  | cons e es ih =>
    obtain ⟨i, x⟩ := e
    by_cases hi : i = k
    · subst hi
      rw [List.map_cons, dif_pos rfl, lookup_cons_ne h.symm, lookup_cons_ne h.symm, ih]
    · rw [List.map_cons, dif_neg hi]
      simp only [lookup, ih]

/-- A new entry and a change of another one in place can be made in either order. -/
theorem update_push_ne (h : j ≠ k) (v : V j) (f : V k → V k) :
    (c.push j v).update k f = (c.update k f).push j v := by
  simp [update, push, h]

/-- Entries that come from a change in place are such or are as they were. -/
theorem mem_update {f : V k → V k} {e : (k : K) × V k} (h : e ∈ (c.update k f).entries) :
    e ∈ c.entries ∨ ∃ v, ⟨k, v⟩ ∈ c.entries ∧ e = ⟨k, f v⟩ := by
  obtain ⟨⟨j, x⟩, hmem, rfl⟩ := List.mem_map.mp h
  by_cases hj : j = k
  · subst hj
    exact .inr ⟨x, hmem, by simp⟩
  · rw [dif_neg hj]
    exact .inl hmem

/-- A change in place that changes nothing. -/
theorem update_eq_self (hc : c.keys.Nodup) (hv : c.find? k = some v) {f : V k → V k}
    (hf : f v = v) : c.update k f = c := by
  obtain ⟨es⟩ := c
  refine congrArg Catalog.mk ((List.map_congr_left fun e he => ?_).trans (List.map_id es))
  obtain ⟨j, x⟩ := e
  by_cases hj : j = k
  · subst hj
    have hx : (⟨j, x⟩ : (k : K) × V k) = ⟨j, v⟩ :=
      List.inj_on_of_nodup_map hc he (mem_entries_of_find? hv) rfl
    cases hx
    simp [hf]
  · rw [dif_neg hj]
    rfl

end EntityStore.Catalog
