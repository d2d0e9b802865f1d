import EntityStore.Workforce
import Mathlib.Data.List.Nodup

/-!
# Ranges of a workforce

The ranges that threads get lie one behind the other, none of them is empty, and together they are
the row. There are no more of them than workers, and all but the last have one length. However a
workforce divides the row and whoever of it gets on, every item is gone through once.
-/
namespace EntityStore.Workforce

variable {α : Type} {len c : Nat}

/-- How many ranges of a length are needed: one more as long as items are left. -/
theorem lt_count_iff (hc : 0 < c) (i : Nat) : i < (len + c - 1) / c ↔ i * c < len := by
  rw [Nat.lt_div_iff_mul_lt hc]
  omega

/-- The ranges are a way to divide `len` items. -/
structure Partition (ranges : List (Nat × Nat)) (len : Nat) : Prop where
  nonempty : ∀ r ∈ ranges, r.1 < r.2
  /-- A range begins after those before it have ended. -/
  disjoint : ranges.Pairwise fun r s => r.2 ≤ s.1
  covers : ∀ n, n < len ↔ ∃ r ∈ ranges, r.1 ≤ n ∧ n < r.2

theorem partition_whole (hlen : 0 < len) : Partition [(0, len)] len :=
  ⟨by simpa using hlen, List.pairwise_singleton .., by simp⟩

theorem partition_cut (hc : 0 < c) (len : Nat) : Partition (cut len c) len := by
  refine ⟨?_, ?_, fun n => ⟨fun hn => ?_, ?_⟩⟩
  · intro r hr
    obtain ⟨i, hi, rfl⟩ := List.mem_map.mp hr
    have hstart := (lt_count_iff hc i).mp (List.mem_range.mp hi)
    simp only
    omega
  · refine List.pairwise_map.mpr (List.pairwise_lt_range.imp fun {i j} hij => ?_)
    have hnext := Nat.mul_le_mul_right c hij
    rw [Nat.succ_mul] at hnext
    simp only
    omega
  · -- the item is in the range that its quotient numbers
    have hdiv := Nat.div_add_mod' n c
    have hmod := Nat.mod_lt n hc
    refine ⟨_, List.mem_map_of_mem (List.mem_range.mpr ((lt_count_iff hc (n / c)).mpr ?_)), ?_⟩
    · omega
    · simp only
      omega
  · rintro ⟨r, hr, -, hn⟩
    obtain ⟨i, -, rfl⟩ := List.mem_map.mp hr
    simp only at hn
    omega

/-- All ranges but the last are as long as they may be. -/
theorem length_of_mem_dropLast_cut (hc : 0 < c) {r : Nat × Nat} (hr : r ∈ (cut len c).dropLast) :
    r.2 - r.1 = c := by
  rw [cut, ← List.map_dropLast] at hr
  obtain ⟨i, hi, rfl⟩ := List.mem_map.mp hr
  have hi' : i + 1 < (len + c - 1) / c := by
    cases hcount : (len + c - 1) / c with
    | zero => simp [hcount] at hi
    | succ k =>
      rw [hcount, List.range_succ, List.dropLast_concat, List.mem_range] at hi
      omega
  have hnext := (lt_count_iff hc (i + 1)).mp hi'
  rw [Nat.succ_mul] at hnext
  simp only
  omega

/-- Ranges that are long enough for every worker to take one suffice. -/
theorem length_cut_le (hc : 0 < c) {workers : Nat} (h : len ≤ workers * c) :
    (cut len c).length ≤ workers := by
  rw [cut, List.length_map, List.length_range]
  exact Nat.le_of_not_lt fun hlt => absurd ((lt_count_iff hc workers).mp hlt) (by omega)

/-- Every worker can take a range that is long enough. -/
theorem le_mul_chunk {workers : Nat} (hw : 0 < workers) (len least : Nat) :
    len ≤ workers * chunk workers len least := by
  calc len ≤ (len + workers - 1) / workers * workers := le_count_mul hw len
    _ ≤ chunk workers len least * workers := by
      apply Nat.mul_le_mul_right
      simp only [chunk]
      omega
    _ = workers * chunk workers len least := Nat.mul_comm ..

theorem chunk_le {workers least : Nat} (hw : 0 < workers) (hlen : 0 < len) (hleast : least ≤ len) :
    chunk workers len least ≤ len := by
  have hshare : (len + workers - 1) / workers ≤ len :=
    Nat.le_of_not_lt fun h => absurd ((lt_count_iff hw len).mp h)
      (Nat.not_lt.mpr (Nat.le_mul_of_pos_right len hw))
  simp only [chunk]
  omega

/-- How some items are divided among some workers, if few of them are not divided at all. -/
structure Division (ranges : List (Nat × Nat)) (workers len least : Nat) : Prop where
  partition : Partition ranges len
  length_le : ranges.length ≤ workers
  even : ∃ n, least ≤ n ∧ ∀ r ∈ ranges.dropLast, r.2 - r.1 = n
  whole : 0 < len → len ≤ least → ranges = [(0, len)]
  none : len = 0 → ranges = []

theorem division_ranges {workers : Nat} (hw : 0 < workers) (len least : Nat) :
    Division ((threads workers).ranges len least) workers len least := by
  have hmax : max workers 1 = workers := by omega
  rw [ranges_threads, hmax]
  split_ifs with hzero hfew
  · subst hzero
    exact ⟨⟨by simp, .nil, by simp⟩, Nat.zero_le _, ⟨least, Nat.le_refl _, by simp⟩,
      fun h => absurd h (Nat.lt_irrefl 0), fun _ => rfl⟩
  · refine ⟨partition_whole (by omega), hw, ⟨least, Nat.le_refl _, by simp⟩, fun _ _ => rfl, ?_⟩
    exact fun h => absurd h hzero
  · have hc := chunk_pos workers len least
    refine ⟨partition_cut hc len, length_cut_le hc (le_mul_chunk hw len least),
      ⟨chunk workers len least, ?_, ?_⟩, ?_, ?_⟩
    · simp only [chunk]
      omega
    · exact fun r hr => length_of_mem_dropLast_cut hc hr
    · exact fun _ h => absurd h hfew
    · exact fun h => absurd h hzero

/-- A range that is not empty ends where the items end, or before. -/
theorem le_of_mem_division {w : Workforce} {time least : Nat} {r : Nat × Nat}
    (hr : r ∈ w.division time len least) (h : r.1 < r.2) : r.2 ≤ len := by
  have hlast : r.2 - 1 ∈ (w.division time len least).flatMap numbers := by
    refine List.mem_flatMap.mpr ⟨r, hr, ?_⟩
    rw [numbers, List.mem_range'_1]
    omega
  have hlt := List.mem_range.mp ((w.divides time len least).mem_iff.mp hlast)
  omega

/-- The share of a range is what is in its slots. -/
theorem slice_eq (items : List α) (r : Nat × Nat) :
    slice items r = (numbers r).filterMap (items[·]?) := by
  suffices hall : ∀ length start, (items.drop start).take length =
      (List.range' start length).filterMap (items[·]?) from hall ..
  intro length
  induction length with
  | zero => simp
  | succ length ih =>
    intro start
    rw [List.range'_succ, List.filterMap_cons, ← ih (start + 1)]
    cases hstart : items[start]? with
    | none =>
      have hend := List.getElem?_eq_none_iff.mp hstart
      simp [List.drop_eq_nil_of_le hend, List.drop_eq_nil_of_le (Nat.le_succ_of_le hend)]
    | some a =>
      obtain ⟨hlt, rfl⟩ := List.getElem?_eq_some_iff.mp hstart
      rw [List.drop_eq_getElem_cons hlt, List.take_succ_cons]

/-- No slot of a share is empty. -/
theorem map_some_slice {w : Workforce} {time least : Nat} {items : List α} {r : Nat × Nat}
    (hr : r ∈ w.division time items.length least) :
    (slice items r).map some = (numbers r).map (items[·]?) := by
  rw [slice_eq]
  have hfilled : ∀ n ∈ numbers r, (items[n]?).isSome = true := by
    intro n hn
    rw [numbers, List.mem_range'_1] at hn
    have hlast := le_of_mem_division hr (by omega)
    have hlt : n < items.length := by omega
    simp [hlt]
  generalize numbers r = ns at hfilled
  induction ns with
  | nil => rfl
  | cons n ns ih =>
    obtain ⟨a, ha⟩ := Option.isSome_iff_exists.mp (hfilled n List.mem_cons_self)
    rw [List.filterMap_cons, ha, List.map_cons, List.map_cons, ha,
      ih fun m hm => hfilled m (List.mem_cons_of_mem n hm)]

/-- Every item is given to one worker. -/
theorem perm_slices (w : Workforce) (time least : Nat) (items : List α) :
    ((w.division time items.length least).map (slice items)).flatten.Perm items := by
  have hjoin : ((w.division time items.length least).map (slice items)).flatten =
      ((w.division time items.length least).flatMap numbers).filterMap (items[·]?) := by
    rw [← List.flatMap_def, List.filterMap_flatMap]
    exact List.flatMap_congr fun r _ => slice_eq items r
  have hwhole : (List.range items.length).filterMap (items[·]?) = items := by
    have hall := slice_eq items (0, items.length)
    rw [numbers, ← List.range_eq_range'] at hall
    simpa [slice] using hall.symm
  rw [hjoin]
  exact ((w.divides time items.length least).filterMap _).trans (.of_eq hwhole)

/-- The workers go through their shares, each through its own in order, and it is open whose turn
it is. -/
inductive Interleaves : (shares : List (List α)) → (calls : List α) → Prop
  | done {shares} (empty : ∀ share ∈ shares, share = []) : Interleaves shares []
  | call {before share after a calls} (rest : Interleaves (before ++ share :: after) calls) :
      Interleaves (before ++ (a :: share) :: after) (a :: calls)

/-- In the end everything in the shares has been gone through once. -/
theorem Interleaves.perm {shares : List (List α)} {calls : List α} (h : Interleaves shares calls) :
    calls.Perm shares.flatten := by
  induction h with
  | done empty => rw [List.flatten_eq_nil_iff.mpr empty]
  | @call before share after a calls rest ih =>
    rw [List.flatten_append, List.flatten_cons] at ih ⊢
    exact (ih.cons a).trans List.perm_middle.symm

/-- One after the other is a way to go through the shares. -/
theorem interleaves_flatten (shares : List (List α)) : Interleaves shares shares.flatten := by
  suffices hall : ∀ before : List (List α), (∀ share ∈ before, share = []) →
      Interleaves (before ++ shares) shares.flatten from hall [] nofun
  induction shares with
  | nil => exact fun before hempty => .done (by simpa using hempty)
  | cons share shares ih =>
    intro before hempty
    induction share with
    | nil =>
      rw [List.append_cons]
      refine ih _ fun x hx => ?_
      exact (List.mem_append.mp hx).elim (hempty x) List.mem_singleton.mp
    | cons a share ihs => exact .call ihs

end EntityStore.Workforce
