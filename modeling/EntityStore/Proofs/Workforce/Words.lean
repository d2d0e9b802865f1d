import EntityStore.Proofs.Workforce.Ranges
import Mathlib.Algebra.Group.Nat.Defs

/-!
# Ranges in words

The ranges of a workforce computed in words of 64 bits. If no number that goes in takes more than 63
bits, then no sum overflows, and the ranges are those that numbers without a bound give.
-/
namespace EntityStore.Workforce

/-- The sum of two words, unless it takes more than 64 bits. -/
def add? (a b : UInt64) : Option UInt64 :=
  if a.toNat + b.toNat < UInt64.size then some (a + b) else none

def steps (len step : UInt64) : List UInt64 :=
  ((List.range len.toNat).filter (step.toNat ∣ ·)).map UInt64.ofNat

/-- Cuts `len` items into ranges of length `step`, if every sum is a word. -/
def wordCut? (len step : UInt64) : Option (List (UInt64 × UInt64)) :=
  (steps len step).mapM fun start => do
    let stop ← add? start step
    return (start, min stop len)

/-- The ranges that threads get, if every sum is a word. -/
def wordRanges? (workers len least : UInt64) : Option (List (UInt64 × UInt64)) :=
  if len = 0 then some []
  else if len ≤ least then some [(0, len)]
  else do
    let sum ← add? len workers
    wordCut? len (max (max ((sum - 1) / workers) least) 1)

def unword (r : UInt64 × UInt64) : Nat × Nat := (r.1.toNat, r.2.toNat)

variable {a b workers len least step start : UInt64}

theorem add?_of_lt (h : a.toNat + b.toNat < UInt64.size) :
    add? a b = some (a + b) ∧ (a + b).toNat = a.toNat + b.toNat := by
  refine ⟨if_pos h, ?_⟩
  rw [UInt64.toNat_add]
  exact Nat.mod_eq_of_lt h

theorem toNat_lt_of_mem_steps (h : start ∈ steps len step) : start.toNat < len.toNat := by
  obtain ⟨n, hn, rfl⟩ := List.mem_map.mp h
  rw [UInt64.toNat_ofNat']
  exact Nat.lt_of_le_of_lt (Nat.mod_le ..) (List.mem_range.mp (List.mem_filter.mp hn).1)

theorem map_toNat_steps (hstep : 0 < step.toNat) : (steps len step).map UInt64.toNat =
    (List.range ((len.toNat + step.toNat - 1) / step.toNat)).map (· * step.toNat) := by
  have hback : (steps len step).map UInt64.toNat =
      (List.range len.toNat).filter (step.toNat ∣ ·) := by
    rw [steps, List.map_map]
    refine (List.map_congr_left fun n hn => ?_).trans (List.map_id _)
    have hlt := List.mem_range.mp (List.mem_filter.mp hn).1
    exact UInt64.toNat_ofNat_of_lt' (Nat.lt_trans hlt len.toNat_lt)
  rw [hback]
  -- both lists ascend, and have the multiples below `len` as members
  have hunique : ∀ a b : Nat, a < b → b < a → a = b := fun a b h h' => absurd h (by omega)
  refine List.Perm.eq_of_pairwise (fun a b _ _ => hunique a b)
    (List.pairwise_lt_range.filter _) (List.pairwise_map.mpr ?_) ?_
  · exact List.pairwise_lt_range.imp fun h => Nat.mul_lt_mul_of_pos_right h hstep
  · refine (List.perm_ext_iff_of_nodup (List.nodup_range.filter _) ?_).mpr fun n => ?_
    · refine List.Nodup.map_on (fun a _ b _ h => ?_) List.nodup_range
      exact Nat.eq_of_mul_eq_mul_right hstep h
    · simp only [List.mem_filter, List.mem_range, decide_eq_true_eq, List.mem_map,
        lt_count_iff hstep]
      constructor
      · rintro ⟨hn, i, rfl⟩
        exact ⟨i, by rwa [Nat.mul_comm], Nat.mul_comm ..⟩
      · rintro ⟨i, hi, rfl⟩
        exact ⟨hi, Nat.dvd_mul_left ..⟩

/-- What is computed for every element is computed for the list. -/
theorem mapM_of_forall {α β : Type} {f : α → Option β} {g : α → β} {l : List α}
    (h : ∀ a ∈ l, f a = some (g a)) : l.mapM f = some (l.map g) := by
  induction l with
  | nil => rfl
  | cons a l ih =>
    rw [List.mapM_cons, h a List.mem_cons_self, ih fun b hb => h b (List.mem_cons_of_mem _ hb)]
    rfl

/-- No range ends beyond the last word if the last item and one range more are words. -/
theorem wordCut?_eq (hstep : 0 < step.toNat) (hsize : len.toNat + step.toNat ≤ UInt64.size) :
    ∃ rs, wordCut? len step = some rs ∧ rs.map unword = cut len.toNat step.toNat := by
  have hstop : ∀ start ∈ steps len step, add? start step = some (start + step) ∧
      (start + step).toNat = start.toNat + step.toNat := by
    intro start hstart
    have hlt := toNat_lt_of_mem_steps hstart
    exact add?_of_lt (by omega)
  refine ⟨(steps len step).map fun start => (start, min (start + step) len), ?_, ?_⟩
  · refine mapM_of_forall fun start hstart => ?_
    rw [(hstop start hstart).1]
    rfl
  · calc ((steps len step).map fun start => (start, min (start + step) len)).map unword
        = ((steps len step).map UInt64.toNat).map fun n => (n, min (n + step.toNat) len.toNat) := by
          rw [List.map_map, List.map_map]
          refine List.map_congr_left fun start hstart => ?_
          simp only [Function.comp_apply, unword, UInt64.toNat_min, (hstop start hstart).2]
      _ = cut len.toNat step.toNat := by
          rw [map_toNat_steps hstep, List.map_map]
          rfl

/-- No sum overflows if no number that goes in takes more than 63 bits, and the ranges are right. -/
theorem wordRanges?_eq (hw : 0 < workers.toNat) (hworkers : workers.toNat < 2 ^ 63)
    (hlen : len.toNat < 2 ^ 63) : ∃ rs, wordRanges? workers len least = some rs ∧
      rs.map unword = (threads workers.toNat).ranges len.toNat least.toNat := by
  have hmax : max workers.toNat 1 = workers.toNat := by omega
  rw [ranges_threads, hmax, wordRanges?]
  by_cases hzero : len = 0
  · subst hzero
    exact ⟨[], by simp, by simp⟩
  have hnonzero : len.toNat ≠ 0 := fun h => hzero (UInt64.toNat_inj.mp h)
  rw [if_neg hzero, if_neg hnonzero]
  by_cases hfew : len ≤ least
  · rw [if_pos hfew, if_pos (UInt64.le_iff_toNat_le.mp hfew)]
    exact ⟨[(0, len)], rfl, rfl⟩
  have hmany : ¬len.toNat ≤ least.toNat := fun h => hfew (UInt64.le_iff_toNat_le.mpr h)
  obtain ⟨hadd, hsum⟩ := add?_of_lt (a := len) (b := workers) (by
    simp only [UInt64.size]
    omega)
  have hsub : (len + workers - 1).toNat = len.toNat + workers.toNat - 1 := by
    rw [UInt64.toNat_sub_of_le _ _ (UInt64.le_iff_toNat_le.mpr _), hsum]
    · rfl
    · rw [hsum]
      exact Nat.le_trans hw (Nat.le_add_left ..)
  have hstep : (max (max ((len + workers - 1) / workers) least) 1).toNat =
      chunk workers.toNat len.toNat least.toNat := by
    rw [UInt64.toNat_max, UInt64.toNat_max, UInt64.toNat_div, hsub]
    rfl
  have hle := chunk_le hw (Nat.pos_of_ne_zero hnonzero) (Nat.le_of_not_le hmany)
  rw [if_neg hfew, if_neg hmany, hadd, ← hstep]
  refine wordCut?_eq (hstep ▸ chunk_pos ..) ?_
  rw [hstep]
  simp only [UInt64.size]
  omega

end EntityStore.Workforce
