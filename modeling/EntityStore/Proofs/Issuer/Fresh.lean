import EntityStore.Proofs.Issuer.Order
import EntityStore.Proofs.Issuer.Timely

/-!
# Fresh identifiers

While no index has come back so often that its generation has come around, the generation of an
index counts its returns. If moreover only identifiers issued here are given back, then no
identifier is issued twice, and one issued here is current exactly as long as it is outside.
-/
namespace EntityStore

theorem Generation.toNat_next {g : Generation} (h : g.toNat + 1 < UInt32.size) :
    g.next.toNat = g.toNat + 1 := by
  have hlt : g.toNat < 2 ^ 32 - 1 := Nat.lt_sub_of_add_lt h
  rw [toNat_next_eq, Nat.mod_eq_of_lt hlt]

namespace Issuer

variable {bits : Nat}

/-- How often an index may come back before its generation comes around. -/
def mostReturns : Nat := UInt32.size - 1

/-- The ledger of an issuer that is given back only what it issued, before any generation has come
around. -/
structure Kept (l : Ledger bits) : Prop where
  traced : Traced l
  orderly : Orderly l
  /-- The generation of an index counts its returns. -/
  generation_eq : ∀ {n : Nat} {g : Generation}, l.issuer.generations[n]? = some g →
    g.toNat = l.returned.count n + 1
  returned_lt : ∀ n ∈ l.returned, n < l.issuer.gauge
  /-- An identifier issued is not ahead of its index. -/
  handed_le : ∀ i ∈ l.handed, ∃ g, l.issuer.generations[i.index]? = some g ∧
    i.generation.toNat ≤ g.toNat
  /-- An identifier issued that is current is outside. -/
  out_of_handed : ∀ i ∈ l.handed, l.issuer.generations[i.index]? = some i.generation → i ∈ l.out
  handed_of_out : ∀ i ∈ l.out, i ∈ l.handed
  /-- No identifier is issued twice. -/
  handed_nodup : l.handed.Nodup

namespace Kept

variable {l : Ledger bits} {i : Ident bits}

theorem empty : Kept ({} : Ledger bits) :=
  ⟨.empty, .empty, by simp, by simp, by simp, by simp, by simp, .nil⟩

theorem accepts_iff (h : Kept l) (hi : i ∈ l.handed) : l.issuer.accepts i = true ↔ i ∈ l.out := by
  rw [Issuer.accepts_iff]
  exact ⟨h.out_of_handed i hi, h.traced.current_of_out i⟩

theorem isCurrent_iff (h : Kept l) (hi : i ∈ l.handed) :
    l.issuer.isCurrent i = true ↔ i ∈ l.out := by
  rw [h.traced.isCurrent_iff, ← h.traced.accepts_iff, h.accepts_iff hi]

theorem index_ne_of_next? (h : Kept l) (hi : l.issuer.next? = some i) :
    ∀ j ∈ l.out, j.index ≠ i.index := h.orderly.index_ne_of_next? h.traced hi

theorem not_handed_of_next? (h : Kept l) (hi : l.issuer.next? = some i) : i ∉ l.handed := by
  intro hm
  obtain ⟨g, hg, -⟩ := h.handed_le i hm
  have hnew := h.index_ne_of_next? hi i
  rcases next?_cases hi with ⟨-, hindex, -, -⟩ | ⟨f, free, hfree, hindex, hgen, -⟩
  · have hlt := h.traced.lt_gauge hg
    omega
  · refine hnew (h.out_of_handed i hm ?_) rfl
    rw [hgen, hindex]
    exact h.traced.getElem?_of_free (hfree ▸ List.mem_cons_self)

theorem issued (h : Kept l) (hi : l.issuer.next? = some i) : Kept (l.issued i) := by
  have hnew := h.not_handed_of_next? hi
  have ht := h.traced.issued hi
  -- an index issued before keeps its generation
  have hkeep : ∀ {n : Nat} {g : Generation}, l.issuer.generations[n]? = some g →
      l.issuer.advance.generations[n]? = some g := by
    intro n g hg
    rcases next?_cases hi with ⟨-, -, -, hadv⟩ | ⟨f, free, -, -, -, hadv⟩
    · have hlt := (Array.getElem?_eq_some_iff.mp hg).1
      rw [hadv, Array.getElem?_push, if_neg (by omega), hg]
    · rw [hadv, hg]
  have hcur := ht.current_of_out i List.mem_cons_self
  refine ⟨ht, h.orderly.issued h.traced hi, ?_, ?_, ?_, ?_, ?_, ?_⟩ <;>
    simp only [Ledger.issued]
  · intro n g hg
    rcases next?_cases hi with ⟨-, hindex, -, hadv⟩ | ⟨f, free, -, -, -, hadv⟩
    · rw [hadv, Array.getElem?_push] at hg
      split at hg
      · next hn =>
        have hcount : l.returned.count n = 0 := by
          apply List.count_eq_zero.mpr
          intro hm
          have := h.returned_lt n hm
          rw [hn, h.traced.size_eq] at this
          omega
        rw [← Option.some.inj hg, hcount]
        rfl
      · exact h.generation_eq hg
    · rw [hadv] at hg
      exact h.generation_eq hg
  · intro n hn
    have := h.returned_lt n hn
    obtain ⟨-, -, -, hadv⟩ | ⟨f, free, -, -, -, hadv⟩ := next?_cases hi <;> rw [hadv]
    · exact Nat.lt_succ_of_lt this
    · exact this
  · intro j hj
    rcases List.mem_cons.mp hj with rfl | hj
    · exact ⟨_, hcur, Nat.le_refl _⟩
    · obtain ⟨g, hg, hle⟩ := h.handed_le j hj
      exact ⟨g, hkeep hg, hle⟩
  · intro j hj hc
    rcases List.mem_cons.mp hj with rfl | hj
    · exact List.mem_cons_self
    · obtain ⟨g, hg, -⟩ := h.handed_le j hj
      obtain rfl := Option.some.inj ((hkeep hg).symm.trans hc)
      exact List.mem_cons_of_mem _ (h.out_of_handed j hj hg)
  · intro j hj
    rcases List.mem_cons.mp hj with rfl | hj
    · exact List.mem_cons_self
    · exact List.mem_cons_of_mem _ (h.handed_of_out j hj)
  · exact List.nodup_cons.mpr ⟨hnew, h.handed_nodup⟩

theorem tookBack (h : Kept l) (hi : i ∈ l.out)
    (hb : l.returned.count i.index + 1 < mostReturns) : Kept (l.tookBack i) := by
  have hc := h.traced.current_of_out i hi
  have hgen := h.generation_eq hc
  have hlt : i.index < l.issuer.generations.size := (Array.getElem?_eq_some_iff.mp hc).1
  have hnext : i.generation.next.toNat = i.generation.toNat + 1 :=
    Generation.toNat_next (by rw [hgen]; unfold mostReturns at hb; omega)
  have hself : ∀ {n : Nat}, i.index = n →
      (l.issuer.generations.setIfInBounds i.index i.generation.next)[n]? =
        some i.generation.next := by
    rintro _ rfl
    rw [Array.getElem?_setIfInBounds_self_of_lt hlt]
  refine ⟨h.traced.tookBack (Issuer.accepts_iff.mpr hc), h.orderly.tookBack h.traced hi,
    ?_, ?_, ?_, ?_, ?_, ?_⟩ <;> simp only [Ledger.tookBack, recycle]
  · intro n g hg
    rw [List.count_cons]
    by_cases hn : i.index = n
    · rw [hself hn] at hg
      rw [← Option.some.inj hg, hnext, hgen, hn]
      simp
    · rw [Array.getElem?_setIfInBounds_ne hn] at hg
      simp [h.generation_eq hg, hn]
  · intro n hn
    rcases List.mem_cons.mp hn with rfl | hn
    · rwa [← h.traced.size_eq]
    · exact h.returned_lt n hn
  · intro j hj
    obtain ⟨g, hg, hle⟩ := h.handed_le j hj
    by_cases hn : i.index = j.index
    · refine ⟨_, hself hn, ?_⟩
      rw [← hn, hc] at hg
      rw [hnext, Option.some.inj hg]
      omega
    · exact ⟨g, by rw [Array.getElem?_setIfInBounds_ne hn, hg], hle⟩
  · intro j hj hcj
    by_cases hn : i.index = j.index
    · -- the new generation of the index is ahead of all that was issued
      obtain ⟨g, hg, hle⟩ := h.handed_le j hj
      rw [← hn, hc] at hg
      rw [hself hn] at hcj
      have := congrArg Generation.toNat (Option.some.inj hcj)
      rw [← Option.some.inj hg] at hle
      omega
    · rw [Array.getElem?_setIfInBounds_ne hn] at hcj
      refine List.mem_filter.mpr ⟨h.out_of_handed j hj hcj, ?_⟩
      simp only [decide_eq_true_eq]
      rintro rfl
      exact hn rfl
  · exact fun j hj => h.handed_of_out j (List.mem_filter.mp hj).1
  · exact h.handed_nodup

end Kept

end Issuer

end EntityStore
