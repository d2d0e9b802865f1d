import EntityStore.Proofs.Issuer.Fresh
import Mathlib.Data.Finset.Card

/-!
# Reuse of indices

An issuer that is given back only what it issued is a stack of the indices that wait. The one that
came back last is reissued first, one generation on; a fresh one is taken only when none waits, and
all indices in order. It fails exactly while every index there is has an identifier outside.
-/
namespace EntityStore.Issuer

variable {bits : Nat}

def Call.idents : Call bits → List (Ident bits)
  | issue => []
  | giveBack i => [i]

namespace Ledger

/-- The index has come back, and no identifier of it is outside. -/
def Waits (l : Ledger bits) (n : Nat) : Prop := n ∈ l.returned ∧ ∀ i ∈ l.out, i.index ≠ n

/-- Of the indices that wait, this one came back last. -/
structure Foremost (l : Ledger bits) (n : Nat) : Prop where
  waits : l.Waits n
  latest : ∀ m, l.Waits m → m ≠ n → l.returned.idxOf n < l.returned.idxOf m

def latest? (l : Ledger bits) (n : Nat) : Option (Ident bits) := l.handed.find? (·.index = n)

/-- Only identifiers that were issued before are given back. -/
def Own (l : Ledger bits) : List (Call bits) → Prop
  | [] => True
  | c :: calls => (∀ i ∈ c.idents, i ∈ l.handed) ∧ (l.after c).Own calls

instance decidableOwn : (l : Ledger bits) → (calls : List (Call bits)) → Decidable (l.Own calls)
  | _, [] => .isTrue trivial
  | l, c :: calls =>
    have := decidableOwn (l.after c) calls
    inferInstanceAs (Decidable (_ ∧ _))

theorem latest?_issued (l : Ledger bits) (i : Ident bits) (n : Nat) :
    (l.issued i).latest? n = if i.index = n then some i else l.latest? n := by
  simp only [latest?, issued, List.find?_cons]
  split <;> simp_all

theorem waits_issued {l : Ledger bits} {i : Ident bits} {n : Nat} :
    (l.issued i).Waits n ↔ l.Waits n ∧ n ≠ i.index := by
  simp only [Waits, issued, List.forall_mem_cons]
  tauto

/-- What came back stays in the account. -/
theorem returned_suffix (calls : List (Call bits)) (l : Ledger bits) :
    l.returned <:+ (calls.foldl after l).returned := by
  induction calls generalizing l with
  | nil => exact List.suffix_rfl
  | cons c calls ih =>
    refine List.IsSuffix.trans ?_ (ih _)
    cases c with
    | issue =>
      rw [after_issue]
      split <;> exact List.suffix_rfl
    | giveBack i =>
      rw [after_giveBack]
      split
      · exact List.suffix_cons ..
      · exact List.suffix_rfl

end Ledger

open Ledger (Waits)

/-- If no index waits, the next one is fresh, unless there is none. -/
theorem issue_of_nil {m : Issuer bits} (hfree : m.free = []) : m.issue =
    if hlt : m.gauge < indices bits then .ok (⟨m.gauge, .first, hlt⟩, m.advance)
    else .error (.identsExhausted m.gauge) := by
  by_cases hlt : m.gauge < indices bits <;>
    simp [issue, next?, recycled?, hfree, Ident.ofNat?, hlt]

/-- An index that comes back is on top of the stack. -/
theorem issue_recycle {m : Issuer bits} {i : Ident bits} (hi : m.accepts i = true) :
    (m.recycle i).issue =
      .ok (⟨i.index, i.generation.next, i.index_lt⟩, (m.recycle i).advance) := by
  have hlt := (Array.getElem?_eq_some_iff.mp (Issuer.accepts_iff.mp hi)).1
  simp [issue, next?, recycled?, recycle, hlt]

/-- The indices that wait are stacked in the order in which they came back. -/
structure Stacked (l : Ledger bits) : Prop where
  kept : Kept l
  mem_free_iff : ∀ f, f ∈ l.issuer.free ↔ l.Waits f.val
  ordered : l.issuer.free.Pairwise fun f g =>
    l.returned.idxOf f.val < l.returned.idxOf g.val
  latest_out : ∀ i ∈ l.out, l.latest? i.index = some i
  /-- A waiting index is one generation ahead of the identifier that was issued last. -/
  latest_waits : ∀ f ∈ l.issuer.free, ∃ i, l.latest? f.val = some i ∧
    l.issuer.generations[f.val]? = some i.generation.next
  handed_of_lt : ∀ n < l.issuer.gauge, ∃ i ∈ l.handed, i.index = n

namespace Stacked

variable {l : Ledger bits} {i : Ident bits}

theorem empty : Stacked ({} : Ledger bits) :=
  ⟨.empty, by simp [Waits], .nil, by simp, by simp, by simp⟩

theorem issued (h : Stacked l) (hi : l.issuer.next? = some i) : Stacked (l.issued i) := by
  have hout : ∀ j ∈ l.out, i.index ≠ j.index := fun j hj he =>
    h.kept.index_ne_of_next? hi j hj he.symm
  have hlatest_out : ∀ j ∈ (l.issued i).out, (l.issued i).latest? j.index = some j := by
    intro j hj
    rw [Ledger.latest?_issued]
    rcases List.mem_cons.mp hj with rfl | hj
    · simp
    · rw [if_neg (hout j hj), h.latest_out j hj]
  rcases next?_cases hi with ⟨hfree, hindex, -, hadv⟩ | ⟨f, free, hfree, hindex, -, hadv⟩
  · refine ⟨h.kept.issued hi, fun f => ?_, ?_, hlatest_out, ?_, fun n hn => ?_⟩
    · rw [Ledger.waits_issued, ← h.mem_free_iff]
      simp [Ledger.issued, hadv, hfree]
    · simp [Ledger.issued, hadv]
    · simp [Ledger.issued, hadv]
    · simp only [Ledger.issued, hadv] at hn ⊢
      rcases Nat.lt_succ_iff_lt_or_eq.mp hn with hn | rfl
      · obtain ⟨j, hj, hjn⟩ := h.handed_of_lt n hn
        exact ⟨j, List.mem_cons_of_mem _ hj, hjn⟩
      · exact ⟨i, List.mem_cons_self, hindex⟩
  · have hnodup : (f :: free).Nodup := hfree ▸ h.kept.orderly.free_nodup
    have hnot : f ∉ free := (List.nodup_cons.mp hnodup).1
    have hne : ∀ g ∈ free, f.val ≠ g.val := fun g hg he => hnot (Fin.ext he ▸ hg)
    refine ⟨h.kept.issued hi, fun g => ?_, ?_, hlatest_out, fun g hg => ?_, fun n hn => ?_⟩
    · rw [Ledger.waits_issued, ← h.mem_free_iff, hfree, hindex]
      simp only [Ledger.issued, hadv, List.mem_cons]
      constructor
      · exact fun hg => ⟨.inr hg, (hne g hg).symm⟩
      · rintro ⟨rfl | hg, hgf⟩
        · exact absurd rfl hgf
        · exact hg
    · simp only [Ledger.issued, hadv]
      exact (hfree ▸ h.ordered : (f :: free).Pairwise _).of_cons
    · simp only [Ledger.issued, hadv] at hg
      obtain ⟨j, hj, hgen⟩ := h.latest_waits g (hfree ▸ List.mem_cons_of_mem f hg)
      refine ⟨j, ?_, by simpa only [Ledger.issued, hadv] using hgen⟩
      rw [Ledger.latest?_issued, hindex, if_neg (hne g hg), hj]
    · simp only [Ledger.issued, hadv] at hn ⊢
      obtain ⟨j, hj, hjn⟩ := h.handed_of_lt n hn
      exact ⟨j, List.mem_cons_of_mem _ hj, hjn⟩

theorem waits_tookBack (h : Stacked l) (hi : i ∈ l.out) {n : Nat} :
    (l.tookBack i).Waits n ↔ n = i.index ∨ l.Waits n := by
  by_cases hn : n = i.index
  · subst hn
    have hnone : ∀ j ∈ l.out, j ≠ i → j.index ≠ i.index := fun j hj hne he =>
      hne (h.kept.traced.eq_of_index_eq hj hi he)
    simpa [Waits, Ledger.tookBack] using hnone
  · have hkeep : (∀ j ∈ l.out, j ≠ i → j.index ≠ n) ↔ ∀ j ∈ l.out, j.index ≠ n := by
      refine forall₂_congr fun j _ => ⟨fun hj he => ?_, fun hj _ => hj⟩
      exact hj (fun hji => hn (hji ▸ he.symm)) he
    simp [Waits, Ledger.tookBack, hn, hkeep]

theorem tookBack (h : Stacked l) (hi : i ∈ l.out)
    (hb : l.returned.count i.index + 1 < mostReturns) : Stacked (l.tookBack i) := by
  have hnot := h.kept.orderly.apart i hi
  have hne : ∀ f ∈ l.issuer.free, i.index ≠ f.val := fun f hf he =>
    hnot ((Fin.ext he : (⟨i.index, i.index_lt⟩ : Fin _) = f) ▸ hf)
  have hc := h.kept.traced.current_of_out i hi
  refine ⟨h.kept.tookBack hi hb, fun f => ?_, ?_, fun j hj => ?_, fun f hf => ?_, ?_⟩
  · rw [h.waits_tookBack hi, ← h.mem_free_iff]
    simp only [Ledger.tookBack, recycle, List.mem_cons, Fin.ext_iff]
  · simp only [Ledger.tookBack, recycle]
    refine List.pairwise_cons.mpr ⟨fun f hf => ?_, h.ordered.imp_of_mem fun {f g} hf hg hlt => ?_⟩
    · rw [List.idxOf_cons_self, List.idxOf_cons_ne _ (hne f hf)]
      exact Nat.zero_lt_succ _
    · rw [List.idxOf_cons_ne _ (hne f hf), List.idxOf_cons_ne _ (hne g hg)]
      exact Nat.succ_lt_succ hlt
  · exact h.latest_out j (List.mem_filter.mp hj).1
  · simp only [Ledger.tookBack, recycle] at hf ⊢
    rcases List.mem_cons.mp hf with rfl | hf
    · have hlt : i.index < l.issuer.generations.size := (Array.getElem?_eq_some_iff.mp hc).1
      exact ⟨i, h.latest_out i hi, Array.getElem?_setIfInBounds_self_of_lt hlt⟩
    · obtain ⟨j, hj, hgen⟩ := h.latest_waits f hf
      exact ⟨j, hj, by rw [Array.getElem?_setIfInBounds_ne (hne f hf), hgen]⟩
  · exact h.handed_of_lt

/-- Whatever is tried with identifiers that were issued, the indices stay stacked, unless one has
come around. -/
theorem after (h : Stacked l) {c : Call bits} (hown : ∀ i ∈ c.idents, i ∈ l.handed)
    (hb : ∀ n, (l.after c).returned.count n < mostReturns) : Stacked (l.after c) := by
  cases c with
  | issue =>
    rw [Ledger.after_issue]
    split
    · next i hi => exact h.issued hi
    · exact h
  | giveBack i =>
    rw [Ledger.after_giveBack] at hb ⊢
    split at hb
    · next hi =>
      rw [if_pos hi]
      refine h.tookBack ((h.kept.accepts_iff (hown i List.mem_cons_self)).mp hi) ?_
      simpa [Ledger.tookBack] using hb i.index
    · next hi =>
      rw [if_neg hi]
      exact h

theorem gauge_le (h : Stacked l) : l.issuer.gauge ≤ indices bits := by
  rcases Nat.eq_zero_or_pos l.issuer.gauge with hzero | hpos
  · rw [hzero]
    exact Nat.zero_le _
  · obtain ⟨i, -, hi⟩ := h.handed_of_lt (l.issuer.gauge - 1) (by omega)
    have hlt := i.index_lt
    omega

theorem exists_free_of_waits (h : Stacked l) {n : Nat} (hn : l.Waits n) :
    ∃ f ∈ l.issuer.free, f.val = n := by
  have hlt := Nat.lt_of_lt_of_le (h.kept.returned_lt n hn.1) h.gauge_le
  exact ⟨⟨n, hlt⟩, (h.mem_free_iff _).mpr hn, rfl⟩

/-- The index on top of the stack is reissued. -/
theorem issue_of_free (h : Stacked l) {f : Fin (indices bits)} {free : List (Fin (indices bits))}
    (hfree : l.issuer.free = f :: free) : ∃ j i, l.issuer.issue = .ok (j, l.issuer.advance) ∧
      l.Foremost j.index ∧ l.latest? j.index = some i ∧ j.generation = i.generation.next := by
  have hf : f ∈ l.issuer.free := hfree ▸ List.mem_cons_self
  obtain ⟨i, hi, hgen⟩ := h.latest_waits f hf
  refine ⟨⟨f, i.generation.next, f.isLt⟩, i, ?_, ⟨(h.mem_free_iff f).mp hf, ?_⟩, hi, rfl⟩
  · simp [issue, next?, recycled?, hfree, hgen]
  · intro m hm hne
    obtain ⟨g, hg, rfl⟩ := h.exists_free_of_waits hm
    have hmem := (List.mem_cons.mp (hfree ▸ hg)).resolve_left fun he => hne (congrArg Fin.val he)
    have hordered := h.ordered
    rw [hfree] at hordered
    exact List.rel_of_pairwise_cons hordered hmem

theorem issue_error_iff (h : Stacked l) (f : Fault) : l.issuer.issue = .error f ↔
    l.issuer.free = [] ∧ l.issuer.gauge = indices bits ∧ f = .identsExhausted (indices bits) := by
  cases hfree : l.issuer.free with
  | nil =>
    have hle := h.gauge_le
    rw [issue_of_nil hfree]
    split
    · next hlt => simp [Nat.ne_of_lt hlt]
    · next hge =>
      have heq : l.issuer.gauge = indices bits := by omega
      simp [heq, eq_comm]
  | cons g free =>
    obtain ⟨j, i, hj, -⟩ := h.issue_of_free hfree
    simp [hj]

theorem exhausted_iff (h : Stacked l) :
    (l.issuer.free = [] ∧ l.issuer.gauge = indices bits) ↔
      ∀ n < indices bits, ∃ i ∈ l.out, i.index = n := by
  constructor
  · rintro ⟨hfree, hgauge⟩ n hn
    have hlt : n < l.issuer.generations.size := by rwa [h.kept.traced.size_eq, hgauge]
    have hcurrent : l.issuer.generations[n]? = some l.issuer.generations[n] :=
      Array.getElem?_eq_getElem hlt
    refine ⟨⟨n, l.issuer.generations[n], hn⟩, ?_, rfl⟩
    exact (h.kept.traced.out_or_waits hcurrent).resolve_right (by simp [hfree])
  · intro hall
    constructor
    · apply List.eq_nil_iff_forall_not_mem.mpr
      intro f hf
      obtain ⟨i, hi, hif⟩ := hall f f.isLt
      exact ((h.mem_free_iff f).mp hf).2 i hi hif
    · have hpos := indices_pos bits
      obtain ⟨i, hi, hlast⟩ := hall (indices bits - 1) (by omega)
      have hlt := h.kept.traced.lt_gauge (h.kept.traced.current_of_out i hi)
      have hle := h.gauge_le
      omega

theorem lt_gauge_iff (h : Stacked l) (n : Nat) :
    n < l.issuer.gauge ↔ ∃ i ∈ l.handed, i.index = n := by
  refine ⟨h.handed_of_lt n, ?_⟩
  rintro ⟨i, hi, rfl⟩
  obtain ⟨g, hg, -⟩ := h.kept.handed_le i hi
  exact h.kept.traced.lt_gauge hg

end Stacked

/-- What an issuer answers that was given back only what it issued. -/
structure Reuses (l : Ledger bits) : Prop where
  /-- If indices wait, the one that came back last is reissued, one generation after the identifier
  of it that was issued last. -/
  reissues : (∃ n, l.Waits n) → ∃ j i, l.issuer.issue = .ok (j, l.issuer.advance) ∧
    l.Foremost j.index ∧ l.latest? j.index = some i ∧ j.generation = i.generation.next
  /-- If none waits, the next index is issued for the first time, while there is one. -/
  freshens : (∀ n, ¬l.Waits n) → ∀ hlt : l.issuer.issued < indices bits,
    l.issuer.issue = .ok (⟨l.issuer.issued, .first, hlt⟩, l.issuer.advance)
  exhausted_iff : (∃ f, l.issuer.issue = .error f) ↔
    ∀ n < indices bits, ∃ i ∈ l.out, i.index = n
  exhausted : ∀ f, l.issuer.issue = .error f →
    f = .identsExhausted (indices bits) ∧ l.issuer.issued = indices bits ∧ l.after .issue = l
  /-- What is outside is taken back, and then its index is reissued. -/
  givesBack : ∀ i ∈ l.out, l.issuer.giveBack i = .ok (l.issuer.recycle i) ∧
    (l.issuer.recycle i).issue =
      .ok (⟨i.index, i.generation.next, i.index_lt⟩, (l.issuer.recycle i).advance)
  refuses : ∀ i ∈ l.handed, i ∉ l.out →
    l.issuer.giveBack i = .error (.invalid i) ∧ l.after (.giveBack i) = l
  /-- The indices issued are the first ones. -/
  lt_issued_iff : ∀ n, n < l.issuer.issued ↔ ∃ i ∈ l.handed, i.index = n
  issued_eq : l.issuer.issued = (l.handed.map Ident.index).toFinset.card
  outstanding_eq : l.issuer.outstanding = .ok l.out.length
  recyclable_add : l.issuer.recyclable + l.out.length = l.issuer.issued

theorem Stacked.reuses {l : Ledger bits} (h : Stacked l) : Reuses l := by
  have hcount := outstanding_eq_ok_iff.mp h.kept.orderly.outstanding_eq
  refine ⟨?_, ?_, ?_, ?_, ?_, ?_, h.lt_gauge_iff, ?_, h.kept.orderly.outstanding_eq, hcount⟩
  · rintro ⟨n, hn⟩
    obtain ⟨f, hf, -⟩ := h.exists_free_of_waits hn
    obtain ⟨g, free, hfree⟩ := List.exists_cons_of_ne_nil (List.ne_nil_of_mem hf)
    exact h.issue_of_free hfree
  · intro hnone hlt
    have hfree : l.issuer.free = [] := by
      apply List.eq_nil_iff_forall_not_mem.mpr
      exact fun f hf => hnone f ((h.mem_free_iff f).mp hf)
    exact (issue_of_nil hfree).trans (dif_pos hlt)
  · rw [← h.exhausted_iff]
    constructor
    · rintro ⟨f, hf⟩
      obtain ⟨hfree, hgauge, -⟩ := (h.issue_error_iff f).mp hf
      exact ⟨hfree, hgauge⟩
    · rintro ⟨hfree, hgauge⟩
      exact ⟨_, (h.issue_error_iff _).mpr ⟨hfree, hgauge, rfl⟩⟩
  · intro f hf
    obtain ⟨-, hgauge, rfl⟩ := (h.issue_error_iff f).mp hf
    exact ⟨rfl, hgauge, by simp only [Ledger.after, hf]⟩
  · intro i hi
    have hacc := (h.kept.traced.accepts_iff i).mpr (.inl hi)
    exact ⟨by simp [giveBack, hacc], issue_recycle hacc⟩
  · intro i hi hout
    have hnot : l.issuer.accepts i = false := by
      rw [Bool.eq_false_iff]
      exact mt (h.kept.accepts_iff hi).mp hout
    have hrefused : l.issuer.giveBack i = .error (.invalid i) := by simp [giveBack, hnot]
    exact ⟨hrefused, by simp only [Ledger.after, hrefused]⟩
  · have hset : (l.handed.map Ident.index).toFinset = Finset.range l.issuer.gauge := by
      ext n
      rw [List.mem_toFinset, List.mem_map, Finset.mem_range, h.lt_gauge_iff]
    rw [hset, Finset.card_range]
    rfl

/-- After any calls that give back only what was issued, as long as no index has come around, the
issuer reuses its indices. -/
theorem reuses_run (calls : List (Call bits)) (hown : ({} : Ledger bits).Own calls)
    (hb : ∀ n, (Ledger.run calls).returned.count n < mostReturns) : Reuses (Ledger.run calls) := by
  suffices hl : ∀ l : Ledger bits, Stacked l → l.Own calls →
      (∀ n, (calls.foldl Ledger.after l).returned.count n < mostReturns) →
      Stacked (calls.foldl Ledger.after l) from (hl _ .empty hown hb).reuses
  clear hown hb
  induction calls with
  | nil => exact fun _ h _ _ => h
  | cons c calls ih =>
    intro l h hown hb
    refine ih _ (h.after hown.1 fun n => ?_) hown.2 hb
    exact ((Ledger.returned_suffix calls _).sublist.count_le n).trans_lt (hb n)

/-- The two indices of one bit are both issued, which exhausts them. They come back, one of them
twice for all its holder knows, and are reissued, the one that came back last first. -/
theorem reuses_run_exhausted :
    let first (n : Nat) (hn : n < 2) : Ident 1 := ⟨n, .first, hn⟩
    let calls : List (Call 1) := [.issue, .issue, .issue, .giveBack (first 0 (by decide)),
      .giveBack (first 0 (by decide)), .giveBack (first 1 (by decide)), .issue, .issue, .issue]
    Reuses (Ledger.run calls) ∧ (Ledger.run calls).issuer.issue.isOk = false ∧
      (Ledger.run calls).handed.map Ident.text = ["0v2", "1v2", "1v1", "0v1"] := by
  refine ⟨reuses_run _ (by decide) fun n => List.count_le_length.trans_lt (by decide), ?_, ?_⟩
  · decide
  · decide

end EntityStore.Issuer
