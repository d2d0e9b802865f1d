import EntityStore.Proofs.Issuer.Ledger

/-!
# Giving back in time

An issuer compares generations only, and the generation of a waiting index is already the one that
it will be reissued at. So the identifier that is awaited counts as current before it is issued.
As long as nobody gives such an identifier back, no index waits twice, no identifier is issued
while it is outside, and those outside can be counted; the first one given back too early breaks
all of this.
-/
namespace EntityStore.Issuer

variable {bits : Nat}

/-- No call gives back an identifier that is still awaited. -/
def Timely (calls : List (Call bits)) : Prop :=
  ∀ (n : Nat) (i : Ident bits), calls[n]? = some (.giveBack i) →
    ¬(Ledger.run (calls.take n)).issuer.Awaits i

/-- What the holders of identifiers rely on. -/
structure Orderly (l : Ledger bits) : Prop where
  /-- No index waits twice. -/
  free_nodup : l.issuer.free.Nodup
  /-- No two identifiers outside are equal. -/
  out_nodup : l.out.Nodup
  /-- No index waits while an identifier of it is outside. -/
  apart : ∀ i ∈ l.out, ⟨i.index, i.index_lt⟩ ∉ l.issuer.free
  /-- The identifiers outside can be counted. -/
  outstanding_eq : l.issuer.outstanding = .ok l.out.length

theorem outstanding_eq_ok_iff {m : Issuer bits} {n : Nat} :
    m.outstanding = .ok n ↔ m.free.length + n = m.gauge := by
  unfold outstanding
  split
  · rw [Except.ok.injEq]
    omega
  · simp only [reduceCtorEq, false_iff]
    omega

namespace Orderly

variable {l : Ledger bits} {i : Ident bits}

theorem not_awaits (h : Orderly l) (hi : i ∈ l.out) : ¬l.issuer.Awaits i :=
  fun ha => h.apart i hi ha.1

/-- The index of an identifier that is issued next has none outside. -/
theorem index_ne_of_next? (h : Orderly l) (ht : Traced l) (hi : l.issuer.next? = some i) :
    ∀ j ∈ l.out, j.index ≠ i.index := by
  intro j hj he
  rcases next?_cases hi with ⟨-, hindex, -, -⟩ | ⟨f, free, hfree, hindex, -, -⟩
  · have hlt := ht.lt_gauge (ht.current_of_out j hj)
    omega
  · apply h.apart j hj
    have hjf : ⟨j.index, j.index_lt⟩ = f := Fin.ext (he.trans hindex)
    exact hjf ▸ hfree ▸ List.mem_cons_self

theorem issued (h : Orderly l) (ht : Traced l) (hi : l.issuer.next? = some i) :
    Orderly (l.issued i) := by
  have hcount := outstanding_eq_ok_iff.mp h.outstanding_eq
  rcases next?_cases hi with ⟨hfree, hindex, hgen, hadv⟩ | ⟨f, free, hfree, hindex, hgen, hadv⟩
  · have hnew : ∀ j ∈ l.out, j.index ≠ i.index := by
      intro j hj he
      have hlt := ht.lt_gauge (ht.current_of_out j hj)
      omega
    refine ⟨?_, ?_, ?_, ?_⟩ <;> simp only [Ledger.issued, hadv]
    · exact .nil
    · exact List.nodup_cons.mpr ⟨fun hm => hnew i hm rfl, h.out_nodup⟩
    · simp
    · rw [outstanding_eq_ok_iff]
      simp only [hfree, List.length_nil, List.length_cons] at hcount ⊢
      omega
  · have hf : f ∈ l.issuer.free := hfree ▸ List.mem_cons_self
    have hnd : (f :: free).Nodup := hfree ▸ h.free_nodup
    have hfi : f = ⟨i.index, i.index_lt⟩ := Fin.ext hindex.symm
    refine ⟨?_, ?_, ?_, ?_⟩ <;> simp only [Ledger.issued, hadv]
    · exact (List.nodup_cons.mp hnd).2
    · exact List.nodup_cons.mpr ⟨fun hm => h.apart i hm (hfi ▸ hf), h.out_nodup⟩
    · intro j hj hjf
      rcases List.mem_cons.mp hj with rfl | hj
      · exact (List.nodup_cons.mp hnd).1 (hfi ▸ hjf)
      · exact h.apart j hj (hfree ▸ List.mem_cons_of_mem _ hjf)
    · rw [outstanding_eq_ok_iff]
      simp only [hfree, List.length_cons] at hcount ⊢
      omega

theorem tookBack (h : Orderly l) (ht : Traced l) (hi : i ∈ l.out) : Orderly (l.tookBack i) := by
  have hcount := outstanding_eq_ok_iff.mp h.outstanding_eq
  have herase : l.out.filter (· ≠ i) = l.out.erase i := by
    rw [h.out_nodup.erase_eq_filter]
    exact List.filter_congr fun j _ => by simp [bne, beq_eq_decide]
  refine ⟨?_, ?_, ?_, ?_⟩ <;> simp only [Ledger.tookBack, recycle]
  · exact List.nodup_cons.mpr ⟨h.apart i hi, h.free_nodup⟩
  · exact h.out_nodup.filter _
  · intro j hj hjf
    obtain ⟨ho, hne⟩ := List.mem_filter.mp hj
    rcases List.mem_cons.mp hjf with he | hjf
    · exact of_decide_eq_true hne (ht.eq_of_index_eq ho hi (congrArg Fin.val he))
    · exact h.apart j ho hjf
  · rw [outstanding_eq_ok_iff, herase, List.length_erase_of_mem hi]
    have hpos := List.length_pos_of_mem hi
    simp only [List.length_cons]
    omega

theorem empty : Orderly ({} : Ledger bits) := ⟨.nil, .nil, by simp, rfl⟩

/-- What is taken back in time was outside. -/
theorem after (h : Orderly l) (ht : Traced l) (c : Call bits)
    (hc : ∀ i, c = .giveBack i → ¬l.issuer.Awaits i) : Orderly (l.after c) := by
  cases c with
  | issue =>
    rw [Ledger.after_issue]
    split
    · next i hi => exact h.issued ht hi
    · exact h
  | giveBack i =>
    rw [Ledger.after_giveBack]
    split
    · next hi =>
      exact h.tookBack ht (((ht.accepts_iff i).mp hi).resolve_right (hc i rfl))
    · exact h

end Orderly

/-- An identifier given back too early makes its index wait twice. -/
theorem not_nodup_of_awaits {l : Ledger bits} (ht : Traced l) {i : Ident bits}
    (ha : l.issuer.Awaits i) : ¬(l.after (.giveBack i)).issuer.free.Nodup := by
  rw [Ledger.after_giveBack, if_pos ((ht.accepts_iff i).mpr (.inr ha))]
  simp only [Ledger.tookBack, recycle, List.nodup_cons]
  exact fun hn => hn.1 ha.1

theorem run_take_succ {calls : List (Call bits)} {n : Nat} {c : Call bits}
    (hc : calls[n]? = some c) :
    Ledger.run (calls.take (n + 1)) = (Ledger.run (calls.take n)).after c := by
  rw [List.take_add_one, hc, Option.toList_some, Ledger.run_append_singleton]

theorem timely_iff_orderly (calls : List (Call bits)) :
    Timely calls ↔ ∀ n, Orderly (Ledger.run (calls.take n)) := by
  constructor
  · intro ht n
    induction n with
    | zero => exact .empty
    | succ n ih =>
      cases hc : calls[n]? with
      | none =>
        have hlen : calls.length ≤ n := List.getElem?_eq_none_iff.mp hc
        rw [List.take_of_length_le hlen] at ih
        rwa [List.take_of_length_le (by omega)]
      | some c =>
        rw [run_take_succ hc]
        exact ih.after (traced_run _) c fun i hi => ht n i (hi ▸ hc)
  · intro ho n i hc ha
    apply not_nodup_of_awaits (traced_run _) ha
    rw [← run_take_succ hc]
    exact (ho (n + 1)).free_nodup

/-- After any calls, with identifiers from wherever, an identifier is current, and can be given
back, exactly if it is outside or awaited. The calls are timely exactly if the issuer stays orderly
all along; then an identifier that is current is outside exactly if it is not awaited. -/
theorem current_iff_and_timely_iff (calls : List (Call bits)) :
    (∀ i, (Ledger.run calls).issuer.isCurrent i = true ↔
      i ∈ (Ledger.run calls).out ∨ (Ledger.run calls).issuer.Awaits i) ∧
    (∀ i, (∃ m, (Ledger.run calls).issuer.giveBack i = .ok m) ↔
      i ∈ (Ledger.run calls).out ∨ (Ledger.run calls).issuer.Awaits i) ∧
    (Timely calls ↔ ∀ n, Orderly (Ledger.run (calls.take n))) ∧
    (Timely calls → ∀ i, ((Ledger.run calls).issuer.isCurrent i = true ↔
      i ∈ (Ledger.run calls).out) ↔ ¬(Ledger.run calls).issuer.Awaits i) := by
  have ht := traced_run calls
  refine ⟨ht.isCurrent_iff, fun i => ?_, timely_iff_orderly calls, fun htimely i => ?_⟩
  · rw [← ht.accepts_iff, giveBack]
    split <;> simp_all
  · have ho := (timely_iff_orderly calls).mp htimely calls.length
    rw [List.take_length] at ho
    rw [ht.isCurrent_iff]
    constructor
    · intro hlaw ha
      exact ho.not_awaits (hlaw.mp (.inr ha)) ha
    · intro hna
      exact ⟨fun hor => hor.resolve_right hna, .inl⟩

/-- One index issued and given back: the identifier that it will be reissued as was never issued,
but counts as current. Once it is given back its index waits twice, the count of what is outside
fails, and the next two identifiers are equal. -/
theorem awaited_identifier_accepted :
    let early : Ident 32 := ⟨0, ⟨2⟩, by decide⟩
    let calls : List (Call 32) := [.issue, .giveBack ⟨0, ⟨1⟩, by decide⟩]
    let before := Ledger.run calls
    let after := before.after (.giveBack early)
    early ∉ before.handed ∧ before.issuer.isCurrent early = true ∧
      after.issuer.free.map Fin.val = [0, 0] ∧ after.issuer.outstanding = .error .overdrawn ∧
      ((after.after .issue).after .issue).out = [⟨0, ⟨3⟩, by decide⟩, ⟨0, ⟨3⟩, by decide⟩] := by
  decide

end EntityStore.Issuer
