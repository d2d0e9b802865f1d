import EntityStore.Issuer
import Mathlib.Data.List.Nodup

/-!
# The ledger of an issuer

The holders of identifiers keep an account beside the issuer: what was issued, what of it has not
been given back since, and which indices came back. Whatever is given back, issued here or not, an
index that was ever issued has its current identifier either outside or next in line to be
reissued.
-/
namespace EntityStore.Issuer

variable {bits : Nat}

inductive Call (bits : Nat)
  | issue
  | giveBack (i : Ident bits)

/-- An issuer with the account of its identifiers. -/
structure Ledger (bits : Nat) where
  issuer : Issuer bits := {}
  /-- Every identifier issued, the newest first. -/
  handed : List (Ident bits) := []
  /-- The identifiers issued and not given back since. One issued twice stands here twice. -/
  out : List (Ident bits) := []
  /-- The index of every identifier taken back. -/
  returned : List Nat := []

/-- The identifier is the one that a waiting index will be reissued as. -/
def Awaits (m : Issuer bits) (i : Ident bits) : Prop :=
  ⟨i.index, i.index_lt⟩ ∈ m.free ∧ m.generations[i.index]? = some i.generation

namespace Ledger

def issued (l : Ledger bits) (i : Ident bits) : Ledger bits :=
  { l with issuer := l.issuer.advance, handed := i :: l.handed, out := i :: l.out }

def tookBack (l : Ledger bits) (i : Ident bits) : Ledger bits :=
  { l with
    issuer := l.issuer.recycle i
    out := l.out.filter (· ≠ i)
    returned := i.index :: l.returned }

/-- The account after a call, which changes nothing if it fails. -/
def after (l : Ledger bits) : Call bits → Ledger bits
  | .issue =>
    match l.issuer.issue with
    | .ok (i, issuer) => { l with issuer, handed := i :: l.handed, out := i :: l.out }
    | .error _ => l
  | .giveBack i =>
    match l.issuer.giveBack i with
    | .ok issuer =>
      { l with issuer, out := l.out.filter (· ≠ i), returned := i.index :: l.returned }
    | .error _ => l

def run (calls : List (Call bits)) : Ledger bits := calls.foldl after {}

theorem after_issue (l : Ledger bits) :
    l.after .issue = match l.issuer.next? with
      | some i => l.issued i
      | none => l := by
  simp only [after, issue]
  cases l.issuer.next? <;> rfl

theorem after_giveBack (l : Ledger bits) (i : Ident bits) :
    l.after (.giveBack i) = if l.issuer.accepts i then l.tookBack i else l := by
  simp only [after, giveBack]
  cases l.issuer.accepts i <;> rfl

theorem run_append_singleton (calls : List (Call bits)) (c : Call bits) :
    run (calls ++ [c]) = (run calls).after c := by
  simp [run]

/-- What holds of a new account and is kept by every call holds after any calls. -/
theorem run_induction {motive : Ledger bits → Prop} (empty : motive {})
    (issued : ∀ l i, motive l → l.issuer.next? = some i → motive (l.issued i))
    (tookBack : ∀ l i, motive l → l.issuer.accepts i = true → motive (l.tookBack i))
    (calls : List (Call bits)) : motive (run calls) := by
  suffices hl : ∀ l, motive l → motive (calls.foldl after l) from hl _ empty
  induction calls with
  | nil => exact fun _ h => h
  | cons c calls ih =>
    intro l h
    refine ih _ ?_
    cases c with
    | issue =>
      rw [after_issue]
      split
      · next i hi => exact issued l i h hi
      · exact h
    | giveBack i =>
      rw [after_giveBack]
      split
      · next hi => exact tookBack l i h hi
      · exact h

end Ledger

theorem ident_ext {i j : Ident bits} (hi : i.index = j.index)
    (hg : i.generation = j.generation) : i = j := by
  cases i
  cases j
  simp_all

theorem accepts_iff {m : Issuer bits} {i : Ident bits} :
    m.accepts i = true ↔ m.generations[i.index]? = some i.generation := by
  simp [accepts]

/-- An index has one current identifier. -/
theorem eq_of_accepts {m : Issuer bits} {i j : Ident bits} (hi : m.accepts i = true)
    (hj : m.accepts j = true) (hij : i.index = j.index) : i = j := by
  rw [accepts_iff, hij, accepts_iff.mp hj] at hi
  exact ident_ext hij (Option.some.inj hi).symm

/-- Issuing takes the index that waits first, or else a fresh one. -/
theorem next?_cases {m : Issuer bits} {i : Ident bits} (h : m.next? = some i) :
    (m.free = [] ∧ i.index = m.gauge ∧ i.generation = .first ∧
      m.advance = ⟨m.gauge + 1, m.generations.push .first, []⟩) ∨
    (∃ f free, m.free = f :: free ∧ i.index = f.val ∧
      i.generation = m.generations.getD f.val .unissued ∧
      m.advance = ⟨m.gauge, m.generations, free⟩) := by
  obtain ⟨gauge, generations, free⟩ := m
  cases free with
  | nil =>
    simp only [next?, recycled?, Ident.ofNat?] at h
    split at h
    · cases h
      exact .inl ⟨rfl, rfl, rfl, rfl⟩
    · cases h
  | cons f free =>
    cases h
    exact .inr ⟨f, free, rfl, rfl, rfl, rfl⟩

/-- Every index issued is at a generation that exists, and the identifier of that generation is
outside or awaited; nothing else outside is current. -/
structure Traced (l : Ledger bits) : Prop where
  size_eq : l.issuer.generations.size = l.issuer.gauge
  free_lt : ∀ f ∈ l.issuer.free, f.val < l.issuer.gauge
  exists_generation : ∀ g ∈ l.issuer.generations, g ≠ .unissued
  current_of_out : ∀ i ∈ l.out, l.issuer.generations[i.index]? = some i.generation
  out_or_waits : ∀ {i : Ident bits}, l.issuer.generations[i.index]? = some i.generation →
    i ∈ l.out ∨ ⟨i.index, i.index_lt⟩ ∈ l.issuer.free

namespace Traced

variable {l : Ledger bits}

theorem lt_gauge (h : Traced l) {n : Nat} {g : Generation}
    (hg : l.issuer.generations[n]? = some g) : n < l.issuer.gauge :=
  h.size_eq ▸ (Array.getElem?_eq_some_iff.mp hg).1

theorem getElem?_of_free (h : Traced l) {f : Fin (indices bits)} (hf : f ∈ l.issuer.free) :
    l.issuer.generations[f.val]? = some (l.issuer.generations.getD f.val .unissued) := by
  have hlt : f.val < l.issuer.generations.size := h.size_eq ▸ h.free_lt f hf
  rw [Array.getD_eq_getD_getElem?, Array.getElem?_eq_getElem hlt]
  rfl

theorem accepts_iff (h : Traced l) (i : Ident bits) :
    l.issuer.accepts i = true ↔ i ∈ l.out ∨ l.issuer.Awaits i := by
  rw [Issuer.accepts_iff]
  constructor
  · intro hc
    exact (h.out_or_waits hc).imp_right fun hf => ⟨hf, hc⟩
  · rintro (ho | ha)
    · exact h.current_of_out i ho
    · exact ha.2

/-- Two identifiers outside that share their index are equal. -/
theorem eq_of_index_eq (h : Traced l) {i j : Ident bits} (hi : i ∈ l.out) (hj : j ∈ l.out)
    (hij : i.index = j.index) : i = j :=
  eq_of_accepts ((h.accepts_iff i).mpr (.inl hi)) ((h.accepts_iff j).mpr (.inl hj)) hij

theorem isCurrent_iff (h : Traced l) (i : Ident bits) :
    l.issuer.isCurrent i = true ↔ i ∈ l.out ∨ l.issuer.Awaits i := by
  rw [← h.accepts_iff, isCurrent, Bool.and_eq_true, and_iff_left_iff_imp]
  intro hc
  have hg := h.exists_generation _ (Array.mem_of_getElem? (Issuer.accepts_iff.mp hc))
  simpa [Ident.isVoid] using hg

theorem issued {i : Ident bits} (h : Traced l) (hi : l.issuer.next? = some i) :
    Traced (l.issued i) := by
  rcases next?_cases hi with ⟨hfree, hindex, hgen, hadv⟩ | ⟨f, free, hfree, hindex, hgen, hadv⟩
  · refine ⟨?_, ?_, ?_, ?_, ?_⟩ <;> simp only [Ledger.issued, hadv]
    · simp [h.size_eq]
    · simp
    · intro g hg
      rcases Array.mem_push.mp hg with hg | rfl
      · exact h.exists_generation g hg
      · decide
    · intro j hj
      rw [Array.getElem?_push]
      rcases List.mem_cons.mp hj with rfl | hj
      · rw [hindex, hgen, if_pos h.size_eq.symm]
      · have hc := h.current_of_out j hj
        have hlt := h.lt_gauge hc
        have hsize := h.size_eq
        rw [if_neg (by omega), hc]
    · intro j hj
      rw [Array.getElem?_push, h.size_eq] at hj
      split at hj
      · next hjg =>
        left
        refine List.mem_cons.mpr (.inl (ident_ext (hjg.trans hindex.symm) ?_))
        rw [hgen, Option.some.inj hj]
      · apply (h.out_or_waits hj).imp (List.mem_cons_of_mem _)
        intro hf
        rw [hfree] at hf
        cases hf
  · refine ⟨?_, ?_, ?_, ?_, ?_⟩ <;> simp only [Ledger.issued, hadv]
    · exact h.size_eq
    · intro f' hf'
      exact h.free_lt f' (hfree ▸ List.mem_cons_of_mem _ hf')
    · exact h.exists_generation
    · intro j hj
      rcases List.mem_cons.mp hj with rfl | hj
      · rw [hindex, hgen]
        exact h.getElem?_of_free (hfree ▸ List.mem_cons_self)
      · exact h.current_of_out j hj
    · intro j hj
      rcases h.out_or_waits hj with ho | hf
      · exact .inl (List.mem_cons_of_mem _ ho)
      · rw [hfree] at hf
        rcases List.mem_cons.mp hf with hjf | hf
        · left
          have hjf : j.index = f.val := congrArg Fin.val hjf
          refine List.mem_cons.mpr (.inl (ident_ext (hjf.trans hindex.symm) ?_))
          rw [hgen, Array.getD_eq_getD_getElem?, ← hjf, hj]
          rfl
        · exact .inr hf

theorem tookBack {i : Ident bits} (h : Traced l) (hi : l.issuer.accepts i = true) :
    Traced (l.tookBack i) := by
  have hc := Issuer.accepts_iff.mp hi
  refine ⟨?_, ?_, ?_, ?_, ?_⟩ <;> simp only [Ledger.tookBack, recycle]
  · simp [h.size_eq]
  · intro f hf
    rcases List.mem_cons.mp hf with rfl | hf
    · exact h.lt_gauge hc
    · exact h.free_lt f hf
  · intro g hg
    rcases Array.mem_or_eq_of_mem_setIfInBounds hg with hg | rfl
    · exact h.exists_generation g hg
    · exact Generation.next_ne_unissued _
  · intro j hj
    obtain ⟨ho, hne⟩ := List.mem_filter.mp hj
    have hcj := h.current_of_out j ho
    have hidx : i.index ≠ j.index := by
      intro he
      exact of_decide_eq_true hne (eq_of_accepts (Issuer.accepts_iff.mpr hcj) hi he.symm)
    rw [Array.getElem?_setIfInBounds_ne hidx, hcj]
  · intro j hj
    rw [Array.getElem?_setIfInBounds] at hj
    split at hj
    · next he =>
      right
      exact List.mem_cons.mpr (.inl (Fin.ext he.symm))
    · next hne =>
      refine (h.out_or_waits hj).imp (fun ho => ?_) (List.mem_cons_of_mem _)
      refine List.mem_filter.mpr ⟨ho, ?_⟩
      simp only [decide_eq_true_eq]
      rintro rfl
      exact hne rfl

theorem empty : Traced ({} : Ledger bits) := ⟨rfl, by simp, by simp, by simp, by simp⟩

end Traced

theorem traced_run (calls : List (Call bits)) : Traced (Ledger.run calls) :=
  Ledger.run_induction .empty (fun _ _ => Traced.issued) (fun _ _ => Traced.tookBack) calls

end EntityStore.Issuer
