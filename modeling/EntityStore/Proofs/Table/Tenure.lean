import EntityStore.Proofs.Issuer.Order
import EntityStore.Proofs.Table.Mirror
import EntityStore.Sample
import EntityStore.World.Perform
import Mathlib.Algebra.Group.Nat.Defs

/-!
# Who has the place

Of the entities that share an index the newest that was ever placed there has the record, with what
was last placed for exactly that entity, until a destruction empties the index. Whatever is offered
for an older one is refused, and changes nothing.

Newer is meant numerically here. The order of generations goes by wrapping distance, and is the
numerical one among generations that are not more than half the range apart.
-/
namespace EntityStore

theorem Generation.isNewerThan_iff {g h : Generation} (hg : g.toNat ≤ 2 ^ 31)
    (hh : h.toNat ≤ 2 ^ 31) (hpos : h ≠ unissued) : g.isNewerThan h = true ↔ h.toNat < g.toNat := by
  have hzero : h.toNat ≠ 0 := fun h0 => hpos (congrArg Generation.mk (UInt32.toNat_inj.mp h0))
  rw [isNewerThan_iff_ahead, ahead_eq]
  omega

namespace Packed

variable {K α : Type} [Keyed K] {p : Packed K α}

/-- A sound store has at most one row of an index. -/
theorem Sound.filter_index_eq (h : p.Sound) (i : Nat) :
    (p.toList.filter fun row => Keyed.index row.1 = i) = (p.cell i).toList := by
  have hnodup : (p.toList.filter fun row => Keyed.index row.1 = i).Nodup := by
    apply List.Nodup.filter
    rw [List.nodup_iff_injective_getElem]
    intro s t hst
    have hs : p.rows[s.1]? = some (p.toList[s.1]) := by simp [Packed.toList]
    have ht : p.rows[t.1]? = some (p.toList[t.1]) := by simp [Packed.toList]
    exact Fin.ext (h.slot_unique hs ht (congrArg (fun row => Keyed.index row.1) hst))
  have hperm : (p.toList.filter fun row => Keyed.index row.1 = i).Perm (p.cell i).toList := by
    rw [List.perm_ext_iff_of_nodup hnodup (by cases p.cell i <;> simp)]
    intro row
    simp only [Option.mem_toList, h.cell_eq_some_iff, List.mem_filter, decide_eq_true_eq,
      Packed.toList, Array.mem_toList_iff]
  cases hc : p.cell i with
  | none =>
    rw [hc] at hperm
    exact List.perm_nil.mp hperm
  | some row =>
    rw [hc] at hperm
    exact List.perm_singleton.mp hperm

end Packed

/-- Entities of one index and one generation are one. -/
theorem Entity.eq_of_index_eq {a b : Entity} (hi : Keyed.index a = Keyed.index b)
    (hg : a.generation.toNat = b.generation.toNat) : a = b := by
  obtain ⟨⟨i, ⟨g⟩, hlt⟩⟩ := a
  obtain ⟨⟨j, ⟨g'⟩, hlt'⟩⟩ := b
  obtain rfl : i = j := hi
  obtain rfl : g = g' := UInt32.toNat_inj.mp hg
  rfl

namespace Table

open Guarded

variable {R : Type} {t : Table R} {e o : Entity} {r : R}

def rowsAt (t : Table R) (i : Nat) : List (Entity × R) :=
  t.rows.toList.filter fun row => Keyed.index row.1 = i

theorem Sound.rowsAt_eq (h : t.Sound) (i : Nat) : t.rowsAt i = (t.rows.cell i).toList :=
  h.rows.filter_index_eq i

theorem Sound.rowsAt_of_get? (h : t.Sound) (hr : t.rows.get? e = some r) :
    t.rowsAt (Keyed.index e) = [(e, r)] := by
  rw [h.rowsAt_eq, (Packed.get?_eq_some_iff h.rows).mp hr]
  rfl

theorem Sound.cell_without (h : t.Sound) (hr : t.rows.get? e = some r) :
    (t.without e).rows.cell = Function.update t.rows.cell (Keyed.index e) none := by
  obtain ⟨slot, hs, hrow, -⟩ := h.rows.exists_row hr
  show (t.rows.without e).cell = _
  rw [Packed.without_eq_vacate hrow, Packed.cell_vacate h.rows hs]

theorem Sound.cell_placed (h : t.Sound) (hf : t.rows.isFree e = true) (r : R) :
    (t.placed e r).rows.cell = Function.update t.rows.cell (Keyed.index e) (some (e, r)) :=
  Packed.cell_push h.rows hf r

theorem Sound.cell_replaced {previous : R} (h : t.Sound) (hp : t.rows.get? e = some previous)
    (r : R) : (t.edit e fun _ => r).rows.cell =
      Function.update t.rows.cell (Keyed.index e) (some (e, r)) := by
  have hcell := (Packed.get?_eq_some_iff h.rows).mp hp
  funext i
  rw [Table.edit, h.rows.modify_eq, Packed.cell_mapRows]
  by_cases hi : i = Keyed.index e
  · rw [hi, hcell, Function.update_self]
    simp
  · rw [Function.update_of_ne hi]
    cases hrow : t.rows.cell i with
    | none => rfl
    | some row =>
      have hne : row.1 ≠ e := fun he => hi (by rw [← (h.rows.cell_eq_some_iff.mp hrow).2, he])
      simp [hne]

/-- Unless an entity is refused it has the place of its index. -/
theorem Sound.cell_populated (h : t.Sound) (e : Entity) (r : R)
    (hv : ∀ o, t.verdict e ≠ .refuse o) : (t.populated e r).rows.cell =
      Function.update t.rows.cell (Keyed.index e) (some (e, r)) := by
  have hj := h.judged e
  unfold Table.populated
  cases hverdict : t.verdict e with
  | refuse o => exact absurd hverdict (hv o)
  | replace previous =>
    rw [hverdict] at hj
    cases hj with
    | replace hp => exact h.cell_replaced hp r
  | accept =>
    rw [hverdict] at hj
    cases hj with
    | accept _ hf => exact h.cell_placed hf r
  | evict o =>
    rw [hverdict] at hj
    cases hj with
    | evict _ ho hi =>
      have hf := Packed.isFree_without h.rows ho hi.symm
      rw [(h.without o).cell_placed hf, h.cell_without ho, hi, Function.update_idem]

/-- What a table has at an index, and what has been placed there since it was empty, the latest
first: nothing if nothing was placed for an entity that can have records, otherwise one record, of
the newest entity, with what was placed last for it. -/
inductive Settled (rows : List (Entity × R)) (placings : List (Entity × R)) : Prop
  | vacant (unissued : ∀ p ∈ placings, p.1.isVoid = true) (rows_eq : rows = [])
  | taken (e : Entity) (r : R) (issued : e.isVoid = false)
    (newest : ∀ p ∈ placings, p.1.generation.toNat ≤ e.generation.toNat)
    (latest : placings.find? (·.1 = e) = some (e, r)) (rows_eq : rows = [(e, r)])

namespace Settled

variable {rows placings : List (Entity × R)}

/-- What is placed for an entity that was never issued is refused. -/
theorem void (h : Settled rows placings) (he : e.isVoid = true) (r : R) :
    Settled rows ((e, r) :: placings) := by
  have hzero : e.generation.toNat = 0 :=
    congrArg Generation.toNat (of_decide_eq_true he : e.generation = .unissued)
  cases h with
  | vacant unissued rows_eq =>
    exact .vacant (fun p hp => (List.mem_cons.mp hp).elim (fun h => h ▸ he) (unissued p)) rows_eq
  | taken o ro issued newest latest rows_eq =>
    have hne : e ≠ o := fun heo => by rw [← heo, he] at issued; cases issued
    refine .taken o ro issued (fun p hp => ?_) ?_ rows_eq
    · rcases List.mem_cons.mp hp with rfl | hp
      · exact hzero ▸ Nat.zero_le _
      · exact newest p hp
    · rw [List.find?_cons_of_neg (by simpa using hne), latest]

/-- An entity that is not newer than the one that has the place does not get it. -/
theorem refused {ro : R} (h : Settled [(o, ro)] placings) (hne : e ≠ o)
    (hle : e.generation.toNat ≤ o.generation.toNat) (r : R) :
    Settled [(o, ro)] ((e, r) :: placings) := by
  cases h with
  | vacant _ rows_eq => cases rows_eq
  | taken o' ro' issued newest latest rows_eq =>
    cases rows_eq
    refine .taken o ro issued (fun p hp => ?_) ?_ rfl
    · rcases List.mem_cons.mp hp with rfl | hp
      · exact hle
      · exact newest p hp
    · rw [List.find?_cons_of_neg (by simpa using hne), latest]

/-- An entity that is not older than the one that has the place gets it. -/
theorem won (h : Settled rows placings) (he : e.isVoid = false)
    (hle : ∀ row ∈ rows, row.1.generation.toNat ≤ e.generation.toNat) (r : R) :
    Settled [(e, r)] ((e, r) :: placings) := by
  refine .taken e r he (fun p hp => ?_) (List.find?_cons_of_pos (by simp)) rfl
  rcases List.mem_cons.mp hp with rfl | hp
  · exact le_rfl
  cases h with
  | vacant unissued =>
    have hzero : p.1.generation.toNat = 0 :=
      congrArg Generation.toNat (of_decide_eq_true (unissued p hp) : p.1.generation = .unissued)
    exact hzero ▸ Nat.zero_le _
  | taken o ro _ newest _ rows_eq =>
    exact (newest p hp).trans (hle (o, ro) (rows_eq ▸ List.mem_singleton_self _))

/-- What the table has was placed. -/
theorem mem_placings (h : Settled rows placings) {row : Entity × R} (hrow : row ∈ rows) :
    row ∈ placings ∧ row.1.isVoid = false := by
  cases h with
  | vacant _ rows_eq =>
    rw [rows_eq] at hrow
    cases hrow
  | taken o ro issued _ latest rows_eq =>
    rw [rows_eq, List.mem_singleton] at hrow
    exact hrow ▸ ⟨List.mem_of_find?_eq_some latest, issued⟩

/-- What has the place compares as numbers do. -/
theorem isNewerThan_iff {ro : R} (h : Settled [(o, ro)] placings)
    (hlow : ∀ p ∈ placings, p.1.generation.toNat ≤ 2 ^ 31) (he : e.generation.toNat ≤ 2 ^ 31) :
    e.generation.isNewerThan o.generation = true ↔ o.generation.toNat < e.generation.toNat := by
  obtain ⟨hmem, hissued⟩ := h.mem_placings (List.mem_singleton_self _)
  exact Generation.isNewerThan_iff he (hlow _ hmem) (of_decide_eq_false hissued)

/-- One record is placed, among entities whose generations compare as numbers. -/
theorem populated {placings : List (Entity × R)} (ht : t.Sound) (he : e.isVoid = false)
    (hold : e.generation.toNat ≤ 2 ^ 31) (hlow : ∀ p ∈ placings, p.1.generation.toNat ≤ 2 ^ 31)
    (h : Settled (t.rowsAt (Keyed.index e)) placings) (r : R) :
    Settled ((t.populated e r).rowsAt (Keyed.index e)) ((e, r) :: placings) := by
  have hwon : (∀ o, t.verdict e ≠ .refuse o) →
      (∀ row ∈ t.rowsAt (Keyed.index e), row.1.generation.toNat ≤ e.generation.toNat) →
      Settled ((t.populated e r).rowsAt (Keyed.index e)) ((e, r) :: placings) := by
    intro hv hle
    rw [(ht.populated e r).rowsAt_eq, ht.cell_populated e r hv, Function.update_self]
    exact h.won he hle r
  have hj := ht.judged e
  cases hv : t.verdict e with
  | refuse o =>
    rw [hv] at hj
    cases hj with
    | refuse hnone ho hi hn =>
      have hrows := hi ▸ ht.rowsAt_of_get? ho
      have hsame : t.populated e r = t := by rw [Table.populated, hv]
      rw [hsame, hrows]
      rw [hrows] at h
      refine h.refused (fun heo => ?_) (Nat.le_of_not_lt fun hlt => ?_) r
      · rw [heo, ho] at hnone
        cases hnone
      · rw [(h.isNewerThan_iff hlow hold).mpr hlt] at hn
        cases hn
  | replace previous =>
    rw [hv] at hj
    cases hj with
    | replace hp =>
      apply hwon (fun o => by rw [hv]; simp)
      rw [ht.rowsAt_of_get? hp]
      simp
  | accept =>
    rw [hv] at hj
    cases hj with
    | accept _ hf =>
      apply hwon (fun o => by rw [hv]; simp)
      rw [ht.rowsAt_eq, (Packed.cell_eq_none_iff ht.rows e).mpr hf]
      simp
  | evict o =>
    rw [hv] at hj
    cases hj with
    | evict _ ho hi hn =>
      have hrows := hi ▸ ht.rowsAt_of_get? ho
      apply hwon (fun o => by rw [hv]; simp)
      rw [hrows] at h ⊢
      simpa using ((h.isNewerThan_iff hlow hold).mp hn).le

end Settled

namespace Call

def placed? : Call R → Option (Entity × R)
  | request (.populate e r) | request (.offer e (.record r)) => some (e, r)
  | _ => none

def destroyed? : Call R → Option Entity
  | request (.destroy e) | request (.discard e) => some e
  | _ => none

/-- The call changes no record where it is. -/
def leavesRecords : Call R → Bool
  | request (.adjust ..) | request (.adjustAll _) | request (.inspect ..) => false
  | _ => true

theorem effect_of_placed? {c : Call R} {p : Entity × R} (hc : c.placed? = some p) (t : Table R) :
    c.effect t = if p.1.isVoid then t else t.populated p.1 p.2 := by
  cases c with
  | sortBy => cases hc
  | request q =>
    cases q with
    | populate e r =>
      cases hc
      rfl
    | offer e o =>
      cases o with
      | record r =>
        cases hc
        rfl
      | missing | foreign => cases hc
    | _ => cases hc

theorem effect_of_destroyed? {c : Call R} (hc : c.destroyed? = some e) (t : Table R) :
    c.effect t = t.without e := by
  cases c with
  | sortBy => cases hc
  | request q =>
    cases q with
    | destroy | discard =>
      cases hc
      rfl
    | _ => cases hc

end Call

/-- A call that neither places nor destroys nor changes a record leaves what is at each index. -/
theorem Sound.cell_effect (h : t.Sound) {c : Call R} (hc : c.leavesRecords = true)
    (hp : c.placed? = none) (hd : c.destroyed? = none) : (c.effect t).rows.cell = t.rows.cell := by
  have hsort : ∀ le, (t.sort le).rows.cell = t.rows.cell :=
    fun le => (Packed.reordered_sort h.rows le).cell_eq h.rows
  cases c with
  | sortBy le => exact hsort le
  | request q =>
    cases q with
    | populate | destroy | discard => simp [Call.placed?, Call.destroyed?] at hp hd
    | adjust | adjustAll | inspect => cases hc
    | offer e o =>
      cases o with
      | record => cases hp
      | missing | foreign => rfl
    | sort m f =>
      simp only [Call.effect, Request.effect]
      split
      · exact hsort _
      · rfl
    | takeSnapshot =>
      simp only [Call.effect, Request.effect, Table.freeze]
      split <;> rfl
    | _ => rfl

variable [Record R] {s : Guarded (Table R)} {me : Thread}

/-- A record is destroyed exactly if there is one. -/
theorem Sound.perform_destroyed? (h : s.contents.Sound) (ho : s.lock.Open me)
    (hlent : s.lock.lent = false) {c : Call R} (hc : c.destroyed? = some e) :
    (s.contents.rows.get? e = none ∧ ∃ f, c.perform me s = .error f s) ∨
    ((s.contents.rows.get? e).isSome = true ∧ ∃ a s', c.perform me s = .ok a s') := by
  have hbind : ∀ f : R → Answer R,
      (s.contents.rows.get? e = none ∧
        ∃ failure, (destroy me e >>= fun r => pure (f r)) s = .error failure s) ∨
      ((s.contents.rows.get? e).isSome = true ∧
        ∃ a s', (destroy me e >>= fun r => pure (f r)) s = .ok a s') := by
    intro f
    cases hr : s.contents.rows.get? e with
    | none =>
      refine .inl ⟨rfl, .fault (.recordNotFound e (Record.tableName R)), ?_⟩
      show EStateM.bind _ _ _ = _
      rw [EStateM.bind, destroy_of_none ho hlent h hr]
    | some r => exact .inr ⟨rfl, _, _, bind_of_ok (destroy_eq ho hlent h hr)⟩
  cases c with
  | sortBy => cases hc
  | request q =>
    cases q with
    | destroy e' =>
      cases hc
      exact hbind fun r => .record (some r)
    | discard e' =>
      cases hc
      exact hbind fun _ => .nothing
    | _ => cases hc

/-- Placing a record fails without effect, or gives the record that the entity had. -/
theorem Sound.populate_cases (h : s.contents.Sound) (ho : s.lock.Open me)
    (hlent : s.lock.lent = false) (e : Entity) (r : R) :
    ((e.isVoid = true ∨ ∃ o, s.contents.verdict e = .refuse o) ∧
      ∃ s', populate me e r s = .error (.fault (.invalid e)) s' ∧
        s'.contents = s.contents ∧ s'.handles = s.handles) ∨
    (e.isVoid = false ∧ (∀ o, s.contents.verdict e ≠ .refuse o) ∧
      ∃ s', populate me e r s = .ok (s.contents.rows.get? e) s') := by
  cases hvoid : e.isVoid with
  | true => exact .inl ⟨.inl rfl, s, populate_of_void hvoid, rfl, rfl⟩
  | false =>
    rw [populate_eq_place hvoid ho hlent]
    have hj := h.judged e
    cases hv : s.contents.verdict e with
    | refuse o => exact .inl ⟨.inr ⟨o, rfl⟩, _, place_of_refuse hv, rfl, rfl⟩
    | replace previous =>
      rw [hv] at hj
      cases hj with
      | replace hp => exact .inr ⟨rfl, by simp, _, hp ▸ place_of_replace hv⟩
    | accept =>
      rw [hv] at hj
      cases hj with
      | accept hnone => exact .inr ⟨rfl, by simp, _, hnone ▸ place_of_accept h hv⟩
    | evict o =>
      rw [hv] at hj
      cases hj with
      | evict hnone hold => exact .inr ⟨rfl, by simp, _, hnone ▸ place_of_evict h hv hold⟩

/-- A table in use, with what has been placed at each index since it was last emptied, the latest
first. -/
structure Tenancy (R : Type) where
  state : Guarded (Table R)
  placings : Nat → List (Entity × R) := fun _ => []

namespace Tenancy

def placingsAfter (placings : Nat → List (Entity × R)) (c : Call R) (outcome : Outcome R) :
    Nat → List (Entity × R) :=
  match c.placed?, c.destroyed?, outcome with
  | some p, _, _ =>
    Function.update placings (Keyed.index p.1) (p :: placings (Keyed.index p.1))
  | none, some e, .ok _ _ => Function.update placings (Keyed.index e) []
  | none, _, _ => placings

def step (x : Tenancy R) (c : Thread × Call R) : Tenancy R :=
  ⟨left (c.2.perform c.1 x.state), placingsAfter x.placings c.2 (c.2.perform c.1 x.state)⟩

def start (name : String) (spinLimit : Nat) (handles : HandleTable) (connected : Bool) :
    Tenancy R := ⟨{ lock := { name, spinLimit }, contents := {}, handles, connected }, fun _ => []⟩

def run (x : Tenancy R) (calls : List (Thread × Call R)) : Tenancy R := calls.foldl step x

/-- The call leaves records as they are where they are, and what it places is for an entity of a
generation that compares as a number. -/
def Fair (c : Call R) : Prop :=
  c.leavesRecords = true ∧ ∀ p ∈ c.placed?, p.1.generation.toNat ≤ 2 ^ 31

/-- The table is sound and free, and its places are those of the newest. -/
structure Kept (x : Tenancy R) : Prop where
  sound : x.state.contents.Sound
  free : ∀ me, x.state.lock.Open me
  unlent : x.state.lock.lent = false
  low : ∀ i, ∀ p ∈ x.placings i, p.1.generation.toNat ≤ 2 ^ 31
  settled : ∀ i, Settled (x.state.contents.rowsAt i) (x.placings i)

omit [Record R] in
theorem kept_start (name : String) (spinLimit : Nat) (handles : HandleTable) (connected : Bool) :
    (start name spinLimit handles connected : Tenancy R).Kept :=
  ⟨sound_empty, fun _ => .inr ⟨rfl, rfl, rfl⟩, rfl, fun _ _ hp => (List.not_mem_nil hp).elim,
    fun _ => .vacant (fun _ hp => (List.not_mem_nil hp).elim) rfl⟩

namespace Kept

variable {x : Tenancy R}

/-- What matters of one more call is what becomes of the records of each index. -/
theorem of_step (h : x.Kept) (c : Thread × Call R)
    (hlow : ∀ i, ∀ p ∈ (x.step c).placings i, p.1.generation.toNat ≤ 2 ^ 31)
    (hsettled : ∀ i, Settled ((c.2.effect x.state.contents).rowsAt i) ((x.step c).placings i)) :
    (x.step c).Kept := by
  obtain ⟨hcontents, hlock⟩ := h.sound.left_perform (h.free c.1) h.unlent c.2
  have hstate : (x.step c).state = left (c.2.perform c.1 x.state) := rfl
  refine ⟨?_, ?_, ?_, hlow, ?_⟩
  · rw [hstate, hcontents]
    exact h.sound.call c.2
  · rw [hstate, hlock]
    exact h.free
  · rw [hstate, hlock]
    exact h.unlent
  · rw [hstate, hcontents]
    exact hsettled

theorem step_placed (h : x.Kept) {c : Thread × Call R} {p : Entity × R}
    (hc : c.2.placed? = some p) (hp : p.1.generation.toNat ≤ 2 ^ 31) : (x.step c).Kept := by
  have hplacings : (x.step c).placings =
      Function.update x.placings (Keyed.index p.1) (p :: x.placings (Keyed.index p.1)) := by
    simp only [step, placingsAfter, hc]
  apply h.of_step c
  · intro i q hq
    rw [hplacings, Function.update_apply] at hq
    split at hq
    · rcases List.mem_cons.mp hq with rfl | hq
      · exact hp
      · exact h.low _ q hq
    · exact h.low i q hq
  · intro i
    have hi := h.settled i
    rw [hplacings, Call.effect_of_placed? hc]
    cases hvoid : p.1.isVoid with
    | true =>
      rw [if_pos rfl]
      by_cases hidx : i = Keyed.index p.1
      · subst hidx
        rw [Function.update_self]
        exact hi.void hvoid p.2
      · rwa [Function.update_of_ne hidx]
    | false =>
      rw [if_neg Bool.false_ne_true]
      by_cases hidx : i = Keyed.index p.1
      · subst hidx
        rw [Function.update_self]
        exact hi.populated h.sound hvoid hp (h.low _) p.2
      · rw [Function.update_of_ne hidx]
        have hcell : (x.state.contents.populated p.1 p.2).rows.cell i =
            x.state.contents.rows.cell i := by
          by_cases hv : ∃ o, x.state.contents.verdict p.1 = .refuse o
          · obtain ⟨o, hv⟩ := hv
            rw [Table.populated, hv]
          · rw [h.sound.cell_populated p.1 p.2 (not_exists.mp hv), Function.update_of_ne hidx]
        rwa [(h.sound.populated p.1 p.2).rowsAt_eq, hcell, ← h.sound.rowsAt_eq]

theorem step_destroyed (h : x.Kept) {c : Thread × Call R} {e : Entity}
    (hp : c.2.placed? = none) (hd : c.2.destroyed? = some e) : (x.step c).Kept := by
  have hplaced := h.sound.perform_destroyed? (h.free c.1) h.unlent hd
  rcases hplaced with ⟨hnone, f, hf⟩ | ⟨hsome, a, s, hok⟩
  · have hplacings : (x.step c).placings = x.placings := by
      simp only [step, placingsAfter, hp, hd, hf]
    apply h.of_step c
    · rw [hplacings]
      exact h.low
    · rw [hplacings, Call.effect_of_destroyed? hd, h.sound.without_of_none hnone]
      exact h.settled
  · have hplacings : (x.step c).placings = Function.update x.placings (Keyed.index e) [] := by
      simp only [step, placingsAfter, hp, hd, hok]
    obtain ⟨r, hr⟩ := Option.isSome_iff_exists.mp hsome
    apply h.of_step c
    · intro i q hq
      rw [hplacings, Function.update_apply] at hq
      split at hq
      · cases hq
      · exact h.low i q hq
    · intro i
      rw [hplacings, Call.effect_of_destroyed? hd, (h.sound.without e).rowsAt_eq,
        h.sound.cell_without hr]
      by_cases hidx : i = Keyed.index e
      · subst hidx
        rw [Function.update_self, Function.update_self]
        exact .vacant (fun _ hp => (List.not_mem_nil hp).elim) rfl
      · rw [Function.update_of_ne hidx, Function.update_of_ne hidx, ← h.sound.rowsAt_eq]
        exact h.settled i

theorem step (h : x.Kept) {c : Thread × Call R} (hc : Fair c.2) : (x.step c).Kept := by
  cases hp : c.2.placed? with
  | some p => exact h.step_placed hp (hc.2 p hp)
  | none =>
    cases hd : c.2.destroyed? with
    | some e => exact h.step_destroyed hp hd
    | none =>
      have hplacings : (x.step c).placings = x.placings := by
        simp only [Tenancy.step, placingsAfter, hp, hd]
      apply h.of_step c
      · rw [hplacings]
        exact h.low
      · intro i
        rw [hplacings, (h.sound.call c.2).rowsAt_eq, h.sound.cell_effect hc.1 hp hd,
          ← h.sound.rowsAt_eq]
        exact h.settled i

theorem run (h : x.Kept) {calls : List (Thread × Call R)} (hc : ∀ c ∈ calls, Fair c.2) :
    (x.run calls).Kept := by
  induction calls generalizing x with
  | nil => exact h
  | cons c calls ih =>
    exact ih (h.step (hc c List.mem_cons_self)) fun c' hc' => hc c' (List.mem_cons_of_mem c hc')

end Kept

omit [Record R] in
/-- An entity is refused exactly if a newer one has the place. -/
theorem Kept.refuse_iff {x : Tenancy R} (h : x.Kept) {e : Entity}
    (hlow : e.generation.toNat ≤ 2 ^ 31) : (∃ o, x.state.contents.verdict e = .refuse o) ↔
      ∃ row ∈ x.state.contents.rowsAt (Keyed.index e),
        e.generation.toNat < row.1.generation.toNat := by
  have hsettled := h.settled (Keyed.index e)
  have hj := h.sound.judged e
  cases hv : x.state.contents.verdict e with
  | refuse o =>
    rw [hv] at hj
    cases hj with
    | refuse hnone ho hi hn =>
      have hrows := hi ▸ h.sound.rowsAt_of_get? ho
      rw [hrows] at hsettled
      have hle : ¬o.generation.toNat < e.generation.toNat := fun hlt => by
        rw [(hsettled.isNewerThan_iff (h.low _) hlow).mpr hlt] at hn
        cases hn
      have hne : e.generation.toNat ≠ o.generation.toNat := fun heq => by
        have heo : e = o := Entity.eq_of_index_eq hi.symm heq
        rw [heo, ho] at hnone
        cases hnone
      rw [hrows]
      simp only [List.mem_singleton, exists_eq_left]
      exact ⟨fun _ => by omega, fun _ => ⟨o, rfl⟩⟩
  | replace previous =>
    rw [hv] at hj
    cases hj with
    | replace hp => simp [h.sound.rowsAt_of_get? hp]
  | accept =>
    rw [hv] at hj
    cases hj with
    | accept _ hf =>
      have hnone := (Packed.cell_eq_none_iff h.sound.rows e).mpr hf
      simp [h.sound.rowsAt_eq, hnone]
  | evict o =>
    rw [hv] at hj
    cases hj with
    | evict _ ho hi hn =>
      have hrows := hi ▸ h.sound.rowsAt_of_get? ho
      rw [hrows] at hsettled
      have hlt := (hsettled.isNewerThan_iff (h.low _) hlow).mp hn
      simp [hrows, hlt.le]

section Offers

variable {K : Type} [Schema K] [DecidableEq K] {k : K}

/-- Who has the place at each index, and what becomes of a record placed by anyone. -/
structure Just (x : Tenancy (Schema.Row k)) : Prop where
  settled : ∀ i, Settled (x.state.contents.rowsAt i) (x.placings i)
  /-- Only the entity that has the place of its index has a record. -/
  read_eq : ∀ me e, read me (·.rows.get? e) x.state =
    .ok (((x.state.contents.rowsAt (Keyed.index e)).find? (·.1 = e)).map (·.2)) x.state
  fails_iff : ∀ me e r, e.generation.toNat ≤ 2 ^ 31 →
    ((∃ f s, populate me e r x.state = .error f s) ↔ e.isVoid = true ∨
      ∃ row ∈ x.state.contents.rowsAt (Keyed.index e),
        e.generation.toNat < row.1.generation.toNat)
  /-- What fails changes no record, nothing that readers see, and no handle. -/
  unchanged : ∀ me e r f s, populate me e r x.state = .error f s →
    f = .fault (.invalid e) ∧ s.contents = x.state.contents ∧ s.handles = x.state.handles
  destroy_unchanged : ∀ me e f s, destroy me e x.state = .error f s →
    f = .fault (.recordNotFound e (Schema.tableName k)) ∧ s = x.state
  /-- The record that is replaced is given back, and no other. -/
  returned : ∀ me e r previous s, populate me e r x.state = .ok previous s →
    previous = x.state.contents.rows.get? e
  /-- A value of the type of the records is placed. -/
  offered : ∀ me e r, populateAny me e (Run.offerTo k (some ⟨k, r⟩)) x.state =
    match populate me e r x.state with
    | .ok _ s => .ok () s
    | .error f s => .error f s
  missing : ∀ me e, populateAny me e (Run.offerTo k none) x.state =
    .error (.fault (.invalidData (Schema.tableName k) .missing)) x.state
  /-- A value of another type is not, whatever the name of the tables of its type. -/
  foreign : ∀ me e (k' : K) (r : Schema.Row k'), k' ≠ k →
    populateAny me e (Run.offerTo k (some ⟨k', r⟩)) x.state =
      .error (.fault (.invalidData (Schema.tableName k) .mismatch)) x.state

theorem Kept.just {x : Tenancy (Schema.Row k)} (h : x.Kept) : x.Just where
  settled := h.settled
  read_eq me e := by
    rw [read_eq (h.free me) h.unlent, h.sound.rowsAt_eq, Packed.get?_eq h.sound.rows]
    cases x.state.contents.rows.cell (Keyed.index e) with
    | none => rfl
    | some row => by_cases hrow : row.1 = e <;> simp [Option.filter, hrow]
  fails_iff me e r hlow := by
    rw [← h.refuse_iff hlow]
    rcases h.sound.populate_cases (h.free me) h.unlent e r with
      ⟨hwhy, s, hs, -⟩ | ⟨hvoid, hv, s, hs⟩
    · exact ⟨fun _ => hwhy, fun _ => ⟨_, s, hs⟩⟩
    · constructor
      · rintro ⟨f, s', hs'⟩
        rw [hs] at hs'
        cases hs'
      · rintro (he | ⟨o, ho⟩)
        · rw [hvoid] at he
          cases he
        · exact absurd ho (hv o)
  unchanged me e r f s hs := by
    rcases h.sound.populate_cases (h.free me) h.unlent e r with
      ⟨-, s', hs', hcontents, hhandles⟩ | ⟨-, -, s', hs'⟩
    · cases hs'.symm.trans hs
      exact ⟨rfl, hcontents, hhandles⟩
    · cases hs'.symm.trans hs
  destroy_unchanged me e f s hs := by
    cases hr : x.state.contents.rows.get? e with
    | none =>
      cases (destroy_of_none (h.free me) h.unlent h.sound hr).symm.trans hs
      exact ⟨rfl, rfl⟩
    | some r => cases (destroy_eq (h.free me) h.unlent h.sound hr).symm.trans hs
  returned me e r previous s hs := by
    rcases h.sound.populate_cases (h.free me) h.unlent e r with ⟨-, s', hs', -⟩ | ⟨-, -, s', hs'⟩
    · cases hs'.symm.trans hs
    · cases hs'.symm.trans hs
      rfl
  offered me e r := by
    simp only [Run.offerTo, dif_pos, populateAny]
    show EStateM.bind _ _ _ = _
    rw [EStateM.bind]
    cases populate me e r x.state <;> rfl
  missing me e := rfl
  foreign me e k' r hk := by
    simp only [Run.offerTo, dif_neg hk]
    rfl

/-- Whatever is placed and destroyed in a table, in whatever order, the newest has the place. -/
theorem just_run (name : String) (spinLimit : Nat) (handles : HandleTable) (connected : Bool)
    (calls : List (Thread × Call (Schema.Row k))) (hcalls : ∀ c ∈ calls, Fair c.2) :
    ((start name spinLimit handles connected).run calls).Just :=
  ((kept_start name spinLimit handles connected).run hcalls).just

/-- A newer entity evicts an older one, which does not come back. -/
theorem just_run_evicted :
    let _ := Sample.schema ""
    let older : Entity := ⟨⟨0, ⟨2⟩, by decide⟩⟩
    let newer : Entity := ⟨⟨0, ⟨5⟩, by decide⟩⟩
    let place (e : Entity) (n : Int64) : Thread × Call (Schema.Row Sample.Kind.pos) :=
      (0, .request (.populate e ⟨n, n⟩))
    let calls := [place older 1, place newer 2, place older 3, (1, .request (.destroy older)),
      place newer 4]
    let x := (start "Pos" 0 {} true).run calls
    (∀ c ∈ calls, Fair c.2) ∧ x.Just ∧
      (x.state.contents.rowsAt 0).map (fun row => (row.1, Sample.key .pos row.2)) = [(newer, 4)] ∧
      ∃ f s, populate (R := Schema.Row Sample.Kind.pos) 0 older ⟨5, 5⟩ x.state = .error f s := by
  intro _ older newer place calls x
  have hfair : ∀ c ∈ calls, Fair c.2 := by
    simp only [calls, List.forall_mem_cons, List.not_mem_nil, false_imp_iff, implies_true, and_true]
    exact ⟨⟨rfl, by decide⟩, ⟨rfl, by decide⟩, ⟨rfl, by decide⟩, ⟨rfl, by decide⟩, rfl, by decide⟩
  have hjust : x.Just := just_run "Pos" 0 {} true calls hfair
  have hrows : (x.state.contents.rowsAt 0).map (fun row => (row.1, Sample.key .pos row.2)) =
      [(newer, 4)] := by decide +kernel
  obtain ⟨row, hrow, hnewer⟩ := List.mem_map.mp (hrows ▸ List.mem_singleton_self (newer, (4 : Int64)))
  refine ⟨hfair, hjust, hrows, (hjust.fails_iff 0 older _ (by decide)).mpr (.inr ⟨row, hrow, ?_⟩)⟩
  rw [congrArg Prod.fst hnewer]
  decide

end Offers

end Tenancy

end Table

end EntityStore
