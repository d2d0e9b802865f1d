import EntityStore.Proofs.Lock.Guard
import EntityStore.Proofs.Packed.Rearrange
import EntityStore.Table.Request

/-!
# What calls do to a table

A table is sound if its two stores are and readers see no entity that has no record. For every call
on a sound table behind an open lock it is told what comes of it: which records there are then, what
readers see, and which handles have been released.
-/
namespace EntityStore

namespace Packed

variable {K α : Type} [Keyed K] [DecidableEq K] {p : Packed K α} {k : K} {v : α}

def without (p : Packed K α) (k : K) : Packed K α :=
  match p.erase k with
  | .ok (_, _, q) => q
  | .error _ => p

theorem without_of_get?_eq_none (h : p.Sound) (hk : p.get? k = none) : p.without k = p := by
  simp [without, erase, row?, h.slotOf?_eq_none hk]

theorem without_eq_vacate {slot : Nat} (hrow : p.row? k = some (slot, v)) :
    p.without k = p.vacate k slot := by
  simp [without, erase, hrow]

/-- A row is erased, or there is none to erase. -/
theorem erase_eq (h : p.Sound) (hv : p.get? k = some v) :
    ∃ slot, p.erase k = .ok (slot, v, p.without k) := by
  obtain ⟨slot, -, hrow, -⟩ := h.exists_row hv
  exact ⟨slot, by rw [without_eq_vacate hrow, erase, hrow]⟩

theorem Sound.without (h : p.Sound) (k : K) : (p.without k).Sound := by
  cases hk : p.get? k with
  | none => rwa [without_of_get?_eq_none h hk]
  | some v =>
    obtain ⟨slot, hs, hrow, -⟩ := h.exists_row hk
    rw [without_eq_vacate hrow]
    exact h.vacate hs

theorem get?_without (h : p.Sound) (k : K) :
    (p.without k).get? = Function.update p.get? k none := by
  cases hk : p.get? k with
  | none => rw [without_of_get?_eq_none h hk, ← hk, Function.update_eq_self]
  | some v =>
    obtain ⟨slot, hs, hrow, -⟩ := h.exists_row hk
    rw [without_eq_vacate hrow, get?_vacate h hs]

/-- The index of an erased row is free. -/
theorem isFree_without (h : p.Sound) (hv : p.get? k = some v) {j : K}
    (hj : Keyed.index j = Keyed.index k) : (p.without k).isFree j = true := by
  obtain ⟨slot, hs, hrow, -⟩ := h.exists_row hv
  rw [← cell_eq_none_iff (h.without k), without_eq_vacate hrow, cell_vacate h hs, hj,
    Function.update_self]

omit [DecidableEq K] in
theorem reordered_sort (h : p.Sound) (le : α → α → Bool) : Reordered p (p.sort le) :=
  (rearrange_spec h (isOrder_sortedSlots le)).2.1

end Packed

namespace Table

variable {R α : Type} {t : Table R} {e o : Entity} {r : R}

structure Sound (t : Table R) : Prop where
  rows : t.rows.Sound
  copy : t.copy.Sound
  /-- Readers see no entity that has no record. -/
  shown : ∀ e, (t.copy.get? e).isSome = true → (t.rows.get? e).isSome = true
  unfrozen : t.isFrozen = false → ∀ e, t.copy.get? e = none

theorem sound_empty : ({} : Table R).Sound :=
  ⟨Packed.sound_empty, Packed.sound_empty, fun _ h => h, fun _ _ => rfl⟩

def without (t : Table R) (e : Entity) : Table R :=
  { t with rows := t.rows.without e, copy := t.copy.without e }

/-- The table with one more record, at a free index. -/
def placed (t : Table R) (e : Entity) (r : R) : Table R := { t with rows := t.rows.push e r }

def populated (t : Table R) (e : Entity) (r : R) : Table R :=
  match t.verdict e with
  | .replace _ => t.edit e fun _ => r
  | .refuse _ => t
  | .evict o => (t.without o).placed e r
  | .accept => t.placed e r

namespace Sound

theorem withoutCopy_eq (h : t.Sound) (e : Entity) : t.withoutCopy e = t.copy.without e := by
  unfold withoutCopy
  split
  · rw [Packed.without]
    cases t.copy.erase e <;> rfl
  · next hf =>
    rw [Packed.without_of_get?_eq_none h.copy (h.unfrozen (Bool.eq_false_iff.mpr hf) e)]

theorem remove_eq (h : t.Sound) (hr : t.rows.get? e = some r) :
    t.remove e = .ok (r, t.without e) := by
  obtain ⟨slot, hs⟩ := Packed.erase_eq h.rows hr
  simp only [remove, hs, h.withoutCopy_eq, without]

theorem without (h : t.Sound) (e : Entity) : (t.without e).Sound := by
  refine ⟨h.rows.without e, h.copy.without e, fun x hx => ?_, fun hf x => ?_⟩
  · simp only [Table.without, Packed.get?_without h.rows, Packed.get?_without h.copy] at hx ⊢
    by_cases he : x = e
    · subst he
      simp at hx
    · rw [Function.update_of_ne he] at hx ⊢
      exact h.shown x hx
  · simp only [Table.without, Packed.get?_without h.copy]
    by_cases he : x = e
    · rw [he, Function.update_self]
    · rw [Function.update_of_ne he]
      exact h.unfrozen hf x

theorem insert_eq (hf : t.rows.isFree e = true) : t.insert e r = .ok (t.placed e r) := by
  simp [insert, Packed.insert, hf, placed]

theorem placed (h : t.Sound) (hf : t.rows.isFree e = true) (r : R) : (t.placed e r).Sound := by
  refine ⟨h.rows.push hf r, h.copy, fun x hx => ?_, h.unfrozen⟩
  simp only [Table.placed, Packed.get?_push h.rows hf]
  by_cases he : x = e
  · simp [he]
  · rw [Function.update_of_ne he]
    exact h.shown x hx

theorem get?_edit (h : t.Sound) (e : Entity) (f : R → R) (x : Entity) :
    (t.edit e f).rows.get? x = if x = e then (t.rows.get? x).map f else t.rows.get? x :=
  Packed.get?_modify h.rows e f x

theorem get?_editAll (h : t.Sound) (f : R → R) (x : Entity) :
    (t.editAll f).rows.get? x = (t.rows.get? x).map f := Packed.get?_mapRows h.rows _ x

theorem get?_without (h : t.Sound) (e : Entity) :
    (t.without e).rows.get? = Function.update t.rows.get? e none := Packed.get?_without h.rows e

theorem get?_placed (h : t.Sound) (hf : t.rows.isFree e = true) (r : R) :
    (t.placed e r).rows.get? = Function.update t.rows.get? e (some r) := Packed.get?_push h.rows hf r

theorem get?_sort (h : t.Sound) (le : R → R → Bool) : (t.sort le).rows.get? = t.rows.get? :=
  (Packed.reordered_sort h.rows le).get?_eq h.rows

/-- Other rows under the same keys. -/
theorem of_rows {rows : Packed Entity R} (h : t.Sound) (hs : rows.Sound)
    (hkeys : ∀ x, (t.rows.get? x).isSome = true → (rows.get? x).isSome = true) :
    ({ t with rows } : Table R).Sound :=
  ⟨hs, h.copy, fun x hx => hkeys x (h.shown x hx), h.unfrozen⟩

theorem edit (h : t.Sound) (e : Entity) (f : R → R) : (t.edit e f).Sound := by
  refine h.of_rows (h.rows.modify e f) fun x hx => ?_
  rw [Packed.get?_modify h.rows]
  split <;> simpa using hx

theorem editAll (h : t.Sound) (f : R → R) : (t.editAll f).Sound := by
  refine h.of_rows (h.rows.mapRows _) fun x hx => ?_
  rw [Packed.get?_mapRows h.rows]
  simpa using hx

theorem sort (h : t.Sound) (le : R → R → Bool) : (t.sort le).Sound := by
  have hre := Packed.reordered_sort h.rows le
  exact h.of_rows hre.sound fun x hx => by rwa [hre.get?_eq h.rows]

theorem freeze (h : t.Sound) : t.freeze.2.Sound := by
  unfold Table.freeze
  split
  · exact ⟨h.rows, h.rows, fun _ hx => hx, fun hf => by cases hf⟩
  · exact h

end Sound

/-- What a verdict says about the records of the table. -/
inductive Judged (t : Table R) (e : Entity) : Verdict R → Prop
  | replace {r : R} (h : t.rows.get? e = some r) : Judged t e (.replace r)
  | accept (h : t.rows.get? e = none) (hf : t.rows.isFree e = true) : Judged t e .accept
  /-- Another entity of the same index has a record. -/
  | refuse {o : Entity} {r : R} (h : t.rows.get? e = none) (ho : t.rows.get? o = some r)
      (hi : Keyed.index o = Keyed.index e) (hn : e.generation.isNewerThan o.generation = false) :
    Judged t e (.refuse o)
  | evict {o : Entity} {r : R} (h : t.rows.get? e = none) (ho : t.rows.get? o = some r)
      (hi : Keyed.index o = Keyed.index e) (hn : e.generation.isNewerThan o.generation = true) :
    Judged t e (.evict o)

theorem Sound.judged (h : t.Sound) (e : Entity) : t.Judged e (t.verdict e) := by
  unfold verdict
  cases he : t.rows.get? e with
  | some r => exact .replace he
  | none =>
    simp only [Packed.occupant?_eq]
    cases hc : t.rows.cell (Keyed.index e) with
    | none => exact .accept he ((Packed.cell_eq_none_iff h.rows e).mp hc)
    | some row =>
      have hi := (h.rows.cell_eq_some_iff.mp hc).2
      have ho : t.rows.get? row.1 = some row.2 := by
        rw [Packed.get?_eq_some_iff h.rows, hi, hc]
      simp only [Option.map_some]
      split
      · next hn => exact .evict he ho hi hn
      · next hn => exact .refuse he ho hi (Bool.eq_false_iff.mpr hn)

theorem Sound.populated (h : t.Sound) (e : Entity) (r : R) : (t.populated e r).Sound := by
  unfold Table.populated
  have hj := h.judged e
  cases hv : t.verdict e with
  | replace => exact h.edit e _
  | refuse => exact h
  | accept =>
    rw [hv] at hj
    cases hj with
    | accept _ hf => exact h.placed hf r
  | evict o =>
    rw [hv] at hj
    cases hj with
    | evict _ ho hi => exact (h.without o).placed (Packed.isFree_without h.rows ho hi.symm) r

/-- An older entity that has the place of a newer one is evicted. -/
theorem Sound.verdict_of_newer {o : Entity} {old : R} (h : t.Sound)
    (hold : t.rows.get? o = some old) (hi : Keyed.index o = Keyed.index e)
    (hn : e.generation.isNewerThan o.generation = true) : t.verdict e = .evict o := by
  have hcell := hi ▸ (Packed.get?_eq_some_iff h.rows).mp hold
  have hunique : ∀ o' r', t.rows.get? o' = some r' → Keyed.index o' = Keyed.index e → o' = o :=
    fun o' r' hr' hi' => by
      have hcell' := hi' ▸ (Packed.get?_eq_some_iff h.rows).mp hr'
      rw [hcell] at hcell'
      cases hcell'
      rfl
  have hj := h.judged e
  cases hv : t.verdict e with
  | evict o' =>
    rw [hv] at hj
    cases hj with
    | evict _ ho hi' => rw [hunique _ _ ho hi']
  | refuse o' =>
    rw [hv] at hj
    cases hj with
    | refuse _ ho hi' hn' =>
      rw [hunique _ _ ho hi', hn] at hn'
      cases hn'
  | replace previous =>
    rw [hv] at hj
    cases hj with
    | replace hp =>
      rw [hunique _ _ hp rfl, Generation.isNewerThan_irrefl] at hn
      cases hn
  | accept =>
    rw [hv] at hj
    cases hj with
    | accept _ hf =>
      rw [(Packed.cell_eq_none_iff h.rows e).mpr hf] at hcell
      cases hcell

/-- An entity has its record, unless it was refused, and an older one of its index has lost its
own. -/
theorem Sound.get?_populated (h : t.Sound) (e : Entity) (r : R) :
    (t.populated e r).rows.get? = match t.verdict e with
      | .refuse _ => t.rows.get?
      | .evict o => Function.update (Function.update t.rows.get? o none) e (some r)
      | _ => Function.update t.rows.get? e (some r) := by
  unfold Table.populated
  have hj := h.judged e
  cases hv : t.verdict e with
  | refuse => rfl
  | replace =>
    rw [hv] at hj
    cases hj with
    | replace he =>
      show (t.edit e fun _ => r).rows.get? = Function.update t.rows.get? e (some r)
      ext1 x
      rw [h.get?_edit]
      by_cases hx : x = e
      · rw [if_pos hx, hx, he, Function.update_self]
        rfl
      · rw [if_neg hx, Function.update_of_ne hx]
  | accept =>
    rw [hv] at hj
    cases hj with
    | accept _ hf => exact h.get?_placed hf r
  | evict o =>
    rw [hv] at hj
    cases hj with
    | evict _ ho hi =>
      have hf := Packed.isFree_without h.rows ho hi.symm
      rw [(h.without o).get?_placed hf, h.get?_without]

section Calls

open Guarded

variable [Record R] {s : Guarded (Table R)} {me : Thread}

theorem oblivious_takeOut (e : Entity) : Oblivious (takeOut e : Op (Table R) R) := by
  refine oblivious_contents?.bind fun t => ?_
  dsimp only
  split
  · refine (oblivious_releaseOwned _ _).bind fun _ => oblivious_contents?.bind fun t => ?_
    split
    · exact oblivious_throw _
    · exact (oblivious_put _).bind fun _ => oblivious_pure _
  · refine oblivious_contents?.bind fun t => ?_
    split
    · exact oblivious_throw _
    · exact (oblivious_put _).bind fun _ => oblivious_pure _

/-- A record that leaves has its handles released, and readers do not see it any more. -/
theorem takeOut_eq (h : s.contents.Sound) (hr : s.contents.rows.get? e = some r) :
    takeOut e s = .ok r { s.releasing (.entity e) r with contents := s.contents.without e } := by
  simp only [takeOut, contents?_bind, hr, releaseOwned_bind, contents_releasing, h.remove_eq hr,
    put_bind]
  rfl

/-- The last of placing a record: it goes where there is room for it. -/
def putIn (e : Entity) (r : R) : Op (Table R) (Option R) := do
  match (← contents?).insert e r with
  | .error f => fail f
  | .ok t =>
    put t
    return none

omit [Record R] in
theorem oblivious_putIn (e : Entity) (r : R) : Oblivious (putIn e r : Op (Table R) (Option R)) := by
  refine oblivious_contents?.bind fun t => ?_
  split
  · exact oblivious_throw _
  · exact (oblivious_put _).bind fun _ => oblivious_pure _

omit [Record R] in
theorem putIn_eq (hf : s.contents.rows.isFree e = true) (r : R) :
    putIn e r s = .ok none { s with contents := s.contents.placed e r } := by
  rw [putIn, contents?_bind, Sound.insert_eq hf]
  rfl

/-- What is done to place a record once the table is taken. -/
def place (e : Entity) (r : R) : Op (Table R) (Option R) := do
  match (← contents?).verdict e with
  | .replace previous =>
    put ((← contents?).edit e fun _ => r)
    return some previous
  | .refuse occupant =>
    note (.rejectedStale e (Record.tableName R) occupant)
    fail (.invalid e)
  | .evict occupant =>
    note (.evictedStale occupant (Record.tableName R) e)
    let _ ← takeOut occupant
  | .accept => pure ()
  putIn e r

theorem oblivious_place (e : Entity) (r : R) : Oblivious (place e r) := by
  refine oblivious_contents?.bind fun t => ?_
  dsimp only
  split
  · exact oblivious_contents?.bind fun _ => (oblivious_put _).bind fun _ => oblivious_pure _
  · exact (oblivious_note _).bind fun _ => (oblivious_throw _).bind fun _ => oblivious_putIn e r
  · exact (oblivious_note _).bind fun _ => (oblivious_takeOut _).bind fun _ => oblivious_putIn e r
  · exact oblivious_putIn e r

theorem populate_of_void (h : e.isVoid = true) :
    populate me e r s = .error (.fault (.invalid e)) s := by
  simp only [populate, h, if_true]
  rfl

theorem populate_eq_place (h : e.isVoid = false) (ho : s.lock.Open me)
    (hlent : s.lock.lent = false) : populate me e r s = place e r s := by
  simp only [populate, h, Bool.false_eq_true, if_false]
  exact within_eq (oblivious_place e r) ho hlent

theorem place_of_replace {previous : R} (hv : s.contents.verdict e = .replace previous) :
    place e r s = .ok (some previous) { s with contents := s.contents.populated e r } := by
  simp only [place, contents?_bind, hv, put_bind, populated]
  rfl

theorem place_of_refuse (hv : s.contents.verdict e = .refuse o) :
    place e r s = .error (.fault (.invalid e))
      (s.noting (.rejectedStale e (Record.tableName R) o)) := by
  simp only [place, contents?_bind, hv, note_bind]
  rfl

theorem place_of_accept (h : s.contents.Sound) (hv : s.contents.verdict e = .accept) :
    place e r s = .ok none { s with contents := s.contents.populated e r } := by
  have hj := h.judged e
  rw [hv] at hj
  cases hj with
  | accept _ hf =>
    simp only [place, contents?_bind, hv, populated]
    exact putIn_eq hf r

theorem place_of_evict {old : R} (h : s.contents.Sound) (hv : s.contents.verdict e = .evict o)
    (hold : s.contents.rows.get? o = some old) :
    place e r s = .ok none
      { (s.noting (.evictedStale o (Record.tableName R) e)).releasing (.entity o) old with
        contents := s.contents.populated e r } := by
  have hj := h.judged e
  rw [hv] at hj
  cases hj with
  | evict _ ho hi =>
    have hf := Packed.isFree_without h.rows ho hi.symm
    simp only [place, contents?_bind, hv, note_bind, populated]
    show EStateM.bind (takeOut o) _ _ = _
    simp only [EStateM.bind, takeOut_eq (s := s.noting _) h hold, contents_noting]
    exact putIn_eq hf r

/-- Whatever comes of a record that is offered, the table is what it should be. -/
theorem contents_left_place (h : s.contents.Sound) (e : Entity) (r : R) :
    (left (place e r s)).contents = s.contents.populated e r := by
  have hj := h.judged e
  cases hv : s.contents.verdict e with
  | replace previous => rw [place_of_replace hv]; rfl
  | refuse o =>
    rw [place_of_refuse hv, populated, hv]
    rfl
  | accept => rw [place_of_accept h hv]; rfl
  | evict o =>
    rw [hv] at hj
    cases hj with
    | evict _ ho => rw [place_of_evict h hv ho]; rfl

/-- What has placed a record has placed it. -/
theorem populate_of_ok (h : s.contents.Sound) (ho : s.lock.Open me) {a : Option R} {g : Guarded (Table R)}
    (hok : populate me e r s = .ok a g) : g.contents.rows.get? e = some r := by
  cases hvoid : e.isVoid with
  | true => cases (populate_of_void hvoid).symm.trans hok
  | false =>
    cases hlent : s.lock.lent with
    | true =>
      have herr : populate me e r s = .error (.breach (.nestedGuard s.lock.name)) s := by
        simp only [populate, hvoid, Bool.false_eq_true, if_false]
        exact within_of_lent ho hlent
      cases herr.symm.trans hok
    | false =>
      rw [populate_eq_place hvoid ho hlent] at hok
      have hcontents := contents_left_place h e r
      rw [hok] at hcontents
      show (left (.ok a g)).contents.rows.get? e = some r
      rw [hcontents, h.get?_populated]
      cases hv : s.contents.verdict e with
      | refuse o => cases (place_of_refuse hv).symm.trans hok
      | _ => exact Function.update_self ..

section Taken

variable (ho : s.lock.Open me) (hlent : s.lock.lent = false)

include ho hlent

omit [Record R] in
theorem read_eq (f : Table R → α) : read me f s = .ok (f s.contents) s := by
  rw [read, within_eq (oblivious_contents?.bind fun _ => oblivious_pure _) ho hlent]
  rfl

omit [Record R] in
theorem change_eq (f : Table R → α × Table R) :
    change me f s = .ok (f s.contents).1 { s with contents := (f s.contents).2 } := by
  have hb : Oblivious (contents? >>= fun t : Table R => put (f t).2 >>= fun _ => pure (f t).1) :=
    oblivious_contents?.bind fun _ => (oblivious_put _).bind fun _ => oblivious_pure _
  exact within_eq hb ho hlent

theorem destroy_eq_ite (h : s.contents.Sound) (e : Entity) : destroy me e s =
    if (s.contents.rows.get? e).isSome then takeOut e s
    else .error (.fault (.recordNotFound e (Record.tableName R))) s := by
  have hb : Oblivious (contents? >>= fun t : Table R =>
      if t.rows.contains e then takeOut e else fail (.recordNotFound e (Record.tableName R))) := by
    refine oblivious_contents?.bind fun t => ?_
    split
    · exact oblivious_takeOut e
    · exact oblivious_throw _
  refine (within_eq hb ho hlent).trans ?_
  rw [contents?_bind, ← Packed.contains_eq_isSome h.rows]
  split <;> rfl

/-- A record that is there is destroyed. -/
theorem destroy_eq (h : s.contents.Sound) (hr : s.contents.rows.get? e = some r) :
    destroy me e s =
      .ok r { s.releasing (.entity e) r with contents := s.contents.without e } := by
  rw [destroy_eq_ite ho hlent h, hr]
  exact takeOut_eq h hr

theorem destroy_of_none (h : s.contents.Sound) (hr : s.contents.rows.get? e = none) :
    destroy me e s = .error (.fault (.recordNotFound e (Record.tableName R))) s := by
  rw [destroy_eq_ite ho hlent h, hr]
  rfl

theorem takeSnapshot_eq : ∃ journal, takeSnapshot me s =
    .ok s.contents.readers.isEmpty { s with contents := s.contents.freeze.2, journal } := by
  unfold takeSnapshot
  rw [within_eq ?oblivious ho hlent, ← freeze_fst]
  case oblivious =>
    refine oblivious_contents?.bind fun t => ?_
    dsimp only
    split
    · exact (oblivious_put _).bind fun _ => oblivious_pure _
    · exact (oblivious_note _).bind fun _ => (oblivious_put _).bind fun _ => oblivious_pure _
  simp only [contents?_bind]
  cases hf : s.contents.freeze.1 with
  | true => exact ⟨s.journal, rfl⟩
  | false => exact ⟨_, rfl⟩

omit [Record R] in
theorem left_sortRows (m : Measure) (f : R → Int64) :
    (left (sortRows me m f s)).contents = (if m.compares (s.contents.rows.values.map f) then
      s.contents.sort fun a b => m.le (f a) (f b) else s.contents) ∧
      (left (sortRows me m f s)).lock = s.lock := by
  unfold sortRows
  rw [within_eq ?oblivious ho hlent]
  case oblivious =>
    refine oblivious_contents?.bind fun t => ?_
    split
    · exact oblivious_throw _
    · exact oblivious_put _
  simp only [contents?_bind, sortBy, Packed.sortBy]
  split <;> exact ⟨rfl, rfl⟩

end Taken

def Request.effect (t : Table R) : Request Entity R → Table R
  | .populate e r | .offer e (.record r) => if e.isVoid then t else t.populated e r
  | .adjust e g _ => t.edit e g
  | .destroy e | .discard e => t.without e
  | .adjustAll g => t.editAll g
  | .sort m f =>
    if m.compares (t.rows.values.map f) then t.sort fun a b => m.le (f a) (f b) else t
  | .takeSnapshot => t.freeze.2
  | .inspect e g => (t.editAll g).edit e g
  | .admitReader => t.openReader.2
  | .dismissReader reader => t.closeReader reader
  | _ => t

omit [Record R] in
theorem Sound.without_of_none {t : Table R} (h : t.Sound) (hr : t.rows.get? e = none) :
    t.without e = t := by
  have hcopy : t.copy.get? e = none := by
    by_contra hne
    have := h.shown e (by simpa [Option.isSome_iff_ne_none] using hne)
    simp [hr] at this
  rw [Table.without, Packed.without_of_get?_eq_none h.rows hr,
    Packed.without_of_get?_eq_none h.copy hcopy]

omit [Record R] in
theorem Sound.effect {t : Table R} (h : t.Sound) (q : Request Entity R) : (q.effect t).Sound := by
  cases q with
  | populate e r =>
    simp only [Request.effect]
    split
    · exact h
    · exact h.populated e r
  | offer e o =>
    cases o with
    | record r =>
      simp only [Request.effect]
      split
      · exact h
      · exact h.populated e r
    | missing | foreign => exact h
  | adjust e g f => exact h.edit e g
  | destroy e | discard e => exact h.without e
  | adjustAll g => exact h.editAll g
  | sort m f =>
    simp only [Request.effect]
    split
    · exact h.sort _
    · exact h
  | takeSnapshot => exact h.freeze
  | inspect e g => exact (h.editAll g).edit e g
  | admitReader | dismissReader => exact ⟨h.rows, h.copy, h.shown, h.unfrozen⟩
  | _ => exact h

/-- However a request ends, the table is what the request makes of it, and the lock as before. -/
theorem left_serve (ho : s.lock.Open me) (hlent : s.lock.lent = false) (h : s.contents.Sound)
    (q : Request Entity R) : (left (serve me q s)).contents = q.effect s.contents ∧
      (left (serve me q s)).lock = s.lock := by
  have hpopulate : ∀ e r, (left (populate me e r s)).contents =
      (if e.isVoid then s.contents else s.contents.populated e r) ∧
      (left (populate me e r s)).lock = s.lock := by
    intro e r
    cases hv : e.isVoid with
    | true =>
      rw [populate_of_void hv]
      exact ⟨rfl, rfl⟩
    | false =>
      rw [populate_eq_place hv ho hlent]
      exact ⟨contents_left_place h e r, (oblivious_place e r).lock_left s⟩
  have hdestroy : ∀ e, (left (destroy me e s)).contents = s.contents.without e ∧
      (left (destroy me e s)).lock = s.lock := by
    intro e
    cases hr : s.contents.rows.get? e with
    | none =>
      rw [destroy_of_none ho hlent h hr, h.without_of_none hr]
      exact ⟨rfl, rfl⟩
    | some r =>
      rw [destroy_eq ho hlent h hr]
      exact ⟨rfl, lock_releasing ..⟩
  cases q with
  | populate e r =>
    simp only [serve, left_bind_pure]
    exact hpopulate e r
  | offer e o =>
    simp only [serve]
    rw [left_bind_pure (f := fun _ => Answer.nothing)]
    cases o with
    | missing | foreign => exact ⟨rfl, rfl⟩
    | record r =>
      simp only [populateAny]
      rw [left_bind_pure (f := fun _ => ())]
      exact hpopulate e r
  | destroy e =>
    simp only [serve, left_bind_pure]
    exact hdestroy e
  | discard e =>
    simp only [serve]
    rw [left_bind_pure (f := fun _ => Answer.nothing)]
    exact hdestroy e
  | find | measure | contains | entities | rows | survey =>
    simp only [serve, left_bind_pure, read_eq ho hlent]
    exact ⟨rfl, rfl⟩
  | adjust e g f =>
    simp only [serve, left_bind_pure, change_eq ho hlent]
    exact ⟨rfl, rfl⟩
  | adjustAll g =>
    simp only [serve]
    rw [left_bind_pure (f := fun _ => Answer.nothing), change_eq ho hlent]
    exact ⟨rfl, rfl⟩
  | count =>
    simp only [serve]
    rw [bind_of_ok (read_eq ho hlent _), bind_of_ok (read_eq ho hlent _)]
    exact ⟨rfl, rfl⟩
  | snapshotState =>
    simp only [serve]
    rw [bind_of_ok (read_eq ho hlent _)]
    exact ⟨rfl, rfl⟩
  | sort m f =>
    simp only [serve]
    rw [left_bind_pure (f := fun _ => Answer.nothing)]
    exact left_sortRows ho hlent m f
  | takeSnapshot =>
    obtain ⟨journal, hw⟩ := takeSnapshot_eq ho hlent
    simp only [serve, left_bind_pure, hw]
    exact ⟨rfl, rfl⟩
  | names | fields => exact ⟨rfl, rfl⟩
  | inspect e g =>
    simp only [serve, lookAround]
    rw [within_eq_withLock ho hlent]
    · exact ⟨rfl, rfl⟩
    · rfl
  | nest =>
    -- the inner call finds the table lent out
    have hinner : ∀ f : Nat → Op (Table R) (Answer R), (read me (·.rows.size) >>= f)
        { s with lock := s.lock.entered me true } =
          .error (.breach (.nestedGuard s.lock.name)) { s with lock := s.lock.entered me true } :=
      fun f => by
        show EStateM.bind _ f _ = _
        rw [EStateM.bind, read, within_of_lent (Lock.open_entered true) rfl]
        rfl
    simp only [serve]
    rw [within_eq_withLock ho hlent (by rw [hinner]; rfl), hinner]
    exact ⟨rfl, rfl⟩
  | admitReader =>
    simp only [serve, left_bind_pure, admitReader, beside_eq _ ho]
    exact ⟨rfl, rfl⟩
  | dismissReader reader => exact ⟨rfl, rfl⟩
  | readCopy reader e =>
    simp only [serve, contents?_bind]
    split <;> exact ⟨rfl, rfl⟩

end Calls

end Table

end EntityStore
