import EntityStore.Proofs.Handle.Releases
import EntityStore.Proofs.Lock.Depths
import EntityStore.Proofs.Table.Tenure

/-!
# Records that leave

A record that leaves a table connected to the handles takes with it the handles that it visits, as
far as they are live, and no others; a record that makes way for another one of the same entity takes
none. What a call finds its lock to be makes no difference: either it does not get the contents and
nothing changes, or it does what it would do behind a lock of its own.
-/
namespace EntityStore

namespace Guarded

variable {σ α β : Type} {me : Thread} {s : Guarded σ} {P : σ → Prop}

/-- Whatever the lock is, an operation behind it is not done at all, or is what it does with the
contents. -/
theorem within_cases {body : Op σ α} (hb : Oblivious body) (me : Thread) (s : Guarded σ) :
    (∃ f lock, within me body s = .error f { s with lock }) ∨
      ∃ lock, within me body s = withLock lock (body s) := by
  unfold within
  split
  · next f lock _ => exact .inl ⟨f, lock, rfl⟩
  · next lock hopen =>
    have hpos : 0 < lock.depthOf me := by
      rw [Lock.depthOf_openGuard hopen]
      exact Nat.succ_pos _
    obtain ⟨closed, hclosed, -⟩ := Lock.exists_closeGuard hpos
    rw [hb s lock]
    cases body s with
    | ok a s' => exact .inr ⟨closed, by simp only [withLock, hclosed]⟩
    | error f s' => exact .inr ⟨closed, by simp only [withLock, hclosed]⟩

theorem contents_left_withLock (lock : Lock) (r : EStateM.Result Failure (Guarded σ) α) :
    (left (withLock lock r)).contents = (left r).contents := by
  cases r <;> rfl

/-- What holds of the contents before and after what is done with them holds after all of it. -/
theorem contents_left_within {body : Op σ α} (hb : Oblivious body) (hs : P s.contents)
    (h : P (left (body s)).contents) : P (left (within me body s)).contents := by
  obtain ⟨f, lock, hr⟩ | ⟨lock, hr⟩ := within_cases hb me s
  · rw [hr]
    exact hs
  · rw [hr, contents_left_withLock]
    exact h

/-- Whatever the lock is, the operation leaves the handles alone, and contents of which `P` holds. -/
def Withholds (P : σ → Prop) (op : Op σ α) : Prop :=
  ∀ s : Guarded σ, P s.contents → P (left (op s)).contents ∧ (left (op s)).handles = s.handles

theorem withholds_pure (a : α) : Withholds P (pure a : Op σ α) := fun _ h => ⟨h, rfl⟩

theorem withholds_throw (f : Failure) : Withholds P (throw f : Op σ α) := fun _ h => ⟨h, rfl⟩

theorem withholds_get : Withholds P (get : Op σ (Guarded σ)) := fun _ h => ⟨h, rfl⟩

theorem withholds_note (n : Notice) : Withholds P (note n : Op σ Unit) := fun _ h => ⟨h, rfl⟩

theorem withholds_put {c : σ} (hc : P c) : Withholds P (put c) := fun _ _ => ⟨hc, rfl⟩

theorem Withholds.bind {op : Op σ α} {f : α → Op σ β} (h : Withholds P op)
    (hf : ∀ a, Withholds P (f a)) : Withholds P (op >>= f) := by
  intro s hs
  have hop := h s hs
  show P (left (EStateM.bind op f s)).contents ∧ (left (EStateM.bind op f s)).handles = _
  simp only [EStateM.bind]
  cases hr : op s with
  | error e s' =>
    rw [hr] at hop
    exact hop
  | ok a s' =>
    rw [hr] at hop
    obtain ⟨hcontents, hhandles⟩ := hf a s' hop.1
    exact ⟨hcontents, hhandles.trans hop.2⟩

/-- What is done knowing the contents. -/
theorem withholds_contents?_bind {f : σ → Op σ α} (hf : ∀ c, P c → Withholds P (f c)) :
    Withholds P (contents? >>= f) := fun s hs => hf s.contents hs s hs

theorem Withholds.within {body : Op σ α} (h : Withholds P body) :
    Withholds P (within me body) := by
  intro s hs
  unfold Guarded.within
  split
  · exact ⟨hs, rfl⟩
  · next lock _ =>
    have hbody := h { s with lock } hs
    split
    · next heq =>
      rw [heq] at hbody
      exact hbody
    · next heq =>
      rw [heq] at hbody
      split <;> exact hbody

theorem withholds_beside {body : σ → α × σ} (hb : ∀ c, P c → P (body c).2) :
    Withholds P (beside me body) := by
  intro s hs
  unfold beside
  split
  · exact ⟨hs, rfl⟩
  · dsimp only
    split <;> exact ⟨hb _ hs, rfl⟩

section Departures

variable {κ R : Type} [Record R] {find : σ → κ → Option R} {s' : Guarded σ} {key : κ} {r : R}

/-- What a connected store has lost of its records, and what the handle table has lost with them:
the live handles are those that were live, but for those that records that left visit. -/
structure Settles (P : σ → Prop) (find : σ → κ → Option R) (s s' : Guarded σ) : Prop where
  contents : P s'.contents
  handles : s'.handles.Sound
  gone : ∀ key r, find s.contents key = some r → find s'.contents key = none →
    ∀ id ∈ (Record.owned r).ids, s'.handles.entry? id = none
  kept : ∀ id, (∀ key r, find s.contents key = some r → find s'.contents key = none →
    id ∉ (Record.owned r).ids) → s'.handles.entry? id = s.handles.entry? id

namespace Settles

/-- Everyone who had a record has one. -/
theorem of_kept (hs : s.handles.Sound) (hp : P s'.contents)
    (hkeys : ∀ x, (find s.contents x).isSome = true → (find s'.contents x).isSome = true)
    (hhandles : s'.handles = s.handles) : Settles P find s s' where
  contents := hp
  handles := hhandles ▸ hs
  gone key r hr hnone := by
    have hsome := hkeys key (by rw [hr]; rfl)
    rw [hnone] at hsome
    cases hsome
  kept id _ := by rw [hhandles]

theorem refl (hs : s.handles.Sound) (hp : P s.contents) : Settles P find s s :=
  .of_kept hs hp (fun _ => id) rfl

/-- One record has left, and its handles with it. -/
theorem of_removed (hs : s.handles.Sound) (hp : P s'.contents) (hr : find s.contents key = some r)
    (hnone : find s'.contents key = none)
    (hothers : ∀ x, x ≠ key → (find s.contents x).isSome = true →
      (find s'.contents x).isSome = true)
    (hhandles : s'.handles = s.handles.withoutAll (Record.owned r).ids) : Settles P find s s' where
  contents := hp
  handles := hhandles ▸ hs.withoutAll _
  gone x v hx hleft id hid := by
    have hkey : x = key := by
      by_contra hne
      have hsome := hothers x hne (by rw [hx]; rfl)
      rw [hleft] at hsome
      cases hsome
    rw [hkey, hr] at hx
    cases hx
    rw [hhandles, hs.entry?_withoutAll, if_pos hid]
  kept id hid := by
    rw [hhandles, hs.entry?_withoutAll, if_neg (hid key r hr hnone)]

/-- An operation behind a lock settles as what it does with the contents. -/
theorem within {body : Op σ α} (hb : Oblivious body) (hs : s.handles.Sound) (hp : P s.contents)
    (h : Settles P find s (left (body s))) : Settles P find s (left (within me body s)) := by
  obtain ⟨f, lock, hr⟩ | ⟨lock, hr⟩ := within_cases hb me s
  · rw [hr]
    exact .of_kept hs hp (fun _ => id) rfl
  · rw [hr]
    cases hbody : body s with
    | ok | error =>
      rw [hbody] at h
      exact ⟨h.contents, h.handles, h.gone, h.kept⟩

end Settles

theorem handles_releasing (hc : s.connected = true) (owner : Owner) (r : R) :
    (s.releasing owner r).handles = s.handles.withoutAll (Record.owned r).ids := by
  rw [releasing, if_pos hc]
  exact HandleTable.releaseOwned_snd ..

theorem entry?_releasing (hs : s.handles.Sound) (hc : s.connected = true) (owner : Owner) (r : R)
    (id : HandleId) : (s.releasing owner r).handles.entry? id =
      if id ∈ (Record.owned r).ids then none else s.handles.entry? id := by
  rw [handles_releasing hc, hs.entry?_withoutAll]

end Departures

end Guarded

namespace Table

open Guarded

variable {R α : Type} [Record R] {s : Guarded (Table R)} {me : Thread} {e : Entity}

abbrev lookup (t : Table R) (e : Entity) : Option R := t.rows.get? e

omit [Record R] in
/-- If nobody is evicted, whoever has a record keeps one when a record is placed. -/
theorem Sound.isSome_populated {t : Table R} (h : t.Sound) (hv : ∀ o, t.verdict e ≠ .evict o)
    (r : R) {x : Entity} (hx : (t.rows.get? x).isSome = true) :
    ((t.populated e r).rows.get? x).isSome = true := by
  rw [h.get?_populated]
  cases hverdict : t.verdict e with
  | refuse => exact hx
  | evict o => exact absurd hverdict (hv o)
  | replace | accept =>
    by_cases hxe : x = e
    · simp [hxe]
    · simpa [Function.update_of_ne hxe] using hx

/-- What is done to destroy a record once the table is taken. -/
def discharge (e : Entity) : Op (Table R) R := do
  if (← contents?).rows.contains e then takeOut e
  else fail (.recordNotFound e (Record.tableName R))

theorem oblivious_discharge (e : Entity) : Oblivious (discharge e : Op (Table R) R) := by
  refine oblivious_contents?.bind fun t => ?_
  split
  · exact oblivious_takeOut e
  · exact oblivious_throw _

theorem discharge_of_some (h : s.contents.Sound) {r : R} (hr : s.contents.rows.get? e = some r) :
    discharge e s = .ok r { s.releasing (.entity e) r with contents := s.contents.without e } := by
  rw [discharge, contents?_bind, Packed.contains_eq_isSome h.rows, hr, Option.isSome_some,
    if_pos rfl, takeOut_eq h hr]

theorem discharge_of_none (h : s.contents.Sound) (hr : s.contents.rows.get? e = none) :
    discharge e s = .error (.fault (.recordNotFound e (Record.tableName R))) s := by
  rw [discharge, contents?_bind, Packed.contains_eq_isSome h.rows, hr]
  rfl

theorem contents_left_discharge (h : s.contents.Sound) (e : Entity) :
    (left (discharge e s)).contents = s.contents.without e := by
  cases hr : s.contents.rows.get? e with
  | none => rw [discharge_of_none h hr, h.without_of_none hr]; rfl
  | some r => rw [discharge_of_some h hr]; rfl

section Connected

variable (h : s.contents.Sound) (hs : s.handles.Sound) (hc : s.connected = true)
include h hs hc

/-- A record that is placed takes the handles of the one that it evicts, and of no other. -/
theorem settles_place (e : Entity) (r : R) : Settles Sound lookup s (left (place e r s)) := by
  have hsound := h.populated e r
  cases hv : s.contents.verdict e with
  | refuse o =>
    rw [place_of_refuse hv]
    exact .of_kept hs h (fun _ => id) rfl
  | replace previous =>
    rw [place_of_replace hv]
    exact .of_kept hs hsound (fun _ => h.isSome_populated (by simp [hv]) r) rfl
  | accept =>
    rw [place_of_accept h hv]
    exact .of_kept hs hsound (fun _ => h.isSome_populated (by simp [hv]) r) rfl
  | evict o =>
    have hget := h.get?_populated e r
    have hj := h.judged e
    rw [hv] at hget hj
    simp only at hget
    cases hj with
    | evict hnone hold hi hn =>
      have hne : o ≠ e := fun heq => by
        rw [heq, hnone] at hold
        cases hold
      rw [place_of_evict h hv hold]
      refine .of_removed hs hsound hold ?_ (fun x hx hsome => ?_) ?_
      · show Packed.get? (s.contents.populated e r).rows o = none
        rw [hget, Function.update_of_ne hne, Function.update_self]
      · show (Packed.get? (s.contents.populated e r).rows x).isSome = true
        rw [hget]
        by_cases hxe : x = e
        · simp [hxe]
        · rwa [Function.update_of_ne hxe, Function.update_of_ne hx]
      · exact handles_releasing (s := s.noting _) hc (.entity o) _

theorem settles_populate (e : Entity) (r : R) :
    Settles Sound lookup s (left (populate me e r s)) := by
  cases hvoid : e.isVoid with
  | true =>
    rw [populate_of_void hvoid]
    exact .refl hs h
  | false =>
    unfold populate
    rw [hvoid, if_neg Bool.false_ne_true]
    exact .within (oblivious_place e r) hs h (settles_place h hs hc e r)

theorem settles_destroy (e : Entity) : Settles Sound lookup s (left (destroy me e s)) := by
  show Settles Sound lookup s (left (within me (discharge e) s))
  refine .within (oblivious_discharge e) hs h ?_
  cases hr : s.contents.rows.get? e with
  | none =>
    rw [discharge_of_none h hr]
    exact .refl hs h
  | some r =>
    rw [discharge_of_some h hr]
    refine .of_removed hs (h.without e) hr ?_ (fun x hx hsome => ?_)
      (handles_releasing hc (.entity e) r)
    · show (s.contents.without e).rows.get? e = none
      rw [h.get?_without, Function.update_self]
    · show ((s.contents.without e).rows.get? x).isSome = true
      rwa [h.get?_without, Function.update_of_ne hx]

end Connected

/-- Nobody has lost his record since the table was `t₀`. -/
structure Retains (t₀ t : Table R) : Prop where
  sound : t.Sound
  keeps : Keeps t₀ t

namespace Retains

variable {t₀ t : Table R}

omit [Record R]

theorem of_step {t' : Table R} (h : Retains t₀ t) (hs : t'.Sound) (hk : Keeps t t') :
    Retains t₀ t' := ⟨hs, fun e he => hk e (h.keeps e he)⟩

theorem edit (h : Retains t₀ t) (e : Entity) (f : R → R) : Retains t₀ (t.edit e f) :=
  h.of_step (h.sound.edit e f) (h.sound.keeps_edit e f)

theorem editAll (h : Retains t₀ t) (f : R → R) : Retains t₀ (t.editAll f) :=
  h.of_step (h.sound.editAll f) (h.sound.keeps_editAll f)

theorem sort (h : Retains t₀ t) (le : R → R → Bool) : Retains t₀ (t.sort le) :=
  h.of_step (h.sound.sort le) (h.sound.keeps_sort le)

theorem freeze (h : Retains t₀ t) : Retains t₀ t.freeze.2 := by
  refine h.of_step h.sound.freeze fun e he => ?_
  unfold Table.freeze
  split <;> exact he

/-- Readers that come and go leave the records as they are. -/
theorem of_readers (h : Retains t₀ t) (readers : List Nat) (admitted : Nat) :
    Retains t₀ { t with readers, admitted } :=
  h.of_step ⟨h.sound.rows, h.sound.copy, h.sound.shown, h.sound.unfrozen⟩ fun _ => id

end Retains

variable {t₀ : Table R}

omit [Record R] in
theorem withholds_read (f : Table R → α) : Withholds (Retains t₀) (read me f) :=
  (withholds_contents?_bind fun _ _ => withholds_pure _).within

omit [Record R] in
theorem withholds_change {f : Table R → α × Table R}
    (hf : ∀ t, Retains t₀ t → Retains t₀ (f t).2) : Withholds (Retains t₀) (change me f) :=
  (withholds_contents?_bind fun t ht => (withholds_put (hf t ht)).bind fun _ =>
    withholds_pure _).within

/-- A call that neither places nor destroys a record leaves the handles alone, and takes no record
from anyone. -/
theorem withholds_perform (t₀ : Table R) (me : Thread) {c : Call R} (hp : c.placed? = none)
    (hd : c.destroyed? = none) : Withholds (Retains t₀) (c.perform me) := by
  cases c with
  | sortBy le =>
    exact (withholds_change fun t ht => ht.sort le).bind fun _ => withholds_pure _
  | request q =>
    cases q with
    | populate | destroy | discard => simp [Call.placed?, Call.destroyed?] at hp hd
    | offer e o =>
      cases o with
      | record r => cases hp
      | missing | foreign => exact withholds_throw _
    | find | measure | contains | entities | rows | survey =>
      exact (withholds_read _).bind fun _ => withholds_pure _
    | adjust e g f =>
      exact (withholds_change fun t ht => ht.edit e g).bind fun _ => withholds_pure _
    | count =>
      exact (withholds_read _).bind fun _ => (withholds_read _).bind fun _ => withholds_pure _
    | adjustAll g =>
      exact (withholds_change fun t ht => ht.editAll g).bind fun _ => withholds_pure _
    | sort m f =>
      refine Withholds.bind ?_ fun _ => withholds_pure _
      refine (withholds_contents?_bind fun t ht => ?_).within
      split
      · exact withholds_throw _
      · next t' hsort =>
        unfold sortBy Packed.sortBy at hsort
        split at hsort
        · cases hsort
          exact withholds_put (ht.sort _)
        · cases hsort
    | takeSnapshot =>
      refine Withholds.bind ?_ fun _ => withholds_pure _
      refine (withholds_contents?_bind fun t ht => ?_).within
      dsimp only
      split
      · exact (withholds_put ht.freeze).bind fun _ => withholds_pure _
      · exact (withholds_note _).bind fun _ => (withholds_put ht.freeze).bind fun _ =>
          withholds_pure _
    | snapshotState =>
      exact (withholds_read _).bind fun _ => withholds_contents?_bind fun _ _ => withholds_pure _
    | names => exact withholds_get.bind fun _ => withholds_pure _
    | fields => exact withholds_pure _
    | inspect e g =>
      show Withholds (Retains t₀) (lookAround me e g)
      refine Withholds.within (withholds_contents?_bind fun t ht => ?_)
      exact (withholds_put ((ht.editAll g).edit e g)).bind fun _ => withholds_get.bind fun _ =>
        withholds_pure _
    | nest => exact ((withholds_read _).bind fun _ => withholds_pure _).within
    | admitReader =>
      exact (withholds_beside fun _ ht => ht.of_readers _ _).bind fun _ => withholds_pure _
    | dismissReader reader =>
      refine Withholds.bind ?_ fun _ => withholds_pure _
      exact withholds_contents?_bind fun _ ht => withholds_put (ht.of_readers _ _)
    | readCopy reader e =>
      refine withholds_contents?_bind fun t _ => ?_
      split <;> exact withholds_pure _

/-- Whoever places a record by a call populates, and hears of it what the call tells. -/
theorem perform_of_placed? {c : Call R} {p : Entity × R} (hc : c.placed? = some p) (me : Thread) :
    ∃ f : Option R → Answer R,
      c.perform me = (populate me p.1 p.2 >>= fun a => pure (f a) : Op (Table R) (Answer R)) := by
  cases c with
  | sortBy => cases hc
  | request q =>
    cases q with
    | populate e r =>
      cases hc
      exact ⟨.record, rfl⟩
    | offer e o =>
      cases o with
      | record r =>
        cases hc
        refine ⟨fun _ => .nothing, ?_⟩
        funext s
        show EStateM.bind (EStateM.bind (populate me e r) _) _ s = EStateM.bind _ _ s
        simp only [EStateM.bind]
        cases populate me e r s <;> rfl
      | missing | foreign => cases hc
    | _ => cases hc

theorem perform_of_destroyed? {c : Call R} (hc : c.destroyed? = some e) (me : Thread) :
    ∃ f : R → Answer R,
      c.perform me = (destroy me e >>= fun r => pure (f r) : Op (Table R) (Answer R)) := by
  cases c with
  | sortBy => cases hc
  | request q =>
    cases q with
    | destroy =>
      cases hc
      exact ⟨fun r => .record (some r), rfl⟩
    | discard =>
      cases hc
      exact ⟨fun _ => .nothing, rfl⟩
    | _ => cases hc

/-- Whatever call is made and whatever lock it finds, the handles that go are those of the records
that leave. -/
theorem settles_perform (h : s.contents.Sound) (hs : s.handles.Sound) (hc : s.connected = true)
    (c : Call R) : Settles Sound lookup s (left (c.perform me s)) := by
  cases hp : c.placed? with
  | some p =>
    obtain ⟨f, hf⟩ := perform_of_placed? hp me
    rw [hf, left_bind_pure]
    exact settles_populate h hs hc p.1 p.2
  | none =>
    cases hd : c.destroyed? with
    | some e =>
      obtain ⟨f, hf⟩ := perform_of_destroyed? hd me
      rw [hf, left_bind_pure]
      exact settles_destroy h hs hc e
    | none =>
      obtain ⟨hretains, hhandles⟩ :=
        withholds_perform s.contents me hp hd s ⟨h, fun _ => id⟩
      exact .of_kept hs hretains.sound hretains.keeps hhandles

end Table

end EntityStore
