import EntityStore.NamedTable
import EntityStore.Proofs.Handle.Releases
import EntityStore.Proofs.Table.Effect

/-!
# Neat operations

Whether it fails or not, a call of a table gives the lock back as it was, changes the handle table
by releasing handles only, and writes only what stores write of themselves. Entities come to have
records by being populated, and in no other way.
-/
namespace EntityStore

namespace Guarded

variable {σ α β : Type} {P : σ → Prop} {me : Thread} {s s' s'' : Guarded σ}

/-- What may have become of a store behind its lock, whose contents satisfy `P` throughout. -/
structure Neat (P : σ → Prop) (s s' : Guarded σ) : Prop where
  lock_eq : s'.lock = s.lock
  connected_eq : s'.connected = s.connected
  handles_eq : ∃ ids, s'.handles = s.handles.withoutAll ids
  journal_eq : ∃ ns : Array Notice, s'.journal = s.journal ++ ns ∧ ∀ n ∈ ns, n.isLocal = true
  contents : P s'.contents

theorem Neat.refl (h : P s.contents) : Neat P s s := ⟨rfl, rfl, ⟨[], rfl⟩, ⟨#[], by simp⟩, h⟩

theorem Neat.trans (h : Neat P s s') (h' : Neat P s' s'') : Neat P s s'' := by
  obtain ⟨ids, hids⟩ := h.handles_eq
  obtain ⟨ids', hids'⟩ := h'.handles_eq
  obtain ⟨ns, hns, hlocal⟩ := h.journal_eq
  obtain ⟨ns', hns', hlocal'⟩ := h'.journal_eq
  refine ⟨h'.lock_eq.trans h.lock_eq, h'.connected_eq.trans h.connected_eq, ⟨ids ++ ids', ?_⟩,
    ⟨ns ++ ns', ?_, fun n hn => ?_⟩, h'.contents⟩
  · rw [hids', hids, HandleTable.withoutAll_append]
  · rw [hns', hns, Array.append_assoc]
  · exact (Array.mem_append.mp hn).elim (hlocal n) (hlocal' n)

/-- The same behind another lock. -/
theorem Neat.withLock {lock lock' : Lock} (h : Neat P { s with lock } s') (hlock : s.lock = lock') :
    Neat P s { s' with lock := lock' } :=
  ⟨hlock.symm, h.connected_eq, h.handles_eq, h.journal_eq, h.contents⟩

/-- From any store whose lock the thread can enter, the operation goes neatly. -/
def IsNeat (P : σ → Prop) (me : Thread) (op : Op σ α) : Prop :=
  ∀ s : Guarded σ, s.lock.Open me → P s.contents → Neat P s (left (op s))

theorem neat_pure (a : α) : IsNeat P me (pure a : Op σ α) := fun _ _ h => .refl h

theorem neat_throw (f : Failure) : IsNeat P me (throw f : Op σ α) := fun _ _ h => .refl h

theorem neat_get : IsNeat P me (get : Op σ (Guarded σ)) := fun _ _ h => .refl h

theorem neat_put {c : σ} (hc : P c) : IsNeat P me (put c) :=
  fun _ _ _ => ⟨rfl, rfl, ⟨[], rfl⟩, ⟨#[], by simp [put, left]; rfl, by simp⟩, hc⟩

theorem neat_note {n : Notice} (hn : n.isLocal = true) : IsNeat P me (note n : Op σ Unit) :=
  fun _ _ h => ⟨rfl, rfl, ⟨[], rfl⟩, ⟨#[n], rfl, by simpa using hn⟩, h⟩

theorem neat_releaseOwned {R : Type} [Record R] (owner : Owner) (r : R) :
    IsNeat P me (releaseOwned owner r : Op σ Unit) := by
  intro s _ h
  show Neat P s (s.releasing owner r)
  unfold releasing
  split
  · exact ⟨rfl, rfl, ⟨_, HandleTable.releaseOwned_snd ..⟩,
      ⟨_, rfl, fun n hn => HandleTable.isLocal_releaseOwned _ _ _ _ n (by simpa using hn)⟩, h⟩
  · exact .refl h

theorem IsNeat.bind {op : Op σ α} {f : α → Op σ β} (h : IsNeat P me op)
    (hf : ∀ a, IsNeat P me (f a)) : IsNeat P me (op >>= f) := by
  intro s ho hp
  have hop := h s ho hp
  show Neat P s (left (EStateM.bind op f s))
  simp only [EStateM.bind]
  cases hr : op s with
  | error e s' =>
    rw [hr] at hop
    exact hop
  | ok a s' =>
    rw [hr] at hop
    have hlock : s'.lock = s.lock := hop.lock_eq
    exact hop.trans (hf a s' (hlock ▸ ho) hop.contents)

/-- What is done knowing the contents. -/
theorem neat_contents?_bind {f : σ → Op σ α} (hf : ∀ c, P c → IsNeat P me (f c)) :
    IsNeat P me (contents? >>= f) := fun s ho hp => hf s.contents hp s ho hp

theorem IsNeat.within {body : Op σ α} (h : IsNeat P me body) : IsNeat P me (within me body) := by
  intro s ho hp
  cases hlent : s.lock.lent with
  | true =>
    rw [within_of_lent ho hlent]
    exact .refl hp
  | false =>
    have hbody := h { s with lock := s.lock.entered me true } (Lock.open_entered true) hp
    rw [within_eq_withLock ho hlent hbody.lock_eq]
    have hleft : left (Guarded.withLock s.lock (body { s with lock := s.lock.entered me true })) =
        { left (body { s with lock := s.lock.entered me true }) with lock := s.lock } := by
      cases body { s with lock := s.lock.entered me true } <;> rfl
    rw [hleft]
    exact hbody.withLock rfl

theorem neat_beside {body : σ → α × σ} (hb : ∀ c, P c → P (body c).2) :
    IsNeat P me (beside me body) := by
  intro s ho hp
  rw [beside_eq body ho]
  exact ⟨rfl, rfl, ⟨[], rfl⟩, ⟨#[], by simp [left], by simp⟩, hb _ hp⟩

end Guarded

namespace Table

variable {R α : Type} {A : Entity → Prop} {t t' : Table R} {e : Entity} {r : R}

structure Within (A : Entity → Prop) (t : Table R) : Prop where
  sound : t.Sound
  allowed : ∀ e, (t.rows.get? e).isSome = true → A e

namespace Within

theorem empty : ({} : Table R).Within A := ⟨sound_empty, fun _ h => by cases h⟩

/-- No entity comes to have a record. -/
theorem of_keys (h : t.Within A) (hs : t'.Sound)
    (hkeys : ∀ e, (t'.rows.get? e).isSome = true → (t.rows.get? e).isSome = true) : t'.Within A :=
  ⟨hs, fun e he => h.allowed e (hkeys e he)⟩

theorem without (h : t.Within A) (e : Entity) : (t.without e).Within A := by
  refine h.of_keys (h.sound.without e) fun x hx => ?_
  rw [h.sound.get?_without, Function.update_apply] at hx
  split at hx
  · cases hx
  · exact hx

theorem edit (h : t.Within A) (e : Entity) (f : R → R) : (t.edit e f).Within A := by
  refine h.of_keys (h.sound.edit e f) fun x hx => ?_
  rw [h.sound.get?_edit] at hx
  split at hx <;> simpa using hx

theorem editAll (h : t.Within A) (f : R → R) : (t.editAll f).Within A := by
  refine h.of_keys (h.sound.editAll f) fun x hx => ?_
  rw [h.sound.get?_editAll] at hx
  simpa using hx

theorem sort (h : t.Within A) (le : R → R → Bool) : (t.sort le).Within A := by
  refine h.of_keys (h.sound.sort le) fun x hx => ?_
  rwa [h.sound.get?_sort] at hx

theorem freeze (h : t.Within A) : t.freeze.2.Within A := by
  refine h.of_keys h.sound.freeze fun x hx => ?_
  unfold Table.freeze at hx
  split at hx <;> exact hx

/-- Readers that come and go leave the records as they are. -/
theorem of_readers (h : t.Within A) (readers : List Nat) (admitted : Nat) :
    ({ t with readers, admitted } : Table R).Within A :=
  ⟨⟨h.sound.rows, h.sound.copy, h.sound.shown, h.sound.unfrozen⟩, h.allowed⟩

theorem placed (h : t.Within A) (hf : t.rows.isFree e = true) (he : A e) (r : R) :
    (t.placed e r).Within A := by
  refine ⟨h.sound.placed hf r, fun x hx => ?_⟩
  rw [h.sound.get?_placed hf, Function.update_apply] at hx
  split at hx
  · next hxe => exact hxe ▸ he
  · exact h.allowed x hx

theorem of_remove (h : t.Within A) (hr : t.remove e = .ok (r, t')) : t'.Within A := by
  cases hv : t.rows.get? e with
  | none =>
    rw [remove, Packed.erase, Packed.row?, h.sound.rows.slotOf?_eq_none hv] at hr
    cases hr
  | some v =>
    rw [h.sound.remove_eq hv] at hr
    cases hr
    exact h.without e

theorem of_insert (h : t.Within A) (he : A e) (hr : t.insert e r = .ok t') : t'.Within A := by
  cases hf : t.rows.isFree e with
  | true =>
    rw [Sound.insert_eq hf] at hr
    cases hr
    exact h.placed hf he r
  | false =>
    simp only [insert, Packed.insert, hf, Bool.false_eq_true, if_false] at hr
    cases hr

theorem of_sortBy (h : t.Within A) {m : Measure} {f : R → Int64} (hr : t.sortBy m f = .ok t') :
    t'.Within A := by
  unfold sortBy Packed.sortBy at hr
  split at hr
  · cases hr
    exact h.sort _
  · cases hr

end Within

def Request.places? {E R : Type} : Request E R → Option E
  | .populate e _ | .offer e (.record _) => some e
  | _ => none

section Calls

open Guarded

variable [Record R] {me : Thread}

theorem neat_takeOut (e : Entity) : IsNeat (Within A) me (takeOut e : Op (Table R) R) := by
  refine neat_contents?_bind fun t _ => ?_
  dsimp only
  split
  · refine (neat_releaseOwned _ _).bind fun _ => neat_contents?_bind fun t ht => ?_
    split
    · exact neat_throw _
    · next hr => exact (neat_put (ht.of_remove hr)).bind fun _ => neat_pure _
  · refine neat_contents?_bind fun t ht => ?_
    split
    · exact neat_throw _
    · next hr => exact (neat_put (ht.of_remove hr)).bind fun _ => neat_pure _

omit [Record R] in
theorem neat_putIn (he : A e) (r : R) : IsNeat (Within A) me (putIn e r) := by
  refine neat_contents?_bind fun t ht => ?_
  split
  · exact neat_throw _
  · next hr => exact (neat_put (ht.of_insert he hr)).bind fun _ => neat_pure _

theorem neat_place (he : A e) (r : R) : IsNeat (Within A) me (place e r) := by
  refine neat_contents?_bind fun t _ => ?_
  dsimp only
  split
  · exact neat_contents?_bind fun t ht => (neat_put (ht.edit e _)).bind fun _ => neat_pure _
  · exact (neat_note rfl).bind fun _ => (neat_throw _).bind fun _ => neat_putIn he r
  · exact (neat_note rfl).bind fun _ => (neat_takeOut _).bind fun _ => neat_putIn he r
  · exact neat_putIn he r

theorem neat_populate (he : A e) (r : R) : IsNeat (Within A) me (populate me e r) := by
  unfold populate
  split
  · exact (neat_throw _).bind fun _ => (neat_place he r).within
  · exact (neat_place he r).within

theorem neat_populateAny {o : Offer R} (he : ∀ r, o = .record r → A e) :
    IsNeat (Within A) me (populateAny me e o) := by
  cases o with
  | missing | foreign => exact neat_throw _
  | record r => exact (neat_populate (he r rfl) r).bind fun _ => neat_pure _

omit [Record R] in
theorem neat_read (f : Table R → α) : IsNeat (Within A) me (read me f) :=
  (neat_contents?_bind fun _ _ => neat_pure _).within

omit [Record R] in
theorem neat_change {f : Table R → α × Table R} (hf : ∀ t, t.Within A → (f t).2.Within A) :
    IsNeat (Within A) me (change me f) :=
  (neat_contents?_bind fun t ht => (neat_put (hf t ht)).bind fun _ => neat_pure _).within

theorem neat_destroy (e : Entity) : IsNeat (Within A) me (destroy me e : Op (Table R) R) := by
  refine (neat_contents?_bind fun t _ => ?_).within
  split
  · exact neat_takeOut e
  · exact neat_throw _

omit [Record R] in
theorem neat_admitReader : IsNeat (Within A) me (admitReader me : Op (Table R) Nat) :=
  neat_beside fun _ ht => ht.of_readers _ _

omit [Record R] in
theorem neat_dismissReader (reader : Nat) :
    IsNeat (Within A) me (dismissReader reader : Op (Table R) Unit) :=
  neat_contents?_bind fun _ ht => neat_put (ht.of_readers _ _)

omit [Record R] in
theorem neat_sortRows (m : Measure) (f : R → Int64) : IsNeat (Within A) me (sortRows me m f) := by
  refine (neat_contents?_bind fun t ht => ?_).within
  split
  · exact neat_throw _
  · next hr => exact neat_put (ht.of_sortBy hr)

theorem neat_takeSnapshot : IsNeat (Within A) me (takeSnapshot me : Op (Table R) Bool) := by
  refine (neat_contents?_bind fun t ht => ?_).within
  dsimp only
  split
  · exact (neat_put ht.freeze).bind fun _ => neat_pure _
  · exact (neat_note rfl).bind fun _ => (neat_put ht.freeze).bind fun _ => neat_pure _

/-- However a request ends, it goes neatly, and only the entity that it places a record for may come
to have one. -/
theorem neat_serve (q : Request Entity R) (hq : ∀ e, q.places? = some e → A e) :
    IsNeat (Within A) me (serve me q) := by
  cases q with
  | populate e r => exact (neat_populate (hq e rfl) r).bind fun _ => neat_pure _
  | offer e o =>
    exact (neat_populateAny fun r hr => hq e (by rw [hr]; rfl)).bind fun _ => neat_pure _
  | find | measure | contains | entities | rows | survey =>
    exact (neat_read _).bind fun _ => neat_pure _
  | adjust e g f => exact (neat_change fun t ht => ht.edit e g).bind fun _ => neat_pure _
  | destroy e | discard e => exact (neat_destroy e).bind fun _ => neat_pure _
  | count => exact (neat_read _).bind fun _ => (neat_read _).bind fun _ => neat_pure _
  | adjustAll g => exact (neat_change fun t ht => ht.editAll g).bind fun _ => neat_pure _
  | sort m f => exact (neat_sortRows m f).bind fun _ => neat_pure _
  | takeSnapshot => exact neat_takeSnapshot.bind fun _ => neat_pure _
  | snapshotState =>
    exact (neat_read _).bind fun _ => neat_contents?_bind fun _ _ => neat_pure _
  | names => exact neat_get.bind fun _ => neat_pure _
  | fields => exact neat_pure _
  | inspect e g =>
    show IsNeat (Within A) me (lookAround me e g)
    refine IsNeat.within (neat_contents?_bind fun t ht => ?_)
    exact (neat_put ((ht.editAll g).edit e g)).bind fun _ => neat_get.bind fun _ => neat_pure _
  | nest => exact ((neat_read _).bind fun _ => neat_pure _).within
  | admitReader => exact neat_admitReader.bind fun _ => neat_pure _
  | dismissReader reader => exact (neat_dismissReader reader).bind fun _ => neat_pure _
  | readCopy reader e =>
    refine neat_contents?_bind fun t _ => ?_
    split <;> exact neat_pure _

end Calls

end Table

namespace NamedTable

open Guarded

variable {R α : Type} [Record R] {me : Thread} {P : NamedTable R → Prop}

omit [Record R] in
theorem neat_read (f : NamedTable R → α) : IsNeat P me (read me f) :=
  (neat_contents?_bind fun _ _ => neat_pure _).within

/-- However a request ends, it goes neatly. -/
theorem neat_serve (q : Request R) : IsNeat (fun _ => True) me (serve me q) := by
  have hput : ∀ {β : Type} {c : NamedTable R} {f : Unit → Op (NamedTable R) β},
      (∀ u, IsNeat (fun _ => True) me (f u)) → IsNeat (fun _ => True) me (put c >>= f) :=
    fun hf => (neat_put trivial).bind hf
  cases q with
  | populate name r =>
    exact (neat_contents?_bind fun _ _ => hput fun _ => neat_pure _).within.bind fun _ =>
      neat_pure _
  | find | measure | contains | names => exact (neat_read _).bind fun _ => neat_pure _
  | adjust name g f =>
    have hbody : IsNeat (fun _ => True) me (adjust me name g f) :=
      (neat_contents?_bind fun _ _ => hput fun _ =>
        neat_contents?_bind fun _ _ => neat_pure _).within
    exact hbody.bind fun _ => neat_pure _
  | destroy name =>
    refine IsNeat.bind ?_ fun _ => neat_pure _
    refine (neat_contents?_bind fun _ _ => hput fun _ => neat_pure _).within.bind fun found => ?_
    split
    · exact (neat_releaseOwned _ _).bind fun _ => neat_pure _
    · exact neat_pure _
  | count => exact (neat_read _).bind fun _ => (neat_read _).bind fun _ => neat_pure _
  | titles => exact neat_get.bind fun _ => neat_pure _
  | nest name =>
    refine (neat_contents?_bind fun t _ => ?_).within
    split
    · exact (neat_read _).bind fun _ => neat_pure _
    · exact neat_pure _

end NamedTable

end EntityStore
