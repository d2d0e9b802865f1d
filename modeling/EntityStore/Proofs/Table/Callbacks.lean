import EntityStore.NamedTable
import EntityStore.Proofs.Lock.Depths
import EntityStore.Proofs.Table.Effect

/-!
# Calling back

An operation of a table may call back, and what it calls back may use the table again. Every operation
leaves a thread as deep in the lock of the table as it was, if what it calls back does, and a request
for a table that the thread has already does nothing.
-/
namespace EntityStore

open Guarded

variable {α : Type} {me : Thread}

namespace Table

variable {R : Type}

/-! Operations that call back, with callbacks of any kind. -/

section Callbacks

def withRecord (me : Thread) (e : Entity) (f : R → Op (Table R) α) : Op (Table R) (Option α) :=
  within me do
    match (← contents?).rows.get? e with
    | some r => return some (← f r)
    | none => return none

def visit (me : Thread) (rows : Table R → List (Entity × R)) (f : Entity → R → Op (Table R) Unit) :
    Op (Table R) Unit :=
  within me do (rows (← contents?)).forM fun row => f row.1 row.2

/-- How a way of sorting goes about it: it has two records compared, or knows the order of the slots. -/
inductive Comparisons (R : Type)
  | order (slots : Array Nat)
  | compare (a b : R) (next : Bool → Comparisons R)

namespace Comparisons

variable {σ : Type}

/-- The order that is come to by calling back for every comparison. -/
def run (le : R → R → Op σ Bool) : Comparisons R → Op σ (Array Nat)
  | order slots => pure slots
  | compare a b next => do (next (← le a b)).run le

def outcome (le : R → R → Bool) : Comparisons R → Array Nat
  | order slots => slots
  | compare a b next => (next (le a b)).outcome le

theorem run_pure (le : R → R → Bool) (c : Comparisons R) :
    c.run (fun a b => (pure (le a b) : Op σ Bool)) = pure (c.outcome le) := by
  induction c with
  | order slots => rfl
  | compare a b next ih => exact ih (le a b)

theorem restores_run {le : R → R → Op σ Bool} (hle : ∀ a b, Restores me (le a b))
    (c : Comparisons R) : Restores me (c.run le) := by
  induction c with
  | order slots => exact (oblivious_pure slots).restores
  | compare a b next ih => exact (hle a b).bind ih

end Comparisons

def sortWith (me : Thread) (way : List R → Comparisons R) (le : R → R → Op (Table R) Bool) :
    Op (Table R) Unit :=
  within me do
    let slots ← (way (← contents?).rows.values).run le
    let t ← contents?
    put { t with rows := t.rows.rearrange slots }

theorem restores_withRecord (e : Entity) {f : R → Op (Table R) α} (hf : ∀ r, Restores me (f r)) :
    Restores me (withRecord me e f) := by
  refine (oblivious_contents?.restores.bind fun t => ?_).within
  split
  · exact (hf _).bind fun a => (oblivious_pure _).restores
  · exact (oblivious_pure _).restores

theorem restores_visit (rows : Table R → List (Entity × R)) {f : Entity → R → Op (Table R) Unit}
    (hf : ∀ e r, Restores me (f e r)) : Restores me (visit me rows f) := by
  have hrow : ∀ row : Entity × R, Restores me (f row.1 row.2) := fun row => hf row.1 row.2
  exact (oblivious_contents?.restores.bind fun t => .forM hrow (rows t)).within

theorem restores_sortWith (way : List R → Comparisons R) {le : R → R → Op (Table R) Bool}
    (hle : ∀ a b, Restores me (le a b)) : Restores me (sortWith me way le) :=
  (oblivious_contents?.restores.bind fun _ => (Comparisons.restores_run hle _).bind fun _ =>
    (oblivious_contents?.bind fun _ => oblivious_put _).restores).within

variable [Record R]

/-- What is called back only reads a number. -/
theorem serve_measure (e : Entity) (f : R → Int64) : serve me (.measure e f) = (do
    return .number (← withRecord me e fun r => pure (f r)) : Op (Table R) (Answer R)) := by
  have hread : (do return ((← contents?).rows.get? e).map f : Op (Table R) (Option Int64)) = do
      match (← contents?).rows.get? e with
      | some r => return some (← pure (f r))
      | none => return none := by
    funext s
    simp only [contents?_bind]
    cases s.contents.rows.get? e <;> rfl
  simp only [serve, read, withRecord, hread]

omit [Record R] in
/-- What is called back only compares, in a way that is right. -/
theorem sortWith_pure {way : List R → Comparisons R} {le : R → R → Bool}
    (h : ∀ p : Packed Entity R, (way p.values).outcome le = (p.sortedSlots le).toArray) :
    sortWith me way (fun a b => pure (le a b)) = change me fun t => ((), t.sort le) := by
  simp only [sortWith, Comparisons.run_pure, h]
  rfl

end Callbacks

/-! Requests. -/

section Requests

variable [Record R]

/-- Whether a request takes the table from behind its lock. One that is about no entity or offers no
record is answered before, and readers see what they see without the lock, or beside the table. -/
def Request.takes : Request Entity R → Bool
  | .populate e _ | .offer e (.record _) => !e.isVoid
  | .offer _ _ | .names | .fields | .admitReader | .dismissReader _ | .readCopy .. => false
  | _ => true

omit [Record R] in
theorem restores_read (f : Table R → α) : Restores me (read me f) :=
  (oblivious_contents?.bind fun _ => oblivious_pure _).restores.within

omit [Record R] in
theorem restores_change (f : Table R → α × Table R) : Restores me (change me f) :=
  (oblivious_contents?.bind fun _ => (oblivious_put _).bind fun _ => oblivious_pure _).restores.within

theorem restores_populate (e : Entity) (r : R) : Restores me (populate me e r) := by
  unfold populate
  split
  · exact (oblivious_throw _).restores.bind fun _ => (oblivious_place e r).restores.within
  · exact (oblivious_place e r).restores.within

theorem restores_destroy (e : Entity) : Restores me (destroy me e : Op (Table R) R) := by
  refine (oblivious_contents?.bind fun t => ?_).restores.within
  split
  · exact oblivious_takeOut e
  · exact oblivious_throw _

theorem restores_populateAny (e : Entity) (o : Offer R) : Restores me (populateAny me e o) := by
  cases o with
  | missing | foreign => exact (oblivious_throw _).restores
  | record r => exact (restores_populate e r).bind fun _ => (oblivious_pure _).restores

omit [Record R] in
theorem restores_sortRows (m : Measure) (f : R → Int64) : Restores me (sortRows me m f) := by
  refine (oblivious_contents?.bind fun t => ?_).restores.within
  split
  · exact oblivious_throw _
  · exact oblivious_put _

theorem restores_takeSnapshot : Restores me (takeSnapshot me : Op (Table R) Bool) := by
  refine (oblivious_contents?.bind fun t => ?_).restores.within
  dsimp only
  split
  · exact (oblivious_put _).bind fun _ => oblivious_pure _
  · exact (oblivious_note _).bind fun _ => (oblivious_put _).bind fun _ => oblivious_pure _

omit [Record R] in
theorem restores_lookAround (e : Entity) (g : R → R) : Restores me (lookAround me e g) :=
  (oblivious_contents?.restores.bind fun _ => (oblivious_put _).restores.bind fun _ =>
    restores_get.bind fun _ => (oblivious_pure _).restores).within

/-- Every request leaves the thread as deep in the lock as it was. -/
theorem restores_serve (q : Request Entity R) : Restores me (serve me q) := by
  have hpure : ∀ a : Answer R, Restores me (pure a : Op (Table R) (Answer R)) :=
    fun a => (oblivious_pure a).restores
  cases q with
  | populate e r => exact (restores_populate e r).bind fun _ => hpure _
  | offer e o => exact (restores_populateAny e o).bind fun _ => hpure _
  | find | measure | contains | entities | rows | survey =>
    exact (restores_read _).bind fun _ => hpure _
  | adjust | adjustAll => exact (restores_change _).bind fun _ => hpure _
  | destroy e | discard e => exact (restores_destroy e).bind fun _ => hpure _
  | count => exact (restores_read _).bind fun _ => (restores_read _).bind fun _ => hpure _
  | sort m f => exact (restores_sortRows m f).bind fun _ => hpure _
  | takeSnapshot => exact restores_takeSnapshot.bind fun _ => hpure _
  | snapshotState =>
    exact (restores_read _).bind fun _ => oblivious_contents?.restores.bind fun _ => hpure _
  | names => exact restores_get.bind fun _ => hpure _
  | fields => exact hpure _
  | inspect e g => exact restores_lookAround e g
  | nest => exact ((restores_read _).bind fun _ => hpure _).within
  | admitReader => exact (restores_beside _).bind fun _ => hpure _
  | dismissReader reader =>
    exact (oblivious_contents?.bind fun _ => oblivious_put _).restores.bind fun _ => hpure _
  | readCopy reader e =>
    refine oblivious_contents?.restores.bind fun t => ?_
    split <;> exact hpure _

theorem barred_populate {e : Entity} (he : e.isVoid = false) (r : R) :
    Barred me (populate me e r) := by
  unfold populate
  rw [he, if_neg Bool.false_ne_true]
  exact barred_within _

/-- A request for the table itself does nothing as long as the thread has the table. -/
theorem barred_serve {q : Request Entity R} (hq : q.takes = true) : Barred me (serve me q) := by
  cases q with
  | populate e r => exact (barred_populate (Bool.not_eq_true' _ ▸ hq) r).bind _
  | offer e o =>
    cases o with
    | missing | foreign => cases hq
    | record r => exact ((barred_populate (Bool.not_eq_true' _ ▸ hq) r).bind _).bind _
  | names | fields | admitReader | dismissReader | readCopy => cases hq
  | inspect e g =>
    show Barred me (lookAround me e g)
    exact barred_within _
  | nest => exact barred_within _
  | _ => exact (barred_within _).bind _

end Requests

end Table

namespace NamedTable

variable {R : Type}

def withRecord (me : Thread) (name : String) (f : R → Op (NamedTable R) α) :
    Op (NamedTable R) (Option α) :=
  within me do
    match (← contents?).find? name with
    | some r => return some (← f r)
    | none => return none

theorem restores_withRecord (name : String) {f : R → Op (NamedTable R) α}
    (hf : ∀ r, Restores me (f r)) : Restores me (withRecord me name f) := by
  refine (oblivious_contents?.restores.bind fun t => ?_).within
  split
  · exact (hf _).bind fun a => (oblivious_pure _).restores
  · exact (oblivious_pure _).restores

variable [Record R]

/-- What is called back only reads a number. -/
theorem serve_measure (name : String) (f : R → Int64) : serve me (.measure name f) = (do
    return .number (← withRecord me name fun r => pure (f r)) : Op (NamedTable R) (Answer R)) := by
  have hread : (do return ((← contents?).find? name).map f : Op (NamedTable R) (Option Int64)) = do
      match (← contents?).find? name with
      | some r => return some (← pure (f r))
      | none => return none := by
    funext s
    simp only [contents?_bind]
    cases s.contents.find? name <;> rfl
  simp only [serve, read, withRecord, hread]

def Request.takes : Request R → Bool
  | .titles => false
  | _ => true

omit [Record R] in
theorem restores_read (f : NamedTable R → α) : Restores me (read me f) :=
  (oblivious_contents?.bind fun _ => oblivious_pure _).restores.within

/-- Every request leaves the thread as deep in the lock as it was. -/
theorem restores_serve (q : Request R) : Restores me (serve me q) := by
  have hpure : ∀ a : Answer R, Restores me (pure a : Op (NamedTable R) (Answer R)) :=
    fun a => (oblivious_pure a).restores
  cases q with
  | populate name r =>
    exact (oblivious_contents?.bind fun _ => (oblivious_put _).bind fun _ =>
      oblivious_pure _).restores.within.bind fun _ => hpure _
  | find | measure | contains | names => exact (restores_read _).bind fun _ => hpure _
  | adjust name g f =>
    exact (oblivious_contents?.bind fun _ => (oblivious_put _).bind fun _ =>
      oblivious_contents?.bind fun _ => oblivious_pure _).restores.within.bind fun _ => hpure _
  | destroy name =>
    refine Restores.bind ?_ fun _ => hpure _
    refine (oblivious_contents?.bind fun _ => (oblivious_put _).bind fun _ =>
      oblivious_pure _).restores.within.bind fun found => ?_
    split
    · exact ((oblivious_releaseOwned _ _).bind fun _ => oblivious_pure _).restores
    · exact (oblivious_pure _).restores
  | count => exact (restores_read _).bind fun _ => (restores_read _).bind fun _ => hpure _
  | titles => exact restores_get.bind fun _ => hpure _
  | nest name =>
    refine (oblivious_contents?.restores.bind fun t => ?_).within
    split
    · exact (restores_read _).bind fun _ => hpure _
    · exact hpure _

/-- A request for the table itself does nothing as long as the thread has the table. -/
theorem barred_serve {q : Request R} (hq : q.takes = true) : Barred me (serve me q) := by
  cases q with
  | titles => cases hq
  | destroy => exact ((barred_within _).bind _).bind _
  | nest => exact barred_within _
  | _ => exact (barred_within _).bind _

end NamedTable

end EntityStore
