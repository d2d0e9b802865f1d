import EntityStore.Proofs.Table.Effect
import EntityStore.Proofs.World.Locked
import EntityStore.Proofs.World.Pauses

/-!
# Operations that only read

Two operations agree as long as they find what is asked for; one that only reads agrees with itself and
leaves it so. What is asked for is that the same entities live and have the same records. An operation
that runs scripts agrees with the one that runs them in another way if the scripts do.
-/
namespace EntityStore

open Run (left bind_of_ok bind_of_error)

/-- Wherever `P` holds, two operations do the same, and `P` holds afterwards. -/
def Agrees {σ α : Type} (P : σ → Prop) (op op' : EStateM Failure σ α) : Prop :=
  ∀ s, P s → op s = op' s ∧ P (left (op s))

section Agrees

variable {σ α β : Type} {P : σ → Prop}

theorem Agrees.of_left {op : EStateM Failure σ α} (h : ∀ s, P s → P (left (op s))) :
    Agrees P op op := fun s hs => ⟨rfl, h s hs⟩

theorem agrees_pure (a : α) : Agrees P (pure a) (pure a) := .of_left fun _ => id

theorem agrees_throw (e : Failure) : Agrees P (throw e : EStateM Failure σ α) (throw e) :=
  .of_left fun _ => id

theorem agrees_modify {f : σ → σ} (hf : ∀ s, P s → P (f s)) :
    Agrees P (modify f : EStateM Failure σ Unit) (modify f) := .of_left hf

/-- What comes after two operations that agree at a state need only agree where these lead. -/
theorem agrees_bind_at {op op' : EStateM Failure σ α} {f f' : α → EStateM Failure σ β} {s : σ}
    (h : op s = op' s ∧ P (left (op s)))
    (hf : ∀ a s', op s = .ok a s' → P s' → f a s' = f' a s' ∧ P (left (f a s'))) :
    (op >>= f) s = (op' >>= f') s ∧ P (left ((op >>= f) s)) := by
  obtain ⟨heq, hleft⟩ := h
  cases hr : op s with
  | ok a s' =>
    rw [hr] at heq hleft
    rw [bind_of_ok hr, bind_of_ok heq.symm]
    exact hf a s' hr hleft
  | error e s' =>
    rw [hr] at heq hleft
    rw [bind_of_error hr, bind_of_error heq.symm]
    exact ⟨rfl, hleft⟩

theorem Agrees.bind {op op' : EStateM Failure σ α} {f f' : α → EStateM Failure σ β}
    (h : Agrees P op op') (hf : ∀ a, Agrees P (f a) (f' a)) :
    Agrees P (op >>= f) (op' >>= f') :=
  fun s hs => agrees_bind_at (h s hs) fun a s' _ hs' => hf a s' hs'

/-- What is done knowing the state. -/
theorem agrees_get_bind {f f' : σ → EStateM Failure σ α}
    (hf : ∀ s, P s → f s s = f' s s ∧ P (left (f s s))) : Agrees P (get >>= f) (get >>= f') := hf

theorem agrees_get : Agrees P (get : EStateM Failure σ σ) get := .of_left fun _ => id

theorem agrees_forM {xs : List β} {f f' : β → EStateM Failure σ Unit}
    (hf : ∀ x ∈ xs, Agrees P (f x) (f' x)) : Agrees P (xs.forM f) (xs.forM f') := by
  induction xs with
  | nil => exact agrees_pure ()
  | cons x xs ih =>
    exact (hf x List.mem_cons_self).bind fun _ => ih fun y hy => hf y (List.mem_cons_of_mem x hy)

end Agrees

namespace Guarded

variable {σ α β : Type} {P : σ → Prop} {me : Thread}

/-- The operation leaves contents alone of which `P` holds. -/
def Spares (P : σ → Prop) (op : Op σ α) : Prop :=
  ∀ s : Guarded σ, P s.contents → P (Guarded.left (op s)).contents

theorem spares_pure (a : α) : Spares P (pure a : Op σ α) := fun _ => id

theorem spares_get : Spares P (get : Op σ (Guarded σ)) := fun _ => id

theorem spares_contents? : Spares P (contents? : Op σ σ) := fun _ => id

theorem spares_note (n : Notice) : Spares P (note n : Op σ Unit) := fun _ => id

theorem spares_put {c : σ} (hc : P c) : Spares P (put c) := fun _ _ => hc

theorem Spares.bind {op : Op σ α} {f : α → Op σ β} (h : Spares P op) (hf : ∀ a, Spares P (f a)) :
    Spares P (op >>= f) := by
  intro s hs
  have hop := h s hs
  cases hr : op s with
  | ok a s' =>
    rw [hr] at hop
    rw [bind_of_ok hr]
    exact hf a s' hop
  | error e s' =>
    rw [hr] at hop
    rw [bind_of_error hr]
    exact hop

/-- What is done knowing the contents. -/
theorem spares_contents?_bind {f : σ → Op σ α} (hf : ∀ c, P c → Spares P (f c)) :
    Spares P (contents? >>= f) := fun s hs => hf s.contents hs s hs

theorem Spares.within {body : Op σ α} (h : Spares P body) : Spares P (within me body) := by
  intro s hs
  unfold Guarded.within
  split
  · exact hs
  · next lock _ =>
    have hbody := h { s with lock } hs
    split
    · next heq =>
      rw [heq] at hbody
      exact hbody
    · next heq =>
      rw [heq] at hbody
      split <;> exact hbody

theorem spares_beside {body : σ → α × σ} (hb : ∀ c, P c → P (body c).2) :
    Spares P (beside me body) := by
  intro s hs
  unfold beside
  split
  · exact hs
  · dsimp only
    split <;> exact hb _ hs

end Guarded

namespace Table

open Guarded

variable {R α : Type} {me : Thread} {rows : Packed Entity R}

def Request.reads {E : Type} : Request E R → Bool
  | .populate .. | .offer .. | .adjust .. | .destroy _ | .discard _ | .adjustAll _ | .sort ..
  | .inspect .. => false
  | _ => true

theorem spares_read (f : Table R → α) : Spares (·.rows = rows) (read me f) :=
  (spares_contents?.bind fun _ => spares_pure _).within

theorem spares_admitReader : Spares (·.rows = rows) (admitReader me : Op (Table R) Nat) :=
  spares_beside fun _ => id

theorem spares_dismissReader (reader : Nat) :
    Spares (·.rows = rows) (dismissReader reader : Op (Table R) Unit) :=
  spares_contents?_bind fun _ ht => spares_put ht

theorem spares_takeSnapshot [Record R] :
    Spares (·.rows = rows) (takeSnapshot me : Op (Table R) Bool) := by
  refine (spares_contents?_bind fun t ht => ?_).within
  have hfreeze : t.freeze.2.rows = rows := by
    unfold freeze
    split <;> exact ht
  have hrest : Spares (·.rows = rows) (do
      Guarded.put t.freeze.2
      return t.freeze.1 : Op (Table R) Bool) :=
    Spares.bind (P := fun t : Table R => t.rows = rows)
      (spares_put hfreeze) fun _ => spares_pure _
  dsimp only
  split
  · exact hrest
  · exact (spares_note _).bind fun _ => hrest

theorem spares_serve [Record R] {q : Request Entity R} (hq : q.reads = true) :
    Spares (·.rows = rows) (serve me q) := by
  cases q with
  | find | measure | contains | entities | rows | survey =>
    exact (spares_read _).bind fun _ => spares_pure _
  | count => exact (spares_read _).bind fun _ => (spares_read _).bind fun _ => spares_pure _
  | takeSnapshot => exact spares_takeSnapshot.bind fun _ => spares_pure _
  | snapshotState =>
    exact (spares_read _).bind fun _ => spares_contents?.bind fun _ => spares_pure _
  | names => exact spares_get.bind fun _ => spares_pure _
  | fields => exact spares_pure _
  | nest => exact ((spares_read _).bind fun _ => spares_pure _).within
  | admitReader => exact spares_admitReader.bind fun _ => spares_pure _
  | dismissReader reader => exact (spares_dismissReader reader).bind fun _ => spares_pure _
  | readCopy reader e =>
    refine spares_contents?_bind fun t _ => ?_
    split <;> exact spares_pure _
  | _ => cases hq

theorem reads_mapEntity {E E' : Type} (f : E → E') (q : Request E R) :
    (q.mapEntity f).reads = q.reads := by cases q <;> rfl

end Table

namespace NamedTable

open Guarded

variable {R α : Type} {me : Thread} {t : NamedTable R}

def Request.reads : Request R → Bool
  | .populate .. | .adjust .. | .destroy _ => false
  | _ => true

theorem spares_read (f : NamedTable R → α) : Spares (· = t) (read me f) :=
  (spares_contents?.bind fun _ => spares_pure _).within

theorem spares_serve [Record R] {q : Request R} (hq : q.reads = true) :
    Spares (· = t) (serve me q) := by
  cases q with
  | find | measure | contains | names => exact (spares_read _).bind fun _ => spares_pure _
  | count => exact (spares_read _).bind fun _ => (spares_read _).bind fun _ => spares_pure _
  | titles => exact spares_get.bind fun _ => spares_pure _
  | nest name =>
    refine (spares_contents?_bind fun c _ => ?_).within
    split
    · exact (spares_read _).bind fun _ => spares_pure _
    · exact spares_pure _
  | _ => cases hq

end NamedTable

def HandleRequest.reads : HandleRequest → Bool
  | .add .. | .update .. | .release _ => false
  | _ => true

variable {K α β : Type} [Schema K] [DecidableEq K] {w w' : World K} {k : K}

namespace World

def sharedFurnished (w : World K) (k : K) : World K :=
  { w.locked (Schema.tableName k) with
    events := w.events.push (.notice (.sharedInstantiated (Schema.tableName k)))
    sharedTables := w.sharedTables.push k ⟨w.bank.size, {}⟩ }

/-- The system is registered or exists. -/
def Knows (w : World K) (s : SystemId) : Prop := s ∈ w.systems.keys ∨ s ∈ w.instances.keys

/-- The same entities live and there are the same records; there are no other systems, and they do
what they did. -/
structure Like (w w' : World K) : Prop where
  plans_eq : w'.plans = w.plans
  knows : ∀ s, w'.Knows s → w.Knows s
  population_eq : w'.population = w.population
  isLive_eq : ∀ e, w'.isLive e = w.isLive e
  record?_eq : ∀ k e, w'.record? k e = w.record? k e
  shared?_eq : ∀ k name, w'.shared? k name = w.shared? k name

namespace Like

theorem refl (w : World K) : Like w w :=
  ⟨rfl, fun _ => id, rfl, fun _ => rfl, fun _ _ => rfl, fun _ _ => rfl⟩

theorem plan_eq (h : Like w w') (s : SystemId) : w'.plan s = w.plan s := by
  rw [plan, h.plans_eq, plan]

theorem scenery_eq (h : Like w w') : w'.scenery = w.scenery := by
  have hlive : w'.isLive = w.isLive := funext h.isLive_eq
  have hrecords : w'.record? = w.record? := funext fun k => funext (h.record?_eq k)
  have hshared : w'.shared? = w.shared? := funext fun k => funext (h.shared?_eq k)
  rw [scenery, scenery, h.population_eq, hlive, hrecords, hshared]

theorem furnished (h : Like w w') (hk : w'.tables.find? k = none) : Like w (w'.furnished k) :=
  ⟨h.plans_eq, h.knows, h.population_eq, h.isLive_eq, fun j e =>
    (record?_furnished hk j e).trans (h.record?_eq j e), h.shared?_eq⟩

/-- A table is put back with the records that it had. -/
theorem putBack {d : Desk (Table (Schema.Row k))} {g : Guarded (Table (Schema.Row k))}
    (h : Like w w') (hd : w'.tables.find? k = some d) (hg : g.contents.rows = d.contents.rows) :
    Like w (w'.putBack d g) := by
  refine ⟨h.plans_eq, h.knows, h.population_eq, h.isLive_eq, fun j e => ?_, h.shared?_eq⟩
  refine Eq.trans ?_ (h.record?_eq j e)
  show ((w'.tables.update k _).find? j).bind _ = _
  by_cases hj : j = k
  · subst hj
    rw [Catalog.find?_update_self, record?, hd]
    show g.contents.rows.get? e = _
    rw [hg]
    rfl
  · rw [Catalog.find?_update_ne hj, record?]

theorem sharedFurnished (h : Like w w') (hk : w'.sharedTables.find? k = none) :
    Like w (w'.sharedFurnished k) := by
  refine ⟨h.plans_eq, h.knows, h.population_eq, h.isLive_eq, h.record?_eq, fun j name => ?_⟩
  refine Eq.trans ?_ (h.shared?_eq j name)
  show ((w'.sharedTables.push k _).find? j).bind _ = _
  by_cases hj : j = k
  · subst hj
    rw [Catalog.find?_push_self hk, shared?, hk]
    rfl
  · rw [Catalog.find?_push_ne hj, shared?]

/-- A table by name is put back as it was. -/
theorem sharedPutBack {d : Desk (NamedTable (Schema.Row k))} {g : Guarded (NamedTable (Schema.Row k))}
    (h : Like w w') (hd : w'.sharedTables.find? k = some d) (hg : g.contents = d.contents) :
    Like w { w'.afterDesk d g with
      sharedTables := w'.sharedTables.update k fun d => { d with contents := g.contents } } := by
  refine ⟨h.plans_eq, h.knows, h.population_eq, h.isLive_eq, h.record?_eq, fun j name => ?_⟩
  refine Eq.trans ?_ (h.shared?_eq j name)
  show ((w'.sharedTables.update k _).find? j).bind _ = _
  by_cases hj : j = k
  · subst hj
    rw [Catalog.find?_update_self, shared?, hd]
    show g.contents.find? name = _
    rw [hg]
    rfl
  · rw [Catalog.find?_update_ne hj, shared?]

/-- Nothing has become of what entities live and have. -/
theorem of_same (h : Like w w') {w'' : World K} (hroster : w''.roster = w'.roster)
    (htables : w''.tables = w'.tables) (hshared : w''.sharedTables = w'.sharedTables)
    (hplans : w''.plans = w'.plans) (hknows : ∀ s, w''.Knows s → w.Knows s) : Like w w'' :=
  ⟨hplans.trans h.plans_eq, hknows, (congrArg (·.arena.size) hroster).trans h.population_eq,
    fun e => (congrArg (·.arena.contains e.ident) hroster).trans (h.isLive_eq e),
    fun k e => by rw [record?, htables, ← h.record?_eq, record?],
    fun k name => by rw [shared?, hshared, ← h.shared?_eq, shared?]⟩

end Like

end World

section Combined

omit [DecidableEq K]

variable {P : World K → Prop} {body body' : Run K α} {after after' : Run K Unit}

theorem Agrees.attempt (h : Agrees P body body') :
    Agrees P (Run.attempt body) (Run.attempt body') := by
  intro w hw
  obtain ⟨heq, hleft⟩ := h w hw
  refine ⟨by simp only [Run.attempt, heq], ?_⟩
  rw [Run.left_attempt]
  exact hleft

theorem Agrees.ensuring (h : Agrees P body body') (ha : Agrees P after after') :
    Agrees P (Run.ensuring body after) (Run.ensuring body' after') := by
  intro w hw
  obtain ⟨heq, hleft⟩ := h w hw
  obtain ⟨heq', hleft'⟩ := ha _ hleft
  refine ⟨?_, ?_⟩
  · unfold Run.ensuring
    rw [← heq]
    cases hr : body w <;> rw [hr] at heq' <;> simp only [left] at heq' ⊢ <;> rw [heq']
  · rw [Run.left_ensuring]
    exact hleft'

section Locked

variable {body body' : LockedRun K α} {after after' : LockedRun K Unit}

abbrev OfWorld (P : World K → Prop) (s : LockGroup × World K) : Prop := P s.2

theorem Agrees.lift {op op' : Run K α} (h : Agrees P op op') :
    Agrees (OfWorld P) (LockedRun.lift op) (LockedRun.lift op') := by
  intro s hs
  obtain ⟨heq, hleft⟩ := h s.2 hs
  unfold LockedRun.lift
  dsimp only
  rw [← heq]
  cases hr : op s.2 <;> rw [hr] at hleft <;> exact ⟨rfl, hleft⟩

theorem Agrees.ensuringLocked (h : Agrees (OfWorld P) body body')
    (ha : Agrees (OfWorld P) after after') :
    Agrees (OfWorld P) (LockedRun.ensuring body after) (LockedRun.ensuring body' after') := by
  intro s hs
  obtain ⟨heq, hleft⟩ := h s hs
  obtain ⟨heq', hleft'⟩ := ha _ hleft
  unfold LockedRun.ensuring
  rw [← heq]
  cases hr : body s <;> rw [hr] at heq' hleft' <;> simp only [left] at heq' hleft' ⊢ <;>
    rw [← heq'] <;> cases hs' : after _ <;> rw [hs'] at hleft' <;> exact ⟨rfl, hleft'⟩

theorem Agrees.withAllTables (h : Agrees (OfWorld P) body body')
    (hcall : ∀ c, Agrees (OfWorld P) (LockedRun.call c) (LockedRun.call c)) :
    Agrees P (Run.withAllTables body) (Run.withAllTables body') := by
  intro w hw
  have hwhole := (hcall (·.enterAll)).bind fun _ => h.ensuringLocked (hcall (·.release))
  obtain ⟨heq, hleft⟩ := hwhole (w.tableGroup, w) hw
  unfold Run.withAllTables
  dsimp only
  rw [← heq]
  generalize (LockedRun.call (·.enterAll) >>= fun _ => body.ensuring _) (w.tableGroup, w) = r at hleft
  cases r <;> exact ⟨rfl, hleft⟩

end Locked

end Combined

namespace Run

variable {w₀ : World K}

/-- The operation leaves entities and records as they are in a world. -/
abbrev Reads (w₀ : World K) (op : Run K α) : Prop := Agrees w₀.Like op op

theorem reads_emit (e : Event K) : Reads w₀ (emit e) :=
  agrees_modify fun _ hw => hw.of_same rfl rfl rfl rfl hw.knows

theorem reads_note (n : Notice) : Reads w₀ (note n : Run K Unit) := reads_emit _

theorem reads_orThrow (r : Except Failure α) : Reads w₀ (orThrow r : Run K α) := by
  cases r with
  | ok a => exact agrees_pure a
  | error e => exact agrees_throw e

theorem reads_component (k : K) : Reads w₀ (component k) := by
  refine .of_left fun w hw => ?_
  obtain ⟨d, -, hc⟩ | ⟨f, hc⟩ | ⟨hnone, hc⟩ := component_cases w k
  · rw [hc]
    exact hw
  · rw [hc]
    exact hw
  · rw [hc]
    exact hw.furnished hnone

/-- A table is used without changing its records. -/
theorem reads_onTable {op : Guarded.Op (Table (Schema.Row k)) α}
    (hop : ∀ rows, Guarded.Spares (·.rows = rows) op) : Reads w₀ (onTable k op) := by
  refine .of_left fun w hw => ?_
  have hdesk : ∀ (d : Desk (Table (Schema.Row k))) (v : World K), v.tables.find? k = some d →
      w₀.Like v → w₀.Like (left (atDesk d (putTable k) op v)) := fun d v hd hv => by
    rw [left_atDesk]
    exact hv.putBack hd (hop _ (v.atDesk d) rfl)
  have hcomponent := (reads_component k w hw).2
  cases hc : component k w with
  | ok d v =>
    rw [hc] at hcomponent
    rw [onTable, bind_of_ok hc]
    exact hdesk d v (find?_of_component hc) hcomponent
  | error f v =>
    rw [hc] at hcomponent
    rw [onTable, bind_of_error hc]
    exact hcomponent

theorem shared_of_find? {d : Desk (NamedTable (Schema.Row k))} (h : w.sharedTables.find? k = some d) :
    shared k w = .ok d w := by
  simp only [shared, Catalog.getOrCreate, get_bind, sharedView, h]
  rfl

theorem shared_of_unregistered (h : w.sharedTables.find? k = none)
    (hc : w.sharedComponents.contains k = false) :
    shared k w = .error (.fault (.componentNotFound (Schema.tableName k))) w := by
  simp only [shared, Catalog.getOrCreate, get_bind, sharedView, h]
  refine bind_of_error ?_
  simp only [get_bind, hc]
  rfl

theorem shared_of_registered (h : w.sharedTables.find? k = none)
    (hc : w.sharedComponents.contains k = true) :
    shared k w = .ok ⟨w.bank.size, {}⟩ (w.sharedFurnished k) := by
  let v : World K := { w.locked (Schema.tableName k) with
    events := w.events.push (.notice (.sharedInstantiated (Schema.tableName k))) }
  have hcreate : (do
      unless (← get).sharedComponents.contains k do fail (.componentNotFound (Schema.tableName k))
      note (.sharedInstantiated (Schema.tableName k))
      furnish (Schema.tableName k) ({} : NamedTable (Schema.Row k)) : Run K _) w =
        .ok ⟨w.bank.size, {}⟩ v := by
    simp only [get_bind, hc]
    rfl
  have hnone : v.sharedTables.find? k = none := h
  simp only [shared, Catalog.getOrCreate, get_bind, sharedView, h]
  refine (bind_of_ok hcreate).trans ?_
  simp only [get_bind, Catalog.findOrInsert, hnone]
  rfl

/-- The table by name of a kind is there, or comes to be, or is refused. -/
theorem shared_cases (w : World K) (k : K) :
    (∃ d, w.sharedTables.find? k = some d ∧ shared k w = .ok d w) ∨
    (∃ f, shared k w = .error (.fault f) w) ∨
    (w.sharedTables.find? k = none ∧
      shared k w = .ok ⟨w.bank.size, {}⟩ (w.sharedFurnished k)) := by
  cases h : w.sharedTables.find? k with
  | some d => exact .inl ⟨d, rfl, shared_of_find? h⟩
  | none =>
    cases hc : w.sharedComponents.contains k with
    | false => exact .inr (.inl ⟨_, shared_of_unregistered h hc⟩)
    | true => exact .inr (.inr ⟨rfl, shared_of_registered h hc⟩)

theorem reads_shared (k : K) : Reads w₀ (shared k) := by
  refine .of_left fun w hw => ?_
  obtain ⟨d, -, hc⟩ | ⟨f, hc⟩ | ⟨hnone, hc⟩ := shared_cases w k
  · rw [hc]
    exact hw
  · rw [hc]
    exact hw
  · rw [hc]
    exact hw.sharedFurnished hnone

/-- A table by name is used without changing it. -/
theorem reads_onShared {op : Guarded.Op (NamedTable (Schema.Row k)) α}
    (hop : ∀ t, Guarded.Spares (· = t) op) : Reads w₀ (onShared k op) := by
  refine .of_left fun w hw => ?_
  obtain ⟨d, hd, hc⟩ | ⟨f, hc⟩ | ⟨hnone, hc⟩ := shared_cases w k
  · rw [onShared, bind_of_ok hc, left_atDesk]
    exact hw.sharedPutBack hd (hop _ (w.atDesk d) rfl)
  · rw [onShared, bind_of_error hc]
    exact hw
  · rw [onShared, bind_of_ok hc, left_atDesk]
    exact (hw.sharedFurnished hnone).sharedPutBack (Catalog.find?_push_self hnone)
      (hop _ ((w.sharedFurnished k).atDesk _) rfl)

/-- A lock is entered or left. -/
theorem reads_onLock (lock : Nat) (call : Lock → Except Failure α × Lock) :
    Reads w₀ (onLock lock call : Run K α) := by
  refine .of_left fun w hw => ?_
  unfold onLock
  dsimp only
  split <;> exact hw.of_same rfl rfl rfl rfl hw.knows

theorem agrees_forEachRow (k : K) {body body' : Entity → Run K Unit}
    (h : ∀ e, Agrees w₀.Like (body e) (body' e)) :
    Agrees w₀.Like (forEachRow k body) (forEachRow k body') :=
  (reads_component k).bind fun _ => (reads_onLock _ _).bind fun _ =>
    (agrees_forM fun e _ => h e).ensuring (reads_onLock _ _)

theorem agrees_asReader (k : K) {body body' : Run K α} (h : Agrees w₀.Like body body') :
    Agrees w₀.Like (asReader k body) (asReader k body') :=
  (reads_onTable fun _ => Table.spares_admitReader).bind fun reader =>
    h.ensuring (reads_onTable fun _ => Table.spares_dismissReader reader)

theorem reads_copyRows (k : K) : Reads w₀ (copyRows k) :=
  (reads_component k).bind fun _ => agrees_pure _

theorem reads_archetype (id : ArchetypeId) : Reads w₀ (archetype id : Run K (Archetype K)) := by
  refine agrees_get_bind fun w hw => ⟨rfl, ?_⟩
  cases w.archetypes.find? id <;> exact hw

theorem reads_trace (tracer : Tracer) (moment : TraceEvent) :
    Reads w₀ (trace tracer moment : Run K Unit) := by
  refine agrees_forM fun tap _ => ?_
  cases tap <;> exact reads_emit _

end Run

end EntityStore
