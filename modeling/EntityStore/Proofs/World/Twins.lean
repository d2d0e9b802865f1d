import EntityStore.Proofs.World.Coupling
import EntityStore.Proofs.World.Destroy
import EntityStore.Proofs.World.Reading

/-!
# Worlds that differ in their entities

Two worlds that differ in nothing but the roster, the clock, how deep locks have been entered and what
has been written are twins as long as the same contents are lent out and the same signals have been
given. Whatever is done with tables and handles is done alike to both and leaves them twins.
-/
namespace EntityStore

open Run (left bind_of_ok bind_of_error Keeps)
open World (caller)

variable {K α β : Type} [Schema K] {u v w : World K} {k : K}

def Event.isTrigger : Event K → Bool
  | .notice (.fired _) | .observed .. => true
  | _ => false

theorem Event.isTrigger_of_isLocal {n : Notice} (h : n.isLocal = true) :
    (Event.notice n : Event K).isTrigger = false := by
  cases n <;> first | rfl | cases h

theorem Event.filter_isTrigger_of_isLocal {ns : List Notice} (h : ∀ n ∈ ns, n.isLocal = true) :
    (ns.map (Event.notice (K := K))).toArray.toList.filter Event.isTrigger = [] := by
  refine List.filter_eq_nil_iff.mpr fun e he => ?_
  obtain ⟨n, hn, rfl⟩ := List.mem_map.mp he
  simp [Event.isTrigger_of_isLocal (h n hn)]

/-- What operations on tables and handles have nothing to do with. -/
structure Office (K : Type) [Schema K] where
  settings : Settings
  roster : Roster K
  readings : Nat
  archetypes : Catalog ArchetypeId fun _ => Archetype K
  components : Catalog K fun _ => Unit

namespace World

def office (w : World K) : Office K := ⟨w.settings, w.roster, w.readings, w.archetypes, w.components⟩

def triggers (w : World K) : List (Event K) := w.events.toList.filter Event.isTrigger

/-- The worlds only differ in the roster, the clock, the depth of locks and what has been written, and
not in what has been signalled. -/
structure Alike (u v : World K) : Prop where
  eq : v = { u with roster := v.roster, readings := v.readings, bank := v.bank, events := v.events }
  size_eq : v.bank.size = u.bank.size
  lent_eq : ∀ l, (v.bank.get l).lent = (u.bank.get l).lent
  triggers_eq : v.triggers = u.triggers

namespace Alike

theorem symm (h : Alike u v) : Alike v u := by
  refine ⟨?_, h.size_eq.symm, fun l => (h.lent_eq l).symm, h.triggers_eq.symm⟩
  rw [h.eq]

theorem trans (h : Alike u v) (h' : Alike v w) : Alike u w := by
  refine ⟨?_, h'.size_eq.trans h.size_eq, fun l => (h'.lent_eq l).trans (h.lent_eq l),
    h'.triggers_eq.trans h.triggers_eq⟩
  rw [h'.eq, h.eq]

theorem tables_eq (h : Alike u v) : v.tables = u.tables := by rw [h.eq]

theorem components_eq (h : Alike u v) : v.components = u.components := by rw [h.eq]

theorem sharedTables_eq (h : Alike u v) : v.sharedTables = u.sharedTables := by rw [h.eq]

theorem sharedComponents_eq (h : Alike u v) : v.sharedComponents = u.sharedComponents := by
  rw [h.eq]

theorem handles_eq (h : Alike u v) : v.handles = u.handles := by rw [h.eq]

theorem observers_eq (h : Alike u v) : v.observers = u.observers := by rw [h.eq]

theorem withRosters (h : Alike u v) (r r' : Roster K) (m n : Nat) :
    Alike { u with roster := r, readings := m } { v with roster := r', readings := n } := by
  refine ⟨?_, h.size_eq, h.lent_eq, h.triggers_eq⟩
  rw [h.eq]

/-- The same is written to both, or what tells of no signal. -/
theorem written (h : Alike u v) {es es' : Array (Event K)}
    (hes : es'.toList.filter Event.isTrigger = es.toList.filter Event.isTrigger) :
    Alike { u with events := u.events ++ es } { v with events := v.events ++ es' } := by
  refine ⟨?_, h.size_eq, h.lent_eq, ?_⟩
  · rw [h.eq]
  · have htriggers := h.triggers_eq
    simp only [triggers, Array.toList_append, List.filter_append] at htriggers ⊢
    rw [htriggers, hes]

theorem withBank (h : Alike u v) {b c : Bank} (hsize : c.size = b.size)
    (hlent : ∀ l, (c.get l).lent = (b.get l).lent) :
    Alike { u with bank := b } { v with bank := c } := by
  refine ⟨?_, hsize, hlent, h.triggers_eq⟩
  rw [h.eq]

theorem withTables (h : Alike u v) (tables : Catalog K fun k => Desk (Table (Schema.Row k))) :
    Alike { u with tables } { v with tables } := by
  refine ⟨?_, h.size_eq, h.lent_eq, h.triggers_eq⟩
  rw [h.eq]

theorem withSharedTables (h : Alike u v)
    (sharedTables : Catalog K fun k => Desk (NamedTable (Schema.Row k))) :
    Alike { u with sharedTables } { v with sharedTables } := by
  refine ⟨?_, h.size_eq, h.lent_eq, h.triggers_eq⟩
  rw [h.eq]

theorem withHandles (h : Alike u v) (handles : HandleTable) :
    Alike { u with handles } { v with handles } := by
  refine ⟨?_, h.size_eq, h.lent_eq, h.triggers_eq⟩
  rw [h.eq]

/-- A lock is entered or left on both sides. -/
theorem onLock (h : Alike u v) {l : Nat} {a b : Lock} (hlent : b.lent = a.lent) :
    Alike { u with bank := u.bank.set l a } { v with bank := v.bank.set l b } := by
  refine h.withBank ?_ fun x => ?_
  · rw [Bank.size_set, Bank.size_set, h.size_eq]
  · by_cases hx : x = l
    · subst hx
      rcases Nat.lt_or_ge x u.bank.size with hlt | hge
      · rw [Bank.get_set_self hlt, Bank.get_set_self (hlt.trans_eq h.size_eq.symm), hlent]
      · rw [Bank.get_of_size_le (((Bank.size_set ..).trans h.size_eq).trans_le hge),
          Bank.get_of_size_le ((Bank.size_set ..).trans_le hge)]
    · rw [Bank.get_set_ne _ (Ne.symm hx), Bank.get_set_ne _ (Ne.symm hx), h.lent_eq]

theorem locked (h : Alike u v) (name : String) : Alike (u.locked name) (v.locked name) := by
  refine ⟨?_, ?_, fun l => ?_, h.triggers_eq⟩
  · unfold World.locked
    rw [h.eq]
  · simp only [World.locked, Bank.add, Bank.size, Array.size_push]
    exact congrArg (· + 1) h.size_eq
  · show ((v.bank.add _).2.get l).lent = ((u.bank.add _).2.get l).lent
    rw [Bank.get_add, Bank.get_add, h.size_eq]
    split
    · rfl
    · exact h.lent_eq l

theorem furnished (h : Alike u v) (k : K) : Alike (u.furnished k) (v.furnished k) := by
  let e : Event K := .notice (.tableInstantiated (Schema.tableName k))
  have hannounced : Alike
      { u.locked (Schema.tableName k) with events := u.events ++ #[e] }
      { v.locked (Schema.tableName k) with events := v.events ++ #[e] } :=
    (h.locked (Schema.tableName k)).written rfl
  unfold World.furnished World.announced
  rw [h.tables_eq, h.size_eq, Array.push_eq_append, Array.push_eq_append]
  exact hannounced.withTables (u.tables.push k ⟨u.bank.size, {}⟩)

theorem sharedFurnished (h : Alike u v) (k : K) :
    Alike (u.sharedFurnished k) (v.sharedFurnished k) := by
  let e : Event K := .notice (.sharedInstantiated (Schema.tableName k))
  have hannounced : Alike
      { u.locked (Schema.tableName k) with events := u.events ++ #[e] }
      { v.locked (Schema.tableName k) with events := v.events ++ #[e] } :=
    (h.locked (Schema.tableName k)).written rfl
  unfold World.sharedFurnished
  rw [h.sharedTables_eq, h.size_eq, Array.push_eq_append, Array.push_eq_append]
  exact hannounced.withSharedTables (u.sharedTables.push k ⟨u.bank.size, {}⟩)

/-- A store is put back that was behind either lock. -/
theorem afterDesk {σ : Type} (h : Alike u v) {d : Desk σ} {g g' : Guarded σ}
    (hg : Guarded.Behind (u.bank.get d.lock) (v.bank.get d.lock) g g') :
    Alike (u.afterDesk d g) (v.afterDesk d g') := by
  obtain ⟨hlock, rfl⟩ := hg
  have hbank : u.bank.set d.lock g.lock = u.bank := by rw [hlock, Bank.set_get]
  have hbank' : v.bank.set d.lock (v.bank.get d.lock) = v.bank := Bank.set_get ..
  have hwritten : Alike { u with events := u.events ++ g.journal.map Event.notice }
      { v with events := v.events ++ g.journal.map Event.notice } := h.written rfl
  unfold World.afterDesk
  rw [hbank, hbank']
  exact hwritten.withHandles g.handles

end Alike

theorem OnlyRecords.of_eq (h : u.OnlyRecords) (hv : v.observers = u.observers) : v.OnlyRecords := by
  unfold OnlyRecords
  rw [hv]
  exact h

variable [DecidableEq K]

/-- Worlds that are alike and in order, with observers that only record, and what goes on in their
offices. -/
structure Twins (x y : Office K) (u v : World K) : Prop where
  alike : Alike u v
  fit : u.Fit
  fit' : v.Fit
  onlyRecords : u.OnlyRecords
  office_eq : u.office = x
  office_eq' : v.office = y

namespace Twins

variable {x y z : Office K}

theorem symm (h : Twins x y u v) : Twins y x v u :=
  ⟨h.alike.symm, h.fit', h.fit, h.onlyRecords.of_eq h.alike.observers_eq, h.office_eq',
    h.office_eq⟩

theorem trans (h : Twins x y u v) (h' : Twins y z v w) : Twins x z u w :=
  ⟨h.alike.trans h'.alike, h.fit, h'.fit', h.onlyRecords, h.office_eq, h'.office_eq'⟩

theorem written (h : Twins x y u v) {es es' : Array (Event K)}
    (hes : es'.toList.filter Event.isTrigger = es.toList.filter Event.isTrigger) :
    Twins x y { u with events := u.events ++ es } { v with events := v.events ++ es' } :=
  ⟨h.alike.written hes,
    h.fit.congr rfl rfl rfl rfl, h.fit'.congr rfl rfl rfl rfl, h.onlyRecords, h.office_eq, h.office_eq'⟩

end Twins

end World

namespace Run

open World (Alike Twins)
open Guarded (Deaf)

variable [DecidableEq K] {x y : Office K} {Q : α → β → Prop}

abbrev KeepsFit (op : Run K α) : Prop := Keeps (fun _ _ _ => True) op

theorem mild_top : Mild (fun _ _ => True) fun _ (_ _ : World K) => True := .top

/-- Worlds that are in order need only be shown to be alike. -/
theorem matched_twins {r : EStateM.Result Failure (World K) α}
    {r' : EStateM.Result Failure (World K) β} (hfit : (left r).Fit) (hfit' : (left r').Fit)
    (h : Matched (fun u v => Alike u v ∧ u.OnlyRecords ∧ u.office = x ∧ v.office = y) Q r r') :
    Matched (Twins x y) Q r r' := by
  cases h with
  | ok hQ hP => exact .ok hQ ⟨hP.1, hfit, hfit', hP.2.1, hP.2.2.1, hP.2.2.2⟩
  | error he hP => exact .error he ⟨hP.1, hfit, hfit', hP.2.1, hP.2.2.1, hP.2.2.2⟩

/-- The same is told, or nothing that tells of a signal. -/
theorem coupled_emit {e e' : Event K}
    (he : [e'].filter Event.isTrigger = [e].filter Event.isTrigger) :
    Coupled (Twins x y) (· = ·) (emit e) (emit e') :=
  coupled_modify fun u v h => by
    rw [Array.push_eq_append, Array.push_eq_append]
    exact h.written he

theorem coupled_note (n : Notice) : Coupled (Twins x y) (· = ·) (note n : Run K Unit) (note n) :=
  coupled_emit rfl

theorem coupled_noteAll (ns : List Notice) :
    Coupled (Twins x y) (· = ·) (noteAll ns : Run K Unit) (noteAll ns) :=
  coupled_modify fun _ _ h => h.written rfl

theorem coupled_component (k : K) :
    Coupled (Twins x y) (· = ·) (component k) (component k) := by
  intro u v h
  refine matched_twins (keeps_component mild_top k u h.fit).fit
    (keeps_component mild_top k v h.fit').fit ?_
  have htables := h.alike.tables_eq
  have hcomponents := h.alike.components_eq
  cases hd : u.tables.find? k with
  | some d =>
    rw [component_of_find? hd, component_of_find? (htables ▸ hd)]
    exact .ok rfl ⟨h.alike, h.onlyRecords, h.office_eq, h.office_eq'⟩
  | none =>
    have hd' : v.tables.find? k = none := htables ▸ hd
    cases hc : u.components.contains k with
    | false =>
      rw [component_of_unregistered hd hc, component_of_unregistered hd' (hcomponents ▸ hc)]
      exact .error rfl ⟨h.alike, h.onlyRecords, h.office_eq, h.office_eq'⟩
    | true =>
      rw [component_of_registered hd hc, component_of_registered hd' (hcomponents ▸ hc),
        h.alike.size_eq]
      exact .ok rfl ⟨h.alike.furnished k, h.onlyRecords, h.office_eq, h.office_eq'⟩

/-- What is done with a store, be it behind a lock that has been entered or behind one that has not. -/
theorem matched_atDesk {σ : Type} (h : Twins x y u v) (d : Desk σ) {R : α → α → Prop}
    {op : Guarded.Op σ α} (hop : Deaf caller R op) {put : σ → World K → World K}
    (hput : ∀ c u v, Alike u v → Alike (put c u) (put c v))
    (hsame : ∀ c w, (put c w).observers = w.observers ∧ (put c w).office = w.office) :
    Matched (fun u v => Alike u v ∧ u.OnlyRecords ∧ u.office = x ∧ v.office = y) R
      (atDesk d put op u) (atDesk d put op v) := by
  have hmatched := hop _ _ (h.fit.enterable d.lock) (h.fit'.enterable d.lock) (h.alike.lent_eq _)
    (u.atDesk d) (v.atDesk d) ⟨rfl, by rw [World.atDesk, h.alike.handles_eq, World.atDesk]⟩
  have hleft : ∀ g g', Guarded.Behind (u.bank.get d.lock) (v.bank.get d.lock) g g' →
      Alike (put g.contents (u.afterDesk d g)) (put g'.contents (v.afterDesk d g')) ∧
        (put g.contents (u.afterDesk d g)).OnlyRecords ∧
        (put g.contents (u.afterDesk d g)).office = x ∧
        (put g'.contents (v.afterDesk d g')).office = y := by
    intro g g' hg
    have hcontents : g'.contents = g.contents := by rw [hg.eq]
    obtain ⟨hobservers, hoffice⟩ := hsame g.contents (u.afterDesk d g)
    obtain ⟨-, hoffice'⟩ := hsame g'.contents (v.afterDesk d g')
    exact ⟨hcontents ▸ hput _ _ _ (h.alike.afterDesk hg), h.onlyRecords.of_eq hobservers,
      hoffice.trans h.office_eq, hoffice'.trans h.office_eq'⟩
  cases hr : op (u.atDesk d) <;> cases hr' : op (v.atDesk d) <;> rw [hr, hr'] at hmatched <;>
    cases hmatched
  · next hQ hP =>
    rw [atDesk_of_ok hr, atDesk_of_ok hr']
    exact .ok hQ (hleft _ _ hP)
  · next he hP =>
    rw [atDesk_of_error hr, atDesk_of_error hr']
    exact .error he (hleft _ _ hP)

theorem coupled_onTable {R : α → α → Prop} {op : Guarded.Op (Table (Schema.Row k)) α}
    (hop : Deaf caller R op) (hneat : Stocks (fun _ => True) op) :
    Coupled (Twins x y) R (onTable k op) (onTable k op) := by
  intro u v h
  refine (coupled_component k u v h).bind fun d d' u' v' hd hd' heq h' => ?_
  subst heq
  refine matched_twins
    (passes_atDesk mild_top h'.fit (find?_of_component hd) hneat fun _ _ => trivial).fit
    (passes_atDesk mild_top h'.fit' (find?_of_component hd') hneat fun _ _ => trivial).fit ?_
  refine matched_atDesk h' d hop (fun t u v ha => ?_) fun t w => ⟨rfl, rfl⟩
  show Alike (putTable k t u) (putTable k t v)
  unfold putTable
  rw [ha.tables_eq]
  exact ha.withTables _

theorem coupled_shared (k : K) : Coupled (Twins x y) (· = ·) (shared k) (shared k) := by
  intro u v h
  refine matched_twins (keeps_shared mild_top k u h.fit).fit (keeps_shared mild_top k v h.fit').fit ?_
  have htables := h.alike.sharedTables_eq
  have hcomponents := h.alike.sharedComponents_eq
  cases hd : u.sharedTables.find? k with
  | some d =>
    rw [shared_of_find? hd, shared_of_find? (htables ▸ hd)]
    exact .ok rfl ⟨h.alike, h.onlyRecords, h.office_eq, h.office_eq'⟩
  | none =>
    have hd' : v.sharedTables.find? k = none := htables ▸ hd
    cases hc : u.sharedComponents.contains k with
    | false =>
      rw [shared_of_unregistered hd hc, shared_of_unregistered hd' (hcomponents ▸ hc)]
      exact .error rfl ⟨h.alike, h.onlyRecords, h.office_eq, h.office_eq'⟩
    | true =>
      rw [shared_of_registered hd hc, shared_of_registered hd' (hcomponents ▸ hc), h.alike.size_eq]
      exact .ok rfl ⟨h.alike.sharedFurnished k, h.onlyRecords, h.office_eq, h.office_eq'⟩

theorem coupled_onShared {R : α → α → Prop} {op : Guarded.Op (NamedTable (Schema.Row k)) α}
    (hop : Deaf caller R op) (hneat : Guarded.IsNeat (fun _ => True) caller op) :
    Coupled (Twins x y) R (onShared k op) (onShared k op) := by
  intro u v h
  refine (coupled_shared k u v h).bind fun d d' u' v' _ _ heq h' => ?_
  subst heq
  refine matched_twins (passes_atDesk_shared mild_top h'.fit d hneat).fit
    (passes_atDesk_shared mild_top h'.fit' d hneat).fit ?_
  refine matched_atDesk h' d hop (fun t u v ha => ?_) fun t w => ⟨rfl, rfl⟩
  show Alike (putShared k t u) (putShared k t v)
  unfold putShared
  rw [ha.sharedTables_eq]
  exact ha.withSharedTables _

/-- Observers that only record hear the same. -/
theorem coupled_fire (run run' : Runner K) (s : Signal) :
    Coupled (Twins x y) (· = ·) (fire run s) (fire run' s) := by
  intro u v h
  rw [fire_of_onlyRecords h.onlyRecords, fire_of_onlyRecords h.symm.onlyRecords,
    Array.push_eq_append, Array.push_eq_append, Array.append_assoc, Array.append_assoc]
  exact .ok rfl (h.written (by rw [h.alike.observers_eq]))

theorem coupled_orThrow (r : Except Failure α) :
    Coupled (Twins x y) (· = ·) (orThrow r : Run K α) (orThrow r) := by
  cases r with
  | ok a => exact coupled_pure rfl
  | error e => exact coupled_throw rfl

theorem coupled_handle (run run' : Runner K) (q : HandleRequest) :
    Coupled (Twins x y) (· = ·) (handle run q) (handle run' q) := by
  refine coupled_get_bind fun u v h => ?_
  dsimp only
  rw [h.alike.handles_eq]
  have hsound : (u.handles.serve q).table.Sound := h.fit.handles.serve q
  have hserved : Matched (Twins x y) (· = ·)
      ((modify fun w : World K => { w with handles := (u.handles.serve q).table } : Run K Unit) u)
      ((modify fun w : World K => { w with handles := (u.handles.serve q).table } : Run K Unit) v) :=
    .ok rfl ⟨h.alike.withHandles _,
      ⟨h.fit.enterable, h.fit.lock_lt, h.fit.keys_nodup, h.fit.tables, h.fit.roster, hsound⟩,
      ⟨h.fit'.enterable, h.fit'.lock_lt, h.fit'.keys_nodup, h.fit'.tables, h.fit'.roster, hsound⟩,
      h.onlyRecords, h.office_eq, h.office_eq'⟩
  refine hserved.bind fun _ _ u' v' _ _ _ h' => ?_
  refine Coupled.bind_eq (coupled_noteAll _) (fun _ => ?_) u' v' h'
  cases (u.handles.serve q).signal with
  | none => exact coupled_orThrow _
  | some s => exact (coupled_fire run run' s).bind_eq fun _ => coupled_orThrow _

/-- The rows are gone through alike if the table can be taken from behind its lock, which it can on
both sides or on neither. -/
theorem coupled_forEachRow (k : K) {body body' : Entity → Run K Unit}
    (hb : ∀ e, Coupled (Twins x y) (· = ·) (body e) (body' e)) (hfit : ∀ e, KeepsFit (body e))
    (hfit' : ∀ e, KeepsFit (body' e)) :
    Coupled (Twins x y) (· = ·) (forEachRow k body) (forEachRow k body') := by
  intro u v h
  refine (coupled_component k u v h).bind fun d d' u v hd _ heq h => ?_
  subst heq
  have hlent := h.alike.lent_eq d.lock
  have hl : d.lock < u.bank.size :=
    h.fit.lock_lt _ (Catalog.mem_entries_of_find? (find?_of_component hd))
  have hl' : d.lock < v.bank.size := hl.trans_eq h.alike.size_eq.symm
  cases hu : (u.bank.get d.lock).lent with
  | true =>
    rw [bind_of_error (onLock_openGuard_of_lent (h.fit.enterable _) hu),
      bind_of_error (onLock_openGuard_of_lent (h.fit'.enterable _) (hlent.trans hu))]
    exact .error rfl h
  | false =>
    have hv : (v.bank.get d.lock).lent = false := hlent.trans hu
    have hopened : Twins x y (opened u d.lock) (opened v d.lock) :=
      ⟨h.alike.onLock rfl, fit_opened h.fit _, fit_opened h.fit' _, h.onlyRecords, h.office_eq,
        h.office_eq'⟩
    have hrun : Matched (Twins x y) (· = ·) (d.contents.rows.keys.forM body _)
        (d.contents.rows.keys.forM body' _) := coupled_forM hb _ _ hopened
    have hpass : Passes _ _ (d.contents.rows.keys.forM body _) :=
      keeps_forM mild_top hfit _ hopened.fit
    have hpass' : Passes _ _ (d.contents.rows.keys.forM body' _) :=
      keeps_forM mild_top hfit' _ hopened.fit'
    rw [bind_of_ok (onLock_openGuard (h.fit.enterable _) hu),
      bind_of_ok (onLock_openGuard (h.fit'.enterable _) hv)]
    have hclose := onLock_closeGuard (h.fit.enterable _) hl hu hpass.locks
    have hclose' := onLock_closeGuard (h.fit'.enterable _) hl' hv hpass'.locks
    rw [ensuring_of_ok hclose, ensuring_of_ok hclose']
    have hleft := hrun.left_right
    exact hrun.ending ⟨hleft.alike.onLock hlent, fit_closed h.fit hl hpass.fit hpass.locks,
      fit_closed h.fit' hl' hpass'.fit hpass'.locks, hleft.onlyRecords, hleft.office_eq,
      hleft.office_eq'⟩

theorem coupled_asReader (k : K) {R : α → α → Prop} {body body' : Run K α}
    (hb : Coupled (Twins x y) R body body') :
    Coupled (Twins x y) R (asReader k body) (asReader k body') := by
  refine (coupled_onTable (Guarded.deaf_beside _) fun A _ => Table.neat_admitReader).bind_eq
    fun reader => hb.ensuring ?_
  exact coupled_onTable
    (Guarded.oblivious_contents?.bind fun _ => Guarded.oblivious_put _).deaf
    fun A _ => Table.neat_dismissReader reader

theorem coupled_copyRows (k : K) : Coupled (Twins x y) (· = ·) (copyRows k) (copyRows k) :=
  (coupled_component k).bind_eq fun _ => coupled_pure rfl

/-- Scripts do the same step by step, whatever their steps answer. -/
theorem coupled_runSteps {step step' : Verb K → Run K (Answer K)} {script : Script K}
    (hstep : ∀ a ∈ script, Coupled (Twins x y) (fun _ _ => True) (step a.verb) (step' a.verb)) :
    Coupled (Twins x y) (· = ·) (runSteps step script) (runSteps step' script) := by
  induction script with
  | nil => exact coupled_pure rfl
  | cons a rest ih =>
    have hrest := ih fun b hb => hstep b (List.mem_cons_of_mem a hb)
    refine (hstep a List.mem_cons_self).attempt.bind fun r r' hr => ?_
    refine Coupled.bind_eq (coupled_emit ?_) fun _ => ?_
    · rfl
    · cases hr with
      | ok => exact hrest
      | error f f' =>
        dsimp only
        split
        · exact hrest
        · exact coupled_throw rfl

end Run

end EntityStore
