import EntityStore.Proofs.Lock.Depths
import EntityStore.Proofs.World.Locked

/-!
# Taking an entity out of the world

An entity is cleared from one table after the other and then leaves the roster, all of it while the
locks of all tables are held. Nothing can keep it from happening but contents that are lent out: then
the entity has lost records, but goes on living.
-/
namespace EntityStore

open Run (left Mild)
open World (caller)

variable {K α : Type} [Schema K] [DecidableEq K] {w w' w'' : World K} {k : K} {e : Entity}
variable {T : Roster K → Entity → Prop} {I : Bool → World K → World K → Prop}

namespace World

/-- Somebody has the contents behind the lock of a table. -/
def LendsOut (w : World K) (k : K) : Prop :=
  ∃ d, w.tables.find? k = some d ∧ (w.bank.get d.lock).lent = true

/-- The records of an entity in some tables are gone, and nothing else but the handles that they
owned. -/
structure Cleared (e : Entity) (ks : List K) (w w' : World K) : Prop where
  bank_eq : w'.bank = w.bank
  roster_eq : w'.roster = w.roster
  observers_eq : w'.observers = w.observers
  keys_eq : w'.tables.keys = w.tables.keys
  lendsOut_iff : ∀ k, w'.LendsOut k ↔ w.LendsOut k
  aside : Aside w w'
  record?_eq : ∀ k x, w'.record? k x = if x = e ∧ k ∈ ks then none else w.record? k x
  handles_eq : ∃ ids, w'.handles = w.handles.withoutAll ids ∧
    ∀ id, id ∈ ids ↔ ∃ k ∈ ks, ∃ r, w.record? k e = some r ∧ id ∈ (Record.owned r).ids

namespace Cleared

variable {ks ks' : List K}

theorem nil (e : Entity) (w : World K) : Cleared e [] w w :=
  ⟨rfl, rfl, rfl, rfl, fun _ => .rfl, .of_eq rfl, by simp, [], rfl, by simp⟩

/-- There is nothing to clear. -/
theorem of_none (h : w.record? k e = none) : Cleared e [k] w w := by
  refine ⟨rfl, rfl, rfl, rfl, fun _ => .rfl, .of_eq rfl, fun j x => ?_, [], rfl, by simp [h]⟩
  split
  · next hx =>
    obtain ⟨rfl, hj⟩ := hx
    rw [List.mem_singleton.mp hj, h]
  · rfl

theorem trans (h : Cleared e ks w w') (h' : Cleared e ks' w' w'') :
    Cleared e (ks ++ ks') w w'' := by
  obtain ⟨ids, hids, howned⟩ := h.handles_eq
  obtain ⟨ids', hids', howned'⟩ := h'.handles_eq
  refine ⟨h'.bank_eq.trans h.bank_eq, h'.roster_eq.trans h.roster_eq,
    h'.observers_eq.trans h.observers_eq, h'.keys_eq.trans h.keys_eq,
    fun k => (h'.lendsOut_iff k).trans (h.lendsOut_iff k), h.aside.trans h'.aside, fun k x => ?_,
    ids ++ ids', ?_, fun id => ?_⟩
  · rw [h'.record?_eq, h.record?_eq]
    by_cases hx : x = e <;> by_cases hk : k ∈ ks <;> simp [hx, hk]
  · rw [hids', hids, HandleTable.withoutAll_append]
  · rw [List.mem_append, howned, howned']
    constructor
    · rintro (⟨k, hk, r, hr, hid⟩ | ⟨k, hk, r, hr, hid⟩)
      · exact ⟨k, List.mem_append_left _ hk, r, hr, hid⟩
      · rw [h.record?_eq] at hr
        split at hr
        · cases hr
        · exact ⟨k, List.mem_append_right _ hk, r, hr, hid⟩
    · rintro ⟨k, hk, r, hr, hid⟩
      by_cases hks : k ∈ ks
      · exact .inl ⟨k, hks, r, hr, hid⟩
      · refine .inr ⟨k, (List.mem_append.mp hk).resolve_left hks, r, ?_, hid⟩
        rw [h.record?_eq, if_neg fun hx => hks hx.2, hr]

end Cleared

section Tables

variable {d : Desk (Table (Schema.Row k))}

theorem record?_of_find? (hd : w.tables.find? k = some d) (x : Entity) :
    w.record? k x = d.contents.rows.get? x := by
  rw [record?, hd]
  rfl

/-- A table that is put back as it was. -/
theorem putBack_self (hw : w.Fit) (hd : w.tables.find? k = some d) :
    w.putBack d (w.atDesk d) = w := by
  have htables : w.tables.update k (fun d' => { d' with contents := d.contents }) = w.tables :=
    Catalog.update_eq_self hw.keys_nodup hd rfl
  have hafter : w.afterDesk d (w.atDesk d) = w := by simp [afterDesk, atDesk, Bank.set_get]
  rw [putBack, hafter]
  exact congrArg (fun tables => { w with tables }) htables

def stripped (w : World K) {k : K} (d : Desk (Table (Schema.Row k))) (e : Entity)
    (r : Schema.Row k) : World K :=
  w.putBack d { (w.atDesk d).releasing (.entity e) r with contents := d.contents.without e }

theorem cleared_stripped (hw : w.Fit) (hd : w.tables.find? k = some d) {r : Schema.Row k}
    (hr : d.contents.rows.get? e = some r) : Cleared e [k] w (w.stripped d e r) := by
  have hfind : ∀ j, (w.stripped d e r).tables.find? j =
      (w.tables.update k fun d' => { d' with contents := d.contents.without e }).find? j :=
    fun _ => rfl
  have hkeys : (w.stripped d e r).tables.keys = w.tables.keys := Catalog.keys_update ..
  have hbank : (w.stripped d e r).bank = w.bank := Bank.set_get ..
  refine ⟨hbank, rfl, rfl, hkeys, fun j => ?_, .of_plain rfl fun n hn => ?_,
    fun j x => ?_, _,
    HandleTable.releaseOwned_snd (.entity e) (Record.tableName (Schema.Row k)) _ w.handles,
    fun id => ?_⟩
  · simp only [LendsOut, hfind, hbank]
    by_cases hj : j = k
    · subst hj
      rw [Catalog.find?_update_self, hd]
      simp
    · rw [Catalog.find?_update_ne hj]
  · obtain ⟨n, hmem, rfl⟩ := Array.mem_map.mp hn
    rcases Array.mem_append.mp hmem with hmem | hmem
    · simp [atDesk] at hmem
    · exact Event.isPlain_of_isLocal
        (HandleTable.isLocal_releaseOwned _ _ _ _ n (List.mem_toArray.mp hmem))
  · rw [record?, hfind]
    by_cases hj : j = k
    · subst hj
      rw [Catalog.find?_update_self, hd, record?_of_find? hd]
      show (d.contents.without e).rows.get? x = _
      rw [(hw.tables j d hd).get?_without, Function.update_apply]
      simp
    · rw [Catalog.find?_update_ne hj, record?]
      simp [hj]
  · simp only [List.mem_singleton, exists_eq_left, record?_of_find? hd, hr, Option.some.injEq,
      exists_eq_left']

end Tables

end World

namespace Run

section OnTable

variable {d : Desk (Table (Schema.Row k))}

theorem onTable_read (hw : w.Fit) (hd : w.tables.find? k = some d)
    (hlent : (w.bank.get d.lock).lent = false) (f : Table (Schema.Row k) → α) :
    onTable k (Table.read caller f) w = .ok (f d.contents) w := by
  rw [onTable, bind_of_ok (component_of_find? hd)]
  refine (atDesk_of_ok (Table.read_eq (hw.enterable _) hlent f)).trans ?_
  exact congrArg _ (World.putBack_self hw hd)

/-- What asks for a table whose contents are lent out does nothing. -/
theorem onTable_of_barred (hw : w.Fit) (hd : w.tables.find? k = some d)
    (hlent : (w.bank.get d.lock).lent = true) {op : Guarded.Op (Table (Schema.Row k)) α}
    (hop : Guarded.Barred caller op) :
    onTable k op w = .error (.breach (.nestedGuard (w.bank.get d.lock).name)) w := by
  rw [onTable, bind_of_ok (component_of_find? hd)]
  refine (atDesk_of_error (hop (w.atDesk d) (hw.enterable _) hlent)).trans ?_
  exact congrArg _ (World.putBack_self hw hd)

theorem onTable_read_of_lent (hw : w.Fit) (hd : w.tables.find? k = some d)
    (hlent : (w.bank.get d.lock).lent = true) (f : Table (Schema.Row k) → α) :
    onTable k (Table.read caller f) w =
      .error (.breach (.nestedGuard (w.bank.get d.lock).name)) w :=
  onTable_of_barred hw hd hlent (Guarded.barred_within _)

theorem onTable_destroy (hw : w.Fit) (hd : w.tables.find? k = some d)
    (hlent : (w.bank.get d.lock).lent = false) {r : Schema.Row k}
    (hr : d.contents.rows.get? e = some r) :
    onTable k (Table.destroy caller e) w = .ok r (w.stripped d e r) := by
  rw [onTable, bind_of_ok (component_of_find? hd)]
  exact atDesk_of_ok (Table.destroy_eq (hw.enterable _) hlent (hw.tables k d hd) hr)

end OnTable

theorem keeps_clearEntity (hI : Mild T I) (e : Entity) (ks : List K) :
    Keeps I (clearEntity e ks) := by
  induction ks with
  | nil => exact keeps_pure hI ()
  | cons k ks ih =>
    refine (keeps_onTable hI fun A _ => Table.neat_read _).bind hI fun found => ?_
    cases found with
    | true => exact (keeps_onTable hI fun A _ => Table.neat_destroy e).bind hI fun _ => ih
    | false => exact ih

/-- The records of the entity are cleared from all tables, unless the contents of one of them are
lent out, which breaks it off. -/
theorem clearEntity_cases (e : Entity) {ks : List K} (hw : w.Fit)
    (hks : ∀ k ∈ ks, k ∈ w.tables.keys) :
    (∃ w', clearEntity e ks w = .ok () w' ∧ World.Cleared e ks w w') ∨
      ∃ f w', clearEntity e ks w = .error f w' ∧ f.breaks = true ∧ ∃ k ∈ ks, w.LendsOut k := by
  induction ks generalizing w with
  | nil => exact .inl ⟨w, rfl, .nil e w⟩
  | cons k ks ih =>
    obtain ⟨d, hd⟩ := Catalog.exists_find?_of_mem (hks k List.mem_cons_self)
    cases hlent : (w.bank.get d.lock).lent with
    | true =>
      refine .inr ⟨.breach (.nestedGuard (w.bank.get d.lock).name), w, ?_, rfl, k,
        List.mem_cons_self, d, hd, hlent⟩
      rw [clearEntity, bind_of_error (onTable_read_of_lent hw hd hlent _)]
    | false =>
      -- one table is cleared, and then the others
      obtain ⟨v, hstep, hcleared, hv⟩ : ∃ v, clearEntity e (k :: ks) w = clearEntity e ks v ∧
          World.Cleared e [k] w v ∧ v.Fit := by
        have hcontains := Packed.contains_eq_isSome (hw.tables k d hd).rows e
        rw [clearEntity, bind_of_ok (onTable_read hw hd hlent _), hcontains]
        cases hr : d.contents.rows.get? e with
        | none => exact ⟨w, rfl, .of_none ((World.record?_of_find? hd e).trans hr), hw⟩
        | some r =>
          have hdestroy := onTable_destroy hw hd hlent hr
          have hpass : Passes (fun _ _ _ => True) w (onTable k (Table.destroy caller e) w) :=
            keeps_onTable (T := fun _ _ => False) .top (fun A _ => Table.neat_destroy e) w hw
          rw [hdestroy] at hpass
          exact ⟨w.stripped d e r, bind_of_ok hdestroy, World.cleared_stripped hw hd hr, hpass.fit⟩
      rw [hstep]
      rcases ih hv fun j hj => hcleared.keys_eq ▸ hks j (List.mem_cons_of_mem _ hj) with
        ⟨w', hok, hrest⟩ | ⟨f, w', herr, hbreaks, j, hj, hlends⟩
      · exact .inl ⟨w', hok, hcleared.trans hrest⟩
      · exact .inr ⟨f, w', herr, hbreaks, j, List.mem_cons_of_mem _ hj,
          (hcleared.lendsOut_iff j).mp hlends⟩

end Run

theorem Entity.ident_inj {x e : Entity} : x.ident = e.ident ↔ x = e :=
  ⟨fun h => by cases x; cases e; exact congrArg Entity.mk h, congrArg Entity.ident⟩

def Roster.without (r : Roster K) (e : Entity) : Roster K :=
  { r with arena := r.arena.without e.ident }

section Free

variable {r : Roster K} {l : Issuer.Ledger 32}

omit [DecidableEq K]

theorem Roster.free_of_some (h : r.arena.Stocked l) {info : EntityInfo}
    (he : r.arena.get? e.ident = some info) : r.free e = (.ok (), r.without e) := by
  obtain ⟨slot, -, hremove, -⟩ := h.remove_eq he
  rw [Roster.free, hremove]
  rfl

theorem Roster.free_of_none (h : r.arena.Stocked l) (he : r.arena.get? e.ident = none) :
    r.free e = (.error (.fault (.recordNotFound e Fault.registryName)), r) := by
  rw [Roster.free, h.remove_of_none he]

end Free

namespace World

theorem Fit.isLive_eq (hw : w.Fit) (e : Entity) : w.isLive e = (w.info? e).isSome := by
  obtain ⟨l, hl⟩ := hw.roster
  exact hl.contains_eq e.ident

theorem Fit.exists_info? (hw : w.Fit) (h : w.isLive e = true) : ∃ info, w.info? e = some info :=
  Option.isSome_iff_exists.mp ((hw.isLive_eq e).symm.trans h)

theorem Fit.info?_of_dead (hw : w.Fit) (h : w.isLive e = false) : w.info? e = none := by
  rwa [hw.isLive_eq, Option.isSome_eq_false_iff, Option.isNone_iff_eq_none] at h

def freed (w : World K) (e : Entity) : World K :=
  { w with
    roster := w.roster.without e
    events := w.events ++ ((w.roster.arena.removeNotices e.ident).map Event.notice).toArray }

theorem Fit.freed (hw : w.Fit) (e : Entity) : (w.freed e).Fit := by
  refine ⟨hw.enterable, hw.lock_lt, hw.keys_nodup, hw.tables, ?_, hw.handles⟩
  obtain ⟨l, hl⟩ := hw.roster
  show ∃ l, (w.roster.arena.without e.ident).Stocked l
  cases hv : w.roster.arena.get? e.ident with
  | none => exact ⟨l, (hl.without_of_none hv).symm ▸ hl⟩
  | some info => exact ⟨_, hl.without hv⟩

/-- An entity is gone with all its records and the handles that these owned, and nothing else. -/
structure Razed (e : Entity) (es : List (Event K)) (w w' : World K) : Prop where
  fit : w'.Fit
  bank_eq : w'.bank = w.bank
  roster_eq : w'.roster = w.roster.without e
  observers_eq : w'.observers = w.observers
  keys_eq : w'.tables.keys = w.tables.keys
  lendsOut_iff : ∀ k, w'.LendsOut k ↔ w.LendsOut k
  told : Told es w w'
  calm : Calm w w'
  record?_eq : ∀ k x, w'.record? k x = if x = e then none else w.record? k x
  handles_eq : ∃ ids, w'.handles = w.handles.withoutAll ids ∧
    ∀ id, id ∈ ids ↔ ∃ k r, w.record? k e = some r ∧ id ∈ (Record.owned r).ids

namespace Razed

variable {es : List (Event K)}

theorem info?_eq (hw : w.Fit) (h : Razed e es w w') (x : Entity) :
    w'.info? x = if x = e then none else w.info? x := by
  obtain ⟨l, hl⟩ := hw.roster
  rw [info?, h.roster_eq]
  show (w.roster.arena.without e.ident).get? x.ident = _
  rw [hl.get?_without, Function.update_apply]
  simp only [Entity.ident_inj, info?]

theorem isLive_eq (hw : w.Fit) (h : Razed e es w w') (x : Entity) :
    w'.isLive x = (w.isLive x && decide (x ≠ e)) := by
  rw [h.fit.isLive_eq, hw.isLive_eq, h.info?_eq hw]
  by_cases hx : x = e <;> simp [hx]

end Razed

theorem record?_eq_none_of_not_mem (h : k ∉ w.tables.keys) (x : Entity) : w.record? k x = none := by
  rw [record?, Catalog.find?_eq_none_iff.mpr h]
  rfl

/-- Cleared from all tables, the entity has no record left. -/
theorem Cleared.record?_eq_ite (h : Cleared e w.tables.keys w w') (k : K) (x : Entity) :
    w'.record? k x = if x = e then none else w.record? k x := by
  rw [h.record?_eq]
  by_cases hk : k ∈ w.tables.keys
  · simp [hk]
  · simp [hk, record?_eq_none_of_not_mem hk]

/-- Cleared from all tables under other locks, an entity that leaves the roster is gone. -/
theorem razed_freed (hw : w.Fit) (hw' : w'.Fit) {bank : Bank}
    (h : Cleared e w.tables.keys (w.withBank bank) w')
    (hlends : ∀ k, (w'.withBank w.bank).LendsOut k ↔ w.LendsOut k)
    (hsize : bank.size = w.bank.size) :
    Razed e [.notice (.destroyed e)] w { (w'.freed e).withBank w.bank with
      events := (w'.freed e).events.push (.notice (.destroyed e)) } := by
  have hsize' : (w'.freed e).bank.size = w.bank.size :=
    (congrArg Bank.size h.bank_eq).trans hsize
  have hfit := (hw'.freed e).withBank hw.enterable hsize'.le
  have hrecords : ∀ k x, w'.record? k x = if x = e then none else w.record? k x :=
    Cleared.record?_eq_ite (w := w.withBank bank) h
  have haside : Aside (w.withBank bank) (w'.freed e) :=
    h.aside.trans (.of_local rfl (Arena.isLocal_removeNotices _ _))
  have hbank : Calm w (w.withBank bank) := .of_eq rfl
  have hcalm : Calm w (w'.freed e) := hbank.trans haside.calm
  obtain ⟨ids, hids, howned⟩ := h.handles_eq
  refine ⟨hfit.congr rfl rfl rfl rfl, rfl, congrArg (Roster.without · e) h.roster_eq,
    h.observers_eq, h.keys_eq, hlends, haside.told.trans (.of_push_told rfl rfl),
    hcalm.trans (.of_push rfl rfl), hrecords, ids, hids, fun id => (howned id).trans ?_⟩
  · refine exists_congr fun k => ⟨fun ⟨_, hr⟩ => hr, fun ⟨r, hr, hid⟩ => ⟨?_, r, hr, hid⟩⟩
    by_contra hk
    rw [record?_eq_none_of_not_mem hk] at hr
    cases hr

end World

namespace Run

theorem free_of_live (hw : w.Fit) (he : w.isLive e = true) : free e w = .ok () (w.freed e) := by
  obtain ⟨l, hl⟩ := hw.roster
  obtain ⟨info, hinfo⟩ := hw.exists_info? he
  show onRoster (·.free e) { w with events := _ } = _
  rw [onRoster, Roster.free_of_some hl hinfo]
  rfl

theorem free_of_dead (hw : w.Fit) (he : w.isLive e = false) :
    free e w = .error (.fault (.recordNotFound e Fault.registryName)) w := by
  obtain ⟨l, hl⟩ := hw.roster
  have hinfo : w.roster.arena.get? e.ident = none := hw.info?_of_dead he
  have hnotices : w.roster.arena.removeNotices e.ident = [] := by
    rw [Arena.removeNotices, Arena.slotOf?, hl.sound.slotOf?_eq_none hinfo]
  show onRoster (·.free e) { w with events := w.events ++ _ } = _
  rw [hnotices, List.map_nil, Array.append_empty, onRoster, Roster.free_of_none hl hinfo]

/-- Clears an entity from all tables and takes it out of the roster. -/
def raze (e : Entity) : Run K Unit := do
  let kinds := (← get).tables.keys
  withAllTables do
    LockedRun.lift (clearEntity e kinds)
    LockedRun.lift (free e)
  note (.destroyed e)

theorem destroy_eq (run : Runner K) (e : Entity) (notify : Bool) :
    destroy run e notify = (do
      unless (← get).isLive e do fail (.recordNotFound e Fault.registryName)
      if notify then fire run (.entityDestroyed e)
      raze e) := rfl

/-- An entity that is cleared from all tables can leave the roster. -/
theorem clearEntity_free_cases (hw : w.Fit) (e : Entity) :
    (∃ v, (clearEntity e w.tables.keys >>= fun _ => free e) w = .ok () (v.freed e) ∧ v.Fit ∧
      World.Cleared e w.tables.keys w v ∧ w.isLive e = true) ∨
    ∃ f v, (clearEntity e w.tables.keys >>= fun _ => free e) w = .error f v ∧ v.Fit ∧
      w.bank.Extends v.bank ∧ World.Beside (fun _ => False) w v ∧
      (w.isLive e = false ∨ f.breaks = true ∧ ∃ k, w.LendsOut k) := by
  have hpass : Passes (fun _ w w' => World.Beside (fun _ => False) w w') w
      (clearEntity e w.tables.keys w) := keeps_clearEntity .beside_self e w.tables.keys w hw
  rcases clearEntity_cases e hw fun _ => id with
    ⟨v, hok, hcleared⟩ | ⟨f, v, herr, hbreaks, k, -, hk⟩
  · rw [hok] at hpass
    have hlive : v.isLive e = w.isLive e := by rw [World.isLive, hcleared.roster_eq, World.isLive]
    rw [bind_of_ok hok]
    cases he : w.isLive e with
    | true =>
      exact .inl ⟨v, free_of_live hpass.fit (hlive.trans he), hpass.fit, hcleared, rfl⟩
    | false =>
      exact .inr ⟨_, v, free_of_dead hpass.fit (hlive.trans he), hpass.fit, hpass.locks,
        hpass.keeps, .inl rfl⟩
  · rw [herr] at hpass
    exact .inr ⟨f, v, bind_of_error herr, hpass.fit, hpass.locks, hpass.keeps,
      .inr ⟨hbreaks, k, hk⟩⟩

/-- The entity is razed, unless it does not live or the contents of a table are lent out. The latter
breaks it off. -/
theorem raze_cases (hw : w.Fit) (e : Entity) :
    (∃ w', raze e w = .ok () w' ∧ w.isLive e = true ∧
        World.Razed e [.notice (.destroyed e)] w w') ∨
      ∃ f w', raze e w = .error f w' ∧ w'.Fit ∧ w.bank.Extends w'.bank ∧
        World.Beside (fun _ => False) w w' ∧
        (w.isLive e = false ∨ f.breaks = true ∧ ∃ k, w.LendsOut k) := by
  obtain ⟨-, hunder, hsame, hsize⟩ := hw.taken
  have hkeys : w.taken.2.tables.keys = w.tables.keys := by rw [hsame]
  have hlive : w.taken.2.isLive e = w.isLive e := by rw [hsame, World.isLive, World.isLive]
  have hlends : ∀ k, w.taken.2.LendsOut k ↔ w.LendsOut k := fun k => by
    have htables : w.taken.2.tables = w.tables := by rw [hsame]
    simp only [World.LendsOut, htables]
    refine exists_congr fun d => and_congr_right fun hd => ?_
    rw [hunder.lent_eq (hw.lock_lt _ (Catalog.mem_entries_of_find? hd))]
  let op : Run K Unit := clearEntity e w.tables.keys >>= fun _ => free e
  have hraze : raze e w = (withAllTables (LockedRun.lift op) >>= fun _ => note (.destroyed e)) w := by
    simp only [op, LockedRun.lift_bind]
    rfl
  rw [hraze]
  rcases hkeys ▸ clearEntity_free_cases hunder.fit e with
    ⟨v, hok, hv, hcleared, he⟩ | ⟨f, v, herr, hv, hlocks, hbeside, hwhy⟩
  · have hlift := LockedRun.lift_of_ok hok
    have hleft : left (LockedRun.lift op w.taken) = (w.taken.1, v.freed e) := congrArg left hlift
    obtain ⟨bank, heq, hlocks, ho, hbank⟩ := withAllTables_eq hw
      (hleft ▸ hunder.extend (hv.freed e) (.of_eq hcleared.bank_eq))
    rw [hleft] at heq hbank
    obtain rfl : bank = w.bank :=
      hlocks.eq_of_size (hbank.trans ((congrArg Bank.size hcleared.bank_eq).trans hsize))
    rw [hlift] at heq
    have hlends' : ∀ k, (v.withBank w.bank).LendsOut k ↔ v.LendsOut k := fun k => by
      refine exists_congr fun d => and_congr_right fun hd => ?_
      have hlt := hv.lock_lt _ (Catalog.mem_entries_of_find? hd)
      rw [hcleared.bank_eq, hsize] at hlt
      show (w.bank.get d.lock).lent = true ↔ (v.bank.get d.lock).lent = true
      rw [hcleared.bank_eq, hunder.lent_eq hlt]
    refine .inl ⟨_, bind_of_ok heq, hlive.symm.trans he, ?_⟩
    refine World.razed_freed hw hv (hsame ▸ hcleared) (fun k => ?_) hsize
    exact (hlends' k).trans ((hcleared.lendsOut_iff k).trans (hlends k))
  · have hlift := LockedRun.lift_of_error herr
    have hleft : left (LockedRun.lift op w.taken) = (w.taken.1, v) := congrArg left hlift
    obtain ⟨bank, heq, hlocks', ho, hbank⟩ := withAllTables_eq hw
      (hleft ▸ hunder.extend hv hlocks)
    rw [hleft] at heq hbank
    rw [hlift] at heq
    refine .inr ⟨f, _, bind_of_error heq, hv.withBank ho hbank.ge, hlocks', ?_, ?_⟩
    · exact (hsame ▸ World.beside_withBank _).trans (hbeside.trans (World.beside_withBank bank))
    · rw [← hlive]
      exact hwhy.imp_right (And.imp_right (Exists.imp fun k => (hlends k).mp))

end Run

end EntityStore
