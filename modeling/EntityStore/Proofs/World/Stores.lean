import EntityStore.Proofs.World.Passes

/-!
# Operations on the stores of a world

A table comes to be with a new lock and no records. What is done with a table or with its lock, alone
or with all tables at once, passes: the lock is given back as it was found, however deep the thread
was in it and whether or not the table was taken from behind it.
-/
namespace EntityStore

variable {K α β : Type} [Schema K] [DecidableEq K] {w w' : World K} {k : K}
variable {T : Roster K → Entity → Prop} {I : Bool → World K → World K → Prop}

namespace World

def locked (w : World K) (name : String) : World K :=
  { w with bank := (w.bank.add { name, spinLimit := w.settings.spinLimit }).2 }

def announced (w : World K) (k : K) : World K :=
  { w.locked (Schema.tableName k) with
    events := w.events.push (.notice (.tableInstantiated (Schema.tableName k))) }

/-- The world with the table of a kind, which it did not have. -/
def furnished (w : World K) (k : K) : World K :=
  { w.announced k with tables := w.tables.push k ⟨w.bank.size, {}⟩ }

theorem Fit.locked (h : w.Fit) (name : String) : (w.locked name).Fit where
  enterable l := by
    show ((w.bank.add _).2.get l).Open caller
    rw [Bank.get_add]
    split
    · exact .inr ⟨rfl, rfl, rfl⟩
    · exact h.enterable l
  lock_lt t ht := (h.lock_lt t ht).trans_le (Bank.extends_add w.bank rfl).size_le
  keys_nodup := h.keys_nodup
  tables := h.tables
  roster := h.roster
  handles := h.handles

theorem Fit.furnished (h : w.Fit) (hk : w.tables.find? k = none) : (w.furnished k).Fit where
  enterable := (h.locked _).enterable
  lock_lt t ht := by
    have hsize : w.bank.size < (w.furnished k).bank.size := by
      simp [World.furnished, World.announced, World.locked, Bank.add, Bank.size]
    rcases List.mem_append.mp ht with ht | ht
    · exact (h.lock_lt t ht).trans hsize
    · obtain rfl := List.mem_singleton.mp ht
      exact hsize
  keys_nodup := by
    show (w.tables.push k _).keys.Nodup
    rw [Catalog.keys_push]
    refine List.nodup_append.mpr ⟨h.keys_nodup, List.nodup_singleton k, fun j hj i hi => ?_⟩
    rintro rfl
    exact Catalog.find?_eq_none_iff.mp hk (List.mem_singleton.mp hi ▸ hj)
  tables j d hd := by
    change (w.tables.push k _).find? j = some d at hd
    by_cases hj : j = k
    · subst hj
      rw [Catalog.find?_push_self hk] at hd
      cases hd
      exact Table.sound_empty
    · rw [Catalog.find?_push_ne hj] at hd
      exact h.tables j d hd
  roster := h.roster
  handles := h.handles

theorem record?_furnished (hk : w.tables.find? k = none) (j : K) (e : Entity) :
    (w.furnished k).record? j e = w.record? j e := by
  show ((w.tables.push k _).find? j).bind _ = _
  by_cases hj : j = k
  · subst hj
    rw [Catalog.find?_push_self hk, record?, hk]
    rfl
  · rw [Catalog.find?_push_ne hj, record?]

theorem beside_furnished {S : Entity → Prop} (hk : w.tables.find? k = none) :
    Beside S w (w.furnished k) :=
  ⟨rfl, .of_push rfl rfl, fun j e he => .inl (record?_furnished hk j e ▸ he)⟩

section Desk

variable {σ : Type} {d : Desk σ} {g : Guarded σ} {P : σ → Prop} {S : Entity → Prop}

def atDesk (w : World K) (d : Desk σ) : Guarded σ :=
  { lock := w.bank.get d.lock, contents := d.contents, handles := w.handles, connected := true }

/-- The world after something has been done with a store, but for the store. -/
def afterDesk (w : World K) (d : Desk σ) (g : Guarded σ) : World K :=
  { w with
    bank := w.bank.set d.lock g.lock
    handles := g.handles
    events := w.events ++ g.journal.map Event.notice }

omit [DecidableEq K] in
theorem bank_afterDesk (hg : Guarded.Neat P (w.atDesk d) g) : (w.afterDesk d g).bank = w.bank := by
  show w.bank.set d.lock g.lock = w.bank
  rw [hg.lock_eq]
  exact Bank.set_get ..

theorem Fit.afterDesk (h : w.Fit) (hg : Guarded.Neat P (w.atDesk d) g) : (w.afterDesk d g).Fit where
  enterable := bank_afterDesk hg ▸ h.enterable
  lock_lt := bank_afterDesk hg ▸ h.lock_lt
  keys_nodup := h.keys_nodup
  tables := h.tables
  roster := h.roster
  handles := by
    obtain ⟨ids, hids⟩ := hg.handles_eq
    show g.handles.Sound
    rw [hids]
    exact HandleTable.Sound.withoutAll h.handles ids

theorem beside_afterDesk (hg : Guarded.Neat P (w.atDesk d) g) : Beside S w (w.afterDesk d g) := by
  obtain ⟨ns, hns, hlocal⟩ := hg.journal_eq
  have hjournal : g.journal = ns := by
    rw [hns]
    exact Array.empty_append
  refine ⟨rfl, .of_plain rfl fun e he => ?_, fun j e => .inl⟩
  obtain ⟨n, hn, rfl⟩ := Array.mem_map.mp he
  exact Event.isPlain_of_isLocal (hlocal n (hjournal ▸ hn))

end Desk

section PutBack

variable {d : Desk (Table (Schema.Row k))} {g : Guarded (Table (Schema.Row k))} {S : Entity → Prop}

def putBack (w : World K) {k : K} (d : Desk (Table (Schema.Row k)))
    (g : Guarded (Table (Schema.Row k))) : World K :=
  { w.afterDesk d g with
    tables := w.tables.update k fun d => { d with contents := g.contents } }

/-- Only entities that had a record, or of which `S` holds, have one in the table put back. -/
abbrev Stays (w : World K) (d : Desk (Table (Schema.Row k))) (S : Entity → Prop)
    (g : Guarded (Table (Schema.Row k))) : Prop :=
  Guarded.Neat (Table.Within fun e => (d.contents.rows.get? e).isSome = true ∨ S e) (w.atDesk d) g

theorem Fit.putBack (h : w.Fit) (hg : w.Stays d S g) : (w.putBack d g).Fit where
  enterable := (h.afterDesk hg).enterable
  lock_lt t ht := by
    change t ∈ (w.tables.update k _).entries at ht
    rcases Catalog.mem_update ht with hmem | ⟨d', hmem, rfl⟩
    · exact (h.afterDesk hg).lock_lt t hmem
    · exact (h.afterDesk hg).lock_lt ⟨k, d'⟩ hmem
  keys_nodup := by
    show (w.tables.update k _).keys.Nodup
    rw [Catalog.keys_update]
    exact h.keys_nodup
  tables j d' hd' := by
    change (w.tables.update k _).find? j = some d' at hd'
    by_cases hj : j = k
    · subst hj
      rw [Catalog.find?_update_self] at hd'
      obtain ⟨d'', -, rfl⟩ := Option.map_eq_some_iff.mp hd'
      exact hg.contents.sound
    · rw [Catalog.find?_update_ne hj] at hd'
      exact h.tables j d' hd'
  roster := h.roster
  handles := (h.afterDesk hg).handles

theorem record?_putBack (hd : w.tables.find? k = some d) (g : Guarded (Table (Schema.Row k)))
    (x : Entity) : (w.putBack d g).record? k x = g.contents.rows.get? x := by
  show ((w.tables.update k _).find? k).bind _ = _
  rw [Catalog.find?_update_self, hd]
  rfl

theorem record?_putBack_ne {j : K} (hj : j ≠ k) (d : Desk (Table (Schema.Row k)))
    (g : Guarded (Table (Schema.Row k))) (x : Entity) :
    (w.putBack d g).record? j x = w.record? j x := by
  show ((w.tables.update k _).find? j).bind _ = _
  rw [Catalog.find?_update_ne hj, record?]

theorem beside_putBack (hd : w.tables.find? k = some d) (hg : w.Stays d S g) :
    Beside S w (w.putBack d g) := by
  refine ⟨rfl, (beside_afterDesk (S := S) hg).aside.trans (.of_eq rfl), fun j e he => ?_⟩
  change (((w.tables.update k _).find? j).bind _).isSome = true at he
  by_cases hj : j = k
  · subst hj
    rw [Catalog.find?_update_self, hd] at he
    rw [record?, hd]
    exact hg.contents.allowed e he
  · rw [Catalog.find?_update_ne hj] at he
    exact .inl he

end PutBack

end World

namespace Run

open World (caller)

theorem get_bind {σ : Type} {f : σ → EStateM Failure σ α} (s : σ) : (get >>= f) s = f s s := rfl

theorem set_bind {σ : Type} {f : Unit → EStateM Failure σ α} (s s' : σ) :
    ((set s' : EStateM Failure σ Unit) >>= f) s = f () s' := rfl

section Component

theorem component_of_find? {d : Desk (Table (Schema.Row k))} (h : w.tables.find? k = some d) :
    component k w = .ok d w := by
  simp only [component, Catalog.getOrCreate, get_bind, tablesView, h]
  rfl

theorem component_of_unregistered (h : w.tables.find? k = none)
    (hc : w.components.contains k = false) :
    component k w = .error (.fault (.componentNotFound (Schema.typeName k))) w := by
  simp only [component, Catalog.getOrCreate, get_bind, tablesView, h]
  refine bind_of_error ?_
  simp only [get_bind, hc]
  rfl

theorem component_of_registered (h : w.tables.find? k = none)
    (hc : w.components.contains k = true) :
    component k w = .ok ⟨w.bank.size, {}⟩ (w.furnished k) := by
  have hcreate : (w.announced k).tables.find? k = none := h
  have hannounce : (do
      unless (← get).components.contains k do fail (.componentNotFound (Schema.typeName k))
      let desk ← furnish (Schema.tableName k) ({} : Table (Schema.Row k))
      note (.tableInstantiated (Schema.tableName k))
      return desk : Run K _) w = .ok ⟨w.bank.size, {}⟩ (w.announced k) := by
    simp only [get_bind, hc]
    rfl
  simp only [component, Catalog.getOrCreate, get_bind, tablesView, h]
  refine (bind_of_ok hannounce).trans ?_
  simp only [get_bind, Catalog.findOrInsert, hcreate]
  rfl

/-- The table of a kind is there, or comes to be, or is refused. -/
theorem component_cases (w : World K) (k : K) :
    (∃ d, w.tables.find? k = some d ∧ component k w = .ok d w) ∨
    (∃ f, component k w = .error (.fault f) w) ∨
    (w.tables.find? k = none ∧ component k w = .ok ⟨w.bank.size, {}⟩ (w.furnished k)) := by
  cases h : w.tables.find? k with
  | some d => exact .inl ⟨d, rfl, component_of_find? h⟩
  | none =>
    cases hc : w.components.contains k with
    | false => exact .inr (.inl ⟨_, component_of_unregistered h hc⟩)
    | true => exact .inr (.inr ⟨rfl, component_of_registered h hc⟩)

theorem find?_of_component {d : Desk (Table (Schema.Row k))} (h : component k w = .ok d w') :
    w'.tables.find? k = some d := by
  obtain ⟨d', hd', hc⟩ | ⟨f, hc⟩ | ⟨hnone, hc⟩ := component_cases w k
  · rw [hc] at h
    cases h
    exact hd'
  · rw [hc] at h
    cases h
  · rw [hc] at h
    cases h
    exact Catalog.find?_push_self hnone

/-- A table that comes to be has no records. -/
theorem record?_of_component {d : Desk (Table (Schema.Row k))} (h : component k w = .ok d w')
    (j : K) (x : Entity) : w'.record? j x = w.record? j x := by
  obtain ⟨d', hd', hc⟩ | ⟨f, hc⟩ | ⟨hnone, hc⟩ := component_cases w k <;> rw [hc] at h <;> cases h
  · rfl
  · exact World.record?_furnished hnone j x

theorem keeps_component (hI : Mild T I) (k : K) : Keeps I (component k) := by
  intro w hw
  obtain ⟨d, -, hc⟩ | ⟨f, hc⟩ | ⟨hnone, hc⟩ := component_cases w k
  · exact .stay hI hw (by rw [hc]; rfl)
  · exact .stay hI hw (by rw [hc]; rfl)
  · rw [hc]
    exact ⟨hw.furnished hnone, Bank.extends_add w.bank rfl, hI.beside (World.beside_furnished hnone)⟩

end Component

/-- What a table operation does to the records: only entities of which `S` holds may come to have
one. -/
def Stocks (S : Entity → Prop) (op : Guarded.Op (Table (Schema.Row k)) α) : Prop :=
  ∀ A : Entity → Prop, (∀ e, S e → A e) → Guarded.IsNeat (Table.Within A) caller op

section AtDesk

variable {σ : Type} {d : Desk σ} {put : σ → World K → World K} {op : Guarded.Op σ α}
  {g : Guarded σ}

omit [DecidableEq K] in
theorem atDesk_of_ok {a : α} (h : op (w.atDesk d) = .ok a g) :
    atDesk d put op w = .ok a (put g.contents (w.afterDesk d g)) := by
  rw [World.atDesk] at h
  rw [atDesk, h]
  rfl

omit [DecidableEq K] in
theorem atDesk_of_error {e : Failure} (h : op (w.atDesk d) = .error e g) :
    atDesk d put op w = .error e (put g.contents (w.afterDesk d g)) := by
  rw [World.atDesk] at h
  rw [atDesk, h]
  rfl

omit [DecidableEq K] in
theorem left_atDesk (d : Desk σ) (put : σ → World K → World K) (op : Guarded.Op σ α) (w : World K) :
    left (atDesk d put op w) = put (Guarded.left (op (w.atDesk d))).contents
      (w.afterDesk d (Guarded.left (op (w.atDesk d)))) := by
  cases h : op (w.atDesk d) with
  | ok a g => rw [atDesk_of_ok h]; rfl
  | error e g => rw [atDesk_of_error h]; rfl

end AtDesk

abbrev putTable (k : K) (t : Table (Schema.Row k)) (w : World K) : World K :=
  { w with tables := w.tables.update k fun d => { d with contents := t } }

theorem passes_atDesk (hI : Mild T I) (hw : w.Fit) {d : Desk (Table (Schema.Row k))}
    (hd : w.tables.find? k = some d) {S : Entity → Prop}
    {op : Guarded.Op (Table (Schema.Row k)) α} (hop : Stocks S op)
    (hS : ∀ e, S e → T w.roster e) : Passes I w (atDesk d (putTable k) op w) := by
  have hg : w.Stays d S (Guarded.left (op (w.atDesk d))) :=
    hop _ (fun _ => .inr) _ (hw.enterable _) ⟨hw.tables k d hd, fun _ => .inl⟩
  have hleft : left (atDesk d (putTable k) op w) = w.putBack d (Guarded.left (op (w.atDesk d))) :=
    left_atDesk ..
  refine ⟨hleft ▸ hw.putBack hg, hleft ▸ .of_eq (World.bank_afterDesk hg), hleft ▸ hI.any _ ?_⟩
  exact hI.beside ((World.beside_putBack hd hg).mono hS)

/-- What is done with the table of a kind passes. -/
theorem passes_onTable (hI : Mild T I) (hw : w.Fit) {S : Entity → Prop}
    {op : Guarded.Op (Table (Schema.Row k)) α} (hop : Stocks S op)
    (hS : ∀ e, S e → T w.roster e) : Passes I w (onTable k op w) := by
  obtain ⟨d, hd, hc⟩ | ⟨f, hc⟩ | ⟨hnone, hc⟩ := component_cases w k
  · rw [onTable, bind_of_ok hc]
    exact passes_atDesk hI hw hd hop hS
  · rw [onTable, bind_of_error hc]
    exact .stay hI hw rfl
  · rw [onTable, bind_of_ok hc]
    exact (passes_atDesk hI (hw.furnished hnone) (Catalog.find?_push_self hnone) hop hS).after hI
      (Bank.extends_add w.bank rfl) (hI.beside (World.beside_furnished hnone))

/-- What has been done with a table that was there. -/
theorem onTable_eq_of_ok (hw : w.Fit) {d : Desk (Table (Schema.Row k))}
    (hd : w.tables.find? k = some d) {op : Guarded.Op (Table (Schema.Row k)) α}
    (hneat : Stocks (fun _ => True) op) {a : α} (hok : onTable k op w = .ok a w') :
    ∃ g, op (w.atDesk d) = .ok a g ∧ w' = w.putBack d g ∧ g.lock = w.bank.get d.lock := by
  have hg := hneat (fun _ => True) (fun _ _ => trivial) (w.atDesk d) (hw.enterable _)
    ⟨hw.tables k d hd, fun _ _ => trivial⟩
  rw [onTable, bind_of_ok (component_of_find? hd)] at hok
  cases hop : op (w.atDesk d) with
  | ok b g =>
    rw [atDesk_of_ok hop] at hok
    cases hok
    rw [hop] at hg
    exact ⟨g, rfl, rfl, hg.lock_eq⟩
  | error f g =>
    rw [atDesk_of_error hop] at hok
    cases hok

theorem keeps_onTable (hI : Mild T I) {op : Guarded.Op (Table (Schema.Row k)) α}
    (hop : Stocks (fun _ => False) op) : Keeps I (onTable k op) :=
  fun _ hw => passes_onTable hI hw hop fun _ h => h.elim

theorem keeps_furnish (hI : Mild T I) {σ : Type} (name : String) (contents : σ) :
    Keeps I (furnish name contents : Run K (Desk σ)) := fun w hw =>
  ⟨hw.locked name, Bank.extends_add w.bank rfl,
    hI.beside ⟨rfl, .of_eq rfl, fun _ _ => .inl⟩⟩

/-- A value comes to be in a catalog that operations do not rely on. -/
theorem keeps_getOrCreate (hI : Mild T I) {J : Type} [DecidableEq J] {V : J → Type} (j : J)
    (view : Catalog.View (World K) J V) (hview : ∀ c w, World.Aloof w (view.write c w))
    {create : Run K (V j)} (hc : Keeps I create) : Keeps I (Catalog.getOrCreate view j create) := by
  refine keeps_get_bind fun w hw => ?_
  cases h : (view.read w).find? j with
  | some v => exact .stay hI hw rfl
  | none =>
    exact (hc.bind hI fun v => keeps_get_bind fun w hw => .aloof hI hw (hview _ _)) w hw

theorem keeps_shared (hI : Mild T I) (k : K) : Keeps I (shared k) := by
  refine keeps_getOrCreate hI k sharedView (fun _ _ => ⟨rfl, rfl, rfl, rfl, .of_eq rfl⟩) ?_
  refine keeps_get_bind fun w hw => ?_
  have hrest : Keeps I (do
      note (.sharedInstantiated (Schema.tableName k))
      furnish (Schema.tableName k) ({} : NamedTable (Schema.Row k))) :=
    (keeps_note hI rfl).bind hI fun _ => keeps_furnish hI _ _
  split
  · exact hrest w hw
  · exact ((keeps_fail hI _).bind hI fun _ => hrest) w hw

abbrev putShared (k : K) (t : NamedTable (Schema.Row k)) (w : World K) : World K :=
  { w with sharedTables := w.sharedTables.update k fun d => { d with contents := t } }

theorem passes_atDesk_shared (hI : Mild T I) (hw : w.Fit) (d : Desk (NamedTable (Schema.Row k)))
    {op : Guarded.Op (NamedTable (Schema.Row k)) α}
    (hop : Guarded.IsNeat (fun _ => True) caller op) : Passes I w (atDesk d (putShared k) op w) := by
  have hg := hop (w.atDesk d) (hw.enterable _) trivial
  refine Passes.after hI (.of_eq (World.bank_afterDesk hg)) (hI.beside (World.beside_afterDesk hg))
    (.aloof hI (hw.afterDesk hg) ?_)
  rw [left_atDesk]
  exact ⟨rfl, rfl, rfl, rfl, .of_eq rfl⟩

/-- What is done with the table by name of a kind passes. -/
theorem keeps_onShared (hI : Mild T I) {op : Guarded.Op (NamedTable (Schema.Row k)) α}
    (hop : Guarded.IsNeat (fun _ => True) caller op) : Keeps I (onShared k op) :=
  (keeps_shared hI k).bind hI fun d _ hw => passes_atDesk_shared hI hw d hop

section Behind

variable {d : Desk (Table (Schema.Row k))} {l : Nat}

abbrev opened (w : World K) (l : Nat) : World K :=
  { w with bank := w.bank.set l ((w.bank.get l).entered caller true) }

omit [DecidableEq K] in
theorem onLock_openGuard (ho : (w.bank.get l).Open caller) (hlent : (w.bank.get l).lent = false) :
    onLock l (Lock.openGuard caller) w = .ok () (opened w l) := by
  simp only [onLock, Bank.on, ho.openGuard_eq hlent]

omit [DecidableEq K] in
theorem onLock_openGuard_of_lent (ho : (w.bank.get l).Open caller)
    (hlent : (w.bank.get l).lent = true) :
    onLock l (Lock.openGuard caller) w =
      .error (.breach (.nestedGuard (w.bank.get l).name)) w := by
  simp only [onLock, Bank.on, ho.openGuard_of_lent hlent, Bank.set_get]

theorem fit_opened (hw : w.Fit) (l : Nat) : (opened w l).Fit where
  enterable x := by
    by_cases hx : x = l
    · subst hx
      rcases Nat.lt_or_ge x w.bank.size with hlt | hge
      · rw [Bank.get_set_self hlt]
        exact Lock.open_entered true
      · rw [Bank.get_of_size_le (by simpa using hge)]
        exact .inr ⟨rfl, rfl, rfl⟩
    · rw [Bank.get_set_ne _ (Ne.symm hx)]
      exact hw.enterable x
  lock_lt t ht := (hw.lock_lt t ht).trans_eq (Bank.size_set ..).symm
  keys_nodup := hw.keys_nodup
  tables := hw.tables
  roster := hw.roster
  handles := hw.handles

omit [DecidableEq K] in
/-- The contents are given back to a lock that is as it was when they were taken. -/
theorem onLock_closeGuard {v : World K} (ho : (w.bank.get l).Open caller) (hl : l < w.bank.size)
    (hlent : (w.bank.get l).lent = false) (hlocks : (opened w l).bank.Extends v.bank) :
    onLock l (Lock.closeGuard caller) v =
      .ok () { v with bank := v.bank.set l (w.bank.get l) } := by
  have hget : v.bank.get l = (w.bank.get l).entered caller true := by
    rw [hlocks.get_eq l (hl.trans_eq (Bank.size_set ..).symm), Bank.get_set_self hl]
  simp only [onLock, Bank.on, hget, ho.closeGuard_eq hlent]

theorem fit_closed {v : World K} (hw : w.Fit) (hl : l < w.bank.size) (hv : v.Fit)
    (hlocks : (opened w l).bank.Extends v.bank) :
    ({ v with bank := v.bank.set l (w.bank.get l) } : World K).Fit := by
  refine ⟨fun x => ?_, fun t ht => (hv.lock_lt t ht).trans_eq (Bank.size_set ..).symm,
    hv.keys_nodup, hv.tables, hv.roster, hv.handles⟩
  by_cases hx : x = l
  · subst hx
    rw [Bank.get_set_self ((hl.trans_eq (Bank.size_set ..).symm).trans_le hlocks.size_le)]
    exact hw.enterable x
  · rw [Bank.get_set_ne _ (Ne.symm hx)]
    exact hv.enterable x

/-- With the contents given back the locks are as they were. -/
theorem passes_closeGuard (hI : Mild T I) {v : World K} (hw : w.Fit) (hl : l < w.bank.size)
    (hlent : (w.bank.get l).lent = false) (hv : v.Fit)
    (hlocks : (opened w l).bank.Extends v.bank) :
    ∃ v' : World K, onLock l (Lock.closeGuard caller) v = .ok () v' ∧ v'.Fit ∧
      w.bank.Extends v'.bank ∧ I false v v' := by
  have hl' : l < (opened w l).bank.size := hl.trans_eq (Bank.size_set ..).symm
  refine ⟨{ v with bank := v.bank.set l (w.bank.get l) },
    onLock_closeGuard (hw.enterable l) hl hlent hlocks, fit_closed hw hl hv hlocks, ?_, ?_⟩
  · refine ⟨?_, fun x hx => ?_, fun x hx => ?_⟩
    · rw [Bank.size_set]
      exact (Bank.size_set ..).symm.trans_le hlocks.size_le
    · by_cases hxl : x = l
      · subst hxl
        rw [Bank.get_set_self (hl'.trans_le hlocks.size_le)]
      · rw [Bank.get_set_ne _ (Ne.symm hxl),
          hlocks.get_eq x (hx.trans_eq (Bank.size_set ..).symm), Bank.get_set_ne _ (Ne.symm hxl)]
    · rw [Bank.get_set_ne _ (by omega)]
      exact hlocks.fresh x ((Bank.size_set ..).trans_le hx)
  · exact hI.beside ⟨rfl, .of_eq rfl, fun _ _ => .inl⟩

/-- What is done for every record of a table, taken from behind its lock, passes. -/
theorem keeps_forEachRow (hI : Mild T I) (k : K) {body : Entity → Run K Unit}
    (hb : ∀ e, Keeps I (body e)) : Keeps I (forEachRow k body) := by
  intro w hw
  refine (keeps_component hI k w hw).bind hI fun d w' hd hw' => ?_
  have hl : d.lock < w'.bank.size :=
    hw'.lock_lt _ (Catalog.mem_entries_of_find? (find?_of_component hd))
  cases hlent : (w'.bank.get d.lock).lent with
  | true =>
    rw [bind_of_error (onLock_openGuard_of_lent (hw'.enterable _) hlent)]
    exact .stay hI hw' rfl
  | false =>
    rw [bind_of_ok (onLock_openGuard (hw'.enterable _) hlent)]
    have hopened : I false w' (opened w' d.lock) :=
      hI.beside ⟨rfl, .of_eq rfl, fun _ _ => .inl⟩
    have hrun : Passes I (opened w' d.lock) (d.contents.rows.keys.forM body _) :=
      keeps_forM hI hb _ (fit_opened hw' d.lock)
    obtain ⟨v', hclose, hfit, hlocks, hI'⟩ :=
      passes_closeGuard hI hw' hl hlent hrun.fit hrun.locks
    rw [ensuring_of_ok hclose]
    refine ⟨(left_ending ..).symm ▸ hfit, (left_ending ..).symm ▸ hlocks, ?_⟩
    have hkeeps := hI.trans (hI.follow hopened hrun.keeps) hI'
    rw [Bool.or_false] at hkeeps
    rw [broke_ending, left_ending]
    exact hkeeps

end Behind

/-- What is done as a reader of the copy of a table passes. -/
theorem keeps_asReader (hI : Mild T I) (k : K) {body : Run K α} (hb : Keeps I body) :
    Keeps I (asReader k body) := by
  refine (keeps_onTable hI fun A _ => Table.neat_admitReader).bind hI fun reader w hw => ?_
  refine (hb w hw).ensuring hI fun w' _ hw' => ⟨?_, ?_⟩
  · exact keeps_onTable hI (fun A _ => Table.neat_dismissReader reader) w' hw'
  · have hdismiss : ∀ (d : Desk (Table (Schema.Row k))) (v : World K),
        broke (atDesk d (putTable k) (Table.dismissReader reader) v) = false := fun _ _ => rfl
    obtain ⟨d, -, hc⟩ | ⟨f, hc⟩ | ⟨-, hc⟩ := component_cases w' k
    · rw [onTable, bind_of_ok hc]
      exact hdismiss d _
    · rw [onTable, bind_of_error hc]
      rfl
    · rw [onTable, bind_of_ok hc]
      exact hdismiss _ _

theorem keeps_copyRows (hI : Mild T I) (k : K) : Keeps I (copyRows k) :=
  (keeps_component hI k).bind hI fun _ => keeps_pure hI _

end Run

end EntityStore
