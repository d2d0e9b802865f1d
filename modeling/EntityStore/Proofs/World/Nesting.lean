import EntityStore.Proofs.Table.Callbacks
import EntityStore.Proofs.World.Reading
import EntityStore.Proofs.World.Scripts
import EntityStore.Sample

/-!
# Operations within operations

However deep a thread has entered the lock of a table, every operation leaves it as deep as it was, with
whatever it calls back and however it ends; and what asks for a table that the thread has already comes to
nothing.
-/
namespace EntityStore

open Guarded (Dealing Op Restores Barred)
open Run (left)
open World (caller)

/-- How requests to a store nest, of which some take the contents from behind the lock. -/
structure Guarded.Nests {σ Q A : Type} (me : Thread) (serve : Q → Op σ A) (takes : Q → Bool) :
    Prop where
  /-- Whatever state the lock is in, a request leaves the thread as deep in it as it was. -/
  served : ∀ q, Restores me (serve q)
  /-- So does whatever is done by requests, with the contents taken or the lock entered meanwhile,
  nested to any depth. -/
  dealt : ∀ {α : Type} (d : Dealing σ Q A α), Restores me (d.run me serve)
  /-- A request for contents that the thread has is refused, and nothing has changed. -/
  refused : ∀ q s, takes q = true → 0 < s.lock.depthOf me → s.lock.lent = true →
    serve q s = .error (.breach (.nestedGuard s.lock.name)) s
  /-- If an operation calls back with the contents taken and such a request comes first, the operation
  ends with it, and nothing has changed. -/
  escaped : ∀ {α : Type} (q : σ → Q) (next : σ → A → Op σ α) s, (∀ c, takes (q c) = true) →
    s.lock.Open me → Guarded.within me (do
      let c ← Guarded.contents?
      next c (← serve (q c))) s = .error (.breach (.nestedGuard s.lock.name)) s

theorem Guarded.nests_of {σ Q A : Type} {me : Thread} {serve : Q → Op σ A} {takes : Q → Bool}
    (hrestores : ∀ q, Restores me (serve q)) (hbarred : ∀ q, takes q = true → Barred me (serve q)) :
    Nests me serve takes where
  served := hrestores
  dealt d := d.restores hrestores
  refused q s hq hdepth := hbarred q hq s (Lock.open_of_depthOf_pos hdepth)
  escaped q next s hq ho := by
    have hbody : Barred me (do
        let c ← Guarded.contents?
        next c (← serve (q c))) := fun s => ((hbarred _ (hq s.contents)).bind _ s)
    exact hbody.within_eq ho

/-- The operations that call back leave the thread as deep in the lock as it was, whatever is done in the
callbacks. -/
structure CallsBack (R : Type) [Record R] (me : Thread) : Prop where
  withRecord : ∀ {α : Type} e
    (f : R → Dealing (Table R) (Table.Request Entity R) (Table.Answer R) α),
    Restores me (Table.withRecord me e fun r => (f r).run me (Table.serve me))
  /-- The rows may be all of them in their order, or as a workforce is given them. -/
  visit : ∀ rows
    (f : Entity → R → Dealing (Table R) (Table.Request Entity R) (Table.Answer R) Unit),
    Restores me (Table.visit me rows fun e r => (f e r).run me (Table.serve me))
  /-- Whichever records are compared, and in which order. -/
  sortWith : ∀ way
    (le : R → R → Dealing (Table R) (Table.Request Entity R) (Table.Answer R) Bool),
    Restores me (Table.sortWith me way fun a b => (le a b).run me (Table.serve me))
  withNamed : ∀ {α : Type} name
    (f : R → Dealing (NamedTable R) (NamedTable.Request R) (NamedTable.Answer R) α),
    Restores me (NamedTable.withRecord me name fun r => (f r).run me (NamedTable.serve me))
  /-- If the callbacks only read and compare, these are what tables do on request. -/
  measure_eq : ∀ e (f : R → Int64), Table.serve me (.measure e f) = (do
    return .number (← Table.withRecord me e fun r => pure (f r)) : Op (Table R) (Table.Answer R))
  sort_eq : ∀ way (le : R → R → Bool),
    (∀ p : Packed Entity R, (way p.values).outcome le = (p.sortedSlots le).toArray) →
    Table.sortWith me way (fun a b => pure (le a b)) = Table.change me fun t => ((), t.sort le)
  measureNamed_eq : ∀ name (f : R → Int64), NamedTable.serve me (.measure name f) = (do
    return .number (← NamedTable.withRecord me name fun r => pure (f r)) :
      Op (NamedTable R) (NamedTable.Answer R))

theorem callsBack (R : Type) [Record R] (me : Thread) : CallsBack R me where
  withRecord e f := Table.restores_withRecord e fun r => (f r).restores Table.restores_serve
  visit rows f := Table.restores_visit rows fun e r => (f e r).restores Table.restores_serve
  sortWith way le := Table.restores_sortWith way fun a b => (le a b).restores Table.restores_serve
  withNamed name f :=
    NamedTable.restores_withRecord name fun r => (f r).restores NamedTable.restores_serve
  measure_eq := Table.serve_measure
  sort_eq _ _ := Table.sortWith_pure
  measureNamed_eq := NamedTable.serve_measure

variable {K : Type} [Schema K] [DecidableEq K] {w : World K} {k : K}

namespace Run

section Lent

variable {run : Runner K} {turns : Nat} {self : Option Entity}

theorem perform_table_of_lent (hw : w.Fit) {d : Desk (Table (Schema.Row k))}
    (hd : w.tables.find? k = some d) (hlent : (w.bank.get d.lock).lent = true)
    {q : Table.Request Who (Schema.Row k)} (hq : (q.mapEntity (·.resolve self)).takes = true) :
    perform run turns self (.table k q) w =
      .error (.breach (.nestedGuard (w.bank.get d.lock).name)) w :=
  bind_of_error (onTable_of_barred hw hd hlent (Table.barred_serve hq))

theorem perform_shared_of_lent (hw : w.Fit) (hkeys : w.sharedTables.keys.Nodup)
    {d : Desk (NamedTable (Schema.Row k))} (hd : w.sharedTables.find? k = some d)
    (hlent : (w.bank.get d.lock).lent = true) {q : NamedTable.Request (Schema.Row k)}
    (hq : q.takes = true) : perform run turns self (.shared k q) w =
      .error (.breach (.nestedGuard (w.bank.get d.lock).name)) w := by
  refine bind_of_error ?_
  rw [onShared, bind_of_ok (shared_of_find? hd)]
  have hserve := NamedTable.barred_serve hq (w.atDesk d) (hw.enterable _) hlent
  refine (atDesk_of_error hserve).trans ?_
  have htables : w.sharedTables.update k (fun d' => { d' with contents := d.contents }) =
      w.sharedTables := Catalog.update_eq_self hkeys hd rfl
  have hafter : w.afterDesk d (w.atDesk d) = w := by
    simp [World.afterDesk, World.atDesk, Bank.set_get]
  rw [hafter]
  exact congrArg (fun sharedTables => EStateM.Result.error _ { w with sharedTables }) htables

theorem perform_forEach_of_lent (hw : w.Fit) {d : Desk (Table (Schema.Row k))}
    (hd : w.tables.find? k = some d) (hlent : (w.bank.get d.lock).lent = true) (body : Script K) :
    perform run turns self (.forEach k body) w =
      .error (.breach (.nestedGuard (w.bank.get d.lock).name)) w := by
  refine bind_of_error ?_
  rw [forEachRow, bind_of_ok (component_of_find? hd)]
  exact bind_of_error (onLock_openGuard_of_lent (hw.enterable _) hlent)

/-- If what is done first for a record fails and has done nothing, the table is given back and nothing
has changed. -/
theorem forEachRow_of_error (hw : w.Fit) {d : Desk (Table (Schema.Row k))}
    (hd : w.tables.find? k = some d) (hlent : (w.bank.get d.lock).lent = false)
    (hrows : d.contents.rows.keys ≠ []) {body : Entity → Run K Unit} {f : Failure}
    (hbody : ∀ e, body e (opened w d.lock) = .error f (opened w d.lock)) :
    forEachRow k body w = .error f w := by
  have hl : d.lock < w.bank.size := hw.lock_lt _ (Catalog.mem_entries_of_find? hd)
  have hclose : onLock d.lock (Lock.closeGuard caller) (opened w d.lock) = .ok () w := by
    rw [onLock_closeGuard (hw.enterable _) hl hlent (.refl _), opened, Bank.set_set, Bank.set_get]
  have hrun : d.contents.rows.keys.forM body (opened w d.lock) = .error f (opened w d.lock) := by
    obtain ⟨e, es, hes⟩ := List.exists_cons_of_ne_nil hrows
    rw [hes]
    exact bind_of_error (hbody e)
  rw [forEachRow, bind_of_ok (component_of_find? hd),
    bind_of_ok (onLock_openGuard (hw.enterable _) hlent),
    ensuring_of_ok (by rw [hrun]; exact hclose), hrun]
  rfl

/-- A script that is run for every entity of a table asks for the table. -/
theorem perform_forEach_of_nested (hw : w.Fit) {d : Desk (Table (Schema.Row k))}
    (hd : w.tables.find? k = some d) (hlent : (w.bank.get d.lock).lent = false)
    (hrows : d.contents.rows.keys ≠ []) {q : Table.Request Who (Schema.Row k)}
    (hq : ∀ e, (q.mapEntity (·.resolve (some e))).takes = true) (n : Nat) (label : String)
    (tolerated : Bool) (rest : Script K) :
    perform (runScript (n + 1)) turns self (.forEach k (⟨label, .table k q, tolerated⟩ :: rest)) w =
      .error (.breach (.nestedGuard (w.bank.get d.lock).name)) w := by
  have hget : (opened w d.lock).bank.get d.lock = (w.bank.get d.lock).entered caller true :=
    Bank.get_set_self (hw.lock_lt _ (Catalog.mem_entries_of_find? hd))
  refine bind_of_error (forEachRow_of_error hw hd hlent hrows fun e => ?_)
  have hstep : perform (runScript n) n (some e) (.table k q) (opened w d.lock) = _ :=
    perform_table_of_lent (fit_opened hw d.lock) hd (by rw [hget]; rfl) (hq e)
  rw [hget] at hstep
  exact bind_of_error (attempt_of_breaks hstep rfl)

end Lent

end Run

/-- How verbs nest in a world, whose locks the caller may have entered to any depth. -/
structure World.Nests (w : World K) : Prop where
  /-- Every verb, with scripts nested to any depth, leaves every lock as it was, depth and all. -/
  kept : ∀ n turns self (v : Verb K) l, l < w.bank.size →
    (left (Run.perform (Run.runScript n) turns self v w)).bank.get l = w.bank.get l
  /-- A request for a table that is taken is refused, and nothing in the world has changed. -/
  refused : ∀ run turns self k d (q : Table.Request Who (Schema.Row k)),
    w.tables.find? k = some d → (w.bank.get d.lock).lent = true →
    (q.mapEntity (·.resolve self)).takes = true → Run.perform run turns self (.table k q) w =
      .error (.breach (.nestedGuard (w.bank.get d.lock).name)) w
  refusedShared : ∀ run turns self k d (q : NamedTable.Request (Schema.Row k)),
    w.sharedTables.keys.Nodup → w.sharedTables.find? k = some d →
    (w.bank.get d.lock).lent = true → q.takes = true →
    Run.perform run turns self (.shared k q) w =
      .error (.breach (.nestedGuard (w.bank.get d.lock).name)) w
  refusedForEach : ∀ run turns self k d body, w.tables.find? k = some d →
    (w.bank.get d.lock).lent = true → Run.perform run turns self (.forEach k body) w =
      .error (.breach (.nestedGuard (w.bank.get d.lock).name)) w
  /-- If a script that is run for the entities of a table begins with such a request, then all of it
  ends there, and nothing in the world has changed. -/
  escaped : ∀ n turns self k d (q : Table.Request Who (Schema.Row k)) label tolerated rest,
    w.tables.find? k = some d → (w.bank.get d.lock).lent = false → d.contents.rows.keys ≠ [] →
    (∀ e, (q.mapEntity (·.resolve (some e))).takes = true) →
    Run.perform (Run.runScript (n + 1)) turns self
      (.forEach k (⟨label, .table k q, tolerated⟩ :: rest)) w =
        .error (.breach (.nestedGuard (w.bank.get d.lock).name)) w

theorem World.Fit.nests (hw : w.Fit) : w.Nests where
  kept n turns self v := (Run.passes_verb_top hw n turns self v).locks.get_eq
  refused _ _ _ _ _ _ hd hlent := Run.perform_table_of_lent hw hd hlent
  refusedShared _ _ _ _ _ _ hkeys hd hlent := Run.perform_shared_of_lent hw hkeys hd hlent
  refusedForEach _ _ _ _ _ body hd hlent := Run.perform_forEach_of_lent hw hd hlent body
  escaped n _ _ _ _ _ label tolerated rest hd hlent hrows hq :=
    Run.perform_forEach_of_nested hw hd hlent hrows hq n label tolerated rest

/-- Every operation of a table leaves a thread as deep in the lock of the table as it was when the
operation was called, however deep that was and however the operation ends. A request for a table that
the thread has taken is refused and changes nothing. -/
theorem depth_given_back (R : Type) [Record R] (me : Thread) (hw : w.Fit) :
    Lock.CountsGuards me ∧
      Guarded.Nests me (Table.serve me : _ → Op (Table R) _) Table.Request.takes ∧
      Guarded.Nests me (NamedTable.serve me : _ → Op (NamedTable R) _) NamedTable.Request.takes ∧
      CallsBack R me ∧ w.Nests :=
  ⟨Lock.countsGuards me, Guarded.nests_of Table.restores_serve fun _ => Table.barred_serve,
    Guarded.nests_of NamedTable.restores_serve fun _ => NamedTable.barred_serve, callsBack R me,
    hw.nests⟩

/-- A thread that has entered the lock of a table twice asks, when it is called back with a record, to
destroy that record. -/
theorem depth_given_back_twice :
    let _ := Sample.schema ""
    let w : World Sample.Kind := { settings := {}, plans := [] }
    let e : Entity := ⟨⟨0, ⟨1⟩, by decide⟩⟩
    let lock : Lock :=
      { name := "Pos", gate := { word := { held := true } }, owner := some 7, depth := 2 }
    let s : Guarded (Table (Schema.Row Sample.Kind.pos)) :=
      { lock, contents := ({} : Table _).placed e ⟨1, 2⟩ }
    let op := Table.withRecord 7 e fun _ => (Dealing.ask (.destroy e) fun
      | .ok _ => .give true
      | .error f => .fail f).run 7 (Table.serve 7)
    w.Fit ∧ (Guarded.left (op s)).lock.depthOf 7 = 2 ∧
      op s = .error (.breach (.nestedGuard "Pos")) s ∧ w.Nests := by
  intro _ w e lock s op
  have hw : w.Fit := World.fit_start {} []
  obtain ⟨-, -, -, hcalls, hnests⟩ := depth_given_back (Schema.Row Sample.Kind.pos) 7 hw
  exact ⟨hw, (hcalls.withRecord e _ s).depthOf_eq, rfl, hnests⟩

end EntityStore
