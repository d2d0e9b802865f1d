import EntityStore.Proofs.World.Twins

/-!
# Scripts that only use tables and handles

What is done while the locks of all tables are held is done alike to twins, and it makes no difference
whether they are held. So a script that only uses tables and handles, or locks all tables for that,
does the same to twins: it fails on both or on neither, and leaves twins.
-/
namespace EntityStore

open LockGroup (Change)
open Run (left KeepsFit mild_top)
open World (caller Alike Twins)

variable {K α β : Type} [Schema K] [DecidableEq K] {u v w : World K} {k : K}
variable {x y x' y' : Office K} {b b' : Bank} {s t : LockGroup × World K}
variable {Q : α → β → Prop}

/-- The locks are entered by other depths, and the same contents are lent out. -/
theorem World.Twins.withBanks (h : Twins x y u v) {c c' : Bank} (ho : ∀ l, (c.get l).Open caller)
    (ho' : ∀ l, (c'.get l).Open caller) (hsize : c.size = u.bank.size)
    (hsize' : c'.size = v.bank.size) (hlent : ∀ l, (c'.get l).lent = (c.get l).lent) :
    Twins x y (u.withBank c) (v.withBank c') :=
  ⟨h.alike.withBank (hsize'.trans (h.alike.size_eq.trans hsize.symm)) hlent,
    h.fit.withBank ho hsize.ge, h.fit'.withBank ho' hsize'.ge, h.onlyRecords, h.office_eq,
    h.office_eq'⟩

/-- Groups that stand alike over the locks of twins. -/
structure Paired (x y : Office K) (b b' : Bank) (s t : LockGroup × World K) : Prop where
  group_eq : t.1 = s.1
  twins : Twins x y s.2 t.2
  under : Under b s
  under' : Under b' t
  size_eq : b'.size = b.size
  lent_eq : ∀ l, (b'.get l).lent = (b.get l).lent

namespace Paired

theorem start (h : Twins x y u v) :
    Paired x y u.bank v.bank (u.tableGroup, u) (v.tableGroup, v) where
  group_eq := by
    show v.tableGroup = u.tableGroup
    rw [World.tableGroup, h.alike.tables_eq, World.tableGroup]
  twins := h
  under := .start h.fit
  under' := .start h.fit'
  size_eq := h.alike.size_eq
  lent_eq := h.alike.lent_eq

/-- The groups enter and leave locks alike. -/
theorem changed (h : Paired x y b b' s t) (c : Change) {bank bank' : Bank}
    (hsize : bank.size = s.2.bank.size) (hsize' : bank'.size = t.2.bank.size)
    (hunder : Under b (c.result s.1, s.2.withBank bank))
    (hunder' : Under b' (c.result t.1, t.2.withBank bank')) :
    Paired x y b b' (c.result s.1, s.2.withBank bank) (c.result t.1, t.2.withBank bank') where
  group_eq := by
    show c.result t.1 = c.result s.1
    rw [h.group_eq]
  twins := h.twins.withBanks hunder.fit.enterable hunder'.fit.enterable hsize hsize' fun l => by
    rw [hunder'.lent l, hunder.lent l, h.size_eq, h.lent_eq]
  under := hunder
  under' := hunder'
  size_eq := h.size_eq
  lent_eq := h.lent_eq

end Paired

namespace LockedRun

theorem coupled_call (c : Change) :
    Coupled (Paired x y b b') (· = ·) (call fun g => c.call g) (call fun g => c.call g) := by
  intro s t h
  obtain ⟨bank, hcall, hsize, hunder⟩ := call_eq h.under c
  obtain ⟨bank', hcall', hsize', hunder'⟩ := call_eq h.under' c
  rw [hcall, hcall']
  exact .ok rfl (h.changed c hsize hsize' hunder hunder')

theorem coupled_ensuring_call {body : LockedRun K α} {body' : LockedRun K β}
    (h : Coupled (Paired x y b b') Q body body') (c : Change) :
    Coupled (Paired x y b b') Q (body.ensuring (call fun g => c.call g))
      (body'.ensuring (call fun g => c.call g)) := by
  intro s t hst
  have hbody := h s t hst
  have hleft := hbody.left_right
  obtain ⟨bank, hcall, hsize, hunder⟩ := call_eq hleft.under c
  obtain ⟨bank', hcall', hsize', hunder'⟩ := call_eq hleft.under' c
  rw [ensuring_of_ok hcall, ensuring_of_ok hcall']
  exact hbody.ending (hleft.changed c hsize hsize' hunder hunder')

theorem coupled_lift {op : Run K α} {op' : Run K β} (h : Coupled (Twins x y) Q op op')
    (hfit : KeepsFit op) (hfit' : KeepsFit op') :
    Coupled (Paired x y b b') Q (lift op) (lift op') := by
  intro s t hst
  have hmatched := h s.2 t.2 hst.twins
  have hpass := hfit s.2 hst.twins.fit
  have hpass' := hfit' t.2 hst.twins.fit'
  have hpaired : Twins x y (left (op s.2)) (left (op' t.2)) →
      Paired x y b b' (s.1, left (op s.2)) (t.1, left (op' t.2)) := fun htwins =>
    ⟨hst.group_eq, htwins, hst.under.extend hpass.fit hpass.locks,
      hst.under'.extend hpass'.fit hpass'.locks, hst.size_eq, hst.lent_eq⟩
  cases hr : op s.2 <;> cases hr' : op' t.2 <;> rw [hr, hr'] at hmatched hpaired <;>
    cases hmatched
  · next hQ hP =>
    rw [lift_of_ok hr, lift_of_ok hr']
    exact .ok hQ (hpaired hP)
  · next he hP =>
    rw [lift_of_error hr, lift_of_error hr']
    exact .error he (hpaired hP)

omit [DecidableEq K] in
theorem ending_lift {τ : Type} (e : τ) (op : Run K α) (s : LockGroup × World K) :
    Run.ending e (lift op s) = Run.ending e (op s.2) := by
  rw [lift]
  cases op s.2 <;> rfl

omit [DecidableEq K] in
theorem left_lift (op : Run K α) (s : LockGroup × World K) :
    left (lift op s) = (s.1, left (op s.2)) := by
  rw [lift]
  cases op s.2 <;> rfl

end LockedRun

namespace Run

open LockedRun (coupled_call coupled_ensuring_call coupled_lift)

/-- With all locks held, twins are treated alike. -/
theorem coupled_withAllTables {body : LockedRun K α} {body' : LockedRun K β}
    (h : ∀ b b', Coupled (Paired x y b b') Q body body') :
    Coupled (Twins x y) Q (withAllTables body) (withAllTables body') := by
  intro u v huv
  have hwhole := Coupled.bind_eq (coupled_call .enterAll)
    (fun _ => coupled_ensuring_call (h u.bank v.bank) .release) _ _ (Paired.start huv)
  unfold withAllTables
  dsimp only [Change.call] at hwhole ⊢
  generalize (LockedRun.call (·.enterAll) >>= fun _ => body.ensuring _) (u.tableGroup, u) = r at hwhole
  generalize (LockedRun.call (·.enterAll) >>= fun _ => body'.ensuring _) (v.tableGroup, v) = r'
    at hwhole
  cases hwhole with
  | ok hQ hP => exact .ok hQ hP.twins
  | error he hP => exact .error he hP.twins

/-- What is done with all locks held is done to a world that only differs in that, and afterwards the
locks are as before. -/
theorem withAllTables_lift (hv : v.Fit) {op : Run K α} (hop : KeepsFit op) :
    ∃ (v' : World K) (bank : Bank),
      withAllTables (LockedRun.lift op) v = ending ((left (op v')).withBank bank) (op v') ∧
        (∀ x y u, Twins x y u v → Twins x y u v') ∧
        ∀ x y u, Twins x y u (left (op v')) → Twins x y u ((left (op v')).withBank bank) := by
  obtain ⟨-, hunder, hsame, hsize⟩ := hv.taken
  have hpass := hop v.taken.2 hunder.fit
  have hextend : Under v.bank (left (LockedRun.lift op v.taken)) := by
    rw [LockedRun.left_lift]
    exact hunder.extend hpass.fit hpass.locks
  obtain ⟨bank, heq, hlocks, ho, hsize'⟩ := withAllTables_eq hv hextend
  rw [LockedRun.left_lift] at heq hsize' hextend
  rw [LockedRun.ending_lift] at heq
  refine ⟨v.taken.2, bank, heq, fun x y u h => ?_, fun x y u h => ?_⟩
  · rw [hsame]
    refine h.withBanks h.fit.enterable hunder.fit.enterable rfl hsize fun l => ?_
    calc (v.taken.2.bank.get l).lent = (v.bank.get l).lent :=
          (hunder.lent l).trans ((Bank.Extends.refl v.bank).lent l).symm
      _ = (u.bank.get l).lent := h.alike.lent_eq l
  · refine h.withBanks h.fit.enterable ho rfl hsize' fun l => ?_
    calc (bank.get l).lent = ((left (op v.taken.2)).bank.get l).lent :=
          (hlocks.lent l).trans (hextend.lent l).symm
      _ = (u.bank.get l).lent := h.alike.lent_eq l

/-- What can be done can be done with all locks held. -/
theorem led_withAllTables (h : Twins x y u v) {op op' : Run K α}
    (hop : ∀ v', Twins x y u v' → Led (Twins x' y') (op u) (op' v')) (hfit : KeepsFit op') :
    Led (Twins x' y') (op u) (withAllTables (LockedRun.lift op') v) := by
  obtain ⟨v', bank, heq, hbefore, hafter⟩ := withAllTables_lift h.fit' hfit
  rw [heq, ← ending_left (op u)]
  exact (hop v' (hbefore _ _ _ h)).ending fun hleft => hafter _ _ _ hleft

/-- What can be done with all locks held can be done likewise to a twin. -/
theorem led_withAllTables_both (h : Twins x y u v) {op op' : Run K α}
    (hop : ∀ u' v', Twins x y u' v' → Led (Twins x' y') (op u') (op' v')) (hfit : KeepsFit op)
    (hfit' : KeepsFit op') :
    Led (Twins x' y') (withAllTables (LockedRun.lift op) u)
      (withAllTables (LockedRun.lift op') v) := by
  obtain ⟨u', bank, heq, hbefore, hafter⟩ := withAllTables_lift h.fit hfit
  have hu' : Twins x y u' v := (hbefore _ _ _ h.symm).symm
  have hled := led_withAllTables hu' (fun v' => hop u' v') hfit'
  rw [heq, ← ending_left (withAllTables (LockedRun.lift op') v)]
  exact hled.ending fun hleft => (hafter _ _ _ hleft.symm).symm

omit [DecidableEq K] in
theorem locksNamed_congr (h : Alike u v) (names : List String) :
    locksNamed v names = locksNamed u names := by rw [locksNamed, h.tables_eq, locksNamed]

section Errands

variable (ks : List K)

theorem coupled_lockSights (g : LockGroup) :
    Coupled (Twins x y) (fun _ _ => True) (lockSights g ks) (lockSights g ks) := by
  induction ks with
  | nil => exact coupled_pure trivial
  | cons k ks ih =>
    refine (coupled_component k).bind_eq fun d => coupled_get_bind fun u v h => ?_
    have hsize : Coupled (Twins x y) (· = ·) (onTable k (Table.read caller (·.rows.size)))
        (onTable k (Table.read caller (·.rows.size))) :=
      coupled_onTable (Table.deaf_read _) fun A _ => Table.neat_read _
    exact Coupled.bind_eq hsize (fun _ => ih.bind fun _ _ _ => coupled_pure trivial) u v h

theorem coupled_sights : Coupled (Paired x y b b') (fun _ _ => True) (sights ks) (sights ks) := by
  refine coupled_get_bind fun s t h => ?_
  rw [h.group_eq]
  exact coupled_lift (coupled_lockSights ks s.1) (keeps_lockSights mild_top s.1 ks)
    (keeps_lockSights mild_top s.1 ks) s t h

theorem coupled_makeOffer (self : Option Entity)
    (offer : Option (String × Who × Option ((k : K) × Schema.Row k))) :
    Coupled (Twins x y) (· = ·) (makeOffer ks self offer) (makeOffer ks self offer) := by
  cases offer with
  | none => exact coupled_pure rfl
  | some offer =>
    show Coupled (Twins x y) (· = ·) (offerByName ks _ _ _) (offerByName ks _ _ _)
    unfold offerByName
    cases ks.find? fun k => Schema.tableName k = offer.1 with
    | none => exact coupled_pure rfl
    | some k =>
      exact coupled_onTable (Table.deaf_populateAny _ _) fun A hA =>
        Table.neat_populateAny fun r _ => hA _ trivial

theorem coupled_exchangeLocks (exchange : Option (List String × List String)) :
    Coupled (Paired x y b b') (fun _ _ => True) (exchangeLocks ks exchange)
      (exchangeLocks ks exchange) := by
  cases exchange with
  | none => exact coupled_pure trivial
  | some names =>
    refine coupled_get_bind fun s t h => ?_
    rw [locksNamed_congr h.twins.alike, locksNamed_congr h.twins.alike]
    refine Coupled.bind_eq (coupled_call (.leaveOnly _)) (fun _ => ?_) s t h
    refine (coupled_sights ks).bind fun _ _ _ => (coupled_call (.enterOnly _)).bind_eq fun _ => ?_
    exact (coupled_sights ks).bind fun _ _ _ => coupled_pure trivial

variable {run : Runner K} (hfit : ∀ self script, KeepsFit (run self script))

include hfit

theorem coupled_openWindow (self : Option Entity) {window : Option (List String × Script K)}
    (hrun : ∀ names script, window = some (names, script) →
      Coupled (Twins x y) (· = ·) (run self script) (run self script)) :
    Coupled (Paired x y b b') (fun _ _ => True) (openWindow run self ks window)
      (openWindow run self ks window) := by
  cases window with
  | none => exact coupled_pure trivial
  | some window =>
    refine coupled_get_bind fun s t h => ?_
    rw [locksNamed_congr h.twins.alike]
    refine Coupled.bind_eq (coupled_call (.leaveOnly _)) (fun _ => ?_) s t h
    refine Coupled.bind (Q := fun _ _ => True) (coupled_ensuring_call ?_ .endWindow) fun _ _ _ => ?_
    · refine (coupled_sights ks).bind fun _ _ _ => ?_
      exact (coupled_lift (hrun _ _ rfl) (hfit _ _) (hfit _ _)).bind_eq fun _ => coupled_pure trivial
    · exact (coupled_sights ks).bind fun _ _ _ => coupled_pure trivial

theorem coupled_runErrand (self : Option Entity) {errand : Errand K (Verb K)}
    (hscript : Coupled (Twins x y) (· = ·) (run self errand.script) (run self errand.script))
    (hwindow : ∀ names script, errand.window = some (names, script) →
      Coupled (Twins x y) (· = ·) (run self script) (run self script)) :
    Coupled (Twins x y) (fun _ _ => True) (runErrand run self errand)
      (runErrand run self errand) := by
  refine coupled_get_bind fun u v h => ?_
  dsimp only
  rw [h.alike.tables_eq]
  have hoffer : KeepsFit (makeOffer u.tables.keys self errand.offer) := fun w hw =>
    passes_makeOffer mild_top hw _ self errand fun _ _ => trivial
  refine coupled_withAllTables (fun b b' => coupled_get_bind fun s t hst => ?_) u v h
  rw [hst.group_eq]
  refine Coupled.bind (coupled_sights _) (fun _ _ _ => ?_) s t hst
  refine (coupled_lift (coupled_makeOffer _ self _) hoffer hoffer).bind_eq fun _ => ?_
  refine (coupled_lift hscript (hfit _ _) (hfit _ _)).bind_eq fun _ => ?_
  refine (coupled_openWindow _ hfit self hwindow).bind fun _ _ _ => ?_
  exact (coupled_exchangeLocks _ _).bind fun _ _ _ => coupled_pure trivial

end Errands

end Run

/-- The verb only uses tables and handles, or looks at what there is. -/
inductive Verb.Stores : Verb K → Prop
  | showArchetype (id : ArchetypeId) : Stores (.showArchetype id)
  | showComponent (k : K) : Stores (.showComponent k)
  | showShared (k : K) : Stores (.showShared k)
  | showEntity (e : Who) : Stores (.showEntity e)
  | handle (q : HandleRequest) (direct : Bool) : Stores (.handle q direct)
  | table (k : K) (q : Table.Request Who (Schema.Row k)) : Stores (.table k q)
  | shared (k : K) (q : NamedTable.Request (Schema.Row k)) : Stores (.shared k q)
  | forEach (k : K) {body : Script K} (h : ∀ a ∈ body, Stores a.verb) : Stores (.forEach k body)
  | withSnapshot (k : K) {body : Script K} (h : ∀ a ∈ body, Stores a.verb) :
    Stores (.withSnapshot k body)
  | withAllTables {errand : Errand K (Verb K)} (hs : ∀ a ∈ errand.script, Stores a.verb)
    (hw : ∀ names script, errand.window = some (names, script) → ∀ a ∈ script, Stores a.verb) :
    Stores (.withAllTables errand)
  | describe : Stores .describe
  | fail (f : Fault) : Stores (.fail f)

def Script.Stores (script : Script K) : Prop := ∀ a ∈ script, a.verb.Stores

namespace Run

theorem keepsFit_runScript (n : Nat) (self : Option Entity) (script : Script K) :
    KeepsFit (runScript n self script) :=
  keeps_runScript (fun _ => .top) keeps_commitDestructions_top n () self script

theorem coupled_archetype (id : ArchetypeId) :
    Coupled (Twins x y) (· = ·) (archetype id : Run K (Archetype K)) (archetype id) := by
  refine coupled_get_bind fun u v h => ?_
  have harchetypes : v.archetypes = u.archetypes := by rw [h.alike.eq]
  rw [harchetypes]
  cases u.archetypes.find? id with
  | some a => exact .ok rfl h
  | none => exact .error rfl h

theorem coupled_perform {run : Runner K} (turns : Nat) (self : Option Entity) {v : Verb K}
    (hv : v.Stores) (hfit : ∀ self script, KeepsFit (run self script))
    (hrun : ∀ self script, Script.Stores script →
      Coupled (Twins x y) (· = ·) (run self script) (run self script)) :
    Coupled (Twins x y) (fun _ _ => True) (perform run turns self v) (perform run turns self v) := by
  cases hv with
  | showArchetype id => exact (coupled_archetype id).bind_eq fun _ => coupled_pure trivial
  | showComponent k => exact (coupled_component k).bind_eq fun _ => coupled_pure trivial
  | showShared k => exact (coupled_shared k).bind_eq fun _ => coupled_pure trivial
  | showEntity e => exact fun _ _ h => .ok trivial h
  | handle q direct => exact (coupled_handle run run q).bind_eq fun _ => coupled_pure trivial
  | table k q =>
    refine Coupled.bind (coupled_onTable (Table.deaf_serve _) fun A hA => ?_) fun _ _ _ =>
      coupled_pure trivial
    exact Table.neat_serve _ fun e _ => hA e trivial
  | shared k q =>
    exact (coupled_onShared (NamedTable.deaf_serve q) (NamedTable.neat_serve q)).bind
      fun _ _ _ => coupled_pure trivial
  | forEach k h =>
    exact (coupled_forEachRow k (fun e => hrun (some e) _ h) (fun _ => hfit _ _)
      fun _ => hfit _ _).bind_eq fun _ => coupled_pure trivial
  | withSnapshot k h =>
    refine coupled_asReader k ((coupled_copyRows k).bind_eq fun _ => ?_)
    exact (hrun self _ h).bind_eq fun _ =>
      (coupled_copyRows k).bind_eq fun _ => coupled_pure trivial
  | withAllTables hs hw =>
    exact coupled_runErrand hfit self (hrun self _ hs) fun names script h =>
      hrun self script (hw names script h)
  | describe => exact fun _ _ h => .ok trivial h
  | fail f => exact coupled_throw rfl

/-- A script that only uses tables and handles does the same to twins. -/
theorem coupled_runScript (n : Nat) (self : Option Entity) {script : Script K}
    (h : Script.Stores script) :
    Coupled (Twins x y) (· = ·) (runScript n self script) (runScript n self script) := by
  induction n generalizing self script with
  | zero => exact coupled_throw rfl
  | succ n ih =>
    exact coupled_runSteps fun a ha =>
      coupled_perform n self (h a ha) (keepsFit_runScript n) fun self script hs => ih self hs

end Run

end EntityStore
