import EntityStore.Proofs.World.Systems

/-!
# What every script keeps

A verb may place a record for one entity, of which has to be known that it may have one. Beside that,
every verb keeps what is kept by the scripts that it runs and by the commit of the destructions; so by
induction on how deep they are nested all scripts keep it.
-/
namespace EntityStore

open Run (left Mild Tending Upkeep)
open World (caller)

variable {K α β : Type} [Schema K] [DecidableEq K] {w w' : World K} {k : K} {e : Entity}
variable {T : Roster K → Entity → Prop} {I : Bool → World K → World K → Prop}

def Verb.places? (self : Option Entity) : Verb K → Option Entity
  | .table _ q => (q.mapEntity (·.resolve self)).places?
  | .withAllTables errand =>
    errand.offer.bind fun (_, who, value) => value.map fun _ => who.resolve self
  | _ => none

/-- Whether the verb itself may bring it about that entities come or go. -/
def Verb.moves : Verb K → Bool
  | .create .. | .destroy .. | .commitDestructions | .commitCreations | .tick _ | .runTicker _ => true
  | _ => false

namespace Run

section Errands

theorem keeps_lockSights (hI : Mild T I) (g : LockGroup) (ks : List K) :
    Keeps I (lockSights g ks) := by
  induction ks with
  | nil => exact keeps_pure hI []
  | cons k ks ih =>
    refine (keeps_component hI k).bind hI fun d => keeps_get_bind fun w hw => ?_
    exact Keeps.bind hI (keeps_onTable hI fun A _ => Table.neat_read _)
      (fun _ => ih.bind hI fun _ => keeps_pure hI _) w hw

theorem keeps_sights (hI : Mild T I) (ks : List K) : LockedRun.Keeps I (sights ks) :=
  LockedRun.keeps_get_bind fun s => LockedRun.keeps_lift (keeps_lockSights hI s.1 ks)

/-- An offer is made for an entity that may have a record. -/
theorem passes_makeOffer (hI : Mild T I) (hw : w.Fit) (ks : List K) (self : Option Entity)
    (errand : Errand K (Verb K))
    (hT : ∀ e, (Verb.withAllTables errand).places? self = some e → T w.roster e) :
    Passes I w (makeOffer ks self errand.offer w) := by
  cases ho : errand.offer with
  | none => exact .stay hI hw rfl
  | some offer =>
    obtain ⟨name, who, value⟩ := offer
    show Passes I w (offerByName ks name (who.resolve self) value w)
    unfold offerByName
    cases ks.find? fun k => Schema.tableName k = name with
    | none => exact .stay hI hw rfl
    | some k =>
      have hstocks : Stocks (fun e => e = who.resolve self ∧ value.isSome = true)
          (Table.populateAny caller (who.resolve self) (offerTo k value)) := fun A hA =>
        Table.neat_populateAny fun r hr => hA _ ⟨rfl, by cases value <;> first | rfl | cases hr⟩
      refine passes_onTable hI hw hstocks fun x hx => hT x ?_
      obtain ⟨rfl, hvalue⟩ := hx
      obtain ⟨v, rfl⟩ := Option.isSome_iff_exists.mp hvalue
      rw [Verb.places?, ho]
      rfl

theorem keeps_exchangeLocks (hI : Mild T I) (ks : List K)
    (exchange : Option (List String × List String)) :
    LockedRun.Keeps I (exchangeLocks ks exchange) := by
  cases exchange with
  | none => exact LockedRun.keeps_pure hI []
  | some names =>
    refine LockedRun.keeps_get_bind fun s => ?_
    refine (LockedRun.keeps_call hI (.leaveOnly _)).bind hI fun _ => ?_
    refine (keeps_sights hI ks).bind hI fun _ => ?_
    refine (LockedRun.keeps_call hI (.enterOnly _)).bind hI fun _ => ?_
    exact (keeps_sights hI ks).bind hI fun _ => LockedRun.keeps_pure hI _

variable {run : Runner K} (hrun : ∀ self script, Keeps I (run self script))

include hrun

theorem keeps_openWindow (hI : Mild T I) (self : Option Entity) (ks : List K)
    (window : Option (List String × Script K)) :
    LockedRun.Keeps I (openWindow run self ks window) := by
  cases window with
  | none => exact LockedRun.keeps_pure hI []
  | some window =>
    refine LockedRun.keeps_get_bind fun s => ?_
    refine (LockedRun.keeps_call hI (.leaveOnly _)).bind hI fun _ => ?_
    refine LockedRun.Keeps.bind hI (LockedRun.Keeps.ensuring_call hI ?_ .endWindow) fun _ => ?_
    · exact (keeps_sights hI ks).bind hI fun _ =>
        (LockedRun.keeps_lift (hrun self window.2)).bind hI fun _ => LockedRun.keeps_pure hI _
    · exact (keeps_sights hI ks).bind hI fun _ => LockedRun.keeps_pure hI _

theorem passes_runErrand (hI : Mild T I) (hw : w.Fit) (self : Option Entity)
    (errand : Errand K (Verb K))
    (hT : ∀ e, (Verb.withAllTables errand).places? self = some e → T w.roster e) :
    Passes I w (runErrand run self errand w) := by
  obtain ⟨-, hunder, hsame, -⟩ := hw.taken
  refine passes_withAllTables hI hw ?_
  refine (keeps_sights hI w.tables.keys _ _ hunder).bind hI fun first s hr hs => ?_
  have hroster : s.2.roster = w.roster := by
    have hkeeps := (keeps_sights hI.and_roster w.tables.keys _ _ hunder).keeps
    rw [hr] at hkeeps
    exact (hkeeps.2 rfl).trans (by rw [hsame])
  have hoffer : Passes I s.2 (makeOffer w.tables.keys self errand.offer s.2) :=
    passes_makeOffer hI hs.fit _ self errand fun e he => hroster ▸ hT e he
  refine (LockedRun.passes_lift hs hoffer).bind hI fun _ s' _ hs' => ?_
  refine LockedRun.Keeps.bind hI (LockedRun.keeps_lift (hrun self errand.script)) (fun _ => ?_) _ s'
    hs'
  refine (keeps_openWindow hrun hI self _ errand.window).bind hI fun window => ?_
  exact (keeps_exchangeLocks hI _ errand.exchange).bind hI fun _ => LockedRun.keeps_pure hI _

end Errands

section Registers

theorem keeps_registerComponent (hI : Mild T I) (k : K) : Keeps I (registerComponent k) := by
  refine keeps_get_bind fun w hw => ?_
  cases w.components.insertNew? k () with
  | none => exact .stay hI hw rfl
  | some c => exact .aloof hI hw ⟨rfl, rfl, rfl, rfl, .of_eq rfl⟩

theorem keeps_registerShared (hI : Mild T I) (k : K) : Keeps I (registerShared k) := by
  refine keeps_get_bind fun w hw => ?_
  cases w.sharedComponents.insertNew? k () with
  | none => exact .stay hI hw rfl
  | some c => exact .aloof hI hw ⟨rfl, rfl, rfl, rfl, .of_eq rfl⟩

theorem keeps_registerArchetype (hI : Mild T I) (id : ArchetypeId) (a : Archetype K) :
    Keeps I (registerArchetype id a) := by
  refine keeps_get_bind fun w hw => ?_
  cases w.archetypes.insertNew? id a with
  | none => exact .stay hI hw rfl
  | some c => exact .aloof hI hw ⟨rfl, rfl, rfl, rfl, .of_push rfl rfl⟩

theorem Tending.keeps_registerSystem (hU : Tending T I) (s : SystemId) (byFactory : Bool) :
    Keeps I (registerSystem s byFactory : Run K Unit) := by
  refine keeps_get_bind fun w hw => ?_
  cases hc : w.systems.insertNew? s { byFactory } with
  | none => exact .stay hU.toMild hw rfl
  | some c =>
    exact ⟨hw.congr rfl rfl rfl rfl, .of_eq rfl, hU.registered hc⟩

end Registers

section Verbs

section Settled

variable (hU : Tending T I) {run : Runner K} (hrun : ∀ self script, Keeps I (run self script))

include hU hrun

/-- What a verb does by which no entity comes or goes is kept, if the entity that it places a record for
may have one. -/
theorem Tending.passes_perform (hw : w.Fit) (turns : Nat) (self : Option Entity) {v : Verb K}
    (hv : v.moves = false) (hT : ∀ e, v.places? self = some e → T w.roster e) :
    Passes I w (perform run turns self v w) := by
  have hI := hU.toMild
  have hquiet : ∀ {op : Run K Unit}, Keeps I op → Keeps I (do op; return .nothing : Run K (Answer K)) :=
    fun h => h.bind hI fun _ => keeps_pure hI _
  cases v with
  | registerComponent k => exact hquiet (keeps_registerComponent hI k) w hw
  | registerShared k => exact hquiet (keeps_registerShared hI k) w hw
  | registerArchetype id name defaults =>
    exact hquiet (keeps_registerArchetype hI id _) w hw
  | registerSystem s byFactory => exact hquiet (hU.keeps_registerSystem s byFactory) w hw
  | showArchetype id => exact ((keeps_archetype hI id).bind hI fun _ => keeps_pure hI _) w hw
  | showComponent k => exact ((keeps_component hI k).bind hI fun _ => keeps_pure hI _) w hw
  | showShared k => exact ((keeps_shared hI k).bind hI fun _ => keeps_pure hI _) w hw
  | showSystem s =>
    exact ((hU.keeps_system hrun s).bind hI fun _ => (keeps_instanceOf hI s).bind hI fun _ =>
      keeps_get_bind fun w hw => keeps_pure hI _ w hw) w hw
  | runSystem s => exact ((hU.keeps_runSystem hrun s).bind hI fun _ => keeps_pure hI _) w hw
  | queueCreation a init => exact hquiet (hU.keeps_queueCreation a init) w hw
  | queueDestruction e notify => exact hquiet (hU.keeps_queueDestruction _ notify) w hw
  | showEntity e => exact .stay hI hw rfl
  | setPaused paused => exact hquiet (hU.keeps_setPaused hrun paused) w hw
  | handle q direct => exact ((hU.keeps_handle hrun q).bind hI fun _ => keeps_pure hI _) w hw
  | table k q =>
    have hstocks : Stocks (fun e => (q.mapEntity (·.resolve self)).places? = some e)
        (Table.serve caller (q.mapEntity (·.resolve self))) :=
      fun A hA => Table.neat_serve _ hA
    exact (passes_onTable hI hw hstocks hT).bind hI fun _ _ _ hw' => keeps_pure hI _ _ hw'
  | shared k q =>
    exact ((keeps_onShared hI (NamedTable.neat_serve q)).bind hI fun _ => keeps_pure hI _) w hw
  | forEach k body => exact hquiet (keeps_forEachRow hI k fun e => hrun (some e) body) w hw
  | withSnapshot k body =>
    refine keeps_asReader hI k ?_ w hw
    exact (keeps_copyRows hI k).bind hI fun _ => (hrun self body).bind hI fun _ =>
      (keeps_copyRows hI k).bind hI fun _ => keeps_pure hI _
  | withAllTables errand => exact passes_runErrand hrun hI hw self errand hT
  | subscribe name times on =>
    have hsubscribe : Keeps I (modify fun w : World K =>
        { w with observers := w.observers ++ [⟨name, times, on⟩] }) :=
      keeps_modify hI fun w => ⟨rfl, rfl, rfl, rfl, .of_eq rfl rfl (by simp)⟩
    exact hquiet hsubscribe w hw
  | describe => exact .stay hI hw rfl
  | fail f => exact .stay hI hw rfl
  | create | destroy | commitDestructions | commitCreations | tick | runTicker => cases hv

section Moving

/-- Whatever entities may come or go by keeps a relation. -/
structure Moving (I : Bool → World K → World K → Prop) (run : Runner K) : Prop where
  create : ∀ id init, Keeps I (create run id init)
  destroy : ∀ e notify, Keeps I (destroy run e notify)
  commitDestructions : ∀ turns count, Keeps I (commitDestructions run turns count)
  commitCreations : ∀ turns count, Keeps I (commitCreations run turns count)

variable (hM : Moving I run)

include hM

theorem Tending.keeps_tick (turns : Nat) (tracer : Tracer) : Keeps I (tick run turns tracer) := by
  have hI := hU.toMild
  have htrace := keeps_trace hI tracer
  refine (htrace _).bind hI fun _ => keeps_get_bind fun w hw => ?_
  refine Keeps.bind hI (hU.keeps_sortOut hrun tracer _) (fun _ => ?_) w hw
  refine (hU.keeps_dispatch hrun tracer _).bind hI fun _ => ?_
  refine (hM.commitDestructions turns 0).bind hI fun _ => (htrace _).bind hI fun _ => ?_
  refine (hM.commitCreations turns 0).bind hI fun _ => (htrace _).bind hI fun _ => ?_
  exact (htrace _).bind hI fun _ => keeps_pure hI _

theorem Tending.keeps_runTicker (turns ticks : Nat) : Keeps I (runTicker run turns ticks) := by
  have hI := hU.toMild
  induction ticks with
  | zero => exact keeps_pure hI ()
  | succ ticks ih =>
    refine (hU.keeps_tick hrun hM turns []).attempt.bind hI fun r => ?_
    cases r <;> exact (keeps_note hI rfl).bind hI fun _ => ih

/-- Whatever a verb does is kept, if the entity that it places a record for may have one. -/
theorem Moving.passes_perform (hw : w.Fit) (turns : Nat) (self : Option Entity) (v : Verb K)
    (hT : ∀ e, v.places? self = some e → T w.roster e) :
    Passes I w (perform run turns self v w) := by
  have hI := hU.toMild
  cases v with
  | create a init => exact ((hM.create a init).bind hI fun _ => keeps_pure hI _) w hw
  | destroy e notify => exact ((hM.destroy _ notify).bind hI fun _ => keeps_pure hI _) w hw
  | commitDestructions =>
    exact ((hM.commitDestructions turns 0).bind hI fun _ => keeps_pure hI _) w hw
  | commitCreations => exact ((hM.commitCreations turns 0).bind hI fun _ => keeps_pure hI _) w hw
  | tick tracer => exact ((hU.keeps_tick hrun hM turns tracer).bind hI fun _ => keeps_pure hI _) w hw
  | runTicker ticks =>
    exact ((hU.keeps_runTicker hrun hM turns _).bind hI fun _ => keeps_pure hI _) w hw
  | _ => exact hU.passes_perform hrun hw turns self rfl hT

end Moving

end Settled

variable (hU : Upkeep T I) {run : Runner K} (hrun : ∀ self script, Keeps I (run self script))

include hU hrun

theorem Upkeep.moving (hcommit : ∀ turns count, Keeps I (commitDestructions run turns count)) :
    Moving I run :=
  ⟨hU.keeps_create hrun, hU.keeps_destroy hrun, hcommit, hU.keeps_commitCreations hrun⟩

theorem Upkeep.passes_perform (hcommit : ∀ turns count, Keeps I (commitDestructions run turns count))
    (hw : w.Fit) (turns : Nat) (self : Option Entity) (v : Verb K)
    (hT : ∀ e, v.places? self = some e → T w.roster e) :
    Passes I w (perform run turns self v w) :=
  (hU.moving hrun hcommit).passes_perform hU.toTending hrun hw turns self v hT

end Verbs

theorem keeps_runSteps (hI : Mild T I) {step : Verb K → Run K (Answer K)}
    (hstep : ∀ v, Keeps I (step v)) (script : Script K) : Keeps I (runSteps step script) := by
  induction script with
  | nil => exact keeps_pure hI ()
  | cons a rest ih =>
    refine (hstep a.verb).attempt.bind hI fun r => (keeps_emit hI rfl).bind hI fun _ => ?_
    cases r with
    | ok => exact ih
    | error f =>
      dsimp only
      split
      · exact ih
      · exact keeps_fail hI f

section Nesting

variable {ι : Type} {J : ι → Bool → World K → World K → Prop}

section Moving

variable (hU : ∀ i, Tending (fun _ _ => True) (J i))
variable (hM : ∀ run : Runner K, (∀ i self script, Keeps (J i) (run self script)) →
  ∀ i, Moving (J i) run)

include hU hM

/-- Relations that are kept by whatever a verb does if all of them are kept by the scripts that it
runs are kept by all scripts. -/
theorem Moving.keeps_runScript (n : Nat) (i : ι) (self : Option Entity) (script : Script K) :
    Keeps (J i) (runScript n self script) := by
  induction n generalizing i self script with
  | zero => exact keeps_throw (hU i).toMild _
  | succ n ih =>
    refine keeps_runSteps (hU i).toMild (fun v w hw => ?_) script
    exact (hM _ ih i).passes_perform (hU i) (ih i) hw n self v fun _ _ => trivial

theorem Moving.passes_verb (i : ι) (hw : w.Fit) (n turns : Nat) (self : Option Entity) (v : Verb K) :
    Passes (J i) w (perform (runScript n) turns self v w) :=
  (hM _ (Moving.keeps_runScript hU hM n) i).passes_perform (hU i)
    (Moving.keeps_runScript hU hM n i) hw turns self v fun _ _ => trivial

end Moving

variable (hU : ∀ i, Upkeep (fun _ _ => True) (J i))
variable (hcommit : ∀ run : Runner K, (∀ i self script, Keeps (J i) (run self script)) →
  ∀ i turns count, Keeps (J i) (commitDestructions run turns count))

include hU hcommit

theorem keeps_runScript (n : Nat) (i : ι) (self : Option Entity) (script : Script K) :
    Keeps (J i) (runScript n self script) :=
  Moving.keeps_runScript (fun i => (hU i).toTending)
    (fun run hrun i => (hU i).moving (hrun i) (hcommit run hrun i)) n i self script

theorem passes_verb (i : ι) (hw : w.Fit) (n turns : Nat) (self : Option Entity) (v : Verb K) :
    Passes (J i) w (perform (runScript n) turns self v w) :=
  Moving.passes_verb (fun i => (hU i).toTending)
    (fun run hrun i => (hU i).moving (hrun i) (hcommit run hrun i)) i hw n turns self v

end Nesting

/-- Nothing that concerns entities needs to be kept track of. -/
theorem Upkeep.top : Upkeep (fun _ _ => True) fun _ (_ _ : World K) => True where
  toMild := .top
  populated _ := trivial
  fired _ _ _ _ := trivial
  minted _ _ _ _ _ _ := trivial
  razed _ _ _ := trivial
  marked _ _ _ _ _ _ := trivial
  ordered _ _ _ := trivial
  registered _ := trivial
  tuned _ _ _ := trivial
  adopted _ := trivial
  switched _ _ := trivial

theorem keeps_commitDestructions_top (run : Runner K)
    (hrun : ∀ (_ : Unit) self script, Keeps (fun _ _ _ => True) (run self script)) (_ : Unit)
    (turns count : Nat) : Keeps (fun _ _ _ => True) (commitDestructions run turns count) :=
  Upkeep.top.keeps_commitDestructions (hrun ()) (fun _ _ => trivial) turns count

/-- Whatever a verb does, the world is fit after it and every lock is as it was. -/
theorem passes_verb_top (hw : w.Fit) (n turns : Nat) (self : Option Entity) (v : Verb K) :
    Passes (fun _ _ _ => True) w (perform (runScript n) turns self v w) :=
  passes_verb (fun _ => .top) keeps_commitDestructions_top () hw n turns self v

end Run

namespace World

/-- A world that verbs have led to from a new one, with scripts nested up to any depth and queues of
any length. A verb may have failed, and it may have been broken off. -/
inductive Reached : World K → Prop
  | start (settings : Settings) (plans : List (SystemId × Plan K)) : Reached { settings, plans }
  | next {w : World K} (h : Reached w) (n turns : Nat) (v : Verb K) :
    Reached (left (Run.perform (Run.runScript n) turns none v w))

/-- Between two verbs everything is in order and no contents are lent out. -/
theorem Reached.atRest (h : w.Reached) : w.Fit ∧ ∀ l, (w.bank.get l).lent = false := by
  induction h with
  | start settings plans =>
    refine ⟨fit_start settings plans, fun l => ?_⟩
    rw [Bank.get_of_size_le (Nat.zero_le l)]
    rfl
  | @next w _ n turns v ih =>
    have hpass := Run.passes_verb_top ih.1 n turns none v
    refine ⟨hpass.fit, fun l => ?_⟩
    rcases Nat.lt_or_ge l w.bank.size with hl | hl
    · rw [hpass.locks.get_eq l hl]
      exact ih.2 l
    · exact hpass.locks.fresh l hl

theorem Reached.not_lendsOut (h : w.Reached) (k : K) : ¬w.LendsOut k :=
  fun ⟨d, _, hlent⟩ => by simp [h.atRest.2 d.lock] at hlent

end World

end EntityStore
