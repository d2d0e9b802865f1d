import EntityStore.Proofs.World.Lodging
import EntityStore.Proofs.World.Storing

/-!
# Making up an entity

An entity is given its default records and then initialised. An initialisation that keeps to the
records of its own entity, fails, or queues creations does nothing else to the world than these do:
however it ends, what it leaves is told by what it lost and what it queued.
-/
namespace EntityStore

open Run (left broke bind_of_ok bind_of_error attempt_of_ok attempt_of_fault attempt_of_breaks)
open World (caller Lodged)

variable {K α β : Type} [Schema K] [DecidableEq K] {w w' : World K} {k : K} {e : Entity}
variable {gone gone' : List ((k : K) × Schema.Row k)} {ordered ordered' : List (Creation K)}

/-- The verb keeps to the records of the entity that the script is run for, or fails. -/
inductive Verb.Minds : Verb K → Prop
  | table (k : K) {q : Table.Request Who (Schema.Row k)} (hq : q.Concerns .itself) :
    Minds (.table k q)
  | fail (f : Fault) : Minds (.fail f)

/-- The verb keeps to the records of the entity that the script is run for, or fails, or queues a
creation whose initialisation does no more. -/
inductive Verb.Founds : Verb K → Prop
  | minds {v : Verb K} (h : v.Minds) : Founds v
  | queueCreation (a : ArchetypeId) {init : Script K} (h : ∀ x ∈ init, Founds x.verb) :
    Founds (.queueCreation a init)

/-- What the verb queues, unless it is refused. -/
def Verb.orders : Verb K → List (Creation K)
  | .queueCreation a init => [⟨a, init⟩]
  | _ => []

def Script.orders (s : Script K) : List (Creation K) := s.flatMap (·.verb.orders)

omit [DecidableEq K] in
theorem Verb.Minds.orders_eq {v : Verb K} (h : v.Minds) : v.orders = [] := by
  cases h <;> rfl

/-- Of certain creations those that are not refused: their archetypes are known. -/
def World.accepted (w : World K) (cs : List (Creation K)) : List (Creation K) :=
  cs.filter fun c => w.archetypes.contains c.archetype

omit [DecidableEq K] in
theorem World.accepted_append (w : World K) (cs ds : List (Creation K)) :
    w.accepted (cs ++ ds) = w.accepted cs ++ w.accepted ds := List.filter_append ..

omit [DecidableEq K] in
theorem World.accepted_congr (h : w'.archetypes = w.archetypes) (cs : List (Creation K)) :
    w'.accepted cs = w.accepted cs := by
  rw [accepted, h, accepted]

omit [DecidableEq K] in
theorem Script.orders_of_minds {s : Script K} (h : ∀ a ∈ s, a.verb.Minds) : s.orders = [] :=
  List.flatMap_eq_nil_iff.mpr fun a ha => (h a ha).orders_eq

namespace World

def showing (w : World K) (label : String) (result : Except Fault (Answer K)) : World K :=
  { w with events := w.events.push (.acted label result) }

theorem Lodged.showing (hw : w.Fit) (label : String) (result : Except Fault (Answer K)) :
    Lodged e [] [] w (w.showing label result) :=
  .of_tables (hw.congr rfl rfl rfl rfl) (.refl _) rfl rfl (List.append_nil _).symm rfl rfl rfl
    (.of_push rfl rfl) (fun _ _ => rfl) rfl

end World

namespace Run

/-- What an operation has done to the world when it made an entity: certain records of the entity were
lost, and certain creations queued. It broke off only if contents were lent out. -/
structure Lodges (e : Entity) (gone : List ((k : K) × Schema.Row k)) (ordered : List (Creation K))
    (w : World K) (r : EStateM.Result Failure (World K) α) : Prop where
  lodged : Lodged e gone ordered w (left r)
  unbroken : (∀ l, (w.bank.get l).lent = false) → broke r = false

namespace Lodges

variable {r : EStateM.Result Failure (World K) α} {op : Run K α} {f : α → Run K β}

theorem fit (h : Lodges e gone ordered w r) : (left r).Fit := h.lodged.fit

theorem of_lodged (h : Lodged e gone ordered w (left r)) (hr : broke r = false) :
    Lodges e gone ordered w r := ⟨h, fun _ => hr⟩

/-- What comes after is done to what was left, however that has come about. -/
theorem next {r' : EStateM.Result Failure (World K) β} (h : Lodges e gone ordered w r)
    (h' : Lodges e gone' ordered' (left r) r') :
    Lodges e (gone ++ gone') (ordered ++ ordered') w r' :=
  ⟨h.lodged.trans h'.lodged, fun hlent => h'.unbroken (h.lodged.not_lendsOut hlent)⟩

/-- The value does not matter. -/
theorem congr {r' : EStateM.Result Failure (World K) β} (h : Lodges e gone ordered w r)
    (hleft : left r' = left r) (hbroke : broke r' = broke r) : Lodges e gone ordered w r' :=
  ⟨hleft ▸ h.lodged, hbroke ▸ h.unbroken⟩

theorem bind_ok {a : α} (h : Lodges e gone ordered w (op w)) (hop : op w = .ok a w')
    (h' : Lodges e gone' ordered' w' (f a w')) :
    Lodges e (gone ++ gone') (ordered ++ ordered') w ((op >>= f) w) := by
  rw [hop] at h
  rw [bind_of_ok hop]
  exact h.next h'

theorem bind_error {g : Failure} (h : Lodges e gone ordered w (op w)) (hop : op w = .error g w') :
    Lodges e gone ordered w ((op >>= f) w) := by
  rw [hop] at h
  rw [bind_of_error hop]
  exact h.congr rfl rfl

end Lodges

def lossesAt (e : Entity) (v : Verb K) (w w' : World K) : List ((k : K) × Schema.Row k) :=
  match v with
  | .table k _ => World.losses e k w w'
  | _ => []

/-- The records that the entity of a script loses by its steps, one after the other. -/
def losses (step : Verb K → Run K (Answer K)) (e : Entity) :
    Script K → World K → List ((k : K) × Schema.Row k)
  | [], _ => []
  | a :: rest, w => lossesAt e a.verb w (left (step a.verb w)) ++
    match step a.verb w with
    | .ok answer v => losses step e rest (v.showing a.label (.ok answer))
    | .error (.fault f) v =>
      if a.tolerated then losses step e rest (v.showing a.label (.error f)) else []
    | .error _ _ => []

/-- The steps of a script that are done, up to the one at which it ends. -/
def undergone (step : Verb K → Run K (Answer K)) : Script K → World K → Script K
  | [], _ => []
  | a :: rest, w => a ::
    match step a.verb w with
    | .ok answer v => undergone step rest (v.showing a.label (.ok answer))
    | .error (.fault f) v =>
      if a.tolerated then undergone step rest (v.showing a.label (.error f)) else []
    | .error _ _ => []

section Steps

variable {step : Verb K → Run K (Answer K)} {a : Action (Verb K)} {rest : Script K}

omit [DecidableEq K] in
theorem runSteps_of_ok {answer : Answer K} (h : step a.verb w = .ok answer w') :
    runSteps step (a :: rest) w = runSteps step rest (w'.showing a.label (.ok answer)) := by
  rw [runSteps, bind_of_ok (attempt_of_ok h)]
  rfl

omit [DecidableEq K] in
theorem runSteps_of_fault {f : Fault} (h : step a.verb w = .error (.fault f) w') :
    runSteps step (a :: rest) w =
      if a.tolerated then runSteps step rest (w'.showing a.label (.error f))
      else .error (.fault f) (w'.showing a.label (.error f)) := by
  rw [runSteps, bind_of_ok (attempt_of_fault h)]
  show (if a.tolerated then runSteps step rest else fail f) _ = _
  split <;> rfl

omit [DecidableEq K] in
theorem runSteps_of_breaks {f : Failure} (h : step a.verb w = .error f w') (hf : f.breaks = true) :
    runSteps step (a :: rest) w = .error f w' := by
  rw [runSteps, bind_of_error (attempt_of_breaks h hf)]

omit [DecidableEq K] in
theorem undergone_prefix (step : Verb K → Run K (Answer K)) (script : Script K) (w : World K) :
    undergone step script w <+: script := by
  induction script generalizing w with
  | nil => exact List.prefix_rfl
  | cons a rest ih =>
    rw [undergone, List.prefix_cons_inj]
    split
    · exact ih _
    · split
      · exact ih _
      · exact List.nil_prefix
    · exact List.nil_prefix

omit [DecidableEq K] in
/-- All steps of a script that succeeds are done. -/
theorem undergone_of_ok {script : Script K} {x : Unit} (h : runSteps step script w = .ok x w') :
    undergone step script w = script := by
  induction script generalizing w with
  | nil => rfl
  | cons a rest ih =>
    rw [undergone]
    cases hr : step a.verb w with
    | ok answer v => exact congrArg _ (ih ((runSteps_of_ok hr).symm.trans h))
    | error g v =>
      cases g with
      | fault f =>
        rw [runSteps_of_fault hr] at h
        cases htolerated : a.tolerated with
        | true =>
          rw [htolerated, if_pos rfl] at h
          exact congrArg _ (ih h)
        | false =>
          rw [htolerated, if_neg Bool.false_ne_true] at h
          cases h
      | _ => cases (runSteps_of_breaks hr rfl).symm.trans h

/-- A script does what those of its steps do that are done. -/
theorem lodges_runSteps {script : Script K} (hw : w.Fit)
    (hstep : ∀ a ∈ script, ∀ v : World K, v.Fit → Lodges e (lossesAt e a.verb v (left (step a.verb v)))
      (v.accepted a.verb.orders) v (step a.verb v)) :
    Lodges e (losses step e script w) (w.accepted (undergone step script w).orders) w
      (runSteps step script w) := by
  induction script generalizing w with
  | nil => exact .of_lodged (.refl hw) rfl
  | cons a rest ih =>
    have hfirst := hstep a List.mem_cons_self w hw
    have horders : ∀ steps : Script K, w.accepted (Script.orders (a :: steps)) =
        w.accepted a.verb.orders ++ w.accepted steps.orders := fun steps => by
      rw [← World.accepted_append]
      rfl
    -- the step is shown, and the rest is run
    have hon : ∀ {v : World K} (result : Except Fault (Answer K)),
        Lodged e (lossesAt e a.verb w v) (w.accepted a.verb.orders) w v →
        Lodges e (losses step e rest (v.showing a.label result))
          (w.accepted (undergone step rest (v.showing a.label result)).orders) v
          (runSteps step rest (v.showing a.label result)) := fun {v} result hv => by
      have hknown : (v.showing a.label result).archetypes = w.archetypes := hv.archetypes_eq
      rw [← World.accepted_congr hknown]
      exact (Lodges.of_lodged (r := .ok () _) (.showing hv.fit a.label result) rfl).next
        (ih (Lodged.showing (e := e) hv.fit a.label result).fit fun b hb =>
          hstep b (List.mem_cons_of_mem a hb))
    rw [losses, undergone, horders]
    cases hr : step a.verb w with
    | ok answer v =>
      rw [hr] at hfirst
      rw [runSteps_of_ok hr]
      exact hfirst.next (hon _ hfirst.lodged)
    | error g v =>
      rw [hr] at hfirst
      cases g with
      | fault f =>
        rw [runSteps_of_fault hr]
        cases a.tolerated with
        | true => exact hfirst.next (hon _ hfirst.lodged)
        | false => exact hfirst.next (.of_lodged (.showing hfirst.fit a.label (.error f)) rfl)
      | _ =>
        rw [runSteps_of_breaks hr rfl]
        show Lodges e (_ ++ []) (_ ++ []) w _
        rw [List.append_nil, List.append_nil]
        exact hfirst.congr rfl rfl

end Steps

section Populate

variable {run : Runner K} {turns : Nat}

theorem lodges_table (hw : w.Fit) {q : Table.Request Entity (Schema.Row k)} (hq : q.Concerns e) :
    Lodges e (World.losses e k w (left (onTable k (Table.serve caller q) w))) [] w
      (onTable k (Table.serve caller q) w) where
  lodged := .of_onTable hw (Table.tends_serve hq) fun _ hA =>
    Table.neat_serve q fun x hx => hA x (hq.places?_eq hx)
  unbroken hlent := broke_onTable hw hlent fun _ => Table.broke_serve hq

theorem lodges_queueCreation (hw : w.Fit) (a : ArchetypeId) (init : Script K) :
    Lodges e [] (w.accepted [⟨a, init⟩]) w (queueCreation a init w) := by
  rw [queueCreation, get_bind, World.accepted, List.filter_singleton]
  cases w.archetypes.contains a with
  | false => exact .of_lodged (.refl hw) rfl
  | true =>
    exact ⟨.of_tables (hw.congr rfl rfl rfl rfl) (.refl _) rfl rfl rfl rfl rfl rfl (.of_eq rfl)
      (fun _ _ => rfl) rfl, fun _ => rfl⟩

/-- What an initialisation does by a verb. -/
theorem lodges_perform {v : Verb K} (hv : v.Founds) (hw : w.Fit) :
    Lodges e (lossesAt e v w (left (perform run turns (some e) v w))) (w.accepted v.orders) w
      (perform run turns (some e) v w) := by
  cases hv with
  | minds hv =>
    cases hv with
    | fail f => exact .of_lodged (.refl hw) rfl
    | @table k q hq =>
      have hconcerns : (q.mapEntity (Who.resolve (some e))).Concerns e :=
        hq.mapEntity (Who.resolve (some e))
      have hleft : left (perform run turns (some e) (.table k q) w) =
          left (onTable k (Table.serve caller (q.mapEntity (Who.resolve (some e)))) w) :=
        left_bind_pure ..
      rw [hleft]
      exact (lodges_table hw hconcerns).congr hleft (broke_bind_pure ..)
  | @queueCreation a init hinit =>
    exact (lodges_queueCreation hw a init).congr (left_bind_pure (queueCreation a init) _ w)
      (broke_bind_pure (queueCreation a init) _ w)

/-- A record is placed for the entity. It loses none by that. -/
theorem lodges_place (hw : w.Fit) (r : Schema.Row k) :
    Lodges e [] [] w (onTable k (Table.populate caller e r) w) := by
  have hneat : Stocks (· = e) (Table.populate caller e r) := fun _ hA =>
    Table.neat_populate (hA e rfl) r
  have hlodged := World.Lodged.of_onTable (e := e) hw (Table.tends_populate caller r) hneat
  rw [World.losses_of_kept fun he => isSome_record?_onTable hw
    (fun s hs => Table.isSome_left_populate hs r) he] at hlodged
  exact ⟨hlodged, fun hlent => broke_onTable hw hlent fun s hs ho hl =>
    Table.broke_populate hs ho hl r⟩

/-- The entity is given its default records. -/
theorem lodges_furnishEntity (hw : w.Fit) (ds : List ((k : K) × Schema.Row k)) :
    Lodges e [] [] w (furnishEntity e ds w) := by
  induction ds generalizing w with
  | nil => exact .of_lodged (.refl hw) rfl
  | cons d ds ih =>
    have hplace : Lodges e [] [] w (onTable d.1 (Table.populate caller e d.2) w) := lodges_place hw d.2
    rw [furnishEntity]
    cases hr : onTable d.1 (Table.populate caller e d.2) w with
    | ok a v => exact hplace.bind_ok hr (ih (hr ▸ hplace.fit :))
    | error f v => exact hplace.bind_error hr

/-- The records that an entity loses while it is made up: those that its initialisation takes. -/
def forfeits (n : Nat) (a : Archetype K) (e : Entity) (init : Script K) (w : World K) :
    List ((k : K) × Schema.Row k) :=
  match furnishEntity e a.defaults w with
  | .ok _ v => losses (perform (runScript n) n (some e)) e init v
  | .error _ _ => []

/-- The steps of an initialisation that are done while an entity is made up: none if it could not be
given its default records. -/
def undertaken (n : Nat) (a : Archetype K) (e : Entity) (init : Script K) (w : World K) : Script K :=
  match furnishEntity e a.defaults w with
  | .ok _ v => undergone (perform (runScript n) n (some e)) init v
  | .error _ _ => []

theorem prefix_undertaken (n : Nat) (a : Archetype K) (e : Entity) (init : Script K) (w : World K) :
    undertaken n a e init w <+: init := by
  rw [undertaken]
  split
  · exact undergone_prefix ..
  · exact List.nil_prefix

/-- All steps are done if the entity is made up. -/
theorem undertaken_of_ok {n : Nat} {a : Archetype K} {init : Script K} {x : Unit}
    (h : populate (runScript (n + 1)) a e init w = .ok x w') : undertaken n a e init w = init := by
  obtain ⟨y, v, hfurnish, hinit⟩ := ok_of_bind h
  rw [undertaken, hfurnish]
  exact undergone_of_ok hinit

/-- Making up an entity does what the steps of the initialisation do that are done. -/
theorem lodges_populate (n : Nat) (a : Archetype K) {init : Script K}
    (hinit : ∀ x ∈ init, x.verb.Founds) (hw : w.Fit) :
    Lodges e (forfeits n a e init w) (w.accepted (undertaken n a e init w).orders) w
      (populate (runScript (n + 1)) a e init w) := by
  have hfurnish := lodges_furnishEntity (e := e) hw a.defaults
  rw [populate, forfeits, undertaken]
  cases hr : furnishEntity e a.defaults w with
  | ok u v =>
    rw [hr] at hfurnish
    rw [bind_of_ok hr, ← World.accepted_congr hfurnish.lodged.archetypes_eq]
    exact hfurnish.next (lodges_runSteps hfurnish.fit fun x hx _ hv => lodges_perform (hinit x hx) hv)
  | error f v =>
    rw [hr] at hfurnish
    rw [bind_of_error hr]
    exact hfurnish

section Locks

variable (n : Nat) (a : Archetype K) {init : Script K} (hinit : ∀ x ∈ init, x.verb.Founds) (hw : w.Fit)

include hinit hw

theorem under_populate : Under w.bank
    (left (LockedRun.lift (populate (runScript (n + 1)) a e init) w.taken)) := by
  obtain ⟨-, hunder, -⟩ := hw.taken
  have hlodged := (lodges_populate (e := e) n a hinit hunder.fit).lodged
  rw [LockedRun.left_lift]
  exact hunder.extend hlodged.fit hlodged.locks

/-- It does so while the locks of all tables are held. -/
theorem lodges_populate_locked :
    Lodges e (forfeits n a e init w.taken.2) (w.accepted (undertaken n a e init w.taken.2).orders) w
      (withAllTables (LockedRun.lift (populate (runScript (n + 1)) a e init)) w) := by
  obtain ⟨-, hunder, hsame, -⟩ := hw.taken
  have hpopulate := lodges_populate (e := e) n a hinit hunder.fit
  have hknown : w.taken.2.archetypes = w.archetypes :=
    show _ = (w.withBank w.taken.2.bank).archetypes from congrArg World.archetypes hsame
  have hlodged := hpopulate.lodged
  rw [World.accepted_congr hknown] at hlodged
  obtain ⟨bank, heq, hlocks, ho, hsize⟩ := withAllTables_eq hw (under_populate (e := e) n a hinit hw)
  rw [LockedRun.left_lift] at heq hsize
  rw [LockedRun.ending_lift] at heq
  have hfrom : Lodged e (forfeits n a e init w.taken.2)
      (w.accepted (undertaken n a e init w.taken.2).orders) (w.withBank w.taken.2.bank)
      (left (populate (runScript (n + 1)) a e init w.taken.2)) := by
    rw [← hsame]
    exact hlodged
  rw [heq]
  refine ⟨?_, fun hlent => ?_⟩
  · rw [left_ending]
    exact hfrom.withBank (hlodged.fit.withBank ho hsize.ge) hlocks
  · rw [broke_ending]
    refine hpopulate.unbroken fun l => ?_
    rw [hunder.lent]
    split
    · exact hlent l
    · rfl

/-- All steps are done if the entity is made up so. -/
theorem undertaken_of_locked {x : Unit}
    (h : withAllTables (LockedRun.lift (populate (runScript (n + 1)) a e init)) w = .ok x w') :
    undertaken n a e init w.taken.2 = init := by
  obtain ⟨v, bank, hpopulate, -⟩ := withAllTables_of_ok hw (under_populate n a hinit hw) h
  exact undertaken_of_ok hpopulate

end Locks

end Populate

end Run

end EntityStore
