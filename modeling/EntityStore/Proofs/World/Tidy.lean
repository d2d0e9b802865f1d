import EntityStore.Proofs.World.Destroy
import EntityStore.Sample

/-!
# Records of entities that live

Entities leave the world in no other way than by being destroyed, and they come into it without
records. So as long as nobody places a record for an entity that does not live, no record outlives its
entity, and a recycled index never meets one.
-/
namespace EntityStore

open Run (left Upkeep Keeps)

variable {K α : Type} [Schema K] [DecidableEq K] {w w' : World K} {k : K} {e : Entity}

/-- Every record belongs to an entity that lives. -/
def World.Tidy (w : World K) : Prop := ∀ k e, (w.record? k e).isSome = true → w.isLive e = true

namespace Run

abbrev StaysTidy : Bool → World K → World K → Prop := fun _ w w' => w.Tidy → w'.Tidy

/-- Who lives and which records there are is as before. -/
theorem staysTidy_of_turned {es : List (Event K)} {r : Roster K} (h : World.Turned r es w w')
    (hr : ∀ x, w.isLive x = true → r.arena.contains x.ident = true) : StaysTidy false w w' := by
  intro ht k x hx
  rw [h.record?_eq] at hx
  rw [World.isLive, h.roster_eq]
  exact hr x (ht k x hx)

theorem upkeep_tidy :
    Upkeep (K := K) (fun r e => r.arena.contains e.ident = true) StaysTidy where
  weaken h := h
  trans h h' ht := h' (h ht)
  beside h ht k x hx := by
    rw [h.isLive_eq]
    exact (h.records k x hx).elim (ht k x) id
  populated := id
  fired s _ h _ := staysTidy_of_turned h fun _ => id
  minted hw hw' hi _ h _ := by
    intro ht k x hx
    rw [h.record?_eq] at hx
    rw [hw'.isLive_eq, h.info?_of_enrolled hw hi]
    split
    · rfl
    · exact (hw.isLive_eq x).symm.trans (ht k x hx)
  razed hw _ h := by
    intro ht k x hx
    rw [h.record?_eq] at hx
    split at hx
    · cases hx
    · next hxe =>
      rw [h.isLive_eq hw]
      simp [ht k x hx, hxe]
  marked hw hw' _ _ h _ := by
    intro ht k x hx
    rw [h.record?_eq] at hx
    rw [h.isLive_of_marking hw hw']
    exact ht k x hx
  ordered cs h _ := staysTidy_of_turned h fun _ => id
  registered _ := id
  tuned _ _ _ := id
  adopted s := staysTidy_of_turned (.adopted _ s) fun _ => id
  switched paused _ := staysTidy_of_turned (.switched _ paused) fun _ => id

/-- Does a verb, but is stuck at one that places a record for an entity that does not live. -/
def heed (self : Option Entity) (v : Verb K) (op : Run K α) : Run K α := fun w =>
  if (v.places? self).all w.isLive then op w else .error .stuck w

def heedfulScript : (allowance : Nat) → Runner K
  | 0, _, _ => throw .exhausted
  | n + 1, self, script =>
    runSteps (fun v => heed self v (perform (heedfulScript n) n self v)) script

theorem keeps_heed {run : Runner K} (hrun : ∀ self script, Keeps StaysTidy (run self script))
    (turns : Nat) (self : Option Entity) (v : Verb K) :
    Keeps StaysTidy (heed self v (perform run turns self v)) := by
  intro w hw
  rw [heed]
  split
  · next hplaces =>
    have hcommit := upkeep_tidy.keeps_commitDestructions hrun fun w ds =>
      staysTidy_of_turned ⟨rfl, .of_eq rfl, fun _ _ => rfl⟩ fun _ => id
    refine upkeep_tidy.passes_perform hrun hcommit hw turns self v fun x hx => ?_
    rw [hx] at hplaces
    exact hplaces
  · exact keeps_throw upkeep_tidy.toMild _ w hw

theorem keeps_heedfulScript (n : Nat) (self : Option Entity) (script : Script K) :
    Keeps StaysTidy (heedfulScript n self script) := by
  induction n generalizing self script with
  | zero => exact keeps_throw upkeep_tidy.toMild _
  | succ n ih => exact keeps_runSteps upkeep_tidy.toMild (keeps_heed ih n self) script

section Unobserved

variable {run run' : Runner K}

theorem observers_onTable (op : Guarded.Op (Table (Schema.Row k)) α) (w : World K) :
    (left (onTable k op w)).observers = w.observers := by
  obtain ⟨d, -, hc⟩ | ⟨f, hc⟩ | ⟨-, hc⟩ := component_cases w k
  · rw [onTable, bind_of_ok hc, left_atDesk]
    rfl
  · rw [onTable, bind_of_error hc]
    rfl
  · rw [onTable, bind_of_ok hc, left_atDesk]
    rfl

theorem observers_furnishEntity (e : Entity) (ds : List ((k : K) × Schema.Row k)) (w : World K) :
    (left (furnishEntity e ds w)).observers = w.observers := by
  induction ds generalizing w with
  | nil => rfl
  | cons d ds ih =>
    have hplace := observers_onTable (Table.populate World.caller e d.2) w
    cases hr : onTable d.1 (Table.populate World.caller e d.2) w with
    | ok a v =>
      rw [hr] at hplace
      rw [furnishEntity, bind_of_ok hr]
      exact (ih v).trans hplace
    | error f v =>
      rw [hr] at hplace
      rw [furnishEntity, bind_of_error hr]
      exact hplace

omit [DecidableEq K] in
theorem fire_of_unobserved (h : w.observers = []) (s : Signal) : fire run s w = fire run' s w := by
  show tellFrom run s w.observers.length 0 _ = tellFrom run' s w.observers.length 0 _
  rw [h]
  rfl

/-- With nobody to tell of it, an entity that is not initialised is created in the same way however
scripts are run. -/
theorem create_of_unobserved (hw : w.Fit) (h : w.observers = []) (id : ArchetypeId)
    (hrun : ∀ e, run (some e) [] = pure ()) (hrun' : ∀ e, run' (some e) [] = pure ()) :
    create run id [] w = create run' id [] w := by
  have hpopulate : ∀ (a : Archetype K) e, populate run a e [] = furnishEntity e a.defaults ∧
      populate run' a e [] = furnishEntity e a.defaults := fun a e => by
    simp only [populate, hrun, hrun']
    exact ⟨bind_pure _, bind_pure _⟩
  refine bind_congr_right fun a w₁ ha => ?_
  have hw₁ : w₁ = w := by
    rw [archetype, get_bind] at ha
    cases hfind : w.archetypes.find? id with
    | none =>
      rw [hfind] at ha
      cases ha
    | some a =>
      rw [hfind] at ha
      cases ha
      rfl
  subst hw₁
  refine bind_congr_right fun e w₂ he => ?_
  have hw₂ : w₂.observers = [] := by
    obtain ⟨e', info, v, hok, -, -, -, -, -, hobs⟩ | ⟨f, v, herr, -⟩ := enrol_cases hw id
    · rw [hok] at he
      cases he
      exact hobs.1.trans h
    · rw [herr] at he
      cases he
  rw [(hpopulate a e).1, (hpopulate a e).2]
  refine bind_congr_right fun r w₃ hr => ?_
  have hw₃ : w₃.observers = [] := by
    have hleft := left_attempt (furnishEntity e a.defaults) w₂
    rw [hr] at hleft
    rw [show w₃ = _ from hleft, observers_furnishEntity, hw₂]
  cases r with
  | error f => rfl
  | ok =>
    exact bind_congr_left (fire_of_unobserved hw₃ _)

end Unobserved

end Run

namespace World

/-- A world that verbs have led to from a new one without placing a record for an entity that did not
live at that moment: they did the same as if they were stuck there. -/
inductive ReachedHeedfully : World K → Prop
  | start (settings : Settings) (plans : List (SystemId × Plan K)) :
    ReachedHeedfully { settings, plans }
  | next {w : World K} (h : ReachedHeedfully w) (n turns : Nat) (v : Verb K)
    (hv : Run.perform (Run.runScript n) turns none v w =
      Run.heed none v (Run.perform (Run.heedfulScript n) turns none v) w) :
    ReachedHeedfully (left (Run.perform (Run.runScript n) turns none v w))

theorem ReachedHeedfully.tidy (h : w.ReachedHeedfully) : w.Fit ∧ w.Tidy := by
  induction h with
  | start settings plans => exact ⟨fit_start settings plans, fun k x hx => by cases hx⟩
  | @next w _ n turns v hv ih =>
    have hpass := Run.keeps_heed (Run.keeps_heedfulScript n) turns none v w ih.1
    rw [← hv] at hpass
    exact ⟨hpass.fit, hpass.keeps ih.2⟩

/-- In every world that verbs have led to and in which observers only record, destroying an entity
fails exactly if it does not live, and then the world is the same. Else the entity does not live any
more, its records and the handles that these owned are gone, one entity less lives, and all other
entities, records and handles are as they were. So if no record is placed for an entity that does not
live, every record belongs to an entity that lives. -/
theorem destruction_complete :
    (∀ w : World K, w.Reached → w.OnlyRecords → ∀ (run : Runner K) (e : Entity) (notify : Bool),
      (w.isLive e = false → Run.destroy run e notify w =
        .error (.fault (.recordNotFound e Fault.registryName)) w) ∧
      (w.isLive e = true → ∃ w', Run.destroy run e notify w = .ok () w' ∧
        (∀ x, w'.isLive x = (w.isLive x && decide (x ≠ e))) ∧
        w'.population + 1 = w.population ∧
        (∀ k x, w'.record? k x = if x = e then none else w.record? k x) ∧
        (∀ id, (∃ k r, w.record? k e = some r ∧ id ∈ (Record.owned r).ids) →
          HandleTable.entry? w'.handles id = none) ∧
        (∀ id, (¬∃ k r, w.record? k e = some r ∧ id ∈ (Record.owned r).ids) →
          HandleTable.entry? w'.handles id = HandleTable.entry? w.handles id) ∧
        Told (obituary e notify) w w')) ∧
    ∀ w : World K, w.ReachedHeedfully →
      ∀ k e, (w.record? k e).isSome = true → w.isLive e = true := by
  refine ⟨fun w hw ho run e notify => ⟨fun he => Run.destroy_of_dead he notify, fun he => ?_⟩,
    fun w hw => hw.tidy.2⟩
  obtain ⟨hfit, -⟩ := hw.atRest
  obtain ⟨w', hok, hrazed⟩ : ∃ w', Run.destroy run e notify w = .ok () w' ∧
      Razed e (obituary e notify) w w' :=
    Run.destroy_of_onlyRecords hfit hw.not_lendsOut ho he notify
  exact ⟨w', hok, hrazed.isLive_eq hfit, hrazed.population_eq hfit he, hrazed.record?_eq,
    fun id => (hrazed.entry?_eq hfit id).1, fun id => (hrazed.entry?_eq hfit id).2, hrazed.told⟩

/-- An entity whose only record owns a handle, destroyed before an observer. -/
theorem destruction_complete_sprite :
    let _ := Sample.schema ""
    let e : Entity := ⟨⟨0, ⟨1⟩, by decide⟩⟩
    let id : HandleId := ⟨⟨0, ⟨1⟩, by decide⟩⟩
    ∃ w w' : World Sample.Kind, w.Reached ∧ w.OnlyRecords ∧ w.ReachedHeedfully ∧
      w.observers.length = 1 ∧ (w.record? .sprite e).isSome = true ∧ w.isLive e = true ∧
      (HandleTable.entry? w.handles id).isSome = true ∧
      Run.destroy (Run.runScript 1) e true w = .ok () w' ∧ w'.isLive e = false ∧
      w'.record? .sprite e = none ∧ HandleTable.entry? w'.handles id = none := by
  intro _ e id
  let kinds : List ((k : Sample.Kind) × Schema.Row k) := [⟨.sprite, ⟨id, none, 0⟩⟩]
  obtain ⟨w, h, hh, hspent, hone, howns, hlives, hentry⟩ : ∃ w : World Sample.Kind, w.Reached ∧
      w.ReachedHeedfully ∧ w.observers.all (·.left == 0) = true ∧ w.observers.length = 1 ∧
      (w.record? .sprite e).any (fun r => decide (id ∈ (Record.owned r).ids)) = true ∧
      w.isLive e = true ∧ (HandleTable.entry? w.handles id).isSome = true := by
    have h : Reached ({} : World Sample.Kind) := .start {} []
    have h := h.next 1 1 (.registerComponent .sprite)
    have h := h.next 1 1 (.registerArchetype 0 "sprite" kinds)
    have h := h.next 1 1 (.handle (.add 0 .unit) true)
    have h := h.next 1 1 (.create 0 [])
    have h := h.next 1 1 (.subscribe "observer" 0 [])
    have hh : ReachedHeedfully ({} : World Sample.Kind) := .start {} []
    have hh := hh.next 1 1 (.registerComponent .sprite) rfl
    have hh := hh.next 1 1 (.registerArchetype 0 "sprite" kinds) rfl
    have hh := hh.next 1 1 (.handle (.add 0 .unit) true) rfl
    have hh := hh.next 1 1 (.create 0 []) (Run.bind_congr_left (Run.create_of_unobserved hh.tidy.1
      (List.isEmpty_iff.mp (by decide +kernel)) 0 (fun _ => rfl) fun _ => rfl))
    have hh := hh.next 1 1 (.subscribe "observer" 0 []) rfl
    exact ⟨_, h, hh, by decide +kernel, by decide +kernel, by decide +kernel, by decide +kernel,
      by decide +kernel⟩
  have honly : w.OnlyRecords := fun o ho => .inl (by simpa using List.all_eq_true.mp hspent o ho)
  obtain ⟨r, hr, hid⟩ := (Option.any_eq_true ..).mp howns
  obtain ⟨hdestroy, htidy⟩ := destruction_complete (K := Sample.Kind)
  have hsome : (w.record? .sprite e).isSome = true := by rw [hr]; rfl
  obtain ⟨w', hok, hlive, -, hrecords, howned, -⟩ :=
    (hdestroy w h honly (Run.runScript 1) e true).2 (htidy w hh .sprite e hsome)
  refine ⟨w, w', h, honly, hh, hone, hsome, hlives, hentry, hok, ?_, ?_, ?_⟩
  · rw [hlive]
    simp
  · rw [hrecords, if_pos rfl]
  · exact howned id ⟨.sprite, r, hr, of_decide_eq_true hid⟩

end World

end EntityStore
