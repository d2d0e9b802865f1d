import EntityStore.Proofs.World.Pauses
import EntityStore.Proofs.World.Raze

/-!
# What every verb keeps

A relation between the world before and after is kept by whatever a verb does if it is kept by each
of the few things that change the roster or the systems: an entity is minted, one is razed, one is
marked, a queue changes; a system is registered, comes to be or is changed, all are paused. It need only
be known of the scripts that are run that they keep it, so that it follows for all scripts by induction
on how deep they are nested.
-/
namespace EntityStore

open Run (left Mild)
open World (caller)

variable {K α β : Type} [Schema K] [DecidableEq K] {w w' : World K} {k : K} {e : Entity}
variable {T : Roster K → Entity → Prop} {I : Bool → World K → World K → Prop}

def Roster.enrolled (r : Roster K) (e : Entity) (info : EntityInfo) : Roster K :=
  { r with arena := r.arena.stored e.ident info }

def Roster.marking (r : Roster K) (e : Entity) (notify : Bool) : Roster K :=
  { r with
    arena := r.arena.modify e.ident fun info => { info with marked := true }
    destructions := r.destructions ++ [⟨e, notify⟩] }

/-- The roster has changed, and it was told why; the records are as before. -/
structure World.Turned (r : Roster K) (es : List (Event K)) (w w' : World K) : Prop where
  roster_eq : w'.roster = r
  told : World.Told es w w'
  record?_eq : ∀ k e, w'.record? k e = w.record? k e

namespace World.Turned

variable {es : List (Event K)} {r : Roster K} {info : EntityInfo} {notify : Bool}

theorem info?_of_enrolled (hw : w.Fit) (hi : w.roster.arena.issuer.next? = some e.ident)
    (h : Turned (w.roster.enrolled e info) es w w') (x : Entity) :
    w'.info? x = if x = e then some info else w.info? x := by
  obtain ⟨l, hl⟩ := hw.roster
  rw [info?, h.roster_eq]
  show (w.roster.arena.stored e.ident info).get? x.ident = _
  rw [hl.get?_stored hi, Function.update_apply]
  simp only [Entity.ident_inj, info?]

theorem info?_of_marking (hw : w.Fit) (h : Turned (w.roster.marking e notify) es w w') (x : Entity) :
    w'.info? x =
      if x = e then (w.info? x).map fun info => { info with marked := true } else w.info? x := by
  obtain ⟨l, hl⟩ := hw.roster
  rw [info?, h.roster_eq]
  show (w.roster.arena.modify e.ident _).get? x.ident = _
  rw [hl.get?_modify]
  simp only [Entity.ident_inj, info?]

/-- Who is marked goes on living. -/
theorem isLive_of_marking (hw : w.Fit) (hw' : w'.Fit)
    (h : Turned (w.roster.marking e notify) es w w') (x : Entity) : w'.isLive x = w.isLive x := by
  rw [hw'.isLive_eq, hw.isLive_eq, h.info?_of_marking hw]
  split <;> simp

theorem adopted (w : World K) (s : SystemId) : Turned w.roster [] w (w.adopted s) := by
  refine ⟨by rw [adopted_eq], told_paced { w with instances := _ } s w.paused, fun k e => ?_⟩
  rw [record?, adopted_eq, record?]

theorem switched (w : World K) (paused : Bool) :
    Turned w.roster [.notice (.fired (.ofPause paused))] w (w.switched paused) := by
  refine ⟨by rw [switched_eq], w.told_switched paused, fun k e => ?_⟩
  rw [record?, switched_eq, record?]

end World.Turned

def World.newcomer (w : World K) (a : ArchetypeId) : EntityInfo :=
  { archetype := a, createdAt := w.settings.clockStart + w.readings * w.settings.clockStep }

def World.awaiting (w : World K) : World K :=
  { w with
    readings := w.readings + 1
    events := w.events ++ (w.roster.arena.insertNotices.map Event.notice).toArray }

def World.minted (w : World K) (a : ArchetypeId) (e : Entity) : World K :=
  { w.awaiting with
    roster := w.roster.enrolled e (w.newcomer a)
    events := w.awaiting.events.push (.notice (.minted e a)) }

theorem World.Fit.minted (hw : w.Fit) (a : ArchetypeId)
    (hi : w.roster.arena.issuer.next? = some e.ident) : (w.minted a e).Fit := by
  obtain ⟨l, hl⟩ := hw.roster
  exact ⟨hw.enterable, hw.lock_lt, hw.keys_nodup, hw.tables, ⟨_, hl.stored hi _⟩, hw.handles⟩

omit [DecidableEq K] in
theorem World.aside_awaiting (w : World K) : World.Aside w w.awaiting :=
  .of_local rfl (Arena.isLocal_insertNotices _)

omit [DecidableEq K] in
theorem World.calm_minted (w : World K) (a : ArchetypeId) (e : Entity) :
    World.Calm w (w.minted a e) := w.aside_awaiting.calm.trans (.of_push rfl rfl)

theorem World.turned_minted (w : World K) (a : ArchetypeId) (e : Entity) :
    World.Turned (w.roster.enrolled e (w.newcomer a)) [.notice (.minted e a)] w (w.minted a e) :=
  ⟨rfl, w.aside_awaiting.told.trans (.of_push_told rfl rfl), fun _ _ => rfl⟩

def World.queued (w : World K) (ds : List Destruction) : World K :=
  { w with roster := { w.roster with destructions := ds } }

theorem World.Fit.queued (hw : w.Fit) (ds : List Destruction) : (w.queued ds).Fit :=
  hw.congr rfl rfl rfl rfl

def World.spent (w : World K) (observer : Nat) (o : Observer K) : World K :=
  { w with observers := w.observers.set observer { o with left := o.left - 1 } }

omit [DecidableEq K] in
theorem World.scripts_spent (w : World K) {observer : Nat} {o : Observer K}
    (h : w.observers[observer]? = some o) :
    (w.spent observer o).observers.map (·.on) = w.observers.map (·.on) := by
  have hlt : observer < (w.observers.map (·.on)).length := by
    rw [List.length_map]
    exact (List.getElem?_eq_some_iff.mp h).1
  have hon : (w.observers.map (·.on))[observer] = o.on := by
    rw [List.getElem_map, (List.getElem?_eq_some_iff.mp h).2]
  rw [spent, List.map_set, ← hon, List.set_getElem_self]

namespace Run

/-- A mild relation that also puts up with signals that do not concern the pausing of systems. -/
structure Candid (T : Roster K → Entity → Prop) (I : Bool → World K → World K → Prop) : Prop
    extends Mild T I where
  fired : ∀ {w w'} s, s.isQuiet = true → World.Turned w.roster [.notice (.fired s)] w w' →
    World.Calm w w' → I false w w'

/-- A mild relation that is kept by each thing that changes the systems or the queues, but for the queue
of destructions when it is committed, and that puts up with the signals that are not about entities. -/
structure Tending (T : Roster K → Entity → Prop) (I : Bool → World K → World K → Prop) : Prop
    extends Mild T I where
  noted : ∀ {w w'} s, s.isQuiet = true → s.entity? = none →
    World.Turned w.roster [.notice (.fired s)] w w' → World.Calm w w' → I false w w'
  marked : ∀ {w w' e notify info}, w.Fit → w'.Fit → w.info? e = some info → info.marked = false →
    World.Turned (w.roster.marking e notify) [] w w' → World.Calm w w' → I false w w'
  ordered : ∀ {w w'} cs, World.Turned { w.roster with creations := cs } [] w w' →
    World.Calm w w' → I false w w'
  registered : ∀ {w : World K} {s r c}, w.systems.insertNew? s r = some c →
    I false w { w with systems := c }
  /-- What a system keeps of having run or having been asked is changed. -/
  tuned : ∀ {w : World K} s f, (∀ i, (f i).paused = i.paused ∧ (f i).heard = i.heard) →
    I false w (w.tuned s f)
  adopted : ∀ {w : World K} s, I false w (w.adopted s)
  switched : ∀ {w : World K} paused, w.paused ≠ paused → I false w (w.switched paused)

/-- A relation that is kept also when entities come and go. Records may be placed for entities that
live. -/
structure Upkeep (T : Roster K → Entity → Prop) (I : Bool → World K → World K → Prop) : Prop
    extends Tending T I, Candid T I where
  noted s hs _ := fired s hs
  populated : ∀ {r : Roster K} {e}, r.arena.contains e.ident = true → T r e
  minted : ∀ {w w'} {e info a}, w.Fit → w'.Fit → w.roster.arena.issuer.next? = some e.ident →
    info.marked = false → World.Turned (w.roster.enrolled e info) [.notice (.minted e a)] w w' →
    World.Calm w w' → I false w w'
  razed : ∀ {w w' e}, w.Fit → w.isLive e = true →
    World.Razed e [.notice (.destroyed e)] w w' → I false w w'

section Commit

variable {run : Runner K} {turns count : Nat} {d : Destruction} {ds : List Destruction}

theorem commitDestructions_nil (h : w.roster.destructions = []) :
    commitDestructions run (turns + 1) count w =
      (if 0 < count then do
        note (.committedDestructions count)
        return count
      else return count : Run K Nat) w := by
  rw [commitDestructions, get_bind, h]

/-- An entity that does not live any more is passed over. -/
theorem commitDestructions_of_dead (h : w.roster.destructions = d :: ds)
    (hd : w.isLive d.entity = false) :
    commitDestructions run (turns + 1) count w = (do
      note (.skippedFreed d.entity)
      commitDestructions run turns count) (w.queued ds) := by
  rw [commitDestructions, get_bind, h]
  simp only [hd, Bool.not_false, if_true]
  rfl

section Live

variable (h : w.roster.destructions = d :: ds) (hd : w.isLive d.entity = true)

include h hd

theorem commitDestructions_of_ok (hr : destroy run d.entity d.notify (w.queued ds) = .ok () w') :
    commitDestructions run (turns + 1) count w = commitDestructions run turns (count + 1) w' := by
  rw [commitDestructions, get_bind, h]
  simp only [hd, Bool.not_true, Bool.false_eq_true, if_false, set_bind]
  exact bind_of_ok (attempt_of_ok hr)

/-- A destruction that fails goes back to the front of the queue, unless all is broken off. -/
theorem commitDestructions_of_error {e : Failure}
    (hr : destroy run d.entity d.notify (w.queued ds) = .error e w') :
    commitDestructions run (turns + 1) count w =
      .error e (if e.breaks then w' else w'.queued (d :: w'.roster.destructions)) := by
  rw [commitDestructions, get_bind, h]
  simp only [hd, Bool.not_true, Bool.false_eq_true, if_false, set_bind]
  cases hbreaks : e.breaks with
  | true => exact bind_of_error (attempt_of_breaks hr hbreaks)
  | false =>
    cases e with
    | fault f => exact bind_of_ok (attempt_of_fault hr)
    | _ => cases hbreaks

end Live

end Commit

section Roster

theorem keeps_archetype (hI : Mild T I) (id : ArchetypeId) :
    Keeps I (archetype id : Run K (Archetype K)) := by
  refine keeps_get_bind fun w hw => ?_
  cases w.archetypes.find? id with
  | some a => exact .stay hI hw rfl
  | none => exact .stay hI hw rfl

omit [DecidableEq K] in
theorem archetype_of_ok {id : ArchetypeId} {a : Archetype K} (h : archetype id w = .ok a w') :
    w' = w := by
  rw [archetype, get_bind] at h
  cases hfind : w.archetypes.find? id <;> rw [hfind] at h <;> cases h
  rfl

omit [DecidableEq K] in
theorem find?_of_archetype {id : ArchetypeId} {a : Archetype K} (h : archetype id w = .ok a w') :
    w.archetypes.find? id = some a := by
  rw [archetype, get_bind] at h
  cases hfind : w.archetypes.find? id <;> rw [hfind] at h <;> cases h
  rfl

theorem keeps_prepare (hI : Mild T I) (ds : List ((k : K) × Schema.Row k)) :
    Keeps I (prepare ds) := by
  induction ds with
  | nil => exact keeps_pure hI ()
  | cons d ds ih => exact (keeps_component hI d.1).bind hI fun _ => ih

omit [DecidableEq K] in
theorem enrol_eq (w : World K) (a : ArchetypeId) :
    enrol a w = (onRoster (·.enrol (w.newcomer a)) >>= fun e => do
      note (.minted e a)
      return e) w.awaiting := rfl

/-- The identifier that is issued next goes to an entity. -/
theorem enrol_of_some (hw : w.Fit) (a : ArchetypeId) {i : Ident 32}
    (hi : w.roster.arena.issuer.next? = some i) : enrol a w = .ok ⟨i⟩ (w.minted a ⟨i⟩) := by
  obtain ⟨l, hl⟩ := hw.roster
  have hcall : w.awaiting.roster.enrol (w.newcomer a) =
      (.ok ⟨i⟩, w.roster.enrolled ⟨i⟩ (w.newcomer a)) := by
    show w.roster.enrol (w.newcomer a) = _
    rw [Roster.enrol, hl.insert_eq, hi]
    rfl
  have hok : onRoster (·.enrol (w.newcomer a)) w.awaiting =
      .ok ⟨i⟩ { w.awaiting with roster := w.roster.enrolled ⟨i⟩ (w.newcomer a) } := by
    rw [onRoster, hcall]
  rw [enrol_eq, bind_of_ok hok]
  rfl

/-- Without an identifier left, nobody is minted. -/
theorem enrol_of_none (hw : w.Fit) (a : ArchetypeId)
    (hi : w.roster.arena.issuer.next? = none) : enrol a w =
      .error (.fault (.entitiesExhausted w.roster.arena.issuer.gauge)) w.awaiting := by
  obtain ⟨l, hl⟩ := hw.roster
  have hcall : w.awaiting.roster.enrol (w.newcomer a) =
      (.error (.fault (.entitiesExhausted w.roster.arena.issuer.gauge)), w.roster) := by
    show w.roster.enrol (w.newcomer a) = _
    rw [Roster.enrol, hl.insert_eq, hi]
  have herr : onRoster (·.enrol (w.newcomer a)) w.awaiting =
      .error (.fault (.entitiesExhausted w.roster.arena.issuer.gauge)) w.awaiting := by
    rw [onRoster, hcall]
    rfl
  rw [enrol_eq, bind_of_error herr]

/-- An entity is minted, or there is no identifier left. -/
theorem enrol_cases (hw : w.Fit) (a : ArchetypeId) :
    (∃ e info w', enrol a w = .ok e w' ∧ w.roster.arena.issuer.next? = some e.ident ∧
      info.marked = false ∧ World.Turned (w.roster.enrolled e info) [.notice (.minted e a)] w w' ∧
      w'.Fit ∧ w'.bank = w.bank ∧ w'.observers = w.observers ∧ World.Calm w w') ∨
    ∃ f w', enrol a w = .error (.fault f) w' ∧ World.Aloof w w' := by
  cases hi : w.roster.arena.issuer.next? with
  | none => exact .inr ⟨_, _, enrol_of_none hw a hi, rfl, rfl, rfl, rfl, w.aside_awaiting⟩
  | some i =>
    exact .inl ⟨⟨i⟩, w.newcomer a, _, enrol_of_some hw a hi, rfl, rfl, w.turned_minted a ⟨i⟩,
      hw.minted a hi, rfl, rfl, w.calm_minted a ⟨i⟩⟩

theorem enrol_of_ok (hw : w.Fit) {a : ArchetypeId} (h : enrol a w = .ok e w') :
    w.roster.arena.issuer.next? = some e.ident ∧ w' = w.minted a e := by
  cases hi : w.roster.arena.issuer.next? with
  | none =>
    obtain ⟨e', info, w₁, -, hnext, -⟩ | ⟨f, w₁, herr, -⟩ := enrol_cases hw a
    · rw [hi] at hnext
      cases hnext
    · rw [herr] at h
      cases h
  | some i =>
    rw [enrol_of_some hw a hi] at h
    cases h
    exact ⟨rfl, rfl⟩

/-- Who has been enrolled lives. -/
theorem isLive_of_enrol (hw : w.Fit) {a : ArchetypeId} (h : enrol a w = .ok e w') :
    w'.isLive e = true := by
  obtain ⟨hnext, rfl⟩ := enrol_of_ok hw h
  obtain ⟨l, hl⟩ := hw.roster
  rw [(hw.minted a hnext).isLive_eq]
  show ((w.roster.arena.stored e.ident _).get? e.ident).isSome = true
  rw [hl.get?_stored hnext, Function.update_self]
  rfl

theorem passes_furnishEntity (hI : Mild T I) (hw : w.Fit) (he : T w.roster e)
    (ds : List ((k : K) × Schema.Row k)) : Passes I w (furnishEntity e ds w) := by
  induction ds generalizing w with
  | nil => exact .stay hI hw rfl
  | cons d ds ih =>
    have hstocks : Stocks (· = e) (Table.populate caller e d.2) :=
      fun A hA => Table.neat_populate (hA e rfl) d.2
    have hT : ∀ x, x = e → T w.roster x := fun x hx => hx ▸ he
    refine (passes_onTable hI hw hstocks hT).bind hI fun a w' hr hw' => ih hw' ?_
    have hroster := (passes_onTable hI.and_roster hw hstocks hT).keeps
    rw [hr] at hroster
    exact (hroster.2 rfl).symm ▸ he

end Roster

section Signals

variable {run : Runner K} (hrun : ∀ self script, Keeps I (run self script))

include hrun

theorem keeps_tell (hI : Mild T I) (s : Signal) (observer : Nat) :
    Keeps I (tell run s observer) := by
  refine keeps_get_bind fun w hw => ?_
  cases hget : w.observers[observer]? with
  | none => exact .stay hI hw rfl
  | some o =>
    have hemit : Keeps I (emit (.observed o.name s) : Run K Unit) := keeps_emit hI rfl
    refine (hemit w hw).bind hI fun _ v hr hv => ?_
    have hget : v.observers[observer]? = some o := by
      cases hr
      exact hget
    cases o.on.lookup s.topic with
    | none => exact keeps_pure hI () v hv
    | some script =>
      cases script with
      | nil => exact keeps_pure hI () v hv
      | cons a script =>
        -- an observer keeps its scripts when it runs one of them
        have haloof : World.Aloof v (v.spent observer o) :=
          ⟨rfl, rfl, rfl, rfl, .of_eq rfl rfl (by rw [v.scripts_spent hget])⟩
        have hspent : Passes I v ((modify (·.spent observer o) : Run K Unit) v) := .aloof hI hv haloof
        have hrest : Passes I v ((do
            modify (·.spent observer o)
            let _ ← attempt (run s.entity? (a :: script)) : Run K Unit) v) :=
          hspent.bind hI fun _ v' _ hv' =>
            ((hrun _ _).attempt.bind hI fun _ => keeps_pure hI _) v' hv'
        show Passes I v ((if o.left = 0 then pure () else _ : Run K Unit) v)
        split
        · exact keeps_pure hI () v hv
        · exact hrest

theorem keeps_tellFrom (hI : Mild T I) (s : Signal) (count first : Nat) :
    Keeps I (tellFrom run s count first) := by
  induction count generalizing first with
  | zero => exact keeps_pure hI ()
  | succ count ih => exact (keeps_tell hrun hI s first).bind hI fun _ => ih _

/-- A signal that is put up with may be given to the observers. -/
theorem keeps_fire (hI : Mild T I) (s : Signal) (hs : s.isQuiet = true)
    (hfired : ∀ {w w' : World K}, World.Turned w.roster [.notice (.fired s)] w w' →
      World.Calm w w' → I false w w') : Keeps I (fire run s) := by
  have hnote : Keeps I (note (.fired s) : Run K Unit) := fun w hw =>
    ⟨hw.congr rfl rfl rfl rfl, .of_eq rfl,
      hfired ⟨rfl, .of_push_told rfl rfl, fun _ _ => rfl⟩ (.of_push rfl hs)⟩
  exact hnote.bind hI fun _ => keeps_get_bind fun w hw => keeps_tellFrom hrun hI s _ _ w hw

theorem Candid.keeps_fire (hC : Candid T I) (s : Signal) (hs : s.isQuiet = true) :
    Keeps I (fire run s) := Run.keeps_fire hrun hC.toMild s hs (hC.fired s hs)

end Signals

section Queues

variable (hU : Tending T I)

include hU

/-- A change of the roster that is told of. -/
theorem Tending.passes_turned {r : EStateM.Result Failure (World K) α} (hw : (left r).Fit)
    (hbank : (left r).bank = w.bank) (h : I false w (left r)) : Passes I w r :=
  ⟨hw, .of_eq hbank, hU.any _ h⟩

theorem Tending.keeps_queueCreation (id : ArchetypeId) (init : Script K) :
    Keeps I (queueCreation id init) := by
  have hrest : Keeps I (modify fun w : World K =>
      { w with roster := { w.roster with creations := w.roster.creations ++ [⟨id, init⟩] } }) := by
    intro w hw
    refine hU.passes_turned ?_ rfl (hU.ordered _ ⟨rfl, .of_eq rfl, fun _ _ => rfl⟩ (.of_eq rfl))
    exact hw.congr rfl rfl rfl rfl
  refine keeps_get_bind fun w hw => ?_
  split
  · exact hrest w hw
  · exact ((keeps_fail hU.toMild _).bind hU.toMild fun _ => hrest) w hw

/-- An entity is marked and queued, unless it was so before or does not live. -/
theorem Tending.keeps_queueDestruction (e : Entity) (notify : Bool) :
    Keeps I (queueDestruction e notify : Run K Unit) := by
  refine keeps_get_bind fun w hw => ?_
  cases hinfo : w.roster.arena.get? e.ident with
  | none =>
    have hmark : w.roster.mark e notify = .error (.recordNotFound e Fault.registryName) := by
      rw [Roster.mark, hinfo]
    rw [hmark]
    exact .stay hU.toMild hw rfl
  | some info =>
    cases hmarked : info.marked with
    | true =>
      have hmark : w.roster.mark e notify = .ok (false, w.roster) := by
        simp only [Roster.mark, hinfo, hmarked, if_true]
      rw [hmark]
      exact .aloof hU.toMild hw ⟨rfl, rfl, rfl, rfl, .of_push rfl rfl⟩
    | false =>
      have hmark : w.roster.mark e notify = .ok (true, w.roster.marking e notify) := by
        simp only [Roster.mark, hinfo, hmarked, Bool.false_eq_true, if_false, Roster.marking]
      rw [hmark]
      obtain ⟨l, hl⟩ := hw.roster
      have hfit : ({ w with roster := w.roster.marking e notify } : World K).Fit :=
        ⟨hw.enterable, hw.lock_lt, hw.keys_nodup, hw.tables, ⟨l, hl.modify _ _⟩, hw.handles⟩
      exact hU.passes_turned hfit rfl
        (hU.marked hw hfit hinfo hmarked ⟨rfl, .of_eq rfl, fun _ _ => rfl⟩ (.of_eq rfl))

end Queues

section Populate

variable {run : Runner K} (hrun : ∀ self script, Keeps I (run self script))

include hrun

/-- An entity is given its first records and initialised. -/
theorem passes_populate (hI : Mild T I) (hw : w.Fit) (he : T w.roster e) (a : Archetype K)
    (init : Script K) : Passes I w (populate run a e init w) :=
  (passes_furnishEntity hI hw he a.defaults).bind hI fun _ _ _ hw' => hrun _ _ _ hw'

/-- So it may be while the locks of all tables are held. -/
theorem passes_populate_locked (hI : Mild T I) (hw : w.Fit) (he : T w.roster e) (a : Archetype K)
    (init : Script K) :
    Passes I w (withAllTables (LockedRun.lift (populate run a e init)) w) := by
  obtain ⟨-, hunder, hsame, -⟩ := hw.taken
  have he' : T w.taken.2.roster e := by
    rw [hsame]
    exact he
  exact passes_withAllTables hI hw
    (LockedRun.passes_lift hunder (passes_populate hrun hI hunder.fit he' a init))

end Populate

/-- Has an entity made up, and then tells of it, or undoes it if that fails. -/
def conclude (run : Runner K) (e : Entity) (body : Run K Unit) : Run K Unit := do
  match ← attempt body with
  | .error f =>
    rollBack run e
    fail f
  | .ok () => fire run (.entityCreated e)

/-- Mints an entity and has it made up. -/
def bring (run : Runner K) (id : ArchetypeId) (body : Entity → Run K Unit) : Run K Entity := do
  let e ← enrol id
  conclude run e (body e)
  return e

theorem create_eq (run : Runner K) (id : ArchetypeId) (init : Script K) :
    create run id init = archetype id >>= fun a => bring run id fun e => populate run a e init := by
  simp only [create, bring, conclude, bind_assoc]
  refine congrArg _ (funext fun a => congrArg _ (funext fun e => congrArg _ (funext fun r => ?_)))
  cases r with
  | error f => exact (bind_assoc (rollBack run e) (fun _ => fail f) fun _ => pure e).symm
  | ok => rfl

theorem commitCreation_eq (run : Runner K) (c : Creation K) :
    commitCreation run c = archetype c.archetype >>= fun a => prepare a.defaults >>= fun _ =>
      bring run c.archetype (fun e => withAllTables (LockedRun.lift (populate run a e c.init))) >>=
        fun _ => pure () := by
  simp only [commitCreation, bring, conclude, bind_assoc, pure_bind]
  refine congrArg _ (funext fun a => congrArg _ (funext fun _ => congrArg _ (funext fun e =>
    congrArg _ (funext fun r => ?_))))
  cases r with
  | error f => exact (bind_assoc (rollBack run e) (fun _ => fail f) fun _ => pure ()).symm
  | ok => exact (bind_pure_unit (x := fire run (.entityCreated e))).symm

section Bring

variable {run : Runner K}
variable (hbring : ∀ {id body} {w : World K}, w.Fit → (∀ e v, enrol id w = .ok e v → v.Fit →
  v.isLive e = true → Passes I v (body e v)) → Passes I w (bring run id body w))
variable (hpopulated : ∀ {r : Roster K} {e}, r.arena.contains e.ident = true → T r e)
variable (hrun : ∀ self script, Keeps I (run self script))

include hbring hpopulated hrun

theorem keeps_create_of (hI : Mild T I) (id : ArchetypeId) (init : Script K) :
    Keeps I (create run id init) := by
  rw [create_eq]
  exact (keeps_archetype hI id).bind hI fun a w hw => hbring hw fun e v _ hv he =>
    passes_populate hrun hI hv (hpopulated he) a init

theorem keeps_commitCreation_of (hI : Mild T I) (c : Creation K) :
    Keeps I (commitCreation run c) := by
  rw [commitCreation_eq]
  refine (keeps_archetype hI _).bind hI fun a => (keeps_prepare hI _).bind hI fun _ => ?_
  refine Keeps.bind hI (fun w hw => hbring hw fun e v _ hv he => ?_) fun _ => keeps_pure hI ()
  exact passes_populate_locked hrun hI hv (hpopulated he) a c.init

end Bring

/-- What is kept by each creation, and does not concern the queue of creations, is kept by committing
them. -/
theorem keeps_commitCreations (hI : Mild T I) {run : Runner K}
    (hordered : ∀ {w : World K} cs, I false w { w with roster := { w.roster with creations := cs } })
    (hcreate : ∀ c, Keeps I (commitCreation run c)) (turns count : Nat) :
    Keeps I (commitCreations run turns count) := by
  induction turns generalizing count with
  | zero => exact keeps_throw hI _
  | succ turns ih =>
    refine keeps_get_bind fun w hw => ?_
    cases w.roster.creations with
    | nil =>
      have hreturn : Keeps I (pure count : Run K Nat) := keeps_pure hI count
      dsimp only
      split
      · exact Keeps.bind hI (keeps_note hI rfl) (fun _ => hreturn) w hw
      · exact hreturn w hw
    | cons c cs =>
      refine Passes.after (u := w) (v := { w with roster := { w.roster with creations := cs } }) hI
        (.of_eq rfl) (hordered cs) ?_
      refine Keeps.bind hI (hcreate c) (fun _ => ih _) _ ?_
      exact hw.congr rfl rfl rfl rfl

section Scripts

variable (hU : Upkeep T I) {run : Runner K} (hrun : ∀ self script, Keeps I (run self script))

include hU

theorem Upkeep.keeps_raze (e : Entity) : Keeps I (raze e) := by
  intro w hw
  obtain ⟨w', hok, he, hrazed⟩ | ⟨f, w', herr, hfit, hlocks, hbeside, -⟩ := raze_cases hw e
  · rw [hok]
    exact ⟨hrazed.fit, .of_eq hrazed.bank_eq, hU.razed hw he hrazed⟩
  · rw [herr]
    exact ⟨hfit, hlocks, hU.any _ (hU.beside (hbeside.mono fun _ => False.elim))⟩

theorem Upkeep.keeps_enrol (a : ArchetypeId) : Keeps I (enrol a : Run K Entity) := by
  intro w hw
  obtain ⟨e, info, w', hok, hnext, hinfo, hturned, hfit, hbank, -, hcalm⟩ | ⟨f, w', herr, haloof⟩ :=
    enrol_cases hw a
  · rw [hok]
    exact ⟨hfit, .of_eq hbank, hU.minted hw hfit hnext hinfo hturned hcalm⟩
  · rw [herr]
    exact .aloof hU.toMild hw haloof

section Observers

include hrun

theorem Upkeep.keeps_destroy (e : Entity) (notify : Bool) : Keeps I (destroy run e notify) := by
  have hI := hU.toMild
  have hrest : Keeps I (do
      if notify then fire run (.entityDestroyed e)
      raze e) := by
    split
    · exact (hU.toCandid.keeps_fire hrun _ rfl).bind hI fun _ => hU.keeps_raze e
    · exact hU.keeps_raze e
  rw [destroy_eq]
  refine keeps_get_bind fun w hw => ?_
  split
  · exact hrest w hw
  · exact ((keeps_fail hI _).bind hI fun _ => hrest) w hw

theorem Upkeep.keeps_rollBack (e : Entity) : Keeps I (rollBack run e) := by
  refine (hU.keeps_destroy hrun e false).attempt.bind hU.toMild fun r => ?_
  cases r with
  | ok => exact keeps_pure hU.toMild ()
  | error f => exact keeps_note hU.toMild rfl

theorem Upkeep.passes_bring {id : ArchetypeId} {body : Entity → Run K Unit} (hw : w.Fit)
    (hbody : ∀ e v, enrol id w = .ok e v → v.Fit → v.isLive e = true → Passes I v (body e v)) :
    Passes I w (bring run id body w) := by
  have hI := hU.toMild
  refine (hU.keeps_enrol id w hw).bind hI fun e v hr hv => ?_
  have hconclude : Passes I v (conclude run e (body e) v) := by
    refine (hbody e v hr hv (isLive_of_enrol hw hr)).attempt.bind hI fun r u _ hu => ?_
    cases r with
    | error f => exact Keeps.bind hI (hU.keeps_rollBack hrun e) (fun _ => keeps_fail hI f) u hu
    | ok => exact hU.toCandid.keeps_fire hrun _ rfl u hu
  exact hconclude.bind hI fun _ u _ hu => keeps_pure hI e u hu

theorem Upkeep.keeps_create (id : ArchetypeId) (init : Script K) : Keeps I (create run id init) :=
  keeps_create_of (hU.passes_bring hrun) hU.populated hrun hU.toMild id init

theorem Upkeep.keeps_commitCreation (c : Creation K) : Keeps I (commitCreation run c) :=
  keeps_commitCreation_of (hU.passes_bring hrun) hU.populated hrun hU.toMild c

theorem Upkeep.keeps_commitCreations (turns count : Nat) :
    Keeps I (commitCreations run turns count) :=
  Run.keeps_commitCreations hU.toMild
    (fun cs => hU.ordered cs ⟨rfl, .of_eq rfl, fun _ _ => rfl⟩ (.of_eq rfl))
    (hU.keeps_commitCreation hrun) turns count

end Observers

end Scripts

section InHand

/-- Who has been destroyed lived until then, whatever observers did that were told before. -/
theorem razed_of_destroy (hI : Mild T I) {run : Runner K} {e : Entity} {notify : Bool}
    (hfire : Keeps I (fire run (.entityDestroyed e))) (hw : w.Fit)
    (h : destroy run e notify w = .ok () w') :
    ∃ v, v.Fit ∧ I false w v ∧ v.isLive e = true ∧ World.Razed e [.notice (.destroyed e)] v w' := by
  have hraze : ∀ v : World K, v.Fit → raze e v = .ok () w' →
      v.isLive e = true ∧ World.Razed e [.notice (.destroyed e)] v w' := by
    intro v hv hr
    obtain ⟨v', hok, he, hrazed⟩ | ⟨f, v', herr, -⟩ := raze_cases hv e
    · cases hok.symm.trans hr
      exact ⟨he, hrazed⟩
    · cases herr.symm.trans hr
  rw [destroy_eq, get_bind] at h
  cases he : w.isLive e with
  | false =>
    rw [he] at h
    cases h
  | true =>
    rw [he] at h
    cases notify with
    | false => exact ⟨w, hw, hI.refl false w, hraze w hw h⟩
    | true =>
      obtain ⟨⟨⟩, v, hfired, hv⟩ := ok_of_bind h
      obtain ⟨hfit, hkept⟩ := (hfire w hw).of_ok hfired
      exact ⟨v, hfit, hkept, hraze v hfit hv⟩

/-- Who has been destroyed is gone. -/
theorem info?_of_destroy {run : Runner K}
    (hrun : ∀ self script, Keeps (fun _ _ _ => True) (run self script)) {e : Entity} {notify : Bool}
    (hw : w.Fit) (h : destroy run e notify w = .ok () w') : w'.info? e = none := by
  have hI : Mild (fun _ _ => False) fun _ (_ _ : World K) => True := .top
  obtain ⟨v, hv, -, -, hrazed⟩ :=
    razed_of_destroy hI (keeps_fire hrun hI (.entityDestroyed e) rfl fun _ _ => trivial) hw h
  rw [hrazed.info?_eq hv, if_pos rfl]

variable {ι : Type} {J : ι → Bool → World K → World K → Prop} {hold : ι → Destruction → ι}

/-- While a destruction that has left the queue is carried out, another relation is kept. Whatever
becomes of the destruction, it leads back to the relation that is kept otherwise. -/
structure InHand (J : ι → Bool → World K → World K → Prop) (hold : ι → Destruction → ι) : Prop where
  skipped : ∀ {i w d ds}, w.roster.destructions = d :: ds → w.info? d.entity = none →
    J i false w (w.queued ds)
  done : ∀ {i w w' d ds}, w.roster.destructions = d :: ds → J (hold i d) false (w.queued ds) w' →
    w'.info? d.entity = none → J i false w w'
  back : ∀ {i w w' d ds}, w.roster.destructions = d :: ds → J (hold i d) false (w.queued ds) w' →
    J i false w (w'.queued (d :: w'.roster.destructions))
  lost : ∀ {i w w' d ds}, w.roster.destructions = d :: ds → J (hold i d) true (w.queued ds) w' →
    J i true w w'

/-- Such relations are kept by committing destructions if they are kept by each destruction. -/
theorem InHand.keeps_commits (hJ : InHand J hold) (hI : ∀ i, Mild T (J i)) {run : Runner K}
    (hrun : ∀ self script, Keeps (fun _ _ _ => True) (run self script))
    (hdestroy : ∀ i e notify, Keeps (J i) (destroy run e notify)) (i : ι) (turns count : Nat) :
    Keeps (J i) (commitDestructions run turns count) := by
  have hI := hI i
  induction turns generalizing count with
  | zero => exact keeps_throw hI _
  | succ turns ih =>
    intro w hw
    cases hd : w.roster.destructions with
    | nil =>
      rw [commitDestructions_nil hd]
      split
      · exact Keeps.bind hI (keeps_note hI rfl) (fun _ => keeps_pure hI count) w hw
      · exact keeps_pure hI count w hw
    | cons d ds =>
      cases hlive : w.isLive d.entity with
      | false =>
        rw [commitDestructions_of_dead hd hlive]
        have hskipped : J i false w (w.queued ds) := hJ.skipped hd (hw.info?_of_dead hlive)
        refine Passes.after (u := w) (v := w.queued ds) hI (.of_eq rfl) hskipped ?_
        exact Keeps.bind hI (keeps_note hI rfl) (fun _ => ih count) _ (hw.queued ds)
      | true =>
        have hdestroy := hdestroy (hold i d) d.entity d.notify _ (hw.queued ds)
        cases hr : destroy run d.entity d.notify (w.queued ds) with
        | ok u v =>
          rw [hr] at hdestroy
          rw [commitDestructions_of_ok hd hlive hr]
          have hdone := hJ.done hd hdestroy.keeps (info?_of_destroy hrun (hw.queued ds) hr)
          exact Passes.after (u := w) (v := v) hI hdestroy.locks hdone (ih _ v hdestroy.fit)
        | error e v =>
          rw [hr] at hdestroy
          rw [commitDestructions_of_error hd hlive hr]
          have hkeeps : J (hold i d) e.breaks (w.queued ds) v := hdestroy.keeps
          cases hbreaks : e.breaks with
          | true =>
            rw [hbreaks] at hkeeps
            refine ⟨hdestroy.fit, hdestroy.locks, ?_⟩
            show J i e.breaks w v
            rw [hbreaks]
            exact hJ.lost hd hkeeps
          | false =>
            rw [hbreaks] at hkeeps
            refine ⟨hdestroy.fit.queued _, hdestroy.locks, ?_⟩
            show J i e.breaks w (v.queued (d :: v.roster.destructions))
            rw [hbreaks]
            exact hJ.back hd hkeeps

/-- Such relations are kept by committing destructions. -/
theorem InHand.keeps_commitDestructions (hJ : InHand J hold) (hU : ∀ i, Upkeep T (J i))
    {run : Runner K} (hrun : ∀ i self script, Keeps (J i) (run self script)) (i : ι)
    (turns count : Nat) : Keeps (J i) (commitDestructions run turns count) :=
  hJ.keeps_commits (fun i => (hU i).toMild)
    (fun self script => (hrun i self script).mono fun _ _ _ _ => trivial)
    (fun i => (hU i).keeps_destroy (hrun i)) i turns count

/-- What is kept by each destruction, and does not concern the queue of destructions, is kept by
committing them. -/
theorem keeps_commitDestructions (hI : Mild T I) {run : Runner K}
    (hrun : ∀ self script, Keeps I (run self script))
    (hdestroy : ∀ e notify, Keeps I (destroy run e notify))
    (hqueue : ∀ (w : World K) ds, I false w (w.queued ds)) (turns count : Nat) :
    Keeps I (commitDestructions run turns count) := by
  have hJ : InHand (fun _ : Unit => I) fun i _ => i :=
    ⟨fun _ _ => hqueue _ _, fun _ h _ => hI.follow (hqueue _ _) h,
      fun _ h => hI.follow (hI.follow (hqueue _ _) h) (hqueue _ _),
      fun _ h => hI.follow (hqueue _ _) h⟩
  exact hJ.keeps_commits (fun _ => hI)
    (fun self script => (hrun self script).mono fun _ _ _ _ => trivial) (fun _ => hdestroy) ()
    turns count

theorem Upkeep.keeps_commitDestructions (hU : Upkeep T I) {run : Runner K}
    (hrun : ∀ self script, Keeps I (run self script))
    (hqueue : ∀ (w : World K) ds, I false w (w.queued ds)) (turns count : Nat) :
    Keeps I (commitDestructions run turns count) :=
  Run.keeps_commitDestructions hU.toMild hrun (hU.keeps_destroy hrun) hqueue turns count

end InHand

end Run

end EntityStore
