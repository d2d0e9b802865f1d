import EntityStore.Proofs.World.Charted
import EntityStore.Sample

/-!
# What observers are told of entities

Observers are told of an entity when it has been created, with its records in place, and before it is
destroyed, with its records still in place; each time once, and only if the creation succeeded and the
destruction was asked to tell. Of a creation that fails, and of a destruction that fails, they are told
nothing. An operation that is broken off in the middle is another matter: the entity then lives on, and
may be told of as destroyed without having been told of as created, or twice.
-/
namespace EntityStore

open Run (left broke Keeps Passes bind_of_ok ok_of_bind)
open World (caller)

variable {K α : Type} [Schema K] [DecidableEq K] {v w w' u : World K} {k : K} {e : Entity}

/-- An entity has a default record of every kind that has one. -/
def World.Furnished (w : World K) (ds : List ((k : K) × Schema.Row k)) (e : Entity) : Prop :=
  ∀ d ∈ ds, ∃ r, ⟨d.1, r⟩ ∈ ds ∧ w.record? d.1 e = some r

namespace Run

section Furnish

variable {ds : List ((k : K) × Schema.Row k)}

theorem record?_of_populate (hw : w.Fit) {r : Schema.Row k} {a : Option (Schema.Row k)}
    (h : onTable k (Table.populate caller e r) w = .ok a w') :
    w'.Fit ∧ w'.record? k e = some r ∧ ∀ j, j ≠ k → w'.record? j e = w.record? j e := by
  have hneat : Stocks (fun _ => True) (Table.populate caller e r) := fun A hA =>
    Table.neat_populate (hA e trivial) r
  have hpass : Passes (fun _ _ _ => True) w (onTable k (Table.populate caller e r) w) :=
    passes_onTable (T := fun _ _ => True) .top hw hneat fun _ _ => trivial
  obtain ⟨d, u, hcomponent, hdesk⟩ := ok_of_bind h
  have hrecord := record?_of_component hcomponent
  have hd := find?_of_component hcomponent
  have hu : u.Fit := ((keeps_component (T := fun _ _ => False) .top k w hw).of_ok hcomponent).1
  have hok : onTable k (Table.populate caller e r) u = .ok a w' := by
    rw [onTable, bind_of_ok (component_of_find? hd)]
    exact hdesk
  refine ⟨(hpass.of_ok h).1, ?_⟩
  obtain ⟨g, hop, rfl, -⟩ := onTable_eq_of_ok hu hd hneat hok
  refine ⟨?_, fun j hj => ?_⟩
  · rw [World.record?_putBack hd]
    exact Table.populate_of_ok (hu.tables k d hd) (hu.enterable _) hop
  · rw [World.record?_putBack_ne hj, hrecord]

/-- Of each kind the last default record is there, or what was there before. -/
theorem record?_of_furnishEntity (hw : w.Fit) (h : furnishEntity e ds w = .ok () w') (k : K) :
    (∃ r, ⟨k, r⟩ ∈ ds ∧ w'.record? k e = some r) ∨
      (k ∉ ds.map (·.1) ∧ w'.record? k e = w.record? k e) := by
  induction ds generalizing w with
  | nil =>
    cases h
    exact .inr ⟨List.not_mem_nil, rfl⟩
  | cons d ds ih =>
    obtain ⟨a, u, hplace, hrest⟩ := ok_of_bind h
    obtain ⟨hu, hplaced, hothers⟩ := record?_of_populate hw hplace
    obtain ⟨r, hr, hrecord⟩ | ⟨hk, hsame⟩ := ih hu hrest
    · exact .inl ⟨r, List.mem_cons_of_mem d hr, hrecord⟩
    · by_cases hkd : k = d.1
      · subst hkd
        exact .inl ⟨d.2, List.mem_cons_self, hsame.trans hplaced⟩
      · exact .inr ⟨by simp [hkd, hk], hsame.trans (hothers k hkd)⟩

theorem furnished_of_furnishEntity (hw : w.Fit) (h : furnishEntity e ds w = .ok () w') :
    w'.Furnished ds e := by
  intro d hd
  obtain hplaced | ⟨hk, -⟩ := record?_of_furnishEntity hw h d.1
  · exact hplaced
  · exact absurd (List.mem_map_of_mem hd) hk

end Furnish

end Run

namespace World

/-- An entity has been created: it was furnished with its default records and then initialised, and
after that nothing has happened, apart from the locks, but that observers were told of it. -/
structure Arrived (run : Runner K) (id : ArchetypeId) (init : Script K) (v : World K) (e : Entity)
    (u : World K) : Prop where
  unborn : v.life e = []
  initialised : ∃ a before after m, v.archetypes.find? id = some a ∧
    before.Furnished a.defaults e ∧ run (some e) init before = .ok () after ∧
    m.roster = after.roster ∧ m.tables = after.tables ∧ m.isLive e = true ∧
    Written [.notice (.fired (.entityCreated e))] m u
  life_eq : u.life e = [.minted, .created]

/-- No entity has been created: none was minted, or the one that was minted has been destroyed again
without a signal. -/
inductive Withdrawn (v : World K) : World K → Prop
  | refused {u : World K} : u.roster = v.roster → Told [] v u → Withdrawn v u
  | undone {e : Entity} {m u : World K} : v.life e = [] → m.life e = [.minted] →
    Razed e [.notice (.destroyed e)] m u → u.life e = [.minted, .gone] → Withdrawn v u

theorem Withdrawn.of_beside (h : Beside (fun _ => False) v u) : Withdrawn v u :=
  .refused h.roster_eq h.told

/-- An entity has been destroyed: it lived, and before anything else happened observers were told of
it, if they were to be told. -/
structure Departed (e : Entity) (notify : Bool) (v u : World K) : Prop where
  lived : v.isLive e = true
  announced : ∃ m, Written (if notify then [.notice (.fired (.entityDestroyed e))] else []) v m ∧
    Razed e [.notice (.destroyed e)] m u

end World

namespace Run

section Bring

variable {n : Nat} {id : ArchetypeId} {init : Script K} {a : Archetype K}
variable {body : Entity → Run K Unit}

/-- What gives an entity its default records, and then initialises it. -/
def Initialises (run : Runner K) (a : Archetype K) (init : Script K)
    (body : Entity → Run K Unit) : Prop :=
  ∀ e v m, v.Fit → body e v = .ok () m → ∃ before after, before.Furnished a.defaults e ∧
    run (some e) init before = .ok () after ∧ m.roster = after.roster ∧ m.tables = after.tables

theorem initialises_populate (run : Runner K) :
    Initialises run a init fun e => populate run a e init := by
  intro e v m hv h
  obtain ⟨⟨⟩, before, hfurnish, hrun⟩ := ok_of_bind h
  exact ⟨before, m, furnished_of_furnishEntity hv hfurnish, hrun, rfl, rfl⟩

/-- It makes no difference that the locks of all tables are held meanwhile. -/
theorem initialises_populate_locked {run : Runner K}
    (hrun : ∀ self script, Keeps (fun _ _ _ => True) (run self script)) :
    Initialises run a init fun e => withAllTables (LockedRun.lift (populate run a e init)) := by
  intro e v m hv h
  obtain ⟨-, hunder, -⟩ := hv.taken
  have hpass : Passes (fun _ _ _ => True) v.taken.2 (populate run a e init v.taken.2) :=
    passes_populate (T := fun _ _ => True) hrun .top hunder.fit trivial a init
  obtain ⟨after, bank, hpopulate, rfl⟩ :=
    withAllTables_of_ok hv (LockedRun.passes_lift hunder hpass).under h
  obtain ⟨before, after', hfurnished, hinit, hroster, htables⟩ :=
    initialises_populate run e _ after hunder.fit hpopulate
  exact ⟨before, after', hfurnished, hinit, hroster, htables⟩

variable {v₁ : World K} (hfit : v₁.Fit) (hc : v.Charted)
variable (hbeside : World.Beside (fun _ => False) v v₁)
variable (hbody : ∀ e w, w.Fit → Passes World.Charts w (body e w))

include hfit hc hbeside hbody

theorem arrived_of_bring (hinit : Initialises (runScript n) a init body)
    (ha : v.archetypes.find? id = some a) (ho : u.Orderly)
    (h : bring (runScript n) id body v₁ = .ok e u) : World.Arrived (runScript n) id init v e u := by
  have hbring := bring_cases (keeps_runScript_charts n) hfit (fun e w _ hw _ => hbody e w hw)
    (by rw [h]; exact ho) (hc.beside hbeside)
  rw [h] at hbring
  obtain ⟨f, u', herr, -⟩ | ⟨e', hnext, ⟨m, u', hmade, hok, hm, hwritten⟩ | ⟨f, m, u', -, herr, -⟩ |
    ⟨f, u', herr, -⟩⟩ := hbring
  · cases herr
  · cases hok
    obtain ⟨before, after, hfurnished, hrun, hroster, htables⟩ :=
      hinit e _ m (hfit.minted id hnext) hmade
    exact ⟨hc.unborn (hbeside.roster_eq ▸ hnext),
      ⟨a, before, after, m, ha, hfurnished, hrun, hroster, htables, hm.isLive_eq, hwritten⟩,
      (hm.charted.created hm.life_eq hwritten).2⟩
  · cases herr
  · cases herr

theorem withdrawn_of_bring {f : Fault} (ho : u.Orderly)
    (h : bring (runScript n) id body v₁ = .error (.fault f) u) : World.Withdrawn v u := by
  have hbring := bring_cases (keeps_runScript_charts n) hfit (fun e w _ hw _ => hbody e w hw)
    (by rw [h]; exact ho) (hc.beside hbeside)
  rw [h] at hbring
  obtain ⟨f, u', herr, haloof⟩ | ⟨e, hnext, ⟨m, u', -, hok, -⟩ |
    ⟨f, m, u', -, herr, hm, hrazed⟩ | ⟨f, u', herr, hbreaks, -⟩⟩ := hbring
  · cases herr
    exact .refused (haloof.roster_eq.trans hbeside.roster_eq) (hbeside.told.trans haloof.told)
  · cases hok
  · cases herr
    obtain ⟨-, hlife⟩ := hm.charted.razed hm.fit hm.isLive_eq hrazed ho.unworn
    rw [hm.life_eq] at hlife
    exact .undone (hc.unborn (hbeside.roster_eq ▸ hnext)) hm.life_eq hrazed hlife
  · cases herr
    cases hbreaks

end Bring

section Outcomes

variable {n : Nat} {id : ArchetypeId} {init : Script K} {c : Creation K} {f : Fault} {notify : Bool}

theorem passes_populate_charts (a : Archetype K) (init : Script K) (e : Entity) (w : World K)
    (hw : w.Fit) : Passes World.Charts w (populate (runScript n) a e init w) :=
  passes_populate (keeps_runScript_charts n) World.Charts.tending.toMild hw trivial a init

theorem passes_populate_locked_charts (a : Archetype K) (init : Script K) (e : Entity) (w : World K)
    (hw : w.Fit) :
    Passes World.Charts w (withAllTables (LockedRun.lift (populate (runScript n) a e init)) w) :=
  passes_populate_locked (keeps_runScript_charts n) World.Charts.tending.toMild hw trivial a init

variable (hv : v.Fit) (ho : u.Orderly)

include hv ho

section Creation

variable (hc : v.Charted)

include hc

theorem arrived_of_create (h : create (runScript n) id init v = .ok e u) :
    World.Arrived (runScript n) id init v e u := by
  rw [create_eq] at h
  obtain ⟨a, v', harchetype, hbring⟩ := ok_of_bind h
  obtain rfl := (archetype_of_ok harchetype).symm
  exact arrived_of_bring hv hc (.refl _) (passes_populate_charts a init) (initialises_populate _)
    (find?_of_archetype harchetype) ho hbring

theorem withdrawn_of_create (h : create (runScript n) id init v = .error (.fault f) u) :
    World.Withdrawn v u := by
  rw [create_eq] at h
  obtain harchetype | ⟨a, v', harchetype, hbring⟩ := error_of_bind h
  · exact .of_beside ((keeps_archetype .beside_self id v hv).of_error harchetype)
  · obtain rfl := (archetype_of_ok harchetype).symm
    exact withdrawn_of_bring hv hc (.refl _) (passes_populate_charts a init) ho hbring

theorem arrived_of_commitCreation (h : commitCreation (runScript n) c v = .ok () u) :
    ∃ e, World.Arrived (runScript n) c.archetype c.init v e u := by
  rw [commitCreation_eq] at h
  obtain ⟨a, v', harchetype, h⟩ := ok_of_bind h
  obtain rfl := (archetype_of_ok harchetype).symm
  obtain ⟨⟨⟩, v₁, hprepare, h⟩ := ok_of_bind h
  obtain ⟨hv₁, hbeside⟩ : v₁.Fit ∧ World.Beside (fun _ => False) v v₁ :=
    (keeps_prepare .beside_self a.defaults v hv).of_ok hprepare
  obtain ⟨e, u', hbring, hreturn⟩ := ok_of_bind h
  cases hreturn
  exact ⟨e, arrived_of_bring hv₁ hc hbeside (passes_populate_locked_charts a c.init)
    (initialises_populate_locked fun self script =>
      (keeps_runScript_charts n self script).mono fun _ _ _ _ => trivial)
    (find?_of_archetype harchetype) ho hbring⟩

theorem withdrawn_of_commitCreation (h : commitCreation (runScript n) c v = .error (.fault f) u) :
    World.Withdrawn v u := by
  rw [commitCreation_eq] at h
  obtain harchetype | ⟨a, v', harchetype, h⟩ := error_of_bind h
  · exact .of_beside ((keeps_archetype .beside_self c.archetype v hv).of_error harchetype)
  obtain rfl := (archetype_of_ok harchetype).symm
  obtain hprepare | ⟨⟨⟩, v₁, hprepare, h⟩ := error_of_bind h
  · exact .of_beside ((keeps_prepare .beside_self a.defaults v hv).of_error hprepare)
  obtain ⟨hv₁, hbeside⟩ : v₁.Fit ∧ World.Beside (fun _ => False) v v₁ :=
    (keeps_prepare .beside_self a.defaults v hv).of_ok hprepare
  obtain hbring | ⟨e, u', -, hreturn⟩ := error_of_bind h
  · exact withdrawn_of_bring hv₁ hc hbeside (passes_populate_locked_charts a c.init) ho hbring
  · cases hreturn

end Creation

theorem onlyRecords_of_destroy (h : left (destroy (runScript n) e notify v) = u) :
    v.OnlyRecords := by
  have honward : World.Onward v (left (destroy (runScript n) e notify v)) :=
    (keeps_destroy_charts (keeps_runScript_charts n) e notify v hv).keeps.onward
  exact (honward.orderly (h ▸ ho)).onlyRecords

theorem departed_of_destroy (h : destroy (runScript n) e notify v = .ok () u) :
    World.Departed e notify v u := by
  have hrecords := onlyRecords_of_destroy hv ho (congrArg left h)
  cases he : v.isLive e with
  | false => cases (destroy_of_dead he notify).symm.trans h
  | true =>
    obtain ⟨m, hwritten, heq, ⟨u', hok, hrazed⟩ | ⟨f, u', herr, -⟩⟩ :=
      destroy_cases (runScript n) hv hrecords he notify
    · cases (heq.trans hok).symm.trans h
      exact ⟨he, m, hwritten, hrazed⟩
    · cases (heq.trans herr).symm.trans h

/-- A destruction fails without effect, if it is not broken off. -/
theorem eq_of_destroy (h : destroy (runScript n) e notify v = .error (.fault f) u) : u = v := by
  have hrecords := onlyRecords_of_destroy hv ho (congrArg left h)
  cases he : v.isLive e with
  | false =>
    cases (destroy_of_dead he notify).symm.trans h
    rfl
  | true =>
    obtain ⟨m, hwritten, heq, ⟨u', hok, -⟩ | ⟨g, u', herr, -, hbreaks, -⟩⟩ :=
      destroy_cases (runScript n) hv hrecords he notify
    · cases (heq.trans hok).symm.trans h
    · cases (heq.trans herr).symm.trans h
      cases hbreaks

end Outcomes

def answer? {σ : Type} : EStateM.Result Failure σ α → Option α
  | .ok a _ => some a
  | .error _ _ => none

theorem ok_of_answer? {σ : Type} {r : EStateM.Result Failure σ α} {a : α} (h : answer? r = some a) :
    r = .ok a (left r) := by
  cases r with
  | ok b s =>
    cases h
    rfl
  | error => cases h

end Run

namespace World

/-- A run of verbs from a new world: the entities that a verb that was broken off has left in the
middle, and the world that the verbs have led to. -/
inductive Chronicled : (Entity → Prop) → World K → Prop
  | start (settings : Settings) (plans : List (SystemId × Plan K)) :
    Chronicled (fun _ => False) { settings, plans }
  | next {lost : Entity → Prop} {w : World K} (h : Chronicled lost w) (n turns : Nat) (v : Verb K)
    {r : EStateM.Result Failure (World K) (Answer K)}
    (hr : Run.perform (Run.runScript n) turns none v w = r) :
    Chronicled (fun x => lost x ∨ (broke r = true ∧ Stage.BrokenOff ((left r).life x))) (left r)

namespace Chronicled

variable {lost : Entity → Prop}

theorem reached (h : w.Chronicled lost) : w.Reached := by
  induction h with
  | start settings plans => exact .start settings plans
  | next _ n turns v hr ih => exact hr ▸ ih.next n turns v

/-- Only of who was left in the middle something else is told than should be. -/
theorem whole (h : w.Chronicled lost) (ho : w.Orderly) :
    w.Charted ∧ ∀ x, ¬lost x → Stage.Whole (w.life x) := by
  induction h with
  | start settings plans => exact ⟨.start settings plans, fun _ _ => .unborn⟩
  | @next lost w h n turns v r hr ih =>
    have hkeeps := (Run.passes_verb_charts h.reached.atRest.1 n turns none v).keeps
    rw [hr] at hkeeps
    obtain ⟨hcharted, hwhole⟩ := ih (hkeeps.onward.orderly ho)
    obtain ⟨hcharted', hfares⟩ := hkeeps.charted ho hcharted
    refine ⟨hcharted', fun x hx => ?_⟩
    obtain ⟨hx, hbroke⟩ := not_or.mp hx
    cases hb : broke r with
    | false => exact (hfares hb x).whole (hwhole x hx)
    | true => exact (hcharted'.lawful x).whole fun hoff => hbroke ⟨hb, hoff⟩

end Chronicled

omit [DecidableEq K] in
/-- What orderly worlds can be told by. -/
theorem orderly_of_checks (hsize : w.events.size < Issuer.mostReturns)
    (hrecording : w.observers.all (·.on.all (·.2.isEmpty)) = true) (hconsiderate : w.Considerate) :
    w.Orderly where
  unworn := unworn_of_size hsize
  recording o ho s hs := by
    have hall := List.all_eq_true.mp (List.all_eq_true.mp hrecording o ho) s hs
    exact List.isEmpty_iff.mp hall
  considerate := hconsiderate

/-- In a run with observers that only record, in which nobody destroyed an entity that was still being
created and no index came back so often that its generation came around, what observers are told of
entities is in order. Whoever was not left in the middle by an operation that was broken off was told of
as created at most once, and as destroyed at most once and then after that. Scripts, too, go from orderly
worlds to such, and wherever in one an entity is created or destroyed, it goes by the same rules. Who is
created is told of at the end, with its default records as the initialisation left them; of a creation
that fails nothing is told. Who is destroyed is told of first, if that was asked for, with all records as
they were; a destruction that fails does nothing at all. -/
theorem signals_follow_lives {lost : Entity → Prop} (h : w.Chronicled lost) (ho : w.Orderly) :
    w.Fit ∧ w.Charted ∧ (∀ x, ¬lost x → Stage.Whole (w.life x)) ∧
    ∀ (n : Nat) {v u : World K}, v.Fit → v.Charted → u.Orderly →
      (∀ self script, left (Run.runScript n self script v) = u → u.Fit ∧ u.Charted) ∧
      (∀ id init e, Run.create (Run.runScript n) id init v = .ok e u →
        Arrived (Run.runScript n) id init v e u) ∧
      (∀ id init f, Run.create (Run.runScript n) id init v = .error (.fault f) u → Withdrawn v u) ∧
      (∀ c, Run.commitCreation (Run.runScript n) c v = .ok () u →
        ∃ e, Arrived (Run.runScript n) c.archetype c.init v e u) ∧
      (∀ c f, Run.commitCreation (Run.runScript n) c v = .error (.fault f) u → Withdrawn v u) ∧
      (∀ e notify, Run.destroy (Run.runScript n) e notify v = .ok () u → Departed e notify v u) ∧
      ∀ e notify f, Run.destroy (Run.runScript n) e notify v = .error (.fault f) u → u = v := by
  obtain ⟨hcharted, hwhole⟩ := h.whole ho
  refine ⟨h.reached.atRest.1, hcharted, hwhole, fun n v u hv hc hu => ⟨?_, ?_, ?_, ?_, ?_, ?_, ?_⟩⟩
  · rintro self script rfl
    have hkeeps := Run.keeps_runScript_charts n self script v hv
    exact ⟨hkeeps.fit, (hkeeps.keeps.charted hu hc).1⟩
  · exact fun id init e => Run.arrived_of_create hv hu hc
  · exact fun id init f => Run.withdrawn_of_create hv hu hc
  · exact fun c => Run.arrived_of_commitCreation hv hu hc
  · exact fun c f => Run.withdrawn_of_commitCreation hv hu hc
  · exact fun e notify => Run.departed_of_destroy hv hu
  · exact fun e notify f => Run.eq_of_destroy hv hu

/-- One creation has failed and another has not; who was created is destroyed with a signal, and somebody
else is created in place of who was not. -/
theorem signals_follow_lives_announced :
    let _ := Sample.schema ""
    let e : Entity := ⟨⟨0, ⟨1⟩, by decide⟩⟩
    let x : Entity := ⟨⟨1, ⟨1⟩, by decide⟩⟩
    let y : Entity := ⟨⟨1, ⟨2⟩, by decide⟩⟩
    ∃ (lost : Entity → Prop) (w u v : World Sample.Kind), w.Chronicled lost ∧ w.Orderly ∧
      w.life e = [.minted, .created] ∧ Stage.Whole (w.life e) ∧
      w.life x = [.minted, .gone] ∧ Stage.Whole (w.life x) ∧
      Departed e true w u ∧ u.life e = [.minted, .created, .ending, .gone] ∧
      Arrived (Run.runScript 1) 1 [] w y v ∧
      some (⟨0, 0⟩ : Sample.Pos) = v.record? .pos y := by
  intro _ e x y
  obtain ⟨lost, w, h, hw, he, hx, hdestroy, hu, hue, hcreate, hv, hvy⟩ :
      ∃ (lost : Entity → Prop) (w : World Sample.Kind), w.Chronicled lost ∧ w.Orderly ∧
        (¬lost e ∧ w.life e = [.minted, .created]) ∧ (¬lost x ∧ w.life x = [.minted, .gone]) ∧
        Run.answer? (Run.destroy (Run.runScript 1) e true w) = some () ∧
        (left (Run.destroy (Run.runScript 1) e true w)).Orderly ∧
        (left (Run.destroy (Run.runScript 1) e true w)).life e =
          [.minted, .created, .ending, .gone] ∧
        Run.answer? (Run.create (Run.runScript 1) 1 [] w) = some y ∧
        (left (Run.create (Run.runScript 1) 1 [] w)).Orderly ∧
        some (⟨0, 0⟩ : Sample.Pos) = (left (Run.create (Run.runScript 1) 1 [] w)).record? .pos y := by
    have h : Chronicled (fun _ => False) ({} : World Sample.Kind) := .start {} []
    have h := h.next 1 1 (.registerComponent .pos) rfl
    have h := h.next 1 1 (.registerArchetype 1 "point" [⟨.pos, ⟨0, 0⟩⟩]) rfl
    have h := h.next 1 1 (.subscribe "watch" 0 []) rfl
    have h := h.next 1 1 (.create 1 []) rfl
    have h := h.next 1 1 (.create 1 [⟨"fail", .fail (.identsExhausted 0), false⟩]) rfl
    exact ⟨_, _, h, orderly_of_checks (by decide +kernel) (by decide +kernel) (by decide +kernel),
      ⟨by decide +kernel, by decide +kernel⟩, ⟨by decide +kernel, by decide +kernel⟩,
      by decide +kernel,
      orderly_of_checks (by decide +kernel) (by decide +kernel) (by decide +kernel),
      by decide +kernel, by decide +kernel,
      orderly_of_checks (by decide +kernel) (by decide +kernel) (by decide +kernel),
      by decide +kernel⟩
  obtain ⟨hfit, hcharted, hwhole, hops⟩ := signals_follow_lives h hw
  obtain ⟨-, -, -, -, -, hdeparted, -⟩ := hops 1 hfit hcharted hu
  obtain ⟨-, harrived, -⟩ := hops 1 hfit hcharted hv
  exact ⟨lost, w, _, _, h, hw, he.2, hwhole e he.1, hx.2, hwhole x hx.1,
    hdeparted e true (Run.ok_of_answer? hdestroy), hue, harrived 1 [] y (Run.ok_of_answer? hcreate), hvy⟩

/-- Where a creation or a destruction is broken off in the middle, an entity may be told of as destroyed
without having been told of as created, and as destroyed twice although it lives. -/
theorem signals_broken_off :
    let _ := Sample.schema ""
    let e : Entity := ⟨⟨0, ⟨1⟩, by decide⟩⟩
    (∃ (lost : Entity → Prop) (w : World Sample.Kind), w.Chronicled lost ∧ w.Orderly ∧
      w.life e = [.minted, .ending, .gone]) ∧
    ∃ (lost : Entity → Prop) (w : World Sample.Kind), w.Chronicled lost ∧ w.Orderly ∧
      w.isLive e = true ∧ w.life e = [.minted, .created, .ending, .ending] := by
  intro _ e
  have h : Chronicled (fun _ => False) ({} : World Sample.Kind) := .start {} []
  have h := h.next 1 1 (.registerComponent .pos) rfl
  have h := h.next 1 1 (.registerArchetype 1 "point" [⟨.pos, ⟨0, 0⟩⟩]) rfl
  have h := h.next 1 1 (.subscribe "watch" 0 []) rfl
  constructor
  · have h := h.next 2 1 (.create 1 [⟨"table", .table .pos .nest, false⟩]) rfl
    have h := h.next 1 1 (.destroy (.known e) true) rfl
    exact ⟨_, _, h, orderly_of_checks (by decide +kernel) (by decide +kernel) (by decide +kernel),
      by decide +kernel⟩
  · have h := h.next 1 1 (.create 1 []) rfl
    have h := h.next 2 1 (.forEach .pos [⟨"destroy", .destroy .itself true, false⟩]) rfl
    have h := h.next 2 1 (.forEach .pos [⟨"destroy", .destroy .itself true, false⟩]) rfl
    exact ⟨_, _, h, orderly_of_checks (by decide +kernel) (by decide +kernel) (by decide +kernel),
      by decide +kernel, by decide +kernel⟩

end World

end EntityStore
