import EntityStore.Proofs.World.Destroy
import EntityStore.Proofs.World.Queue
import EntityStore.Sample

/-!
# Committing the queued destructions

With observers that only record, a commit carries out the queued destructions one after the other in
their order, and passes over those of entities that have gone meanwhile. In every run the queue stands
in the order in which the destructions were first queued, and nobody is queued who is not marked; unless
an operation was broken off, nobody who lives is marked without being queued.
-/
namespace EntityStore

open Run (left broke)

variable {K : Type} [Schema K] [DecidableEq K] {w w' : World K} {e : Entity}

namespace World

def due (w : World K) (ds : List Destruction) : List Destruction := ds.filter (w.isLive ·.entity)

def obituaries (ds : List Destruction) : List (Event K) := ds.flatMap fun d => obituary d.entity d.notify

/-- The entities of some destructions are gone, and nobody else. -/
structure Committed (ds : List Destruction) (w w' : World K) : Prop where
  fit : w'.Fit
  told : Told (obituaries (w.due ds)) w w'
  queue_eq : w'.roster.destructions = []
  info?_eq : ∀ x, w'.info? x = if x ∈ ds.map (·.entity) then none else w.info? x

namespace Committed

variable {d : Destruction} {ds : List Destruction}

theorem nil (hw : w.Fit) (hd : w.roster.destructions = []) (h : Aloof w w') : Committed [] w w' := by
  refine ⟨h.fit hw, h.told, ?_, fun x => ?_⟩
  · rw [h.roster_eq, hd]
  · rw [info?, h.roster_eq]
    exact (if_neg List.not_mem_nil).symm

/-- The entity of the first one has gone before. -/
theorem skipped {v : World K} (hw : w.Fit) (hdead : w.isLive d.entity = false)
    (hv : Aloof (w.queued ds) v) (h : Committed ds v w') :
    w.due (d :: ds) = v.due ds ∧ Committed (d :: ds) w w' := by
  have hdue : w.due (d :: ds) = v.due ds := by
    rw [due, List.filter_cons_of_neg (by simp [hdead]), due]
    refine List.filter_congr fun x _ => ?_
    rw [isLive, isLive, hv.roster_eq]
    rfl
  have htold : Told [] w v := hv.told
  refine ⟨hdue, h.fit, hdue ▸ htold.trans h.told, h.queue_eq, fun x => ?_⟩
  have hinfo : v.info? x = w.info? x := by rw [info?, hv.roster_eq]; rfl
  rw [h.info?_eq, hinfo]
  simp only [List.map_cons, List.mem_cons]
  by_cases hx : x = d.entity
  · rw [hx, hw.info?_of_dead hdead]
    simp
  · simp only [hx, false_or]

/-- The first one has been carried out. -/
theorem done {v : World K} (hw : w.Fit) (hlive : w.isLive d.entity = true)
    (hnew : d.entity ∉ ds.map (·.entity))
    (hv : Razed d.entity (obituary d.entity d.notify) (w.queued ds) v) (h : Committed ds v w') :
    w.due (d :: ds) = d :: v.due ds ∧ Committed (d :: ds) w w' := by
  have hdue : w.due (d :: ds) = d :: v.due ds := by
    rw [due, List.filter_cons, if_pos hlive, due]
    refine congrArg (d :: ·) (List.filter_congr fun x hx => ?_)
    have hne : x.entity ≠ d.entity := fun he => hnew (he ▸ List.mem_map_of_mem hx)
    rw [hv.isLive_eq (hw.queued ds), decide_eq_true hne, Bool.and_true]
    rfl
  refine ⟨hdue, h.fit, ?_, h.queue_eq, fun x => ?_⟩
  · have htold : Told (obituary d.entity d.notify) w v := hv.told
    rw [hdue, obituaries, List.flatMap_cons]
    exact htold.trans h.told
  · rw [h.info?_eq, hv.info?_eq (hw.queued ds)]
    simp only [List.map_cons, List.mem_cons]
    by_cases hx : x = d.entity
    · simp [hx]
    · simp only [hx, if_false, false_or]
      rfl

theorem isLive_eq (hw : w.Fit) (h : Committed ds w w') (x : Entity) :
    w'.isLive x = (w.isLive x && decide (x ∉ ds.map (·.entity))) := by
  rw [h.fit.isLive_eq, h.info?_eq, hw.isLive_eq]
  by_cases hmem : x ∈ ds.map (·.entity) <;> simp [hmem]

end Committed

end World

namespace Run

variable {run : Runner K} {turns count : Nat} {ds : List Destruction}

theorem commitDestructions_of_onlyRecords (hw : w.Fit) (hlends : ∀ k, ¬w.LendsOut k)
    (ho : w.OnlyRecords) (hd : w.roster.destructions = ds) (hnodup : (ds.map (·.entity)).Nodup)
    (hturns : ds.length < turns) :
    ∃ w', commitDestructions run turns count w = .ok (count + (w.due ds).length) w' ∧
      World.Committed ds w w' := by
  induction ds generalizing w turns count with
  | nil =>
    obtain ⟨turns, rfl⟩ := Nat.exists_eq_succ_of_ne_zero (Nat.ne_of_gt hturns)
    rw [commitDestructions_nil hd]
    split
    · exact ⟨_, rfl, .nil hw hd ⟨rfl, rfl, rfl, rfl, .of_push rfl rfl⟩⟩
    · exact ⟨w, rfl, .nil hw hd ⟨rfl, rfl, rfl, rfl, .of_eq rfl⟩⟩
  | cons d ds ih =>
    obtain ⟨turns, rfl⟩ := Nat.exists_eq_succ_of_ne_zero (Nat.ne_zero_of_lt hturns)
    have hturns' : ds.length < turns := Nat.lt_of_succ_lt_succ hturns
    obtain ⟨hnew, hnodup'⟩ := List.nodup_cons.mp hnodup
    cases hlive : w.isLive d.entity with
    | false =>
      let v : World K := { w.queued ds with
        events := w.events.push (.notice (.skippedFreed d.entity)) }
      have hv : World.Aloof (w.queued ds) v := ⟨rfl, rfl, rfl, rfl, .of_push rfl rfl⟩
      obtain ⟨w', hok, hcommitted⟩ : ∃ w', commitDestructions run turns count v =
          .ok (count + (v.due ds).length) w' ∧ World.Committed ds v w' :=
        ih (hv.fit (hw.queued ds)) hlends ho rfl hnodup' hturns'
      obtain ⟨hdue, hall⟩ := hcommitted.skipped hw hlive hv
      refine ⟨w', ?_, hall⟩
      rw [commitDestructions_of_dead hd hlive, hdue]
      exact (bind_of_ok rfl).trans hok
    | true =>
      obtain ⟨v, hok, hrazed⟩ : ∃ v, destroy run d.entity d.notify (w.queued ds) = .ok () v ∧
          World.Razed d.entity (World.obituary d.entity d.notify) (w.queued ds) v :=
        destroy_of_onlyRecords (hw.queued ds) hlends ho hlive d.notify
      have hov : v.OnlyRecords := by
        intro o hmem
        rw [hrazed.observers_eq] at hmem
        exact ho o hmem
      have hdv : v.roster.destructions = ds := by rw [hrazed.roster_eq]; rfl
      obtain ⟨w', hrest, hcommitted⟩ := ih hrazed.fit
        (fun k hk => hlends k ((hrazed.lendsOut_iff k).mp hk)) hov hdv hnodup' hturns'
      obtain ⟨hdue, hall⟩ := hcommitted.done hw hlive hnew hrazed
      refine ⟨w', ?_, hall⟩
      rw [commitDestructions_of_ok hd hlive hok, hrest, hdue, List.length_cons, Nat.add_right_comm,
        Nat.add_assoc]

omit [DecidableEq K] in
/-- Only an entity that is neither marked nor gone is queued, behind all others. -/
theorem destructions_queueDestruction (w : World K) (e : Entity) (notify : Bool) :
    (left (queueDestruction e notify w)).roster.destructions = if w.isDestroyed e
      then w.roster.destructions else w.roster.destructions ++ [⟨e, notify⟩] := by
  cases hinfo : w.roster.arena.get? e.ident with
  | none =>
    have hdestroyed : w.isDestroyed e = true := by rw [World.isDestroyed, World.info?, hinfo]; rfl
    have hmark : w.roster.mark e notify = .error (.recordNotFound e Fault.registryName) := by
      rw [Roster.mark, hinfo]
    rw [hdestroyed, queueDestruction, get_bind, hmark]
    rfl
  | some info =>
    have hdestroyed : w.isDestroyed e = info.marked := by
      rw [World.isDestroyed, World.info?, hinfo]
      rfl
    rw [hdestroyed, queueDestruction, get_bind, Roster.mark, hinfo]
    cases hmarked : info.marked with
    | true => simp only [hmarked, if_true]; rfl
    | false => simp only [hmarked, Bool.false_eq_true, if_false]; rfl

end Run

namespace World

omit [DecidableEq K] in
theorem isDestroyed_of_info? {info : EntityInfo} (h : w.info? e = some info) :
    w.isDestroyed e = info.marked := by
  rw [isDestroyed, h]
  rfl

/-- Of the destructions queued those of entities that are not among some others. -/
def newlyQueued (asked : List Destruction) (w : World K) : List Destruction :=
  w.roster.destructions.filter fun d => decide (d.entity ∉ asked.map (·.entity))

omit [DecidableEq K] in
theorem newlyQueued_eq {asked kept fresh : List Destruction}
    (h : w.roster.destructions = kept ++ fresh) (hkept : kept.Sublist asked)
    (hfresh : ∀ d ∈ fresh, d.entity ∉ asked.map (·.entity)) : w.newlyQueued asked = fresh := by
  have hknown : ∀ d ∈ kept, d.entity ∈ asked.map (·.entity) := fun d hd =>
    List.mem_map_of_mem (hkept.subset hd)
  rw [newlyQueued, h, List.filter_append, List.filter_eq_nil_iff.mpr fun d hd => by
    simpa using hknown d hd, List.filter_eq_self.mpr fun d hd => by simpa using hfresh d hd,
    List.nil_append]

/-- A run of verbs from a new world: the destructions found queued after a verb, in the order in which
they were first queued; the entities that a verb that was broken off has left marked but not queued; and
the world that the verbs have led to. -/
inductive Recounted : List Destruction → (Entity → Prop) → World K → Prop
  | start (settings : Settings) (plans : List (SystemId × Plan K)) :
    Recounted [] (fun _ => False) { settings, plans }
  | next {asked : List Destruction} {lost : Entity → Prop} {w : World K} (h : Recounted asked lost w)
    (n turns : Nat) (v : Verb K) {r : EStateM.Result Failure (World K) (Answer K)}
    (hr : Run.perform (Run.runScript n) turns none v w = r) :
    Recounted (asked ++ (left r).newlyQueued asked)
      (fun e => lost e ∨ (broke r = true ∧ Forgotten [] (left r) e)) (left r)

namespace Recounted

variable {asked : List Destruction} {lost : Entity → Prop}

theorem reached (h : w.Recounted asked lost) : w.Reached := by
  induction h with
  | start settings plans => exact .start settings plans
  | next _ n turns v hr ih => exact hr ▸ ih.next n turns v

/-- What a verb does to the queue. -/
theorem queues (h : w.Recounted asked lost) (n turns : Nat) (v : Verb K) :
    Queues [] (broke (Run.perform (Run.runScript n) turns none v w)) w
      (left (Run.perform (Run.runScript n) turns none v w)) := by
  obtain ⟨hfit, -⟩ := h.reached.atRest
  exact (Run.passes_verb Queues.upkeep
    (fun _ hrun => Queues.inHand.keeps_commitDestructions Queues.upkeep hrun) [] hfit n turns none
    v).keeps

/-- The destructions asked for, of which those found queued after a verb are some. -/
theorem asking (h : w.Recounted asked lost) (hu : w.Unworn) :
    ∃ all, Asking [] all w ∧ asked.Sublist all ∧ w.roster.destructions.Sublist asked := by
  induction h with
  | start settings plans =>
    have hnobody : ∀ e, ({ settings, plans } : World K).info? e = none := fun _ => rfl
    refine ⟨[], ⟨⟨_, .start settings plans, ?_⟩, .nil, .slnil, ?_⟩, .slnil, .slnil⟩
    · simp
    · simp [hnobody]
  | @next asked lost w h n turns v r hr ih =>
    have hqueues := hr ▸ h.queues n turns v
    obtain ⟨all, hask, hasked, hqueue⟩ := ih fun i => (hqueues.returns_le i).trans_lt (hu i)
    obtain ⟨new, hask', kept, fresh, hlist, hkept, hfresh⟩ := hqueues.asks hu hask
    have hnodup := hask'.nodup
    rw [List.map_append] at hnodup
    rw [newlyQueued_eq hlist (hkept.trans hqueue) fun d hd hmem =>
      hnodup.disjoint ((hasked.map _).subset hmem) (List.mem_map_of_mem (hfresh.subset hd)), hlist]
    exact ⟨all ++ new, hask', hasked.append hfresh, (hkept.trans hqueue).append (.refl _)⟩

/-- Only a verb that is broken off leaves an entity marked but not queued. -/
theorem lost_of_forgotten (h : w.Recounted asked lost) (he : Forgotten [] w e) : lost e := by
  induction h with
  | start settings plans =>
    obtain ⟨⟨info, hinfo, -⟩, -⟩ := he
    cases hinfo
  | @next asked lost w h n turns v r hr ih =>
    cases hbroke : broke r with
    | true => exact .inr ⟨rfl, he⟩
    | false =>
      have hqueues := hr ▸ h.queues n turns v
      exact .inl (ih (hqueues.forgets hbroke e he))

theorem nodup (h : w.Recounted asked lost) (hu : w.Unworn) :
    (w.roster.destructions.map (·.entity)).Nodup := by
  obtain ⟨all, hask, hasked, hqueue⟩ := h.asking hu
  exact ((hqueue.trans hasked).map _).nodup hask.nodup

/-- Who has been queued and still lives is marked. -/
theorem isDestroyed_of_asked (h : w.Recounted asked lost) (hu : w.Unworn)
    (he : e ∈ asked.map (·.entity)) : w.isDestroyed e = true := by
  obtain ⟨all, hask, hasked, -⟩ := h.asking hu
  cases hinfo : w.info? e with
  | none =>
    rw [isDestroyed, hinfo]
    rfl
  | some info =>
    rw [isDestroyed_of_info? hinfo]
    exact (hask.marked_iff e info hinfo).mpr ((hasked.map _).subset he)

theorem queued_or_lost (h : w.Recounted asked lost) {info : EntityInfo}
    (hinfo : w.info? e = some info) (hmarked : info.marked = true) :
    e ∈ w.roster.destructions.map (·.entity) ∨ lost e := by
  by_cases hmem : e ∈ w.roster.destructions.map (·.entity)
  · exact .inl hmem
  · exact .inr (h.lost_of_forgotten ⟨⟨info, hinfo, hmarked⟩, hmem⟩)

theorem newlyQueued_queueDestruction (h : w.Recounted asked lost) (hu : w.Unworn) (e : Entity)
    (notify : Bool) : (left (Run.queueDestruction e notify w)).newlyQueued asked =
      if w.isDestroyed e then [] else [⟨e, notify⟩] := by
  obtain ⟨-, -, -, hqueue⟩ := h.asking hu
  have hlist := Run.destructions_queueDestruction w e notify
  cases hdestroyed : w.isDestroyed e with
  | true =>
    rw [hdestroyed, if_pos rfl, ← List.append_nil w.roster.destructions] at hlist
    exact newlyQueued_eq hlist hqueue (by simp)
  | false =>
    rw [hdestroyed, if_neg Bool.false_ne_true] at hlist
    refine newlyQueued_eq hlist hqueue fun d hd hmem => ?_
    rw [List.mem_singleton.mp hd] at hmem
    simp [h.isDestroyed_of_asked hu hmem] at hdestroyed

/-- Whoever is left marked by a commit of all that is queued is lost. -/
theorem lost_of_committed (h : w.Recounted asked lost)
    (hc : Committed w.roster.destructions w w') (hlive : w'.isLive e = true)
    (hdestroyed : w'.isDestroyed e = true) : lost e := by
  obtain ⟨info, hinfo⟩ := hc.fit.exists_info? hlive
  rw [isDestroyed_of_info? hinfo] at hdestroyed
  rw [hc.info?_eq] at hinfo
  split at hinfo
  · cases hinfo
  · next hmem => exact (h.queued_or_lost hinfo hdestroyed).resolve_left hmem

end Recounted

/-- Between the verbs of a run in which no index has come back so often that its generation has come
around, no entity is queued twice, who is queued and lives is marked, and who is marked and lives is
queued, but for those that a verb that was broken off has left behind. The queue stands in the order in
which the destructions were first queued, which happens to nobody who is marked or gone. With observers
that only record, a commit succeeds: it destroys the queued entities that live, in this order and with
the flags that they were queued with, gives their number, and leaves an empty queue and nobody marked
but those left behind. -/
theorem destructions_in_order {asked : List Destruction} {lost : Entity → Prop}
    (h : w.Recounted asked lost) (hu : w.Unworn) :
    (w.roster.destructions.map (·.entity)).Nodup ∧
    (∀ e, w.isLive e = true → e ∈ w.roster.destructions.map (·.entity) → w.isDestroyed e = true) ∧
    (∀ e, w.isLive e = true → w.isDestroyed e = true →
      e ∈ w.roster.destructions.map (·.entity) ∨ lost e) ∧
    w.roster.destructions.Sublist asked ∧
    (∀ e notify, (left (Run.queueDestruction e notify w)).newlyQueued asked =
      if w.isDestroyed e then [] else [⟨e, notify⟩]) ∧
    (w.OnlyRecords → ∀ (run : Runner K) (turns : Nat), w.roster.destructions.length < turns →
      ∃ w', Run.commitDestructions run turns 0 w = .ok (w.due w.roster.destructions).length w' ∧
        Told (obituaries (w.due w.roster.destructions)) w w' ∧
        (∀ x, w'.isLive x =
          (w.isLive x && decide (x ∉ w.roster.destructions.map (·.entity)))) ∧
        w'.roster.destructions = [] ∧
        (∀ x, w'.isLive x = true → w'.isDestroyed x = true → lost x)) := by
  obtain ⟨hfit, -⟩ := h.reached.atRest
  obtain ⟨-, -, -, hqueue⟩ := h.asking hu
  refine ⟨h.nodup hu, fun e _ hmem => h.isDestroyed_of_asked hu ((hqueue.map _).subset hmem),
    fun e he hdestroyed => ?_, hqueue, h.newlyQueued_queueDestruction hu, fun ho run turns hturns => ?_⟩
  · obtain ⟨info, hinfo⟩ := hfit.exists_info? he
    exact h.queued_or_lost hinfo ((isDestroyed_of_info? hinfo).symm.trans hdestroyed)
  · obtain ⟨w', hok, hcommitted⟩ : ∃ w', Run.commitDestructions run turns 0 w =
        .ok (0 + (w.due w.roster.destructions).length) w' ∧ Committed w.roster.destructions w w' :=
      Run.commitDestructions_of_onlyRecords hfit h.reached.not_lendsOut ho rfl (h.nodup hu) hturns
    rw [Nat.zero_add] at hok
    exact ⟨w', hok, hcommitted.told, hcommitted.isLive_eq hfit, hcommitted.queue_eq,
      fun x => h.lost_of_committed hcommitted⟩

/-- Two entities are queued, the first one of them twice. -/
theorem destructions_in_order_twice :
    let _ := Sample.schema ""
    let e : Entity := ⟨⟨0, ⟨1⟩, by decide⟩⟩
    let x : Entity := ⟨⟨1, ⟨1⟩, by decide⟩⟩
    ∃ (asked : List Destruction) (lost : Entity → Prop) (w w' : World Sample.Kind),
      w.Recounted asked lost ∧ w.Unworn ∧ w.OnlyRecords ∧
      w.roster.destructions = [⟨e, true⟩, ⟨x, false⟩] ∧
      Run.commitDestructions (Run.runScript 1) 3 0 w = .ok 2 w' ∧
      Told (obituary e true ++ obituary x false) w w' ∧ w'.isLive e = false ∧
      w'.roster.destructions = [] := by
  intro _ e x
  obtain ⟨asked, lost, w, h, hsize, hspent, hqueue, he, hx⟩ :
      ∃ asked lost, ∃ w : World Sample.Kind, w.Recounted asked lost ∧
        w.events.size < Issuer.mostReturns ∧ w.observers.all (·.left == 0) = true ∧
        w.roster.destructions = [⟨e, true⟩, ⟨x, false⟩] ∧ w.isLive e = true ∧ w.isLive x = true := by
    have h : Recounted [] (fun _ => False) ({} : World Sample.Kind) := .start {} []
    have h := h.next 1 1 (.registerArchetype 0 "sprite" []) rfl
    have h := h.next 1 1 (.subscribe "observer" 0 []) rfl
    have h := h.next 1 1 (.create 0 []) rfl
    have h := h.next 1 1 (.create 0 []) rfl
    have h := h.next 1 1 (.queueDestruction (.known e) true) rfl
    have h := h.next 1 1 (.queueDestruction (.known x) false) rfl
    have h := h.next 1 1 (.queueDestruction (.known e) false) rfl
    exact ⟨_, _, _, h, by decide +kernel, by decide +kernel, by decide +kernel, by decide +kernel,
      by decide +kernel⟩
  have hu : w.Unworn := unworn_of_size hsize
  have ho : w.OnlyRecords := fun o ho => .inl (by simpa using List.all_eq_true.mp hspent o ho)
  obtain ⟨-, -, -, -, -, hcommit⟩ := destructions_in_order h hu
  have hdue : w.due w.roster.destructions = [⟨e, true⟩, ⟨x, false⟩] := by
    simp [due, hqueue, he, hx]
  obtain ⟨w', hok, htold, hlive, hempty, -⟩ := hcommit ho (Run.runScript 1) 3 (by rw [hqueue]; decide)
  rw [hdue] at hok htold
  refine ⟨asked, lost, w, w', h, hu, ho, hqueue, hok, ?_, ?_, hempty⟩
  · simpa [obituaries] using htold
  · rw [hlive, hqueue]
    simp

/-- An observer that breaks off the destruction of which it is told leaves the entity marked, and nobody
has it in the queue any more. -/
theorem marked_unqueued :
    let _ := Sample.schema ""
    ∃ (asked : List Destruction) (lost : Entity → Prop) (w : World Sample.Kind),
      w.Recounted asked lost ∧ w.Unworn ∧
      ∃ e, w.isLive e = true ∧ w.isDestroyed e = true ∧ w.roster.destructions = [] := by
  intro _
  let e : Entity := ⟨⟨0, ⟨1⟩, by decide⟩⟩
  have h : Recounted [] (fun _ => False) ({} : World Sample.Kind) := .start {} []
  have h := h.next 1 1 (.registerComponent .pos) rfl
  have h := h.next 1 1 (.registerArchetype 1 "point" [⟨.pos, ⟨0, 0⟩⟩]) rfl
  have h := h.next 1 1 (.create 1 []) rfl
  have h := h.next 1 1 (.subscribe "watch" 1 [(.entityDestroyed, [⟨"table", .table .pos .nest, false⟩])])
    rfl
  have h := h.next 1 1 (.queueDestruction (.known e) true) rfl
  have h := h.next 1 2 .commitDestructions rfl
  exact ⟨_, _, _, h, unworn_of_size (by decide +kernel), e, by decide +kernel, by decide +kernel,
    by decide +kernel⟩

end World

end EntityStore
