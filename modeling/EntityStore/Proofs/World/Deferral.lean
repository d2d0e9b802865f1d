import EntityStore.Proofs.World.Reading
import EntityStore.Proofs.World.Ticks

/-!
# Systems that only read and queue

What is queued is done later. So scripts that do nothing but read and queue find the same entities and
the same records from first to last, in whatever order the systems run whose scripts they are: they do
the same as if they were stuck as soon as anything else was to be seen.
-/
namespace EntityStore

open Run (bind_of_ok bind_of_error)

variable {K α : Type} [Schema K]

/-- The verb only reads, or queues what is to be done later. -/
inductive Verb.Defers : Verb K → Prop
  | showArchetype (id : ArchetypeId) : Defers (.showArchetype id)
  | showComponent (k : K) : Defers (.showComponent k)
  | showShared (k : K) : Defers (.showShared k)
  | showSystem (s : SystemId) : Defers (.showSystem s)
  | runSystem (s : SystemId) : Defers (.runSystem s)
  | queueCreation (a : ArchetypeId) (init : Script K) : Defers (.queueCreation a init)
  | queueDestruction (e : Who) (notify : Bool) : Defers (.queueDestruction e notify)
  | showEntity (e : Who) : Defers (.showEntity e)
  | handle {q : HandleRequest} (hq : q.reads = true) (direct : Bool) : Defers (.handle q direct)
  | table (k : K) {q : Table.Request Who (Schema.Row k)} (hq : q.reads = true) : Defers (.table k q)
  | shared (k : K) {q : NamedTable.Request (Schema.Row k)} (hq : q.reads = true) :
    Defers (.shared k q)
  | forEach (k : K) {body : Script K} (h : ∀ a ∈ body, Defers a.verb) : Defers (.forEach k body)
  | withSnapshot (k : K) {body : Script K} (h : ∀ a ∈ body, Defers a.verb) :
    Defers (.withSnapshot k body)
  | withAllTables {errand : Errand K (Verb K)} (ho : errand.offer = none)
    (hs : ∀ a ∈ errand.script, Defers a.verb)
    (hw : ∀ names script, errand.window = some (names, script) → ∀ a ∈ script, Defers a.verb) :
    Defers (.withAllTables errand)
  | describe : Defers .describe
  | fail (f : Fault) : Defers (.fail f)

def Script.Defers (script : Script K) : Prop := ∀ a ∈ script, a.verb.Defers

/-- All that is done to answer a question is reading and queueing. -/
inductive Inquiry.Defers : Inquiry K → Prop
  | answer (b : Bool) : Defers (.answer b)
  | look {next : Outlook K → Inquiry K} (h : ∀ o, Defers (next o)) : Defers (.look next)
  | act {script : Script K} {next : Except Fault Unit → Inquiry K} (hs : Script.Defers script)
    (h : ∀ r, Defers (next r)) : Defers (.act script next)

def Outlook.withScenery (o : Outlook K) (scenery : Scenery K) : Outlook K := { o with scenery }

/-- The question, if the entities and records that are shown are always the same. -/
def Inquiry.shown (scenery : Scenery K) : Inquiry K → Inquiry K
  | .answer b => .answer b
  | .look next => .look fun o => (next (o.withScenery scenery)).shown scenery
  | .act script next => .act script fun r => (next r).shown scenery

/-- All that a system does is reading and queueing, also when it comes to be and when it is asked
whether it is ready. -/
structure Plan.Defers (p : Plan K) : Prop where
  runs : ∀ script ∈ p.runs, Script.Defers script
  factory : ∀ script ∈ p.factory, Script.Defers script
  readiness : ∀ i, (p.readiness i).Defers

theorem HandleTable.serve_of_reads (t : HandleTable) {q : HandleRequest} (hq : q.reads = true) :
    (t.serve q).table = t ∧ (t.serve q).signal = none := by
  cases q with
  | add | update | release => cases hq
  | _ => exact ⟨rfl, rfl⟩

variable [DecidableEq K] {w₀ w w' : World K} {s : SystemId} {e : Entity}

namespace World.Like

/-- A system that is known comes to be. -/
theorem adopted (h : Like w w') (hs : w.Knows s) : Like w (w'.adopted s) := by
  have hknows : ∀ x, (w'.adopted s).Knows x → w.Knows x := by
    rintro x (hx | hx)
    · exact h.knows x (.inl (by rwa [adopted_eq] at hx))
    · obtain rfl | hx := mem_keys_adopted hx
      · exact hs
      · exact h.knows x (.inr hx)
  rw [adopted_eq] at hknows ⊢
  exact h.of_same rfl rfl rfl rfl hknows

/-- A system is changed, if it exists. -/
theorem tuned (h : Like w w') (s : SystemId) (f : Instance → Instance) : Like w (w'.tuned s f) :=
  h.of_same rfl rfl rfl rfl fun x hx => h.knows x
    (hx.imp_right fun hkeys => (Catalog.keys_update w'.instances s f) ▸ hkeys)

/-- Who is marked goes on living. -/
theorem marked (h : Like w w') {notify queued : Bool} {roster : Roster K}
    (hm : w'.roster.mark e notify = .ok (queued, roster)) : Like w { w' with roster } := by
  unfold Roster.mark at hm
  split at hm
  · cases hm
  · split at hm
    · cases hm
      exact h
    · cases hm
      refine ⟨h.plans_eq, h.knows, ?_, fun x => ?_, h.record?_eq, h.shared?_eq⟩
      · exact (Arena.size_modify ..).trans h.population_eq
      · refine Eq.trans ?_ (h.isLive_eq x)
        exact congrArg Option.isSome (Packed.slotOf?_modify ..)

end World.Like

namespace Run

/-- All that a worker has still to do is reading and queueing, for systems that are known. -/
structure Shift.Defers (w₀ : World K) (shift : Shift K) : Prop where
  knows : ∀ s ∈ shift.next, w₀.Knows s
  current : ∀ s script, shift.current = some (s, script) → Script.Defers script

omit [DecidableEq K] in
theorem Shift.defers_between {systems : List SystemId} (h : ∀ s ∈ systems, w₀.Knows s) :
    Shift.Defers w₀ { next := systems } :=
  ⟨h, fun _ _ heq => absurd heq (Option.some_ne_none _).symm⟩

section Systems

variable {run run' : Runner K}
variable (hrun : ∀ self script, Script.Defers script →
  Agrees w₀.Like (run self script) (run' self script))
variable (hplans : ∀ s, w₀.Knows s → (w₀.plan s).Defers)

theorem reads_instanceOf (s : SystemId) : Reads w₀ (instanceOf s : Run K Instance) :=
  agrees_get.bind fun _ => agrees_pure _

theorem reads_editInstance (s : SystemId) (f : Instance → Instance) :
    Reads w₀ (editInstance s f : Run K Unit) :=
  agrees_modify fun _ hw => hw.tuned s f

theorem reads_startRun (tracer : Tracer) (s : SystemId) :
    Reads w₀ (startRun tracer s : Run K (Script K)) := by
  refine agrees_get.bind fun w => (reads_trace tracer _).bind fun _ =>
    (reads_instanceOf s).bind fun i => (reads_editInstance s _).bind fun _ =>
      agrees_get.bind fun w => ?_
  cases (w.plan s).runs[i.runs]? with
  | none => exact agrees_pure _
  | some script => exact (reads_emit _).bind fun _ => agrees_pure _

theorem reads_endRun (tracer : Tracer) (s : SystemId) (r : Except Fault Unit) :
    Reads w₀ (endRun tracer s r : Run K Unit) := by
  refine agrees_get.bind fun w => (reads_trace tracer _).bind fun _ => ?_
  cases r with
  | ok => exact agrees_pure _
  | error f => exact reads_note _

omit [DecidableEq K] in
/-- What a run does is in the plan of the system. -/
theorem mem_runs_of_startRun {tracer : Tracer} {script : Script K}
    (h : startRun tracer s w = .ok script w') : script = [] ∨ script ∈ (w.plan s).runs := by
  let v := w.traced tracer (.startRun (w.plan s).name)
  have hinstance : instanceOf s v = .ok (v.instanceAt s) v := rfl
  rw [startRun, get_bind, bind_of_ok (trace_eq ..), bind_of_ok hinstance,
    bind_of_ok (editInstance_eq _), get_bind] at h
  have hplan : ∀ f, (v.tuned s f).plan s = w.plan s := fun _ => rfl
  rw [hplan] at h
  cases hscript : (w.plan s).runs[(v.instanceAt s).runs]? with
  | none =>
    rw [hscript] at h
    cases h
    exact .inl rfl
  | some script =>
    rw [hscript] at h
    cases h
    exact .inr (List.mem_of_getElem? hscript)

omit [DecidableEq K] in
theorem agrees_amid {P : World K → Prop} {first first' : Run K (α × Nat)} {nothing : α}
    {others others' : α → Run K Nat} (hfirst : Agrees P first first')
    (hnothing : Agrees P (others nothing) (others' nothing))
    (hothers : ∀ w a n v, P w → first w = .ok (a, n) v → Agrees P (others a) (others' a)) :
    Agrees P (amid first nothing others) (amid first' nothing others') := by
  intro w hw
  obtain ⟨heq, hleft⟩ := hfirst w hw
  unfold amid
  rw [← heq]
  cases hr : first w with
  | ok r v =>
    obtain ⟨a, n⟩ := r
    rw [hr] at hleft
    obtain ⟨heq', hleft'⟩ := hothers w a n v hw hr v hleft
    dsimp only
    rw [← heq']
    cases hs : others a v <;> rw [hs] at hleft' <;> exact ⟨rfl, hleft'⟩
  | error e v =>
    rw [hr] at hleft
    obtain ⟨heq', hleft'⟩ := hnothing v hleft
    dsimp only
    rw [← heq']
    cases hs : others nothing v <;> rw [hs] at hleft' <;> exact ⟨rfl, hleft'⟩

omit [DecidableEq K] in
/-- There is no looking up a system that is not known. -/
theorem system_of_unknown (h : ¬w.Knows s) :
    system run s w = .error (.fault (.systemNotFound s)) w := by
  have hfind : w.systems.find? s = none := Catalog.find?_eq_none_iff.mpr fun hs => h (.inl hs)
  have hnone : w.instances.find? s = none := Catalog.find?_eq_none_iff.mpr fun hs => h (.inr hs)
  have hbuild : build run s w = .error (.fault (.systemNotFound s)) w := by
    rw [build, get_bind, hfind]
    rfl
  rw [system_of_not_contains (by simp [Catalog.contains, hnone]), bind_of_error hbuild]

include hrun hplans

theorem agrees_build (hs : w₀.Knows s) : Agrees w₀.Like (build run s) (build run' s) := by
  refine agrees_get_bind fun w hw => ?_
  cases w.systems.find? s with
  | none => exact ⟨rfl, hw⟩
  | some r =>
    have hnew : Reads w₀ (do
        note (.systemInstantiated (w.plan s).name)
        return {} : Run K Instance) := (reads_note _).bind fun _ => agrees_pure _
    have hcalled : w₀.Like { w with
        systems := w.systems.update s fun r => { r with calls := r.calls + 1 } } :=
      hw.of_same rfl rfl rfl rfl fun x hx => hw.knows x
        (hx.imp_left fun hkeys => Catalog.keys_update w.systems s _ ▸ hkeys)
    dsimp only
    split
    · cases hscript : (w.plan s).factory[r.calls]? with
      | none => exact ((agrees_pure ()).bind fun _ => hnew) _ hcalled
      | some script =>
        have hdefers : Script.Defers script :=
          (hplans s hs).factory script (List.mem_of_getElem? (hw.plan_eq s ▸ hscript))
        exact (((reads_emit _).bind fun _ => hrun none script hdefers).bind fun _ => hnew) _ hcalled
    · exact hnew w hw

theorem agrees_system (s : SystemId) : Agrees w₀.Like (system run s) (system run' s) := by
  intro w hw
  by_cases hs : w₀.Knows s
  · cases hc : w.instances.contains s with
    | true =>
      rw [system_of_contains hc, system_of_contains hc]
      exact ⟨rfl, hw⟩
    | false =>
      rw [system_of_not_contains hc, system_of_not_contains hc]
      exact ((agrees_build hrun hplans hs).bind fun _ =>
        agrees_modify fun _ hv => hv.adopted hs) w hw
  · have hunknown : ¬w.Knows s := fun h => hs (hw.knows s h)
    rw [system_of_unknown hunknown, system_of_unknown hunknown]
    exact ⟨rfl, hw⟩

omit hplans in
/-- A question is answered alike, and as if the entities and records were always the same. -/
theorem agrees_answer_shown {q : Inquiry K} (hq : q.Defers) :
    Agrees w₀.Like (answer run q) (answer run' (q.shown w₀.scenery)) := by
  induction hq with
  | answer b => exact agrees_pure b
  | look h ih =>
    refine agrees_get_bind fun w hw => ?_
    have hseen : w.outlook.withScenery w₀.scenery = w.outlook := by
      rw [← hw.scenery_eq]
      rfl
    dsimp only
    rw [hseen]
    exact ih w.outlook w hw
  | act hs h ih => exact (hrun none _ hs).attempt.bind ih

omit hplans in
theorem agrees_answer {q : Inquiry K} (hq : q.Defers) :
    Agrees w₀.Like (answer run q) (answer run' q) := by
  induction hq with
  | answer b => exact agrees_pure b
  | look h ih => exact agrees_get_bind fun w hw => ih w.outlook w hw
  | act hs h ih => exact (hrun none _ hs).attempt.bind ih

theorem agrees_isRunnable (hs : w₀.Knows s) :
    Agrees w₀.Like (isRunnable run s) (isRunnable run' s) := by
  refine (reads_instanceOf s).bind fun i => ?_
  split
  · exact agrees_pure false
  · refine agrees_get.bind fun w => ?_
    split
    · exact agrees_pure false
    · refine (reads_instanceOf s).bind fun i => (reads_editInstance s _).bind fun _ =>
        agrees_get_bind fun w hw => ?_
      exact agrees_answer hrun (hw.plan_eq s ▸ (hplans s hs).readiness i) w hw

omit hplans in
theorem agrees_goOn (tracer : Tracer) (s : SystemId) {script : Script K} (h : Script.Defers script) :
    Agrees w₀.Like (goOn run tracer s script) (goOn run' tracer s script) := by
  refine (agrees_forM fun a ha => hrun none [a] fun b hb => ?_).attempt.bind fun r =>
    (reads_endRun tracer s r).bind fun _ => agrees_pure r
  exact h b (List.mem_singleton.mp hb ▸ ha)

omit hrun in
theorem defers_of_startRun (hs : w₀.Knows s) (hw : w₀.Like w) {tracer : Tracer} {script : Script K}
    (h : startRun tracer s w = .ok script w') : Script.Defers script := by
  obtain rfl | hscript := mem_runs_of_startRun h
  · exact nofun
  · exact (hplans s hs).runs script (hw.plan_eq s ▸ hscript)

theorem agrees_runEntry (tracer : Tracer) (hs : w₀.Knows s) :
    Agrees w₀.Like (runEntry run tracer s) (runEntry run' tracer s) := fun w hw =>
  agrees_bind_at (reads_startRun tracer s w hw) fun _ v hstart hv =>
    agrees_goOn hrun tracer s (defers_of_startRun hplans hs hw hstart) v hv

theorem agrees_runSystem (s : SystemId) : Agrees w₀.Like (runSystem run s) (runSystem run' s) := by
  by_cases hs : w₀.Knows s
  · refine (agrees_system hrun hplans s).bind fun _ => (reads_instanceOf s).bind fun i => ?_
    split
    · exact agrees_pure _
    · refine (agrees_runEntry hrun hplans [] hs).bind fun r => ?_
      cases r with
      | ok => exact agrees_pure _
      | error f => exact agrees_throw _
  · intro w hw
    have hunknown : ¬w.Knows s := fun h => hs (hw.knows s h)
    rw [runSystem, runSystem, bind_of_error (system_of_unknown hunknown),
      bind_of_error (system_of_unknown hunknown)]
    exact ⟨rfl, hw⟩

theorem agrees_sortOut (tracer : Tracer) (ss : List SystemId) :
    Agrees w₀.Like (sortOut run tracer ss) (sortOut run' tracer ss) := by
  induction ss with
  | nil => exact agrees_pure _
  | cons s ss ih =>
    by_cases hs : w₀.Knows s
    · refine (agrees_system hrun hplans s).bind fun _ =>
        (agrees_isRunnable hrun hplans hs).bind fun b => ?_
      split
      · exact ih.bind fun _ => agrees_pure _
      · exact agrees_get.bind fun w => (reads_trace tracer _).bind fun _ => ih
    · intro w hw
      have hunknown : ¬w.Knows s := fun h => hs (hw.knows s h)
      rw [sortOut, sortOut, bind_of_error (system_of_unknown hunknown),
        bind_of_error (system_of_unknown hunknown)]
      exact ⟨rfl, hw⟩

omit hplans in
theorem agrees_current {tracer : Tracer} {ss : List SystemId} (s : SystemId) {script : Script K}
    (hscript : Script.Defers script)
    (h : Agrees w₀.Like (runAll run tracer ss) (runAll run' tracer ss)) :
    Agrees w₀.Like (finish run tracer ⟨some (s, script), ss⟩)
      (finish run' tracer ⟨some (s, script), ss⟩) := by
  refine (agrees_goOn hrun tracer s hscript).bind fun r => ?_
  cases r with
  | ok => exact h
  | error f => exact h.bind fun _ => agrees_pure _

theorem agrees_runAll (tracer : Tracer) {ss : List SystemId} (hss : ∀ s ∈ ss, w₀.Knows s) :
    Agrees w₀.Like (runAll run tracer ss) (runAll run' tracer ss) := by
  induction ss with
  | nil => exact agrees_pure _
  | cons s ss ih =>
    have hs := hss s List.mem_cons_self
    have hrest := ih fun x hx => hss x (List.mem_cons_of_mem s hx)
    intro w hw
    rw [runAll_cons, runAll_cons]
    exact agrees_bind_at (reads_startRun tracer s w hw) fun _ v hstart hv =>
      agrees_current hrun s (defers_of_startRun hplans hs hw hstart) hrest v hv

omit hplans in
theorem agrees_move (tracer : Tracer) {shift : Shift K} (h : shift.Defers w₀) :
    Agrees w₀.Like (move run tracer shift) (move run' tracer shift) := by
  obtain ⟨_ | ⟨s, _ | ⟨a, rest⟩⟩, ss⟩ := shift
  · cases ss with
    | nil => exact agrees_pure _
    | cons s ss => exact (reads_startRun tracer s).bind fun _ => agrees_pure _
  · exact (reads_endRun tracer s _).bind fun _ => agrees_pure _
  · have hstep : Script.Defers [a] := fun b hb =>
      h.current s _ rfl b (List.mem_singleton.mp hb ▸ List.mem_cons_self)
    refine (hrun none [a] hstep).attempt.bind fun r => ?_
    cases r with
    | ok => exact agrees_pure _
    | error f => exact (reads_endRun tracer s _).bind fun _ => agrees_pure _

theorem agrees_finish (tracer : Tracer) {shift : Shift K} (h : shift.Defers w₀) :
    Agrees w₀.Like (finish run tracer shift) (finish run' tracer shift) := by
  obtain ⟨_ | ⟨s, script⟩, ss⟩ := shift
  · exact agrees_runAll hrun hplans tracer h.knows
  · exact agrees_current hrun s (h.current s script rfl) (agrees_runAll hrun hplans tracer h.knows)

omit hrun in
/-- What a worker has still to do after a step is of the same kind. -/
theorem Shift.Defers.move {tracer : Tracer} {shift shift' : Shift K} {n : Nat} (h : shift.Defers w₀)
    (hw : w₀.Like w) (hmove : move run tracer shift w = .ok (shift', n) w') : shift'.Defers w₀ := by
  obtain ⟨rfl, rfl, -, -⟩ | ⟨deed, hstep, -⟩ := step_of_move hmove
  · exact h
  · cases hstep with
    | began hstart =>
      refine ⟨fun x hx => h.knows x (List.mem_cons_of_mem _ hx), fun s script heq => ?_⟩
      cases heq
      exact defers_of_startRun hplans (h.knows _ List.mem_cons_self) hw hstart
    | acted =>
      refine ⟨h.knows, fun s script heq => ?_⟩
      cases heq
      exact fun b hb => h.current _ _ rfl b (List.mem_cons_of_mem _ hb)
    | failed | ended => exact Shift.defers_between h.knows

/-- Whosever turn it is, the workers do alike, also after one of them broke. -/
theorem agrees_takeTurns (tracer : Tracer) (turns : List Nat) {shifts : List (Shift K)}
    (h : ∀ shift ∈ shifts, shift.Defers w₀) :
    Agrees w₀.Like (takeTurns run tracer turns shifts) (takeTurns run' tracer turns shifts) := by
  induction turns generalizing shifts with
  | nil =>
    rw [takeTurns, takeTurns]
    induction shifts with
    | nil => exact agrees_pure 0
    | cons shift shifts ih =>
      have hfirst := agrees_finish hrun hplans tracer (h shift List.mem_cons_self)
      have hothers := ih fun x hx => h x (List.mem_cons_of_mem shift hx)
      exact agrees_amid (hfirst.bind fun _ => agrees_pure _) hothers fun _ _ _ _ _ _ => hothers
  | cons turn turns ih =>
    rw [takeTurns, takeTurns]
    cases hshift : shifts[turn]? with
    | none => exact ih h
    | some shift =>
      have hmem := h shift (List.mem_of_getElem? hshift)
      have hset : ∀ shift' : Shift K, shift'.Defers w₀ →
          ∀ x ∈ shifts.set turn shift', x.Defers w₀ := fun shift' h' x hx =>
        (List.mem_or_eq_of_mem_set hx).elim (h x) fun heq => heq ▸ h'
      have hidle : Shift.Defers w₀ {} := Shift.defers_between (List.forall_mem_nil _)
      exact agrees_amid (agrees_move hrun tracer hmem) (ih (hset _ hidle))
        fun w shift' n v hw hmove => ih (hset shift' (hmem.move hplans hw hmove))

theorem agrees_dispatch (tracer : Tracer) {rs : List SystemId} (h : ∀ s ∈ rs, w₀.Knows s) :
    Agrees w₀.Like (dispatch run tracer rs) (dispatch run' tracer rs) := by
  cases rs with
  | nil => exact agrees_pure 0
  | cons s ss =>
    refine agrees_get_bind fun w hw => ?_
    refine agrees_takeTurns hrun hplans tracer _ (fun shift hshift => ?_) _
      (hw.of_same rfl rfl rfl rfl hw.knows)
    obtain ⟨range, -, rfl⟩ := List.mem_map.mp hshift
    exact Shift.defers_between fun x hx => h x (List.mem_of_mem_drop (List.mem_of_mem_take hx))

end Systems

section Verbs

variable {run run' : Runner K}

theorem reads_queueCreation (id : ArchetypeId) (init : Script K) :
    Reads w₀ (queueCreation id init) := by
  have hqueue : Reads w₀ (modify fun w : World K => { w with
      roster := { w.roster with creations := w.roster.creations ++ [⟨id, init⟩] } }) :=
    agrees_modify fun _ hw => ⟨hw.plans_eq, hw.knows, hw.population_eq, hw.isLive_eq, hw.record?_eq,
      hw.shared?_eq⟩
  refine agrees_get_bind fun w hw => ?_
  split
  · exact hqueue w hw
  · exact ((agrees_throw _).bind fun _ => hqueue) w hw

theorem reads_queueDestruction (e : Entity) (notify : Bool) :
    Reads w₀ (queueDestruction e notify : Run K Unit) := by
  refine agrees_get_bind fun w hw => ⟨rfl, ?_⟩
  cases hmark : w.roster.mark e notify with
  | error f => exact hw
  | ok r =>
    obtain ⟨queued, roster⟩ := r
    have hmarked := hw.marked hmark
    cases queued with
    | true => exact hmarked
    | false => exact (reads_note _ _ hmarked).2

theorem reads_handle {q : HandleRequest} (hq : q.reads = true) :
    Agrees w₀.Like (handle run q) (handle run' q) := by
  refine agrees_get_bind fun w hw => ?_
  obtain ⟨htable, hsignal⟩ := w.handles.serve_of_reads hq
  have hserve : Reads w₀ (modify fun v : World K =>
      { v with handles := (w.handles.serve q).table }) :=
    agrees_modify fun _ hv => hv.of_same rfl rfl rfl rfl hv.knows
  have hnotices : Reads w₀ (noteAll (w.handles.serve q).notices : Run K Unit) :=
    agrees_modify fun _ hv => hv.of_same rfl rfl rfl rfl hv.knows
  dsimp only
  rw [hsignal]
  exact (hserve.bind fun _ => hnotices.bind fun _ => (agrees_pure ()).bind fun _ =>
    reads_orThrow _) w hw

section Errands

theorem reads_lockSights (g : LockGroup) (ks : List K) : Reads w₀ (lockSights g ks) := by
  induction ks with
  | nil => exact agrees_pure _
  | cons k ks ih =>
    exact (reads_component k).bind fun d => agrees_get.bind fun w =>
      (reads_onTable fun _ => Table.spares_read _).bind fun n => ih.bind fun _ => agrees_pure _

theorem reads_sights (ks : List K) :
    Agrees (OfWorld w₀.Like) (sights ks) (sights ks) :=
  agrees_get.bind fun s => (reads_lockSights s.1 ks).lift

/-- A group may enter and leave any locks. -/
theorem reads_call (c : LockGroup → LockGroup.Call) :
    Agrees (OfWorld w₀.Like) (LockedRun.call c) (LockedRun.call c) := by
  refine .of_left fun s hs => ?_
  unfold LockedRun.call
  dsimp only
  split <;> exact hs.of_same rfl rfl rfl rfl hs.knows

theorem reads_exchangeLocks (ks : List K) (exchange : Option (List String × List String)) :
    Agrees (OfWorld w₀.Like) (exchangeLocks ks exchange) (exchangeLocks ks exchange) := by
  cases exchange with
  | none => exact agrees_pure _
  | some names =>
    exact agrees_get.bind fun _ => (reads_call _).bind fun _ => (reads_sights ks).bind fun _ =>
      (reads_call _).bind fun _ => (reads_sights ks).bind fun _ => agrees_pure _

variable (hrun : ∀ self script, Script.Defers script →
  Agrees w₀.Like (run self script) (run' self script))

include hrun

theorem agrees_openWindow (self : Option Entity) (ks : List K)
    (window : Option (List String × Script K))
    (hw : ∀ names script, window = some (names, script) → Script.Defers script) :
    Agrees (OfWorld w₀.Like) (openWindow run self ks window) (openWindow run' self ks window) := by
  cases window with
  | none => exact agrees_pure _
  | some window =>
    obtain ⟨names, script⟩ := window
    have hinside : Agrees (OfWorld w₀.Like)
        (do
          let inside ← sights ks
          LockedRun.lift (run self script)
          return inside)
        (do
          let inside ← sights ks
          LockedRun.lift (run' self script)
          return inside) :=
      (reads_sights ks).bind fun _ => (hrun self script (hw names script rfl)).lift.bind fun _ =>
        agrees_pure _
    exact agrees_get.bind fun _ => (reads_call _).bind fun _ =>
      (hinside.ensuringLocked (reads_call _)).bind fun _ => (reads_sights ks).bind fun _ =>
        agrees_pure _

theorem agrees_runErrand (self : Option Entity) {errand : Errand K (Verb K)}
    (ho : errand.offer = none) (hs : Script.Defers errand.script)
    (hw : ∀ names script, errand.window = some (names, script) → Script.Defers script) :
    Agrees w₀.Like (runErrand run self errand) (runErrand run' self errand) := by
  refine agrees_get_bind fun w hlike => ?_
  refine Agrees.withAllTables ?_ (fun c => reads_call c) w hlike
  rw [ho]
  exact agrees_get.bind fun _ => (reads_sights _).bind fun _ => (agrees_pure ()).lift.bind fun _ =>
    (hrun self errand.script hs).lift.bind fun _ =>
      (agrees_openWindow hrun self _ errand.window hw).bind fun _ =>
        (reads_exchangeLocks _ errand.exchange).bind fun _ => agrees_pure _

end Errands

variable (hrun : ∀ self script, Script.Defers script →
  Agrees w₀.Like (run self script) (run' self script))
variable (hplans : ∀ s, w₀.Knows s → (w₀.plan s).Defers)

include hrun hplans

/-- What only reads and queues does so however the scripts are run, if these agree. -/
theorem agrees_perform {v : Verb K} (hv : v.Defers) (turns : Nat) (self : Option Entity) :
    Agrees w₀.Like (perform run turns self v) (perform run' turns self v) := by
  cases hv with
  | showArchetype id => exact (reads_archetype id).bind fun _ => agrees_pure _
  | showComponent k => exact (reads_component k).bind fun _ => agrees_pure _
  | showShared k => exact (reads_shared k).bind fun _ => agrees_pure _
  | showSystem s =>
    exact (agrees_system hrun hplans s).bind fun _ => (reads_instanceOf s).bind fun _ =>
      agrees_get.bind fun _ => agrees_pure _
  | runSystem s => exact (agrees_runSystem hrun hplans s).bind fun _ => agrees_pure _
  | queueCreation a init => exact (reads_queueCreation a init).bind fun _ => agrees_pure _
  | queueDestruction e notify =>
    exact (reads_queueDestruction _ notify).bind fun _ => agrees_pure _
  | showEntity e => exact agrees_get.bind fun _ => agrees_pure _
  | handle hq direct => exact (reads_handle hq).bind fun _ => agrees_pure _
  | table k hq =>
    refine (reads_onTable fun rows => Table.spares_serve ?_).bind fun _ => agrees_pure _
    rw [Table.reads_mapEntity, hq]
  | shared k hq => exact (reads_onShared fun t => NamedTable.spares_serve hq).bind fun _ => agrees_pure _
  | forEach k h => exact (agrees_forEachRow k fun e => hrun (some e) _ h).bind fun _ => agrees_pure _
  | withSnapshot k h =>
    exact agrees_asReader k ((reads_copyRows k).bind fun _ => (hrun self _ h).bind fun _ =>
      (reads_copyRows k).bind fun _ => agrees_pure _)
  | withAllTables ho hs hw => exact agrees_runErrand hrun self ho hs hw
  | describe => exact agrees_get.bind fun _ => agrees_pure _
  | fail f => exact agrees_throw _

end Verbs

omit [DecidableEq K] in
theorem agrees_runSteps {P : World K → Prop} (hP : ∀ w e, P w → P { w with events := w.events.push e })
    {step step' : Verb K → Run K (Answer K)} {script : Script K}
    (h : ∀ a ∈ script, Agrees P (step a.verb) (step' a.verb)) :
    Agrees P (runSteps step script) (runSteps step' script) := by
  induction script with
  | nil => exact agrees_pure ()
  | cons a rest ih =>
    have hrest := ih fun b hb => h b (List.mem_cons_of_mem _ hb)
    have hshow : ∀ e : Event K, Agrees P (emit e) (emit e) := fun e =>
      agrees_modify fun w hw => hP w e hw
    refine (h a List.mem_cons_self).attempt.bind fun r => (hshow _).bind fun _ => ?_
    cases r with
    | ok => exact hrest
    | error f =>
      dsimp only
      split
      · exact hrest
      · exact agrees_throw _

open Classical in
/-- Does something, but is stuck in a world in which other entities live than in a given one, or other
records are there. -/
noncomputable def behold (w₀ : World K) (op : Run K α) : Run K α := fun w =>
  if w₀.Like w then op w else .error .stuck w

/-- Runs a script within an allowance, and is stuck before the first verb, be it of that script or of
one nested in it, that would find other entities or records than a given world has. -/
noncomputable def beholding (w₀ : World K) : (allowance : Nat) → Runner K
  | 0, _, _ => throw .exhausted
  | n + 1, self, script =>
    runSteps (fun v => behold w₀ (perform (beholding w₀ n) n self v)) script

/-- A script that only reads and queues never finds other entities or records. -/
theorem agrees_runScript (hplans : ∀ s, w₀.Knows s → (w₀.plan s).Defers) (n : Nat) (self : Option Entity)
    {script : Script K} (h : Script.Defers script) :
    Agrees w₀.Like (runScript n self script) (beholding w₀ n self script) := by
  induction n generalizing self script with
  | zero => exact agrees_throw _
  | succ n ih =>
    apply agrees_runSteps fun w e hw => hw.of_same rfl rfl rfl rfl hw.knows
    intro a ha w hw
    obtain ⟨heq, hleft⟩ :=
      agrees_perform (fun self script hs => ih self hs) hplans (h a ha) n self w hw
    refine ⟨?_, hleft⟩
    rw [behold, if_pos hw]
    exact heq

end Run

end EntityStore
