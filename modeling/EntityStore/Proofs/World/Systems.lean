import EntityStore.Proofs.World.Upkeep

/-!
# What systems keep

Building, asking, running and pausing systems keeps what the scripts of the systems keep. All workers
come to an end, whatever becomes of the others; what ends one of them early can only be a failure that
passes through everything.
-/
namespace EntityStore

open Run (left broke Mild Tending)

variable {K α β : Type} [Schema K] [DecidableEq K] {w w' : World K} {k : K} {e : Entity}
variable {T : Roster K → Entity → Prop} {I : Bool → World K → World K → Prop}

/-- The handle table signals neither that systems are paused nor anything about an entity. -/
theorem HandleTable.isQuiet_serve {t : HandleTable} {q : HandleRequest} {s : Signal}
    (h : (t.serve q).signal = some s) : s.isQuiet = true ∧ s.entity? = none := by
  cases q with
  | update id kind target =>
    simp only [serve] at h
    split at h
    · cases h
      exact ⟨rfl, rfl⟩
    · cases h
  | _ => cases h

namespace Run

/-- The operation never ends by a fault. -/
def Faultless (op : Run K α) : Prop := ∀ w e w', op w = .error e w' → e.breaks = true

section Faultless

omit [DecidableEq K]

theorem faultless_pure (a : α) : Faultless (pure a : Run K α) := fun _ _ _ h => by cases h

theorem faultless_modify (f : World K → World K) : Faultless (modify f : Run K Unit) :=
  fun _ _ _ h => by cases h

theorem faultless_get : Faultless (get : Run K (World K)) := fun _ _ _ h => by cases h

theorem faultless_attempt (body : Run K α) : Faultless (attempt body) := by
  intro w e w' h
  cases hr : body w with
  | ok a v =>
    rw [attempt_of_ok hr] at h
    cases h
  | error e' v =>
    cases hbreaks : e'.breaks with
    | true =>
      rw [attempt_of_breaks hr hbreaks] at h
      cases h
      exact hbreaks
    | false =>
      cases e' with
      | fault f =>
        rw [attempt_of_fault hr] at h
        cases h
      | _ => cases hbreaks

theorem Faultless.bind {op : Run K α} {f : α → Run K β} (h : Faultless op)
    (hf : ∀ a, Faultless (f a)) : Faultless (op >>= f) := by
  intro w e w' hr
  cases ho : op w with
  | ok a v =>
    rw [bind_of_ok ho] at hr
    exact hf a v e w' hr
  | error e' v =>
    rw [bind_of_error ho] at hr
    cases hr
    exact h w _ _ ho

theorem faultless_trace (tracer : Tracer) (moment : TraceEvent) :
    Faultless (trace tracer moment : Run K Unit) := by
  unfold trace
  induction tracer with
  | nil => exact faultless_pure ()
  | cons tap tracer ih =>
    refine Faultless.bind ?_ fun _ => ih
    cases tap <;> exact faultless_modify _

theorem faultless_endRun (tracer : Tracer) (s : SystemId) (r : Except Fault Unit) :
    Faultless (endRun tracer s r : Run K Unit) := by
  refine faultless_get.bind fun w => (faultless_trace tracer _).bind fun _ => ?_
  cases r with
  | ok => exact faultless_pure ()
  | error f => exact faultless_modify _

theorem faultless_startRun (tracer : Tracer) (s : SystemId) :
    Faultless (startRun tracer s : Run K (Script K)) := by
  refine faultless_get.bind fun w => (faultless_trace tracer _).bind fun _ => ?_
  refine (faultless_get.bind fun w => faultless_pure _).bind fun i =>
    (faultless_modify _).bind fun _ => faultless_get.bind fun w => ?_
  split
  · exact faultless_pure _
  · exact (faultless_modify _).bind fun _ => faultless_pure _

theorem faultless_goOn (run : Runner K) (tracer : Tracer) (s : SystemId) (script : Script K) :
    Faultless (goOn run tracer s script) :=
  (faultless_attempt _).bind fun r => (faultless_endRun tracer s r).bind fun _ => faultless_pure _

theorem faultless_current {run : Runner K} {tracer : Tracer} {ss : List SystemId} (s : SystemId)
    (script : Script K) (h : Faultless (runAll run tracer ss)) :
    Faultless (finish run tracer ⟨some (s, script), ss⟩) := by
  refine (faultless_goOn run tracer s script).bind fun r => ?_
  cases r with
  | ok => exact h
  | error f => exact h.bind fun _ => faultless_pure _

theorem faultless_runAll (run : Runner K) (tracer : Tracer) (ss : List SystemId) :
    Faultless (runAll run tracer ss) := by
  induction ss with
  | nil => exact faultless_pure 0
  | cons s ss ih =>
    rw [runAll_cons]
    exact (faultless_startRun tracer s).bind fun script => faultless_current s script ih

theorem faultless_finish (run : Runner K) (tracer : Tracer) (shift : Shift K) :
    Faultless (finish run tracer shift) := by
  obtain ⟨_ | ⟨s, script⟩, ss⟩ := shift
  · exact faultless_runAll run tracer ss
  · exact faultless_current s script (faultless_runAll run tracer ss)

theorem faultless_move (run : Runner K) (tracer : Tracer) (shift : Shift K) :
    Faultless (move run tracer shift) := by
  obtain ⟨_ | ⟨s, _ | ⟨a, rest⟩⟩, ss⟩ := shift
  · cases ss with
    | nil => exact faultless_pure _
    | cons s ss => exact (faultless_startRun tracer s).bind fun _ => faultless_pure _
  · exact (faultless_endRun tracer s _).bind fun _ => faultless_pure _
  · refine (faultless_attempt _).bind fun r => ?_
    cases r with
    | ok => exact faultless_pure _
    | error f => exact (faultless_endRun tracer s _).bind fun _ => faultless_pure _

end Faultless

section Systems

theorem keeps_trace (hI : Mild T I) (tracer : Tracer) (moment : TraceEvent) :
    Keeps I (trace tracer moment : Run K Unit) := by
  refine keeps_forM hI fun tap => ?_
  cases tap <;> exact keeps_emit hI rfl

theorem keeps_instanceOf (hI : Mild T I) (s : SystemId) :
    Keeps I (instanceOf s : Run K Instance) := keeps_get_bind fun _ hw => .stay hI hw rfl

variable (hU : Tending T I) {run : Runner K} (hrun : ∀ self script, Keeps I (run self script))

include hU

theorem Tending.keeps_editInstance (s : SystemId) {f : Instance → Instance}
    (hf : ∀ i, (f i).paused = i.paused ∧ (f i).heard = i.heard) :
    Keeps I (editInstance s f : Run K Unit) := fun _ hw =>
  ⟨hw.congr rfl rfl rfl rfl, .of_eq rfl, hU.tuned s f hf⟩

include hrun

theorem Tending.keeps_answer (q : Inquiry K) : Keeps I (answer run q) := by
  have hI := hU.toMild
  induction q with
  | answer b => exact keeps_pure hI b
  | look next ih => exact keeps_get_bind fun w hw => ih w.outlook w hw
  | act script next ih => exact (hrun none script).attempt.bind hI ih

theorem Tending.keeps_isReady (s : SystemId) : Keeps I (isReady run s) := by
  have hI := hU.toMild
  refine (keeps_instanceOf hI s).bind hI fun i => ?_
  refine (hU.keeps_editInstance s (f := fun i => { i with checks := i.checks + 1 })
    fun _ => ⟨rfl, rfl⟩).bind hI fun _ => ?_
  exact keeps_get_bind fun w hw => hU.keeps_answer hrun _ w hw

theorem Tending.keeps_isRunnable (s : SystemId) : Keeps I (isRunnable run s) := by
  have hI := hU.toMild
  refine (keeps_instanceOf hI s).bind hI fun i => ?_
  split
  · exact keeps_pure hI false
  · refine keeps_get_bind fun w hw => ?_
    split
    · exact keeps_pure hI false w hw
    · exact hU.keeps_isReady hrun s w hw

theorem Tending.keeps_build (s : SystemId) : Keeps I (build run s) := by
  have hI := hU.toMild
  refine keeps_get_bind fun w hw => ?_
  cases w.systems.find? s with
  | none => exact .stay hI hw rfl
  | some r =>
    have hnew : Keeps I (do
        note (.systemInstantiated (w.plan s).name)
        return {} : Run K Instance) := (keeps_note hI rfl).bind hI fun _ => keeps_pure hI _
    -- how often the factory was called is nothing that systems go by
    have htuning : ({ w with
        systems := w.systems.update s fun r => { r with calls := r.calls + 1 } } : World K).tuning =
          w.tuning := by
      simp only [World.tuning, Catalog.keys_update]
    dsimp only
    split
    · refine Passes.after (u := w)
        (v := { w with systems := w.systems.update s fun r => { r with calls := r.calls + 1 } }) hI
        (.of_eq rfl) (hI.beside ⟨rfl, .of_eq rfl htuning, fun _ _ => .inl⟩) ?_
      refine (?_ : Keeps I _) _ (hw.congr rfl rfl rfl rfl)
      cases (w.plan s).factory[r.calls]? with
      | none => exact (keeps_pure hI ()).bind hI fun _ => hnew
      | some script =>
        exact ((keeps_emit hI rfl).bind hI fun _ => hrun none script).bind hI fun _ => hnew
    · exact hnew w hw

theorem Tending.keeps_system (s : SystemId) : Keeps I (system run s) := by
  have hI := hU.toMild
  intro w hw
  cases hc : w.instances.contains s with
  | true => exact .stay hI hw (by rw [system_of_contains hc]; rfl)
  | false =>
    rw [system_of_not_contains hc]
    refine (hU.keeps_build hrun s w hw).bind hI fun _ v _ hv => ?_
    have hfit : (v.adopted s).Fit := by
      rw [World.adopted_eq]
      exact hv.congr rfl rfl rfl rfl
    exact ⟨hfit, .of_eq (by rw [show left _ = v.adopted s from rfl, World.adopted_eq]),
      hU.adopted s⟩

omit hrun in
theorem Tending.keeps_startRun (tracer : Tracer) (s : SystemId) :
    Keeps I (startRun tracer s : Run K (Script K)) := by
  have hI := hU.toMild
  refine keeps_get_bind fun w hw => Keeps.bind hI (keeps_trace hI tracer _) (fun _ => ?_) w hw
  refine (keeps_instanceOf hI s).bind hI fun i => (hU.keeps_editInstance s
    (f := fun i => { i with runs := i.runs + 1 }) fun _ => ⟨rfl, rfl⟩).bind hI fun _ =>
    keeps_get_bind fun w hw => ?_
  cases (w.plan s).runs[i.runs]? with
  | none => exact keeps_pure hI [] w hw
  | some script => exact Keeps.bind hI (keeps_emit hI rfl) (fun _ => keeps_pure hI script) w hw

omit hrun in
theorem Tending.keeps_endRun (tracer : Tracer) (s : SystemId) (r : Except Fault Unit) :
    Keeps I (endRun tracer s r : Run K Unit) := by
  have hI := hU.toMild
  refine keeps_get_bind fun w hw => Keeps.bind hI (keeps_trace hI tracer _) (fun _ => ?_) w hw
  cases r with
  | ok => exact keeps_pure hI _
  | error f => exact keeps_note hI rfl

theorem Tending.keeps_goOn (tracer : Tracer) (s : SystemId) (script : Script K) :
    Keeps I (goOn run tracer s script) := by
  have hI := hU.toMild
  exact (keeps_forM hI fun a => hrun none [a]).attempt.bind hI fun r =>
    (hU.keeps_endRun tracer s r).bind hI fun _ => keeps_pure hI r

theorem Tending.keeps_runEntry (tracer : Tracer) (s : SystemId) :
    Keeps I (runEntry run tracer s) :=
  (hU.keeps_startRun tracer s).bind hU.toMild fun script => hU.keeps_goOn hrun tracer s script

theorem Tending.keeps_runSystem (s : SystemId) : Keeps I (runSystem run s) := by
  have hI := hU.toMild
  refine (hU.keeps_system hrun s).bind hI fun _ => (keeps_instanceOf hI s).bind hI fun i => ?_
  split
  · exact keeps_pure hI false
  · exact (hU.keeps_runEntry hrun [] s).bind hI fun r => (keeps_orFail hI r).bind hI fun _ =>
      keeps_pure hI true

theorem Tending.keeps_sortOut (tracer : Tracer) (ss : List SystemId) :
    Keeps I (sortOut run tracer ss) := by
  have hI := hU.toMild
  induction ss with
  | nil => exact keeps_pure hI []
  | cons s ss ih =>
    refine (hU.keeps_system hrun s).bind hI fun _ => (hU.keeps_isRunnable hrun s).bind hI fun b => ?_
    split
    · exact ih.bind hI fun _ => keeps_pure hI _
    · exact keeps_get_bind fun w hw =>
        Keeps.bind hI (keeps_trace hI tracer _) (fun _ => ih) w hw

theorem Tending.keeps_current {tracer : Tracer} {ss : List SystemId} (s : SystemId)
    (script : Script K) (h : Keeps I (runAll run tracer ss)) :
    Keeps I (finish run tracer ⟨some (s, script), ss⟩) := by
  have hI := hU.toMild
  refine (hU.keeps_goOn hrun tracer s script).bind hI fun r => ?_
  cases r with
  | ok => exact h
  | error f => exact h.bind hI fun _ => keeps_pure hI _

theorem Tending.keeps_runAll (tracer : Tracer) (ss : List SystemId) :
    Keeps I (runAll run tracer ss) := by
  have hI := hU.toMild
  induction ss with
  | nil => exact keeps_pure hI 0
  | cons s ss ih =>
    rw [runAll_cons]
    exact (hU.keeps_startRun tracer s).bind hI fun script => hU.keeps_current hrun s script ih

theorem Tending.keeps_move (tracer : Tracer) (shift : Shift K) :
    Keeps I (move run tracer shift) := by
  have hI := hU.toMild
  obtain ⟨_ | ⟨s, _ | ⟨a, rest⟩⟩, ss⟩ := shift
  · cases ss with
    | nil => exact keeps_pure hI _
    | cons s ss => exact (hU.keeps_startRun tracer s).bind hI fun _ => keeps_pure hI _
  · exact (hU.keeps_endRun tracer s _).bind hI fun _ => keeps_pure hI _
  · refine (hrun none [a]).attempt.bind hI fun r => ?_
    cases r with
    | ok => exact keeps_pure hI _
    | error f => exact (hU.keeps_endRun tracer s _).bind hI fun _ => keeps_pure hI _

theorem Tending.keeps_finish (tracer : Tracer) (shift : Shift K) :
    Keeps I (finish run tracer shift) := by
  obtain ⟨_ | ⟨s, script⟩, ss⟩ := shift
  · exact hU.keeps_runAll hrun tracer ss
  · exact hU.keeps_current hrun s script (hU.keeps_runAll hrun tracer ss)

omit hrun hU in
/-- Both are done, and it counts as broken if the first one broke. -/
theorem keeps_amid (hI : Mild T I) {first : Run K (α × Nat)} {nothing : α} {others : α → Run K Nat}
    (hfirst : Keeps I first) (hfaultless : Faultless first) (hothers : ∀ a, Keeps I (others a)) :
    Keeps I (amid first nothing others) := by
  intro w hw
  have hpass := hfirst w hw
  unfold amid
  cases hr : first w with
  | ok r v =>
    obtain ⟨a, failed⟩ := r
    rw [hr] at hpass
    have hrest := hothers a v hpass.fit
    have hlocks := hpass.locks.trans hrest.locks
    have hkeeps := hI.trans hpass.keeps hrest.keeps
    simp only [left] at hlocks hkeeps ⊢
    cases hs : others a v <;> rw [hs] at hrest hlocks hkeeps <;>
      exact ⟨hrest.fit, hlocks, hkeeps⟩
  | error e v =>
    rw [hr] at hpass
    have hrest := hothers nothing v hpass.fit
    have hlocks := hpass.locks.trans hrest.locks
    have hkeeps := hI.trans hpass.keeps hrest.keeps
    have hbroke : broke (.error e v : EStateM.Result Failure (World K) Nat) = true :=
      hfaultless w e v hr
    have hbroke' : broke (.error e v : EStateM.Result Failure (World K) (α × Nat)) = true := hbroke
    rw [hbroke', Bool.true_or] at hkeeps
    simp only [left] at hlocks hkeeps ⊢
    cases hs : others nothing v <;> rw [hs] at hrest hlocks hkeeps <;>
      exact ⟨hrest.fit, hlocks, hbroke ▸ hkeeps⟩

theorem Tending.keeps_takeTurns (tracer : Tracer) (turns : List Nat) (shifts : List (Shift K)) :
    Keeps I (takeTurns run tracer turns shifts) := by
  have hI := hU.toMild
  induction turns generalizing shifts with
  | nil =>
    rw [takeTurns]
    induction shifts with
    | nil => exact keeps_pure hI 0
    | cons shift shifts ih =>
      exact keeps_amid hI ((hU.keeps_finish hrun tracer shift).bind hI fun _ => keeps_pure hI _)
        ((faultless_finish run tracer shift).bind fun _ => faultless_pure _) fun _ => ih
  | cons turn turns ih =>
    rw [takeTurns]
    split
    · exact ih shifts
    · exact keeps_amid hI (hU.keeps_move hrun tracer _) (faultless_move run tracer _) fun _ => ih _

theorem Tending.keeps_dispatch (tracer : Tracer) (rs : List SystemId) :
    Keeps I (dispatch run tracer rs) := by
  have hI := hU.toMild
  cases rs with
  | nil => exact keeps_pure hI 0
  | cons s ss =>
    refine keeps_get_bind fun w hw => ?_
    refine Passes.after (u := w) (v := { w with dispatches := w.dispatches + 1 }) hI (.of_eq rfl)
      (hI.beside ⟨rfl, .of_eq rfl rfl, fun _ _ => .inl⟩) ?_
    exact hU.keeps_takeTurns hrun tracer _ _ _ (hw.congr rfl rfl rfl rfl)

theorem Tending.keeps_setPaused (paused : Bool) : Keeps I (setPaused run paused) := by
  intro w hw
  by_cases hpaused : w.paused = paused
  · exact .stay hU.toMild hw (by rw [setPaused_of_eq hpaused]; rfl)
  · have hfit : (w.switched paused).Fit := by
      rw [World.switched_eq]
      exact hw.congr rfl rfl rfl rfl
    rw [setPaused_of_ne hpaused]
    exact Passes.after hU.toMild (.of_eq (by rw [World.switched_eq]))
      (hU.switched paused hpaused) (keeps_tellFrom hrun hU.toMild _ _ 0 _ hfit)

theorem Tending.keeps_handle (q : HandleRequest) : Keeps I (handle run q) := by
  have hI := hU.toMild
  refine keeps_get_bind fun w hw => ?_
  have hlast : Keeps I (orThrow (w.handles.serve q).answer : Run K HandleAnswer) :=
    keeps_orThrow hI _
  have hserved : Passes I w ((modify fun v : World K =>
      { v with handles := (w.handles.serve q).table } : Run K Unit) w) :=
    ⟨⟨hw.enterable, hw.lock_lt, hw.keys_nodup, hw.tables, hw.roster, hw.handles.serve q⟩,
      .of_eq rfl, hI.beside ⟨rfl, .of_eq rfl, fun _ _ => .inl⟩⟩
  refine hserved.bind hI fun _ v _ hv => ?_
  refine Keeps.bind hI (keeps_noteAll hI (HandleTable.isLocal_serve w.handles q)) (fun _ => ?_) v hv
  cases hs : (w.handles.serve q).signal with
  | none => exact (keeps_pure hI ()).bind hI fun _ => hlast
  | some s =>
    obtain ⟨hquiet, hentity⟩ := HandleTable.isQuiet_serve hs
    exact (keeps_fire hrun hI s hquiet (hU.noted s hquiet hentity)).bind hI fun _ => hlast

end Systems

end Run

end EntityStore
