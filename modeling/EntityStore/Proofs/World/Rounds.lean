import EntityStore.Proofs.World.Census
import EntityStore.Proofs.World.Settling
import EntityStore.Proofs.World.Steady
import EntityStore.Sample

/-!
# The order of a tick

A tick runs what is to be run before it commits anything. So systems that only read and queue see the
world as the tick found it, and if the commits run nothing by which entities come or go, as many
entities come as it says were created, and as many go as it says were destroyed.
-/
namespace EntityStore

open Run (bind_of_ok)

variable {K : Type} [Schema K] [DecidableEq K] {w₀ w w' : World K} {run run' : Runner K}
variable {tracer : Tracer}

namespace Run

/-- Looks for what is to be run, and runs it. Gives the numbers of the systems that are registered, of
those that were run and of those that failed. -/
def work (run : Runner K) (tracer : Tracer) : Run K (Nat × Nat × Nat) := do
  trace tracer .startTick
  let registered := (← get).systems.keys
  let runnable ← sortOut run tracer registered
  let failed ← dispatch run tracer runnable
  return (registered.length, runnable.length, failed)

def settle (run : Runner K) (turns : Nat) (tracer : Tracer) (registered ran failed : Nat) :
    Run K TickStats := do
  let destroyed ← commitDestructions run turns 0
  trace tracer (.commitDestruction destroyed)
  let created ← commitCreations run turns 0
  trace tracer (.commitCreation created)
  let stats : TickStats := { run := ran, skipped := registered - ran, failed, destroyed, created }
  trace tracer (.endTick stats)
  return stats

/-- A tick, with one way of running scripts for the systems and another for the commits. -/
def tickApart (run run' : Runner K) (turns : Nat) (tracer : Tracer) : Run K TickStats := do
  let (registered, ran, failed) ← work run tracer
  settle run' turns tracer registered ran failed

theorem tick_eq_tickApart (run : Runner K) (turns : Nat) (tracer : Tracer) :
    tick run turns tracer = tickApart run run turns tracer := by
  simp only [tick, tickApart, work, settle, bind_assoc, pure_bind]

section Work

variable (hrun : ∀ self script, Script.Defers script →
  Agrees w₀.Like (run self script) (run' self script))
variable (hplans : ∀ s, w₀.Knows s → (w₀.plan s).Defers)

include hrun hplans

/-- Systems that only read and queue are looked at and run alike, if their scripts are. -/
theorem agrees_work (tracer : Tracer) :
    Agrees w₀.Like (work run tracer) (work run' tracer) := by
  refine (reads_trace tracer _).bind fun _ => agrees_get_bind fun w hw => ?_
  refine agrees_bind_at (agrees_sortOut hrun hplans tracer _ w hw) fun rs v hrs hv => ?_
  have hknown : ∀ s ∈ rs, w₀.Knows s := by
    obtain ⟨l, -, hkeys, rfl⟩ := examined_of_sortOut hrs
    intro s hs
    have hs' : s ∈ l.map (·.1) := List.map_subset _ (List.filter_subset_self l) hs
    exact hw.knows s (.inl (hkeys ▸ hs'))
  exact ((agrees_dispatch hrun hplans tracer hknown).bind fun _ => agrees_pure _) v hv

/-- A tick only shows its systems what it found when it began. -/
theorem tickApart_congr (hw : w₀.Like w) (commit : Runner K) (turns : Nat) :
    tickApart run commit turns tracer w = tickApart run' commit turns tracer w := by
  obtain ⟨heq, -⟩ := agrees_work hrun hplans tracer w hw
  exact bind_congr_left heq

end Work

section Counting

variable {n turns : Nat} {stats : TickStats}

theorem fit_of_work {r : Nat × Nat × Nat} (hw : w.Fit)
    (h : work (runScript n) tracer w = .ok r w') : w'.Fit := by
  have hU := upkeep_paces (K := K)
  have hI := hU.toMild
  have hrun := World.keeps_runScript_paces (K := K) n
  have hkeeps : Keeps World.Paces (work (runScript (K := K) n) tracer) := by
    refine (keeps_trace hI tracer _).bind hI fun _ => keeps_get_bind fun v hv => ?_
    refine Keeps.bind hI (hU.keeps_sortOut hrun tracer _) (fun _ => ?_) v hv
    exact (hU.keeps_dispatch hrun tracer _).bind hI fun _ => keeps_pure hI _
  exact ((hkeeps w hw).of_ok h).1

/-- A commit by which entities neither come nor go otherwise. -/
theorem population_of_settle {registered ran failed : Nat} (hw : w.Fit)
    (h : settle (sparing (runScript n)) turns tracer registered ran failed w = .ok stats w') :
    w'.population + stats.destroyed = w.population + stats.created := by
  have hrun : ∀ self script, Keeps Level (sparing (runScript (K := K) n) self script) :=
    keeps_sparing fun self script v hv =>
      let hpass := World.keeps_runScript_paces n self script v hv
      ⟨hpass.fit, hpass.locks, trivial⟩
  obtain ⟨destroyed, u, hdestroyed, h⟩ := ok_of_bind h
  rw [bind_of_ok (trace_eq ..)] at h
  obtain ⟨created, v, hcreated, h⟩ := ok_of_bind h
  rw [bind_of_ok (trace_eq ..), bind_of_ok (trace_eq ..)] at h
  cases h
  obtain ⟨hu, hless⟩ := population_of_commitDestructions hrun hw hdestroyed
  obtain ⟨-, hmore⟩ := population_of_commitCreations hrun
    (World.fit_traced hu tracer (.commitDestruction destroyed)) hcreated
  have htraced : (u.traced tracer (.commitDestruction destroyed)).population = u.population := rfl
  show v.population + destroyed = w.population + created
  omega

/-- A tick whose commits are not stuck is the tick itself. -/
theorem tick_of_tickApart {run : Runner K}
    (h : tickApart run (sparing run) turns tracer w = .ok stats w') :
    tick run turns tracer w = .ok stats w' := by
  have hcautious : Cautious (tickApart run run turns tracer)
      (tickApart run (sparing run) turns tracer) := by
    refine .after fun r => ?_
    have hrun := cautious_sparing run
    refine (cautious_commitDestructions hrun turns 0).bind fun destroyed => .after fun _ => ?_
    exact (cautious_commitCreations hrun turns 0).bind fun created => .refl _
  rw [tick_eq_tickApart]
  obtain heq | ⟨v, hstuck⟩ := hcautious w
  · exact heq.symm.trans h
  · rw [h] at hstuck
    cases hstuck

/-- If the systems only read and queue, and by what the commits run no entity comes or goes, as many
have come as were created, and as many have gone as were destroyed. -/
theorem population_of_tickApart (hplans : ∀ s, w.Knows s → (w.plan s).Defers) (hw : w.Fit)
    (h : tickApart (runScript n) (sparing (runScript n)) turns tracer w = .ok stats w') :
    w'.population + stats.destroyed = w.population + stats.created := by
  obtain ⟨⟨registered, ran, failed⟩, v, hwork, hsettle⟩ := ok_of_bind h
  obtain ⟨-, hlike⟩ :=
    agrees_work (fun self _ => agrees_runScript hplans n self) hplans tracer w (.refl w)
  rw [hwork] at hlike
  rw [population_of_settle (fit_of_work hw hwork) hsettle]
  exact congrArg (· + stats.created) hlike.population_eq

end Counting

end Run

namespace World

open Run (runScript beholding tick tickApart sparing takeTurns system isRunnable answer Shift Course)

/-- A tick that succeeds examines every registered system once, has run those that wanted to run, and
then has committed the destructions and then the creations. If the systems only read and queue, it is
the tick in which they are stuck as soon as they find other entities or records than there were when it
began. So it is wherever these are the same: whoever is looked up or asked whether it wants to run,
whatever it is shown then, and whichever workers take their turns in whichever order. Then, if the tick
would also succeed if its commits were stuck at an initialisation or an observer that would leave more
or fewer entities alive than it found, entities come and go as it says. -/
theorem tick_runs_then_commits {n turns : Nat} {stats : TickStats} (hw : w.Reached)
    (h : tick (runScript n) turns tracer w = .ok stats w') :
    w.systems.keys.Nodup ∧ Nonempty (Course (runScript n) turns tracer w stats w') ∧
    ((∀ s, w.Knows s → (w.plan s).Defers) →
      tick (runScript n) turns tracer w =
        tickApart (beholding w n) (runScript n) turns tracer w ∧
      (∀ s, Agrees w.Like (system (runScript n) s) (system (beholding w n) s)) ∧
      (∀ s, w.Knows s → Agrees w.Like (isRunnable (runScript n) s) (isRunnable (beholding w n) s) ∧
        ∀ i, Agrees w.Like (answer (runScript n) ((w.plan s).readiness i))
          (answer (beholding w n) (((w.plan s).readiness i).shown w.scenery))) ∧
      (∀ order (shifts : List (Shift K)), (∀ shift ∈ shifts, shift.Defers w) →
        Agrees w.Like (takeTurns (runScript n) tracer order shifts)
          (takeTurns (beholding w n) tracer order shifts)) ∧
      ((∃ stats' v,
          tickApart (runScript n) (sparing (runScript n)) turns tracer w = .ok stats' v) →
        w'.population + stats.destroyed = w.population + stats.created)) := by
  refine ⟨hw.steady.registered_nodup, Run.course_of_tick h, fun hplans => ?_⟩
  have hrun : ∀ self script, Script.Defers script →
      Agrees w.Like (runScript n self script) (beholding w n self script) :=
    fun self _ => Run.agrees_runScript hplans n self
  refine ⟨?_, Run.agrees_system hrun hplans, fun s hs => ⟨?_, fun i => ?_⟩,
    fun order shifts hshifts => Run.agrees_takeTurns hrun hplans tracer order hshifts,
    fun ⟨stats', v, hv⟩ => ?_⟩
  · rw [Run.tick_eq_tickApart]
    exact Run.tickApart_congr hrun hplans (.refl w) (runScript n) turns
  · exact Run.agrees_isRunnable hrun hplans hs
  · exact Run.agrees_answer_shown hrun ((hplans s hs).readiness i)
  · have heq := Run.tick_of_tickApart hv
    rw [h] at heq
    cases heq
    exact Run.population_of_tickApart hplans hw.atRest.1 hv

/-- A system that queues the only entity for destruction, and one to be created; and one that queues
another creation when it is asked whether it is ready, and again when it runs. Two workers run them by
turns. -/
theorem tick_runs_then_commits_by_turns :
    let _ := Sample.schema ""
    ∃ (w : World Sample.Kind) (stats : TickStats) (w' : World Sample.Kind), w.Reached ∧
      (∀ s, w.Knows s → (w.plan s).Defers) ∧ tick (runScript 2) 4 [] w = .ok stats w' ∧
      (∃ stats' v, tickApart (runScript 2) (sparing (runScript 2)) 4 [] w = .ok stats' v) ∧
      stats.run = 2 ∧ stats.destroyed = 1 ∧ stats.created = 3 ∧ w.population = 1 ∧
      w'.population = 3 := by
  intro _
  let crew : Workforce := {
    concurrency := 2
    division := fun _ len _ => (List.range len).map fun i => (i, i + 1)
    turns := fun _ => [0, 1, 1, 0, 1, 0]
    divides := fun _ len _ => by simp [List.flatMap_map, Workforce.numbers] }
  let e : Entity := ⟨⟨0, ⟨1⟩, by decide⟩⟩
  let more : Script Sample.Kind := [{ label := "more", verb := .queueCreation 0 [] }]
  let work : Script Sample.Kind := { label := "clear", verb := .queueDestruction (.known e) true } :: more
  have hmore : Script.Defers more := fun a ha => List.mem_singleton.mp ha ▸ .queueCreation 0 []
  have hwork : Script.Defers work := fun a ha =>
    (List.mem_cons.mp ha).elim (fun h => h ▸ .queueDestruction _ _) (hmore a)
  let steward : Plan Sample.Kind := { name := "steward", runs := [work] }
  let herald : Plan Sample.Kind := {
    name := "herald"
    runs := [more]
    readiness := fun _ => .act more fun _ => .look fun o => .answer (o.scenery.isLive e) }
  have hsteward : steward.Defers :=
    ⟨fun script h => List.mem_singleton.mp h ▸ hwork, List.forall_mem_nil _,
      fun _ => .answer true⟩
  have hherald : herald.Defers :=
    ⟨fun script h => List.mem_singleton.mp h ▸ hmore, List.forall_mem_nil _,
      fun _ => .act hmore fun _ => .look fun _ => .answer _⟩
  let plans := [("steward", steward), ("herald", herald)]
  obtain ⟨w, h, hplans, hsystems, hinstances, hone, hsparing, hstats⟩ :
      ∃ w : World Sample.Kind, w.Reached ∧ w.plans = plans ∧
        w.systems.keys = ["steward", "herald"] ∧ w.instances.keys = [] ∧ w.population = 1 ∧
        Run.yields (fun _ _ => true) (tickApart (runScript 2) (sparing (runScript 2)) 4 [] w) = true ∧
        Run.yields (fun stats _ => stats.run == 2 && stats.destroyed == 1 && stats.created == 3)
          (tick (runScript 2) 4 [] w) = true := by
    have h : Reached (K := Sample.Kind) { settings := { workforce := some crew }, plans } := .start _ _
    have h := h.next 1 1 (.registerArchetype 0 "unit" [])
    have h := h.next 1 1 (.create 0 [])
    have h := h.next 1 1 (.registerSystem "steward" false)
    have h := h.next 1 1 (.registerSystem "herald" false)
    exact ⟨_, h, rfl, by decide +kernel, by decide +kernel, by decide +kernel,
      by decide +kernel, by decide +kernel⟩
  have hdefers : ∀ s, w.Knows s → (w.plan s).Defers := by
    rintro s (hs | hs)
    · rw [hsystems] at hs
      rw [World.plan, hplans]
      obtain rfl | hs := List.mem_cons.mp hs
      · exact hsteward
      · obtain rfl := List.mem_singleton.mp hs
        exact hherald
    · rw [hinstances] at hs
      cases hs
  obtain ⟨stats', v, hv, -⟩ := Run.exists_of_yields hsparing
  obtain ⟨stats, w', htick, hstats⟩ := Run.exists_of_yields hstats
  simp only [Bool.and_eq_true, beq_iff_eq] at hstats
  obtain ⟨⟨hrun, hdestroyed⟩, hcreated⟩ := hstats
  obtain ⟨-, -, hdefer⟩ := tick_runs_then_commits h htick
  have hcount := (hdefer hdefers).2.2.2.2 ⟨stats', v, hv⟩
  exact ⟨w, stats, w', h, hdefers, htick, ⟨stats', v, hv⟩, hrun, hdestroyed, hcreated, hone, by omega⟩

/-- An entity whose initialisation destroys it is counted as created. -/
theorem tick_counts_undone :
    let _ := Sample.schema ""
    ∃ (w : World Sample.Kind) (stats : TickStats) (w' : World Sample.Kind), w.Reached ∧
      w.plans = [] ∧ w.observers.isEmpty = true ∧
      w.roster.creations.map (·.init) =
        [[{ label := "undo", verb := .destroy .itself false }]] ∧
      tick (runScript 2) 2 [] w = .ok stats w' ∧
      w'.population + stats.destroyed ≠ w.population + stats.created := by
  intro _
  let undo : Script Sample.Kind := [{ label := "undo", verb := .destroy .itself false }]
  obtain ⟨w, h, hplans, hobservers, hqueue, hcount⟩ : ∃ w : World Sample.Kind, w.Reached ∧
      w.plans = [] ∧ w.observers.isEmpty = true ∧ w.roster.creations.map (·.init) = [undo] ∧
      Run.yields (fun stats w' =>
          decide (w'.population + stats.destroyed ≠ w.population + stats.created))
        (tick (runScript 2) 2 [] w) = true := by
    have h : Reached ({} : World Sample.Kind) := .start {} []
    have h := h.next 1 1 (.registerArchetype 0 "unit" [])
    have h := h.next 1 1 (.queueCreation 0 undo)
    exact ⟨_, h, rfl, by decide +kernel, rfl, by decide +kernel⟩
  obtain ⟨stats, w', htick, hcount⟩ := Run.exists_of_yields hcount
  exact ⟨w, stats, w', h, hplans, hobservers, hqueue, htick, of_decide_eq_true hcount⟩

end World

end EntityStore
