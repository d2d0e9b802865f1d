import EntityStore.Proofs.World.Shifts

/-!
# What a tick does

A tick first examines every registered system, which may bring it about that a system comes to be. Then
the workers run those that wanted to run; then it commits. A system wants to run if it is neither paused
nor subordinate and is ready, at the time at which it is examined.
-/
namespace EntityStore

open Run (bind_of_ok)
open Workforce (Interleaves)

variable {K : Type} [Schema K] [DecidableEq K] {w w' : World K} {s : SystemId}

namespace Run

variable {run : Runner K} {tracer : Tracer} {b : Bool}

/-- Whether a tick that examines a system now runs it, and the world after it has found out. Only a
system that is neither paused nor subordinate is asked whether it is ready. -/
inductive Judged (run : Runner K) (s : SystemId) (w : World K) : Bool → World K → Prop
  | paused (h : (w.instanceAt s).paused = true) : Judged run s w false w
  | subordinate (h : (w.plan s).isSubordinate = true) : Judged run s w false w
  | asked {b : Bool} {w' : World K} (hpaused : (w.instanceAt s).paused = false)
    (hsubordinate : (w.plan s).isSubordinate = false) (h : isReady run s w = .ok b w') :
    Judged run s w b w'

theorem isRunnable_eq : isRunnable run s w =
    if (w.instanceAt s).paused || (w.plan s).isSubordinate then .ok false w else isReady run s w := by
  have hinstance : (instanceOf s : Run K Instance) w = .ok (w.instanceAt s) w := rfl
  rw [isRunnable, bind_of_ok hinstance]
  cases (w.instanceAt s).paused with
  | true => rfl
  | false =>
    rw [if_neg Bool.false_ne_true, get_bind]
    cases (w.plan s).isSubordinate <;> rfl

theorem isRunnable_iff : isRunnable run s w = .ok b w' ↔ Judged run s w b w' := by
  rw [isRunnable_eq]
  refine ⟨fun h => ?_, fun h => ?_⟩
  · split at h
    · next hno =>
      cases h
      obtain hpaused | hsubordinate := (Bool.or_eq_true ..).mp hno
      · exact .paused hpaused
      · exact .subordinate hsubordinate
    · next hasked =>
      simp only [Bool.or_eq_true, not_or, Bool.not_eq_true] at hasked
      exact .asked hasked.1 hasked.2 h
  · cases h with
    | paused h => rw [h, Bool.true_or, if_pos rfl]
    | subordinate h => rw [h, Bool.or_true, if_pos rfl]
    | asked hpaused hsubordinate h =>
      rw [hpaused, hsubordinate, Bool.or_false, if_neg Bool.false_ne_true, h]

/-- A paused system is passed over and is not asked anything. -/
theorem Judged.of_paused (h : Judged run s w b w') (hpaused : (w.instanceAt s).paused = true) :
    b = false ∧ w' = w := by
  cases h with
  | paused | subordinate => exact ⟨rfl, rfl⟩
  | asked hnot => cases hnot.symm.trans hpaused

/-- A list of systems has been examined, with what came of it for each of them. -/
inductive Examined (run : Runner K) (tracer : Tracer) :
    World K → List (SystemId × Bool) → World K → Prop
  | done (w : World K) : Examined run tracer w [] w
  | wanting {w u v w' : World K} {s : SystemId} {l : List (SystemId × Bool)}
    (hs : system run s w = .ok () u) (hwants : Judged run s u true v)
    (h : Examined run tracer v l w') : Examined run tracer w ((s, true) :: l) w'
  | skipped {w u v w' : World K} {s : SystemId} {l : List (SystemId × Bool)}
    (hs : system run s w = .ok () u) (hwants : Judged run s u false v)
    (h : Examined run tracer (v.traced tracer (.skip (v.plan s).name)) l w') :
    Examined run tracer w ((s, false) :: l) w'

theorem examined_of_sortOut {ss rs : List SystemId} (h : sortOut run tracer ss w = .ok rs w') :
    ∃ l, Examined run tracer w l w' ∧ l.map (·.1) = ss ∧ rs = (l.filter (·.2)).map (·.1) := by
  induction ss generalizing w rs with
  | nil =>
    cases h
    exact ⟨[], .done _, rfl, rfl⟩
  | cons s ss ih =>
    obtain ⟨⟨⟩, u, hs, h⟩ := ok_of_bind h
    obtain ⟨b, v, hrunnable, h⟩ := ok_of_bind h
    have hjudged := isRunnable_iff.mp hrunnable
    cases b with
    | true =>
      obtain ⟨rs', v', hrest, hv⟩ := ok_of_bind h
      cases hv
      obtain ⟨l, hl, rfl, rfl⟩ := ih hrest
      exact ⟨(s, true) :: l, .wanting hs hjudged hl, rfl, rfl⟩
    | false =>
      simp only [Bool.false_eq_true, if_false, get_bind] at h
      rw [bind_of_ok (trace_eq ..)] at h
      obtain ⟨l, hl, rfl, rfl⟩ := ih h
      exact ⟨(s, false) :: l, .skipped hs hjudged hl, rfl, rfl⟩

omit [DecidableEq K] in
/-- The workers do what they were given, and together all of it. -/
theorem worked_of_dispatch {rs : List SystemId} {n : Nat}
    (h : dispatch run tracer rs w = .ok n w') :
    ∃ (shares : List (List SystemId)) (dispatches : Nat) (deeds : List Deed), shares.flatten.Perm rs ∧
      Worked run tracer { w with dispatches } (shares.map fun share => { next := share }) deeds w' ∧
      n = failures deeds := by
  cases rs with
  | nil =>
    cases h
    exact ⟨[], w.dispatches, [], .refl _, .done nofun, rfl⟩
  | cons s ss =>
    let crew := w.settings.crew
    let ranges := crew.division w.dispatches (s :: ss).length w.settings.inlineThreshold
    have hturns : takeTurns run tracer (crew.turns w.dispatches)
        (ranges.map fun range => { next := Workforce.slice (s :: ss) range })
        { w with dispatches := w.dispatches + 1 } = .ok n w' := h
    obtain ⟨deeds, hworked, hn⟩ := worked_of_takeTurns hturns
    refine ⟨ranges.map (Workforce.slice (s :: ss)), w.dispatches + 1, deeds,
      crew.perm_slices .., ?_, hn⟩
    rwa [List.map_map]

section Ticks

variable {turns : Nat}

/-- What a tick that succeeded has done: one system after the other was examined, then those that
wanted to run were run, then the destructions were committed, then the creations. -/
structure Course (run : Runner K) (turns : Nat) (tracer : Tracer) (w : World K) (stats : TickStats)
    (w' : World K) where
  /-- The systems that were registered, and whether they wanted to run. -/
  verdicts : List (SystemId × Bool)
  /-- The systems that each worker was given. -/
  shares : List (List SystemId)
  /-- What each worker did. -/
  logs : List (List Deed)
  /-- What all of them did, in the order in which it was done. -/
  deeds : List Deed
  /-- The world in which every system has been examined. -/
  looked : World K
  /-- How often the workforce has been given systems to run. -/
  dispatches : Nat
  /-- The world in which every system has run that wanted to. -/
  worked : World K
  /-- The world in which the destructions have been committed. -/
  cleared : World K
  /-- The world in which the creations have been committed. -/
  filled : World K
  examined : Examined run tracer (w.traced tracer .startTick) verdicts looked
  registered : verdicts.map (·.1) = w.systems.keys
  divided : shares.flatten.Perm ((verdicts.filter (·.2)).map (·.1))
  ran : Worked run tracer { looked with dispatches } (shares.map fun share => { next := share }) deeds
    worked
  runs : List.Forall₂ Runs shares logs
  interleaved : Interleaves logs deeds
  begun_perm : (begun deeds).Perm ((verdicts.filter (·.2)).map (·.1))
  results_perm : ((results deeds).map (·.1)).Perm ((verdicts.filter (·.2)).map (·.1))
  destroyed : commitDestructions run turns 0 worked = .ok stats.destroyed cleared
  created : commitCreations run turns 0
    (cleared.traced tracer (.commitDestruction stats.destroyed)) = .ok stats.created filled
  ended : w' = (filled.traced tracer (.commitCreation stats.created)).traced tracer (.endTick stats)
  run_eq : stats.run = (results deeds).length
  skipped_eq : stats.run + stats.skipped = w.systems.keys.length
  failed_eq : stats.failed = failures deeds

theorem course_of_tick {stats : TickStats} (h : tick run turns tracer w = .ok stats w') :
    Nonempty (Course run turns tracer w stats w') := by
  have hkeys : (w.traced tracer .startTick).systems.keys = w.systems.keys := rfl
  rw [tick, bind_of_ok (trace_eq tracer .startTick), get_bind, hkeys] at h
  obtain ⟨rs, w₁, hsort, h⟩ := ok_of_bind h
  obtain ⟨failed, w₂, hruns, h⟩ := ok_of_bind h
  obtain ⟨destroyed, w₃, hdestroy, h⟩ := ok_of_bind h
  rw [bind_of_ok (trace_eq ..)] at h
  obtain ⟨created, w₄, hcreate, h⟩ := ok_of_bind h
  rw [bind_of_ok (trace_eq ..), bind_of_ok (trace_eq ..)] at h
  cases h
  obtain ⟨verdicts, hexamined, hverdicts, rfl⟩ := examined_of_sortOut hsort
  obtain ⟨shares, dispatches, deeds, hdivided, hworked, rfl⟩ := worked_of_dispatch hruns
  obtain ⟨logs, hlogs, hdeeds⟩ := hworked.exists_runs
  have hbegun : (begun deeds).Perm shares.flatten :=
    (hdeeds.perm.filterMap _).trans (.of_eq (begun_flatten hlogs))
  have hresults : ((results deeds).map (·.1)).Perm shares.flatten :=
    ((hdeeds.perm.filterMap _).map _).trans (.of_eq (results_flatten hlogs))
  have hrun : ((verdicts.filter (·.2)).map (·.1)).length = (results deeds).length := by
    rw [← (hresults.trans hdivided).length_eq, List.length_map]
  have hall : ((verdicts.filter (·.2)).map (·.1)).length ≤ w.systems.keys.length := by
    rw [← hverdicts, List.length_map, List.length_map]
    exact List.length_filter_le ..
  exact ⟨{
    verdicts, shares, logs, deeds, dispatches
    looked := w₁, worked := w₂, cleared := w₃, filled := w₄
    examined := hexamined, registered := hverdicts, divided := hdivided, ran := hworked
    runs := hlogs, interleaved := hdeeds
    begun_perm := hbegun.trans hdivided, results_perm := hresults.trans hdivided
    destroyed := hdestroy, created := hcreate, ended := rfl
    run_eq := hrun, skipped_eq := Nat.add_sub_of_le hall, failed_eq := rfl }⟩

def idleTick (run : Runner K) (turns : Nat) (tracer : Tracer) : Run K TickStats := do
  trace tracer .startTick
  let registered := (← get).systems.keys
  let _ ← sortOut run tracer registered
  let destroyed ← commitDestructions run turns 0
  trace tracer (.commitDestruction destroyed)
  let created ← commitCreations run turns 0
  trace tracer (.commitCreation created)
  let stats : TickStats := { skipped := registered.length, destroyed, created }
  trace tracer (.endTick stats)
  return stats

/-- If no system wants to run, none is run. -/
theorem tick_eq_idleTick (h : ∀ rs v, sortOut run tracer w.systems.keys
    (w.traced tracer .startTick) = .ok rs v → rs = []) :
    tick run turns tracer w = idleTick run turns tracer w := by
  have hkeys : (w.traced tracer .startTick).systems.keys = w.systems.keys := rfl
  rw [tick, idleTick, bind_of_ok (trace_eq tracer .startTick),
    bind_of_ok (trace_eq tracer .startTick), get_bind, get_bind, hkeys]
  refine bind_congr_right fun rs v hv => ?_
  rw [h rs v hv]
  rfl

end Ticks

end Run

end EntityStore
