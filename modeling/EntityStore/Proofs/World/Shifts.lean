import EntityStore.Proofs.Workforce.Ranges
import EntityStore.Proofs.World.Pauses

/-!
# What workers do

A step of a worker begins a run, does one step of its script, or ends it. Whosever turn it is: when
the workers have come to an end, every system that they were given has begun one run and has ended it,
every worker has gone through its share in order, and as many runs count as failed as ended by a fault.
-/
namespace EntityStore

open Run (bind_of_ok bind_of_error)
open Workforce (Interleaves)

def Tap.shows {K : Type} [Schema K] (moment : TraceEvent) : Tap → Event K
  | .tagged tag => .traced tag moment (moment.context? tag)
  | .journal => .notice (.traced .info moment)

variable {K α : Type} [Schema K] {w w' u : World K} {run : Runner K} {tracer : Tracer}

namespace World

def traced (w : World K) (tracer : Tracer) (moment : TraceEvent) : World K :=
  { w with events := w.events ++ (tracer.map (·.shows moment)).toArray }

theorem aside_traced (w : World K) (tracer : Tracer) (moment : TraceEvent) :
    Aside w (w.traced tracer moment) := by
  apply Aside.of_plain rfl
  intro e he
  obtain ⟨tap, -, rfl⟩ := List.mem_map.mp (List.mem_toArray.mp he)
  cases tap <;> rfl

theorem fit_traced [DecidableEq K] (hw : w.Fit) (tracer : Tracer) (moment : TraceEvent) :
    (w.traced tracer moment).Fit := hw.congr rfl rfl rfl rfl

end World

namespace Run

theorem trace_eq (tracer : Tracer) (moment : TraceEvent) :
    trace tracer moment w = .ok () (w.traced tracer moment) := by
  unfold trace World.traced
  induction tracer generalizing w with
  | nil => simp; rfl
  | cons tap tracer ih =>
    have hshow : show? moment tap w =
        .ok () { w with events := w.events.push (tap.shows moment) } := by
      cases tap <;> rfl
    refine (bind_of_ok hshow).trans (ih.trans ?_)
    simp

variable {s : SystemId} {shift shift' : Shift K} {shifts : List (Shift K)} {n : Nat}

inductive Deed
  | began (s : SystemId)
  | acted (s : SystemId)
  | ended (s : SystemId) (result : Except Fault Unit)

namespace Deed

def began? : Deed → Option SystemId
  | began s => some s
  | _ => none

def result? : Deed → Option (SystemId × Except Fault Unit)
  | ended s r => some (s, r)
  | _ => none

end Deed

/-- The systems of which runs began. -/
def begun (deeds : List Deed) : List SystemId := deeds.filterMap Deed.began?

/-- The runs that ended, with what came of them. -/
def results (deeds : List Deed) : List (SystemId × Except Fault Unit) := deeds.filterMap Deed.result?

def failures (deeds : List Deed) : Nat := (results deeds).countP fun x => !x.2.isOk

theorem failures_append (deeds deeds' : List Deed) :
    failures (deeds ++ deeds') = failures deeds + failures deeds' := by
  simp [failures, results]

/-- One run after the other: each begins, does some steps, and ends. -/
inductive Runs : List SystemId → List Deed → Prop
  | nil : Runs [] []
  | next {s : SystemId} {ss : List SystemId} {n : Nat} {r : Except Fault Unit} {log : List Deed}
    (h : Runs ss log) :
    Runs (s :: ss) (.began s :: (List.replicate n (.acted s) ++ .ended s r :: log))

/-- What a worker does until it comes to an end: it ends the run that it is at, and does its others. -/
def Shift.Logs : Shift K → List Deed → Prop
  | ⟨none, ss⟩, log => Runs ss log
  | ⟨some (s, _), ss⟩, log =>
    ∃ n r rest, log = List.replicate n (.acted s) ++ .ended s r :: rest ∧ Runs ss rest

inductive Step (run : Runner K) (tracer : Tracer) : World K → Shift K → Deed → Shift K → World K → Prop
  | began {w w' : World K} {s : SystemId} {ss : List SystemId} {script : Script K}
    (h : startRun tracer s w = .ok script w') :
    Step run tracer w ⟨none, s :: ss⟩ (.began s) ⟨some (s, script), ss⟩ w'
  | acted {w w' : World K} {s : SystemId} {ss : List SystemId} {a : Action (Verb K)} {rest : Script K}
    (h : run none [a] w = .ok () w') :
    Step run tracer w ⟨some (s, a :: rest), ss⟩ (.acted s) ⟨some (s, rest), ss⟩ w'
  | failed {w u w' : World K} {s : SystemId} {ss : List SystemId} {a : Action (Verb K)} {rest : Script K}
    {f : Fault} (h : run none [a] w = .error (.fault f) u)
    (hend : endRun tracer s (.error f) u = .ok () w') :
    Step run tracer w ⟨some (s, a :: rest), ss⟩ (.ended s (.error f)) ⟨none, ss⟩ w'
  | ended {w w' : World K} {s : SystemId} {ss : List SystemId}
    (hend : endRun tracer s (.ok ()) w = .ok () w') :
    Step run tracer w ⟨some (s, []), ss⟩ (.ended s (.ok ())) ⟨none, ss⟩ w'

/-- The workers have come to an end, in some order of their steps. -/
inductive Worked (run : Runner K) (tracer : Tracer) :
    World K → List (Shift K) → List Deed → World K → Prop
  | done {w : World K} {shifts : List (Shift K)} (h : ∀ shift ∈ shifts, shift = {}) :
    Worked run tracer w shifts [] w
  | step {w u w' : World K} {before after : List (Shift K)} {shift shift' : Shift K} {deed : Deed}
    {deeds : List Deed} (h : Step run tracer w shift deed shift' u)
    (rest : Worked run tracer u (before ++ shift' :: after) deeds w') :
    Worked run tracer w (before ++ shift :: after) (deed :: deeds) w'

section Logs

variable {deed : Deed} {deeds log : List Deed} {ss : List SystemId}

theorem Runs.begun_eq (h : Runs ss log) : begun log = ss := by
  induction h with
  | nil => rfl
  | @next s _ n r log _ ih =>
    have hacted : (List.replicate n (Deed.acted s)).filterMap Deed.began? = [] := by
      simp [Deed.began?]
    rw [← ih]
    simp [begun, hacted, List.filterMap_cons, Deed.began?]

theorem Runs.results_eq (h : Runs ss log) : (results log).map (·.1) = ss := by
  induction h with
  | nil => rfl
  | @next s _ n r log _ ih =>
    have hacted : (List.replicate n (Deed.acted s)).filterMap Deed.result? = [] := by
      simp [Deed.result?]
    rw [← ih]
    simp [results, hacted, List.filterMap_cons, Deed.result?]

theorem Step.logs (h : Step run tracer w shift deed shift' u) (hlog : shift'.Logs log) :
    shift.Logs (deed :: log) := by
  cases h with
  | began h =>
    obtain ⟨n, r, rest, rfl, hrest⟩ := hlog
    exact .next hrest
  | acted h =>
    obtain ⟨n, r, rest, rfl, hrest⟩ := hlog
    exact ⟨n + 1, r, rest, rfl, hrest⟩
  | failed h hend => exact ⟨0, _, log, rfl, hlog⟩
  | ended hend => exact ⟨0, _, log, rfl, hlog⟩

theorem exists_of_forall₂_append {R : α → List Deed → Prop} {before after : List α} {a : α}
    {logs : List (List Deed)} (h : List.Forall₂ R (before ++ a :: after) logs) :
    ∃ logs₁ log logs₂, logs = logs₁ ++ log :: logs₂ ∧ R a log ∧ ∀ a' log', R a' log' →
      List.Forall₂ R (before ++ a' :: after) (logs₁ ++ log' :: logs₂) := by
  induction before generalizing logs with
  | nil =>
    obtain ⟨log, logs₂, hlog, hlogs, rfl⟩ := List.forall₂_cons_left_iff.mp h
    exact ⟨[], log, logs₂, rfl, hlog, fun _ _ h' => .cons h' hlogs⟩
  | cons b before ih =>
    obtain ⟨log, logs', hlog, hlogs, rfl⟩ := List.forall₂_cons_left_iff.mp h
    obtain ⟨logs₁, log', logs₂, rfl, hlog', hset⟩ := ih hlogs
    exact ⟨log :: logs₁, log', logs₂, rfl, hlog', fun a' l h' => .cons hlog (hset a' l h')⟩

/-- Each worker has done what it had to do, one thing after the other, and the others meanwhile. -/
theorem Worked.exists_logs (h : Worked run tracer w shifts deeds w') :
    ∃ logs, List.Forall₂ Shift.Logs shifts logs ∧ Interleaves logs deeds := by
  induction h with
  | @done w shifts h =>
    refine ⟨shifts.map fun _ => [], ?_, .done (by simp)⟩
    rw [List.forall₂_map_right_iff, List.forall₂_same]
    intro shift hshift
    rw [h shift hshift]
    exact .nil
  | step h _ ih =>
    obtain ⟨logs, hlogs, hdeeds⟩ := ih
    obtain ⟨logs₁, log, logs₂, rfl, hlog, hset⟩ := exists_of_forall₂_append hlogs
    exact ⟨_, hset _ _ (h.logs hlog), .call hdeeds⟩

end Logs

section Turns

variable {deeds : List Deed} {m : Nat}

theorem step_of_move (h : move run tracer shift w = .ok (shift', n) u) :
    (shift = {} ∧ shift' = {} ∧ u = w ∧ n = 0) ∨
      ∃ deed, Step run tracer w shift deed shift' u ∧ n = failures [deed] := by
  obtain ⟨_ | ⟨s, _ | ⟨a, rest⟩⟩, ss⟩ := shift
  · cases ss with
    | nil =>
      cases h
      exact .inl ⟨rfl, rfl, rfl, rfl⟩
    | cons s ss =>
      obtain ⟨script, v, hstart, hv⟩ := ok_of_bind h
      cases hv
      exact .inr ⟨_, .began hstart, rfl⟩
  · obtain ⟨⟨⟩, v, hend, hv⟩ := ok_of_bind h
    cases hv
    exact .inr ⟨_, .ended hend, rfl⟩
  · obtain ⟨r, v, hstep, h⟩ := ok_of_bind h
    cases r with
    | ok =>
      cases h
      exact .inr ⟨_, .acted (ok_of_attempt hstep), rfl⟩
    | error f =>
      obtain ⟨⟨⟩, v', hend, hv⟩ := ok_of_bind h
      cases hv
      exact .inr ⟨_, .failed (fault_of_attempt hstep) hend, rfl⟩

theorem ok_of_amid {first : Run K (α × Nat)} {nothing : α} {others : α → Run K Nat}
    (h : amid first nothing others w = .ok n w') :
    ∃ a m v n', first w = .ok (a, m) v ∧ others a v = .ok n' w' ∧ n = m + n' := by
  unfold amid at h
  cases hfirst : first w with
  | ok r v =>
    obtain ⟨a, m⟩ := r
    simp only [hfirst] at h
    cases hothers : others a v with
    | ok n' v' =>
      simp only [hothers] at h
      cases h
      exact ⟨a, m, v, n', rfl, hothers, rfl⟩
    | error e v' => simp [hothers] at h
  | error e v =>
    simp only [hfirst] at h
    cases hothers : others nothing v <;> simp [hothers] at h

section Alone

variable {before after : List (Shift K)} {ss : List SystemId} {script : Script K}

theorem goOn_of_ok {a : Action (Verb K)} {x : Unit} (h : run none [a] w = .ok x u) :
    goOn run tracer s (a :: script) w = goOn run tracer s script u := by
  have hscript : ((a :: script).forM fun a => run none [a]) w =
      (script.forM fun a => run none [a]) u := bind_of_ok h
  have hattempt : attempt ((a :: script).forM fun a => run none [a]) w =
      attempt (script.forM fun a => run none [a]) u := by
    unfold attempt
    rw [hscript]
  show EStateM.bind _ _ w = EStateM.bind _ _ u
  unfold EStateM.bind
  rw [hattempt]

theorem goOn_of_error {a : Action (Verb K)} {e : Failure} (h : run none [a] w = .error e u) :
    goOn run tracer s (a :: script) w =
      match e with
      | .fault f => (do endRun tracer s (.error f); return .error f : Run K _) u
      | e => .error e u := by
  have hscript : ((a :: script).forM fun a => run none [a]) w = .error e u := bind_of_error h
  cases e with
  | fault f => exact bind_of_ok (attempt_of_fault hscript)
  | _ => exact bind_of_error (attempt_of_breaks hscript rfl)

/-- A worker ends its run while the others wait. -/
theorem Worked.of_goOn {r : Except Fault Unit} (h : goOn run tracer s script w = .ok r u)
    (rest : Worked run tracer u (before ++ ⟨none, ss⟩ :: after) deeds w') :
    ∃ deeds', Worked run tracer w (before ++ ⟨some (s, script), ss⟩ :: after) (deeds' ++ deeds) w' ∧
      results deeds' = [(s, r)] := by
  induction script generalizing w with
  | nil =>
    have hempty : goOn run tracer s [] w =
        (do endRun tracer s (.ok ()); return .ok () : Run K _) w := rfl
    obtain ⟨⟨⟩, v, hend, hv⟩ := ok_of_bind (hempty.symm.trans h)
    cases hv
    exact ⟨[.ended s (.ok ())], .step (.ended hend) rest, rfl⟩
  | cons a script ih =>
    cases hstep : run none [a] w with
    | ok x v =>
      rw [goOn_of_ok hstep] at h
      obtain ⟨deeds', hworked, hresults⟩ := ih h
      exact ⟨.acted s :: deeds', .step (.acted hstep) hworked, hresults⟩
    | error e v =>
      rw [goOn_of_error hstep] at h
      cases e with
      | fault f =>
        obtain ⟨⟨⟩, v', hend, hv⟩ := ok_of_bind h
        cases hv
        exact ⟨[.ended s (.error f)], .step (.failed hstep hend) rest, rfl⟩
      | _ => cases h

/-- A worker that ends its run goes on as one that is at none. -/
theorem Worked.of_current
    (hnext : ∀ {w : World K} {n : Nat}, runAll run tracer ss w = .ok n u → ∃ deeds,
      Worked run tracer w (before ++ ⟨none, ss⟩ :: after) deeds w' ∧ n + m = failures deeds)
    (h : finish run tracer ⟨some (s, script), ss⟩ w = .ok n u) : ∃ deeds,
      Worked run tracer w (before ++ ⟨some (s, script), ss⟩ :: after) deeds w' ∧
        n + m = failures deeds := by
  obtain ⟨r, v, hgoOn, h⟩ := ok_of_bind h
  cases r with
  | ok =>
    obtain ⟨deeds, hworked, hn⟩ := hnext h
    obtain ⟨deeds', hworked', hresults⟩ := hworked.of_goOn hgoOn
    refine ⟨deeds' ++ deeds, hworked', ?_⟩
    rw [failures_append, failures.eq_1 deeds', hresults, hn]
    exact (Nat.zero_add _).symm
  | error f =>
    obtain ⟨n', v', hrest, hv⟩ := ok_of_bind h
    cases hv
    obtain ⟨deeds, hworked, hn⟩ := hnext hrest
    obtain ⟨deeds', hworked', hresults⟩ := hworked.of_goOn hgoOn
    refine ⟨deeds' ++ deeds, hworked', ?_⟩
    rw [failures_append, failures.eq_1 deeds', hresults, Nat.add_right_comm, hn]
    exact Nat.add_comm ..

/-- A worker comes to an end while the others wait. -/
theorem Worked.of_finish (rest : Worked run tracer u (before ++ {} :: after) deeds w')
    (h : finish run tracer shift w = .ok n u) : ∃ deeds',
      Worked run tracer w (before ++ shift :: after) deeds' w' ∧
        n + failures deeds = failures deeds' := by
  have hall : ∀ ss {w : World K} {n : Nat}, runAll run tracer ss w = .ok n u → ∃ deeds',
      Worked run tracer w (before ++ ⟨none, ss⟩ :: after) deeds' w' ∧
        n + failures deeds = failures deeds' := by
    intro ss
    induction ss with
    | nil =>
      intro w n h
      cases h
      exact ⟨deeds, rest, Nat.zero_add _⟩
    | cons s ss ih =>
      intro w n h
      rw [runAll_cons] at h
      obtain ⟨script, v, hstart, hfinish⟩ := ok_of_bind h
      obtain ⟨deeds', hworked, hn⟩ := of_current ih hfinish
      exact ⟨.began s :: deeds', .step (.began hstart) hworked, hn⟩
  obtain ⟨_ | ⟨s, script⟩, ss⟩ := shift
  · exact hall ss h
  · exact of_current (hall ss) h

end Alone

theorem worked_of_finishAll {before : List (Shift K)} (hbefore : ∀ shift ∈ before, shift = {})
    (h : finishAll run tracer shifts w = .ok n w') :
    ∃ deeds, Worked run tracer w (before ++ shifts) deeds w' ∧ n = failures deeds := by
  induction shifts generalizing before w n with
  | nil =>
    cases h
    exact ⟨[], .done (by simpa using hbefore), rfl⟩
  | cons shift shifts ih =>
    obtain ⟨⟨⟩, m, v, n', hfirst, hothers, rfl⟩ := ok_of_amid h
    obtain ⟨m', v', hfinish, hv⟩ := ok_of_bind hfirst
    cases hv
    have hbefore' : ∀ x ∈ before ++ [({} : Shift K)], x = {} := by
      simpa [or_imp, forall_and] using hbefore
    obtain ⟨deeds, hworked, rfl⟩ := ih hbefore' hothers
    rw [List.append_assoc] at hworked
    obtain ⟨deeds', hworked', hn⟩ := Worked.of_finish hworked hfinish
    exact ⟨deeds', hworked', hn⟩

/-- Whosever turn it is, the workers come to an end. -/
theorem worked_of_takeTurns {turns : List Nat} (h : takeTurns run tracer turns shifts w = .ok n w') :
    ∃ deeds, Worked run tracer w shifts deeds w' ∧ n = failures deeds := by
  induction turns generalizing shifts w n with
  | nil => exact worked_of_finishAll (List.forall_mem_nil _) h
  | cons turn turns ih =>
    rw [takeTurns] at h
    cases hshift : shifts[turn]? with
    | none =>
      rw [hshift] at h
      exact ih h
    | some shift =>
      rw [hshift] at h
      obtain ⟨hlt, hget⟩ := List.getElem?_eq_some_iff.mp hshift
      obtain ⟨shift', m, v, n', hmove, hothers, rfl⟩ := ok_of_amid h
      obtain ⟨deeds, hworked, rfl⟩ := ih hothers
      rw [List.set_eq_take_append_cons_drop, if_pos hlt] at hworked
      have hsplit : shifts = shifts.take turn ++ shift :: shifts.drop (turn + 1) := by
        rw [← hget, ← List.drop_eq_getElem_cons hlt, List.take_append_drop]
      rw [hsplit]
      obtain ⟨rfl, rfl, rfl, rfl⟩ | ⟨deed, hstep, rfl⟩ := step_of_move hmove
      · exact ⟨deeds, hworked, Nat.zero_add _⟩
      · exact ⟨deed :: deeds, .step hstep hworked, (failures_append [deed] deeds).symm⟩

end Turns

section Whole

variable {deeds : List Deed} {shares : List (List SystemId)} {logs : List (List Deed)}

/-- Workers that are at no run do all runs of their shares. -/
theorem Worked.exists_runs
    (h : Worked run tracer w (shares.map fun share => { next := share }) deeds w') :
    ∃ logs, List.Forall₂ Runs shares logs ∧ Interleaves logs deeds := by
  obtain ⟨logs, hlogs, hdeeds⟩ := h.exists_logs
  exact ⟨logs, (List.forall₂_map_left_iff.mp hlogs).imp fun _ _ => id, hdeeds⟩

theorem begun_flatten (h : List.Forall₂ Runs shares logs) : begun logs.flatten = shares.flatten := by
  induction h with
  | nil => rfl
  | cons h _ ih =>
    rw [List.flatten_cons, List.flatten_cons, begun, List.filterMap_append, ← begun, ← begun, h.begun_eq,
      ih]

theorem results_flatten (h : List.Forall₂ Runs shares logs) :
    (results logs.flatten).map (·.1) = shares.flatten := by
  induction h with
  | nil => rfl
  | cons h _ ih =>
    rw [List.flatten_cons, List.flatten_cons, results, List.filterMap_append, List.map_append, ← results,
      ← results, h.results_eq, ih]

end Whole

end Run

end EntityStore
