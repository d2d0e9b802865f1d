import EntityStore.Proofs.World.Creations
import EntityStore.Sample

/-!
# Deferring agrees with doing

What is queued between two verbs and then committed comes to the same as what is done at once: first the
destructions and then the creations, each in the order in which they were queued, however they were
queued among each other.
-/
namespace EntityStore

open Run (bind_of_ok ok_of_bind)
open World (Twins)

variable {K : Type} [Schema K] [DecidableEq K] {w : World K} {x : Office K}

omit [DecidableEq K] in
theorem Office.roster_withoutAll (x : Office K) (ds : List Destruction) :
    (x.withoutAll ds).roster.destructions = x.roster.destructions ∧
      (x.withoutAll ds).roster.creations = x.roster.creations := by
  induction ds generalizing x with
  | nil => exact ⟨rfl, rfl⟩
  | cons d ds ih => exact ih (x.without d.entity)

omit [DecidableEq K] in
/-- With no destruction left only creations are still to come. -/
theorem Office.pending_nil (h : x.roster.destructions = []) (cs : List (Creation K)) :
    x.pending [] cs = x.ordered cs := by
  rw [Office.pending, Roster.pending_nil, ← h]
  rfl

namespace Run

/-- Destroys some entities, and then creates others, each of them at once. -/
def doAtOnce (run : Runner K) (asked : List (Destruction ⊕ Creation K)) : Run K Unit := do
  (destructionsOf asked).forM fun d => destroy run d.entity d.notify
  (creationsOf asked).forM fun c => do
    let _ ← create run c.archetype c.init

/-- Queues what is asked for, then commits the destructions and the creations, and gives their
numbers. -/
def doLater (run : Runner K) (turns : Nat) (asked : List (Destruction ⊕ Creation K)) :
    Run K (Nat × Nat) := do
  asked.forM enqueue
  let destroyed ← commitDestructions run turns 0
  let created ← commitCreations run turns 0
  return (destroyed, created)

def yields {α : Type} (test : α → World K → Bool) : EStateM.Result Failure (World K) α → Bool
  | .ok a w => test a w
  | .error .. => false

omit [DecidableEq K] in
theorem exists_of_yields {α : Type} {test : α → World K → Bool}
    {r : EStateM.Result Failure (World K) α} (h : yields test r = true) :
    ∃ a w, r = .ok a w ∧ test a w = true := by
  cases r with
  | ok a w => exact ⟨a, w, rfl, h⟩
  | error => cases h

end Run

namespace World

omit [DecidableEq K] in
theorem onlyRecords_of_spent (h : w.observers.all (·.left == 0) = true) : w.OnlyRecords :=
  fun o ho => .inl (by simpa using List.all_eq_true.mp h o ho)

/-- An entity that an observer has broken off the destruction of can be destroyed at once, but cannot be
queued. -/
theorem broken_off_not_queued :
    let _ := Sample.schema ""
    let e : Entity := ⟨⟨0, ⟨1⟩, by decide⟩⟩
    ∃ w v v' : World Sample.Kind, w.Reached ∧ w.OnlyRecords ∧ w.roster.destructions = [] ∧
      w.roster.creations = [] ∧ w.isLive e = true ∧
      Run.doAtOnce (Run.runScript 1) [.inl ⟨e, false⟩] w = .ok () v ∧ v.isLive e = false ∧
      Run.doLater (Run.runScript 1) 2 [.inl ⟨e, false⟩] w = .ok (0, 0) v' ∧ v'.isLive e = true := by
  intro _ e
  obtain ⟨w, h, hspent, hdestructions, hcreations, hlive, hdirect, hlater⟩ :
      ∃ w : World Sample.Kind, w.Reached ∧ w.observers.all (·.left == 0) = true ∧
        w.roster.destructions = [] ∧ w.roster.creations = [] ∧ w.isLive e = true ∧
        Run.yields (fun _ v => !v.isLive e)
          (Run.doAtOnce (Run.runScript 1) [.inl ⟨e, false⟩] w) = true ∧
        Run.yields (fun counts v => counts == (0, 0) && v.isLive e)
          (Run.doLater (Run.runScript 1) 2 [.inl ⟨e, false⟩] w) = true := by
    have h : Reached ({} : World Sample.Kind) := .start {} []
    have h := h.next 1 1 (.registerComponent .pos)
    have h := h.next 1 1 (.registerArchetype 1 "point" [⟨.pos, ⟨0, 0⟩⟩])
    have h := h.next 1 1 (.create 1 [])
    have h := h.next 1 1
      (.subscribe "watch" 1 [(.entityDestroyed, [⟨"table", .table .pos .nest, false⟩])])
    have h := h.next 1 1 (.queueDestruction (.known e) true)
    have h := h.next 1 2 .commitDestructions
    exact ⟨_, h, by decide +kernel, by decide +kernel, by decide +kernel, by decide +kernel,
      by decide +kernel, by decide +kernel⟩
  obtain ⟨_, v, hv, hgone⟩ := Run.exists_of_yields hdirect
  obtain ⟨counts, v', hv', hleft⟩ := Run.exists_of_yields hlater
  simp only [Bool.and_eq_true, beq_iff_eq] at hleft
  obtain ⟨rfl, hleft⟩ := hleft
  exact ⟨w, v, v', h, onlyRecords_of_spent hspent, hdestructions, hcreations, hlive, hv,
    by simpa using hgone, hv', hleft⟩

/-- A creation whose default a table refuses lets the next one be if it is asked for at once, but not if
both are queued. -/
theorem refused_creation_blocks :
    let _ := Sample.schema ""
    ∃ (w v v' : World Sample.Kind) (x : Entity) (f : Failure), w.Reached ∧ w.OnlyRecords ∧
      w.roster.destructions = [] ∧ w.roster.creations = [] ∧ w.archetypes.contains 1 = true ∧
      w.archetypes.contains 2 = true ∧ w.components.contains .pos = true ∧
      (Run.attempt (Run.create (Run.runScript 1) 1 []) >>= fun _ =>
        Run.create (Run.runScript 1) 2 []) w = .ok x v ∧ v.population = 1 ∧
      Run.doLater (Run.runScript 1) 3 [.inr ⟨1, []⟩, .inr ⟨2, []⟩] w = .error f v' ∧
      v'.population = 0 := by
  intro _
  obtain ⟨w, h, hspent, hdestructions, hcreations, hfirst, hsecond, hpos, hdirect, hlater⟩ :
      ∃ w : World Sample.Kind, w.Reached ∧ w.observers.all (·.left == 0) = true ∧
        w.roster.destructions = [] ∧ w.roster.creations = [] ∧ w.archetypes.contains 1 = true ∧
        w.archetypes.contains 2 = true ∧ w.components.contains .pos = true ∧
        Run.yields (fun _ v => v.population == 1)
          ((Run.attempt (Run.create (Run.runScript 1) 1 []) >>= fun _ =>
            Run.create (Run.runScript 1) 2 []) w) = true ∧
        (match Run.doLater (Run.runScript 1) 3 [.inr ⟨1, []⟩, .inr ⟨2, []⟩] w with
          | .ok .. => false
          | .error _ v => v.population == 0) = true := by
    have h : Reached ({} : World Sample.Kind) := .start {} []
    have h := h.next 1 1 (.registerComponent .pos)
    have h := h.next 1 1 (.registerArchetype 1 "point" [⟨.pos, ⟨0, 0⟩⟩])
    have h := h.next 1 1 (.registerArchetype 2 "unit" [])
    -- a record of an entity that could only come later
    have h := h.next 1 1 (.table .pos (.populate (.known ⟨⟨0, ⟨5⟩, by decide⟩⟩) ⟨0, 0⟩))
    exact ⟨_, h, by decide +kernel, by decide +kernel, by decide +kernel, by decide +kernel,
      by decide +kernel, by decide +kernel, by decide +kernel, by decide +kernel⟩
  obtain ⟨x, v, hv, hone⟩ := Run.exists_of_yields hdirect
  cases hv' : Run.doLater (Run.runScript 1) 3 [.inr ⟨1, []⟩, .inr ⟨2, []⟩] w with
  | ok counts v' => simp [hv'] at hlater
  | error f v' =>
    rw [hv'] at hlater
    exact ⟨w, v, v', x, f, h, onlyRecords_of_spent hspent, hdestructions, hcreations, hfirst,
      hsecond, hpos, hv, by simpa using hone, hv', by simpa using hlater⟩

end World

end EntityStore
