import EntityStore.Proofs.World.Deferral
import EntityStore.Proofs.World.Destroy

/-!
# How many entities live

If no script that is run meanwhile changes how many entities live, committing destructions leaves as
many entities less as it says, and committing creations as many more.
-/
namespace EntityStore

open Run (left bind_of_ok bind_of_error Candid Keeps)

variable {K : Type} [Schema K] [DecidableEq K] {w w' : World K} {e : Entity}

namespace Run

/-- As many entities live as before. -/
abbrev Level (_ : Bool) (w w' : World K) : Prop := w'.population = w.population

/-- By what does not concern entities none comes or goes. -/
theorem candid_level : Candid (K := K) (fun _ _ => True) Level where
  weaken h := h
  trans h h' := h'.trans h
  beside h := congrArg (·.arena.size) h.roster_eq
  fired _ _ h _ := congrArg (·.arena.size) h.roster_eq

/-- Runs scripts, but is stuck at one that would leave more or fewer entities alive than it found. -/
def sparing (run : Runner K) : Runner K := fun self script w =>
  if (left (run self script w)).population = w.population then run self script w
  else .error .stuck w

theorem keeps_sparing {run : Runner K}
    (hrun : ∀ self script, Keeps (fun _ _ _ => True) (run self script)) (self : Option Entity)
    (script : Script K) : Keeps Level (sparing run self script) := by
  intro w hw
  unfold sparing
  split
  · next hlevel => exact ⟨(hrun self script w hw).fit, (hrun self script w hw).locks, hlevel⟩
  · exact .stay candid_level.toMild hw rfl

section Cautious

variable {σ α β : Type}

/-- The second operation does what the first one does, unless it is stuck. -/
def Cautious (op op' : EStateM Failure σ α) : Prop :=
  ∀ s, op' s = op s ∨ ∃ s', op' s = .error .stuck s'

namespace Cautious

theorem refl (op : EStateM Failure σ α) : Cautious op op := fun _ => .inl rfl

theorem bind {op op' : EStateM Failure σ α} {f f' : α → EStateM Failure σ β}
    (h : Cautious op op') (hf : ∀ a, Cautious (f a) (f' a)) :
    Cautious (op >>= f) (op' >>= f') := by
  intro s
  obtain heq | ⟨s', hstuck⟩ := h s
  · cases hr : op s with
    | ok a t =>
      rw [bind_of_ok (heq.trans hr), bind_of_ok hr]
      exact hf a t
    | error e t => exact .inl ((bind_of_error (heq.trans hr)).trans (bind_of_error hr).symm)
  · exact .inr ⟨s', bind_of_error hstuck⟩

/-- What is done after knowing the state, or after changing it. -/
theorem after {op : EStateM Failure σ α} {f f' : α → EStateM Failure σ β}
    (hf : ∀ a, Cautious (f a) (f' a)) : Cautious (op >>= f) (op >>= f') := (refl op).bind hf

section Worlds

omit [DecidableEq K]

theorem attempt {body body' : Run K α} (h : Cautious body body') :
    Cautious (Run.attempt body) (Run.attempt body') := by
  intro w
  obtain heq | ⟨w', hstuck⟩ := h w
  · exact .inl (by simp only [Run.attempt, heq])
  · exact .inr ⟨w', by simp only [Run.attempt, hstuck]⟩

theorem lift {body body' : Run K α} (h : Cautious body body') :
    Cautious (LockedRun.lift body) (LockedRun.lift body') := by
  intro s
  obtain heq | ⟨w', hstuck⟩ := h s.2
  · exact .inl (by simp only [LockedRun.lift, heq])
  · exact .inr ⟨(s.1, w'), by simp only [LockedRun.lift, hstuck]⟩

theorem ensuring {body body' : LockedRun K α} (h : Cautious body body')
    (after : LockedRun K Unit) :
    Cautious (LockedRun.ensuring body after) (LockedRun.ensuring body' after) := by
  intro s
  obtain heq | ⟨s', hstuck⟩ := h s
  · exact .inl (by simp only [LockedRun.ensuring, heq])
  · right
    simp only [LockedRun.ensuring, hstuck]
    cases after s' <;> exact ⟨_, rfl⟩

theorem withAllTables {body body' : LockedRun K α} (h : Cautious body body') :
    Cautious (Run.withAllTables body) (Run.withAllTables body') := by
  intro w
  have hwhole : Cautious
      (LockedRun.call (·.enterAll) >>= fun _ => body.ensuring (LockedRun.call (·.release)))
      (LockedRun.call (·.enterAll) >>= fun _ => body'.ensuring (LockedRun.call (·.release))) :=
    after fun _ => h.ensuring _
  obtain heq | ⟨s', hstuck⟩ := hwhole (w.tableGroup, w)
  · exact .inl (by simp only [Run.withAllTables, heq])
  · exact .inr ⟨s'.2, by simp only [Run.withAllTables, hstuck]⟩

end Worlds

end Cautious

omit [DecidableEq K] in
theorem cautious_sparing (run : Runner K) (self : Option Entity) (script : Script K) :
    Cautious (run self script) (sparing run self script) := by
  intro w
  unfold sparing
  split
  · exact .inl rfl
  · exact .inr ⟨w, rfl⟩

variable {run run' : Runner K} (hrun : ∀ self script, Cautious (run self script) (run' self script))

include hrun

omit [DecidableEq K] in
theorem cautious_fire (s : Signal) : Cautious (fire run s) (fire run' s) := by
  have htell : ∀ observer, Cautious (tell run s observer) (tell run' s observer) := by
    refine fun observer => .after fun w => ?_
    cases w.observers[observer]? with
    | none => exact .refl _
    | some o =>
      refine .after fun _ => ?_
      split
      · exact .refl _
      · exact .refl _
      · split
        · exact .refl _
        · exact .after fun _ => (hrun _ _).attempt.bind fun _ => .refl _
  have hfrom : ∀ count first, Cautious (tellFrom run s count first) (tellFrom run' s count first) := by
    intro count
    induction count with
    | zero => exact fun _ => .refl _
    | succ count ih => exact fun first => (htell first).bind fun _ => ih (first + 1)
  exact .after fun _ => .after fun w => hfrom _ 0

theorem cautious_destroy (e : Entity) (notify : Bool) :
    Cautious (destroy run e notify) (destroy run' e notify) := by
  rw [destroy_eq, destroy_eq]
  refine .after fun w => ?_
  split
  · split
    · exact (cautious_fire hrun _).bind fun _ => .refl _
    · exact .refl _
  · exact .refl _

theorem cautious_commitDestructions (turns count : Nat) :
    Cautious (commitDestructions run turns count) (commitDestructions run' turns count) := by
  induction turns generalizing count with
  | zero => exact .refl _
  | succ turns ih =>
    refine .after fun w => ?_
    cases w.roster.destructions with
    | nil => exact .refl _
    | cons d ds =>
      refine .after fun _ => ?_
      split
      · exact .after fun _ => ih count
      · refine (cautious_destroy hrun d.entity d.notify).attempt.bind fun r => ?_
        cases r with
        | ok => exact ih (count + 1)
        | error f => exact .refl _

theorem cautious_commitCreation (c : Creation K) :
    Cautious (commitCreation run c) (commitCreation run' c) := by
  refine .after fun a => .after fun _ => .after fun e => ?_
  refine Cautious.bind (.attempt (.withAllTables (.lift (.after fun _ => hrun _ _)))) fun r => ?_
  cases r with
  | ok => exact cautious_fire hrun _
  | error f => exact .refl _

theorem cautious_commitCreations (turns count : Nat) :
    Cautious (commitCreations run turns count) (commitCreations run' turns count) := by
  induction turns generalizing count with
  | zero => exact .refl _
  | succ turns ih =>
    refine .after fun w => ?_
    cases w.roster.creations with
    | nil => exact .refl _
    | cons c cs => exact .after fun _ => (cautious_commitCreation hrun c).bind fun _ => ih (count + 1)

end Cautious

section Commits

variable {run : Runner K} (hrun : ∀ self script, Keeps Level (run self script))

include hrun

/-- Who is destroyed is one less. -/
theorem population_of_destroy {notify : Bool} (hw : w.Fit)
    (h : destroy run e notify w = .ok () w') : w'.Fit ∧ w'.population + 1 = w.population := by
  have hfire := candid_level.keeps_fire hrun (.entityDestroyed e) rfl
  obtain ⟨v, hv, hsame, he, hrazed⟩ := razed_of_destroy candid_level.toMild hfire hw h
  rw [← hsame]
  exact ⟨hrazed.fit, hrazed.population_eq hv he⟩

/-- Committing destructions leaves so many entities less. -/
theorem population_of_commitDestructions {turns count m : Nat} (hw : w.Fit)
    (h : commitDestructions run turns count w = .ok m w') :
    w'.Fit ∧ w'.population + m = w.population + count := by
  induction turns generalizing w count with
  | zero => cases h
  | succ turns ih =>
    cases hd : w.roster.destructions with
    | nil =>
      rw [commitDestructions_nil hd] at h
      split at h <;> cases h <;> exact ⟨hw.congr rfl rfl rfl rfl, rfl⟩
    | cons d ds =>
      have hqueued : (w.queued ds).population = w.population := rfl
      cases hlive : w.isLive d.entity with
      | false =>
        rw [commitDestructions_of_dead hd hlive] at h
        obtain ⟨⟨⟩, v, hnote, h⟩ := ok_of_bind h
        have hkeeps : Keeps Level (note (.skippedFreed d.entity) : Run K Unit) :=
          keeps_note candid_level.toMild rfl
        obtain ⟨hv, hsame⟩ := (hkeeps _ (hw.queued ds)).of_ok hnote
        obtain ⟨hw', hcount⟩ := ih hv h
        exact ⟨hw', by rw [hcount, hsame, hqueued]⟩
      | true =>
        cases hr : destroy run d.entity d.notify (w.queued ds) with
        | ok u v =>
          rw [commitDestructions_of_ok hd hlive hr] at h
          obtain ⟨hv, hless⟩ := population_of_destroy hrun (hw.queued ds) hr
          obtain ⟨hw', hcount⟩ := ih hv h
          exact ⟨hw', by omega⟩
        | error f v =>
          rw [commitDestructions_of_error hd hlive hr] at h
          cases h

/-- Who is created is one more. -/
theorem population_of_commitCreation {c : Creation K} (hw : w.Fit)
    (h : commitCreation run c w = .ok () w') :
    w'.Fit ∧ w'.population = w.population + 1 := by
  have hI := candid_level.toMild (K := K)
  obtain ⟨a, w₁, harchetype, h⟩ := ok_of_bind h
  obtain ⟨hfit₁, hsame₁⟩ := (keeps_archetype hI _ w hw).of_ok harchetype
  obtain ⟨⟨⟩, w₂, hprepare, h⟩ := ok_of_bind h
  obtain ⟨hfit₂, hsame₂⟩ := (keeps_prepare hI _ w₁ hfit₁).of_ok hprepare
  obtain ⟨e, w₃, henrol, h⟩ := ok_of_bind h
  obtain ⟨hfit₃, hmore⟩ : w₃.Fit ∧ w₃.population = w₂.population + 1 := by
    obtain ⟨e', info, v, hok, -, -, hturned, hfit, -⟩ | ⟨f, v, herr, -⟩ :=
      enrol_cases hfit₂ c.archetype
    · rw [hok] at henrol
      cases henrol
      refine ⟨hfit, ?_⟩
      rw [World.population, hturned.roster_eq]
      exact Arena.Stocked.size_stored ..
    · rw [herr] at henrol
      cases henrol
  obtain ⟨r, w₄, hattempt, h⟩ := ok_of_bind h
  obtain ⟨hfit₄, hsame₄⟩ : w₄.Fit ∧ Level false w₃ w₄ := by
    obtain ⟨-, hunder, -⟩ := hfit₃.taken
    exact (passes_withAllTables hI hfit₃ (LockedRun.passes_lift hunder
      (passes_populate hrun hI hunder.fit trivial a c.init))).attempt.of_ok hattempt
  cases r with
  | error f =>
    obtain ⟨⟨⟩, v, -, hv⟩ := ok_of_bind h
    cases hv
  | ok =>
    obtain ⟨hfit, hsame⟩ :=
      (candid_level.keeps_fire hrun (.entityCreated e) rfl w₄ hfit₄).of_ok h
    refine ⟨hfit, ?_⟩
    calc w'.population = w₄.population := hsame
      _ = w₃.population := hsame₄
      _ = w₂.population + 1 := hmore
      _ = w₁.population + 1 := by rw [hsame₂]
      _ = w.population + 1 := by rw [hsame₁]

/-- Committing creations leaves so many entities more. -/
theorem population_of_commitCreations {turns count m : Nat} (hw : w.Fit)
    (h : commitCreations run turns count w = .ok m w') :
    w'.Fit ∧ w'.population + count = w.population + m := by
  induction turns generalizing w count with
  | zero => cases h
  | succ turns ih =>
    rw [commitCreations, get_bind] at h
    cases hc : w.roster.creations with
    | nil =>
      rw [hc] at h
      dsimp only at h
      split at h <;> cases h <;> exact ⟨hw.congr rfl rfl rfl rfl, rfl⟩
    | cons c cs =>
      rw [hc] at h
      let v : World K := { w with roster := { w.roster with creations := cs } }
      have hv : v.Fit := hw.congr rfl rfl rfl rfl
      have hsame : v.population = w.population := rfl
      have h' : (commitCreation run c >>= fun _ => commitCreations run turns (count + 1)) v =
          .ok m w' := h
      obtain ⟨⟨⟩, u, hcreate, h⟩ := ok_of_bind h'
      obtain ⟨hu, hmore⟩ := population_of_commitCreation hrun hv hcreate
      obtain ⟨hw', hcount⟩ := ih hu h
      exact ⟨hw', by omega⟩

end Commits

end Run

end EntityStore
