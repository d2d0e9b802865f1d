import EntityStore.Proofs.World.Charted
import EntityStore.Proofs.World.Issued
import EntityStore.Proofs.World.Making
import EntityStore.Sample

/-!
# Undoing a creation

A creation that fails after its entity was minted is undone by the way in which any entity is destroyed,
over all tables, without regard to how far it had come. What is left of it is a used-up generation, and
that older entities of the index may have lost records for which it took the place.
-/
namespace EntityStore

open Run (left attempt_of_ok bind_of_ok)
open World (Lodged Razed Owes)

variable {K : Type} [Schema K] [DecidableEq K] {w m u : World K} {e : Entity} {id : ArchetypeId}
variable {gone : List ((k : K) × Schema.Row k)} {new : List (Creation K)}

namespace World

/-- The entity that is minted next does not live yet. -/
theorem Fit.info?_of_next? (hw : w.Fit) (hi : w.roster.arena.issuer.next? = some e.ident) :
    w.info? e = none := by
  obtain ⟨l, hl⟩ := hw.roster
  have hcell := (Packed.cell_eq_none_iff hl.sound e.ident).mpr (hl.isFree_of_next? hi)
  show w.roster.arena.store.get? e.ident = none
  rw [Packed.get?_eq hl.sound, hcell]
  rfl

/-- The index of who has left is the one that is issued next. -/
theorem Razed.next?_eq {es : List (Event K)} (hw : w.Fit) (he : w.isLive e = true)
    (h : Razed e es w u) :
    ∃ i, u.roster.arena.issuer.next? = some i ∧ i.index = e.ident.index := by
  obtain ⟨l, hl⟩ := hw.roster
  obtain ⟨info, hinfo⟩ := hw.exists_info? he
  obtain ⟨slot, -, -, hwithout⟩ := hl.remove_eq hinfo
  rw [h.roster_eq]
  show ∃ i, (w.roster.arena.without e.ident).issuer.next? = some i ∧ _
  rw [hwithout]
  exact ⟨_, rfl, rfl⟩

/-- The creation of an entity has been undone, after certain of its records had been lost and others
were left, and after certain creations had been queued. -/
structure Retracted (e : Entity) (id : ArchetypeId) (gone : List ((k : K) × Schema.Row k))
    (new : List (Creation K)) (w m u : World K) : Prop where
  fit : u.Fit
  info?_eq : ∀ x, u.info? x = w.info? x
  isLive_eq : ∀ x, u.isLive x = w.isLive x
  destructions_eq : u.roster.destructions = w.roster.destructions
  creations_eq : u.roster.creations = w.roster.creations ++ new
  /-- No signal has been given. -/
  told : Told [.notice (.minted e id), .notice (.destroyed e)] w u
  record?_self : ∀ k, u.record? k e = none
  record?_eq : ∀ k x, Keyed.index x ≠ Keyed.index e → u.record? k x = w.record? k x
  /-- Who had a record at the index may have lost it. -/
  others : ∀ k x, x ≠ e → u.record? k x = w.record? k x ∨ u.record? k x = none
  /-- The handles of all records that are gone are released: of those that the entity had left, of those
  that it had lost, and of those of others. -/
  handles : w.handles.Frees (fun i => (∃ k r, m.record? k e = some r ∧ i ∈ (Record.owned r).ids) ∨
    Owes e gone w u i) u.handles
  next?_eq : ∃ i, u.roster.arena.issuer.next? = some i ∧ i.index = e.ident.index

/-- Who was minted and made up, and is then razed, has left nothing behind. -/
theorem Lodged.retracted (hw : w.Fit) (hi : w.roster.arena.issuer.next? = some e.ident)
    (h : Lodged e gone new (w.minted id e) m) (hrazed : Razed e [.notice (.destroyed e)] m u) :
    Retracted e id gone new w m u := by
  have hturned := w.turned_minted id e
  have hlive : m.isLive e = true := by
    rw [h.fit.isLive_eq, h.info?_eq, hturned.info?_of_enrolled hw hi, if_pos rfl]
    rfl
  have hinfo : ∀ x, u.info? x = w.info? x := fun x => by
    rw [hrazed.info?_eq h.fit, h.info?_eq, hturned.info?_of_enrolled hw hi]
    split
    · next hx => rw [hx, hw.info?_of_next? hi]
    · rfl
  have hothers : ∀ k x, x ≠ e → u.record? k x = m.record? k x := fun k x hx => by
    rw [hrazed.record?_eq, if_neg hx]
  have howes : ∀ i, Owes e gone (w.minted id e) m i ↔ Owes e gone w u i := fun i => by
    refine or_congr Iff.rfl (exists_congr fun k => exists_congr fun x => exists_congr fun r =>
      and_congr_right fun hx => ?_)
    rw [hturned.record?_eq, hothers k x hx]
  refine ⟨hrazed.fit, hinfo, fun x => ?_, ?_, ?_, ?_, fun k => ?_, fun k x hx => ?_, fun k x hx => ?_,
    ?_, hrazed.next?_eq h.fit hlive⟩
  · rw [hrazed.fit.isLive_eq, hinfo, ← hw.isLive_eq]
  · rw [hrazed.roster_eq]
    exact h.destructions_eq
  · rw [hrazed.roster_eq]
    exact h.creations_eq
  · exact (hturned.told.trans h.aside.told).trans hrazed.told
  · rw [hrazed.record?_eq, if_pos rfl]
  · have hne : x ≠ e := fun hxe => hx (congrArg Keyed.index hxe)
    rw [hothers k x hne, h.record?_eq hx, hturned.record?_eq]
  · rw [hothers k x hx, ← hturned.record?_eq]
    exact (h.others k x hx).imp_right And.right
  · obtain ⟨ids, heq, hids⟩ := hrazed.handles_eq
    refine (h.handles.trans (.of_withoutAll h.fit.handles heq hids)).congr fun i => ?_
    rw [howes, or_comm]

end World

namespace Run

variable {run : Runner K} {init : Script K} {a : Archetype K} {n : Nat} {f : Fault}

/-- Who lives is razed to undo its creation, whoever observes. -/
theorem rollBack_of_live (run : Runner K) (hw : w.Fit) (hlent : ∀ l, (w.bank.get l).lent = false)
    (he : w.isLive e = true) : ∃ u, rollBack run e w = .ok () u ∧
      World.Razed e [.notice (.destroyed e)] w u := by
  have hraze : destroy run e false w = raze e w := by
    rw [destroy_eq, get_bind, he]
    rfl
  rcases raze_cases hw e with ⟨u, hok, -, hrazed⟩ | ⟨f, u, -, -, -, -, hdead | ⟨-, k, d, hd, hlends⟩⟩
  · refine ⟨u, ?_, hrazed⟩
    rw [rollBack, bind_of_ok (attempt_of_ok (hraze.trans hok))]
    rfl
  · rw [he] at hdead
    cases hdead
  · rw [hlent] at hlends
    cases hlends

omit [DecidableEq K] in
theorem archetype_of_find? (ha : w.archetypes.find? id = some a) : archetype id w = .ok a w := by
  rw [archetype, get_bind, ha]
  rfl

/-- Who could not be made up is razed. -/
theorem conclude_of_unmade (run : Runner K) {body : Run K Unit} (hlent : ∀ l, (w.bank.get l).lent = false)
    (h : Lodged e gone new w m) (he : w.isLive e = true) (hm : body w = .error (.fault f) m) :
    ∃ u, conclude run e body w = .error (.fault f) u ∧
      World.Razed e [.notice (.destroyed e)] m u := by
  obtain ⟨u, hback, hrazed⟩ := rollBack_of_live run h.fit (h.not_lendsOut hlent)
    ((h.isLive_eq e).trans he)
  exact ⟨u, (conclude_of_fault hm).trans (undo_of_ok hback), hrazed⟩

section Signals

omit [DecidableEq K]

theorem faultless_tell (s : Signal) (observer : Nat) : Faultless (tell run s observer) := by
  refine faultless_get.bind fun v => ?_
  split
  · exact faultless_pure ()
  · refine (faultless_modify _).bind fun _ => ?_
    split
    · exact faultless_pure ()
    · exact faultless_pure ()
    · split
      · exact faultless_pure ()
      · exact (faultless_modify _).bind fun _ =>
          (faultless_attempt _).bind fun _ => faultless_pure ()

theorem faultless_tellFrom (s : Signal) (count first : Nat) :
    Faultless (tellFrom run s count first) := by
  induction count generalizing first with
  | zero => exact faultless_pure ()
  | succ count ih => exact (faultless_tell s first).bind fun _ => ih (first + 1)

/-- The fault of an observer's script is not one of the signal. -/
theorem faultless_fire (s : Signal) : Faultless (fire run s) :=
  (faultless_modify _).bind fun _ => faultless_get.bind fun v =>
    faultless_tellFrom s v.observers.length 0

end Signals

section Create

variable (hw : w.Fit) (hlent : ∀ l, (w.bank.get l).lent = false)
variable (ha : w.archetypes.find? id = some a) (hi : w.roster.arena.issuer.next? = some e.ident)
variable (hinit : ∀ x ∈ init, x.verb.Minds)
include ha hi hw

/-- An entity of an archetype that is known is minted, if there is an identifier left, and made up. -/
theorem create_of_next? (init : Script K) : create run id init w =
    (conclude run e (populate run a e init) >>= fun _ => pure e) (w.minted id e) := by
  rw [create_eq, bind_of_ok (archetype_of_find? ha), bring, bind_of_ok (enrol_of_some hw id hi)]

include hlent hinit

/-- An entity that cannot be made up is abandoned. -/
theorem create_of_unmade {g : Failure}
    (hm : populate (runScript (n + 1)) a e init (w.minted id e) = .error g m) :
    ∃ f u, g = .fault f ∧ create (runScript (n + 1)) id init w = .error (.fault f) u ∧
      World.Retracted e id (forfeits n a e init (w.minted id e)) [] w m u := by
  have hfit := hw.minted id hi
  have hlodges := lodges_populate (e := e) n a (fun x hx => .minds (hinit x hx)) hfit
  have hnone : (undertaken n a e init (w.minted id e)).orders = [] :=
    Script.orders_of_minds fun x hx => hinit x ((prefix_undertaken n a e init _).subset hx)
  rw [hm, hnone] at hlodges
  have hlodged : Lodged e _ [] (w.minted id e) m := hlodges.lodged
  cases g with
  | fault f =>
    obtain ⟨u, hundone, hrazed⟩ := conclude_of_unmade (w := w.minted id e) (runScript (n + 1)) hlent
      hlodged (isLive_of_enrol hw (enrol_of_some hw id hi)) hm
    refine ⟨f, u, rfl, ?_, hlodged.retracted hw hi hrazed⟩
    rw [create_of_next? hw ha hi, bind_of_error hundone]
  | _ => cases hlodges.unbroken hlent

/-- A creation fails because its entity could not be made up. -/
theorem unmade_of_create (h : create (runScript (n + 1)) id init w = .error (.fault f) u) :
    ∃ m, populate (runScript (n + 1)) a e init (w.minted id e) = .error (.fault f) m ∧
      World.Retracted e id (forfeits n a e init (w.minted id e)) [] w m u := by
  cases hm : populate (runScript (n + 1)) a e init (w.minted id e) with
  | ok x m =>
    rw [create_of_next? hw ha hi] at h
    rcases error_of_bind h with hfire | ⟨_, _, -, hpure⟩
    · cases faultless_fire _ _ _ _ ((conclude_of_ok hm).symm.trans hfire)
    · cases hpure
  | error g m =>
    obtain ⟨f', u', rfl, hcreate, hretracted⟩ := create_of_unmade hw hlent ha hi hinit hm
    cases h.symm.trans hcreate
    exact ⟨m, rfl, hretracted⟩

end Create

omit [DecidableEq K]

def fails {α : Type} (test : Fault → World K → Bool) : EStateM.Result Failure (World K) α → Bool
  | .error (.fault f) w => test f w
  | _ => false

theorem exists_of_fails {α : Type} {test : Fault → World K → Bool}
    {r : EStateM.Result Failure (World K) α} (h : fails test r = true) :
    ∃ f w, r = .error (.fault f) w ∧ test f w = true := by
  cases r with
  | ok => cases h
  | error g w =>
    cases g with
    | fault f => exact ⟨f, w, rfl, h⟩
    | _ => cases h

end Run

namespace World

open Run (create populate runScript forfeits)

/-- In every world that verbs have led to, a creation whose default records and initialisation keep to
the entity fails exactly if these do, and with their fault, at whatever point that was. Then the same
entities live as before, with the same bookkeeping, and the queues are as before; no signal was given; the
abandoned entity has no records; those of other indices are as before; and of the handles just those are
gone that were owned by its records, still there or lost before, or by records of others that have made
room for them. The abandoned entity never lives again, and nobody is minted as it again, while no
generation comes around; its index is the next one issued. -/
theorem undoing_restores {init : Script K} {a : Archetype K} (hw : w.Reached)
    (ha : w.archetypes.find? id = some a) (hi : w.roster.arena.issuer.next? = some e.ident)
    (hinit : ∀ x ∈ init, x.verb.Minds) (n : Nat) :
    (∀ g m, populate (runScript (n + 1)) a e init (w.minted id e) = .error g m →
      ∃ f u, g = .fault f ∧ create (runScript (n + 1)) id init w = .error (.fault f) u) ∧
    ∀ f u, create (runScript (n + 1)) id init w = .error (.fault f) u →
      ∃ m, populate (runScript (n + 1)) a e init (w.minted id e) = .error (.fault f) m ∧
        Retracted e id (forfeits n a e init (w.minted id e)) [] w m u ∧
        ∀ v, u.Leads v → v.Unworn → v.isLive e = false ∧ v.issued.count e = 1 := by
  obtain ⟨hfit, hlent⟩ := hw.atRest
  constructor
  · intro g m hm
    obtain ⟨f, u, hg, hcreate, -⟩ := Run.create_of_unmade hfit hlent ha hi hinit hm
    exact ⟨f, u, hg, hcreate⟩
  · intro f u hcreate
    obtain ⟨m, hm, hretracted⟩ := Run.unmade_of_create hfit hlent ha hi hinit hcreate
    refine ⟨m, hm, hretracted, fun v hleads hu => ?_⟩
    have hu' : u.Reached := by
      have hnext := hw.next (n + 1) 0 (.create id init)
      rwa [Run.perform, Run.left_bind_pure, hcreate] at hnext
    have hissued : e ∈ u.issued := by
      rw [hretracted.told.issued_eq]
      exact List.mem_append_right _ List.mem_cons_self
    have hdead : u.isLive e = false := by
      rw [hretracted.isLive_eq, hfit.isLive_eq, hfit.info?_of_next? hi]
      rfl
    have hlater : e ∈ v.issued := (hleads.tallies hu').issued_le.subset hissued
    exact ⟨hleads.dead hu' hu hissued hdead,
      List.count_eq_one_of_mem ((hleads.reached hu').tallied hu).nodup hlater⟩

/-- An initialisation destroys the default record of its entity, places another one, and fails. The place
was taken by the record of an entity destroyed before. A handle is gone with each of the three records,
and the next entity has the index. -/
theorem undoing_restores_evicted :
    let _ := Sample.schema ""
    let old : Entity := ⟨⟨0, ⟨1⟩, by decide⟩⟩
    let e : Entity := ⟨⟨0, ⟨2⟩, by decide⟩⟩
    let next : Entity := ⟨⟨0, ⟨3⟩, by decide⟩⟩
    let handle (i : Fin 4) : HandleId := ⟨⟨i, ⟨1⟩, i.isLt.trans (by decide)⟩⟩
    let sprite (i : Fin 4) : Schema.Row Sample.Kind.sprite := ⟨handle i, none, 0⟩
    let init : Script Sample.Kind := [⟨"destroy", .table .sprite (.destroy .itself), false⟩,
      ⟨"populate", .table .sprite (.populate .itself (sprite 2)), false⟩,
      ⟨"fail", .fail (.systemNotFound ""), false⟩]
    ∃ w u v : World Sample.Kind, w.Reached ∧ (w.record? .sprite old).isSome = true ∧
      create (runScript 2) 1 init w = .error (.fault (.systemNotFound "")) u ∧
      (∀ k, u.record? k e = none) ∧ u.record? .sprite old = none ∧
      (u.record? .marker old).isSome = true ∧ u.isLive old = w.isLive old ∧
      (∀ i, (w.handles.entry? (handle i)).isSome = true) ∧
      (∀ i, (u.handles.entry? (handle i)).isSome = true ↔ i = 3) ∧
      u.Leads v ∧ v.isLive next = true ∧ v.isLive e = false ∧ v.issued.count e = 1 := by
  intro _ old e next handle sprite init
  obtain ⟨w, h, hold, hfound, hnext, hhandles, hresult⟩ :
      ∃ w : World Sample.Kind, w.Reached ∧ (w.record? .sprite old).isSome = true ∧
        (w.archetypes.find? 1).isSome = true ∧ w.roster.arena.issuer.next? = some e.ident ∧
        (∀ i, (w.handles.entry? (handle i)).isSome = true) ∧
        Run.fails (fun f u =>
          decide (f = .systemNotFound "") && (u.record? .sprite old).isNone &&
            (u.record? .marker old).isSome &&
            decide (∀ i, (u.handles.entry? (handle i)).isSome = true ↔ i = 3) &&
            (let v := left (Run.perform (runScript 1) 0 none (.create 0 []) u)
            v.isLive next && decide (v.events.size < Issuer.mostReturns)))
          (create (runScript 2) 1 init w) = true := by
    have h : Reached ({} : World Sample.Kind) := .start {} []
    have h := h.next 1 1 (.registerComponent .sprite)
    have h := h.next 1 1 (.registerComponent .marker)
    have h := h.next 1 1 (.registerArchetype 0 "unit" [])
    have h := h.next 1 1 (.registerArchetype 1 "sprite" [⟨.sprite, sprite 1⟩])
    have h := h.next 1 1 (.handle (.add 0 .unit) true)
    have h := h.next 1 1 (.handle (.add 0 .unit) true)
    have h := h.next 1 1 (.handle (.add 0 .unit) true)
    have h := h.next 1 1 (.handle (.add 0 .unit) true)
    have h := h.next 1 1 (.create 0 [])
    have h := h.next 1 1 (.destroy (.known old) true)
    have h := h.next 1 1 (.table .sprite (.populate (.known old) (sprite 0)))
    have h := h.next 1 1 (.table .marker (.populate (.known old) ()))
    exact ⟨_, h, by decide +kernel, by decide +kernel, by decide +kernel, by decide +kernel,
      by decide +kernel⟩
  obtain ⟨a, ha⟩ := Option.isSome_iff_exists.mp hfound
  have hminds : ∀ x ∈ init, x.verb.Minds := by
    intro x hx
    simp only [init, List.mem_cons, List.not_mem_nil, or_false] at hx
    obtain rfl | rfl | rfl := hx
    · exact .table _ .destroy
    · exact .table _ (.populate _)
    · exact .fail _
  obtain ⟨-, hundone⟩ := undoing_restores h ha hnext hminds 1
  obtain ⟨f, u, hcreate, hleft⟩ := Run.exists_of_fails hresult
  simp only [Bool.and_eq_true, decide_eq_true_eq, Option.isNone_iff_eq_none] at hleft
  obtain ⟨⟨⟨⟨rfl, hevicted⟩, hstays⟩, hreleased⟩, hlives, hsize⟩ := hleft
  obtain ⟨m, -, hretracted, hlater⟩ := hundone _ u hcreate
  have hleads := (Leads.refl u).next 1 0 (.create 0 [])
  obtain ⟨hdead, hcount⟩ := hlater _ hleads (unworn_of_size hsize)
  exact ⟨w, u, _, h, hold, hcreate, hretracted.record?_self, hevicted, hstays,
    hretracted.isLive_eq old, hhandles, hreleased, hleads, hlives, hdead, hcount⟩

end World

end EntityStore
