import EntityStore.Proofs.Handle.Releases
import EntityStore.Proofs.Issuer.Fresh
import Mathlib.Data.List.Induction
import Mathlib.Data.List.Pairwise

/-!
# Lives of handles

What becomes of a handle over any requests to the handle table. It lives from the request that added
it to the one that releases it, is of the kind it was added with all the time, and leads to the
target of the last update. A request that fails leaves no trace. That a handle never comes back to
life rests on its identifier not being issued again.
-/
namespace EntityStore

open Issuer (Ledger Kept)

inductive HandleDeed
  | added (id : HandleId) (kind : Nat) (target : Target)
  | updated (id : HandleId) (target : Target)
  | released (id : HandleId)

namespace HandleDeed

variable {deeds : List HandleDeed} {d : HandleDeed} {id : HandleId} {kind : Nat} {target : Target}

def issued? : HandleDeed → Option HandleId
  | added id _ _ => some id
  | _ => none

def target? (id : HandleId) : HandleDeed → Option Target
  | updated x target => if x = id then some target else none
  | _ => none

def signal? : HandleDeed → Option Signal
  | updated id _ => some (.handleUpdated id)
  | _ => none

def returns (n : Nat) : HandleDeed → Bool
  | released id => id.ident.index == n
  | _ => false

/-- The handle was added with the kind and not released since, and the target is the last one it was
updated with, or the one it was added with. -/
def Leads (deeds : List HandleDeed) (id : HandleId) (kind : Nat) (target : Target) : Prop :=
  ∃ before after first, deeds = before ++ added id kind first :: after ∧ released id ∉ after ∧
    (after.filterMap (target? id)).getLastD first = target

theorem not_leads_nil : ¬Leads [] id kind target := by
  rintro ⟨before, after, first, heq, -⟩
  simp at heq

theorem Leads.exists_added (h : Leads deeds id kind target) :
    ∃ first, added id kind first ∈ deeds := by
  obtain ⟨before, after, first, rfl, -⟩ := h
  exact ⟨first, by simp⟩

theorem Leads.mem_issued (h : Leads deeds id kind target) : id ∈ deeds.filterMap issued? := by
  obtain ⟨first, hadded⟩ := h.exists_added
  exact List.mem_filterMap.mpr ⟨_, hadded, rfl⟩

/-- One more deed adds the handle, or leaves it living. -/
theorem leads_append_singleton : Leads (deeds ++ [d]) id kind target ↔
    d = added id kind target ∨
      ∃ t, Leads deeds id kind t ∧ d ≠ released id ∧ (d.target? id).getD t = target := by
  have hlast : ∀ (after : List HandleDeed) (first : Target),
      ((after ++ [d]).filterMap (target? id)).getLastD first =
        (d.target? id).getD ((after.filterMap (target? id)).getLastD first) := fun after first => by
    rw [List.filterMap_append]
    cases hd : d.target? id <;> simp [hd]
  constructor
  · rintro ⟨before, after, first, heq, hnot, htarget⟩
    rcases List.eq_nil_or_concat' after with rfl | ⟨after, a, rfl⟩
    · obtain ⟨-, hd⟩ := List.append_inj' heq rfl
      rw [List.singleton_inj] at hd
      exact .inl (hd.trans (congrArg (added id kind) htarget))
    · rw [← List.cons_append, ← List.append_assoc] at heq
      obtain ⟨rfl, hd⟩ := List.append_inj' heq rfl
      obtain rfl := List.singleton_inj.mp hd
      rw [List.mem_append, not_or, List.mem_singleton] at hnot
      exact .inr ⟨_, ⟨before, after, first, rfl, hnot.1, rfl⟩, Ne.symm hnot.2, hlast .. ▸ htarget⟩
  · rintro (rfl | ⟨t, ⟨before, after, first, rfl, hnot, rfl⟩, hne, htarget⟩)
    · exact ⟨deeds, [], target, rfl, by simp, rfl⟩
    · refine ⟨before, after ++ [d], first, by simp, ?_, (hlast ..).trans htarget⟩
      rw [List.mem_append, not_or, List.mem_singleton]
      exact ⟨hnot, Ne.symm hne⟩

/-- A handle added anew leads to its target, and the others as before. -/
theorem leads_added {x : HandleId} {k : Nat} {t : Target} (hnew : id ∉ deeds.filterMap issued?) :
    Leads (deeds ++ [added id kind target]) x k t ↔
      if x = id then k = kind ∧ t = target else Leads deeds x k t := by
  rw [leads_append_singleton]
  by_cases hx : x = id
  · subst hx
    have hnone : ∀ t, ¬Leads deeds x k t := fun t ht => hnew ht.mem_issued
    simp [hnone, eq_comm]
  · simp [hx, Ne.symm hx, target?]

theorem leads_updated {x : HandleId} {k : Nat} {t : Target} :
    Leads (deeds ++ [updated id target]) x k t ↔
      if x = id then t = target ∧ ∃ t₀, Leads deeds x k t₀ else Leads deeds x k t := by
  rw [leads_append_singleton]
  by_cases hx : x = id
  · subst hx
    simp [target?, eq_comm, and_comm]
  · simp [hx, Ne.symm hx, target?]

theorem leads_released {x : HandleId} {k : Nat} {t : Target} :
    Leads (deeds ++ [released id]) x k t ↔ x ≠ id ∧ Leads deeds x k t := by
  rw [leads_append_singleton]
  simp [target?, eq_comm, and_comm]

end HandleDeed

namespace HandleTable

variable {t : HandleTable} {l : Ledger 32} {id : HandleId} {e : HandleEntry}

/-- A fresh handle is added if there is one. -/
theorem add_eq (h : t.arena.Stocked l) (kind : Nat) (target : Target) :
    t.add kind target = match t.arena.issuer.next? with
      | none => (.error (.fault (.handlesExhausted t.arena.issuer.gauge)), t)
      | some i => (.ok ⟨i⟩, ⟨t.arena.stored i ⟨kind, target⟩⟩) := by
  unfold add
  rw [h.insert_eq]
  cases t.arena.issuer.next? <;> rfl

theorem release_of_entry? (h : t.arena.Stocked l) (he : t.entry? id = some e) :
    t.release id = (.ok e.target, t.without id) := by
  obtain ⟨slot, -, hremove, -⟩ := h.remove_eq he
  unfold release
  rw [hremove]
  rfl

theorem release_of_none (h : t.arena.Stocked l) (he : t.entry? id = none) :
    t.release id = (.error (.fault (.deadHandle id)), t) := by
  unfold release
  rw [h.remove_of_none he]

theorem releaseNotices_of_none (h : t.arena.Stocked l) (he : t.entry? id = none) :
    t.releaseNotices id = [] := by
  have hslot : t.arena.slotOf? id.ident = none := h.sound.slotOf?_eq_none he
  simp [releaseNotices, Arena.removeNotices, hslot, release_of_none h he]

theorem addNotices_of_none (h : t.arena.Stocked l) (kind : Nat)
    (hnone : t.arena.issuer.next? = none) : t.addNotices kind = [] := by
  have hrecycled : t.arena.issuer.recycled? = none := by
    cases hr : t.arena.issuer.recycled? with
    | none => rfl
    | some i => simp [Issuer.next?, hr] at hnone
  simp [addNotices, Arena.insertNotices, Issuer.issueNotices, hrecycled, add_eq h, hnone]

theorem resolve_eq_ok_iff {kind : Nat} {target : Target} :
    t.resolve id kind = .ok target ↔ t.entry? id = some ⟨kind, target⟩ := by
  unfold resolve
  cases t.entry? id with
  | none => simp
  | some e =>
    obtain ⟨k, x⟩ := e
    by_cases hk : k = kind <;> simp [hk]

/-- A lookup that fails says that the handle is dead, whatever is wrong with it. -/
theorem resolve_cases (t : HandleTable) (id : HandleId) (kind : Nat) :
    (∃ target, t.resolve id kind = .ok target) ∨ t.resolve id kind = .error (.deadHandle id) := by
  unfold resolve
  split
  · split
    · exact .inl ⟨_, rfl⟩
    · exact .inr rfl
  · exact .inr rfl

theorem resolve_error {kind : Nat} (h : ∀ target, t.entry? id ≠ some ⟨kind, target⟩) :
    t.resolve id kind = .error (.deadHandle id) :=
  (t.resolve_cases id kind).resolve_left fun ⟨target, hr⟩ =>
    h target (resolve_eq_ok_iff.mp hr)

end HandleTable

structure HandleRun where
  table : HandleTable := {}
  /-- What the requests have changed, in order. -/
  deeds : List HandleDeed := []
  /-- What observers have been told, in order. -/
  signals : List Signal := []

namespace HandleRun

open HandleDeed

/-- What a request has changed, judged by its answer. -/
def deed? : HandleRequest → Except Failure HandleAnswer → Option HandleDeed
  | .add kind target, .ok (.handle id) => some (.added id kind target)
  | .update id _ target, .ok _ => some (.updated id target)
  | .release id, .ok _ => some (.released id)
  | _, _ => none

def after (s : HandleRun) (q : HandleRequest) : HandleRun :=
  let effect := s.table.serve q
  { table := effect.table
    deeds := s.deeds ++ (deed? q effect.answer).toList
    signals := s.signals ++ effect.signal.toList }

def run (qs : List HandleRequest) : HandleRun := qs.foldl after {}

/-- No index has been released so often that its generation has come around. -/
def Unworn (s : HandleRun) : Prop := ∀ n, s.deeds.countP (returns n) < Issuer.mostReturns

variable {s : HandleRun} {l : Ledger 32} {q : HandleRequest} {id : HandleId} {kind : Nat}
  {target : Target}

/-- The table is what has become of the handles, and the account of its identifiers is kept. -/
structure Accounted (s : HandleRun) (l : Ledger 32) : Prop where
  stocked : s.table.arena.Stocked l
  kept : Kept l
  count_eq : ∀ n, l.returned.count n = s.deeds.countP (returns n)
  handed_eq : l.handed = ((s.deeds.filterMap issued?).map (·.ident)).reverse
  entry?_iff : ∀ id kind target,
    s.table.entry? id = some ⟨kind, target⟩ ↔ Leads s.deeds id kind target
  signals_eq : s.signals = s.deeds.filterMap signal?

namespace Accounted

theorem start : Accounted {} {} :=
  ⟨.empty, .empty, by simp, rfl, fun id kind target => ⟨nofun, fun h => absurd h not_leads_nil⟩, rfl⟩

/-- A request that has changed nothing. -/
theorem same (h : s.Accounted l) (htable : (s.table.serve q).table = s.table)
    (hdeed : deed? q (s.table.serve q).answer = none)
    (hsignal : (s.table.serve q).signal = none) : (s.after q).Accounted l := by
  have hafter : s.after q = s := by
    simp [after, htable, hdeed, hsignal]
  rwa [hafter]

theorem added {i : Ident 32} (h : s.Accounted l) (hi : s.table.arena.issuer.next? = some i) :
    Accounted ⟨⟨s.table.arena.stored i ⟨kind, target⟩⟩, s.deeds ++ [.added ⟨i⟩ kind target],
      s.signals⟩ (l.issued i) := by
  have hi' : l.issuer.next? = some i := h.stocked.issuer_eq ▸ hi
  have hnew : ⟨i⟩ ∉ s.deeds.filterMap issued? := fun hin => by
    refine h.kept.not_handed_of_next? hi' ?_
    rw [h.handed_eq, List.mem_reverse]
    exact List.mem_map_of_mem hin
  refine ⟨h.stocked.stored hi _, h.kept.issued hi', fun n => ?_, ?_, fun x k t => ?_, ?_⟩
  · simpa [Ledger.issued, HandleDeed.returns] using h.count_eq n
  · simp [Ledger.issued, h.handed_eq, issued?]
  · rw [leads_added hnew]
    show (s.table.arena.stored i ⟨kind, target⟩).get? x.ident = _ ↔ _
    rw [h.stocked.get?_stored hi, Function.update_apply]
    by_cases hx : x = ⟨i⟩
    · rw [if_pos (congrArg HandleId.ident hx), if_pos hx]
      simp [eq_comm]
    · rw [if_neg fun he => hx (congrArg HandleId.mk he), if_neg hx]
      exact h.entry?_iff x k t
  · simpa [signal?, List.filterMap_cons] using h.signals_eq

theorem updated {previous : Target} (h : s.Accounted l)
    (hp : s.table.entry? id = some ⟨kind, previous⟩) :
    Accounted ⟨⟨s.table.arena.modify id.ident fun e => { e with target }⟩,
      s.deeds ++ [.updated id target], s.signals ++ [.handleUpdated id]⟩ l := by
  refine ⟨h.stocked.modify _ _, h.kept, fun n => ?_, ?_, fun x k t => ?_, ?_⟩
  · simpa [HandleDeed.returns] using h.count_eq n
  · simpa [issued?, List.filterMap_cons] using h.handed_eq
  · rw [leads_updated]
    show (s.table.arena.modify id.ident _).get? x.ident = _ ↔ _
    rw [h.stocked.get?_modify]
    by_cases hx : x = id
    · subst hx
      have hget : s.table.arena.get? x.ident = some ⟨kind, previous⟩ := hp
      have hkind : (∃ t₀, Leads s.deeds x k t₀) ↔ kind = k := by
        refine ⟨fun ⟨t₀, ht⟩ => ?_, fun hk => ⟨previous, (h.entry?_iff ..).mp (hk ▸ hp)⟩⟩
        have := hp.symm.trans ((h.entry?_iff ..).mpr ht)
        simp_all
      simp [hget, hkind, and_comm, eq_comm]
    · rw [if_neg fun he => hx ?_, if_neg hx]
      · exact h.entry?_iff x k t
      · cases x
        cases id
        exact congrArg HandleId.mk he
  · simp [signal?, h.signals_eq]

theorem released {e : HandleEntry} (h : s.Accounted l) (he : s.table.entry? id = some e)
    (hb : (s.deeds ++ [HandleDeed.released id]).countP (returns id.ident.index) < Issuer.mostReturns) :
    Accounted ⟨s.table.without id, s.deeds ++ [.released id], s.signals⟩
      (l.tookBack id.ident) := by
  have hout : id.ident ∈ l.out := (h.stocked.out_iff _).mpr (Option.isSome_iff_exists.mpr ⟨e, he⟩)
  refine ⟨h.stocked.without he, h.kept.tookBack hout ?_, fun n => ?_, ?_, fun x k t => ?_, ?_⟩
  · simpa [h.count_eq, HandleDeed.returns] using hb
  · simp [Ledger.tookBack, List.count_cons, h.count_eq, HandleDeed.returns, List.countP_cons]
  · simpa [Ledger.tookBack, issued?, List.filterMap_cons] using h.handed_eq
  · rw [leads_released, HandleTable.Sound.entry?_without ⟨l, h.stocked⟩]
    by_cases hx : x = id
    · simp [hx]
    · simpa [hx] using h.entry?_iff x k t
  · simpa [signal?, List.filterMap_cons] using h.signals_eq

/-- A request leaves the table accounted for, unless it is one release too many. -/
theorem after (h : s.Accounted l) (q : HandleRequest) (hw : (s.after q).Unworn) :
    ∃ l', (s.after q).Accounted l' := by
  cases q with
  | add kind target =>
    have hadd := HandleTable.add_eq h.stocked kind target
    cases hi : s.table.arena.issuer.next? with
    | none =>
      rw [hi] at hadd
      exact ⟨l, h.same (by simp [HandleTable.serve, hadd])
        (by simp [HandleTable.serve, hadd, deed?, Except.map]) rfl⟩
    | some i =>
      rw [hi] at hadd
      refine ⟨l.issued i, ?_⟩
      have hafter : s.after (.add kind target) = ⟨⟨s.table.arena.stored i ⟨kind, target⟩⟩,
          s.deeds ++ [.added ⟨i⟩ kind target], s.signals⟩ := by
        simp [HandleRun.after, HandleTable.serve, hadd, deed?, Except.map]
      rw [hafter]
      exact h.added hi
  | update id kind target =>
    rcases s.table.resolve_cases id kind with ⟨previous, hr⟩ | hr
    · have hafter : s.after (.update id kind target) =
          ⟨⟨s.table.arena.modify id.ident fun e => { e with target }⟩,
            s.deeds ++ [.updated id target], s.signals ++ [.handleUpdated id]⟩ := by
        simp [HandleRun.after, HandleTable.serve, HandleTable.update, hr, deed?]
      rw [hafter]
      exact ⟨l, h.updated (HandleTable.resolve_eq_ok_iff.mp hr)⟩
    · exact ⟨l, h.same (by simp [HandleTable.serve, HandleTable.update, hr])
        (by simp [HandleTable.serve, HandleTable.update, hr, deed?])
        (by simp [HandleTable.serve, HandleTable.update, hr])⟩
  | release id =>
    cases he : s.table.entry? id with
    | none =>
      have hrelease := HandleTable.release_of_none h.stocked he
      exact ⟨l, h.same (by simp [HandleTable.serve, hrelease])
        (by simp [HandleTable.serve, hrelease, deed?, Except.map]) rfl⟩
    | some e =>
      have hrelease := HandleTable.release_of_entry? h.stocked he
      have hafter : s.after (.release id) =
          ⟨s.table.without id, s.deeds ++ [.released id], s.signals⟩ := by
        simp [HandleRun.after, HandleTable.serve, hrelease, deed?, Except.map]
      rw [hafter] at hw ⊢
      exact ⟨_, h.released he (hw _)⟩
  | _ => exact ⟨l, h.same rfl rfl rfl⟩

end Accounted

theorem run_append_singleton (qs : List HandleRequest) (q : HandleRequest) :
    run (qs ++ [q]) = (run qs).after q := by
  simp [run]

theorem deeds_prefix_run (past rest : List HandleRequest) :
    (run past).deeds <+: (run (past ++ rest)).deeds := by
  induction rest using List.reverseRecOn with
  | nil => simp
  | append_singleton rest q ih =>
    rw [← List.append_assoc, run_append_singleton]
    exact ih.trans (List.prefix_append _ _)

theorem Unworn.of_prefix {s' : HandleRun} (h : s'.Unworn) (hp : s.deeds <+: s'.deeds) :
    s.Unworn := by
  intro n
  obtain ⟨rest, hrest⟩ := hp
  have := h n
  rw [← hrest, List.countP_append] at this
  omega

/-- What has become of the handles over any requests. -/
theorem accounted_run (qs : List HandleRequest) (h : (run qs).Unworn) :
    ∃ l, (run qs).Accounted l := by
  induction qs using List.reverseRecOn with
  | nil => exact ⟨_, .start⟩
  | append_singleton qs q ih =>
    obtain ⟨l, hl⟩ := ih (h.of_prefix (deeds_prefix_run qs [q]))
    rw [run_append_singleton] at h ⊢
    exact hl.after q h

/-- The requests are answered by what has become of the handles. -/
structure Honest (s : HandleRun) : Prop where
  resolve_iff : ∀ id kind target,
    s.table.resolve id kind = .ok target ↔ Leads s.deeds id kind target
  resolve_dead : ∀ id kind, (∀ target, ¬Leads s.deeds id kind target) →
    s.table.resolve id kind = .error (.deadHandle id)
  resolveAs_iff : ∀ id kind type target, s.table.resolveAs id kind type = .ok target ↔
    Leads s.deeds id kind target ∧ target.type = type
  resolveAs_dead : ∀ id kind type,
    (∀ target, Leads s.deeds id kind target → target.type ≠ type) →
    s.table.resolveAs id kind type = .error (.deadHandle id)
  /-- A handle of another kind counts as dead. -/
  update_dead : ∀ id kind target, (∀ previous, ¬Leads s.deeds id kind previous) →
    (s.table.serve (.update id kind target)).answer = .error (.fault (.deadHandle id))
  update_live : ∀ id kind target previous, Leads s.deeds id kind previous →
    (s.table.serve (.update id kind target)).answer = .ok (.target previous) ∧
      (s.table.serve (.update id kind target)).signal = some (.handleUpdated id)
  release_dead : ∀ id, (∀ kind target, ¬Leads s.deeds id kind target) →
    (s.table.serve (.release id)).answer = .error (.fault (.deadHandle id))
  release_live : ∀ id kind target, Leads s.deeds id kind target →
    (s.table.serve (.release id)).answer = .ok (.target target)
  kindOf_iff : ∀ id kind, s.table.kindOf? id = some kind ↔ ∃ target, Leads s.deeds id kind target
  contains_iff : ∀ id, s.table.contains id = true ↔ ∃ kind target, Leads s.deeds id kind target
  /-- A request that fails leaves no trace. -/
  failed : ∀ q f, (s.table.serve q).answer = .error f →
    s.table.serve q = { answer := .error f, table := s.table }
  /-- No handle is issued twice. -/
  issued_nodup : (s.deeds.filterMap issued?).Nodup
  /-- Observers are told of the updates that succeeded, one by one in order. -/
  signals_eq : s.signals = s.deeds.filterMap signal?

namespace Accounted

theorem serve_failed (h : s.Accounted l) {f : Failure} (hf : (s.table.serve q).answer = .error f) :
    s.table.serve q = { answer := .error f, table := s.table } := by
  cases q with
  | add kind target =>
    have hadd := HandleTable.add_eq h.stocked kind target
    cases hi : s.table.arena.issuer.next? with
    | none =>
      have hnotices := HandleTable.addNotices_of_none h.stocked kind hi
      simp_all [HandleTable.serve, Except.map]
    | some i => simp_all [HandleTable.serve, Except.map]
  | update id kind target =>
    rcases s.table.resolve_cases id kind with ⟨previous, hr⟩ | hr <;>
      simp_all [HandleTable.serve, HandleTable.update]
  | release id =>
    cases he : s.table.entry? id with
    | none =>
      have hrelease := HandleTable.release_of_none h.stocked he
      have hnotices := HandleTable.releaseNotices_of_none h.stocked he
      simp_all [HandleTable.serve, Except.map]
    | some e =>
      have hrelease := HandleTable.release_of_entry? h.stocked he
      simp_all [HandleTable.serve, Except.map]
  | resolve | resolveAs => simp_all [HandleTable.serve]
  | kindOf | contains | count => cases hf

theorem resolve_iff (h : s.Accounted l) :
    s.table.resolve id kind = .ok target ↔ Leads s.deeds id kind target :=
  HandleTable.resolve_eq_ok_iff.trans (h.entry?_iff id kind target)

theorem resolve_dead (h : s.Accounted l) (hdead : ∀ target, ¬Leads s.deeds id kind target) :
    s.table.resolve id kind = .error (.deadHandle id) :=
  HandleTable.resolve_error fun target he => hdead target ((h.entry?_iff ..).mp he)

theorem entry?_dead (h : s.Accounted l) (hdead : ∀ kind target, ¬Leads s.deeds id kind target) :
    s.table.entry? id = none := by
  by_contra hne
  obtain ⟨⟨kind, target⟩, he⟩ := Option.ne_none_iff_exists'.mp hne
  exact hdead kind target ((h.entry?_iff ..).mp he)

theorem honest (h : s.Accounted l) : s.Honest where
  resolve_iff id kind target := h.resolve_iff
  resolve_dead id kind := h.resolve_dead
  resolveAs_iff id kind type target := by
    rw [← h.resolve_iff, HandleTable.resolveAs]
    rcases s.table.resolve_cases id kind with ⟨t, hr⟩ | hr
    · by_cases ht : t.type = type
      · simp only [hr, ht, if_true, Except.ok.injEq]
        exact ⟨fun he => ⟨he, he ▸ ht⟩, fun he => he.1⟩
      · simp only [hr, ht, if_false, reduceCtorEq, Except.ok.injEq, false_iff]
        exact fun he => ht (he.1 ▸ he.2)
    · simp [hr]
  resolveAs_dead id kind type hdead := by
    rw [HandleTable.resolveAs]
    rcases s.table.resolve_cases id kind with ⟨t, hr⟩ | hr
    · simp [hr, hdead t (h.resolve_iff.mp hr)]
    · simp [hr]
  update_dead id kind target hdead := by
    simp [HandleTable.serve, HandleTable.update, h.resolve_dead hdead]
  update_live id kind target previous hp := by
    simp [HandleTable.serve, HandleTable.update, h.resolve_iff.mpr hp]
  release_dead id hdead := by
    simp [HandleTable.serve, HandleTable.release_of_none h.stocked (h.entry?_dead hdead),
      Except.map]
  release_live id kind target hl := by
    have he := (h.entry?_iff ..).mpr hl
    simp [HandleTable.serve, HandleTable.release_of_entry? h.stocked he, Except.map]
  kindOf_iff id kind := by
    simp only [← h.entry?_iff, HandleTable.kindOf?, Option.map_eq_some_iff]
    constructor
    · rintro ⟨⟨k, target⟩, he, rfl⟩
      exact ⟨target, he⟩
    · rintro ⟨target, he⟩
      exact ⟨_, he, rfl⟩
  contains_iff id := by
    have hc : s.table.contains id = (s.table.entry? id).isSome := h.stocked.contains_eq id.ident
    simp only [hc, ← h.entry?_iff, Option.isSome_iff_exists]
    constructor
    · rintro ⟨⟨kind, target⟩, he⟩
      exact ⟨kind, target, he⟩
    · rintro ⟨kind, target, he⟩
      exact ⟨_, he⟩
  failed q f hf := h.serve_failed hf
  issued_nodup := by
    have hnodup := h.kept.handed_nodup
    rw [h.handed_eq, List.nodup_reverse] at hnodup
    exact hnodup.of_map _
  signals_eq := h.signals_eq

end Accounted

/-- A handle is of one kind as long as it is told of: the one it was added with. -/
theorem kind_kept {deeds past : List HandleDeed} {k : Nat} {t : Target}
    (hnodup : (deeds.filterMap issued?).Nodup) (hp : past <+: deeds)
    (h : Leads past id k t) (h' : Leads deeds id kind target) : k = kind := by
  obtain ⟨first, hadded⟩ := h.exists_added
  obtain ⟨first', hadded'⟩ := h'.exists_added
  have hsymm : Std.Symm fun a b : HandleDeed =>
      ∀ x, a.issued? = some x → ∀ y, b.issued? = some y → x ≠ y :=
    ⟨fun _ _ hab y hb x ha => (hab x ha y hb).symm⟩
  by_contra hk
  have hne : HandleDeed.added id k first ≠ .added id kind first' :=
    fun he => hk (HandleDeed.added.inj he).2.1
  exact (List.pairwise_filterMap.mp hnodup).forall (hp.subset hadded) hadded' hne id rfl id rfl rfl

/-- Over any requests that wear out no index, a handle leads to what it was last given from when it
was added until it is released, and always under one kind. -/
theorem honest_run (qs : List HandleRequest) (h : (run qs).Unworn) :
    (run qs).Honest ∧ ∀ past, past <+: qs → ∀ id k kind t target,
      Leads (run past).deeds id k t → Leads (run qs).deeds id kind target → k = kind := by
  obtain ⟨l, hl⟩ := accounted_run qs h
  refine ⟨hl.honest, ?_⟩
  rintro past ⟨rest, rfl⟩ id k kind t target hpast hnow
  exact kind_kept hl.honest.issued_nodup (deeds_prefix_run past rest) hpast hnow

/-- A handle is added, updated and released, and another one is added under its index. -/
theorem honest_run_recycled :
    let first : HandleId := ⟨⟨0, .first, by decide⟩⟩
    let second : HandleId := ⟨⟨0, Generation.first.next, by decide⟩⟩
    let qs : List HandleRequest := [.add 1 (.word 7), .update first 1 (.word 8), .release first,
      .add 2 (.word 9)]
    (run qs).Unworn ∧ Leads (run qs).deeds second 2 (.word 9) ∧
      (run qs).table.resolve first 1 = .error (.deadHandle first) ∧
      (run qs).signals = [.handleUpdated first] := by
  intro first second qs
  have hunworn : (run qs).Unworn := fun n => Nat.lt_of_le_of_lt List.countP_le_length (by decide)
  have h := (honest_run qs hunworn).1
  refine ⟨hunworn, (h.resolve_iff second 2 (.word 9)).mp rfl, ?_, h.signals_eq⟩
  refine h.resolve_dead first 1 fun target hl => ?_
  have hr := (h.resolve_iff first 1 target).mpr hl
  cases hr

end HandleRun

end EntityStore
