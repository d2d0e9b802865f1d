import EntityStore.Handle.Request
import EntityStore.Proofs.Arena.Stocked

/-!
# Releasing handles

What becomes of the handle table when the handles of a record are released: exactly those are gone,
whichever of them were live, and nothing is written but what stores write of themselves.
-/
namespace EntityStore

/-- A notice that a store writes of itself, and nothing that concerns its world. -/
def Notice.isLocal : Notice → Bool
  | .reissued .. | .removed .. | .handleAdded .. | .handleReleased .. | .cannotRelease ..
  | .rejectedStale .. | .evictedStale .. | .snapshotInUse .. | .orderedFallback ..
  | .contended .. => true
  | _ => false

theorem Arena.isLocal_removeNotices {bits : Nat} {α : Type} (a : Arena bits α) (i : Ident bits) :
    ∀ n ∈ a.removeNotices i, n.isLocal = true := by
  unfold removeNotices
  split
  · split <;> simp [Notice.isLocal]
  · simp

theorem Arena.isLocal_insertNotices {bits : Nat} {α : Type} (a : Arena bits α) :
    ∀ n ∈ a.insertNotices, n.isLocal = true := by
  unfold insertNotices Issuer.issueNotices
  split <;> simp [Notice.isLocal]

namespace HandleTable

variable {t : HandleTable}

def without (t : HandleTable) (id : HandleId) : HandleTable := ⟨t.arena.without id.ident⟩

def withoutAll (t : HandleTable) (ids : List HandleId) : HandleTable := ids.foldl without t

@[simp] theorem withoutAll_nil (t : HandleTable) : t.withoutAll [] = t := rfl

theorem withoutAll_append (t : HandleTable) (ids ids' : List HandleId) :
    t.withoutAll (ids ++ ids') = (t.withoutAll ids).withoutAll ids' := List.foldl_append

theorem release_snd (t : HandleTable) (id : HandleId) : (t.release id).2 = t.without id := by
  unfold release without Arena.without
  split <;> simp_all

theorem isLocal_releaseNotices (t : HandleTable) (id : HandleId) :
    ∀ n ∈ t.releaseNotices id, n.isLocal = true := by
  intro n hn
  rcases List.mem_append.mp hn with hn | hn
  · exact Arena.isLocal_removeNotices _ _ n hn
  · split at hn
    · rw [List.mem_singleton.mp hn]
      rfl
    · cases hn

theorem releaseOwned_snd (owner : Owner) (table : String) (ids : List HandleId) (t : HandleTable) :
    (releaseOwned owner table ids t).2 = t.withoutAll ids := by
  induction ids generalizing t with
  | nil => rfl
  | cons id ids ih =>
    rw [releaseOwned, withoutAll, List.foldl_cons, ← release_snd]
    exact ih _

theorem isLocal_releaseOwned (owner : Owner) (table : String) (ids : List HandleId)
    (t : HandleTable) : ∀ n ∈ (releaseOwned owner table ids t).1, n.isLocal = true := by
  induction ids generalizing t with
  | nil => simp
  | cons id ids ih =>
    intro n hn
    rw [releaseOwned] at hn
    rcases List.mem_append.mp hn with hn | hn
    · have hlocal := isLocal_releaseNotices t id n
      cases hr : (t.release id).1 with
      | ok => exact hlocal (by simpa [hr] using hn)
      | error f =>
        cases f with
        | fault f =>
          rw [hr] at hn
          rcases List.mem_append.mp hn with hn | hn
          · exact hlocal hn
          · rw [List.mem_singleton.mp hn]
            rfl
        | _ => exact hlocal (by simpa [hr] using hn)
    · exact ih _ n hn

/-- Every identifier of the table that is outside is a live handle. -/
def Sound (t : HandleTable) : Prop := ∃ l, t.arena.Stocked l

theorem sound_empty : ({} : HandleTable).Sound := ⟨_, .empty⟩

namespace Sound

theorem without (h : t.Sound) (id : HandleId) : (t.without id).Sound := by
  obtain ⟨l, h⟩ := h
  cases hv : t.arena.get? id.ident with
  | none =>
    refine ⟨l, ?_⟩
    rw [HandleTable.without, h.without_of_none hv]
    exact h
  | some e => exact ⟨_, h.without hv⟩

theorem entry?_without (h : t.Sound) (id x : HandleId) :
    HandleTable.entry? (t.without id) x = if x = id then none else t.entry? x := by
  obtain ⟨l, h⟩ := h
  show (t.arena.without id.ident).get? x.ident = _
  rw [h.get?_without, Function.update_apply]
  by_cases hx : x = id
  · rw [if_pos hx, if_pos (congrArg HandleId.ident hx)]
  · rw [if_neg hx, if_neg fun he => hx ?_]
    · rfl
    · cases x
      cases id
      exact congrArg HandleId.mk he

theorem withoutAll (h : t.Sound) (ids : List HandleId) : (t.withoutAll ids).Sound := by
  induction ids generalizing t with
  | nil => exact h
  | cons id ids ih => exact ih (h.without id)

/-- The handles released are gone, and all others as they were. -/
theorem entry?_withoutAll (h : t.Sound) (ids : List HandleId) (x : HandleId) :
    HandleTable.entry? (t.withoutAll ids) x = if x ∈ ids then none else t.entry? x := by
  induction ids generalizing t with
  | nil => simp
  | cons id ids ih =>
    rw [HandleTable.withoutAll, List.foldl_cons]
    refine (ih (h.without id)).trans ?_
    rw [h.entry?_without]
    by_cases hx : x = id <;> simp [hx]

/-- A request leaves the table sound. -/
theorem serve (h : t.Sound) (q : HandleRequest) : (t.serve q).table.Sound := by
  cases q with
  | add kind target =>
    obtain ⟨l, h⟩ := h
    have hadd : (t.add kind target).2 = ⟨(t.arena.insert ⟨kind, target⟩).2⟩ := by
      unfold add
      split <;> simp_all
    show Sound (t.add kind target).2
    rw [hadd, h.insert_eq]
    cases hi : t.arena.issuer.next? with
    | none => exact ⟨l, h⟩
    | some i => exact ⟨_, h.stored hi _⟩
  | update id kind target =>
    simp only [HandleTable.serve]
    split
    · next previous t' hu =>
      obtain ⟨l, h'⟩ := h
      unfold update at hu
      split at hu
      · cases hu
        exact ⟨l, h'.modify _ _⟩
      · cases hu
    · exact h
  | release id =>
    show Sound (t.release id).2
    rw [release_snd]
    exact h.without id
  | _ => exact h

end Sound

/-- What a request to the table writes. -/
theorem isLocal_serve (t : HandleTable) (q : HandleRequest) :
    ∀ n ∈ (t.serve q).notices, n.isLocal = true := by
  cases q with
  | add kind target =>
    intro n hn
    rcases List.mem_append.mp hn with hn | hn
    · exact Arena.isLocal_insertNotices _ n hn
    · split at hn
      · rw [List.mem_singleton.mp hn]
        rfl
      · cases hn
  | update id kind target =>
    simp only [serve]
    split <;> simp
  | release id => exact isLocal_releaseNotices t id
  | _ => simp [serve]

end HandleTable

end EntityStore
