import EntityStore.Proofs.Lock.Confine

/-!
# Calls on a group

A group is told which of its locks to leave and which to enter. Each call has one outcome, however
other threads come between: which locks the group holds then, and so how deep its thread is in them,
is known from what it held before. On the way the call enters and leaves certain locks only.
-/
namespace EntityStore.LockGroup

open Routine

inductive Change
  | leaveOnly (locks : List Nat)
  | enterOnly (locks : List Nat)
  | release
  | enterAll
  | endWindow
  deriving DecidableEq

namespace Change

def call (g : LockGroup) : Change → Call
  | leaveOnly locks => g.leaveOnly locks
  | enterOnly locks => g.enterOnly locks
  | release => g.release
  | enterAll => g.enterAll
  | endWindow => g.endWindow

/-- Whether the group holds a lock after the call. -/
def holds (g : LockGroup) (l : Nat) : Change → Bool
  | leaveOnly locks => g.holds l && l ∉ locks
  | enterOnly locks => g.holds l || (l ∈ locks && g.controls l)
  | release => false
  | enterAll | endWindow => g.controls l

def enters (g : LockGroup) (l : Nat) : Change → Bool
  | leaveOnly _ | release => false
  | enterOnly locks => g.controls l && (enterOnly locks).holds g l
  | enterAll | endWindow => g.controls l

def leaves (g : LockGroup) (l : Nat) : Change → Bool
  | leaveOnly locks => g.holds l && l ∈ locks
  | release => g.holds l
  | enterOnly locks => g.controls l && (enterOnly locks).holds g l
  | enterAll | endWindow => g.controls l

def marks (m : Member) : Change → Bool
  | leaveOnly locks => m.held && m.lock ∉ locks
  | enterOnly locks => m.held || (m.lock ∈ locks && m.controlled)
  | release => false
  | enterAll | endWindow => m.controlled

def result (c : Change) (g : LockGroup) : LockGroup :=
  ⟨g.members.map fun m => { m with held := c.marks m }⟩

end Change

variable {n l : Nat} {base : Nat → Nat} {g : LockGroup} {m : Member} {ls : List Nat}

theorem lock_of_find? (h : g.find? l = some m) : m.lock = l := by
  simpa using List.find?_some h

theorem Formed.find?_eq (h : Formed n g.members) (hm : m ∈ g.members) :
    g.find? m.lock = some m := by
  rw [find?]
  cases hf : g.members.find? (·.lock = m.lock) with
  | none => simpa using List.find?_eq_none.mp hf m hm
  | some k =>
    rw [h.eq_of_lock_eq (List.mem_of_find?_eq_some hf) hm (by simpa using List.find?_some hf)]

theorem Formed.holds_eq (h : Formed n g.members) (hm : m ∈ g.members) :
    g.holds m.lock = m.held := by
  simp [holds, h.find?_eq hm]

theorem Formed.controls_eq (h : Formed n g.members) (hm : m ∈ g.members) :
    g.controls m.lock = m.controlled := by
  simp [controls, h.find?_eq hm]

theorem Formed.controls_of_holds (h : Formed n g.members) (hl : g.holds l = true) :
    g.controls l = true := by
  obtain ⟨m, hm, hheld⟩ := Option.any_eq_true _ _ |>.mp hl
  exact (Option.any_eq_true _ _).mpr ⟨m, hm, h.controlled m (List.mem_of_find?_eq_some hm) hheld⟩

/-- The thread is one level deeper in a lock that its group holds. -/
theorem Formed.depths_eq (h : Formed n g.members) (base : Nat → Nat) (l : Nat) :
    depths base g.members l = base l + (g.holds l).toNat := by
  have hnodup : (locksOf (·.held) g.members).Nodup := (h.pairwise_locksOf _).imp Nat.ne_of_lt
  rw [depths, entered]
  congr 1
  by_cases hl : l ∈ locksOf (·.held) g.members
  · obtain ⟨m, hm, hheld, rfl⟩ := mem_locksOf.mp hl
    rw [List.count_eq_one_of_mem hnodup hl, h.holds_eq hm, hheld]
    rfl
  · rw [List.count_eq_zero.mpr hl]
    cases hf : g.find? l with
    | none => simp [holds, hf]
    | some m =>
      have hheld : m.held = false := by
        by_contra hne
        exact hl (mem_locksOf.mpr
          ⟨m, List.mem_of_find?_eq_some hf, by simpa using hne, lock_of_find? hf⟩)
      simp [holds, hf, hheld]

/-- A lock that is enlisted again keeps its member. -/
theorem find?_enlist {lock : Nat} {name : String} {controlled : Bool} {ms : List Member}
    (h : ms.Pairwise (·.lock < ·.lock)) (l : Nat) :
    find? ⟨enlist lock name controlled ms⟩ l =
      if l = lock then
        some (((find? ⟨ms⟩ lock).map fun m => { m with controlled := m.controlled && controlled }).getD
          { lock, name, controlled })
      else find? ⟨ms⟩ l := by
  induction ms with
  | nil =>
    by_cases hl : l = lock
    · simp [enlist, find?, hl]
    · simp [enlist, find?, hl, Ne.symm hl]
  | cons m ms ih =>
    obtain ⟨hm, hms⟩ := List.pairwise_cons.mp h
    simp only [enlist]
    split
    · next hlt =>
      -- all members come after the lock
      have hnone : find? ⟨m :: ms⟩ lock = none := by
        refine List.find?_eq_none.mpr fun k hk => ?_
        have : lock < k.lock := by
          rcases List.mem_cons.mp hk with rfl | hk
          · exact hlt
          · exact Nat.lt_trans hlt (hm k hk)
        simpa using Nat.ne_of_gt this
      rw [hnone]
      by_cases hl : l = lock
      · simp [find?, hl]
      · simp [find?, hl, Ne.symm hl]
    · split
      · next he =>
        by_cases hl : l = lock
        · simp [find?, hl, he]
        · simp [find?, hl, ← he, Ne.symm hl]
      · next hne =>
        have hskip : ∀ {k : Nat} {ms : List Member}, k ≠ m.lock →
            find? ⟨m :: ms⟩ k = find? ⟨ms⟩ k := fun hk => by simp [find?, Ne.symm hk]
        by_cases hl : l = lock
        · have hih := ih hms
          rw [if_pos hl] at hih ⊢
          subst hl
          rw [hskip hne, hskip hne, hih]
        · rw [if_neg hl]
          by_cases hlm : l = m.lock
          · simp [find?, hlm]
          · rw [hskip hlm, hskip hlm, ih hms, if_neg hl]

section Founding

variable {items : List (Nat × String × Bool)} (h : ∀ i ∈ items, i.1 < n)

include h

theorem find?_ofList_cons {i : Nat × String × Bool} (l : Nat) :
    (ofList (i :: items)).find? l =
      if l = i.1 then
        some ((((ofList items).find? i.1).map fun m =>
          { m with controlled := m.controlled && i.2.2 }).getD ⟨i.1, i.2.1, i.2.2, false⟩)
      else (ofList items).find? l :=
  find?_enlist (formed_ofList (fun _ => 0) h).1.ascending l

/-- A new group has a member for each lock that is named. -/
theorem isSome_find?_ofList (l : Nat) :
    ((ofList items).find? l).isSome = true ↔ ∃ i ∈ items, i.1 = l := by
  induction items with
  | nil => simp [ofList, find?]
  | cons i items ih =>
    have hitems := fun j hj => h j (List.mem_cons_of_mem _ hj)
    rw [find?_ofList_cons hitems, List.exists_mem_cons_iff, ← ih hitems]
    by_cases hl : l = i.1
    · simp [hl]
    · simp [hl, Ne.symm hl]

/-- To leave a lock alone takes precedence. -/
theorem controlled_of_find?_ofList {m : Member} (hm : (ofList items).find? l = some m) :
    m.controlled = true ↔ ∀ i ∈ items, i.1 = l → i.2.2 = true := by
  induction items generalizing m with
  | nil => cases hm
  | cons i items ih =>
    have hitems := fun j hj => h j (List.mem_cons_of_mem _ hj)
    rw [find?_ofList_cons hitems] at hm
    rw [List.forall_mem_cons]
    by_cases hl : l = i.1
    · subst hl
      rw [if_pos rfl] at hm
      cases hold : (ofList items).find? i.1 with
      | none =>
        rw [hold] at hm
        cases hm
        have hno : ¬∃ j ∈ items, j.1 = i.1 := by
          rw [← isSome_find?_ofList hitems, hold]
          simp
        exact ⟨fun hc => ⟨fun _ => hc, fun j hj he => absurd ⟨j, hj, he⟩ hno⟩, fun hc => hc.1 rfl⟩
      | some k =>
        rw [hold] at hm
        cases hm
        have hk := ih hitems hold
        simp only [Option.map_some, Option.getD_some, Bool.and_eq_true, hk, forall_const]
        exact and_comm
    · rw [if_neg hl] at hm
      exact (ih hitems hm).trans ⟨fun hc => ⟨fun he => absurd he.symm hl, hc⟩, And.right⟩

/-- A new group controls the locks that are named, and never to be left alone. -/
theorem controls_ofList (l : Nat) :
    (ofList items).controls l = true ↔
      (∃ i ∈ items, i.1 = l) ∧ ∀ i ∈ items, i.1 = l → i.2.2 = true := by
  rw [controls, Option.any_eq_true, ← isSome_find?_ofList h, Option.isSome_iff_exists]
  constructor
  · rintro ⟨m, hm, hc⟩
    exact ⟨⟨m, hm⟩, (controlled_of_find?_ofList h hm).mp hc⟩
  · rintro ⟨⟨m, hm⟩, hc⟩
    exact ⟨m, hm, (controlled_of_find?_ofList h hm).mpr hc⟩

end Founding

namespace Change

variable (c : Change)

theorem find?_result : (c.result g).find? l =
    (g.find? l).map fun m => { m with held := c.marks m } := by
  rw [result, find?, List.find?_map]
  rfl

theorem controls_result : (c.result g).controls l = g.controls l := by
  simp only [controls, find?_result]
  cases g.find? l <;> rfl

theorem holds_result : (c.result g).holds l = c.holds g l := by
  have hl := fun m => lock_of_find? (g := g) (l := l) (m := m)
  simp only [LockGroup.holds, find?_result]
  cases hf : g.find? l with
  | none => cases c <;> simp [holds, LockGroup.holds, controls, hf]
  | some m =>
    have := hl m hf
    cases c <;> simp [holds, marks, LockGroup.holds, controls, hf, this]

/-- The call has ended without a breach, and the thread is as deep as the group says. -/
structure Ends (c : Change) (g : LockGroup) (base : Nat → Nat) (n : Nat)
    (r : LockGroup × Option Breach) (d : Nat → Nat) : Prop where
  eq : r = (c.result g, none)
  formed : Formed n (c.result g).members
  depths_eq : d = depths base (c.result g).members

/-- However others come between, the call ends as it should. -/
theorem climbs (h : Formed n g.members) :
    (c.call g).Climbs base n (c.Ends g base n) (depths base g.members) := by
  have hleave : ∀ chosen, (⟨without chosen g.members⟩ : LockGroup) = c.result g →
      (g.leaveWhere chosen).Climbs base n (c.Ends g base n) (depths base g.members) := by
    intro chosen he
    refine (climbs_leaveWhere h chosen).mono ?_
    rintro _ d ⟨rfl, rfl⟩
    exact ⟨by rw [he], he ▸ h.without chosen, by rw [← he]⟩
  have henter : ∀ {g' : LockGroup} chosen, Formed n g'.members →
      (⟨joined chosen g'.members⟩ : LockGroup) = c.result g →
      (g'.enterWhere chosen).Climbs base n (c.Ends g base n) (depths base g'.members) := by
    intro g' chosen h' he
    refine (climbs_enterWhere h' chosen).mono ?_
    rintro _ d ⟨rfl, rfl⟩
    exact ⟨by rw [he], he ▸ h'.joined chosen, by rw [← he]⟩
  cases c with
  | leaveOnly ls => exact hleave _ (by simp [result, marks, without])
  | enterOnly ls => exact henter _ h (by simp [result, marks, joined])
  | release => exact hleave _ (by simp [result, marks, without])
  | enterAll =>
    refine henter _ h (congrArg LockGroup.mk (List.map_congr_left fun m hm => ?_))
    have := h.controlled m hm
    cases hh : m.held <;> simp_all [marks]
  | endWindow =>
    show g.endWindow.Climbs base n (Ends _ g base n) _
    unfold LockGroup.endWindow
    rw [climbs_bind]
    refine (climbs_leaveWhere h fun _ => true).mono ?_
    rintro _ d ⟨rfl, rfl⟩
    exact henter _ (h.without _) (by simp [result, marks, joined, without])

/-- What the call enters and leaves on the way. -/
theorem confined (h : Formed n g.members) :
    (c.call g).Confined (fun l => c.enters g l = true) (fun l => c.leaves g l = true)
      fun _ => True := by
  have hleave : ∀ {chosen}, (∀ m ∈ g.members, chosen m = true → m.held = true →
      c.leaves g m.lock = true) → (g.leaveWhere chosen).Confined
        (fun l => c.enters g l = true) (fun l => c.leaves g l = true) fun _ => True :=
    fun hm => (confined_leaveWhere fun m hmem hc hk =>
      hm m hmem hc (by simpa [h.isKept_eq hmem] using hk)).mono fun _ _ => trivial
  cases c with
  | leaveOnly ls =>
    refine hleave fun m hm hc hh => ?_
    simpa [leaves, h.holds_eq hm, hh] using hc
  | release =>
    refine hleave fun m hm _ hh => ?_
    simpa [leaves, h.holds_eq hm] using hh
  | enterOnly ls =>
    refine (confined_enterWhere fun m hm hc hw => ?_).mono fun _ _ => trivial
    simpa [enters, leaves, holds, h.holds_eq hm, h.controls_eq hm, hc] using hw
  | enterAll =>
    refine (confined_enterWhere fun m hm hc _ => ?_).mono fun _ _ => trivial
    simpa [enters, leaves, h.controls_eq hm] using hc
  | endWindow =>
    refine (confined_endWindow fun m hm hc => ?_).mono fun _ _ => trivial
    simpa [enters, leaves, h.controls_eq hm] using hc

/-- A call enters and leaves only locks that the group controls, and what it may enter it holds
in the end. -/
theorem controls_of_touches (h : Formed n g.members)
    (hl : c.enters g l = true ∨ c.leaves g l = true) : g.controls l = true := by
  have hheld := h.controls_of_holds (l := l)
  cases c <;> simp_all [enters, leaves]

end Change

end EntityStore.LockGroup
