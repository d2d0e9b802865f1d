import EntityStore.Proofs.Lock.Climb
import Mathlib.Data.List.Nodup

/-!
# What a group holds

The members of a group say which of its locks the thread has entered for the group. Every call on
a group climbs, meets no breach, and ends with members that say what has been entered by then:
the depths of the thread are those that it has for other reasons, and one more for each lock held.
-/
namespace EntityStore.LockGroup

open Routine

variable {base d : Nat → Nat} {n l : Nat} {ls : List Nat}

/-- Members as a group has them: in ascending order of their locks, all below `n`, and entered
only if controlled. -/
structure Formed (n : Nat) (ms : List Member) : Prop where
  ascending : ms.Pairwise (·.lock < ·.lock)
  lt : ∀ m ∈ ms, m.lock < n
  controlled : ∀ m ∈ ms, m.held = true → m.controlled = true

def locksOf (kind : Member → Bool) (ms : List Member) : List Nat := (ms.filter kind).map (·.lock)

/-- The depths of a thread whose group holds what the members say. -/
def depths (base : Nat → Nat) (ms : List Member) : Nat → Nat :=
  entered (locksOf (·.held) ms) base

def without (chosen : Member → Bool) (ms : List Member) : List Member :=
  ms.map fun m => { m with held := m.held && !chosen m }

/-- The members after those chosen that are controlled have been entered. -/
def joined (chosen : Member → Bool) (ms : List Member) : List Member :=
  ms.map fun m => { m with held := m.held || (chosen m && m.controlled) }

section Members

variable {ms : List Member} {m : Member} {chosen kind : Member → Bool}

theorem Formed.tail (h : Formed n (m :: ms)) : Formed n ms :=
  ⟨h.ascending.tail, fun _ hk => h.lt _ (List.mem_cons_of_mem _ hk),
    fun _ hk => h.controlled _ (List.mem_cons_of_mem _ hk)⟩

theorem Formed.pairwise_locksOf (h : Formed n ms) (kind : Member → Bool) :
    (locksOf kind ms).Pairwise (· < ·) :=
  List.pairwise_map.mpr (h.ascending.filter kind)

/-- Members with one lock are equal. -/
theorem Formed.eq_of_lock_eq (h : Formed n ms) {m m' : Member} (hm : m ∈ ms) (hm' : m' ∈ ms)
    (he : m.lock = m'.lock) : m = m' := by
  have hnodup : (ms.map (·.lock)).Nodup := (List.pairwise_map.mpr h.ascending).imp Nat.ne_of_lt
  exact List.inj_on_of_nodup_map hnodup hm hm' he

theorem mem_locksOf {x : Nat} : x ∈ locksOf kind ms ↔ ∃ m ∈ ms, kind m = true ∧ m.lock = x := by
  simp [locksOf, and_assoc]

theorem Formed.isKept_eq (h : Formed n ms) (hm : m ∈ ms) : m.isKept = m.held := by
  cases hh : m.held with
  | false => simp [Member.isKept, hh]
  | true => simp [Member.isKept, hh, h.controlled m hm hh]

theorem Formed.without (h : Formed n ms) (chosen : Member → Bool) :
    Formed n (without chosen ms) := by
  refine ⟨List.pairwise_map.mpr h.ascending, fun m hm => ?_, fun m hm hh => ?_⟩
  · obtain ⟨k, hk, rfl⟩ := List.mem_map.mp hm
    exact h.lt k hk
  · obtain ⟨k, hk, rfl⟩ := List.mem_map.mp hm
    exact h.controlled k hk (Bool.and_eq_true_iff.mp hh).1

theorem Formed.joined (h : Formed n ms) (chosen : Member → Bool) :
    Formed n (joined chosen ms) := by
  refine ⟨List.pairwise_map.mpr h.ascending, fun m hm => ?_, fun m hm hh => ?_⟩
  · obtain ⟨k, hk, rfl⟩ := List.mem_map.mp hm
    exact h.lt k hk
  · obtain ⟨k, hk, rfl⟩ := List.mem_map.mp hm
    rcases Bool.or_eq_true_iff.mp hh with hh | hh
    · exact h.controlled k hk hh
    · exact (Bool.and_eq_true_iff.mp hh).2

theorem locksOf_held_map (f : Member → Bool) (ms : List Member) :
    locksOf (·.held) (ms.map fun m => { m with held := f m }) = locksOf f ms := by
  simp [locksOf, List.filter_map, Function.comp_def]

/-- Two kinds of members that exclude each other make up a third. -/
theorem entered_locksOf_split {a b c : Member → Bool}
    (h : ∀ m ∈ ms, (c m).toNat = (a m).toNat + (b m).toNat) :
    entered (locksOf a ms) (entered (locksOf b ms) d) = entered (locksOf c ms) d := by
  ext x
  simp only [entered, locksOf]
  induction ms with
  | nil => rfl
  | cons m ms ih =>
    have hm := h m List.mem_cons_self
    have hms := ih fun k hk => h k (List.mem_cons_of_mem _ hk)
    cases ha : a m <;> cases hb : b m <;> cases hc : c m <;>
      simp_all [List.count_cons] <;> omega

/-- What was held is what is left and what is held on. -/
theorem entered_without (chosen : Member → Bool) (ms : List Member) :
    entered (locksOf (fun m => m.held && chosen m) ms) (depths base (LockGroup.without chosen ms)) =
      depths base ms := by
  rw [depths, LockGroup.without, locksOf_held_map]
  apply entered_locksOf_split
  intro m _
  cases m.held <;> cases chosen m <;> rfl

/-- Leaving the locks chosen meets no breach. -/
theorem climbs_leaveMembers (h : Formed n ms)
    (hd : ∀ m ∈ ms, m.held = true → base m.lock < d m.lock) :
    (leaveMembers chosen ms).Climbs base n (fun r d' => r = (LockGroup.without chosen ms, none) ∧
      entered (locksOf (fun m => m.held && chosen m) ms) d' = d) d := by
  induction ms generalizing d with
  | nil => simp [leaveMembers, LockGroup.without, locksOf]
  | cons m ms ih =>
    unfold leaveMembers
    rw [climbs_bind]
    apply (ih h.tail fun k hk => hd k (List.mem_cons_of_mem _ hk)).mono
    rintro _ d' ⟨rfl, hd'⟩
    have hkept := h.isKept_eq (List.mem_cons_self : m ∈ m :: ms)
    by_cases hm : (m.held && chosen m) = true
    · obtain ⟨hheld, hchosen⟩ := Bool.and_eq_true_iff.mp hm
      -- the locks after this one are other locks
      have hnone : (locksOf (fun m => m.held && chosen m) ms).count m.lock = 0 := by
        apply List.count_eq_zero.mpr
        intro hmem
        obtain ⟨k, hk, -, he⟩ := mem_locksOf.mp hmem
        exact absurd (List.rel_of_pairwise_cons h.ascending hk) (by omega)
      have hlt : base m.lock < d' m.lock := by
        have := hd m List.mem_cons_self hheld
        rw [← hd', entered, hnone] at this
        exact this
      simp only [Option.isNone_none, Bool.true_and, hchosen, hkept, hheld, if_true]
      rw [climbs_bind, climbs_give]
      refine ⟨hlt, ?_⟩
      simp only [if_true, climbs_pure]
      have hcons : locksOf (fun m => m.held && chosen m) (m :: ms) =
          m.lock :: locksOf (fun m => m.held && chosen m) ms := by
        simp [locksOf, hheld, hchosen]
      refine ⟨by simp [LockGroup.without, hchosen], ?_⟩
      rw [hcons, entered_cons, raise_lower (by omega)]
      exact hd'
    · have hcons : locksOf (fun m => m.held && chosen m) (m :: ms) =
          locksOf (fun m => m.held && chosen m) ms := by
        simp only [locksOf, List.filter_cons, hm, Bool.false_eq_true, if_false]
      have hstays : (m.held && !chosen m) = m.held := by
        cases hh : m.held <;> simp_all
      have hnot : (chosen m && m.held) = false := by
        rw [Bool.and_comm]
        exact Bool.eq_false_iff.mpr hm
      simp only [Option.isNone_none, Bool.true_and, hkept, hnot, Bool.false_eq_true, if_false,
        climbs_pure]
      refine ⟨by simp [LockGroup.without, hstays], ?_⟩
      rw [hcons]
      exact hd'

theorem le_depths (x : Nat) : base x ≤ depths base ms x := Nat.le_add_right ..

theorem lt_depths_iff {x : Nat} :
    base x < depths base ms x ↔ ∃ m ∈ ms, m.held = true ∧ m.lock = x := by
  rw [← mem_locksOf]
  simp [depths, entered]

end Members

variable {g : LockGroup}

/-- Leaving the locks chosen meets no breach, and leaves exactly those that were held. -/
theorem climbs_leaveWhere (h : Formed n g.members) (chosen : Member → Bool) :
    (g.leaveWhere chosen).Climbs base n (fun r d' => r = (⟨without chosen g.members⟩, none) ∧
      d' = depths base (without chosen g.members)) (depths base g.members) := by
  unfold leaveWhere
  rw [climbs_bind]
  refine (climbs_leaveMembers h fun m hm hh => lt_depths_iff.mpr ⟨m, hm, hh, rfl⟩).mono ?_
  rintro _ d' ⟨rfl, hd'⟩
  refine ⟨rfl, ?_⟩
  rw [← entered_without chosen] at hd'
  ext x
  exact Nat.add_right_cancel (congrFun hd' x)

/-- The first member of some kind comes before all others of it. -/
theorem Formed.le_of_find? {ms : List Member} (h : Formed n ms) {kind : Member → Bool}
    {first m : Member} (hf : ms.find? kind = some first) (hm : m ∈ ms) (hk : kind m = true) :
    first.lock ≤ m.lock := by
  obtain ⟨-, before, rest, rfl, hbefore⟩ := List.find?_eq_some_iff_append.mp hf
  rcases List.mem_append.mp hm with hm | hm
  · have := hbefore m hm
    simp [hk] at this
  · rcases List.mem_cons.mp hm with rfl | hm
    · exact Nat.le_refl _
    · have hrest := (List.pairwise_append.mp h.ascending).2.1
      exact Nat.le_of_lt (List.rel_of_pairwise_cons hrest hm)

theorem joined_eq_self {ms : List Member} {chosen : Member → Bool}
    (h : ∀ m ∈ ms, ¬(chosen m && m.isMissing) = true) : joined chosen ms = ms := by
  refine (List.map_congr_left fun m hm => ?_).trans (List.map_id ms)
  have hn : (m.held || (chosen m && m.controlled)) = m.held := by
    have := h m hm
    rw [Member.isMissing] at this
    cases hh : m.held <;> cases hc : m.controlled <;> cases hs : chosen m <;> simp_all
  rw [hn, id]

/-- Leaving the locks from `first` on and entering them again, together with those chosen that are
missing, amounts to entering those chosen. -/
theorem mark_without {ms : List Member} (base : Nat → Nat) (h : Formed n ms)
    (chosen late : Member → Bool) :
    let wanted := fun m : Member => (chosen m && m.isMissing) || (late m && m.isKept)
    ((without late ms).map fun m =>
      if m.lock ∈ locksOf wanted ms then { m with held := true } else m) = joined chosen ms ∧
    entered (locksOf wanted ms) (depths base (without late ms)) =
      depths base (joined chosen ms) := by
  intro wanted
  have hwanted : ∀ m ∈ ms, (m.lock ∈ locksOf wanted ms ↔ wanted m = true) := by
    intro m hm
    rw [mem_locksOf]
    constructor
    · rintro ⟨k, hk, hkw, he⟩
      exact h.eq_of_lock_eq hk hm he ▸ hkw
    · exact fun hw => ⟨m, hm, hw, rfl⟩
  -- a lock held at the end was entered now or never left
  have hsplit : ∀ m ∈ ms, (m.held || (chosen m && m.controlled)).toNat =
      (wanted m).toNat + (m.held && !late m).toNat := by
    intro m hm
    have hc := h.controlled m hm
    simp only [wanted, Member.isMissing, Member.isKept]
    cases hh : m.held <;> cases hmc : m.controlled <;> cases chosen m <;> cases late m <;> simp_all
  constructor
  · rw [without, List.map_map]
    apply List.map_congr_left
    intro m hm
    have hs := hsplit m hm
    simp only [Function.comp_apply, hwanted m hm]
    cases hw : wanted m <;> cases hh : (m.held && !late m) <;>
      cases hj : (m.held || (chosen m && m.controlled)) <;> simp_all
  · rw [depths, depths, without, joined, locksOf_held_map, locksOf_held_map]
    exact entered_locksOf_split hsplit

/-- Entering the locks chosen meets no breach, and in the end each that is controlled is held. -/
theorem climbs_enterWhere (h : Formed n g.members) (chosen : Member → Bool) :
    (g.enterWhere chosen).Climbs base n (fun r d' => r = (⟨joined chosen g.members⟩, none) ∧
      d' = depths base (joined chosen g.members)) (depths base g.members) := by
  obtain ⟨ms⟩ := g
  unfold enterWhere
  split
  · next hnone =>
    have hsame : joined chosen ms = ms := joined_eq_self (List.find?_eq_none.mp hnone)
    simp [hsame]
  · next first hfirst =>
    have hle : ∀ m ∈ ms, (chosen m && m.isMissing) = true → first.lock ≤ m.lock :=
      fun m => h.le_of_find? hfirst
    obtain ⟨hmembers, hdepths⟩ := mark_without base h chosen fun m => first.lock ≤ m.lock
    simp only
    rw [climbs_bind]
    apply (climbs_leaveWhere h _).mono
    rintro _ d' ⟨rfl, rfl⟩
    simp only [Option.isSome_none, Bool.false_eq_true, if_false]
    rw [climbs_bind]
    refine (climbs_acquire le_depths ?_).mono ?_
    · refine ⟨h.pairwise_locksOf _, fun l hl => ?_, fun l hl x hx => ?_⟩
      · obtain ⟨m, hm, -, rfl⟩ := mem_locksOf.mp hl
        exact h.lt m hm
      · -- all that is held on comes before the first lock that was missing
        obtain ⟨k, hk, hheld, rfl⟩ := lt_depths_iff.mp hx
        obtain ⟨m, hm, hwanted, rfl⟩ := mem_locksOf.mp hl
        obtain ⟨k, -, rfl⟩ := List.mem_map.mp hk
        have hlt : k.lock < first.lock := by simpa using (Bool.and_eq_true_iff.mp hheld).2
        rcases Bool.or_eq_true_iff.mp hwanted with hm' | hm'
        · exact Nat.lt_of_lt_of_le hlt (hle m hm hm')
        · exact Nat.lt_of_lt_of_le hlt (of_decide_eq_true (Bool.and_eq_true_iff.mp hm').1)
    · rintro _ d' rfl
      exact ⟨congrArg (fun ms => ((⟨ms⟩ : LockGroup), (none : Option Breach))) hmembers, hdepths⟩

/-- A call ended without a breach in a group that holds what the thread has entered. -/
structure Settled (base : Nat → Nat) (n : Nat) (r : LockGroup × Option Breach) (d : Nat → Nat) :
    Prop where
  unbroken : r.2 = none
  formed : Formed n r.1.members
  depths_eq : d = depths base r.1.members

theorem settled_leaveWhere (h : Formed n g.members) (chosen : Member → Bool) :
    (g.leaveWhere chosen).Climbs base n (Settled base n) (depths base g.members) := by
  apply (climbs_leaveWhere h chosen).mono
  rintro _ d ⟨rfl, rfl⟩
  exact ⟨rfl, h.without chosen, rfl⟩

theorem settled_enterWhere (h : Formed n g.members) (chosen : Member → Bool) :
    (g.enterWhere chosen).Climbs base n (Settled base n) (depths base g.members) := by
  apply (climbs_enterWhere h chosen).mono
  rintro _ d ⟨rfl, rfl⟩
  exact ⟨rfl, h.joined chosen, rfl⟩

theorem settled_endWindow (h : Formed n g.members) :
    g.endWindow.Climbs base n (Settled base n) (depths base g.members) := by
  unfold endWindow
  rw [climbs_bind]
  apply (climbs_leaveWhere h fun _ => true).mono
  rintro _ d ⟨rfl, rfl⟩
  simp only [Option.isSome_none, Bool.false_eq_true, if_false]
  exact settled_enterWhere (h.without _) _

/-- A group that is given up holds nothing. -/
theorem climbs_release (h : Formed n g.members) :
    g.release.Climbs base n (fun r d => r.2 = none ∧ d = base) (depths base g.members) := by
  apply (climbs_leaveWhere h fun _ => true).mono
  rintro _ d ⟨rfl, rfl⟩
  refine ⟨rfl, ?_⟩
  rw [depths, without, locksOf_held_map]
  simp [locksOf]

theorem mem_enlist {lock : Nat} {name : String} {controlled : Bool} {ms : List Member} {m : Member}
    (hms : ∀ k ∈ ms, k.held = false) (hm : m ∈ enlist lock name controlled ms) :
    m.held = false ∧ (m.lock = lock ∨ ∃ k ∈ ms, k.lock = m.lock) := by
  induction ms with
  | nil =>
    obtain rfl := List.mem_singleton.mp hm
    exact ⟨rfl, .inl rfl⟩
  | cons k ms ih =>
    have hk := hms k List.mem_cons_self
    simp only [enlist] at hm
    split at hm
    · rcases List.mem_cons.mp hm with rfl | hm
      · exact ⟨rfl, .inl rfl⟩
      · exact ⟨hms m hm, .inr ⟨m, hm, rfl⟩⟩
    · split at hm
      · next he =>
        rcases List.mem_cons.mp hm with rfl | hm
        · exact ⟨hk, .inl he.symm⟩
        · exact ⟨hms m (List.mem_cons_of_mem _ hm), .inr ⟨m, List.mem_cons_of_mem _ hm, rfl⟩⟩
      · rcases List.mem_cons.mp hm with rfl | hm
        · exact ⟨hk, .inr ⟨m, List.mem_cons_self, rfl⟩⟩
        · obtain ⟨hheld, hlock⟩ := ih (fun k hk => hms k (List.mem_cons_of_mem _ hk)) hm
          refine ⟨hheld, hlock.imp_right ?_⟩
          rintro ⟨k', hk', he⟩
          exact ⟨k', List.mem_cons_of_mem _ hk', he⟩

theorem ascending_enlist {lock : Nat} {name : String} {controlled : Bool} {ms : List Member}
    (hms : ∀ k ∈ ms, k.held = false) (h : ms.Pairwise (·.lock < ·.lock)) :
    (enlist lock name controlled ms).Pairwise (·.lock < ·.lock) := by
  induction ms with
  | nil => exact List.pairwise_singleton ..
  | cons k ms ih =>
    obtain ⟨hk, htail⟩ := List.pairwise_cons.mp h
    simp only [enlist]
    split
    · next hlt =>
      refine List.pairwise_cons.mpr ⟨fun m hm => ?_, h⟩
      rcases List.mem_cons.mp hm with rfl | hm
      · exact hlt
      · exact Nat.lt_trans hlt (hk m hm)
    · split
      · exact List.pairwise_cons.mpr ⟨hk, htail⟩
      · have hms' : ∀ k ∈ ms, k.held = false := fun k hk => hms k (List.mem_cons_of_mem _ hk)
        refine List.pairwise_cons.mpr ⟨fun m hm => ?_, ih hms' htail⟩
        rcases mem_enlist hms' hm with ⟨-, he | ⟨k', hk', he⟩⟩
        · omega
        · exact he ▸ hk k' hk'

/-- A new group is in order and holds nothing. -/
theorem formed_ofList (base : Nat → Nat) {items : List (Nat × String × Bool)}
    (h : ∀ i ∈ items, i.1 < n) :
    Formed n (ofList items).members ∧ depths base (ofList items).members = base := by
  suffices hl : (ofList items).members.Pairwise (·.lock < ·.lock) ∧
      ∀ m ∈ (ofList items).members, m.held = false ∧ m.lock < n by
    obtain ⟨hascending, hms⟩ := hl
    refine ⟨⟨hascending, fun m hm => (hms m hm).2, fun m hm hh => ?_⟩, ?_⟩
    · rw [(hms m hm).1] at hh
      cases hh
    · have hnone : locksOf (·.held) (ofList items).members = [] := by
        rw [locksOf, List.filter_eq_nil_iff.mpr fun m hm => by simp [(hms m hm).1]]
        rfl
      rw [depths, hnone, entered_nil]
  unfold ofList
  induction items with
  | nil => exact ⟨.nil, fun _ hm => absurd hm List.not_mem_nil⟩
  | cons i items ih =>
    obtain ⟨hascending, hms⟩ := ih fun j hj => h j (List.mem_cons_of_mem _ hj)
    have hheld := fun k hk => (hms k hk).1
    refine ⟨ascending_enlist hheld hascending, fun m hm => ?_⟩
    rcases mem_enlist hheld hm with ⟨hm', he | ⟨k, hk, he⟩⟩
    · exact ⟨hm', he ▸ h i List.mem_cons_self⟩
    · exact ⟨hm', he ▸ (hms k hk).2⟩

end EntityStore.LockGroup
