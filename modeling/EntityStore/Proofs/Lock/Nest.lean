import EntityStore.Proofs.Lock.Change
import EntityStore.Proofs.Lock.Crowd
import Mathlib.Data.List.Perm.Basic

/-!
# A thread with nested groups

A thread enters locks directly and by any number of groups, whose locks may be the same ones, while
other threads do whatever they like. It leaves directly only what it has entered directly. Then it
is as deep in each lock as it has entered it directly, and one level for each group that holds the
lock; no call on a group ends in a breach or touches a level that is not the group's own.
-/
namespace EntityStore.LockGroup

open Routine

/-- A group of a thread, with the locks that it was founded on. -/
structure Owned where
  items : List (Nat × String × Bool)
  group : LockGroup

/-- The group controls the locks that it was founded on, but for those to be left alone. -/
structure Owned.Formed (n : Nat) (o : Owned) : Prop where
  members : LockGroup.Formed n o.group.members
  controls_iff : ∀ l, o.group.controls l = true ↔
    (∃ i ∈ o.items, i.1 = l) ∧ ∀ i ∈ o.items, i.1 = l → i.2.2 = true

/-- What a thread has entered: the levels that belong to no group, and its groups. -/
structure Books where
  direct : Nat → Nat := fun _ => 0
  groups : List Owned := []

namespace Books

variable {b : Books} {o o' : Owned} {i n : Nat}

def total (b : Books) (l : Nat) : Nat := b.direct l + b.groups.countP (·.group.holds l)

/-- The depth that a thread has from elsewhere than one of its groups. -/
def elsewhere (b : Books) (i l : Nat) : Nat :=
  b.direct l + (b.groups.eraseIdx i).countP (·.group.holds l)

def put (b : Books) (i : Nat) (o : Owned) : Books := { b with groups := b.groups.set i o }

def raise (b : Books) (l : Nat) : Books := { b with direct := Routine.raise b.direct l }

def lower (b : Books) (l : Nat) : Books := { b with direct := Routine.lower b.direct l }

def Formed (n : Nat) (b : Books) : Prop := ∀ o ∈ b.groups, o.Formed n

theorem total_eq (hi : b.groups[i]? = some o) (l : Nat) :
    b.total l = b.elsewhere i l + (o.group.holds l).toNat := by
  obtain ⟨hlt, rfl⟩ := List.getElem?_eq_some_iff.mp hi
  rw [total, elsewhere, ← (List.getElem_cons_eraseIdx_perm hlt).countP_eq, List.countP_cons,
    Nat.add_assoc]
  cases b.groups[i].group.holds l <;> rfl

theorem elsewhere_put : (b.put i o).elsewhere i = b.elsewhere i := by
  ext l
  rw [elsewhere, put, List.eraseIdx_set_eq, elsewhere]

theorem get?_put (hi : b.groups[i]? = some o) : (b.put i o').groups[i]? = some o' :=
  List.getElem?_set_self (List.getElem?_eq_some_iff.mp hi).1

/-- The group of a thread makes up the rest of its depths. -/
theorem total_eq_depths (hi : b.groups[i]? = some o)
    (ho : LockGroup.Formed n o.group.members) :
    b.total = depths (b.elsewhere i) o.group.members := by
  ext l
  rw [total_eq hi, ho.depths_eq]

theorem total_raise (l : Nat) : (b.raise l).total = Routine.raise b.total l := by
  ext x
  by_cases hx : x = l
  · subst hx
    simp [total, raise, Routine.raise]
    omega
  · simp [total, raise, Routine.raise, hx]

theorem total_lower {l : Nat} (hl : 0 < b.direct l) :
    (b.lower l).total = Routine.lower b.total l := by
  ext x
  by_cases hx : x = l
  · subst hx
    simp [total, lower, Routine.lower]
    omega
  · simp [total, lower, Routine.lower, hx]

end Books

inductive Task
  | enter (l : Nat)
  | tryEnter (l : Nat)
  | leave (l : Nat)
  /-- A call on one of its groups. -/
  | change (i : Nat) (c : Change)

namespace Task

variable {b : Books} {n : Nat}

/-- What the thread has entered afterwards, unless there was a breach. -/
def routine (b : Books) : Task → Routine (Option Books)
  | enter l => do
    Routine.take l
    return some (b.raise l)
  | tryEnter l => do
    if ← Routine.tryTake l then return some (b.raise l)
    return some b
  | leave l => do
    if ← Routine.give l then return some (b.lower l)
    return none
  | change i c =>
    match b.groups[i]? with
    | none => return some b
    | some o => do
      let (g, breach) ← c.call o.group
      return if breach.isNone then some (b.put i { o with group := g }) else none

/-- A thread leaves directly only what it has entered directly. -/
def Allowed (n : Nat) (b : Books) : Task → Prop
  | enter l | tryEnter l => l < n
  | leave l => 0 < b.direct l
  | change _ _ => True

def base (b : Books) : Task → Nat → Nat
  | enter _ | tryEnter _ => b.total
  | leave l => lower b.total l
  | change i _ => b.elsewhere i

def enters (b : Books) (x : Nat) : Task → Prop
  | enter l | tryEnter l => x = l
  | leave _ => False
  | change i c => ∃ o ∈ b.groups[i]?, c.enters o.group x = true

def leaves (b : Books) (x : Nat) : Task → Prop
  | enter _ | tryEnter _ => False
  | leave l => x = l
  | change i c => ∃ o ∈ b.groups[i]?, c.leaves o.group x = true

/-- The task has ended without a breach, and the thread is as deep as its books say. A call on a
group has one result. -/
structure Ends (t : Task) (b : Books) (n : Nat) (r : Option Books) (d : Nat → Nat) : Prop where
  books : ∃ b', r = some b' ∧ b'.Formed n ∧ d = b'.total
  change : ∀ i c, t = change i c → ∀ o, b.groups[i]? = some o →
    r = some (b.put i { o with group := c.result o.group })

theorem climbs (t : Task) (hb : b.Formed n) (ht : t.Allowed n b) :
    (t.routine b).Climbs (t.base b) n (t.Ends b n) b.total := by
  have hself : ∀ l, Below b.total b.total l := fun l x hx => absurd hx (Nat.lt_irrefl _)
  cases t with
  | enter l =>
    exact ⟨ht, hself l, ⟨_, rfl, hb, (b.total_raise l).symm⟩, fun _ _ h => by cases h⟩
  | tryEnter l =>
    exact ⟨ht, hself l, ⟨⟨_, rfl, hb, (b.total_raise l).symm⟩, fun _ _ h => by cases h⟩,
      ⟨_, rfl, hb, rfl⟩, fun _ _ h => by cases h⟩
  | leave l =>
    have hpos : 0 < b.total l := Nat.lt_of_lt_of_le ht (Nat.le_add_right ..)
    refine ⟨?_, ⟨_, rfl, hb, (Books.total_lower ht).symm⟩, fun _ _ h => by cases h⟩
    rw [base, lower, Function.update_self]
    omega
  | change i c =>
    simp only [routine, base]
    cases hi : b.groups[i]? with
    | none =>
      refine ⟨⟨b, rfl, hb, rfl⟩, fun _ _ h o ho => ?_⟩
      cases h
      rw [hi] at ho
      cases ho
    | some o =>
      obtain ⟨hmembers, hcontrols⟩ := hb o (List.mem_of_getElem? hi)
      rw [Books.total_eq_depths hi hmembers]
      simp only
      rw [climbs_bind]
      apply (c.climbs hmembers).mono
      rintro _ d ⟨rfl, hformed, rfl⟩
      refine ⟨⟨_, rfl, fun k hk => ?_, ?_⟩, fun _ _ h k hk => ?_⟩
      · rcases List.mem_or_eq_of_mem_set hk with hk | rfl
        · exact hb k hk
        · exact ⟨hformed, fun l => by rw [c.controls_result, hcontrols]⟩
      · rw [Books.total_eq_depths (Books.get?_put hi) hformed, Books.elsewhere_put]
      · cases h
        rw [hi] at hk
        cases hk
        rfl

theorem confined (t : Task) (hb : b.Formed n) :
    (t.routine b).Confined (t.enters b) (t.leaves b) fun _ => True := by
  cases t with
  | enter l => exact ⟨rfl, trivial⟩
  | tryEnter l => exact ⟨rfl, fun ok => by cases ok <;> trivial⟩
  | leave l => exact ⟨rfl, fun ok => by cases ok <;> trivial⟩
  | change i c =>
    simp only [routine]
    cases hi : b.groups[i]? with
    | none => trivial
    | some o =>
      simp only
      rw [confined_bind]
      simp only [enters, leaves, hi, Option.mem_def, Option.some.injEq, exists_eq_left']
      exact (c.confined (hb o (List.mem_of_getElem? hi)).members).mono fun _ _ => trivial

/-- What the task leaves alone is never more than what there is. -/
theorem base_le (t : Task) (b : Books) (l : Nat) : t.base b l ≤ b.total l := by
  cases t with
  | enter | tryEnter => exact Nat.le_refl _
  | leave k =>
    by_cases hl : l = k
    · subst hl
      simp [base, lower]
    · simp [base, lower, hl]
  | change i c =>
    exact Nat.add_le_add_left (List.Sublist.countP_le (List.eraseIdx_sublist ..)) _

end Task

/-- A thread among others, with what it has entered before its task, and how far it has come with
that. -/
structure Nest where
  crowd : Crowd
  books : Books := {}
  doing : Option (Task × Point (Option Books)) := none

namespace Nest

variable {me : Thread} {s s' : Nest}

def depth (me : Thread) (s : Nest) : Nat → Nat := s.crowd.bank.depthOf me

/-- Another thread stirs, or the thread goes on with what it does. -/
inductive Step (me : Thread) (s : Nest) : Nest → Prop
  | stir {c : Crowd} (h : s.crowd.Stirs me c) : Step me s { s with crowd := c }
  /-- A new group of some locks of the bank. -/
  | found (items : List (Nat × String × Bool)) (h : ∀ i ∈ items, i.1 < s.crowd.bank.size)
      (hdoing : s.doing = none) :
    Step me s { s with books.groups := s.books.groups ++ [⟨items, ofList items⟩] }
  /-- A group that holds nothing is given up. -/
  | forget {i : Nat} {o : Owned} (hi : s.books.groups[i]? = some o)
      (ho : ∀ l, o.group.holds l = false) (hdoing : s.doing = none) :
    Step me s { s with books.groups := s.books.groups.eraseIdx i }
  | begin (t : Task) (ht : t.Allowed s.crowd.bank.size s.books) (hdoing : s.doing = none) :
    Step me s { s with doing := some (t, .before (t.routine s.books)) }
  | go {t : Task} {p : Point (Option Books)} (hdoing : s.doing = some (t, p)) (fails : Bool) :
    Step me s { s with
      crowd.bank := (p.step me fails s.crowd.bank).2
      doing := some (t, (p.step me fails s.crowd.bank).1) }
  | finish {t : Task} {b : Books} (hdoing : s.doing = some (t, .before (.done (some b)))) :
    Step me s { s with books := b, doing := none }

/-- The thread has come here from a bank of new locks. -/
inductive Reachable (me : Thread) : Nest → Prop
  | start {bank : Bank} (h : ∀ l ∈ bank.locks, l.gate = {} ∧ l.owner = none) :
    Reachable me { crowd := { bank } }
  | step {s s' : Nest} (h : Reachable me s) (hs : s.Step me s') : Reachable me s'

/-- The thread has begun a task in `s` and not ended it, while others did whatever they like. -/
inductive Underway (me : Thread) (t : Task) (s : Nest) : Nest → Prop
  | begin (ht : t.Allowed s.crowd.bank.size s.books) (hdoing : s.doing = none) :
    Underway me t s { s with doing := some (t, .before (t.routine s.books)) }
  | step {s' s'' : Nest} (h : Underway me t s s') (hs : s'.Step me s'') (hdoing : s''.doing ≠ none) :
    Underway me t s s''

/-- The thread does a task from its beginning to its end, among others. -/
def Performs (me : Thread) (t : Task) (s s' : Nest) : Prop :=
  ∃ mid, Underway me t s mid ∧ mid.Step me s' ∧ s'.doing = none

theorem Underway.reachable {t : Task} (h : Underway me t s s') (hs : s.Reachable me) :
    s'.Reachable me := by
  induction h with
  | begin ht hdoing => exact hs.step (.begin t ht hdoing)
  | step _ hstep _ ih => exact ih.step hstep

theorem Performs.reachable {t : Task} (h : Performs me t s s') (hs : s.Reachable me) :
    s'.Reachable me := by
  obtain ⟨mid, hmid, hstep, -⟩ := h
  exact (hmid.reachable hs).step hstep

/-- A task advanced in one go ends as it may end among others. -/
theorem performs_of_advance (hdoing : s.doing = none) {t : Task}
    (ht : t.Allowed s.crowd.bank.size s.books) {b : Books}
    (hb : ((t.routine s.books).advance me s.crowd.bank).1 = .finished (some b)) :
    Performs me t s { s with
      crowd.bank := ((t.routine s.books).advance me s.crowd.bank).2.1
      books := b } := by
  have halone : Point.Alone me (.before (t.routine s.books), s.crowd.bank) _ :=
    (t.routine s.books).advance_alone s.crowd.bank
  rw [hb] at halone
  suffices hl : ∀ x, Point.Alone me (.before (t.routine s.books), s.crowd.bank) x →
      Underway me t s { s with crowd.bank := x.2, doing := some (t, x.1) } by
    refine ⟨_, hl _ halone, ?_, hdoing⟩
    simpa only [← hdoing] using Step.finish rfl
  intro x hx
  induction hx with
  | refl => exact .begin ht hdoing
  | @tail y z _ hz ih =>
    rw [hz]
    exact ih.step (.go rfl false) (by simp)

theorem Reachable.performs (h : s.Reachable me) (hdoing : s.doing = none) (t : Task)
    (ht : t.Allowed s.crowd.bank.size s.books) {b : Books}
    (hb : ((t.routine s.books).advance me s.crowd.bank).1 = .finished (some b)) :
    let s' : Nest := { s with
      crowd.bank := ((t.routine s.books).advance me s.crowd.bank).2.1
      books := b }
    Performs me t s s' ∧ s'.Reachable me :=
  ⟨performs_of_advance hdoing ht hb, (performs_of_advance hdoing ht hb).reachable h⟩

theorem Reachable.perform (h : s.Reachable me) (hdoing : s.doing = none) (t : Task)
    (ht : t.Allowed s.crowd.bank.size s.books) {b : Books}
    (hb : ((t.routine s.books).advance me s.crowd.bank).1 = .finished (some b)) :
    Reachable me { s with
      crowd.bank := ((t.routine s.books).advance me s.crowd.bank).2.1
      books := b } := (h.performs hdoing t ht hb).2

structure OnWay (me : Thread) (s : Nest) (t : Task) (p : Point (Option Books)) : Prop where
  climbs : p.Climbs (t.base s.books) s.crowd.bank.size (t.Ends s.books s.crowd.bank.size)
    (s.depth me)
  base_le : ∀ l, t.base s.books l ≤ s.depth me l
  confined : p.Confined (t.enters s.books) (t.leaves s.books) fun _ => True
  le_total : ∀ l, ¬t.enters s.books l → s.depth me l ≤ s.books.total l
  total_le : ∀ l, ¬t.leaves s.books l → s.books.total l ≤ s.depth me l

/-- A task hangs on the books, the number of locks and the depths of its thread only. -/
theorem OnWay.of_eq {t : Task} {p : Point (Option Books)} (h : s.OnWay me t p)
    (hbooks : s'.books = s.books) (hsize : s'.crowd.bank.size = s.crowd.bank.size)
    (hdepth : s'.depth me = s.depth me) : s'.OnWay me t p := by
  obtain ⟨hclimbs, hbase, hconfined, hle, hge⟩ := h
  refine ⟨?_, ?_, ?_, ?_, ?_⟩ <;> simpa only [hbooks, hsize, hdepth]

/-- The crowd is in order, and so is what the thread looked at does. -/
structure Proper (me : Thread) (s : Nest) : Prop where
  formed : s.books.Formed s.crowd.bank.size
  idle : s.doing = none →
    s.crowd.Proper me (.before (.done ()) : Point Unit) ∧ s.depth me = s.books.total
  busy : ∀ t p, s.doing = some (t, p) → s.crowd.Proper me p ∧ s.OnWay me t p

namespace Proper

theorem start {bank : Bank} (h : ∀ l ∈ bank.locks, l.gate = {} ∧ l.owner = none) :
    Proper me { crowd := { bank } } := by
  refine ⟨fun g hg => absurd hg List.not_mem_nil, fun _ => ⟨Crowd.Proper.start h _, ?_⟩,
    fun _ _ hp => by cases hp⟩
  ext l
  exact Bank.depthOf_eq_zero (by simp [(Bank.get_new h l).2])

/-- A step of the thread takes its task along. -/
theorem go (h : s.Proper me) {t : Task} {p : Point (Option Books)} (hdoing : s.doing = some (t, p))
    (fails : Bool) :
    OnWay me { s with
      crowd.bank := (p.step me fails s.crowd.bank).2
      doing := some (t, (p.step me fails s.crowd.bank).1) } t (p.step me fails s.crowd.bank).1 := by
  obtain ⟨hcrowd, hway⟩ := h.busy t p hdoing
  have hshift := hway.climbs.shift_step hcrowd.solid fails
  have hclimbs :=
    (hway.climbs.step hcrowd.solid (fun _ => hcrowd.owner_eq_none) fails).2
  have hsize := hcrowd.own_size fails
  refine ⟨by simpa only [hsize, depth] using hclimbs, fun l => ?_, hway.confined.shift hshift,
    fun l hl => ?_, fun l hl => ?_⟩
  · exact hway.climbs.base_le_shift hshift hway.base_le l
  · exact Nat.le_trans (hway.confined.shift_le hshift hl) (hway.le_total l hl)
  · exact Nat.le_trans (hway.total_le l hl) (hway.confined.le_shift hshift hl)

theorem begin (h : s.Proper me) {t : Task} (ht : t.Allowed s.crowd.bank.size s.books)
    (hdoing : s.doing = none) :
    OnWay me { s with doing := some (t, .before (t.routine s.books)) } t
      (.before (t.routine s.books)) := by
  have hdepth := (h.idle hdoing).2
  refine ⟨?_, fun l => ?_, t.confined h.formed, fun l _ => ?_, fun l _ => ?_⟩
  · show (t.routine s.books).Climbs _ _ _ (s.depth me)
    rw [hdepth]
    exact t.climbs h.formed ht
  · exact Nat.le_trans (t.base_le s.books l) (Nat.le_of_eq (congrFun hdepth l).symm)
  · exact Nat.le_of_eq (congrFun hdepth l)
  · exact Nat.le_of_eq (congrFun hdepth l).symm

theorem step (h : s.Proper me) (hs : s.Step me s') : s'.Proper me := by
  cases hs with
  | @stir c hstirs =>
    cases hdoing : s.doing with
    | none =>
      obtain ⟨hcrowd, hdepth⟩ := h.idle hdoing
      obtain ⟨hsize, hd⟩ := hcrowd.stir_eq hstirs
      refine ⟨hsize.symm ▸ h.formed, fun _ => ⟨hcrowd.stir hstirs, hd.trans hdepth⟩, ?_⟩
      simp
    | some task =>
      obtain ⟨t, p⟩ := task
      obtain ⟨hcrowd, hway⟩ := h.busy t p hdoing
      obtain ⟨hsize, hd⟩ := hcrowd.stir_eq hstirs
      refine ⟨hsize.symm ▸ h.formed, by simp, ?_⟩
      rintro t' p' ⟨⟩
      exact ⟨hcrowd.stir hstirs, hway.of_eq rfl hsize hd⟩
  | found items hitems hdoing =>
    obtain ⟨hcrowd, hdepth⟩ := h.idle hdoing
    obtain ⟨hformed, hnothing⟩ := formed_ofList s.books.total hitems
    refine ⟨fun o ho => ?_, fun _ => ⟨hcrowd, hdepth.trans ?_⟩, fun t p hp => ?_⟩
    · rcases List.mem_append.mp ho with ho | ho
      · exact h.formed o ho
      · obtain rfl := List.mem_singleton.mp ho
        exact ⟨hformed, controls_ofList hitems⟩
    · ext l
      have hl := congrFun hnothing l
      rw [hformed.depths_eq] at hl
      cases hh : (ofList items).holds l <;> simp_all [Books.total]
    · rw [hdoing] at hp
      cases hp
  | @forget i o hi ho hdoing =>
    obtain ⟨hcrowd, hdepth⟩ := h.idle hdoing
    refine ⟨fun k hk => h.formed k (List.mem_of_mem_eraseIdx hk),
      fun _ => ⟨hcrowd, hdepth.trans ?_⟩, fun t p hp => ?_⟩
    · ext l
      rw [Books.total_eq hi, ho]
      rfl
    · rw [hdoing] at hp
      cases hp
  | begin t ht hdoing =>
    refine ⟨h.formed, by simp, ?_⟩
    rintro t' p' ⟨⟩
    exact ⟨(h.idle hdoing).1.turn _, h.begin ht hdoing⟩
  | go hdoing fails =>
    have hcrowd := (h.busy _ _ hdoing).1
    refine ⟨(hcrowd.own_size fails).symm ▸ h.formed, by simp, ?_⟩
    rintro t' p' ⟨⟩
    exact ⟨hcrowd.own fails, h.go hdoing fails⟩
  | @finish t b hdoing =>
    obtain ⟨hcrowd, hway⟩ := h.busy _ _ hdoing
    obtain ⟨b', hb, hformed, hdepth⟩ := hway.climbs.books
    cases hb
    exact ⟨hformed, fun _ => ⟨hcrowd.turn _, hdepth⟩, fun _ _ hp => by cases hp⟩

theorem of_reachable (h : s.Reachable me) : s.Proper me := by
  induction h with
  | start h => exact start h
  | step _ hs ih => exact ih.step hs

end Proper

/-- A call on a group is in progress. Whatever the group does not control stays as it is; a lock
that the call may not enter is entered no more than before, one that it may not leave no less. -/
structure During (me : Thread) (s : Nest) (i : Nat) (o : Owned) (c : Change)
    (p : Point (Option Books)) : Prop where
  confined : p.Confined (fun l => c.enters o.group l = true) (fun l => c.leaves o.group l = true)
    fun _ => True
  controls : ∀ l, c.enters o.group l = true ∨ c.leaves o.group l = true →
    o.group.controls l = true
  elsewhere_le : ∀ l, s.books.elsewhere i l ≤ s.depth me l
  le_of_not_enters : ∀ l, c.enters o.group l = false →
    s.depth me l ≤ s.books.elsewhere i l + (o.group.holds l).toNat
  ge_of_not_leaves : ∀ l, c.leaves o.group l = false →
    s.books.elsewhere i l + (o.group.holds l).toNat ≤ s.depth me l
  eq_of_not_controls : ∀ l, o.group.controls l = false → s.depth me l = s.books.elsewhere i l
  /-- A lock that is left to enter others before it is held again in the end. -/
  regained : ∀ ls, c = .enterOnly ls → ∀ l,
    s.depth me l < s.books.elsewhere i l + (o.group.holds l).toNat → c.holds o.group l = true
  /-- A round that fails leaves nothing behind. -/
  round_failed : ∀ ls k, p = .before (round ls >>= k) → ∀ crowd,
    Crowd.Runs me (.before (round ls), s.crowd) (.before (.done false), crowd) →
      crowd.bank.depthOf me = s.depth me
  /-- A call that enters nothing comes to its end if it is let. -/
  comes_to_end : (∀ l, c.enters o.group l = false) → ∃ r crowd,
    Crowd.Runs me (p, s.crowd) (.before (.done r), crowd)
  /-- There is no breach, and the group holds what it should. -/
  ended : ∀ r, p = .before (.done r) → ∃ g, r = some (s.books.put i { o with group := g }) ∧
    ∀ l, g.controls l = o.group.controls l ∧ g.holds l = c.holds o.group l ∧
      s.depth me l = s.books.elsewhere i l + (c.holds o.group l).toNat

/-- The depths of the thread are accounted for by what it has entered directly and by its groups. -/
structure Accounted (me : Thread) (s : Nest) : Prop where
  total_eq : s.doing = none → ∀ l, s.depth me l = s.books.total l
  depth_eq : s.doing = none → ∀ i o, s.books.groups[i]? = some o → ∀ l,
    s.depth me l = s.books.elsewhere i l + (o.group.holds l).toNat
  controls_iff : ∀ o ∈ s.books.groups, ∀ l, o.group.controls l = true ↔
    (∃ i ∈ o.items, i.1 = l) ∧ ∀ i ∈ o.items, i.1 = l → i.2.2 = true
  controls_of_holds : ∀ o ∈ s.books.groups, ∀ l, o.group.holds l = true →
    o.group.controls l = true
  during : ∀ i o c p, s.books.groups[i]? = some o → s.doing = some (.change i c, p) →
    s.During me i o c p

namespace Proper

theorem during (h : s.Proper me) {i : Nat} {o : Owned} {c : Change}
    {p : Point (Option Books)} (hi : s.books.groups[i]? = some o)
    (hdoing : s.doing = some (.change i c, p)) : s.During me i o c p := by
  obtain ⟨hcrowd, hclimbs, hbase, hconfined, hle, hge⟩ := h.busy _ _ hdoing
  have ho := (h.formed o (List.mem_of_getElem? hi)).members
  have htotal := s.books.total_eq hi
  simp only [Task.enters, Task.leaves, hi, Option.mem_def, Option.some.injEq,
    exists_eq_left', Bool.not_eq_true, htotal] at hconfined hle hge
  have hcontrols : ∀ l, c.enters o.group l = true ∨ c.leaves o.group l = true →
      o.group.controls l = true := fun l hl => c.controls_of_touches ho hl
  refine ⟨hconfined, hcontrols, hbase, hle, hge, fun l hl => ?_, ?_, ?_, fun hno => ?_, ?_⟩
  · have hheld : o.group.holds l = false := by
      by_contra hne
      rw [ho.controls_of_holds (by simpa using hne)] at hl
      cases hl
    have hnot := fun ht => Bool.eq_false_iff.mp hl (hcontrols l ht)
    have hle := hle l (by simpa using fun h => hnot (.inl h))
    have hge := hge l (by simpa using fun h => hnot (.inr h))
    rw [hheld] at hle hge
    exact Nat.le_antisymm hle hge
  · rintro ls rfl l hlt
    by_contra hne
    have hleaves : (Change.enterOnly ls).leaves o.group l = false := by
      simp_all [Change.leaves]
    exact absurd (hge l hleaves) (Nat.not_le.mpr hlt)
  · rintro ls k rfl crowd hr
    exact hcrowd.round_failed rfl hbase hclimbs hr
  · obtain ⟨r, b, ha⟩ := hconfined.ends_alone (fun l => by simp [hno l]) hcrowd.calm
    exact ⟨r, _, Crowd.runs_of_alone ha⟩
  · rintro r rfl
    obtain ⟨⟨b, hb, hformed, hdepth⟩, hresult⟩ := hclimbs
    have hr := hresult i c rfl o hi
    refine ⟨c.result o.group, hr, fun l => ⟨c.controls_result, c.holds_result, ?_⟩⟩
    rw [hb] at hr
    cases hr
    rw [hdepth, Books.total_eq (Books.get?_put hi), Books.elsewhere_put, c.holds_result]

end Proper

/-- Wherever the threads have come, the depths are accounted for. -/
theorem accounted (h : s.Reachable me) : s.Accounted me := by
  have hp := Proper.of_reachable h
  refine ⟨fun hd l => congrFun (hp.idle hd).2 l, fun hd i o hi l => ?_,
    fun o ho => (hp.formed o ho).controls_iff, fun o ho l hl => ?_,
    fun i o c p hi hd => hp.during hi hd⟩
  · rw [congrFun (hp.idle hd).2 l, Books.total_eq hi]
  · exact (hp.formed o ho).members.controls_of_holds hl

/-- A thread that has entered a lock directly and by two groups, which both hold another lock as
well, and whose second group was told to leave the first lock alone. -/
theorem accounted_nested : ∃ s : Nest, s.books.groups.length = 2 ∧ s.depth 0 0 = 2 ∧
    s.depth 0 1 = 2 ∧ s.Accounted 0 := by
  have h : Reachable 0 { crowd := { bank := ⟨#[{ name := "a" }, { name := "b" }]⟩ } } :=
    .start (by decide)
  have h := h.perform rfl (.enter 0) Nat.two_pos rfl
  have h := h.step (.found [(1, "b", true), (0, "a", true)] (by decide) rfl)
  have h := h.perform rfl (.change 0 .enterAll) trivial rfl
  have h := h.step (.found [(0, "a", false), (1, "b", true), (0, "a", true)] (by decide) rfl)
  have h := h.perform rfl (.change 1 .enterAll) trivial rfl
  exact ⟨_, rfl, rfl, rfl, accounted h⟩

end Nest

end EntityStore.LockGroup
