import EntityStore.Proofs.Lock.Alone
import EntityStore.Proofs.Lock.Holdings

/-!
# No deadlock among groups

Any number of threads share a bank, each with at most one group of its locks and no lock besides.
However their calls interleave, a thread that waits for a lock has only locks below it. So the
threads never wait for each other in a circle, and as long as one waits for another, some thread
has a lock and waits for nobody.
-/
namespace EntityStore.LockGroup

open Routine

inductive Activity
  /-- Nothing, but it may own a group. -/
  | idle (group : Option LockGroup)
  /-- A call on its group, which is given up afterwards unless it is kept. -/
  | busy (keep : Bool) (point : Point (LockGroup × Option Breach))

structure System where
  bank : Bank
  threads : Thread → Activity := fun _ => .idle none

/-- The calls of a thread that owns a group, or none: it acquires a new one of any locks below `n`,
leaves or enters some of its locks, and gives it up. A window is opened by leaving locks. -/
inductive Begins (n : Nat) : Option LockGroup → Bool → Call → Prop
  | acquire (items : List (Nat × String × Bool)) (h : ∀ i ∈ items, i.1 < n) :
    Begins n none true (ofList items).enterAll
  | leaveOnly (g : LockGroup) (locks : List Nat) : Begins n (some g) true (g.leaveOnly locks)
  | enterOnly (g : LockGroup) (locks : List Nat) : Begins n (some g) true (g.enterOnly locks)
  | release (g : LockGroup) : Begins n (some g) true g.release
  | endWindow (g : LockGroup) : Begins n (some g) true g.endWindow
  | drop (g : LockGroup) : Begins n (some g) false g.release

namespace System

variable {s s' : System} {t u : Thread}

def set (s : System) (t : Thread) (a : Activity) (bank : Bank) : System :=
  ⟨bank, Function.update s.threads t a⟩

@[simp] theorem threads_set (s : System) (t : Thread) (a : Activity) (bank : Bank) :
    (s.set t a bank).threads t = a := Function.update_self ..

theorem set_set (s : System) (t : Thread) (a a' : Activity) (bank bank' : Bank) :
    (s.set t a bank).set t a' bank' = s.set t a' bank' := by
  simp only [set, Function.update_idem]

/-- One thread begins a call, makes a step in it, or ends it. -/
inductive Step (s : System) : System → Prop
  | begin {t : Thread} {group : Option LockGroup} {keep : Bool} {call : Call}
      (ht : s.threads t = .idle group) (hcall : Begins s.bank.size group keep call) :
    Step s (s.set t (.busy keep (.before call)) s.bank)
  | go {t : Thread} {keep : Bool} {p : Point (LockGroup × Option Breach)}
      (ht : s.threads t = .busy keep p) (fails : Bool) :
    Step s (s.set t (.busy keep (p.step t fails s.bank).1) (p.step t fails s.bank).2)
  | finish {t : Thread} {keep : Bool} {g : LockGroup}
      (ht : s.threads t = .busy keep (.before (.done (g, none)))) :
    Step s (s.set t (.idle (if keep then some g else none)) s.bank)

/-- The threads have come here from a bank of new locks. -/
inductive Reachable : System → Prop
  | start {bank : Bank} (h : ∀ l ∈ bank.locks, l.gate = {} ∧ l.owner = none) : Reachable { bank }
  | step {s s' : System} (h : Reachable s) (hs : s.Step s') : Reachable s'

theorem Reachable.alone (h : s.Reachable) {keep : Bool}
    {p q : Point (LockGroup × Option Breach)} {bank : Bank} (ht : s.threads t = .busy keep p)
    (ha : Point.Alone t (p, s.bank) (q, bank)) : (s.set t (.busy keep q) bank).Reachable := by
  suffices hl : ∀ x, Point.Alone t (p, s.bank) x → (s.set t (.busy keep x.1) x.2).Reachable from
    hl _ ha
  intro x hx
  induction hx with
  | refl =>
    have hself : s.set t (.busy keep p) s.bank = s := by
      rw [set, ← ht, Function.update_eq_self]
    rwa [hself]
  | @tail y z _ hz ih =>
    have hstep := ih.step (.go (threads_set s t _ _) false)
    rw [set_set] at hstep
    rw [hz]
    exact hstep

/-- A call advanced in one go comes to a point that the thread may have come to among others. -/
theorem Reachable.advance (h : s.Reachable) {group : Option LockGroup} {keep : Bool} {call : Call}
    (ht : s.threads t = .idle group) (hcall : Begins s.bank.size group keep call) :
    (s.set t (.busy keep (call.advance t s.bank).1.point)
      (call.advance t s.bank).2.1).Reachable := by
  have hbegun := h.step (.begin ht hcall)
  have ha := hbegun.alone (threads_set s t _ _) (call.advance_alone s.bank)
  rwa [set_set] at ha

def Waits (s : System) (t : Thread) (x : Nat) : Prop :=
  ∃ keep p, s.threads t = .busy keep p ∧ p.Waits x

def Owns (s : System) (t : Thread) (x : Nat) : Prop := (s.bank.get x).owner = some t

/-- The thread owns a lock, or does not any more but has still to clear its word. -/
def Has (s : System) (t : Thread) (x : Nat) : Prop :=
  s.Owns t x ∨ ∃ keep p, s.threads t = .busy keep p ∧ p.Leaves x

/-- A thread waits for a lock that another one has, in the sense of `has`. -/
def WaitsOn (s : System) (has : Thread → Nat → Prop) (t u : Thread) : Prop :=
  ∃ x, s.Waits t x ∧ has u x

structure Untangled (s : System) : Prop where
  ascending : ∀ t x, s.Waits t x → ∀ y, s.Has t y → y < x
  acyclic : ∀ t, ¬Relation.TransGen (s.WaitsOn s.Has) t t
  /-- If a thread waits for an owner, then some owner waits for none. -/
  owner_free : ∀ t u, s.WaitsOn s.Owns t u → ∃ v x, s.Owns v x ∧ ∀ w, ¬s.WaitsOn s.Owns v w
  /-- The same if an owner has a lock until its word is clear. -/
  holder_free : ∀ t u, s.WaitsOn s.Has t u → ∃ v x, s.Has v x ∧ ∀ w, ¬s.WaitsOn s.Has v w

end System

/-- What a call ends with, and what the thread has entered then. -/
def Ends (keep : Bool) (n : Nat) (r : LockGroup × Option Breach) (d : Nat → Nat) : Prop :=
  if keep then Settled (fun _ => 0) n r d else r.2 = none ∧ d = fun _ => 0

def Activity.Fits (n : Nat) (d : Nat → Nat) : Activity → Prop
  | idle none => d = fun _ => 0
  | idle (some g) => Formed n g.members ∧ d = depths (fun _ => 0) g.members
  | busy keep p => p.Climbs (fun _ => 0) n (Ends keep n) d

theorem Begins.fits {n : Nat} {group : Option LockGroup} {keep : Bool} {call : Call}
    {d : Nat → Nat} (h : Begins n group keep call) (hd : (Activity.idle group).Fits n d) :
    (Activity.busy keep (.before call)).Fits n d := by
  have hkept : ∀ {g : LockGroup} {call : Call},
      call.Climbs (fun _ => 0) n (Settled (fun _ => 0) n) (depths (fun _ => 0) g.members) →
      d = depths (fun _ => 0) g.members → (Activity.busy true (.before call)).Fits n d := by
    rintro g call hc rfl
    exact hc.mono fun r d hr => hr
  cases h with
  | acquire items h =>
    obtain ⟨hformed, hdepths⟩ := formed_ofList (fun _ => 0) h
    exact hkept (settled_enterWhere hformed _) (Eq.trans hd hdepths.symm)
  | leaveOnly g locks => exact hkept (settled_leaveWhere hd.1 _) hd.2
  | enterOnly g locks => exact hkept (settled_enterWhere hd.1 _) hd.2
  | release g => exact hkept (settled_leaveWhere hd.1 _) hd.2
  | endWindow g => exact hkept (settled_endWindow hd.1) hd.2
  | drop g =>
    obtain ⟨hformed, rfl⟩ := hd
    exact (climbs_release hformed).mono fun r d hr => hr

namespace System

variable {s s' : System} {t u : Thread}

/-- Each thread fits the bank, and a lock is held by the one thread that has it, if any. -/
structure Proper (s : System) : Prop where
  solid : s.bank.Solid
  fits : ∀ t, (s.threads t).Fits s.bank.size (s.bank.depthOf t)
  holder : ∀ x, ∃ o : Option Thread,
    (∀ t, s.Has t x ↔ o = some t) ∧ (s.bank.get x).gate.word.held = o.isSome

namespace Proper

theorem start {bank : Bank} (h : ∀ l ∈ bank.locks, l.gate = {} ∧ l.owner = none) :
    Proper { bank } := by
  have hget := Bank.get_new h
  refine ⟨fun x t ho => ?_, fun t => ?_, fun x => ⟨none, fun t => ⟨?_, by simp⟩, ?_⟩⟩
  · rw [(hget x).2] at ho
    cases ho
  · ext x
    exact Bank.depthOf_eq_zero (by simp [(hget x).2])
  · rintro (ho | ⟨keep, p, hp, -⟩)
    · exact absurd ((hget x).2.symm.trans ho) (by simp)
    · cases hp
  · rw [(hget x).1]
    rfl

/-- What a thread in a call has can be told from where it is in the call. -/
theorem has_iff {keep : Bool} {p : Point (LockGroup × Option Breach)}
    (ht : s.threads t = .busy keep p) (x : Nat) : s.Has t x ↔ Point.Has t s.bank p x := by
  simp only [Has, Owns, Point.Has, ht, Activity.busy.injEq]
  refine or_congr .rfl ⟨?_, fun hl => ⟨_, _, ⟨rfl, rfl⟩, hl⟩⟩
  rintro ⟨_, _, ⟨rfl, rfl⟩, hl⟩
  exact hl

theorem owner_eq_none (h : s.Proper) {x : Nat}
    (hx : (s.bank.get x).gate.word.held = false) : (s.bank.get x).owner = none := by
  obtain ⟨o, ho, hheld⟩ := h.holder x
  rw [hx] at hheld
  by_contra hne
  obtain ⟨t, ht⟩ := Option.ne_none_iff_exists'.mp hne
  rw [(ho t).mp (.inl ht)] at hheld
  cases hheld

theorem has_set_of_ne {a : Activity} {bank : Bank} {x : Nat} (hu : u ≠ t)
    (ho : (bank.get x).owner = some u ↔ (s.bank.get x).owner = some u) :
    (s.set t a bank).Has u x ↔ s.Has u x := by
  simp only [Has, Owns, set, Function.update_of_ne hu, ho]

/-- What a thread turns to fits it, and nothing has changed for the others. -/
theorem fits_set (h : s.Proper) {a : Activity} {bank : Bank} (hsize : bank.size = s.bank.size)
    (hdepth : ∀ u ≠ t, bank.depthOf u = s.bank.depthOf u)
    (ha : a.Fits s.bank.size (bank.depthOf t)) (u : Thread) :
    ((s.set t a bank).threads u).Fits bank.size (bank.depthOf u) := by
  rw [hsize]
  by_cases hu : u = t
  · subst hu
    simpa only [set, Function.update_self] using ha
  · simpa only [set, Function.update_of_ne hu, hdepth u hu] using h.fits u

/-- A step of a thread in a call. -/
theorem go (h : s.Proper) {keep : Bool} {p : Point (LockGroup × Option Breach)}
    (ht : s.threads t = .busy keep p) (fails : Bool) :
    (s.set t (.busy keep (p.step t fails s.bank).1) (p.step t fails s.bank).2).Proper := by
  have hp : p.Climbs (fun _ => 0) s.bank.size (Ends keep s.bank.size) (s.bank.depthOf t) := by
    have := h.fits t
    rwa [ht] at this
  obtain ⟨hframe, hclimbs⟩ := hp.step h.solid (fun l => h.owner_eq_none) fails
  generalize p.step t fails s.bank = r at hframe hclimbs
  obtain ⟨p', b'⟩ := r
  have hmine : ∀ x, s.Has t x ↔ Point.Has t s.bank p x := has_iff ht
  have hmine' : ∀ x, (s.set t (.busy keep p') b').Has t x ↔ Point.Has t b' p' x :=
    has_iff (threads_set s t _ _)
  have hothers : ∀ u ≠ t, ∀ x, (s.set t (.busy keep p') b').Has u x ↔ s.Has u x :=
    fun u hu x => has_set_of_ne hu (hframe.owner_iff u hu x)
  refine ⟨hframe.solid, ?_, fun x => ?_⟩
  · exact h.fits_set hframe.size_eq hframe.depthOf_eq hclimbs
  · exact hframe.holder (hmine x) (hmine' x) (fun u hu => hothers u hu x) (h.holder x)

/-- A thread begins or ends a call: what it has does not change. -/
theorem turn (h : s.Proper) {a : Activity} (ha : a.Fits s.bank.size (s.bank.depthOf t))
    (hold : ∀ keep p x, s.threads t = .busy keep p → ¬p.Leaves x)
    (hnew : ∀ keep p x, a = .busy keep p → ¬p.Leaves x) : (s.set t a s.bank).Proper := by
  refine ⟨h.solid, ?_, fun x => ?_⟩
  · exact h.fits_set rfl (fun _ _ => rfl) ha
  · obtain ⟨o, ho, hheld⟩ := h.holder x
    refine ⟨o, fun u => ?_, hheld⟩
    rw [← ho]
    by_cases hu : u = t
    · subst hu
      simp only [Has, Owns, set, Function.update_self]
      refine or_congr .rfl ⟨?_, ?_⟩
      · rintro ⟨keep, p, hp, hl⟩
        exact absurd hl (hnew keep p x hp)
      · rintro ⟨keep, p, hp, hl⟩
        exact absurd hl (hold keep p x hp)
    · exact has_set_of_ne hu .rfl

theorem step (h : s.Proper) (hs : s.Step s') : s'.Proper := by
  cases hs with
  | @begin t group keep call ht hcall =>
    refine h.turn (hcall.fits (ht ▸ h.fits t)) (fun _ _ _ hp => ?_) (fun _ _ _ hp => ?_)
    · rw [ht] at hp
      cases hp
    · cases hp
      exact id
  | go ht fails => exact h.go ht fails
  | @finish t keep g ht =>
    refine h.turn ?_ (fun _ _ _ hp => ?_) (fun _ _ _ hp => absurd hp (by simp))
    · have hfits := h.fits t
      rw [ht] at hfits
      cases keep with
      | true => exact ⟨hfits.formed, hfits.depths_eq⟩
      | false => exact hfits.2
    · rw [ht] at hp
      cases hp
      exact id

theorem of_reachable (h : s.Reachable) : s.Proper := by
  induction h with
  | start h => exact start h
  | step _ hs ih => exact ih.step hs

/-- What a thread waits for is in the bank and above all that it has. -/
theorem lt_of_waits (h : s.Proper) {x : Nat} (hw : s.Waits t x) :
    x < s.bank.size ∧ ∀ y, s.Has t y → y < x := by
  obtain ⟨keep, p, ht, hp⟩ := hw
  have hfits := h.fits t
  rw [ht] at hfits
  cases p with
  | before rest => exact absurd hp id
  | inside l phase next =>
    obtain ⟨rfl, haim⟩ := hp
    obtain ⟨hl, -, -, hnext⟩ := hfits
    rw [haim] at hnext
    refine ⟨hl, fun y hy => ?_⟩
    rcases hy with ho | ⟨_, _, hp, hleaves⟩
    · exact hnext.1 y (h.solid.depthOf_pos ho)
    · rw [ht] at hp
      cases hp
      exact absurd (haim.symm.trans hleaves.2) (by decide)

/-- A chain of waits climbs from the lock waited for first to one that the last thread has. -/
theorem le_of_transGen (h : s.Proper) (hr : Relation.TransGen (s.WaitsOn s.Has) t u) :
    ∃ x y, s.Waits t x ∧ x ≤ y ∧ s.Has u y := by
  induction hr with
  | single hw =>
    obtain ⟨x, hx, hy⟩ := hw
    exact ⟨x, x, hx, Nat.le_refl x, hy⟩
  | tail _ hw ih =>
    obtain ⟨x, y, hx, hxy, hy⟩ := ih
    obtain ⟨z, hz, hhas⟩ := hw
    exact ⟨x, z, hx, Nat.le_of_lt (Nat.lt_of_le_of_lt hxy ((h.lt_of_waits hz).2 y hy)), hhas⟩

/-- Following the waits from thread to thread ends, since the locks ascend. -/
theorem exists_free (h : s.Proper) {has : Thread → Nat → Prop} (hhas : ∀ t x, has t x → s.Has t x)
    (hw : s.WaitsOn has t u) : ∃ v x, has v x ∧ ∀ w, ¬s.WaitsOn has v w := by
  obtain ⟨x, hx, hu⟩ := hw
  induction hn : s.bank.size - x using Nat.strongRecOn generalizing t u x with
  | ind n ih =>
    by_cases hfree : ∀ w, ¬s.WaitsOn has u w
    · exact ⟨u, x, hu, hfree⟩
    · obtain ⟨w, hw⟩ := not_forall_not.mp hfree
      obtain ⟨y, hy, hwy⟩ := hw
      obtain ⟨hlt, habove⟩ := h.lt_of_waits hy
      have hxy := habove x (hhas u x hu)
      exact ih _ (by omega) y hy hwy rfl

end Proper

/-- Wherever the threads have come, whoever waits for a lock has only locks below it; nobody waits
in a circle, and while somebody waits for another, somebody has a lock and waits for nobody. -/
theorem untangled (h : s.Reachable) : s.Untangled := by
  have hp := Proper.of_reachable h
  refine ⟨fun t x hx => (hp.lt_of_waits hx).2, fun t hr => ?_, fun t u => ?_, fun t u => ?_⟩
  · obtain ⟨x, y, hx, hxy, hy⟩ := hp.le_of_transGen hr
    have := (hp.lt_of_waits hx).2 y hy
    omega
  · exact hp.exists_free fun _ _ => .inl
  · exact hp.exists_free fun _ _ => id

/-- A thread that wants a lock back waits for the thread that has it by now, and holds a lock below
it all the while. -/
theorem untangled_contended : ∃ s : System, s.Owns 0 0 ∧ s.WaitsOn s.Owns 0 1 ∧ s.Untangled := by
  have h : Reachable { bank := ⟨#[{ name := "a" }, { name := "b" }]⟩ } := .start (by decide)
  -- thread 0 acquires both locks and leaves the second one
  have h := h.advance (t := 0) rfl (.acquire [(1, "b", true), (0, "a", true)] (by decide))
  have h := h.step (.finish (t := 0) rfl)
  have h := h.advance (t := 0) rfl (.leaveOnly _ [1])
  have h := h.step (.finish (t := 0) rfl)
  -- thread 1 acquires that one, and thread 0 wants it back
  have h := h.advance (t := 1) rfl (.acquire [(1, "b", true)] (by decide))
  have h := h.advance (t := 0) rfl (.enterOnly _ [1])
  refine ⟨_, ?_, ⟨1, ?_, ?_⟩, untangled h⟩
  · rfl
  · exact ⟨_, .inside 1 .asleep _, rfl, rfl, rfl⟩
  · rfl

end System

end EntityStore.LockGroup
