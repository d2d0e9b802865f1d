import EntityStore.Proofs.Lock.Change
import EntityStore.Proofs.Lock.Guard

/-!
# A group alone with its locks

A thread that owns each lock it meets, or finds it free, is never refused and never waits. So the
calls of its groups end at once and in silence, and each lock is then deeper by what the groups hold
of it, and else as it was.
-/
namespace EntityStore

namespace Lock

variable {l : Lock} {me : Thread}

def deepened (l : Lock) (me : Thread) : Nat → Lock
  | 0 => l
  | n + 1 => (l.deepened me n).entered me (l.deepened me n).lent

@[simp] theorem lent_deepened (n : Nat) : (l.deepened me n).lent = l.lent := by
  induction n with
  | zero => rfl
  | succ n ih => exact ih

theorem Open.deepened (h : l.Open me) (n : Nat) : (l.deepened me n).Open me := by
  cases n with
  | zero => exact h
  | succ n => exact open_entered _

theorem Open.tryEnter_eq (h : l.Open me) : l.tryEnter me = (true, l.entered me l.lent) := by
  rcases h with ⟨ho, -⟩ | ⟨ho, hd, hg⟩
  · have howned : l.isOwnedBy me = true := decide_eq_true ho
    simp [tryEnter, entered, howned, ho]
  · have hnot : l.isOwnedBy me = false := by simp [isOwnedBy, ho]
    simp [tryEnter, hnot, proceed, hg, Gate.settle, Gate.enough, Gate.step, entered, hd]

theorem Open.leave_deepened (h : l.Open me) (n : Nat) :
    (l.deepened me (n + 1)).leave me = .ok (l.deepened me n) :=
  ((h.deepened n).leave_entered _).trans (congrArg Except.ok (with_lent_of_eq rfl))

end Lock

namespace Bank

variable {b b' : Bank} {me : Thread} {d : Nat → Nat} {l : Nat}

theorem ext_get (hsize : b'.size = b.size) (hget : ∀ l < b.size, b'.get l = b.get l) : b' = b := by
  have hgetD : ∀ {c : Bank} {i : Nat} (hi : i < c.locks.size), c.get i = c.locks[i] := fun hi => by
    simp [get, Array.getD_eq_getD_getElem?, hi]
  obtain ⟨locks⟩ := b
  obtain ⟨locks'⟩ := b'
  refine congrArg mk (Array.ext hsize fun i hi hi' => ?_)
  exact (hgetD hi).symm.trans ((hget i hi').trans (hgetD hi'))

/-- The thread has entered each lock so many times more. -/
structure Deepened (b : Bank) (me : Thread) (d : Nat → Nat) (b' : Bank) : Prop where
  size_eq : b'.size = b.size
  get_eq : ∀ l, b'.get l = (b.get l).deepened me (d l)
  lt_size : ∀ l, 0 < d l → l < b.size

namespace Deepened

theorem refl (b : Bank) (me : Thread) : b.Deepened me (fun _ => 0) b :=
  ⟨rfl, fun _ => rfl, fun _ h => absurd h (Nat.lt_irrefl 0)⟩

/-- One lock is entered or left. -/
theorem set (h : b.Deepened me d b') (hl : l < b.size) (n : Nat) :
    b.Deepened me (Function.update d l n) (b'.set l ((b.get l).deepened me n)) := by
  refine ⟨(size_set ..).trans h.size_eq, fun x => ?_, fun x hx => ?_⟩
  · by_cases hxl : x = l
    · subst hxl
      rw [Function.update_self, get_set_self (h.size_eq ▸ hl)]
    · rw [Function.update_of_ne hxl, get_set_ne _ (Ne.symm hxl), h.get_eq]
  · by_cases hxl : x = l
    · exact hxl ▸ hl
    · rw [Function.update_of_ne hxl] at hx
      exact h.lt_size x hx

theorem eq (h : b.Deepened me (fun _ => 0) b') : b' = b :=
  ext_get h.size_eq fun l _ => h.get_eq l

end Deepened

end Bank

namespace Routine

variable {α β : Type} {me : Thread}

/-- If nothing is refused, the routine writes nothing and ends as `post` says. -/
def Smooth (post : α → Prop) : Routine α → Prop
  | done a => post a
  | enter _ next => next.Smooth post
  | tryEnter _ next => (next true).Smooth post
  | leave _ next => (next true).Smooth post
  | note _ _ => False

theorem smooth_bind {post : β → Prop} (r : Routine α) (f : α → Routine β) :
    (r >>= f).Smooth post ↔ r.Smooth fun a => (f a).Smooth post := by
  show (r.bind f).Smooth post ↔ _
  induction r with
  | done a => rfl
  | enter l next ih => simp only [bind, Smooth, ih]
  | tryEnter l next ih => simp only [bind, Smooth, ih]
  | leave l next ih => simp only [bind, Smooth, ih]
  | note m next ih => simp only [bind, Smooth]

theorem Smooth.mono {post post' : α → Prop} {r : Routine α} (h : r.Smooth post)
    (hp : ∀ a, post a → post' a) : r.Smooth post' := by
  induction r with
  | done a => exact hp a h
  | enter l next ih => exact ih h
  | tryEnter l next ih => exact ih true h
  | leave l next ih => exact ih true h
  | note m next ih => exact h

/-- A thread that finds every lock open comes to the end of a routine at once. -/
theorem Climbs.advance_open {post : α → (Nat → Nat) → Prop} {quiet : α → Prop} {r : Routine α}
    {b b' : Bank} {d : Nat → Nat} (ho : ∀ l, (b.get l).Open me)
    (hr : r.Climbs (fun _ => 0) b.size post d) (hs : r.Smooth quiet) (hb : b.Deepened me d b') :
    ∃ a d' b'', r.advance me b' = (.finished a, b'', []) ∧ post a d' ∧ b.Deepened me d' b'' := by
  induction r generalizing d b' with
  | done a => exact ⟨a, d, b', rfl, hr, hb⟩
  | enter l next ih =>
    obtain ⟨hl, -, hr⟩ := hr
    have henter := ((ho l).deepened (d l)).enter_eq
    rw [← hb.get_eq] at henter
    simp only [advance, Bank.on, henter]
    refine ih hr hs ?_
    rw [hb.get_eq]
    exact hb.set hl (d l + 1)
  | tryEnter l next ih =>
    obtain ⟨hl, -, hr, -⟩ := hr
    have henter := ((ho l).deepened (d l)).tryEnter_eq
    rw [← hb.get_eq] at henter
    simp only [advance, Bank.on, henter]
    refine ih true hr hs ?_
    rw [hb.get_eq]
    exact hb.set hl (d l + 1)
  | leave l next ih =>
    obtain ⟨hpos, hr⟩ := hr
    obtain ⟨n, hn⟩ := Nat.exists_eq_add_one.mpr hpos
    have hleave := (ho l).leave_deepened n
    rw [← hn, ← hb.get_eq] at hleave
    simp only [advance, hleave]
    refine ih true hr hs ?_
    rw [lower, hn]
    exact hb.set (hb.lt_size l hpos) n
  | note m next ih => exact hs.elim

end Routine

namespace LockGroup

open Routine

variable {me : Thread}

theorem smooth_tryAll (ls : List Nat) : (tryAll ls).Smooth (· = true) := by
  induction ls with
  | nil => rfl
  | cons l ls ih =>
    unfold tryAll
    rw [smooth_bind]
    show ((tryAll ls) >>= _).Smooth _
    rw [smooth_bind]
    refine ih.mono ?_
    rintro _ rfl
    rfl

theorem smooth_round (ls : List Nat) : (round ls).Smooth (· = true) := by
  cases ls with
  | nil => rfl
  | cons l ls =>
    unfold round
    rw [smooth_bind]
    show ((tryAll ls) >>= _).Smooth _
    rw [smooth_bind]
    refine (smooth_tryAll ls).mono ?_
    rintro _ rfl
    rfl

/-- The first round succeeds, so that there is nothing to say. -/
theorem smooth_acquire (ls : List Nat) : (acquire ls).Smooth fun _ => True := by
  have hrounds : (rounds ls triedRounds).Smooth (· = true) := by
    unfold triedRounds rounds
    rw [smooth_bind]
    refine (smooth_round ls).mono ?_
    rintro _ rfl
    rfl
  unfold acquire
  rw [smooth_bind]
  refine hrounds.mono ?_
  rintro _ rfl
  trivial

theorem smooth_leaveMembers (chosen : Member → Bool) (ms : List Member) :
    (leaveMembers chosen ms).Smooth (·.2 = none) := by
  induction ms with
  | nil => rfl
  | cons m ms ih =>
    unfold leaveMembers
    rw [smooth_bind]
    refine ih.mono ?_
    rintro ⟨ms', _⟩ rfl
    dsimp only
    split
    · rfl
    · rfl

theorem smooth_leaveWhere (g : LockGroup) (chosen : Member → Bool) :
    (g.leaveWhere chosen).Smooth (·.2 = none) := by
  unfold leaveWhere
  rw [smooth_bind]
  exact (smooth_leaveMembers chosen g.members).mono fun _ h => h

theorem smooth_enterWhere (g : LockGroup) (chosen : Member → Bool) :
    (g.enterWhere chosen).Smooth (·.2 = none) := by
  unfold enterWhere
  split
  · rfl
  · dsimp only
    rw [smooth_bind]
    refine (smooth_leaveWhere g _).mono ?_
    rintro ⟨g', _⟩ rfl
    dsimp only
    rw [if_neg (by simp), smooth_bind]
    exact (smooth_acquire _).mono fun _ _ => rfl

theorem smooth_endWindow (g : LockGroup) : g.endWindow.Smooth (·.2 = none) := by
  unfold endWindow
  rw [smooth_bind]
  refine (smooth_leaveWhere g _).mono ?_
  rintro ⟨g', _⟩ rfl
  exact smooth_enterWhere g' _

theorem Change.smooth (c : Change) (g : LockGroup) : (c.call g).Smooth (·.2 = none) := by
  cases c with
  | leaveOnly ls => exact smooth_leaveWhere g _
  | enterOnly ls => exact smooth_enterWhere g _
  | release => exact smooth_leaveWhere g _
  | enterAll => exact smooth_enterWhere g _
  | endWindow => exact smooth_endWindow g

/-- What the locks are deeper by that a group holds. -/
abbrev weight (g : LockGroup) : Nat → Nat := depths (fun _ => 0) g.members

/-- Told to enter and leave locks that are open, the group does so at once. -/
theorem Change.advance_open (c : Change) {g : LockGroup} {b b' : Bank}
    (ho : ∀ l, (b.get l).Open me) (hg : Formed b.size g.members)
    (hb : b.Deepened me g.weight b') :
    ∃ b'', (c.call g).advance me b' = (.finished (c.result g, none), b'', []) ∧
      Formed b.size (c.result g).members ∧ b.Deepened me (c.result g).weight b'' := by
  obtain ⟨a, d, b'', ha, hends, hb''⟩ :=
    (c.climbs hg).advance_open ho (c.smooth g) hb
  obtain rfl := hends.eq
  obtain rfl := hends.depths_eq
  exact ⟨b'', ha, hends.formed, hb''⟩

end LockGroup

end EntityStore
