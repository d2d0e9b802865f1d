import EntityStore.Proofs.Lock.Alone
import EntityStore.Proofs.Lock.Holdings

/-!
# What a call of a group touches

Which locks a routine may enter and which it may leave, whatever the answers are. A lock that it may
not enter is never entered more often than before, and one that it may not leave never less often;
a call of a group touches only locks that the group controls, and leaves only those that it is told
to leave or holds again in the end.
-/
namespace EntityStore

namespace Routine

variable {α β : Type} {enters leaves : Nat → Prop}

/-- The routine enters and leaves only locks that it may, and ends as `post` says. -/
def Confined (enters leaves : Nat → Prop) (post : α → Prop) : Routine α → Prop
  | done a => post a
  | enter l next => enters l ∧ next.Confined enters leaves post
  | tryEnter l next => enters l ∧ ∀ ok, (next ok).Confined enters leaves post
  | leave l next => leaves l ∧ ∀ ok, (next ok).Confined enters leaves post
  | note _ next => next.Confined enters leaves post

@[simp] theorem confined_pure {post : α → Prop} (a : α) :
    (pure a : Routine α).Confined enters leaves post ↔ post a := .rfl

theorem confined_bind {post : β → Prop} (r : Routine α) (f : α → Routine β) :
    (r >>= f).Confined enters leaves post ↔
      r.Confined enters leaves fun a => (f a).Confined enters leaves post := by
  show (r.bind f).Confined enters leaves post ↔ _
  induction r with
  | done a => rfl
  | enter l next ih => simp only [bind, Confined, ih]
  | tryEnter l next ih => simp only [bind, Confined, ih]
  | leave l next ih => simp only [bind, Confined, ih]
  | note m next ih => simp only [bind, Confined, ih]

theorem Confined.mono {post post' : α → Prop} {r : Routine α} (h : r.Confined enters leaves post)
    (hp : ∀ a, post a → post' a) : r.Confined enters leaves post' := by
  induction r with
  | done a => exact hp a h
  | enter l next ih => exact ⟨h.1, ih h.2⟩
  | tryEnter l next ih => exact ⟨h.1, fun ok => ih ok (h.2 ok)⟩
  | leave l next ih => exact ⟨h.1, fun ok => ih ok (h.2 ok)⟩
  | note m next ih => exact ih h

/-- A routine that enters nothing never waits. -/
theorem Confined.finishes {post : α → Prop} {r : Routine α} (h : r.Confined enters leaves post)
    (hno : ∀ l, ¬enters l) (me : Thread) (b : Bank) : ∃ a, (r.advance me b).1 = .finished a := by
  induction r generalizing b with
  | done a => exact ⟨a, rfl⟩
  | enter l next ih => exact absurd h.1 (hno l)
  | tryEnter l next ih => exact absurd h.1 (hno l)
  | leave l next ih =>
    simp only [advance]
    split
    · exact ih true (h.2 true) _
    · exact ih false (h.2 false) _
  | note m next ih => exact ih h b

@[simp] theorem confined_take {l : Nat} {post : Unit → Prop} :
    (take l).Confined enters leaves post ↔ enters l ∧ post () := .rfl

@[simp] theorem confined_tryTake {l : Nat} {post : Bool → Prop} :
    (tryTake l).Confined enters leaves post ↔ enters l ∧ ∀ ok, post ok := .rfl

@[simp] theorem confined_give {l : Nat} {post : Bool → Prop} :
    (give l).Confined enters leaves post ↔ leaves l ∧ ∀ ok, post ok := .rfl

@[simp] theorem confined_say {post : Unit → Prop} (m : Notice) :
    (say m).Confined enters leaves post ↔ post () := .rfl

namespace Point

variable {post : α → Prop} {p p' : Point α} {d d' : Nat → Nat}

def Confined (enters leaves : Nat → Prop) (post : α → Prop) : Point α → Prop
  | before rest => rest.Confined enters leaves post
  | inside l phase next =>
    (if phase.aim = .leave then leaves l else enters l) ∧
      ∀ ok, (next ok).Confined enters leaves post

theorem Confined.shift (hs : Shift p d p' d') (hp : p.Confined enters leaves post) :
    p'.Confined enters leaves post := by
  cases hs with
  | rest | note => exact hp
  | enter => exact hp.2
  | tryEnter | leave => exact hp.2 true
  | refuse => exact hp.2 false
  | wait => exact ⟨hp.1, fun _ => hp.2⟩
  | attempt => exact ⟨hp.1, hp.2⟩
  | giveUp => exact ⟨hp.1, hp.2⟩
  | goOn l next d hapt haim => exact ⟨by rw [haim]; exact hp.1, hp.2⟩
  | entered | cleared => exact hp.2 true
  | failed => exact hp.2 false

/-- A thread that enters nothing more comes to its end if it is left alone. -/
theorem Confined.ends_alone {me : Thread} {b : Bank} (hp : p.Confined enters leaves post)
    (hno : ∀ l, ¬enters l) (hcalm : p.Calm me b) : ∃ a b', Alone me (p, b) (before (.done a), b') := by
  have hbefore : ∀ {r : Routine α} (b : Bank), r.Confined enters leaves post →
      ∃ a b', Alone me (before r, b) (before (.done a), b') := by
    intro r b hr
    obtain ⟨a, ha⟩ := hr.finishes hno me b
    have halone : Alone me (before r, b) _ := r.advance_alone b
    rw [ha] at halone
    exact ⟨a, _, halone⟩
  cases p with
  | before r => exact hbefore b hp
  | inside l phase next =>
    obtain ⟨haim, hnext⟩ := hp
    have hleave : phase.aim = .leave := by
      by_contra hne
      rw [if_neg hne] at haim
      exact hno l haim
    have hfresh : phase.Fresh (b.get l).gate.word := by
      cases phase with
      | leave | wake => trivial
      | _ => cases hleave
    obtain ⟨ok, gate, -, -, ha⟩ | ⟨_, -, hwait, -⟩ :=
      call_alone me (hcalm.2.2 hleave) next phase hfresh
    · obtain ⟨a, b', hb'⟩ := hbefore _ (hnext ok)
      exact ⟨a, b', ha.trans hb'⟩
    · rw [hleave] at hwait
      cases hwait

/-- A lock that may not be entered is not entered. -/
theorem Confined.shift_le {x : Nat} (hs : Shift p d p' d') (hp : p.Confined enters leaves post)
    (hx : ¬enters x) : d' x ≤ d x := by
  have hraise : ∀ l, enters l → raise d l x ≤ d x := fun l hl => by
    have hne : x ≠ l := fun h => hx (h ▸ hl)
    simp [raise, hne]
  have hlower : ∀ l, lower d l x ≤ d x := fun l => by
    by_cases h : x = l
    · subst h
      simp [lower]
    · simp [lower, h]
  cases hs with
  | rest | note | wait | attempt | refuse | goOn | failed | cleared => exact Nat.le_refl _
  | enter | tryEnter => exact hraise _ hp.1
  | leave | giveUp => exact hlower _
  | entered l next d haim => exact hraise l (by simpa [haim] using hp.1)

/-- A lock that may not be left is not left. -/
theorem Confined.le_shift {x : Nat} (hs : Shift p d p' d') (hp : p.Confined enters leaves post)
    (hx : ¬leaves x) : d x ≤ d' x := by
  have hlower : ∀ l, leaves l → d x ≤ lower d l x := fun l hl => by
    have hne : x ≠ l := fun h => hx (h ▸ hl)
    simp [lower, hne]
  have hraise : ∀ l, d x ≤ raise d l x := fun l => by
    by_cases h : x = l
    · subst h
      simp [raise]
    · simp [raise, h]
  cases hs with
  | rest | note | wait | attempt | refuse | goOn | failed | cleared => exact Nat.le_refl _
  | enter | tryEnter | entered => exact hraise _
  | leave | giveUp => exact hlower _ hp.1

/-- What the thread has entered for other reasons is never left by a routine that climbs. -/
theorem Climbs.base_le_shift {base : Nat → Nat} {n : Nat} {post : α → (Nat → Nat) → Prop}
    (hs : Shift p d p' d') (hp : p.Climbs base n post d) (hb : ∀ x, base x ≤ d x) (x : Nat) :
    base x ≤ d' x := by
  have hlower : ∀ l, base l < d l → base x ≤ lower d l x := fun l hl => by
    by_cases h : x = l
    · subst h
      simp [lower]
      omega
    · rw [lower, Function.update_of_ne h]
      exact hb x
  cases hs with
  | rest | note | wait | attempt | refuse | goOn | failed | cleared => exact hb x
  | enter | tryEnter | entered => exact LockGroup.le_raise hb x
  | leave | giveUp => exact hlower _ hp.1

end Point

end Routine

namespace LockGroup

open Routine

variable {enters leaves : Nat → Prop} {ls : List Nat}

section Acquire

variable (h : ∀ l ∈ ls, enters l ∧ leaves l)

include h

theorem confined_tryAll : (tryAll ls).Confined enters leaves fun _ => True := by
  induction ls with
  | nil => simp [tryAll]
  | cons l ls ih =>
    obtain ⟨henter, hleave⟩ := h l List.mem_cons_self
    unfold tryAll
    rw [confined_bind, confined_tryTake]
    refine ⟨henter, fun ok => ?_⟩
    cases ok with
    | false => simp
    | true =>
      simp only [if_true]
      rw [confined_bind]
      refine (ih fun k hk => h k (List.mem_cons_of_mem _ hk)).mono fun ok _ => ?_
      cases ok with
      | true => simp
      | false =>
        simp only [Bool.false_eq_true, if_false]
        rw [confined_bind, confined_give]
        exact ⟨hleave, fun _ => trivial⟩

theorem confined_round : (round ls).Confined enters leaves fun _ => True := by
  cases ls with
  | nil => simp [round]
  | cons l ls =>
    obtain ⟨henter, hleave⟩ := h l List.mem_cons_self
    unfold round
    rw [confined_bind, confined_take, confined_bind]
    refine ⟨henter, ?_⟩
    refine (confined_tryAll fun k hk => h k (List.mem_cons_of_mem _ hk)).mono fun ok _ => ?_
    cases ok with
    | true => simp
    | false =>
      simp only [Bool.false_eq_true, if_false]
      rw [confined_bind, confined_give]
      exact ⟨hleave, fun _ => trivial⟩

theorem confined_rounds (count : Nat) :
    (rounds ls count).Confined enters leaves fun _ => True := by
  induction count with
  | zero => simp [rounds]
  | succ count ih =>
    unfold rounds
    rw [confined_bind]
    refine (confined_round h).mono fun ok _ => ?_
    cases ok with
    | true => simp
    | false => simpa only [Bool.false_eq_true, if_false] using ih

theorem confined_takeAll : (takeAll ls).Confined enters leaves fun _ => True := by
  induction ls with
  | nil => simp [takeAll]
  | cons l ls ih =>
    unfold takeAll
    rw [confined_bind, confined_take]
    exact ⟨(h l List.mem_cons_self).1, ih fun k hk => h k (List.mem_cons_of_mem _ hk)⟩

theorem confined_acquire : (acquire ls).Confined enters leaves fun _ => True := by
  unfold acquire
  rw [confined_bind]
  refine (confined_rounds h _).mono fun ok _ => ?_
  cases ok with
  | true => simp
  | false =>
    simp only [Bool.false_eq_true, if_false]
    rw [confined_bind, confined_say]
    exact confined_takeAll h

end Acquire

/-- Each of the members is one of the others but for whether it is held. -/
def Drawn (ms ms' : List Member) : Prop :=
  ∀ m ∈ ms, ∃ k ∈ ms', k.lock = m.lock ∧ k.controlled = m.controlled

theorem confined_leaveMembers {ms : List Member} {chosen : Member → Bool}
    (h : ∀ m ∈ ms, chosen m = true → m.isKept = true → leaves m.lock) :
    (leaveMembers chosen ms).Confined enters leaves fun r => Drawn r.1 ms := by
  induction ms with
  | nil => simp [leaveMembers, Drawn]
  | cons m ms ih =>
    have hcons : ∀ {m' : Member} {ms' : List Member}, Drawn ms' ms → m'.lock = m.lock →
        m'.controlled = m.controlled → Drawn (m' :: ms') (m :: ms) := by
      intro m' ms' hms hl hc k hk
      rcases List.mem_cons.mp hk with rfl | hk
      · exact ⟨m, List.mem_cons_self, hl.symm, hc.symm⟩
      · obtain ⟨j, hj, hjk⟩ := hms k hk
        exact ⟨j, List.mem_cons_of_mem _ hj, hjk⟩
    unfold leaveMembers
    rw [confined_bind]
    refine (ih fun k hk => h k (List.mem_cons_of_mem _ hk)).mono ?_
    rintro ⟨ms', breach⟩ hr
    simp only
    split
    · next hgive =>
      simp only [Bool.and_eq_true] at hgive
      rw [confined_bind, confined_give]
      refine ⟨h m List.mem_cons_self hgive.1.2 hgive.2, fun ok => ?_⟩
      cases ok <;> exact hcons hr rfl rfl
    · exact hcons hr rfl rfl

variable {g : LockGroup} {chosen : Member → Bool}

theorem confined_leaveWhere
    (h : ∀ m ∈ g.members, chosen m = true → m.isKept = true → leaves m.lock) :
    (g.leaveWhere chosen).Confined enters leaves fun r => Drawn r.1.members g.members := by
  unfold leaveWhere
  rw [confined_bind]
  exact (confined_leaveMembers h).mono fun r hr => hr

theorem Drawn.refl (ms : List Member) : Drawn ms ms := fun m hm => ⟨m, hm, rfl, rfl⟩

theorem Drawn.trans {ms ms' ms'' : List Member} (h : Drawn ms ms') (h' : Drawn ms' ms'') :
    Drawn ms ms'' := by
  intro m hm
  obtain ⟨k, hk, hl, hc⟩ := h m hm
  obtain ⟨j, hj, hl', hc'⟩ := h' k hk
  exact ⟨j, hj, hl'.trans hl, hc'.trans hc⟩

/-- The locks entered are held or to be held, and only such locks are left in between. -/
theorem confined_enterWhere
    (h : ∀ m ∈ g.members, m.controlled = true → (m.held || chosen m) = true →
      enters m.lock ∧ leaves m.lock) :
    (g.enterWhere chosen).Confined enters leaves fun r => Drawn r.1.members g.members := by
  unfold enterWhere
  split
  · exact Drawn.refl _
  · next first _ =>
    simp only
    rw [confined_bind]
    refine (confined_leaveWhere fun m hm _ hk => ?_).mono ?_
    · simp only [Member.isKept, Bool.and_eq_true] at hk
      exact (h m hm hk.1 (by simp [hk.2])).2
    · rintro ⟨g', breach⟩ hdrawn
      simp only
      split
      · exact hdrawn
      · rw [confined_bind]
        refine (confined_acquire fun l hl => ?_).mono fun _ _ => ?_
        · obtain ⟨m, hm, rfl⟩ := List.mem_map.mp hl
          obtain ⟨hm, hwanted⟩ := List.mem_filter.mp hm
          simp only [Member.isMissing, Member.isKept, Bool.or_eq_true, Bool.and_eq_true] at hwanted
          rcases hwanted with hw | hw
          · exact h m hm hw.2.1 (by simp [hw.1])
          · exact h m hm hw.2.1 (by simp [hw.2.2])
        · refine Drawn.trans (fun m hm => ?_) hdrawn
          obtain ⟨k, hk, rfl⟩ := List.mem_map.mp hm
          exact ⟨k, hk, by split <;> rfl, by split <;> rfl⟩

theorem confined_endWindow
    (h : ∀ m ∈ g.members, m.controlled = true → enters m.lock ∧ leaves m.lock) :
    g.endWindow.Confined enters leaves fun r => Drawn r.1.members g.members := by
  unfold endWindow
  rw [confined_bind]
  refine (confined_leaveWhere fun m hm _ hk => ?_).mono ?_
  · simp only [Member.isKept, Bool.and_eq_true] at hk
    exact (h m hm hk.1).2
  · rintro ⟨g', breach⟩ hr
    simp only
    split
    · exact hr
    · refine (confined_enterWhere fun m hm hc _ => ?_).mono fun _ hdrawn => hdrawn.trans hr
      obtain ⟨k, hk, hl, hkc⟩ := hr m hm
      exact hl ▸ h k hk (hkc.trans hc)

end LockGroup

end EntityStore
