import EntityStore.Lock.Group
import Mathlib.Logic.Function.Basic

/-!
# Climbing

A routine climbs if it enters a lock only when all that it has entered and not left yet lies
below, and leaves only what it has entered. What the thread has entered before, for other reasons,
does not count: it is the base that the routine starts from. Depths are told per lock.

A list of locks ahead of all that is entered is acquired by a climb, however many rounds fail.
-/
namespace EntityStore

namespace Routine

variable {α β : Type}

def raise (d : Nat → Nat) (l : Nat) : Nat → Nat := Function.update d l (d l + 1)

def lower (d : Nat → Nat) (l : Nat) : Nat → Nat := Function.update d l (d l - 1)

/-- All that is entered above the base is below the lock. -/
def Below (base d : Nat → Nat) (l : Nat) : Prop := ∀ x, base x < d x → x < l

/-- From depths `d` on, whatever the answers are, the routine climbs among the locks below
`n` and ends as `post` says. -/
def Climbs (base : Nat → Nat) (n : Nat) (post : α → (Nat → Nat) → Prop) :
    Routine α → (Nat → Nat) → Prop
  | done a, d => post a d
  | enter l next, d => l < n ∧ Below base d l ∧ next.Climbs base n post (raise d l)
  | tryEnter l next, d => l < n ∧ Below base d l ∧
      (next true).Climbs base n post (raise d l) ∧ (next false).Climbs base n post d
  | leave l next, d => base l < d l ∧ (next true).Climbs base n post (lower d l)
  | note _ next, d => next.Climbs base n post d

variable {base d : Nat → Nat} {n l : Nat}

@[simp] theorem climbs_pure {post : α → (Nat → Nat) → Prop} (a : α) :
    (pure a : Routine α).Climbs base n post d ↔ post a d := .rfl

theorem climbs_bind {post : β → (Nat → Nat) → Prop} (r : Routine α) (f : α → Routine β) :
    (r >>= f).Climbs base n post d ↔
      r.Climbs base n (fun a d => (f a).Climbs base n post d) d := by
  show (r.bind f).Climbs base n post d ↔ _
  induction r generalizing d with
  | done a => rfl
  | enter l next ih => simp only [bind, Climbs, ih]
  | tryEnter l next ih => simp only [bind, Climbs, ih]
  | leave l next ih => simp only [bind, Climbs, ih]
  | note m next ih => simp only [bind, Climbs, ih]

theorem Climbs.mono {post post' : α → (Nat → Nat) → Prop} {r : Routine α}
    (h : r.Climbs base n post d) (hp : ∀ a d, post a d → post' a d) :
    r.Climbs base n post' d := by
  induction r generalizing d with
  | done a => exact hp a d h
  | enter l next ih => exact ⟨h.1, h.2.1, ih h.2.2⟩
  | tryEnter l next ih => exact ⟨h.1, h.2.1, ih true h.2.2.1, ih false h.2.2.2⟩
  | leave l next ih => exact ⟨h.1, ih true h.2⟩
  | note m next ih => exact ih h

@[simp] theorem climbs_take {post : Unit → (Nat → Nat) → Prop} :
    (take l).Climbs base n post d ↔ l < n ∧ Below base d l ∧ post () (raise d l) := .rfl

@[simp] theorem climbs_tryTake {post : Bool → (Nat → Nat) → Prop} :
    (tryTake l).Climbs base n post d ↔
      l < n ∧ Below base d l ∧ post true (raise d l) ∧ post false d := .rfl

@[simp] theorem climbs_give {post : Bool → (Nat → Nat) → Prop} :
    (give l).Climbs base n post d ↔ base l < d l ∧ post true (lower d l) := .rfl

@[simp] theorem climbs_say {post : Unit → (Nat → Nat) → Prop} (m : Notice) :
    (say m).Climbs base n post d ↔ post () d := .rfl

theorem raise_lower (h : 0 < d l) : raise (lower d l) l = d := by
  ext x
  by_cases hx : x = l
  · subst hx
    simp [lower, raise]
    omega
  · simp [lower, raise, hx]

theorem lower_raise : lower (raise d l) l = d := by
  ext x
  by_cases hx : x = l
  · subst hx
    simp [lower, raise]
  · simp [lower, raise, hx]

end Routine

namespace LockGroup

open Routine

variable {base d : Nat → Nat} {n l : Nat} {ls : List Nat}

/-- The depths after entering each lock of a list. -/
def entered (ls : List Nat) (d : Nat → Nat) : Nat → Nat := fun x => d x + ls.count x

@[simp] theorem entered_nil : entered [] d = d := by
  ext x
  simp [entered]

theorem entered_cons : entered (l :: ls) d = entered ls (raise d l) := by
  ext x
  by_cases hx : x = l
  · subst hx
    simp [entered, raise]
    omega
  · simp [entered, raise, hx, Ne.symm hx]

/-- The locks of a list are ascending, below `n`, and above all that is entered. -/
structure Ahead (base d : Nat → Nat) (n : Nat) (ls : List Nat) : Prop where
  ascending : ls.Pairwise (· < ·)
  lt : ∀ l ∈ ls, l < n
  below : ∀ l ∈ ls, Below base d l

theorem Ahead.tail (h : Ahead base d n (l :: ls)) : Ahead base d n ls :=
  ⟨h.ascending.tail, fun _ hm => h.lt _ (List.mem_cons_of_mem _ hm),
    fun _ hm => h.below _ (List.mem_cons_of_mem _ hm)⟩

theorem Ahead.raise (h : Ahead base d n (l :: ls)) : Ahead base (raise d l) n ls := by
  refine ⟨h.tail.ascending, h.tail.lt, fun k hk x hx => ?_⟩
  by_cases hxl : x = l
  · exact hxl ▸ List.rel_of_pairwise_cons h.ascending hk
  · rw [Routine.raise, Function.update_of_ne hxl] at hx
    exact h.tail.below k hk x hx

theorem lt_raise (hb : ∀ x, base x ≤ d x) : base l < raise d l l := by
  have := hb l
  simp [Routine.raise]
  omega

theorem le_raise (hb : ∀ x, base x ≤ d x) (x : Nat) : base x ≤ raise d l x := by
  have := hb x
  by_cases hx : x = l
  · subst hx
    simp [Routine.raise]
    omega
  · simp [Routine.raise, hx, this]

/-- A failed attempt leaves nothing entered. -/
theorem climbs_tryAll (hb : ∀ x, base x ≤ d x) (h : Ahead base d n ls) :
    (tryAll ls).Climbs base n (fun ok d' => d' = if ok then entered ls d else d) d := by
  induction ls generalizing d with
  | nil => simp [tryAll]
  | cons l ls ih =>
    unfold tryAll
    rw [climbs_bind, climbs_tryTake]
    refine ⟨h.lt l List.mem_cons_self, h.below l List.mem_cons_self, ?_, by simp⟩
    simp only [if_true]
    rw [climbs_bind]
    apply (ih (le_raise hb) h.raise).mono
    intro ok d' hd'
    cases ok with
    | true => simpa [entered_cons] using hd'
    | false =>
      simp only [Bool.false_eq_true, if_false] at hd' ⊢
      rw [climbs_bind, climbs_give, hd', lower_raise]
      exact ⟨lt_raise hb, by simp⟩

theorem climbs_round (hb : ∀ x, base x ≤ d x) (h : Ahead base d n ls) :
    (round ls).Climbs base n (fun ok d' => d' = if ok then entered ls d else d) d := by
  cases ls with
  | nil => simp [round]
  | cons l ls =>
    unfold round
    rw [climbs_bind, climbs_take]
    refine ⟨h.lt l List.mem_cons_self, h.below l List.mem_cons_self, ?_⟩
    rw [climbs_bind]
    apply (climbs_tryAll (le_raise hb) h.raise).mono
    intro ok d' hd'
    cases ok with
    | true => simpa [entered_cons] using hd'
    | false =>
      simp only [Bool.false_eq_true, if_false] at hd' ⊢
      rw [climbs_bind, climbs_give, hd', lower_raise]
      exact ⟨lt_raise hb, by simp⟩

theorem Ahead.cons (h : Ahead base (Routine.raise d l) n ls) (hb : ∀ x, base x ≤ d x)
    (hl : l < n) (hbelow : Below base d l) : Ahead base d n (l :: ls) := by
  refine ⟨List.pairwise_cons.mpr ⟨fun k hk => ?_, h.ascending⟩, fun k hk => ?_, fun k hk => ?_⟩
  · exact h.below k hk l (lt_raise hb)
  · rcases List.mem_cons.mp hk with rfl | hk
    · exact hl
    · exact h.lt k hk
  · rcases List.mem_cons.mp hk with rfl | hk
    · exact hbelow
    · refine fun x hx => h.below k hk x (Nat.lt_of_lt_of_le hx ?_)
      by_cases hxl : x = l
      · subst hxl
        simp [Routine.raise]
      · simp [Routine.raise, hxl]

/-- Locks are tried by a climb only if they are ahead of all that is entered. -/
theorem ahead_of_climbs_tryAll {post : Bool → (Nat → Nat) → Prop} (hb : ∀ x, base x ≤ d x)
    (h : (tryAll ls).Climbs base n post d) : Ahead base d n ls := by
  induction ls generalizing d post with
  | nil => exact ⟨.nil, by simp, by simp⟩
  | cons l ls ih =>
    unfold tryAll at h
    rw [climbs_bind, climbs_tryTake] at h
    obtain ⟨hl, hbelow, htrue, -⟩ := h
    simp only [if_true] at htrue
    rw [climbs_bind] at htrue
    exact (ih (le_raise hb) htrue).cons hb hl hbelow

theorem ahead_of_climbs_round {post : Bool → (Nat → Nat) → Prop} (hb : ∀ x, base x ≤ d x)
    (h : (round ls).Climbs base n post d) : Ahead base d n ls := by
  cases ls with
  | nil => exact ⟨.nil, by simp, by simp⟩
  | cons l ls =>
    unfold round at h
    rw [climbs_bind, climbs_take] at h
    obtain ⟨hl, hbelow, hrest⟩ := h
    rw [climbs_bind] at hrest
    exact (ahead_of_climbs_tryAll (le_raise hb) hrest).cons hb hl hbelow

theorem climbs_rounds (hb : ∀ x, base x ≤ d x) (h : Ahead base d n ls) (count : Nat) :
    (rounds ls count).Climbs base n (fun ok d' => d' = if ok then entered ls d else d) d := by
  induction count with
  | zero => simp [rounds]
  | succ count ih =>
    unfold rounds
    rw [climbs_bind]
    apply (climbs_round hb h).mono
    intro ok d' hd'
    cases ok with
    | true => simpa using hd'
    | false =>
      simp only [Bool.false_eq_true, if_false] at hd' ⊢
      exact hd' ▸ ih

theorem climbs_takeAll (h : Ahead base d n ls) :
    (takeAll ls).Climbs base n (fun _ d' => d' = entered ls d) d := by
  induction ls generalizing d with
  | nil => simp [takeAll]
  | cons l ls ih =>
    unfold takeAll
    rw [climbs_bind, climbs_take, entered_cons]
    exact ⟨h.lt l List.mem_cons_self, h.below l List.mem_cons_self, ih h.raise⟩

/-- However the rounds go, each lock is entered once in the end. -/
theorem climbs_acquire (hb : ∀ x, base x ≤ d x) (h : Ahead base d n ls) :
    (acquire ls).Climbs base n (fun _ d' => d' = entered ls d) d := by
  unfold acquire
  rw [climbs_bind]
  apply (climbs_rounds hb h _).mono
  intro ok d' hd'
  cases ok with
  | true => simpa using hd'
  | false =>
    simp only [Bool.false_eq_true, if_false] at hd' ⊢
    rw [climbs_bind, climbs_say, hd']
    exact climbs_takeAll h

end LockGroup

end EntityStore
