import EntityStore.Audience
import Mathlib.Algebra.BigOperators.Group.List.Basic
import Mathlib.Algebra.Ring.Nat
import Mathlib.Data.List.Infix

/-!
# Who hears a signal

Nobody leaves an audience, and whoever comes stands behind those who are there. So the observers of
one signal are the first ones of every later signal, in the same order. How far an audience grows is
known from the start: an observer with `n` recruits left stands for `2 ^ n` observers, since it
shares what it has left with the one that it brings along.
-/
namespace EntityStore

namespace Recruiter

/-- How many observers come of one. -/
def weight (r : Recruiter) : Nat := 2 ^ r.recruits

theorem name_react (r : Recruiter) : r.react.1.name = r.name := by
  obtain ⟨name, _ | n⟩ := r <;> rfl

/-- What an observer has left is shared with its recruit. -/
theorem weight_react (r : Recruiter) :
    r.react.1.weight + (r.react.2.map weight).sum = r.weight := by
  obtain ⟨name, _ | n⟩ := r
  · rfl
  · simp only [react, weight, List.map_cons, List.map_nil, List.sum_cons, List.sum_nil]
    rw [pow_succ]
    omega

end Recruiter

namespace Audience

inductive Event
  | subscribe (r : Recruiter)
  | fire
  deriving DecidableEq

/-- The names that heard each signal, and the audience afterwards. -/
def after (a : Audience) : List Event → List (List String) × Audience
  | [] => ([], a)
  | .subscribe r :: events => (a.subscribe r).after events
  | .fire :: events => (a.fire.1 :: (a.fire.2.after events).1, (a.fire.2.after events).2)

def names (a : Audience) : List String := a.members.map (·.name)

/-- The number of observers there will be when nobody has recruits left. -/
def weight (a : Audience) : Nat := (a.members.map Recruiter.weight).sum

def Event.weight : Event → Nat
  | subscribe r => r.weight
  | fire => 0

variable {a : Audience} {events : List Event} {heard : List String}

theorem names_subscribe (a : Audience) (r : Recruiter) :
    (a.subscribe r).names = a.names ++ [r.name] := by
  simp [names, subscribe]

theorem names_fire (a : Audience) :
    a.fire.2.names = a.names ++ (a.members.flatMap (·.react.2)).map (·.name) := by
  simp [names, fire, Recruiter.name_react]

theorem weight_subscribe (a : Audience) (r : Recruiter) :
    (a.subscribe r).weight = a.weight + r.weight := by
  simp [weight, subscribe]

theorem weight_fire (a : Audience) : a.fire.2.weight = a.weight := by
  simp only [weight, fire, List.map_append, List.sum_append, List.map_map]
  induction a.members with
  | nil => rfl
  | cons r members ih =>
    have hr := Recruiter.weight_react r
    simp only [List.map_cons, List.sum_cons, List.flatMap_cons, List.map_append, List.sum_append,
      Function.comp_apply] at ih ⊢
    omega

/-- Everybody counts for one at least. -/
theorem size_le_weight (a : Audience) : a.size ≤ a.weight := by
  simp only [size, weight]
  induction a.members with
  | nil => exact le_rfl
  | cons r members ih =>
    have hr : 0 < r.weight := Nat.two_pow_pos _
    simp only [List.length_cons, List.map_cons, List.sum_cons]
    omega

theorem size_eq_weight (h : ∀ r ∈ a.members, r.recruits = 0) : a.size = a.weight := by
  have hone : a.members.map Recruiter.weight = a.members.map fun _ => 1 :=
    List.map_congr_left fun r hr => by rw [Recruiter.weight, h r hr]; rfl
  rw [size, weight, hone, List.map_const', List.sum_replicate]
  exact (Nat.mul_one _).symm

theorem names_prefix_after (a : Audience) (events : List Event) :
    a.names <+: (a.after events).2.names := by
  induction events generalizing a with
  | nil => exact List.prefix_rfl
  | cons event events ih =>
    cases event with
    | subscribe r => exact (names_subscribe a r ▸ List.prefix_append _ _).trans (ih _)
    | fire => exact (names_fire a ▸ List.prefix_append _ _).trans (ih _)

theorem names_prefix_heard (h : heard ∈ (a.after events).1) : a.names <+: heard := by
  induction events generalizing a with
  | nil => cases h
  | cons event events ih =>
    cases event with
    | subscribe r => exact (names_subscribe a r ▸ List.prefix_append _ _).trans (ih h)
    | fire =>
      obtain rfl | h := List.mem_cons.mp h
      · exact List.prefix_rfl
      · exact (names_fire a ▸ List.prefix_append _ _).trans (ih h)

theorem heard_prefix_names (h : heard ∈ (a.after events).1) :
    heard <+: (a.after events).2.names := by
  induction events generalizing a with
  | nil => cases h
  | cons event events ih =>
    cases event with
    | subscribe r => exact ih h
    | fire =>
      obtain rfl | h := List.mem_cons.mp h
      · exact names_prefix_after a (.fire :: events)
      · exact ih h

structure Attended (a : Audience) (events : List Event) : Prop where
  /-- Each signal is heard, as often as one was given. -/
  signals : (a.after events).1.length = events.count .fire
  /-- Who heard a signal hears the later ones too, before all who came since. -/
  ordered : (a.after events).1.Pairwise (· <+: ·)
  /-- Who was there hears every signal, and who heard one stays. -/
  between : ∀ heard ∈ (a.after events).1, a.names <+: heard ∧ heard <+: (a.after events).2.names
  weight_eq : (a.after events).2.weight = a.weight + (events.map Event.weight).sum
  /-- No signal is heard by more observers than there may ever be. -/
  bounded : ∀ heard ∈ (a.after events).1,
    heard.length ≤ a.weight + (events.map Event.weight).sum

theorem weight_after (a : Audience) (events : List Event) :
    (a.after events).2.weight = a.weight + (events.map Event.weight).sum := by
  induction events generalizing a with
  | nil => rfl
  | cons event events ih =>
    rw [List.map_cons, List.sum_cons, ← Nat.add_assoc]
    cases event with
    | subscribe r => rw [after, ih, weight_subscribe]; rfl
    | fire => rw [after, ih, weight_fire]; rfl

theorem ordered_after (a : Audience) (events : List Event) :
    (a.after events).1.Pairwise (· <+: ·) := by
  induction events generalizing a with
  | nil => exact .nil
  | cons event events ih =>
    cases event with
    | subscribe r => exact ih _
    | fire =>
      refine List.pairwise_cons.mpr ⟨fun heard h => ?_, ih _⟩
      exact (names_fire a ▸ List.prefix_append _ _).trans (names_prefix_heard h)

theorem length_after (a : Audience) (events : List Event) :
    (a.after events).1.length = events.count .fire := by
  induction events generalizing a with
  | nil => rfl
  | cons event events ih => cases event <;> simp [after, ih]

theorem attended (a : Audience) (events : List Event) : a.Attended events where
  signals := length_after a events
  ordered := ordered_after a events
  between _ h := ⟨names_prefix_heard h, heard_prefix_names h⟩
  weight_eq := weight_after a events
  bounded heard h := by
    have hlen := (heard_prefix_names h).length_le
    have hsize := (a.after events).2.size_le_weight
    rw [weight_after, size] at hsize
    rw [names, List.length_map] at hlen
    omega

/-- A signal uses up a recruit of everybody who has one. -/
theorem recruits_fire {n : Nat} (h : ∀ r ∈ a.members, r.recruits ≤ n + 1) :
    ∀ r ∈ a.fire.2.members, r.recruits ≤ n := by
  have hreact : ∀ r ∈ a.members, ∀ s ∈ r.react.1 :: r.react.2, s.recruits ≤ n := by
    rintro ⟨name, _ | m⟩ hr s hs
    · obtain rfl : s = ⟨name, 0⟩ := by simpa [Recruiter.react] using hs
      exact Nat.zero_le n
    · have hm : m ≤ n := Nat.le_of_succ_le_succ (h _ hr)
      simp only [Recruiter.react, List.mem_cons, List.not_mem_nil, or_false] at hs
      obtain rfl | rfl := hs <;> exact hm
  intro s hs
  simp only [fire, List.mem_append, List.mem_map, List.mem_flatMap] at hs
  obtain ⟨r, hr, rfl⟩ | ⟨r, hr, hs⟩ := hs
  · exact hreact r hr _ List.mem_cons_self
  · exact hreact r hr s (List.mem_cons_of_mem _ hs)

/-- After as many signals as any observer has recruits, the audience is as large as it was bound to
become. -/
theorem size_after_signals {n : Nat} (h : ∀ r ∈ a.members, r.recruits ≤ n) :
    (a.after (List.replicate n .fire)).2.size = a.weight := by
  induction n generalizing a with
  | zero => exact size_eq_weight fun r hr => Nat.le_zero.mp (h r hr)
  | succ n ih =>
    rw [List.replicate_succ, after, ih (recruits_fire h), weight_fire]

example : ((Audience.subscribe {} ⟨"a", 2⟩).after [.fire, .fire, .fire]).1.map (·.length) =
    [1, 2, 4] := by decide

end Audience

end EntityStore
