import EntityStore.Proofs.Lock.Nest
import EntityStore.Proofs.Lock.Outcome

/-!
# Tasks from beginning to end

A thread that performs a call on one of its groups, with others in between, ends in a group that is
known beforehand and as deep in each lock as that group says. It gets to the end if nobody else has
a lock that the call enters.
-/
namespace EntityStore

namespace Lock

variable {l : Lock} {me : Thread}

/-- Nobody but the thread has the lock. -/
def Available (me : Thread) (l : Lock) : Prop := l.isLocked = false ∨ l.owner = some me

structure Deeper (me : Thread) (l l' : Lock) : Prop where
  owner_eq : l'.owner = some me
  depthOf_eq : l'.depthOf me = l.depthOf me + 1

theorem deeper_of_owned (h : l.isOwnedBy me = true) :
    Deeper me l { l with depth := l.depth + 1 } := by
  refine ⟨of_decide_eq_true h, ?_⟩
  have ho : l.owner = some me := of_decide_eq_true h
  simp [depthOf, isOwnedBy, ho]

theorem deeper_of_proceed {phase : Phase} (haim : phase.aim ≠ .leave)
    (hf : phase.Fresh l.gate.word) (hawake : phase ≠ .asleep) (hnot : l.isOwnedBy me = false)
    (h : l.Available me) : ∃ l', l.proceed me phase = (true, l') ∧ Deeper me l l' := by
  have hfree : l.isLocked = false := h.resolve_right (of_decide_eq_false hnot)
  obtain ⟨gate, -, heq⟩ := proceed_of_free me phase haim hf (fun h => absurd h hawake) hfree
  refine ⟨_, heq, rfl, ?_⟩
  rw [depthOf_of_not_owned hnot]
  simp [depthOf, isOwnedBy]

theorem Available.enter_eq (h : l.Available me) :
    ∃ l', l.enter me = (true, l') ∧ Deeper me l l' := by
  unfold enter
  cases howned : l.isOwnedBy me with
  | true => exact ⟨_, rfl, deeper_of_owned howned⟩
  | false => exact deeper_of_proceed (by decide) trivial (by decide) howned h

theorem Available.tryEnter_eq (h : l.Available me) :
    ∃ l', l.tryEnter me = (true, l') ∧ Deeper me l l' := by
  unfold tryEnter
  cases howned : l.isOwnedBy me with
  | true => exact ⟨_, rfl, deeper_of_owned howned⟩
  | false => exact deeper_of_proceed (by decide) trivial (by decide) howned h

/-- A lock that the thread leaves is its own or nobody's. -/
theorem leave_available (h : 0 < l.depthOf me) :
    ∃ l', l.leave me = .ok l' ∧ l'.depthOf me = l.depthOf me - 1 ∧ l'.Available me := by
  have ho : l.owner = some me := by
    by_contra hne
    simp [depthOf, isOwnedBy, hne] at h
  obtain ⟨l', hl'⟩ := leave_of_owner ho
  refine ⟨l', hl', ?_⟩
  cases Passage.leave hl' with
  | back _ _ => exact ⟨by simp [depthOf, isOwnedBy, ho], .inr ho⟩
  | freed _ hd hnow =>
    refine ⟨?_, .inl hnow⟩
    simp only [depthOf, isOwnedBy, ho, decide_true, if_true, reduceCtorEq, decide_false,
      Bool.false_eq_true, if_false]
    omega

end Lock

namespace Bank

variable {b : Bank} {me : Thread} {l x : Nat} {L : Lock}

theorem available_set (hl : l < b.size) (hL : L.Available me) (hx : (b.get x).Available me) :
    ((b.set l L).get x).Available me := by
  by_cases hxl : l = x
  · rw [← hxl, get_set_self hl]
    exact hL
  · rwa [get_set_ne _ hxl]

theorem depthOf_set_deeper (hl : l < b.size) (hL : Lock.Deeper me (b.get l) L) :
    (b.set l L).depthOf me = Routine.raise (b.depthOf me) l := by
  rw [depthOf_set hl, hL.depthOf_eq]
  rfl

end Bank

namespace Routine

variable {α : Type} {me : Thread} {base : Nat → Nat} {enters leaves : Nat → Prop}

/-- A routine that climbs never waits if nobody else has a lock that it enters, and ends as it
should. -/
theorem Climbs.advance_available {post : α → (Nat → Nat) → Prop} {quiet : α → Prop} {r : Routine α}
    {b : Bank} (hr : r.Climbs base b.size post (b.depthOf me))
    (hc : r.Confined enters leaves quiet) (ha : ∀ l, enters l → (b.get l).Available me) :
    ∃ a, (r.advance me b).1 = .finished a ∧ post a ((r.advance me b).2.1.depthOf me) := by
  induction r generalizing b with
  | done a => exact ⟨a, rfl, hr⟩
  | note m next ih => exact ih hr hc ha
  | enter l next ih =>
    obtain ⟨hl, -, hr⟩ := hr
    obtain ⟨L, heq, hL⟩ := (ha l hc.1).enter_eq
    simp only [advance, Bank.on, heq]
    apply ih _ hc.2 fun x hx => Bank.available_set hl (.inr hL.owner_eq) (ha x hx)
    rwa [Bank.size_set, Bank.depthOf_set_deeper hl hL]
  | tryEnter l next ih =>
    obtain ⟨hl, -, hr, -⟩ := hr
    obtain ⟨L, heq, hL⟩ := (ha l hc.1).tryEnter_eq
    simp only [advance, Bank.on, heq]
    apply ih true _ (hc.2 true) fun x hx => Bank.available_set hl (.inr hL.owner_eq) (ha x hx)
    rwa [Bank.size_set, Bank.depthOf_set_deeper hl hL]
  | leave l next ih =>
    obtain ⟨hpos, hr⟩ := hr
    have hpos : 0 < b.depthOf me l := Nat.zero_lt_of_lt hpos
    have hl : l < b.size := Bank.lt_size_of_depthOf_pos hpos
    obtain ⟨L, heq, hdepth, hL⟩ := Lock.leave_available hpos
    simp only [advance, heq]
    apply ih true _ (hc.2 true) fun x hx => Bank.available_set hl hL (ha x hx)
    rw [Bank.size_set, Bank.depthOf_set hl, hdepth]
    exact hr

end Routine

namespace LockGroup.Nest

open Routine

variable {me : Thread} {s s' : Nest} {t : Task} {i : Nat} {c : Change} {o : Owned}

theorem Reachable.steps (h : s.Reachable me) (hs : Relation.ReflTransGen (Step me) s s') :
    s'.Reachable me := by
  induction hs with
  | refl => exact h
  | tail _ hstep ih => exact ih.step hstep

/-- A task leaves the books of its thread alone until it ends. -/
theorem Underway.doing_eq (h : Underway me t s s') :
    s'.books = s.books ∧ ∃ p, s'.doing = some (t, p) := by
  induction h with
  | begin ht hdoing => exact ⟨rfl, _, rfl⟩
  | step _ hstep hbusy ih =>
    obtain ⟨hbooks, p, hp⟩ := ih
    cases hstep with
    | stir => exact ⟨hbooks, p, hp⟩
    | go hdoing =>
      rw [hp] at hdoing
      cases hdoing
      exact ⟨hbooks, _, rfl⟩
    | found _ _ hdoing | forget _ _ hdoing | begin _ _ hdoing =>
      rw [hp] at hdoing
      cases hdoing
    | finish => exact absurd rfl hbusy

/-- No task ends in a breach. -/
theorem Underway.unbroken (h : Underway me t s s') (hs : s.Reachable me) :
    s'.doing ≠ some (t, .before (.done none)) := by
  intro hdoing
  obtain ⟨⟨b, hb, -⟩, -⟩ := ((Proper.of_reachable (h.reachable hs)).busy _ _ hdoing).2.climbs
  cases hb

theorem Performs.books_eq (h : Performs me (.change i c) s s') (hs : s.Reachable me)
    (hi : s.books.groups[i]? = some o) :
    s'.books = s.books.put i { o with group := c.result o.group } := by
  obtain ⟨mid, hmid, hstep, hidle⟩ := h
  obtain ⟨hbooks, p, hp⟩ := hmid.doing_eq
  cases hstep with
  | @finish t b hdoing =>
    rw [hp] at hdoing
    cases hdoing
    have hends : (Task.change i c).Ends mid.books mid.crowd.bank.size (some b) (mid.depth me) :=
      ((Proper.of_reachable (hmid.reachable hs)).busy _ _ hp).2.climbs
    rw [hbooks] at hends
    exact Option.some.inj (hends.change i c rfl o hi)
  | stir =>
    rw [hp] at hidle
    cases hidle
  | go => cases hidle
  | found _ _ hdoing | forget _ _ hdoing | begin _ _ hdoing =>
    rw [hp] at hdoing
    cases hdoing

/-- What a call on a group has brought about when it is done. -/
structure Done (me : Thread) (s s' : Nest) (i : Nat) (c : Change) (o : Owned) : Prop where
  reachable : s'.Reachable me
  idle : s'.doing = none
  get?_eq : s'.books.groups[i]? = some { o with group := c.result o.group }
  depth_eq : ∀ l, s'.depth me l = s.books.elsewhere i l + (c.holds o.group l).toNat

theorem Performs.done (h : Performs me (.change i c) s s') (hs : s.Reachable me)
    (hi : s.books.groups[i]? = some o) : Done me s s' i c o := by
  have hreachable := h.reachable hs
  have hbooks := h.books_eq hs hi
  obtain ⟨mid, -, -, hidle⟩ := h
  have hget : s'.books.groups[i]? = some { o with group := c.result o.group } := by
    rw [hbooks, Books.get?_put hi]
  refine ⟨hreachable, hidle, hget, fun l => ?_⟩
  rw [(accounted hreachable).depth_eq hidle i _ hget, hbooks, Books.elsewhere_put, c.holds_result]

/-- A call gets to its end if nobody else has a lock that it enters. -/
theorem exists_performs (hs : s.Reachable me) (hdoing : s.doing = none)
    (hi : s.books.groups[i]? = some o)
    (ha : ∀ l, c.enters o.group l = true → (s.crowd.bank.get l).Available me) :
    ∃ s', Performs me (.change i c) s s' := by
  have hproper := Proper.of_reachable hs
  have hway := hproper.begin (t := .change i c) trivial hdoing
  have hconfined := (Task.change i c).confined hproper.formed
  have hclimbs : ((Task.change i c).routine s.books).Climbs _ s.crowd.bank.size _ (s.depth me) :=
    hway.climbs
  have havailable : ∀ l, (Task.change i c).enters s.books l →
      (s.crowd.bank.get l).Available me := by
    intro l hl
    simp only [Task.enters, hi, Option.mem_def, Option.some.injEq, exists_eq_left'] at hl
    exact ha l hl
  obtain ⟨r, hr, ⟨b, rfl, -⟩, -⟩ := hclimbs.advance_available hconfined havailable
  exact ⟨_, performs_of_advance (t := .change i c) hdoing trivial hr⟩

end LockGroup.Nest

end EntityStore
