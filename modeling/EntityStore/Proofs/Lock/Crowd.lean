import EntityStore.Proofs.Lock.Alone

/-!
# A thread in a crowd

One thread is looked at, and any number of others do whatever they like: they begin any routine at
any time, and come between any two accesses. They never change what the thread looked at has
entered, so a routine of it that climbs when it is left alone does so in a crowd.
-/
namespace EntityStore

namespace Routine

variable {α β : Type}

/-- A bank, with how far the threads other than the one looked at have come. -/
structure Crowd where
  bank : Bank
  others : Thread → Point Unit := fun _ => .before (.done ())

namespace Crowd

variable {me t : Thread} {c c' : Crowd} {p p' : Point α}

/-- Another thread begins a routine, or makes a step in one. -/
inductive Stirs (me : Thread) (c : Crowd) : Crowd → Prop
  | begin {t : Thread} (ht : t ≠ me) (hdone : c.others t = .before (.done ()))
      (r : Routine Unit) : Stirs me c ⟨c.bank, Function.update c.others t (.before r)⟩
  | go {t : Thread} (ht : t ≠ me) (fails : Bool) :
    Stirs me c ⟨((c.others t).step t fails c.bank).2,
      Function.update c.others t ((c.others t).step t fails c.bank).1⟩

/-- A thread gives up a lock whose word is not clear yet. -/
def Leaves (me : Thread) (p : Point α) (c : Crowd) (t : Thread) (x : Nat) : Prop :=
  if t = me then p.Leaves x else (c.others t).Leaves x

/-- A thread owns a lock, or has not cleared its word yet. -/
def Has (me : Thread) (p : Point α) (c : Crowd) (t : Thread) (x : Nat) : Prop :=
  (c.bank.get x).owner = some t ∨ c.Leaves me p t x

theorem has_self {x : Nat} : c.Has me p me x ↔ Point.Has me c.bank p x := by
  simp only [Has, Leaves, if_true, Point.Has]

theorem has_other (ht : t ≠ me) {x : Nat} :
    c.Has me p t x ↔ Point.Has t c.bank (c.others t) x := by
  simp only [Has, Leaves, if_neg ht, Point.Has]

/-- All threads fit the bank, and a lock is held by the one thread that has it, if any. -/
structure Proper (me : Thread) (p : Point α) (c : Crowd) : Prop where
  solid : c.bank.Solid
  calm : p.Calm me c.bank
  others_calm : ∀ t ≠ me, (c.others t).Calm t c.bank
  holder : ∀ x, ∃ o : Option Thread,
    (∀ t, c.Has me p t x ↔ o = some t) ∧ (c.bank.get x).gate.word.held = o.isSome

namespace Proper

/-- In a bank of new locks nobody has anything. -/
theorem start {bank : Bank} (h : ∀ l ∈ bank.locks, l.gate = {} ∧ l.owner = none)
    (r : Routine α) : Proper me (.before r) { bank } := by
  have hget := Bank.get_new h
  refine ⟨fun x t ho => ?_, trivial, fun _ _ => trivial, fun x => ⟨none, fun t => ?_, ?_⟩⟩
  · rw [(hget x).2] at ho
    cases ho
  · simp [Has, Leaves, Point.Leaves, (hget x).2]
  · rw [(hget x).1]
    rfl

theorem owner_eq_none (h : c.Proper me p) {x : Nat}
    (hx : (c.bank.get x).gate.word.held = false) : (c.bank.get x).owner = none := by
  obtain ⟨o, ho, hheld⟩ := h.holder x
  rw [hx] at hheld
  by_contra hne
  obtain ⟨t, ht⟩ := Option.ne_none_iff_exists'.mp hne
  rw [(ho t).mp (.inl ht)] at hheld
  cases hheld

/-- A thread that is inside no call may turn to another routine. -/
theorem turn {r : Routine α} (h : c.Proper me (.before r)) (r' : Routine β) :
    c.Proper me (.before r') :=
  ⟨h.solid, trivial, h.others_calm, h.holder⟩

/-- A step of the thread looked at. -/
theorem own (h : c.Proper me p) (fails : Bool) :
    Proper me (p.step me fails c.bank).1 { c with bank := (p.step me fails c.bank).2 } := by
  obtain ⟨hframe, hcalm⟩ := h.calm.step h.solid (fun _ => h.owner_eq_none) fails
  generalize p.step me fails c.bank = r at hframe hcalm
  refine ⟨hframe.solid, hcalm, fun t ht => hframe.calm ht (h.others_calm t ht), fun x => ?_⟩
  refine hframe.holder has_self has_self (fun t ht => ?_) (h.holder x)
  simp only [has_other ht, Point.Has, hframe.owner_iff t ht]

theorem stir (h : c.Proper me p) (hs : c.Stirs me c') : c'.Proper me p := by
  cases hs with
  | @begin t ht hdone r =>
    refine ⟨h.solid, h.calm, fun u hu => ?_, fun x => ?_⟩
    · by_cases hut : u = t
      · simp only [hut, Function.update_self]
        exact trivial
      · simpa only [Function.update_of_ne hut] using h.others_calm u hu
    · obtain ⟨o, ho, hheld⟩ := h.holder x
      refine ⟨o, fun u => ?_, hheld⟩
      rw [← ho]
      by_cases hut : u = t
      · simp [hut, Has, Leaves, ht, hdone, Point.Leaves]
      · simp only [Has, Leaves, Function.update_of_ne hut]
  | @go t ht fails =>
    obtain ⟨hframe, hcalm⟩ :=
      (h.others_calm t ht).step h.solid (fun _ => h.owner_eq_none) fails
    generalize (c.others t).step t fails c.bank = r at hframe hcalm
    refine ⟨hframe.solid, hframe.calm (Ne.symm ht) h.calm, fun u hu => ?_, fun x => ?_⟩
    · by_cases hut : u = t
      · subst hut
        simpa only [Function.update_self] using hcalm
      · simpa only [Function.update_of_ne hut] using hframe.calm hut (h.others_calm u hu)
    · refine hframe.holder (has_other ht) ?_ (fun u hu => ?_) (h.holder x)
      · simp only [has_other ht, Function.update_self]
      · simp only [Has, Leaves, Function.update_of_ne hu, hframe.owner_iff u hu]

/-- What the others do changes neither the bank's size nor what the thread has entered. -/
theorem stir_eq (h : c.Proper me p) (hs : c.Stirs me c') :
    c'.bank.size = c.bank.size ∧ c'.bank.depthOf me = c.bank.depthOf me := by
  cases hs with
  | begin => exact ⟨rfl, rfl⟩
  | @go t ht fails =>
    have hframe := ((h.others_calm t ht).step h.solid (fun _ => h.owner_eq_none) fails).1
    exact ⟨hframe.size_eq, hframe.depthOf_eq me (Ne.symm ht)⟩

theorem own_size (h : c.Proper me p) (fails : Bool) :
    (p.step me fails c.bank).2.size = c.bank.size :=
  (h.calm.step h.solid (fun _ => h.owner_eq_none) fails).1.size_eq

end Proper

/-- The thread looked at makes a step, or another one stirs. -/
inductive Moves (me : Thread) : Point α × Crowd → Point α × Crowd → Prop
  | own (p : Point α) (c : Crowd) (fails : Bool) :
    Moves me (p, c)
      ((p.step me fails c.bank).1, { c with bank := (p.step me fails c.bank).2 })
  | stir (p : Point α) {c c' : Crowd} (h : c.Stirs me c') : Moves me (p, c) (p, c')

abbrev Runs (me : Thread) : Point α × Crowd → Point α × Crowd → Prop :=
  Relation.ReflTransGen (Moves me)

/-- The others may keep still while the thread goes on. -/
theorem runs_of_alone {b b' : Bank} {others : Thread → Point Unit}
    (h : Point.Alone me (p, b) (p', b')) : Runs me (p, ⟨b, others⟩) (p', ⟨b', others⟩) := by
  suffices hl : ∀ x, Point.Alone me (p, b) x → Runs me (p, ⟨b, others⟩) (x.1, ⟨x.2, others⟩) from
    hl _ h
  intro x hx
  induction hx with
  | refl => exact .refl
  | @tail y z _ hz ih =>
    rw [hz]
    exact ih.tail (.own y.1 ⟨y.2, others⟩ false)

/-- In a crowd, too, a routine that climbs keeps climbing, and ends as it should. -/
theorem Proper.climbs_run {base : Nat → Nat} {n : Nat} {post : α → (Nat → Nat) → Prop}
    (h : c.Proper me p) (hn : c.bank.size = n) (hp : p.Climbs base n post (c.bank.depthOf me))
    (hr : Runs me (p, c) (p', c')) : p'.Climbs base n post (c'.bank.depthOf me) := by
  suffices hl : ∀ x, Runs me (p, c) x →
      x.2.Proper me x.1 ∧ x.2.bank.size = n ∧ x.1.Climbs base n post (x.2.bank.depthOf me) from
    (hl _ hr).2.2
  intro x hx
  induction hx with
  | refl => exact ⟨h, hn, hp⟩
  | tail _ hm ih =>
    obtain ⟨hproper, rfl, hclimbs⟩ := ih
    cases hm with
    | own p c fails =>
      exact ⟨hproper.own fails, hproper.own_size fails,
        (hclimbs.step hproper.solid (fun _ => hproper.owner_eq_none) fails).2⟩
    | stir p hs =>
      obtain ⟨hsize, hdepth⟩ := hproper.stir_eq hs
      exact ⟨hproper.stir hs, hsize, hdepth ▸ hclimbs⟩

/-- A round of a thread that climbs leaves nothing behind if it fails. -/
theorem Proper.round_failed {base : Nat → Nat} {n : Nat} {post : α → (Nat → Nat) → Prop}
    {ls : List Nat} {k : Bool → Routine α}
    (h : c.Proper me (.before (LockGroup.round ls >>= k))) (hn : c.bank.size = n)
    (hb : ∀ x, base x ≤ c.bank.depthOf me x)
    (hp : (LockGroup.round ls >>= k).Climbs base n post (c.bank.depthOf me))
    (hr : Runs me (.before (LockGroup.round ls), c) (.before (.done false), c')) :
    c'.bank.depthOf me = c.bank.depthOf me := by
  have hahead := LockGroup.ahead_of_climbs_round hb ((climbs_bind _ _).mp hp)
  exact (h.turn _).climbs_run hn (LockGroup.climbs_round hb hahead) hr

end Crowd

end Routine

end EntityStore
