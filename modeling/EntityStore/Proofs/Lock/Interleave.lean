import EntityStore.Proofs.Lock.Climb

/-!
# Interleaving

Threads share a bank and come between each other at every access to the word of a lock. A thread
is before a call on a lock, or inside one, in some phase of it; a step of the thread is one access,
and an exchange may fail for no reason at any of them. A routine that climbs keeps climbing over
its own steps, and what a step does to a lock the other threads see as no change, as the lock taken
when nobody had it, or as the lock cleared by the one that had it.
-/
namespace EntityStore

namespace Lock

inductive Aim
  /-- It waits for the lock. -/
  | wait
  /-- It takes the lock if that is possible at once. -/
  | attempt
  /-- It clears the word. -/
  | leave
  deriving DecidableEq

def Phase.aim : Phase → Aim
  | enter | look _ | claim .. | flag .. | park | asleep => .wait
  | peek | grab _ => .attempt
  | leave | wake => .leave

/-- A word to be held was seen not held. -/
def Phase.Apt : Phase → Prop
  | claim _ seen | grab seen => seen.held = false
  | _ => True

theorem Phase.onSight_apt (limit spins : Nat) (seen : Word) : (onSight limit spins seen).Apt := by
  unfold onSight
  split
  · next h => simpa [Apt] using h
  · split
    · trivial
    · split <;> trivial

theorem Phase.onSight_aim (limit spins : Nat) (seen : Word) :
    (onSight limit spins seen).aim = .wait := by
  unfold onSight
  split
  · rfl
  · split
    · rfl
    · split <;> rfl

namespace Gate

variable {limit : Nat} {me : Thread} {fails : Bool} {g g' : Gate} {phase : Phase}

/-- A step inside a call keeps its aim and leaves the lock as it is: held, or not. -/
theorem step_goOn {phase' : Phase} (h : g.step limit me fails phase = (.goOn phase', g')) :
    phase'.Apt ∧ phase'.aim = phase.aim ∧ g'.word.held = g.word.held := by
  cases phase with
  | enter | park | asleep =>
    simp only [step] at h
    split at h <;> cases h <;> exact ⟨trivial, rfl, rfl⟩
  | look spins =>
    cases h
    exact ⟨Phase.onSight_apt .., Phase.onSight_aim .., rfl⟩
  | claim spins seen =>
    simp only [step] at h
    split at h <;> cases h
    exact ⟨Phase.onSight_apt .., Phase.onSight_aim .., rfl⟩
  | flag spins seen =>
    simp only [step] at h
    split at h
    · next hseen =>
      cases h
      exact ⟨trivial, rfl, by rw [hseen.1]⟩
    · cases h
      exact ⟨Phase.onSight_apt .., Phase.onSight_aim .., rfl⟩
  | peek =>
    simp only [step] at h
    split at h
    · cases h
    · next hfree =>
      cases h
      exact ⟨by simpa [Phase.Apt] using hfree, rfl, rfl⟩
  | grab seen =>
    simp only [step] at h
    split at h
    · cases h
    · split at h
      · cases h
      · next hfree =>
        cases h
        exact ⟨by simpa [Phase.Apt] using hfree, rfl, rfl⟩
  | leave =>
    simp only [step] at h
    split at h <;> cases h
    exact ⟨trivial, rfl, rfl⟩
  | wake => cases h

/-- A call ends with the lock taken when it was free, without it after an attempt, or with the
word clear. -/
theorem step_finish {ok : Bool} (ha : phase.Apt)
    (h : g.step limit me fails phase = (.finish ok, g')) :
    (phase.aim ≠ .leave ∧ ok = true ∧ g.word.held = false ∧ g'.word.held = true) ∨
    (phase.aim = .attempt ∧ ok = false ∧ g' = g) ∨
    (phase.aim = .leave ∧ ok = true ∧ g'.word.held = false) := by
  cases phase with
  | enter =>
    simp only [step] at h
    split at h
    · next hclear =>
      cases h
      exact .inl ⟨by simp [Phase.aim], rfl, by rw [hclear.1], rfl⟩
    · cases h
  | look spins => cases h
  | claim spins seen =>
    simp only [step] at h
    split at h
    · next hseen =>
      cases h
      exact .inl ⟨by simp [Phase.aim], rfl, by rw [hseen.1, ha], rfl⟩
    · cases h
  | flag | park | asleep =>
    simp only [step] at h
    split at h <;> cases h
  | peek =>
    simp only [step] at h
    split at h <;> cases h
    exact .inr (.inl ⟨rfl, rfl, rfl⟩)
  | grab seen =>
    simp only [step] at h
    split at h
    · next hseen =>
      cases h
      exact .inl ⟨by simp [Phase.aim], rfl, by rw [hseen.1, ha], rfl⟩
    · split at h <;> cases h
      exact .inr (.inl ⟨rfl, rfl, rfl⟩)
  | leave =>
    simp only [step] at h
    split at h <;> cases h
    exact .inr (.inr ⟨rfl, rfl, rfl⟩)
  | wake =>
    cases h
    exact .inr (.inr ⟨rfl, rfl, rfl⟩)

end Gate

end Lock

namespace Bank

variable {b : Bank} {l : Nat} {L : Lock} {me : Thread}

def depthOf (b : Bank) (me : Thread) : Nat → Nat := fun l => (b.get l).depthOf me

theorem get_set_self (h : l < b.size) : (b.set l L).get l = L := by
  simp [get, set, Array.getD_eq_getD_getElem?, Array.getElem?_setIfInBounds_self_of_lt h]

theorem get_of_size_le (h : b.size ≤ l) : b.get l = default := by
  rw [get, Array.getD_eq_getD_getElem?, Array.getElem?_eq_none h]
  rfl

theorem set_get (b : Bank) (l : Nat) : b.set l (b.get l) = b := by
  by_cases hl : l < b.locks.size
  · simp [set, get, Array.setIfInBounds, Array.getD, hl]
  · simp [set, Array.setIfInBounds, hl]

theorem lt_size_of_owner (h : (b.get l).owner = some me) : l < b.size := by
  by_contra hge
  rw [get, Array.getD_eq_getD_getElem?, Array.getElem?_eq_none (Nat.le_of_not_lt hge)] at h
  cases h

theorem depthOf_set (h : l < b.size) :
    (b.set l L).depthOf me = Function.update (b.depthOf me) l (L.depthOf me) := by
  ext x
  by_cases hx : x = l
  · rw [hx, Function.update_self, depthOf, get_set_self h]
  · rw [Function.update_of_ne hx, depthOf, get_set_ne L (Ne.symm hx), depthOf]

theorem depthOf_of_owner (h : (b.get l).owner = some me) : b.depthOf me l = (b.get l).depth := by
  simp [depthOf, Lock.depthOf, Lock.isOwnedBy, h]

theorem depthOf_eq_zero (h : (b.get l).owner ≠ some me) : b.depthOf me l = 0 :=
  Lock.depthOf_of_not_owned (by simp [Lock.isOwnedBy, h])

theorem owner_of_depthOf_pos (h : 0 < b.depthOf me l) : (b.get l).owner = some me := by
  by_contra hne
  rw [depthOf_eq_zero hne] at h
  cases h

theorem lt_size_of_depthOf_pos (h : 0 < b.depthOf me l) : l < b.size :=
  lt_size_of_owner (owner_of_depthOf_pos h)

/-- In a bank of new locks each lock is clear and nobody's. -/
theorem get_new (h : ∀ l ∈ b.locks, l.gate = {} ∧ l.owner = none) (x : Nat) :
    (b.get x).gate = {} ∧ (b.get x).owner = none := by
  rw [get, Array.getD_eq_getD_getElem?]
  cases hx : b.locks[x]? with
  | none => exact ⟨rfl, rfl⟩
  | some l => exact h l (Array.mem_of_getElem? hx)

/-- Whoever owns a lock has entered it. -/
def Solid (b : Bank) : Prop := ∀ l t, (b.get l).owner = some t → 0 < (b.get l).depth

theorem Solid.depthOf_pos (h : b.Solid) (ho : (b.get l).owner = some me) :
    0 < b.depthOf me l := by
  rw [depthOf_of_owner ho]
  exact h l me ho

end Bank

namespace Routine

/-- How far a thread has come with a routine. -/
inductive Point (α : Type)
  /-- Before the next call on a lock. -/
  | before (rest : Routine α)
  /-- Inside a call on a lock, knowing how the routine goes on after each answer. -/
  | inside (lock : Nat) (phase : Lock.Phase) (next : Bool → Routine α)

namespace Point

variable {α : Type}

/-- One step of a thread. Taking a lock is known to the thread at once; before the word is cleared
the thread stops being the owner. -/
def step (me : Thread) (fails : Bool) (b : Bank) : Point α → Point α × Bank
  | before (.done a) => (before (.done a), b)
  | before (.note _ rest) => (before rest, b)
  | before (.enter l rest) =>
    let lock := b.get l
    if lock.isOwnedBy me then (before rest, b.set l { lock with depth := lock.depth + 1 })
    else (inside l .enter fun _ => rest, b)
  | before (.tryEnter l next) =>
    let lock := b.get l
    if lock.isOwnedBy me then (before (next true), b.set l { lock with depth := lock.depth + 1 })
    else (inside l .peek next, b)
  | before (.leave l next) =>
    let lock := b.get l
    if !lock.isOwnedBy me then (before (next false), b)
    else if 1 < lock.depth then (before (next true), b.set l { lock with depth := lock.depth - 1 })
    else (inside l .leave next, b.set l { lock with owner := none, depth := lock.depth - 1 })
  | inside l phase next =>
    let lock := b.get l
    match lock.gate.step lock.spinLimit me fails phase with
    | (.goOn phase, gate) => (inside l phase next, b.set l { lock with gate })
    | (.finish ok, gate) =>
      (before (next ok), b.set l
        (if ok ∧ phase.aim ≠ .leave then { lock with gate, owner := some me, depth := 1 }
        else { lock with gate }))

def Waits (x : Nat) : Point α → Prop
  | inside l phase _ => l = x ∧ phase.aim = .wait
  | before _ => False

/-- The thread has given up a lock whose word is not clear yet. -/
def Leaves (x : Nat) : Point α → Prop
  | inside l phase _ => l = x ∧ phase.aim = .leave
  | before _ => False

def Climbs (base : Nat → Nat) (n : Nat) (post : α → (Nat → Nat) → Prop) :
    Point α → (Nat → Nat) → Prop
  | before rest, d => rest.Climbs base n post d
  | inside l phase next, d => l < n ∧ d l = 0 ∧ phase.Apt ∧
    match phase.aim with
    | .wait => Below base d l ∧ (next true).Climbs base n post (raise d l)
    | .attempt => (next true).Climbs base n post (raise d l) ∧ (next false).Climbs base n post d
    | .leave => (next true).Climbs base n post d

/-- The thread has a lock: it owns it, or has not cleared its word yet. -/
def Has (me : Thread) (b : Bank) (p : Point α) (x : Nat) : Prop :=
  (b.get x).owner = some me ∨ p.Leaves x

/-- What the other threads see of a step. -/
structure Frame (me : Thread) (b : Bank) (p : Point α) (b' : Bank) (p' : Point α) : Prop where
  size_eq : b'.size = b.size
  solid : b'.Solid
  owner_iff : ∀ u ≠ me, ∀ x, (b'.get x).owner = some u ↔ (b.get x).owner = some u
  depthOf_eq : ∀ u ≠ me, b'.depthOf u = b.depthOf u
  /-- A lock stays as it is, is taken when it was free, or is cleared by the one that has it. -/
  held : ∀ x,
    ((Has me b' p' x ↔ Has me b p x) ∧ (b'.get x).gate.word.held = (b.get x).gate.word.held) ∨
    ((b.get x).gate.word.held = false ∧ (b'.get x).gate.word.held = true ∧ Has me b' p' x) ∨
    (Has me b p x ∧ (b'.get x).gate.word.held = false ∧ ¬Has me b' p' x)

namespace Frame

variable {me : Thread} {b : Bank} {p p' : Point α} {l : Nat} {L : Lock}

theorem of_leaves_iff (hb : b.Solid) (h : ∀ x, p'.Leaves x ↔ p.Leaves x) : Frame me b p b p' :=
  ⟨rfl, hb, fun _ _ _ => .rfl, fun _ _ => rfl, fun x => .inl ⟨by simp only [Has, h], rfl⟩⟩

/-- A step that changes one lock. -/
theorem of_set (hb : b.Solid) (hl : l < b.size)
    (hpos : ∀ t, L.owner = some t → 0 < L.depth)
    (howner : ∀ u ≠ me, L.owner = some u ↔ (b.get l).owner = some u)
    (hdepth : ∀ u ≠ me, L.depthOf u = (b.get l).depthOf u)
    (hleaves : ∀ x ≠ l, (p'.Leaves x ↔ p.Leaves x))
    (hheld :
      ((L.owner = some me ∨ p'.Leaves l ↔ Has me b p l) ∧
        L.gate.word.held = (b.get l).gate.word.held) ∨
      ((b.get l).gate.word.held = false ∧ L.gate.word.held = true ∧
        (L.owner = some me ∨ p'.Leaves l)) ∨
      (Has me b p l ∧ L.gate.word.held = false ∧ ¬(L.owner = some me ∨ p'.Leaves l))) :
    Frame me b p (b.set l L) p' where
  size_eq := b.size_set l L
  solid x t ho := by
    by_cases hx : x = l
    · subst hx
      rw [Bank.get_set_self hl] at ho ⊢
      exact hpos t ho
    · rw [Bank.get_set_ne L (Ne.symm hx)] at ho ⊢
      exact hb x t ho
  owner_iff u hu x := by
    by_cases hx : x = l
    · rw [hx, Bank.get_set_self hl]
      exact howner u hu
    · rw [Bank.get_set_ne L (Ne.symm hx)]
  depthOf_eq u hu := by
    rw [Bank.depthOf_set hl, hdepth u hu]
    exact Function.update_eq_self ..
  held x := by
    by_cases hx : x = l
    · subst hx
      simp only [Has, Bank.get_set_self hl] at hheld ⊢
      exact hheld
    · refine .inl ⟨?_, ?_⟩
      · simp only [Has, Bank.get_set_ne L (Ne.symm hx), hleaves x hx]
      · rw [Bank.get_set_ne L (Ne.symm hx)]

/-- The owner of a lock enters it again, or leaves it and stays inside. -/
theorem of_depth (hb : b.Solid) (ho : (b.get l).owner = some me) {k : Nat} (hk : 0 < k)
    (r r' : Routine α) :
    Frame me b (before r) (b.set l { b.get l with depth := k }) (before r') := by
  refine of_set hb (Bank.lt_size_of_owner ho) (fun _ _ => hk) (fun _ _ => .rfl) (fun u hu => ?_)
    (fun _ _ => .rfl) (.inl ⟨.rfl, rfl⟩)
  simp [Lock.depthOf, Lock.isOwnedBy, ho, Ne.symm hu]

/-- A lock that is held by the one thread that has it, if any, is so after the step. -/
theorem holder {b' : Bank} (hf : Frame me b p b' p') {has has' : Thread → Prop} {x : Nat}
    (hmine : has me ↔ Has me b p x) (hmine' : has' me ↔ Has me b' p' x)
    (hothers : ∀ u ≠ me, (has' u ↔ has u))
    (h : ∃ o : Option Thread, (∀ t, has t ↔ o = some t) ∧
      (b.get x).gate.word.held = o.isSome) :
    ∃ o : Option Thread, (∀ t, has' t ↔ o = some t) ∧
      (b'.get x).gate.word.held = o.isSome := by
  obtain ⟨o, ho, hheld⟩ := h
  rcases hf.held x with ⟨hsame, hword⟩ | ⟨hwas, hnow, hhas⟩ | ⟨hhad, hnow, hnot⟩
  · refine ⟨o, fun u => ?_, by rw [← hheld]; exact hword⟩
    by_cases hu : u = me
    · rw [hu, hmine', hsame, ← hmine, ho]
    · rw [hothers u hu, ho]
  · have hnone : o = none := by
      rw [hwas] at hheld
      simpa using hheld.symm
    refine ⟨some me, fun u => ?_, hnow⟩
    by_cases hu : u = me
    · simp only [hu, hmine', hhas]
    · rw [hothers u hu, ho, hnone]
      simp [Ne.symm hu]
  · have hsome : o = some me := (ho me).mp (hmine.mpr hhad)
    refine ⟨none, fun u => ?_, hnow⟩
    by_cases hu : u = me
    · simp [hu, hmine', hnot]
    · rw [hothers u hu, ho, hsome]
      simp [Ne.symm hu]

end Frame

variable {me : Thread} {b : Bank} {p : Point α} {l : Nat} {base : Nat → Nat}
  {post : α → (Nat → Nat) → Prop}

theorem depthOf_set_depth (ho : (b.get l).owner = some me) (k : Nat) :
    (b.set l { b.get l with depth := k }).depthOf me = Function.update (b.depthOf me) l k := by
  rw [Bank.depthOf_set (Bank.lt_size_of_owner ho)]
  simp [Lock.depthOf, Lock.isOwnedBy, ho]

theorem depthOf_set_gate (hl : l < b.size) (gate : Lock.Gate) :
    (b.set l { b.get l with gate }).depthOf me = b.depthOf me := by
  rw [Bank.depthOf_set hl]
  exact Function.update_eq_self ..

/-- A thread inside a call does not own the lock, and what it has seen of the word is apt. -/
def Calm (me : Thread) (b : Bank) : Point α → Prop
  | before _ => True
  | inside l phase _ =>
    (b.get l).owner ≠ some me ∧ phase.Apt ∧ (phase.aim = .leave → l < b.size)

/-- What a thread has and what its depths are do not hang on the steps of another one. -/
theorem Frame.calm {u : Thread} {b' : Bank} {q : Point α} {β : Type} {p p' : Point β}
    (hf : Frame u b p b' p') (hne : me ≠ u) (hq : q.Calm me b) : q.Calm me b' := by
  cases q with
  | before rest => exact trivial
  | inside l phase next =>
    obtain ⟨hnot, hapt, hl⟩ := hq
    exact ⟨fun ho => hnot ((hf.owner_iff me hne l).mp ho), hapt, fun h => hf.size_eq ▸ hl h⟩

/-- A step that starts a call on a lock, or ends it at once because the thread is the owner. -/
theorem calm_step_before {r : Routine α} (hb : b.Solid) (fails : Bool) :
    Frame me b (before r) (step me fails b (before r)).2 (step me fails b (before r)).1 ∧
      (step me fails b (before r)).1.Calm me (step me fails b (before r)).2 := by
  have hno : ∀ {l phase} {next : Bool → Routine α}, phase.aim ≠ .leave →
      ∀ x, (inside l phase next).Leaves x ↔ (before r).Leaves x :=
    fun hne x => ⟨fun hx => absurd hx.2 hne, False.elim⟩
  cases r with
  | done a => exact ⟨.of_leaves_iff hb fun _ => .rfl, trivial⟩
  | note m rest => exact ⟨.of_leaves_iff hb fun _ => .rfl, trivial⟩
  | enter l rest =>
    by_cases ho : (b.get l).owner = some me
    · have howned : (b.get l).isOwnedBy me = true := decide_eq_true ho
      simp only [step, howned, if_true]
      exact ⟨.of_depth hb ho (Nat.succ_pos _) _ _, trivial⟩
    · have hnot : (b.get l).isOwnedBy me = false := decide_eq_false ho
      simp only [step, hnot, Bool.false_eq_true, if_false]
      exact ⟨.of_leaves_iff hb (hno (by decide)), ho, trivial, fun h => by cases h⟩
  | tryEnter l next =>
    by_cases ho : (b.get l).owner = some me
    · have howned : (b.get l).isOwnedBy me = true := decide_eq_true ho
      simp only [step, howned, if_true]
      exact ⟨.of_depth hb ho (Nat.succ_pos _) _ _, trivial⟩
    · have hnot : (b.get l).isOwnedBy me = false := decide_eq_false ho
      simp only [step, hnot, Bool.false_eq_true, if_false]
      exact ⟨.of_leaves_iff hb (hno (by decide)), ho, trivial, fun h => by cases h⟩
  | leave l next =>
    by_cases ho : (b.get l).owner = some me
    · have hl := Bank.lt_size_of_owner ho
      have howned : (b.get l).isOwnedBy me = true := decide_eq_true ho
      by_cases hdepth : 1 < (b.get l).depth
      · simp only [step, howned, hdepth, Bool.not_true, Bool.false_eq_true, if_false, if_true]
        exact ⟨.of_depth hb ho (by omega) _ _, trivial⟩
      · simp only [step, howned, hdepth, Bool.not_true, Bool.false_eq_true, if_false]
        constructor
        · refine .of_set hb hl (by simp) (fun u hu => ?_) (fun u hu => ?_) (fun x hx => ?_) ?_
          · simp [ho, Ne.symm hu]
          · simp [Lock.depthOf, Lock.isOwnedBy, ho, Ne.symm hu]
          · exact ⟨fun h => hx h.1.symm, False.elim⟩
          · exact .inl ⟨⟨fun _ => .inl ho, fun _ => .inr ⟨rfl, rfl⟩⟩, rfl⟩
        · refine ⟨?_, trivial, fun _ => by simpa using hl⟩
          rw [Bank.get_set_self hl]
          simp
    · have hnot : (b.get l).isOwnedBy me = false := decide_eq_false ho
      simp only [step, hnot, Bool.not_false, if_true]
      exact ⟨.of_leaves_iff hb fun _ => .rfl, trivial⟩

/-- A step inside a call on a lock of the bank. -/
theorem Calm.step_inside {phase : Lock.Phase} {next : Bool → Routine α} (hb : b.Solid)
    (hl : l < b.size) (hfree : (b.get l).gate.word.held = false → (b.get l).owner = none)
    (hp : (inside l phase next).Calm me b) (fails : Bool) :
    Frame me b (inside l phase next) (step me fails b (inside l phase next)).2
        (step me fails b (inside l phase next)).1 ∧
      (step me fails b (inside l phase next)).1.Calm me
        (step me fails b (inside l phase next)).2 := by
  obtain ⟨hnot, hapt, -⟩ := hp
  have helse : ∀ x ≠ l, ∀ {p : Point α}, ¬p.Leaves x →
      (p.Leaves x ↔ (inside l phase next).Leaves x) :=
    fun x hx p hp => ⟨fun h => absurd h hp, fun h => absurd h.1.symm hx⟩
  simp only [step]
  split
  · next phase' gate hstep =>
    obtain ⟨hapt', haim, hheld⟩ := Lock.Gate.step_goOn hstep
    constructor
    · refine .of_set hb hl (hb l) (fun _ _ => .rfl) (fun _ _ => rfl)
        (fun x hx => helse x hx fun h => hx h.1.symm) (.inl ⟨?_, hheld⟩)
      simp only [Has, Leaves, haim]
    · exact ⟨by rw [Bank.get_set_self hl]; exact hnot, hapt', fun _ => by simpa using hl⟩
  · next ok gate hstep =>
    refine ⟨?_, trivial⟩
    obtain ⟨hne, rfl, hwas, hnow⟩ | ⟨haim, rfl, rfl⟩ | ⟨haim, rfl, hnow⟩ :=
      Lock.Gate.step_finish hapt hstep
    · have hnone := hfree hwas
      rw [if_pos ⟨rfl, hne⟩]
      refine .of_set hb hl (fun _ _ => Nat.one_pos) (fun u hu => ?_) (fun u hu => ?_)
        (fun x hx => helse x hx id) (.inr (.inl ⟨hwas, hnow, .inl rfl⟩))
      · simp [hnone, Ne.symm hu]
      · simp [Lock.depthOf, Lock.isOwnedBy, hnone, Ne.symm hu]
    · rw [if_neg (by simp)]
      refine .of_set hb hl (hb l) (fun _ _ => .rfl) (fun _ _ => rfl)
        (fun x hx => helse x hx id) (.inl ⟨?_, rfl⟩)
      simp [Has, Leaves, haim]
    · rw [if_neg fun h => h.2 haim]
      refine .of_set hb hl (hb l) (fun _ _ => .rfl) (fun _ _ => rfl)
        (fun x hx => helse x hx id) (.inr (.inr ⟨.inr ⟨rfl, haim⟩, hnow, ?_⟩))
      exact fun h => h.elim hnot id

/-- A step inside a call on a lock that there is not changes nothing in the bank. -/
theorem Calm.step_outside {phase : Lock.Phase} {next : Bool → Routine α} (hb : b.Solid)
    (hl : ¬l < b.size) (hp : (inside l phase next).Calm me b) (fails : Bool) :
    Frame me b (inside l phase next) (step me fails b (inside l phase next)).2
        (step me fails b (inside l phase next)).1 ∧
      (step me fails b (inside l phase next)).1.Calm me
        (step me fails b (inside l phase next)).2 := by
  obtain ⟨hnot, hapt, hleave⟩ := hp
  have hne : phase.aim ≠ .leave := fun h => hl (hleave h)
  have hset : ∀ L, b.set l L = b := fun L => by
    simp [Bank.set, Array.setIfInBounds, show ¬l < b.locks.size from hl]
  simp only [step, hset]
  split
  · next phase' gate hstep =>
    obtain ⟨hapt', haim, -⟩ := Lock.Gate.step_goOn hstep
    refine ⟨.of_leaves_iff hb fun x => ?_, hnot, hapt', fun h => absurd (haim ▸ h) hne⟩
    simp only [Leaves, haim]
  · refine ⟨.of_leaves_iff hb fun x => ?_, trivial⟩
    simp only [Leaves, hne, and_false]

/-- Whatever a thread does, the others see no more of a step than its frame. -/
theorem Calm.step (hb : b.Solid)
    (hfree : ∀ l, (b.get l).gate.word.held = false → (b.get l).owner = none)
    (hp : p.Calm me b) (fails : Bool) :
    Frame me b p (p.step me fails b).2 (p.step me fails b).1 ∧
      (p.step me fails b).1.Calm me (p.step me fails b).2 := by
  cases p with
  | before r => exact calm_step_before hb fails
  | inside l phase next =>
    by_cases hl : l < b.size
    · exact hp.step_inside hb hl (hfree l) fails
    · exact hp.step_outside hb hl fails

theorem Climbs.calm (hb : b.Solid) (hp : p.Climbs base b.size post (b.depthOf me)) :
    p.Calm me b := by
  cases p with
  | before r => exact trivial
  | inside l phase next =>
    obtain ⟨hl, hzero, hapt, -⟩ := hp
    refine ⟨fun ho => ?_, hapt, fun _ => hl⟩
    have := hb.depthOf_pos ho
    omega

/-- What a step does to where the thread is and to its depths. -/
inductive Shift : Point α → (Nat → Nat) → Point α → (Nat → Nat) → Prop
  | rest (a : α) (d : Nat → Nat) : Shift (before (.done a)) d (before (.done a)) d
  | note (m : Notice) (next : Routine α) (d : Nat → Nat) :
    Shift (before (.note m next)) d (before next) d
  /-- A lock of its own is entered again. -/
  | enter (l : Nat) (next : Routine α) (d : Nat → Nat) :
    Shift (before (.enter l next)) d (before next) (raise d l)
  | tryEnter (l : Nat) (next : Bool → Routine α) (d : Nat → Nat) :
    Shift (before (.tryEnter l next)) d (before (next true)) (raise d l)
  /-- A call on a lock begins that is not its own. -/
  | wait {l : Nat} (next : Routine α) {d : Nat → Nat} (h : d l = 0) :
    Shift (before (.enter l next)) d (inside l .enter fun _ => next) d
  | attempt {l : Nat} (next : Bool → Routine α) {d : Nat → Nat} (h : d l = 0) :
    Shift (before (.tryEnter l next)) d (inside l .peek next) d
  | refuse {l : Nat} (next : Bool → Routine α) {d : Nat → Nat} (h : d l = 0) :
    Shift (before (.leave l next)) d (before (next false)) d
  | leave {l : Nat} (next : Bool → Routine α) {d : Nat → Nat} (h : 1 < d l) :
    Shift (before (.leave l next)) d (before (next true)) (lower d l)
  /-- The last level is given up before the word is cleared. -/
  | giveUp {l : Nat} (next : Bool → Routine α) {d : Nat → Nat} (h : d l = 1) :
    Shift (before (.leave l next)) d (inside l .leave next) (lower d l)
  | goOn (l : Nat) {phase phase' : Lock.Phase} (next : Bool → Routine α) (d : Nat → Nat)
    (hapt : phase'.Apt) (haim : phase'.aim = phase.aim) :
    Shift (inside l phase next) d (inside l phase' next) d
  | entered (l : Nat) {phase : Lock.Phase} (next : Bool → Routine α) (d : Nat → Nat)
    (haim : phase.aim ≠ .leave) :
    Shift (inside l phase next) d (before (next true)) (raise d l)
  | failed (l : Nat) {phase : Lock.Phase} (next : Bool → Routine α) (d : Nat → Nat)
    (haim : phase.aim = .attempt) : Shift (inside l phase next) d (before (next false)) d
  | cleared (l : Nat) {phase : Lock.Phase} (next : Bool → Routine α) (d : Nat → Nat)
    (haim : phase.aim = .leave) : Shift (inside l phase next) d (before (next true)) d

/-- A step that starts a call, or ends it at once. -/
theorem shift_before (r : Routine α) (hb : b.Solid) (fails : Bool) :
    Shift (before r) (b.depthOf me) (step me fails b (before r)).1
      ((step me fails b (before r)).2.depthOf me) := by
  cases r with
  | done a => exact .rest a _
  | note m rest => exact .note m rest _
  | enter l rest =>
    by_cases ho : (b.get l).owner = some me
    · have howned : (b.get l).isOwnedBy me = true := decide_eq_true ho
      simp only [step, howned, if_true]
      rw [depthOf_set_depth ho, ← Bank.depthOf_of_owner ho]
      exact .enter l rest _
    · have hnot : (b.get l).isOwnedBy me = false := decide_eq_false ho
      simp only [step, hnot, Bool.false_eq_true, if_false]
      exact .wait rest (Bank.depthOf_eq_zero ho)
  | tryEnter l next =>
    by_cases ho : (b.get l).owner = some me
    · have howned : (b.get l).isOwnedBy me = true := decide_eq_true ho
      simp only [step, howned, if_true]
      rw [depthOf_set_depth ho, ← Bank.depthOf_of_owner ho]
      exact .tryEnter l next _
    · have hnot : (b.get l).isOwnedBy me = false := decide_eq_false ho
      simp only [step, hnot, Bool.false_eq_true, if_false]
      exact .attempt next (Bank.depthOf_eq_zero ho)
  | leave l next =>
    by_cases ho : (b.get l).owner = some me
    · have howned : (b.get l).isOwnedBy me = true := decide_eq_true ho
      have hd := Bank.depthOf_of_owner ho
      by_cases hdepth : 1 < (b.get l).depth
      · simp only [step, howned, hdepth, Bool.not_true, Bool.false_eq_true, if_false, if_true]
        rw [depthOf_set_depth ho, ← hd]
        exact .leave next (hd ▸ hdepth)
      · simp only [step, howned, hdepth, Bool.not_true, Bool.false_eq_true, if_false]
        have hone : (b.get l).depth = 1 := by
          have := hb l me ho
          omega
        have hlower :
            (b.set l { b.get l with owner := none, depth := (b.get l).depth - 1 }).depthOf me =
              lower (b.depthOf me) l := by
          rw [Bank.depthOf_set (Bank.lt_size_of_owner ho), lower, hd, hone]
          simp [Lock.depthOf, Lock.isOwnedBy]
        rw [hlower]
        exact .giveUp next (hd.trans hone)
    · have hnot : (b.get l).isOwnedBy me = false := decide_eq_false ho
      simp only [step, hnot, Bool.not_false, if_true]
      exact .refuse next (Bank.depthOf_eq_zero ho)

/-- A step inside a call on a lock of the bank. -/
theorem Calm.shift_inside {phase : Lock.Phase} {next : Bool → Routine α} (hl : l < b.size)
    (hp : (inside l phase next).Calm me b) (fails : Bool) :
    Shift (inside l phase next) (b.depthOf me) (Point.step me fails b (inside l phase next)).1
      ((Point.step me fails b (inside l phase next)).2.depthOf me) := by
  obtain ⟨hnot, hapt, -⟩ := hp
  simp only [Point.step]
  split
  · next phase' gate hstep =>
    obtain ⟨hapt', haim, -⟩ := Lock.Gate.step_goOn hstep
    rw [depthOf_set_gate hl]
    exact .goOn l next _ hapt' haim
  · next ok gate hstep =>
    obtain ⟨hne, rfl, -, -⟩ | ⟨haim, rfl, rfl⟩ | ⟨haim, rfl, -⟩ :=
      Lock.Gate.step_finish hapt hstep
    · rw [if_pos ⟨rfl, hne⟩]
      have hd : (b.set l { b.get l with gate, owner := some me, depth := 1 }).depthOf me =
          raise (b.depthOf me) l := by
        rw [Bank.depthOf_set hl, raise, Bank.depthOf_eq_zero hnot]
        simp [Lock.depthOf, Lock.isOwnedBy]
      rw [hd]
      exact .entered l next _ hne
    · rw [if_neg (by simp), depthOf_set_gate hl]
      exact .failed l next _ haim
    · rw [if_neg fun h => h.2 haim, depthOf_set_gate hl]
      exact .cleared l next _ haim

/-- A routine that climbs goes on climbing. -/
theorem Climbs.shift {n : Nat} {d d' : Nat → Nat} {p p' : Point α} (hs : Shift p d p' d')
    (hn : ∀ x, 0 < d x → x < n) (hp : p.Climbs base n post d) : p'.Climbs base n post d' := by
  cases hs with
  | rest | note => exact hp
  | enter => exact hp.2.2
  | tryEnter => exact hp.2.2.1
  | wait next hzero => exact ⟨hp.1, hzero, trivial, hp.2.1, hp.2.2⟩
  | attempt next hzero => exact ⟨hp.1, hzero, trivial, hp.2.2.1, hp.2.2.2⟩
  | refuse next hzero =>
    have := hp.1
    omega
  | leave => exact hp.2
  | @giveUp l next d hone =>
    refine ⟨hn l (by omega), ?_, trivial, hp.2⟩
    rw [lower, Function.update_self, hone]
  | goOn l next d hapt haim =>
    obtain ⟨hl, hzero, -, hnext⟩ := hp
    refine ⟨hl, hzero, hapt, ?_⟩
    rw [haim]
    exact hnext
  | @entered l phase next d hne =>
    obtain ⟨-, -, -, hnext⟩ := hp
    cases haim : phase.aim with
    | wait => rw [haim] at hnext; exact hnext.2
    | attempt => rw [haim] at hnext; exact hnext.1
    | leave => exact absurd haim hne
  | failed l next d haim =>
    obtain ⟨-, -, -, hnext⟩ := hp
    rw [haim] at hnext
    exact hnext.2
  | cleared l next d haim =>
    obtain ⟨-, -, -, hnext⟩ := hp
    rw [haim] at hnext
    exact hnext

/-- A thread whose routine climbs is only ever at locks of the bank. -/
theorem Climbs.shift_step (hb : b.Solid) (hp : p.Climbs base b.size post (b.depthOf me))
    (fails : Bool) :
    Shift p (b.depthOf me) (p.step me fails b).1 ((p.step me fails b).2.depthOf me) := by
  cases p with
  | before r => exact shift_before r hb fails
  | inside l phase next => exact (hp.calm hb).shift_inside hp.1 fails

theorem Climbs.step (hb : b.Solid)
    (hfree : ∀ l, (b.get l).gate.word.held = false → (b.get l).owner = none)
    (hp : p.Climbs base b.size post (b.depthOf me)) (fails : Bool) :
    Frame me b p (p.step me fails b).2 (p.step me fails b).1 ∧
      (p.step me fails b).1.Climbs base b.size post ((p.step me fails b).2.depthOf me) :=
  ⟨((hp.calm hb).step hb hfree fails).1,
    hp.shift (hp.shift_step hb fails) fun _ => Bank.lt_size_of_depthOf_pos⟩

end Point

end Routine

end EntityStore
