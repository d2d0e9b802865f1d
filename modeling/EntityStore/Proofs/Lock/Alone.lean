import EntityStore.Proofs.Lock.Interleave
import Mathlib.Logic.Relation

/-!
# A thread left alone

A thread that no other one interrupts and whose exchanges fail only for a reason passes the phases
of a call one after the other until the call ends or the thread sleeps. So a routine that is
advanced in one go takes the same steps as one among other threads, and comes to the same point.
-/
namespace EntityStore

namespace Lock

/-- What the phase has seen of the word is still so. -/
def Phase.Fresh (w : Word) : Phase → Prop
  | claim _ seen | grab seen => seen = w ∧ seen.held = false
  | flag _ seen => seen = w ∧ seen.held = true
  | park => w = { held := true, parked := true }
  | _ => True

/-- How many steps a call may still take. -/
def Phase.left (limit : Nat) : Phase → Nat
  | enter | asleep => limit + 6
  | look spins => limit - spins + 5
  | claim .. | grab _ | wake => 1
  | flag .. => 3
  | park | peek | leave => 2

theorem Phase.Fresh.apt {w : Word} {phase : Phase} (h : phase.Fresh w) : phase.Apt := by
  cases phase with
  | claim spins seen => exact h.2
  | grab seen => exact h.2
  | _ => trivial

theorem Phase.left_pos (limit : Nat) (phase : Phase) : 0 < phase.left limit := by
  cases phase <;> simp [left]

theorem Phase.left_le_enough (limit : Nat) (phase : Phase) :
    phase.left limit ≤ Gate.enough limit := by
  cases phase <;> simp only [left, Gate.enough] <;> omega

theorem Phase.onSight_fresh (limit spins : Nat) (w : Word) :
    (onSight limit spins w).Fresh w ∧
      (onSight limit spins w).left limit < (look spins).left limit := by
  unfold onSight
  split
  · next h => exact ⟨⟨rfl, by simpa using h⟩, by simp only [left]; omega⟩
  · next hheld =>
    have hheld : w.held = true := by simpa using hheld
    split
    · next hparked =>
      refine ⟨?_, by simp only [left]; omega⟩
      cases w
      simp_all [Fresh]
    · split
      · exact ⟨trivial, by simp only [left]; omega⟩
      · exact ⟨⟨rfl, hheld⟩, by simp only [left]; omega⟩

namespace Gate

variable {limit : Nat} {me : Thread} {g g' : Gate} {phase phase' : Phase}

/-- A step that does not end the call brings it nearer to its end, or to sleep. -/
theorem step_alone (hf : phase.Fresh g.word)
    (h : g.step limit me false phase = (.goOn phase', g')) :
    phase' = .asleep ∨ phase'.Fresh g'.word ∧ phase'.left limit < phase.left limit := by
  cases phase with
  | enter =>
    simp only [step] at h
    split at h <;> cases h
    exact .inr ⟨trivial, by simp only [Phase.left]; omega⟩
  | look spins =>
    cases h
    exact .inr (Phase.onSight_fresh ..)
  | claim spins seen =>
    simp [step, hf.1] at h
  | flag spins seen =>
    obtain ⟨rfl, hheld⟩ := hf
    simp only [step, and_self, if_true] at h
    cases h
    refine .inr ⟨?_, by simp only [Phase.left]; omega⟩
    simp [Phase.Fresh, hheld]
  | park =>
    simp only [step] at h
    split at h <;> cases h
    · exact .inl rfl
    · next hne => exact absurd hf hne
  | asleep =>
    simp only [step] at h
    split at h <;> cases h
    · exact .inl rfl
    · exact .inr ⟨trivial, by simp only [Phase.left]; omega⟩
  | peek =>
    simp only [step] at h
    split at h
    · cases h
    · next hfree =>
      cases h
      exact .inr ⟨⟨rfl, by simpa using hfree⟩, by simp only [Phase.left]; omega⟩
  | grab seen => simp [step, hf.1] at h
  | leave =>
    simp only [step] at h
    split at h <;> cases h
    exact .inr ⟨trivial, by simp only [Phase.left]; omega⟩
  | wake => cases h

end Gate

end Lock

namespace Bank

theorem set_set (b : Bank) (l : Nat) (L L' : Lock) : (b.set l L).set l L' = b.set l L' := by
  simp [set]

end Bank

namespace Routine.Point

variable {α : Type} {me : Thread} {b : Bank} {l : Nat}

/-- The steps of one thread without failures of no reason. -/
abbrev Alone (me : Thread) : Point α × Bank → Point α × Bank → Prop :=
  Relation.ReflTransGen fun x y => y = x.1.step me false x.2

/-- A call on a lock of the bank ends, or the thread sleeps, in as many steps as it is given. -/
theorem settle_alone (hl : l < b.size) (next : Bool → Routine α) {steps : Nat} {phase : Lock.Phase}
    (hf : phase.Fresh (b.get l).gate.word) (hn : phase.left (b.get l).spinLimit ≤ steps) :
    (∃ ok gate, (b.get l).gate.settle (b.get l).spinLimit me steps phase = (some ok, gate) ∧
      (ok = true ∨ phase.aim = .attempt) ∧
      Alone me (inside l phase next, b) (before (next ok), b.set l
        (if ok ∧ phase.aim ≠ .leave then { b.get l with gate, owner := some me, depth := 1 }
        else { b.get l with gate }))) ∨
    ∃ gate, (b.get l).gate.settle (b.get l).spinLimit me steps phase = (none, gate) ∧
      phase.aim = .wait ∧
      Alone me (inside l phase next, b) (inside l .asleep next, b.set l { b.get l with gate }) := by
  induction steps generalizing b phase with
  | zero =>
    have := phase.left_pos (b.get l).spinLimit
    omega
  | succ steps ih =>
    have hone : Alone me (inside l phase next, b) ((inside l phase next).step me false b) :=
      .single rfl
    simp only [step] at hone
    simp only [Lock.Gate.settle]
    cases hstep : (b.get l).gate.step (b.get l).spinLimit me false phase with
    | mk turn gate =>
      rw [hstep] at hone
      cases turn with
      | finish ok =>
        refine .inl ⟨ok, gate, rfl, ?_, hone⟩
        rcases Lock.Gate.step_finish hf.apt hstep with ⟨-, h, -⟩ | ⟨h, -⟩ | ⟨-, h, -⟩
        · exact .inl h
        · exact .inr h
        · exact .inl h
      | goOn phase' =>
        obtain ⟨-, haim, -⟩ := Lock.Gate.step_goOn hstep
        by_cases hasleep : phase' = .asleep
        · subst hasleep
          exact .inr ⟨gate, rfl, haim.symm, hone⟩
        · obtain ⟨hf', hlt⟩ := (Lock.Gate.step_alone hf hstep).resolve_left hasleep
          have hget : (b.set l { b.get l with gate }).get l = { b.get l with gate } :=
            Bank.get_set_self hl
          have hleft : phase'.left (b.get l).spinLimit ≤ steps :=
            Nat.le_of_lt_succ (Nat.lt_of_lt_of_le hlt hn)
          have hnext := ih (b := b.set l { b.get l with gate }) (by simpa using hl)
            (by rw [hget]; exact hf') (by rw [hget]; exact hleft)
          rw [hget] at hnext
          simp only [Bank.set_set, haim] at hnext
          cases phase' with
          | asleep => exact absurd rfl hasleep
          | _ =>
            rcases hnext with ⟨ok, gate', hs, hok, ha⟩ | ⟨gate', hs, hw, ha⟩
            · exact .inl ⟨ok, gate', hs, hok, hone.trans ha⟩
            · exact .inr ⟨gate', hs, hw, hone.trans ha⟩

/-- A call has enough steps to end or to put the thread to sleep. -/
theorem call_alone (me : Thread) (hl : l < b.size) (next : Bool → Routine α) (phase : Lock.Phase)
    (hf : phase.Fresh (b.get l).gate.word) :
    let enough := Lock.Gate.enough (b.get l).spinLimit
    (∃ ok gate, (b.get l).gate.settle (b.get l).spinLimit me enough phase = (some ok, gate) ∧
      (ok = true ∨ phase.aim = .attempt) ∧
      Alone me (inside l phase next, b) (before (next ok), b.set l
        (if ok ∧ phase.aim ≠ .leave then { b.get l with gate, owner := some me, depth := 1 }
        else { b.get l with gate }))) ∨
    ∃ gate, (b.get l).gate.settle (b.get l).spinLimit me enough phase = (none, gate) ∧
      phase.aim = .wait ∧
      Alone me (inside l phase next, b) (inside l .asleep next, b.set l { b.get l with gate }) :=
  settle_alone hl next hf (phase.left_le_enough _)

/-- There is nothing in the way of a lock outside of the bank, and nothing is kept of it. -/
theorem outside_alone (me : Thread) (hl : ¬l < b.size) (next : Bool → Routine α)
    {phase : Lock.Phase} (hphase : phase = .enter ∨ phase = .peek) :
    b.on l (Lock.proceed me phase) = (true, b) ∧
      Alone me (inside l phase next, b) (before (next true), b) := by
  have hget : b.get l = default := by
    rw [Bank.get, Array.getD_eq_getD_getElem?, Array.getElem?_eq_none (Nat.le_of_not_lt hl)]
    rfl
  have hset : ∀ L, b.set l L = b := fun L => by
    simp [Bank.set, Array.setIfInBounds, show ¬l < b.locks.size from hl]
  have henter : (before (next true), b) = (inside l .enter next).step me false b := by
    simp only [step, hget]
    exact Prod.ext rfl (hset _).symm
  have hpeek : (inside l (.grab {}) next, b) = (inside l .peek next).step me false b := by
    simp only [step, hget]
    exact Prod.ext rfl (hset _).symm
  have hgrab : (before (next true), b) = (inside l (.grab {}) next).step me false b := by
    simp only [step, hget]
    exact Prod.ext rfl (hset _).symm
  simp only [Bank.on, hget, hset]
  rcases hphase with rfl | rfl
  · exact ⟨rfl, .single henter⟩
  · exact ⟨rfl, .head hpeek (.single hgrab)⟩

theorem enter_alone (me : Thread) (b : Bank) (l : Nat) (next : Routine α) :
    Alone me (inside l .enter fun _ => next, b) (match b.on l (Lock.proceed me .enter) with
      | (true, b') => (before next, b')
      | (false, b') => (inside l .asleep fun _ => next, b')) := by
  by_cases hl : l < b.size
  · obtain ⟨ok, gate, hs, hok, ha⟩ | ⟨gate, hs, -, ha⟩ :=
      call_alone me hl (fun _ => next) .enter trivial
    · obtain rfl := hok.resolve_right (by decide)
      simp only [Bank.on, Lock.proceed, hs]
      exact ha
    · simp only [Bank.on, Lock.proceed, hs]
      exact ha
  · obtain ⟨hon, ha⟩ := outside_alone me hl (fun _ => next) (.inl rfl)
    rw [hon]
    exact ha

theorem tryEnter_alone (me : Thread) (b : Bank) (l : Nat) (next : Bool → Routine α) :
    Alone me (inside l .peek next, b)
      (before (next (b.on l (Lock.proceed me .peek)).1), (b.on l (Lock.proceed me .peek)).2) := by
  by_cases hl : l < b.size
  · rcases call_alone me hl next .peek trivial with ⟨ok, gate, hs, -, ha⟩ | ⟨_, -, hw, -⟩
    · simp only [Bank.on, Lock.proceed, hs]
      cases ok with
      | true => exact ha
      | false => exact ha
    · cases hw
  · obtain ⟨hon, ha⟩ := outside_alone me hl next (.inr rfl)
    rw [hon]
    exact ha

theorem leave_alone (me : Thread) (hl : l < b.size) (L : Lock) (next : Bool → Routine α) :
    Alone me (inside l .leave next, b.set l L)
      (before (next true), b.set l { L with
        gate := (L.gate.settle L.spinLimit me (Lock.Gate.enough L.spinLimit) .leave).2 }) := by
  have hget : (b.set l L).get l = L := Bank.get_set_self hl
  obtain ⟨ok, gate, hs, hok, ha⟩ | ⟨_, -, hw, -⟩ :=
    call_alone (b := b.set l L) me (by simpa using hl) next .leave trivial
  · obtain rfl := hok.resolve_right (by decide)
    rw [hget] at hs ha
    rw [Bank.set_set] at ha
    rw [hs]
    exact ha
  · cases hw

end Routine.Point

namespace Routine

variable {α : Type} {me : Thread}

def Standing.point : Standing α → Point α
  | finished a => .before (done a)
  | waiting l _ next => .inside l .asleep fun _ => next

/-- Advancing a routine is what its thread does alone. -/
theorem advance_alone (r : Routine α) (b : Bank) :
    Point.Alone me (.before r, b) ((r.advance me b).1.point, (r.advance me b).2.1) := by
  have hstep : ∀ (x : Point α × Bank) {y}, Point.Alone me (x.1.step me false x.2) y →
      Point.Alone me x y := fun x y h => .head rfl h
  induction r generalizing b with
  | done a => exact .refl
  | note m next ih => exact hstep (.before (note m next), b) (ih b)
  | enter l next ih =>
    apply hstep (.before (enter l next), b)
    simp only [advance, Bank.on, Lock.enter, Point.step]
    cases howned : (b.get l).isOwnedBy me with
    | true => exact ih _
    | false =>
      have ha := Point.enter_alone me b l next
      simp only [Bank.on] at ha
      cases hp : (b.get l).proceed me .enter with
      | mk ok L =>
        rw [hp] at ha
        simp only [Bool.false_eq_true, if_false]
        cases ok with
        | true => exact ha.trans (ih _)
        | false => exact ha
  | tryEnter l next ih =>
    apply hstep (.before (tryEnter l next), b)
    simp only [advance, Bank.on, Lock.tryEnter, Point.step]
    cases howned : (b.get l).isOwnedBy me with
    | true => exact ih _ _
    | false => exact (Point.tryEnter_alone me b l next).trans (ih _ _)
  | leave l next ih =>
    apply hstep (.before (leave l next), b)
    simp only [advance, Lock.leave, Point.step]
    cases howned : (b.get l).isOwnedBy me with
    | true =>
      simp only [Bool.not_true, Bool.false_eq_true, if_false]
      by_cases hdepth : 1 < (b.get l).depth
      · simp only [hdepth, if_true]
        exact ih _ _
      · simp only [hdepth, if_false]
        have hl : l < b.size := Bank.lt_size_of_owner (of_decide_eq_true howned)
        exact (Point.leave_alone me hl _ next).trans (ih _ _)
    | false => exact ih _ _

end Routine

end EntityStore
