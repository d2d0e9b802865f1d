import EntityStore.Proofs.Lock.Alone

/-!
# What comes of a call

A call that is not interrupted takes a lock that was free, is refused it, clears its word, or puts
the thread to sleep. So a call does one of five things to its lock: the lock is won, entered once
more, left but not for the last time, left for the last time, or kept as it is.
-/
namespace EntityStore

namespace Lock

namespace Gate

variable {limit : Nat} {me : Thread} {fails : Bool} {g g' : Gate} {phase phase' : Phase}

/-- An attempt touches nothing before it succeeds. -/
theorem step_attempt (ha : phase.aim = .attempt)
    (h : g.step limit me fails phase = (.goOn phase', g')) : g' = g := by
  cases phase with
  | peek =>
    simp only [step] at h
    split at h <;> cases h
    rfl
  | grab seen =>
    simp only [step] at h
    split at h
    · cases h
    · split at h <;> cases h
      rfl
  | _ => cases ha

theorem step_refused (h : g.step limit me fails phase = (.finish false, g')) :
    g.word.held = true := by
  cases phase with
  | peek =>
    simp only [step] at h
    split at h
    · assumption
    · cases h
  | grab seen =>
    simp only [step] at h
    split at h
    · cases h
    · split at h
      · assumption
      · cases h
  | look | wake => cases h
  | _ =>
    simp only [step] at h
    split at h <;> cases h

theorem step_asleep (h : g.step limit me fails phase = (.goOn .asleep, g')) :
    g.word.held = true ∨ phase = .asleep ∧ me ∈ g.queue := by
  have hsight : ∀ spins, Phase.onSight limit spins g.word ≠ .asleep := fun spins hs => by
    have hlt := (Phase.onSight_fresh limit spins g.word).2
    rw [hs] at hlt
    simp only [Phase.left] at hlt
    omega
  cases phase with
  | park =>
    simp only [step] at h
    split at h
    · next hword => exact .inl (by rw [hword])
    · cases h
  | asleep =>
    simp only [step] at h
    split at h
    · next hin => exact .inr ⟨rfl, hin⟩
    · cases h
  | look spins =>
    simp only [step, Prod.mk.injEq, Turn.goOn.injEq] at h
    exact absurd h.1 (hsight spins)
  | claim spins seen =>
    simp only [step] at h
    split at h
    · cases h
    · simp only [Prod.mk.injEq, Turn.goOn.injEq] at h
      exact absurd h.1 (hsight spins)
  | flag spins seen =>
    simp only [step] at h
    split at h
    · cases h
    · simp only [Prod.mk.injEq, Turn.goOn.injEq] at h
      exact absurd h.1 (hsight spins)
  | grab seen =>
    simp only [step] at h
    split at h
    · cases h
    · split at h <;> cases h
  | wake => cases h
  | _ =>
    simp only [step] at h
    split at h <;> cases h

inductive Outcome (me : Thread) (phase : Phase) (g : Gate) : Option Bool × Gate → Prop
  | taken {g' : Gate} (haim : phase.aim ≠ .leave) (hwas : g.word.held = false)
    (hnow : g'.word.held = true) : Outcome me phase g (some true, g')
  | refused (haim : phase.aim = .attempt) (hheld : g.word.held = true) :
    Outcome me phase g (some false, g)
  | cleared {g' : Gate} (haim : phase.aim = .leave) (hnow : g'.word.held = false) :
    Outcome me phase g (some true, g')
  | sleeps {g' : Gate} (haim : phase.aim = .wait)
    (hwhy : g.word.held = true ∨ phase = .asleep ∧ me ∈ g.queue)
    (hkept : g'.word.held = g.word.held) : Outcome me phase g (none, g')

theorem settle_outcome (me : Thread) {steps : Nat} (hf : phase.Fresh g.word) (hn : phase.left limit ≤ steps) :
    Outcome me phase g (g.settle limit me steps phase) := by
  induction steps generalizing g phase with
  | zero =>
    have := phase.left_pos limit
    omega
  | succ steps ih =>
    simp only [settle]
    cases hstep : g.step limit me false phase with
    | mk turn g' =>
      cases turn with
      | finish ok =>
        obtain ⟨hne, rfl, hwas, hnow⟩ | ⟨haim, rfl, rfl⟩ | ⟨haim, rfl, hnow⟩ :=
          step_finish hf.apt hstep
        · exact .taken hne hwas hnow
        · exact .refused haim (step_refused hstep)
        · exact .cleared haim hnow
      | goOn phase' =>
        obtain ⟨-, haim, hheld⟩ := step_goOn hstep
        by_cases hasleep : phase' = .asleep
        · subst hasleep
          exact .sleeps haim.symm (step_asleep hstep) hheld
        · obtain ⟨hf', hlt⟩ := (step_alone hf hstep).resolve_left hasleep
          have hrest : Outcome me phase g (g'.settle limit me steps phase') := by
            have hout := ih hf' (by omega)
            generalize g'.settle limit me steps phase' = r at hout ⊢
            cases hout with
            | taken hne hwas hnow => exact .taken (haim ▸ hne) (hheld ▸ hwas) hnow
            | refused ha h =>
              rw [step_attempt (haim ▸ ha) hstep] at h ⊢
              exact .refused (haim ▸ ha) h
            | cleared ha hnow => exact .cleared (haim ▸ ha) hnow
            | sleeps ha hwhy hkept =>
              have hwas := hwhy.resolve_right fun h => hasleep h.1
              exact .sleeps (haim ▸ ha) (.inl (hheld ▸ hwas)) (hkept.trans hheld)
          cases phase' with
          | asleep => exact absurd rfl hasleep
          | _ => exact hrest

end Gate

/-- A lock is locked just when it has an owner, and its owner has entered it. -/
def Sound (l : Lock) : Prop :=
  l.isLocked = l.owner.isSome ∧ ∀ t, l.owner = some t → 0 < l.depth

inductive Deed
  | took
  | gave
  | nothing
  deriving DecidableEq

/-- What a call of a thread does to a lock. -/
inductive Passage (me : Thread) (l : Lock) : Deed → Lock → Prop
  | won {gate : Gate} (hfree : l.isLocked = false) (hnow : gate.word.held = true) :
    Passage me l .took { l with gate, owner := some me, depth := 1 }
  | again (ho : l.owner = some me) : Passage me l .took { l with depth := l.depth + 1 }
  | back (ho : l.owner = some me) (hd : 1 < l.depth) :
    Passage me l .gave { l with depth := l.depth - 1 }
  | freed {gate : Gate} (ho : l.owner = some me) (hd : l.depth ≤ 1)
    (hnow : gate.word.held = false) :
    Passage me l .gave { l with gate, owner := none, depth := l.depth - 1 }
  | kept {gate : Gate} (hkept : gate.word.held = l.isLocked) :
    Passage me l .nothing { l with gate }

variable {l l' : Lock} {me t : Thread} {deed : Deed} {phase : Phase}

theorem Passage.sound (h : Passage me l deed l') (hl : l.Sound) : l'.Sound := by
  cases h with
  | won hfree hnow => exact ⟨hnow, fun _ _ => Nat.one_pos⟩
  | again ho => exact ⟨hl.1, fun _ _ => Nat.succ_pos _⟩
  | back ho hd => exact ⟨hl.1, fun _ _ => Nat.sub_pos_of_lt hd⟩
  | freed ho hd hnow => exact ⟨hnow, fun _ h => by cases h⟩
  | kept hkept => exact ⟨hkept.trans hl.1, hl.2⟩

theorem Sound.owner_eq_none (hl : l.Sound) (h : l.isLocked = false) : l.owner = none := by
  simpa [h] using hl.1.symm

theorem Sound.depthOf_pos_iff (hl : l.Sound) : 0 < l.depthOf t ↔ l.owner = some t := by
  by_cases ho : l.owner = some t
  · simpa [depthOf, isOwnedBy, ho] using hl.2 t ho
  · simp [depthOf, isOwnedBy, ho]

/-- A thread's depth counts what it took and has not given back. -/
theorem Passage.depthOf_eq (h : Passage me l deed l') (hl : l.Sound) :
    l'.depthOf me + (if deed = .gave then 1 else 0) =
      l.depthOf me + (if deed = .took then 1 else 0) := by
  cases h with
  | won hfree hnow => simp [depthOf, isOwnedBy, hl.owner_eq_none hfree]
  | again ho => simp [depthOf, isOwnedBy, ho]
  | back ho hd =>
    simp only [depthOf, isOwnedBy, ho, decide_true, if_true, reduceCtorEq, if_false]
    omega
  | freed ho hd hnow =>
    have := hl.2 me ho
    simp only [depthOf, isOwnedBy, ho, decide_true, if_true, reduceCtorEq, if_false]
    simp only [decide_false, Bool.false_eq_true, if_false]
    omega
  | kept hkept => rfl

theorem Passage.depthOf_other (h : Passage me l deed l') (hl : l.Sound) (ht : t ≠ me) :
    l'.depthOf t = l.depthOf t := by
  cases h with
  | won hfree hnow => simp [depthOf, isOwnedBy, hl.owner_eq_none hfree, Ne.symm ht]
  | again ho | back ho hd | freed ho hd hnow => simp [depthOf, isOwnedBy, ho, Ne.symm ht]
  | kept hkept => rfl

/-- Only the owner gives a lock up, when it leaves it for the last time. -/
theorem Passage.given_up (h : Passage me l deed l') (hl : l.Sound) (ho : l.owner = some t)
    (ho' : l'.owner ≠ some t) :
    t = me ∧ deed = .gave ∧ l.depth = 1 ∧ l'.depth = 0 ∧ l'.owner = none := by
  cases h with
  | won hfree hnow => simp [hl.owner_eq_none hfree] at ho
  | freed hme hd hnow =>
    have := hl.2 me hme
    refine ⟨by simpa [hme] using ho.symm, rfl, by omega, ?_, rfl⟩
    show l.depth - 1 = 0
    omega
  | again | back | kept => exact absurd ho ho'

/-- A call that does not clear the word is won if the lock is free, unless the thread sleeps. -/
theorem proceed_of_free (me : Thread) (phase : Phase) (haim : phase.aim ≠ .leave) (hf : phase.Fresh l.gate.word)
    (hawake : phase = .asleep → l.isAsleep me = false) (hfree : l.isLocked = false) :
    ∃ gate, gate.word.held = true ∧
      l.proceed me phase = (true, { l with gate, owner := some me, depth := 1 }) := by
  have hout := Gate.settle_outcome me hf (phase.left_le_enough l.spinLimit)
  unfold proceed
  generalize l.gate.settle l.spinLimit me (Gate.enough l.spinLimit) phase = r at hout ⊢
  cases hout with
  | taken _ _ hnow => exact ⟨_, hnow, rfl⟩
  | refused _ hheld => exact absurd (hheld.symm.trans hfree) (by simp)
  | cleared ha => exact absurd ha haim
  | sleeps _ hwhy =>
    obtain hheld | ⟨hp, hin⟩ := hwhy
    · exact absurd (hheld.symm.trans hfree) (by simp)
    · simpa [isAsleep, hin] using hawake hp

/-- A call on a lock that is held is not won, and an attempt changes nothing. -/
theorem proceed_of_locked (me : Thread) (phase : Phase) (haim : phase.aim ≠ .leave) (hf : phase.Fresh l.gate.word)
    (hheld : l.isLocked = true) :
    ∃ gate, gate.word.held = true ∧ (phase.aim = .attempt → gate = l.gate) ∧
      l.proceed me phase = (false, { l with gate }) := by
  have hout := Gate.settle_outcome me hf (phase.left_le_enough l.spinLimit)
  unfold proceed
  generalize l.gate.settle l.spinLimit me (Gate.enough l.spinLimit) phase = r at hout ⊢
  cases hout with
  | taken _ hwas => exact absurd (hwas.symm.trans hheld) (by simp)
  | refused => exact ⟨l.gate, hheld, fun _ => rfl, rfl⟩
  | cleared ha => exact absurd ha haim
  | sleeps ha _ hkept =>
    exact ⟨_, hkept.trans hheld, fun h => absurd (ha.symm.trans h) (by decide), rfl⟩

/-- A thread that does not own the lock gets it just when it is free. -/
theorem proceed_eq_true_iff (me : Thread) (phase : Phase) (haim : phase.aim ≠ .leave) (hf : phase.Fresh l.gate.word)
    (hawake : phase = .asleep → l.isAsleep me = false) :
    (l.proceed me phase).1 = true ↔ l.isLocked = false := by
  cases hlocked : l.isLocked with
  | true =>
    obtain ⟨gate, -, -, heq⟩ := proceed_of_locked me phase haim hf hlocked
    simp [heq]
  | false =>
    obtain ⟨gate, -, heq⟩ := proceed_of_free me phase haim hf hawake hlocked
    simp [heq]

theorem enter_eq_true_iff (me : Thread) (l : Lock) :
    (l.enter me).1 = true ↔ l.isLocked = false ∨ l.owner = some me := by
  unfold Lock.enter
  split
  · next howned => simpa using .inr (of_decide_eq_true howned)
  · next hnot =>
    have hne : l.owner ≠ some me := by simpa [isOwnedBy] using hnot
    simpa [hne] using proceed_eq_true_iff me .enter (by decide) trivial (fun h => by cases h)

theorem tryEnter_eq_true_iff (me : Thread) (l : Lock) :
    (l.tryEnter me).1 = true ↔ l.isLocked = false ∨ l.owner = some me := by
  unfold Lock.tryEnter
  split
  · next howned => simpa using .inr (of_decide_eq_true howned)
  · next hnot =>
    have hne : l.owner ≠ some me := by simpa [isOwnedBy] using hnot
    simpa [hne] using proceed_eq_true_iff me .peek (by decide) trivial (fun h => by cases h)

theorem resume_eq_true_iff (me : Thread) (l : Lock) :
    (l.resume me).1 = true ↔ l.isLocked = false ∧ l.isAsleep me = false := by
  unfold Lock.resume
  split
  · next hasleep => simp [hasleep]
  · next hawake =>
    have hawake : l.isAsleep me = false := by simpa using hawake
    simpa [hawake] using proceed_eq_true_iff me .asleep (by decide) trivial (fun _ => hawake)

/-- An attempt that fails leaves the lock as it was. -/
theorem tryEnter_of_refused (h : (l.tryEnter me).1 = false) : (l.tryEnter me).2 = l := by
  unfold Lock.tryEnter at h ⊢
  split
  · next howned => simp [howned] at h
  · next hnot =>
    simp only [hnot, Bool.false_eq_true, if_false] at h
    have hlocked : l.isLocked = true := by
      by_contra hfree
      have := (proceed_eq_true_iff me .peek (by decide) trivial
        (fun h => by cases h)).mpr (by simpa using hfree)
      simp [h] at this
    obtain ⟨gate, -, hgate, heq⟩ :=
      proceed_of_locked me .peek (by decide) trivial hlocked
    rw [heq, hgate rfl]

theorem leave_of_owner (h : l.owner = some me) : ∃ lock, l.leave me = .ok lock := by
  have howned : l.isOwnedBy me = true := decide_eq_true h
  simp only [Lock.leave, howned, Bool.not_true, Bool.false_eq_true, if_false]
  split
  · exact ⟨_, rfl⟩
  · exact ⟨_, rfl⟩

theorem Passage.proceed (haim : phase.aim ≠ .leave) (hf : phase.Fresh l.gate.word)
    (hawake : phase = .asleep → l.isAsleep me = false) :
    Passage me l (if (l.proceed me phase).1 then .took else .nothing) (l.proceed me phase).2 := by
  cases hlocked : l.isLocked with
  | true =>
    obtain ⟨gate, hheld, -, heq⟩ := proceed_of_locked me phase haim hf hlocked
    rw [heq]
    exact .kept (hheld.trans hlocked.symm)
  | false =>
    obtain ⟨gate, hheld, heq⟩ := proceed_of_free me phase haim hf hawake hlocked
    rw [heq]
    exact .won hlocked hheld

theorem Passage.enter (me : Thread) (l : Lock) :
    Passage me l (if (l.enter me).1 then .took else .nothing) (l.enter me).2 := by
  unfold Lock.enter
  split
  · next howned => exact .again (of_decide_eq_true howned)
  · exact .proceed (by decide) trivial (fun h => by cases h)

theorem Passage.tryEnter (me : Thread) (l : Lock) :
    Passage me l (if (l.tryEnter me).1 then .took else .nothing) (l.tryEnter me).2 := by
  unfold Lock.tryEnter
  split
  · next howned => exact .again (of_decide_eq_true howned)
  · exact .proceed (by decide) trivial (fun h => by cases h)

theorem Passage.resume (me : Thread) (l : Lock) :
    Passage me l (if (l.resume me).1 then .took else .nothing) (l.resume me).2 := by
  unfold Lock.resume
  split
  · exact .kept rfl
  · next hawake => exact .proceed (by decide) trivial (fun _ => by simpa using hawake)

theorem Passage.leave (h : l.leave me = .ok l') : Passage me l .gave l' := by
  unfold Lock.leave at h
  split at h
  · cases h
  · next howned =>
    have ho : l.owner = some me := by simpa [isOwnedBy] using howned
    split at h
    · next hd =>
      cases h
      exact .back ho hd
    · next hd =>
      cases h
      refine .freed ho (by omega) ?_
      have hout : Gate.Outcome me .leave l.gate
          (l.gate.settle l.spinLimit me (Gate.enough l.spinLimit) .leave) :=
        Gate.settle_outcome me trivial (Phase.left_le_enough _ _)
      generalize l.gate.settle l.spinLimit me (Gate.enough l.spinLimit) .leave = r at hout ⊢
      cases hout with
      | cleared _ hnow => exact hnow
      | taken haim => exact absurd rfl haim
      | refused haim | sleeps haim => cases haim

end Lock

end EntityStore
