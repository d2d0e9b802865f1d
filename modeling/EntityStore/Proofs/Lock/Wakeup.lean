import EntityStore.Proofs.Lock.Interleave

/-!
# No lost wakeup

Threads share a bank and come between each other at every access to the word of a lock. While a
thread is in the queue of a lock the word says so, and if the lock is free meanwhile, some thread
is on its way to it. What a step does to the word and the queue of a lock depends on nothing but
the phase that the thread is in, so this is shown for one lock and the phases of the threads in it
(`Lock.Gate.Tended`).
-/
namespace EntityStore

namespace Lock

/-- The thread has failed to take the lock at first sight, and stays until it has it. -/
def Phase.Slow : Phase → Prop
  | look _ | claim .. | flag .. | park | asleep => True
  | enter | peek | grab _ | leave | wake => False

theorem Phase.onSight_slow (limit spins : Nat) (seen : Word) : (onSight limit spins seen).Slow := by
  unfold onSight
  split
  · trivial
  · split
    · trivial
    · split <;> trivial

def Turn.phase? : Turn → Option Phase
  | goOn phase => some phase
  | finish _ => none

namespace Gate

/-- The threads in the queue are taken care of, given the phase of each thread in its call. -/
structure Tended (g : Gate) (phases : Thread → Option Phase) : Prop where
  nodup : g.queue.Nodup
  asleep : ∀ t ∈ g.queue, phases t = some .asleep
  parked : g.queue ≠ [] → g.word.parked = true
  /-- If the lock is free, a thread is on its way to it that is not in the queue. -/
  awake : g.word.held = false → g.queue ≠ [] →
    ∃ t phase, phases t = some phase ∧ phase.Slow ∧ t ∉ g.queue

namespace Tended

variable {limit : Nat} {t : Thread} {fails : Bool} {g g' : Gate} {phase : Phase}
  {next : Option Phase} {turn : Turn} {phases : Thread → Option Phase}

theorem of_empty (h : g.queue = []) (phases : Thread → Option Phase) : g.Tended phases where
  nodup := by simp [h]
  asleep := by simp [h]
  parked hne := absurd h hne
  awake _ hne := absurd h hne

theorem empty (h : g.Tended phases) (hp : g.word.parked = false) : g.queue = [] := by
  by_contra hne
  rw [h.parked hne] at hp
  cases hp

theorem not_mem (h : g.Tended phases) (ht : phases t ≠ some .asleep) : t ∉ g.queue :=
  fun hin => ht (h.asleep t hin)

/-- A thread that is not in the queue goes on, and may write the word. -/
theorem write (h : g.Tended phases) (hout : t ∉ g.queue) {w : Word}
    (hparked : g.word.parked = true → w.parked = true)
    (hawake : w.held = false → (∃ p, next = some p ∧ p.Slow) ∨
      g.word.held = false ∧ ∀ p, phases t = some p → ¬p.Slow) :
    Tended { g with word := w } (Function.update phases t next) where
  nodup := h.nodup
  asleep u hu := by
    rw [Function.update_of_ne (ne_of_mem_of_not_mem hu hout)]
    exact h.asleep u hu
  parked hne := hparked (h.parked hne)
  awake hfree hne := by
    obtain ⟨p, rfl, hp⟩ | ⟨hwas, hquick⟩ := hawake hfree
    · exact ⟨t, p, Function.update_self .., hp, hout⟩
    · obtain ⟨u, p, hu, hp, hnot⟩ := h.awake hwas hne
      have hut : u ≠ t := fun he => hquick p (he ▸ hu) hp
      exact ⟨u, p, by rw [Function.update_of_ne hut, hu], hp, hnot⟩

/-- A thread that is outside of any call may begin one. -/
theorem outside (h : g.Tended phases) (ht : phases t = none) (next : Option Phase) :
    g.Tended (Function.update phases t next) :=
  h.write (h.not_mem (by simp [ht])) id fun hfree => .inr ⟨hfree, by simp [ht]⟩

theorem joined (h : g.Tended phases) (hout : t ∉ g.queue)
    (hword : g.word = { held := true, parked := true }) :
    Tended { g with queue := g.queue ++ [t] } (Function.update phases t (some .asleep)) where
  nodup := List.nodup_append.mpr ⟨h.nodup, by simp, fun u hu v hv =>
    List.mem_singleton.mp hv ▸ ne_of_mem_of_not_mem hu hout⟩
  asleep u hu := by
    by_cases hut : u = t
    · rw [hut, Function.update_self]
    · rw [Function.update_of_ne hut]
      exact h.asleep u (by simpa [hut] using hu)
  parked _ := by rw [hword]
  awake hfree := by simp [hword] at hfree

/-- The first thread of the queue is woken, so it is on its way then. -/
theorem woken (h : g.Tended phases) (hout : t ∉ g.queue) :
    Tended { word := { parked := !g.queue.tail.isEmpty }, queue := g.queue.tail }
      (Function.update phases t none) := by
  cases hq : g.queue with
  | nil => exact of_empty rfl _
  | cons u rest =>
    have hnodup := h.nodup
    rw [hq] at hnodup hout
    obtain ⟨hu, hrest⟩ := List.nodup_cons.mp hnodup
    have hasleep : ∀ v ∈ u :: rest, Function.update phases t none v = some .asleep := fun v hv => by
      rw [Function.update_of_ne (ne_of_mem_of_not_mem hv hout)]
      exact h.asleep v (hq ▸ hv)
    exact {
      nodup := hrest
      asleep := fun v hv => hasleep v (List.mem_cons_of_mem u hv)
      parked := fun hne => by simpa using hne
      awake := fun _ _ => ⟨u, .asleep, hasleep u List.mem_cons_self, trivial, hu⟩ }

/-- Whatever phase a thread is in, its next step leaves the queue taken care of. -/
theorem step (h : g.Tended phases) (ht : phases t = some phase)
    (hs : g.step limit t fails phase = (turn, g')) :
    g'.Tended (Function.update phases t turn.phase?) := by
  have hout : phase ≠ .asleep → t ∉ g.queue := fun hne => h.not_mem (by simpa [ht] using hne)
  have hquick : ¬phase.Slow → ∀ p, phases t = some p → ¬p.Slow := fun hq p hp => by
    rw [ht] at hp
    cases hp
    exact hq
  cases phase with
  | enter =>
    simp only [Gate.step] at hs
    split at hs
    · next hclear =>
      cases hs
      refine of_empty ?_ _
      exact h.empty (by rw [hclear.1])
    · cases hs
      exact h.write (hout (by simp)) id fun _ => .inl ⟨_, rfl, trivial⟩
  | look spins =>
    cases hs
    exact h.write (hout (by simp)) id fun _ => .inl ⟨_, rfl, Phase.onSight_slow ..⟩
  | claim spins seen =>
    simp only [Gate.step] at hs
    split at hs
    · next hseen =>
      cases hs
      exact h.write (hout (by simp)) (fun hp => hseen.1 ▸ hp) (by simp)
    · cases hs
      exact h.write (hout (by simp)) id fun _ => .inl ⟨_, rfl, Phase.onSight_slow ..⟩
  | flag spins seen =>
    simp only [Gate.step] at hs
    split at hs
    · cases hs
      exact h.write (hout (by simp)) (fun _ => rfl) fun _ => .inl ⟨_, rfl, trivial⟩
    · cases hs
      exact h.write (hout (by simp)) id fun _ => .inl ⟨_, rfl, Phase.onSight_slow ..⟩
  | park =>
    simp only [Gate.step] at hs
    split at hs
    · next hword =>
      cases hs
      exact h.joined (hout (by simp)) hword
    · cases hs
      exact h.write (hout (by simp)) id fun _ => .inl ⟨_, rfl, trivial⟩
  | asleep =>
    simp only [Gate.step] at hs
    split at hs
    · cases hs
      rw [Turn.phase?, ← ht, Function.update_eq_self]
      exact h
    · next hnot =>
      cases hs
      exact h.write hnot id fun _ => .inl ⟨_, rfl, trivial⟩
  | peek =>
    simp only [Gate.step] at hs
    split at hs
    · cases hs
      exact h.write (hout (by simp)) id fun hfree => .inr ⟨hfree, hquick id⟩
    · cases hs
      exact h.write (hout (by simp)) id fun hfree => .inr ⟨hfree, hquick id⟩
  | grab seen =>
    simp only [Gate.step] at hs
    split at hs
    · next hseen =>
      cases hs
      exact h.write (hout (by simp)) (fun hp => hseen.1 ▸ hp) (by simp)
    · split at hs
      · cases hs
        exact h.write (hout (by simp)) id fun hfree => .inr ⟨hfree, hquick id⟩
      · cases hs
        exact h.write (hout (by simp)) id fun hfree => .inr ⟨hfree, hquick id⟩
  | leave =>
    simp only [Gate.step] at hs
    split at hs
    · next hword =>
      cases hs
      refine of_empty ?_ _
      exact h.empty (by rw [hword])
    · cases hs
      exact h.write (hout (by simp)) id fun hfree => .inr ⟨hfree, hquick id⟩
  | wake =>
    cases hs
    exact h.woken (hout (by simp))

end Tended

end Gate

end Lock

namespace Routine

namespace Point

variable {α : Type} {me : Thread} {b : Bank} {l : Nat}

def phaseIn (l : Nat) : Point α → Option Lock.Phase
  | before _ => none
  | inside k phase _ => if k = l then some phase else none

theorem phaseIn_eq_some {p : Point α} {phase : Lock.Phase} :
    p.phaseIn l = some phase ↔ ∃ next, p = inside l phase next := by
  cases p with
  | before r => simp [phaseIn]
  | inside k phase' next =>
    simp only [phaseIn, Option.ite_none_right_eq_some, Option.some.injEq, inside.injEq]
    constructor
    · rintro ⟨rfl, rfl⟩
      exact ⟨next, rfl, rfl, rfl⟩
    · rintro ⟨_, rfl, rfl, -⟩
      exact ⟨rfl, rfl⟩

/-- A thread outside of any call on a lock does not touch its word or queue; a thread inside a call
makes one step of it. -/
theorem step_gate (me : Thread) (fails : Bool) (p : Point α) (hl : l < b.size) :
    (p.phaseIn l = none ∧ ((p.step me fails b).2.get l).gate = (b.get l).gate) ∨
    ∃ phase turn, p.phaseIn l = some phase ∧
      (p.step me fails b).1.phaseIn l = turn.phase? ∧
      (b.get l).gate.step (b.get l).spinLimit me fails phase =
        (turn, ((p.step me fails b).2.get l).gate) := by
  have hset : ∀ k L, (k = l → L.gate = (b.get l).gate) →
      ((b.set k L).get l).gate = (b.get l).gate := by
    intro k L hL
    by_cases hk : k = l
    · subst hk
      rw [Bank.get_set_self hl, hL rfl]
    · rw [Bank.get_set_ne L hk]
  cases p with
  | before r =>
    refine .inl ⟨rfl, ?_⟩
    cases r with
    | done | note => rfl
    | enter k next | tryEnter k next =>
      simp only [step]
      split
      · exact hset k _ fun hk => by rw [hk]
      · rfl
    | leave k next =>
      simp only [step]
      split
      · rfl
      · split
        · exact hset k _ fun hk => by rw [hk]
        · exact hset k _ fun hk => by rw [hk]
  | inside k phase next =>
    by_cases hk : k = l
    · subst hk
      refine .inr ⟨phase, ?_⟩
      simp only [step, phaseIn, if_true, true_and]
      cases hs : (b.get k).gate.step (b.get k).spinLimit me fails phase with
      | mk turn gate =>
        refine ⟨turn, ?_⟩
        cases turn with
        | goOn phase' => simp [Lock.Turn.phase?, Bank.get_set_self hl]
        | finish ok =>
          simp only [Lock.Turn.phase?, Bank.get_set_self hl, true_and]
          split <;> rfl
    · refine .inl ⟨if_neg hk, ?_⟩
      simp only [step]
      split
      · exact hset k _ fun h => absurd h hk
      · exact hset k _ fun h => absurd h hk

end Point

/-- A bank, with how far each thread has come. -/
structure Throng where
  bank : Bank
  points : Thread → Point Unit := fun _ => .before (.done ())

namespace Throng

variable {c c' : Throng} {t : Thread} {l : Nat}

/-- A thread begins a routine, or makes a step in one. -/
inductive Step (c : Throng) : Throng → Prop
  | begin {t : Thread} (hdone : c.points t = .before (.done ())) (r : Routine Unit) :
    Step c ⟨c.bank, Function.update c.points t (.before r)⟩
  | go (t : Thread) (fails : Bool) :
    Step c ⟨((c.points t).step t fails c.bank).2,
      Function.update c.points t ((c.points t).step t fails c.bank).1⟩

/-- The threads have come here from a bank of new locks. -/
inductive Reachable : Throng → Prop
  | start {b : Bank} (h : ∀ l ∈ b.locks, l.gate = {} ∧ l.owner = none) : Reachable { bank := b }
  | step {c c' : Throng} (h : Reachable c) (hs : c.Step c') : Reachable c'

def Has (c : Throng) (t : Thread) (l : Nat) : Prop := (c.points t).Has t c.bank l

def phases (points : Thread → Point Unit) (l : Nat) : Thread → Option Lock.Phase :=
  fun t => (points t).phaseIn l

theorem phases_update (points : Thread → Point Unit) (t : Thread) (p : Point Unit) (l : Nat) :
    phases (Function.update points t p) l = Function.update (phases points l) t (p.phaseIn l) := by
  funext u
  by_cases hu : u = t
  · simp only [phases, hu, Function.update_self]
  · simp only [phases, Function.update_of_ne hu]

/-- All threads fit the bank, a lock is held by the one thread that has it, if any, and its queue
is taken care of. -/
structure Proper (c : Throng) : Prop where
  solid : c.bank.Solid
  calm : ∀ t, (c.points t).Calm t c.bank
  holder : ∀ l, ∃ o : Option Thread,
    (∀ t, c.Has t l ↔ o = some t) ∧ (c.bank.get l).gate.word.held = o.isSome
  tended : ∀ l, (c.bank.get l).gate.Tended (phases c.points l)

namespace Proper

theorem start {bank : Bank} (h : ∀ l ∈ bank.locks, l.gate = {} ∧ l.owner = none) :
    Proper { bank } := by
  have hget := Bank.get_new h
  refine ⟨fun l t ho => ?_, fun _ => trivial, fun l => ⟨none, fun t => ?_, ?_⟩, fun l => ?_⟩
  · rw [(hget l).2] at ho
    cases ho
  · simp [Has, Point.Has, Point.Leaves, (hget l).2]
  · rw [(hget l).1]
    rfl
  · exact .of_empty (by rw [(hget l).1]) _

theorem owner_eq_none (h : c.Proper) (hfree : (c.bank.get l).gate.word.held = false) :
    (c.bank.get l).owner = none := by
  obtain ⟨o, ho, hheld⟩ := h.holder l
  rw [hfree] at hheld
  by_contra hne
  obtain ⟨t, ht⟩ := Option.ne_none_iff_exists'.mp hne
  rw [(ho t).mp (.inl ht)] at hheld
  cases hheld

theorem begin (h : c.Proper) (hdone : c.points t = .before (.done ())) (r : Routine Unit) :
    Proper ⟨c.bank, Function.update c.points t (.before r)⟩ where
  solid := h.solid
  calm u := by
    by_cases hu : u = t
    · simp only [hu, Function.update_self]
      exact trivial
    · simpa only [Function.update_of_ne hu] using h.calm u
  holder l := by
    obtain ⟨o, ho, hheld⟩ := h.holder l
    refine ⟨o, fun u => ?_, hheld⟩
    rw [← ho]
    by_cases hu : u = t
    · simp [hu, Has, Point.Has, hdone, Point.Leaves]
    · simp only [Has, Function.update_of_ne hu]
  tended l := by
    rw [phases_update]
    exact (h.tended l).outside (by rw [phases, hdone, Point.phaseIn]) _

theorem go (h : c.Proper) (t : Thread) (fails : Bool) :
    Proper ⟨((c.points t).step t fails c.bank).2,
      Function.update c.points t ((c.points t).step t fails c.bank).1⟩ := by
  obtain ⟨hframe, hcalm⟩ := (h.calm t).step h.solid (fun _ => h.owner_eq_none) fails
  refine ⟨hframe.solid, fun u => ?_, fun l => ?_, fun l => ?_⟩
  · by_cases hu : u = t
    · subst hu
      simpa only [Function.update_self] using hcalm
    · simpa only [Function.update_of_ne hu] using hframe.calm hu (h.calm u)
  · refine hframe.holder .rfl ?_ (fun u hu => ?_) (h.holder l)
    · simp only [Has, Function.update_self]
    · simp only [Has, Point.Has, Function.update_of_ne hu, hframe.owner_iff u hu]
  · rw [phases_update]
    by_cases hl : l < c.bank.size
    · obtain ⟨hout, hgate⟩ | ⟨phase, turn, hin, hnext, hstep⟩ :=
        (c.points t).step_gate t fails hl
      · rw [hgate]
        exact (h.tended l).outside hout _
      · rw [hnext]
        exact (h.tended l).step hin hstep
    · have hle : ((c.points t).step t fails c.bank).2.size ≤ l := by
        rw [hframe.size_eq]
        exact Nat.le_of_not_lt hl
      refine .of_empty ?_ _
      rw [Bank.get_of_size_le hle]
      rfl

end Proper

theorem Reachable.proper (h : c.Reachable) : c.Proper := by
  induction h with
  | start h => exact .start h
  | step h hs ih =>
    cases hs with
    | begin hdone r => exact ih.begin hdone r
    | go t fails => exact ih.go t fails

/-- If all threads that are inside a call on a lock sleep in its queue, a thread that is not inside
a call on it owns the lock. -/
theorem Proper.owner_outside (h : c.Proper) (hne : (c.bank.get l).gate.queue ≠ [])
    (hall : ∀ t phase next, c.points t = .inside l phase next → t ∈ (c.bank.get l).gate.queue) :
    ∃ u, (c.bank.get l).owner = some u ∧ ∀ phase next, c.points u ≠ .inside l phase next := by
  have htended := h.tended l
  have hheld : (c.bank.get l).gate.word.held = true := by
    by_contra hfree
    obtain ⟨t, phase, ht, -, hnot⟩ := htended.awake (by simpa using hfree) hne
    obtain ⟨next, hp⟩ := Point.phaseIn_eq_some.mp ht
    exact hnot (hall t phase next hp)
  obtain ⟨o, ho, hsome⟩ := h.holder l
  rw [hheld] at hsome
  obtain ⟨u, rfl⟩ := Option.isSome_iff_exists.mp hsome.symm
  have howner : (c.bank.get l).owner = some u := by
    refine ((ho u).mpr rfl).resolve_right fun hleaves => ?_
    cases hp : c.points u with
    | before r => simp [hp, Point.Leaves] at hleaves
    | inside k phase next =>
      rw [hp] at hleaves
      obtain ⟨rfl, haim⟩ := hleaves
      have hasleep := htended.asleep u (hall u phase next hp)
      simp only [phases, hp, Point.phaseIn, if_true, Option.some.injEq] at hasleep
      rw [hasleep] at haim
      cases haim
  refine ⟨u, howner, fun phase next hp => ?_⟩
  have hcalm := h.calm u
  rw [hp] at hcalm
  exact hcalm.1 howner

/-- No wakeup is lost: a lock with threads in its queue says so, and if it is free, a thread that
is awake is on its way to it. So if all threads that are inside a call on the lock are queued,
another one owns it. -/
theorem no_lost_wakeup (h : c.Reachable) (l : Nat) :
    (∀ t ∈ (c.bank.get l).gate.queue, (c.bank.get l).gate.word.parked = true) ∧
    ((c.bank.get l).gate.word.held = false → (c.bank.get l).gate.queue ≠ [] →
      ∃ t phase next, c.points t = .inside l phase next ∧ phase.Slow ∧
        t ∉ (c.bank.get l).gate.queue) ∧
    ((c.bank.get l).gate.queue ≠ [] →
      (∀ t phase next, c.points t = .inside l phase next →
        t ∈ (c.bank.get l).gate.queue) →
      ∃ u, (c.bank.get l).owner = some u ∧ ∀ phase next, c.points u ≠ .inside l phase next) := by
  have htended := h.proper.tended l
  refine ⟨fun t ht => htended.parked (List.ne_nil_of_mem ht), fun hfree hne => ?_,
    h.proper.owner_outside⟩
  obtain ⟨t, phase, ht, hslow, hnot⟩ := htended.awake hfree hne
  obtain ⟨next, hp⟩ := Point.phaseIn_eq_some.mp ht
  exact ⟨t, phase, next, hp, hslow, hnot⟩

/-- Thread 2 goes to sleep in the queue of the lock that thread 1 has taken. -/
theorem no_lost_wakeup_asleep :
    ∃ c : Throng, c.Reachable ∧ 2 ∈ (c.bank.get 0).gate.queue ∧
      (c.bank.get 0).gate.word.parked = true ∧
      ∃ u, (c.bank.get 0).owner = some u ∧ ∀ phase next, c.points u ≠ .inside 0 phase next := by
  have h := Reachable.start (b := ⟨#[{ name := "", spinLimit := 0 }]⟩) (by simp)
    |>.step (.begin (t := 1) rfl (take 0)) |>.step (.go 1 false) |>.step (.go 1 false)
    |>.step (.begin (t := 2) rfl (take 0)) |>.step (.go 2 false) |>.step (.go 2 false)
    |>.step (.go 2 false) |>.step (.go 2 false) |>.step (.go 2 false)
  obtain ⟨hparked, -, howner⟩ := no_lost_wakeup h 0
  refine ⟨_, h, by decide, hparked 2 (by decide), howner (by decide) fun t phase next ht => ?_⟩
  by_cases h2 : t = 2
  · subst h2
    decide
  · by_cases h1 : t = 1
    · subst h1
      cases ht
    · simp [h1, h2] at ht

end Throng

end Routine

end EntityStore
