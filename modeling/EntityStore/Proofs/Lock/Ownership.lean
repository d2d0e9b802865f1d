import EntityStore.Proofs.Lock.Outcome

/-!
# Who owns a lock

Any number of threads call on the locks of a bank, in any order. A thread that cannot enter a lock
sleeps before it, and its call is resumed at some later time. The owner of a lock is the one thread
that has entered it more often than left it, and stays the owner until it has left it as often.
-/
namespace EntityStore

open Lock (Deed)

/-- Threads that call on the locks of a bank, one at a time. -/
structure Visits where
  bank : Bank
  /-- The lock that a thread sleeps before. -/
  waits : Thread → Option Nat := fun _ => none

abbrev Visit := Thread × Nat × Deed

namespace Visits

variable {v v' w : Visits} {t u : Thread} {l k : Nat} {deed : Deed} {log past : List Visit}

/-- A thread calls on a lock. Before a lock it sleeps, and calls on nothing else. -/
inductive Call (v : Visits) (t : Thread) (l : Nat) : Deed → Visits → Prop
  | entered {bank : Bank} (hw : v.waits t = none)
    (h : v.bank.on l (Lock.enter t) = (true, bank)) : Call v t l .took { v with bank }
  | blocked {bank : Bank} (hw : v.waits t = none)
    (h : v.bank.on l (Lock.enter t) = (false, bank)) :
    Call v t l .nothing ⟨bank, Function.update v.waits t (some l)⟩
  | resumed {bank : Bank} (hw : v.waits t = some l)
    (h : v.bank.on l (Lock.resume t) = (true, bank)) :
    Call v t l .took ⟨bank, Function.update v.waits t none⟩
  | sleeps {bank : Bank} (hw : v.waits t = some l)
    (h : v.bank.on l (Lock.resume t) = (false, bank)) : Call v t l .nothing { v with bank }
  | tried {bank : Bank} (hw : v.waits t = none)
    (h : v.bank.on l (Lock.tryEnter t) = (true, bank)) : Call v t l .took { v with bank }
  | refused {bank : Bank} (hw : v.waits t = none)
    (h : v.bank.on l (Lock.tryEnter t) = (false, bank)) : Call v t l .nothing { v with bank }
  | left {lock : Lock} (hw : v.waits t = none) (h : (v.bank.get l).leave t = .ok lock) :
    Call v t l .gave { v with bank := v.bank.set l lock }
  | breach {b : Breach} (hw : v.waits t = none) (h : (v.bank.get l).leave t = .error b) :
    Call v t l .nothing v

inductive Run (v : Visits) : List Visit → Visits → Prop
  | start : Run v [] v
  | call {log : List Visit} {v₁ v₂ : Visits} {t : Thread} {l : Nat} {deed : Deed}
    (hr : Run v log v₁) (hl : l < v₁.bank.size) (h : v₁.Call t l deed v₂) :
    Run v (log ++ [(t, l, deed)]) v₂

/-- A call is a passage of its lock, and leaves the others alone. -/
theorem Call.passage (h : v.Call t l deed v') :
    ∃ lock, (v.bank.get l).Passage t deed lock ∧ v'.bank = v.bank.set l lock := by
  have hon : ∀ {call : Lock → Bool × Lock} {ok bank},
      (∀ lock, Lock.Passage t lock (if (call lock).1 then .took else .nothing) (call lock).2) →
      v.bank.on l call = (ok, bank) →
      ∃ lock, (v.bank.get l).Passage t (if ok then .took else .nothing) lock ∧
        bank = v.bank.set l lock := by
    intro call ok bank hcall hrun
    have hp := hcall (v.bank.get l)
    cases hrun
    exact ⟨_, hp, rfl⟩
  cases h with
  | entered hw h | blocked hw h => exact hon (.enter t) h
  | resumed hw h | sleeps hw h => exact hon (.resume t) h
  | tried hw h | refused hw h => exact hon (.tryEnter t) h
  | left hw h => exact ⟨_, .leave h, rfl⟩
  | breach hw h => exact ⟨v.bank.get l, .kept rfl, (v.bank.set_get l).symm⟩

theorem Call.size_eq (h : v.Call t l deed v') : v'.bank.size = v.bank.size := by
  obtain ⟨lock, -, hset⟩ := h.passage
  rw [hset, Bank.size_set]

theorem Call.get_of_ne (h : v.Call t l deed v') (hk : k ≠ l) : v'.bank.get k = v.bank.get k := by
  obtain ⟨lock, -, hset⟩ := h.passage
  rw [hset, Bank.get_set_ne lock (Ne.symm hk)]

theorem Call.passage_get (h : v.Call t l deed v') (hl : l < v.bank.size) :
    (v.bank.get l).Passage t deed (v'.bank.get l) := by
  obtain ⟨lock, hp, hset⟩ := h.passage
  rwa [hset, Bank.get_set_self hl]

def Sound (v : Visits) : Prop := ∀ l, (v.bank.get l).Sound

theorem Sound.start {bank : Bank} (h : ∀ l ∈ bank.locks, l.gate = {} ∧ l.owner = none) :
    Sound { bank } := by
  intro l
  obtain ⟨hgate, howner⟩ := Bank.get_new h l
  refine ⟨?_, fun t ho => ?_⟩
  · rw [Lock.isLocked, hgate, howner]
    rfl
  · rw [howner] at ho
    cases ho

theorem Sound.call (hv : v.Sound) (hl : l < v.bank.size) (h : v.Call t l deed v') :
    v'.Sound := by
  intro k
  by_cases hk : k = l
  · rw [hk]
    exact (h.passage_get hl).sound (hv l)
  · rw [h.get_of_ne hk]
    exact hv k

theorem Sound.run (hv : v.Sound) (hr : v.Run log v') : v'.Sound := by
  induction hr with
  | start => exact hv
  | call hr hl h ih => exact ih.call hl h

/-- From a time on at which a thread was not the owner, its depth counts what it took and has not
given back. -/
theorem Sound.depthOf_run (hv : v.Sound) (ho : (v.bank.get l).owner ≠ some t)
    (hr : v.Run log v') :
    (v'.bank.get l).depthOf t + log.count (t, l, .gave) = log.count (t, l, .took) := by
  induction hr with
  | start => simpa using Lock.depthOf_of_not_owned (decide_eq_false ho)
  | @call log v₁ v₂ u k deed hr hk h ih =>
    have hsound := hv.run hr l
    simp only [List.count_append, List.count_singleton]
    by_cases hkl : k = l
    · subst hkl
      have hp := h.passage_get hk
      by_cases hu : u = t
      · subst hu
        have := hp.depthOf_eq hsound
        cases deed <;> simp_all <;> omega
      · rw [hp.depthOf_other hsound (Ne.symm hu)]
        simpa [hu] using ih
    · rw [h.get_of_ne (Ne.symm hkl)]
      simpa [hkl] using ih

/-- How things stand with a lock, and what the next call may come to. -/
structure Orderly (v : Visits) (l : Nat) : Prop where
  locked_iff : (v.bank.get l).isLocked = true ↔ ∃ t, (v.bank.get l).owner = some t
  owner_iff : ∀ t, (v.bank.get l).owner = some t ↔ 0 < (v.bank.get l).depthOf t
  /-- At most one thread has entered the lock without leaving it. -/
  alone : ∀ t u, 0 < (v.bank.get l).depthOf t → 0 < (v.bank.get l).depthOf u → t = u
  depthOf_eq_zero : ∀ t, (v.bank.get l).owner ≠ some t → (v.bank.get l).depthOf t = 0
  enter_iff : ∀ t, (v.bank.on l (Lock.enter t)).1 = true ↔
    (v.bank.get l).isLocked = false ∨ (v.bank.get l).owner = some t
  /-- A call that had to wait is completed when the lock is free and the thread awake. -/
  resume_iff : ∀ t, (v.bank.on l (Lock.resume t)).1 = true ↔
    (v.bank.get l).isLocked = false ∧ (v.bank.get l).isAsleep t = false
  tryEnter_iff : ∀ t, (v.bank.on l (Lock.tryEnter t)).1 = true ↔
    (v.bank.get l).isLocked = false ∨ (v.bank.get l).owner = some t
  tryEnter_refused : ∀ t, (v.bank.on l (Lock.tryEnter t)).1 = false →
    (v.bank.on l (Lock.tryEnter t)).2 = v.bank
  leave_iff : ∀ t, (∃ lock, (v.bank.get l).leave t = .ok lock) ↔ (v.bank.get l).owner = some t
  /-- Whoever is not the owner leaves nothing: there is no lock to go on with but the old one. -/
  leave_refused : ∀ t, (v.bank.get l).owner ≠ some t →
    (v.bank.get l).leave t = .error (.notHolder (v.bank.get l).name)
  /-- A thread stops being the owner only by leaving the lock for the last time. -/
  owner_kept : ∀ t, (v.bank.get l).owner = some t → ∀ u k deed v', v.Call u k deed v' →
    (v'.bank.get l).owner ≠ some t → u = t ∧ k = l ∧ deed = .gave ∧
      (v.bank.get l).depth = 1 ∧ (v'.bank.get l).depth = 0 ∧ (v'.bank.get l).owner = none

theorem Sound.owner_kept (hv : v.Sound) (ho : (v.bank.get l).owner = some t)
    (h : v.Call u k deed v') (ho' : (v'.bank.get l).owner ≠ some t) :
    u = t ∧ k = l ∧ deed = .gave ∧ (v.bank.get l).depth = 1 ∧ (v'.bank.get l).depth = 0 ∧
      (v'.bank.get l).owner = none := by
  by_cases hk : k = l
  · subst hk
    obtain ⟨htu, hrest⟩ := (h.passage_get (Bank.lt_size_of_owner ho)).given_up (hv k) ho ho'
    exact ⟨htu.symm, rfl, hrest⟩
  · rw [h.get_of_ne (Ne.symm hk)] at ho'
    exact absurd ho ho'

theorem Sound.orderly (hv : v.Sound) (l : Nat) : v.Orderly l where
  locked_iff := by
    rw [(hv l).1]
    exact Option.isSome_iff_exists
  owner_iff t := (hv l).depthOf_pos_iff.symm
  alone t u ht hu := by
    rw [(hv l).depthOf_pos_iff] at ht hu
    exact Option.some.inj (ht.symm.trans hu)
  depthOf_eq_zero t ho := Lock.depthOf_of_not_owned (decide_eq_false ho)
  enter_iff t := Lock.enter_eq_true_iff t _
  resume_iff t := Lock.resume_eq_true_iff t _
  tryEnter_iff t := Lock.tryEnter_eq_true_iff t _
  tryEnter_refused t h := by
    show v.bank.set l ((v.bank.get l).tryEnter t).2 = v.bank
    rw [Lock.tryEnter_of_refused h, Bank.set_get]
  leave_iff t := by
    refine ⟨fun ⟨lock, h⟩ => ?_, Lock.leave_of_owner⟩
    by_contra ho
    rw [Lock.leave_of_not_owned (decide_eq_false ho)] at h
    cases h
  leave_refused t ho := Lock.leave_of_not_owned (decide_eq_false ho)
  owner_kept t ho _ _ _ _ h ho' := hv.owner_kept ho h ho'

/-- However the calls of the threads interleave, a lock is locked just when it has an owner, the
owner's depth counts what it took and has not given back since it was not the owner yet, and no
other thread gets the lock before. -/
theorem ownership {bank : Bank} (hnew : ∀ l ∈ bank.locks, l.gate = {} ∧ l.owner = none)
    (hpast : Run { bank } past v) (hrun : v.Run log v') (l : Nat) :
    v'.Orderly l ∧ ∀ t, (v.bank.get l).owner ≠ some t →
      (v'.bank.get l).depthOf t + log.count (t, l, .gave) = log.count (t, l, .took) := by
  have hv := (Sound.start hnew).run hpast
  exact ⟨(hv.run hrun).orderly l, fun t ho => hv.depthOf_run ho hrun⟩

/-- Thread 2 comes to sleep while thread 1 is inside, and is the owner once 1 has left. -/
theorem ownership_handed_over :
    ∃ v : Visits, ∃ log : List Visit, Run { bank := ⟨#[{ name := "" }]⟩ } log v ∧
      log = [(1, 0, .took), (2, 0, .nothing), (1, 0, .gave), (2, 0, .took)] ∧ v.Orderly 0 ∧
      ∀ t, (v.bank.get 0).depthOf t + log.count (t, 0, .gave) = log.count (t, 0, .took) := by
  have hrun := Run.start (v := { bank := ⟨#[{ name := "" }]⟩ })
    |>.call (t := 1) (l := 0) (by decide) (.entered rfl rfl)
    |>.call (t := 2) (l := 0) (by decide) (.blocked rfl rfl)
    |>.call (t := 1) (l := 0) (by decide) (.left rfl rfl)
    |>.call (t := 2) (l := 0) (by decide) (.resumed rfl rfl)
  obtain ⟨horderly, hcount⟩ := ownership (by simp) .start hrun 0
  exact ⟨_, _, hrun, rfl, horderly, fun t => hcount t nofun⟩

end Visits

end EntityStore
