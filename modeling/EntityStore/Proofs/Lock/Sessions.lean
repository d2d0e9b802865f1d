import EntityStore.Lock.Session
import EntityStore.Proofs.Lock.Lending
import Mathlib.Data.List.Perm.Basic

/-!
# What sessions keep

Whatever threads ask for, and in whatever order, the contents behind a lock are lent out just as
long as one guard is kept on it, and no call leads outside of the bank. Every request is answered
once, at the time or after its thread has slept.
-/
namespace EntityStore

namespace Lock

open LockGroup

/-- The locks that the end of a request is about are in the bank. -/
def Ending.Within (n : Nat) : Ending → Prop
  | answer _ => True
  | add l _ | openGuard l _ => l < n
  | keep _ g _ | keepOpen _ g _ => g.Within n

abbrev Bounded (n : Nat) (r : Routine Ending) : Prop := r.Confined (· < n) (· < n) (Ending.Within n)

namespace Session

open scoped List

structure Fit (s : Session) : Prop where
  lends : s.bank.Lends s.guards []
  values_size : s.values.size = s.bank.size
  contention_size : s.contention.size = s.bank.size
  groups : ∀ g ∈ s.groups, g.2.Within s.bank.size
  group_keys : (s.groups.map (·.1)).Nodup
  windows : s.windows.Nodup
  sleepers : ∀ w ∈ s.sleepers, w.lock < s.bank.size ∧ Bounded s.bank.size w.next

/-- The threads that came or slept have been answered, or they sleep. -/
structure Turns (s : Session) (came : List Thread) (ended : List (Thread × Outcome))
    (s' : Session) : Prop where
  fit : s'.Fit
  size_eq : s'.bank.size = s.bank.size
  threads : came ++ s.sleepers.map (·.thread) ~ ended.map (·.1) ++ s'.sleepers.map (·.thread)

variable {s s' s'' : Session} {me : Thread} {l : Nat} {name : String}

theorem Turns.refl (h : s.Fit) : s.Turns [] [] s := ⟨h, rfl, .refl _⟩

theorem Turns.trans {came came' : List Thread} {ended ended' : List (Thread × Outcome)}
    (h : s.Turns came ended s') (h' : s'.Turns came' ended' s'') :
    s.Turns (came ++ came') (ended ++ ended') s'' where
  fit := h'.fit
  size_eq := h'.size_eq.trans h.size_eq
  threads := by
    simp only [List.map_append, List.append_assoc]
    calc came ++ (came' ++ s.sleepers.map (·.thread))
      _ ~ came' ++ (came ++ s.sleepers.map (·.thread)) := List.perm_append_comm_assoc ..
      _ ~ came' ++ (ended.map (·.1) ++ s'.sleepers.map (·.thread)) := h.threads.append_left _
      _ ~ ended.map (·.1) ++ (came' ++ s'.sleepers.map (·.thread)) := List.perm_append_comm_assoc ..
      _ ~ ended.map (·.1) ++ (ended'.map (·.1) ++ s''.sleepers.map (·.thread)) :=
        h'.threads.append_left _

theorem Turns.answered (h : s.Turns [] [] s') (me : Thread) (o : Outcome) :
    s.Turns [me] [(me, o)] s' := ⟨h.fit, h.size_eq, h.threads.cons me⟩

theorem mem_of_lookup {α β : Type} [BEq α] [LawfulBEq α] {entries : List (α × β)} {a : α} {b : β}
    (h : entries.lookup a = some b) : (a, b) ∈ entries := by
  obtain ⟨before, after, rfl, -⟩ := List.lookup_eq_some_iff.mp h
  exact List.mem_append_right _ List.mem_cons_self

theorem size_on {α : Type} {b b' : Bank} {call : Lock → α × Lock} {a : α}
    (h : b.on l call = (a, b')) : b'.size = b.size := by
  obtain rfl : (b.on l call).2 = b' := congrArg Prod.snd h
  exact b.size_set _ _

/-- The guard of a name is gone, whether there was one or not. -/
theorem dropGuard_lends {extra : List Nat} (h : s.bank.Lends s.guards extra) (me : Thread)
    (name : String) : ∃ b guards, (s.dropGuard me name).2 = { s with bank := b, guards } ∧
      b.size = s.bank.size ∧ b.Lends guards extra ∧ (me, name) ∉ guards.map (·.1) := by
  unfold Session.dropGuard
  split
  · next hnone =>
    refine ⟨s.bank, s.guards, rfl, rfl, h, fun hin => ?_⟩
    obtain ⟨g, hg, hkey⟩ := List.mem_map.mp hin
    simpa [hkey] using List.lookup_eq_none_iff.mp hnone g hg
  · next lock hsome =>
    refine ⟨_, _, rfl, s.bank.size_set _ _, h.forget (mem_of_lookup hsome) me, fun hin => ?_⟩
    obtain ⟨g, hg, hkey⟩ := List.mem_map.mp hin
    simp [hkey] at hg

namespace Fit

theorem passes {b : Bank} (h : s.Fit) (hb : s.bank.Passes b) :
    ({ s with bank := b } : Session).Fit where
  lends := h.lends.passes hb
  values_size := h.values_size.trans hb.size_eq.symm
  contention_size := h.contention_size.trans hb.size_eq.symm
  groups := by simpa only [hb.size_eq] using h.groups
  group_keys := h.group_keys
  windows := h.windows
  sleepers := by simpa only [hb.size_eq] using h.sleepers

/-- Other contents are lent out, and the numbers change their values only. -/
theorem lent {b : Bank} {guards : List ((Thread × String) × Nat)} {values : Array Int64}
    (h : s.Fit) (hb : b.Lends guards []) (hsize : b.size = s.bank.size)
    (hv : values.size = s.values.size) : s.Turns [] [] { s with bank := b, guards, values } where
  fit :=
    { h with
      lends := hb
      values_size := hv.trans (h.values_size.trans hsize.symm)
      contention_size := h.contention_size.trans hsize.symm
      groups := by simpa only [hsize] using h.groups
      sleepers := by simpa only [hsize] using h.sleepers }
  size_eq := hsize
  threads := .refl _

theorem dropGuard (h : s.Fit) (me : Thread) (name : String) :
    s.Turns [] [] (s.dropGuard me name).2 := by
  obtain ⟨b, guards, heq, hsize, hlends, -⟩ := dropGuard_lends h.lends me name
  rw [heq]
  exact h.lent hlends hsize rfl

theorem grow (h : s.Fit) (l : Nat) (n : Int64) : s.Turns [] [] (s.grow l n) :=
  h.lent h.lends rfl (by simp)

theorem addInside (h : s.Fit) (hl : l < s.bank.size) (me : Thread) (n : Int64) :
    s.Turns [] [] (s.addInside me l n).2 := by
  unfold Session.addInside
  split
  · next f b heq => exact h.lent (h.lends.refuse heq) (size_on heq) rfl
  · next b heq =>
    exact h.lent ((h.lends.lend hl heq).give_back me) ((b.size_set _ _).trans (size_on heq))
      (by simp [Session.grow])

theorem keepGuard (h : s.Fit) (hl : l < s.bank.size) (me : Thread) (name : String) :
    s.Turns [] [] (s.keepGuard me l name).2 := by
  unfold Session.keepGuard
  split
  · next f b heq => exact h.lent (h.lends.refuse heq) (size_on heq) rfl
  · next b heq =>
    obtain ⟨b', guards, heq', hsize, hlends, hfresh⟩ :=
      dropGuard_lends (s := { s with bank := b }) (h.lends.lend hl heq) me name
    simp only [heq']
    exact h.lent (hlends.keep hfresh) (hsize.trans (size_on heq)) rfl

theorem keepGroup {g : LockGroup} (h : s.Fit) (hg : g.Within s.bank.size) (me : Thread)
    (name : String) : s.Turns [] [] (s.keepGroup me name g) where
  fit :=
    { h with
      groups := fun p hp => by
        obtain rfl | hp := List.mem_cons.mp hp
        · exact hg
        · exact h.groups p (List.mem_of_mem_filter hp)
      group_keys := by
        refine List.nodup_cons.mpr ⟨fun hin => ?_, h.group_keys.sublist (List.filter_sublist.map _)⟩
        obtain ⟨p, hp, hkey⟩ := List.mem_map.mp hin
        simp [hkey] at hp }
  size_eq := rfl
  threads := .refl _

theorem forgetGroup (h : s.Fit) (me : Thread) (name : String) :
    s.Turns [] [] (s.forgetGroup me name) where
  fit :=
    { h with
      groups := fun p hp => h.groups p (List.mem_of_mem_filter hp)
      group_keys := h.group_keys.sublist (List.filter_sublist.map _) }
  size_eq := rfl
  threads := .refl _

theorem setWindow (h : s.Fit) (me : Thread) (name : String) (isOpen : Bool) :
    s.Turns [] [] (s.setWindow me name isOpen) where
  fit :=
    { h with
      windows := by
        have hothers := h.windows.filter (· ≠ (me, name))
        cases isOpen with
        | false => exact hothers
        | true => exact List.nodup_cons.mpr ⟨by simp, hothers⟩ }
  size_eq := rfl
  threads := .refl _

theorem conclude {e : Ending} (h : s.Fit) (he : e.Within s.bank.size) (me : Thread) :
    s.Turns [] [] (s.conclude me e).2 := by
  cases e with
  | answer o => exact .refl h
  | add l n => exact h.addInside he me n
  | openGuard l name => exact h.keepGuard he me name
  | keep name g o => exact h.keepGroup he me name
  | keepOpen name g o =>
    have hkept := h.keepGroup he me name
    exact hkept.trans (hkept.fit.setWindow me name true)

/-- A thread goes on until it is answered or sleeps. -/
theorem run {r : Routine Ending} (h : s.Fit) (hr : Bounded s.bank.size r) (me : Thread) :
    s.Turns [me] ((s.run me r).1.toList.map (me, ·)) (s.run me r).2.1 := by
  have hpasses := r.advance_passes me s.bank
  have hstanding := hr.advance me s.bank
  have hfit := h.passes hpasses
  unfold Session.run
  split
  · next e b notices heq =>
    rw [heq] at hpasses hstanding hfit
    have hended := hfit.conclude (hpasses.size_eq ▸ hstanding) me
    exact ⟨hended.fit, hended.size_eq.trans hpasses.size_eq, hended.threads.cons me⟩
  · next l holder next b notices heq =>
    rw [heq] at hpasses hstanding hfit
    refine ⟨{ hfit with sleepers := fun w hw => ?_ }, hpasses.size_eq, ?_⟩
    · obtain hw | hw := List.mem_append.mp hw
      · exact hfit.sleepers w hw
      · obtain rfl := List.mem_singleton.mp hw
        exact hpasses.size_eq.symm ▸ hstanding
    · simpa using (List.perm_append_singleton me _).symm

theorem regroup {call : LockGroup → LockGroup.Call} (h : s.Fit) (me : Thread) (name : String)
    (hcall : ∀ g, g.Within s.bank.size →
      (call g).Confined (· < s.bank.size) (· < s.bank.size) fun r => r.1.Within s.bank.size) :
    Bounded s.bank.size (s.regroup me name call) := by
  unfold Session.regroup
  split
  · trivial
  · next g hg =>
    have hwithin := h.groups _ (mem_of_lookup hg)
    exact (Routine.confined_bind ..).mpr ((hcall g hwithin).mono fun r hr => hr)

/-- What is done for a request that names locks of the bank stays in the bank. -/
theorem routine {q : Request} (h : s.Fit) (hq : ∀ l ∈ q.locks, l < s.bank.size) (me : Thread) :
    Bounded s.bank.size (s.routine me q) := by
  have hgroup {name g} (hg : s.group? me name = some g) : g.Within s.bank.size :=
    h.groups _ (mem_of_lookup hg)
  cases q with
  | enter l => exact ⟨hq l List.mem_cons_self, trivial⟩
  | tryEnter l => exact ⟨hq l List.mem_cons_self, fun _ => trivial⟩
  | leave l => exact ⟨hq l List.mem_cons_self, fun ok => by cases ok <;> trivial⟩
  | add l n | openGuard l name => exact ⟨hq l List.mem_cons_self, hq l List.mem_cons_self⟩
  | build name locks =>
    have hwithin : (ofList (locks.map fun i => (i.1, (s.bank.get i.1).name, i.2))).Within
        s.bank.size := by
      refine (formed_ofList (fun _ => 0) fun i hi => ?_).1.lt
      obtain ⟨j, hj, rfl⟩ := List.mem_map.mp hi
      exact hq _ (List.mem_map_of_mem hj)
    exact (Routine.confined_bind ..).mpr ((hwithin.confined .enterAll).mono fun r hr => hr)
  | leaveOnly name locks => exact h.regroup me name fun g hg => hg.confined (.leaveOnly locks)
  | enterOnly name locks => exact h.regroup me name fun g hg => hg.confined (.enterOnly locks)
  | release name => exact h.regroup me name fun g hg => hg.confined .release
  | openWindow name locks =>
    show Bounded _ (s.reopen me name locks)
    unfold Session.reopen
    split
    · trivial
    · next g hg =>
      refine (Routine.confined_bind ..).mpr (((hgroup hg).confined (.leaveOnly locks)).mono ?_)
      rintro ⟨g', breach⟩ hg'
      simp only
      split
      · exact hg'
      · split
        · exact (Routine.confined_bind ..).mpr ((Within.confined hg' .endWindow).mono fun r hr => hr)
        · exact hg'
  | endWindow name =>
    show Bounded _ (if (me, name) ∈ s.windows then s.regroup me name (·.endWindow) else _)
    split
    · exact h.regroup me name fun g hg => hg.confined .endWindow
    · trivial
  | drop name =>
    simp only [Session.routine]
    split
    · trivial
    · next g hg =>
      exact (Routine.confined_bind ..).mpr (((hgroup hg).confined .release).mono fun r hr => trivial)
  | inspectGroup name =>
    simp only [Session.routine]
    split <;> trivial
  | inspect | depths | addThrough | closeGuard | reports => trivial

theorem request {q : Request} (h : s.Fit) (hq : ∀ l ∈ q.locks, l < s.bank.size) (me : Thread) :
    s.Turns [me] ((s.request me q).1.toList.map (me, ·)) (s.request me q).2.1 := by
  have hrun := h.run (h.routine hq me) me
  cases q with
  | addThrough name n =>
    simp only [Session.request]
    split
    · exact (Turns.refl h).answered me _
    · exact (h.grow _ _).answered me _
  | closeGuard name => exact (h.dropGuard me name).answered me _
  | drop name =>
    have hforgot := hrun.fit.forgetGroup me name
    simpa [Session.request] using hrun.trans (hforgot.trans (hforgot.fit.setWindow me name false))
  | endWindow name =>
    have hset := h.setWindow me name false
    exact hset.trans (hset.fit.run (h.routine (q := .endWindow name) hq me) me)
  | reports => exact ⟨{ hrun.fit with }, hrun.size_eq, hrun.threads⟩
  | _ => exact hrun

theorem noteWait (h : s.Fit) (l : Nat) (holder : Option Thread) :
    s.Turns [] [] (s.noteWait l holder).2 := by
  have hsize (c : Contention) : (s.contention.setIfInBounds l c).size = s.bank.size :=
    (Array.size_setIfInBounds ..).trans h.contention_size
  unfold Session.noteWait
  split
  · exact .refl h
  · simp only
    split <;> exact ⟨{ h with contention_size := hsize _ }, rfl, .refl _⟩

theorem some_asleep {ws : List Sleeper} (h : s.Fit) (hws : ws ⊆ s.sleepers) :
    ({ s with sleepers := ws } : Session).Fit :=
  { h with sleepers := fun _ hw => h.sleepers _ (hws hw) }

end Fit

theorem woken?_perm {b : Bank} {w : Sleeper} {ws others : List Sleeper}
    (h : woken? b ws = some (w, others)) : ws ~ w :: others := by
  induction ws generalizing w others with
  | nil => cases h
  | cons v ws ih =>
    simp only [woken?] at h
    split at h
    · obtain ⟨⟨v', ws'⟩, hrest, heq⟩ := Option.map_eq_some_iff.mp h
      cases heq
      exact ((ih hrest).cons v).trans (.swap ..)
    · cases h
      exact .refl _

/-- Threads that were woken are answered, or sleep again. -/
theorem Fit.settle (h : s.Fit) (turns : Nat) :
    s.Turns [] (s.settle turns).1 (s.settle turns).2.1 := by
  induction turns generalizing s with
  | zero => exact .refl h
  | succ turns ih =>
    simp only [Session.settle]
    split
    · exact .refl h
    · next w others hwoken =>
      have hperm := woken?_perm hwoken
      split
      · next b heq =>
        have hfit := h.passes (.of_on (.resume w.thread) heq)
        have hlater : s.sleepers ~ others ++ [w] :=
          hperm.trans (List.perm_append_singleton w others).symm
        have hrest := ih (hfit.some_asleep hlater.symm.subset)
        exact ⟨hrest.fit, hrest.size_eq.trans (size_on heq), (hlater.map _).trans hrest.threads⟩
      · next b heq =>
        have hfit := h.passes (.of_on (.resume w.thread) heq)
        have hbound := (hfit.sleepers w (hperm.mem_iff.mpr List.mem_cons_self)).2
        have hothers : others ⊆ s.sleepers :=
          fun v hv => hperm.mem_iff.mpr (List.mem_cons_of_mem _ hv)
        have hnoted := (hfit.some_asleep hothers).noteWait w.lock w.holder
        have hrun := hnoted.fit.run (hnoted.size_eq.symm ▸ hbound) w.thread
        have hall := hnoted.trans (hrun.trans (ih hrun.fit))
        refine ⟨hall.fit, hall.size_eq.trans (size_on heq), (hperm.map _).trans ?_⟩
        generalize Session.run _ w.thread w.next = outcome at hall ⊢
        obtain ⟨_ | o, s', notices⟩ := outcome <;> simpa using hall.threads

theorem fit_ofSize (locks spinLimit : Nat) (watch : Option Watch) (observers : Nat) :
    (ofSize locks spinLimit watch observers).Fit where
  lends := by
    refine ⟨Visits.Sound.start (by simp [ofSize]), .nil, .nil, fun l => ?_⟩
    by_cases hl : l < locks
    · simp [ofSize, Bank.get, hl]
    · rw [Bank.get_of_size_le (by simpa [ofSize, Bank.size] using hl)]
      simp [ofSize, default]
  values_size := by simp [ofSize, Bank.size]
  contention_size := by simp [ofSize, Bank.size]
  groups := nofun
  group_keys := .nil
  windows := .nil
  sleepers := nofun

/-- The threads answered on a request of one of them, with what they are told. -/
def Reply.answers (me : Thread) (r : Reply) : List (Thread × Outcome) :=
  r.outcome.toList.map (me, ·) ++ r.joined

theorem Fit.serve (h : s.Fit) (me : Thread) (q : Request) :
    s.Turns [me] ((s.serve me q).1.answers me) (s.serve me q).2 := by
  unfold Session.serve
  generalize hr : (if q.locks.all (· < s.bank.size) then s.request me q else _) = r
  have hfirst : s.Turns [me] (r.1.toList.map (me, ·)) r.2.1 := by
    rw [← hr]
    split
    · next hq => exact h.request (by simpa using hq) me
    · exact (Turns.refl h).answered me _
  exact hfirst.trans (hfirst.fit.settle _)

def serveAll (s : Session) : List (Thread × Request) → List (Thread × Outcome) × Session
  | [] => ([], s)
  | (me, q) :: asked =>
    let (reply, s) := s.serve me q
    let (answers, s) := s.serveAll asked
    (reply.answers me ++ answers, s)

theorem Fit.serveAll (h : s.Fit) (asked : List (Thread × Request)) :
    s.Turns (asked.map (·.1)) (s.serveAll asked).1 (s.serveAll asked).2 := by
  induction asked generalizing s with
  | nil => exact .refl h
  | cons ask asked ih =>
    have hserved := h.serve ask.1 ask.2
    exact hserved.trans (ih hserved.fit)

/-- Whatever threads ask of a new session, no contents are lent to two guards, and each request has
been answered once or its thread sleeps. -/
theorem served (locks spinLimit : Nat) (watch : Option Watch) (observers : Nat)
    (asked : List (Thread × Request)) :
    let (answers, s) := (ofSize locks spinLimit watch observers).serveAll asked
    s.Fit ∧ s.bank.size = locks ∧
      asked.map (·.1) ~ answers.map (·.1) ++ s.sleepers.map (·.thread) := by
  have hturns := (fit_ofSize locks spinLimit watch observers).serveAll asked
  refine ⟨hturns.fit, hturns.size_eq.trans (by simp [ofSize, Bank.size]), ?_⟩
  simpa [ofSize] using hturns.threads

end Session

end Lock

end EntityStore
