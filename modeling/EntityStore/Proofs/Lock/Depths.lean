import EntityStore.Proofs.Lock.Guard

/-!
# Depths

A guard counts one level of its lock from when it is given until it is dropped, and a guard that is
refused counts none. So however deep a thread has entered a lock, it finds itself as deep after
whatever it has done with the contents, be it that something done on the way has failed or that it has
asked for contents which it had already.
-/
namespace EntityStore

namespace Lock

variable {l l' : Lock} {me : Thread} {phase : Phase}

theorem isOwnedBy_of_depthOf_pos (h : 0 < l.depthOf me) : l.isOwnedBy me = true := by
  cases howned : l.isOwnedBy me with
  | true => rfl
  | false =>
    rw [depthOf_of_not_owned howned] at h
    cases h

theorem depthOf_of_owned (h : l.isOwnedBy me = true) : l.depthOf me = l.depth := if_pos h

theorem open_of_depthOf_pos (h : 0 < l.depthOf me) : l.Open me := by
  have howned := isOwnedBy_of_depthOf_pos h
  rw [depthOf_of_owned howned] at h
  exact .inl ⟨of_decide_eq_true howned, h⟩

theorem depthOf_proceed (h : l.proceed me phase = (true, l')) : l'.depthOf me = 1 := by
  unfold proceed at h
  split at h
  · cases h
    exact if_pos (decide_eq_true rfl)
  · cases h

theorem depthOf_proceed_of_false (h : l.proceed me phase = (false, l')) :
    l'.depthOf me = l.depthOf me := by
  unfold proceed at h
  split at h
  · cases h
  · cases h
    rfl

theorem depthOf_enter (h : l.enter me = (true, l')) : l'.depthOf me = l.depthOf me + 1 := by
  cases howned : l.isOwnedBy me with
  | true =>
    rw [enter_of_owned howned] at h
    cases h
    rw [depthOf_of_owned howned]
    exact depthOf_of_owned howned
  | false =>
    rw [enter, howned, if_neg Bool.false_ne_true] at h
    rw [depthOf_proceed h, depthOf_of_not_owned howned]

theorem depthOf_enter_of_false (h : l.enter me = (false, l')) : l'.depthOf me = l.depthOf me := by
  unfold enter at h
  split at h
  · cases h
  · exact depthOf_proceed_of_false h

/-- A thread that comes to own a lock after having slept stands one level deep. -/
theorem depthOf_resume (howned : l.isOwnedBy me = false) (h : l.resume me = (true, l')) :
    l'.depthOf me = l.depthOf me + 1 := by
  unfold resume at h
  split at h
  · cases h
  · rw [depthOf_proceed h, depthOf_of_not_owned howned]

/-- Whoever has entered a lock can leave it, once for every level. -/
theorem exists_leave (h : 0 < l.depthOf me) :
    ∃ l', l.leave me = .ok l' ∧ l'.depthOf me + 1 = l.depthOf me := by
  have howned := isOwnedBy_of_depthOf_pos h
  rw [depthOf_of_owned howned] at h ⊢
  unfold leave
  rw [howned]
  by_cases hdeep : 1 < l.depth
  · refine ⟨{ l with depth := l.depth - 1 }, by simp [hdeep], ?_⟩
    rw [depthOf_of_owned (l := { l with depth := l.depth - 1 }) howned]
    exact Nat.sub_add_cancel h
  · refine ⟨{ l with
      gate := (l.gate.settle l.spinLimit me (Gate.enough l.spinLimit) .leave).2
      owner := none
      depth := l.depth - 1 }, by simp [hdeep], ?_⟩
    rw [depthOf_of_not_owned rfl]
    omega

theorem depthOf_lend (h : l.lend me = (.ok (), l')) : l'.depthOf me = l.depthOf me := by
  unfold lend at h
  split at h
  · split at h <;> cases h
  · cases h
    rfl

/-- A thread that asks for contents which are lent out is refused, and has left the level that it had
entered for them. -/
theorem lend_of_lent (h : 0 < l.depthOf me) (hlent : l.lent = true) :
    ∃ l', l.lend me = (.error (.breach (.nestedGuard l'.name)), l') ∧
      l'.depthOf me + 1 = l.depthOf me := by
  obtain ⟨l', hleave, hdepth⟩ := exists_leave h
  refine ⟨l', ?_, hdepth⟩
  simp only [lend, hlent, if_true, hleave]

theorem depthOf_openGuard (h : l.openGuard me = (.ok (), l')) :
    l'.depthOf me = l.depthOf me + 1 := by
  unfold openGuard at h
  split at h
  · next henter => rw [depthOf_lend h, depthOf_enter henter]
  · cases h

theorem depthOf_openGuard_of_error {f : Failure} (h : l.openGuard me = (.error f, l')) :
    l'.depthOf me = l.depthOf me := by
  unfold openGuard at h
  split at h
  · next entered henter =>
    have hdepth := depthOf_enter henter
    have hpos : 0 < entered.depthOf me := by omega
    cases hlent : entered.lent with
    | true =>
      obtain ⟨l₁, hlend, hleft⟩ := lend_of_lent hpos hlent
      cases hlend.symm.trans h
      omega
    | false =>
      rw [lend, hlent, if_neg Bool.false_ne_true] at h
      cases h
  · next henter =>
    cases h
    exact depthOf_enter_of_false henter

theorem exists_closeGuard (h : 0 < l.depthOf me) :
    ∃ l', l.closeGuard me = (.ok (), l') ∧ l'.depthOf me + 1 = l.depthOf me := by
  obtain ⟨l', hleave, hdepth⟩ := exists_leave (l := { l with lent := false }) h
  exact ⟨l', by rw [closeGuard, hleave], hdepth⟩

/-- How guards count in the depth of a thread. -/
structure CountsGuards (me : Thread) : Prop where
  /-- However deep the thread has entered the lock, it is given a guard if it has none. -/
  given : ∀ l : Lock, l.Open me → l.lent = false → ∃ l' : Lock, l.openGuard me = (.ok (), l')
  opened : ∀ l l' : Lock, l.openGuard me = (.ok (), l') → l'.depthOf me = l.depthOf me + 1
  unopened : ∀ (l l' : Lock) f, l.openGuard me = (.error f, l') → l'.depthOf me = l.depthOf me
  /-- The thread had to wait, and has come to own the lock. -/
  resumed : ∀ l l' : Lock, l.isOwnedBy me = false → l.resume me = (true, l') →
    l'.depthOf me = l.depthOf me + 1
  /-- Entered as a guard needs it, the lock gives its contents and the level remains. -/
  lent : ∀ l l' : Lock, l.lend me = (.ok (), l') → l'.depthOf me = l.depthOf me
  /-- Or the contents are lent out, and the level has been left. -/
  refused : ∀ l : Lock, 0 < l.depthOf me → l.lent = true → ∃ l' : Lock,
    l.lend me = (.error (.breach (.nestedGuard l'.name)), l') ∧ l'.depthOf me + 1 = l.depthOf me
  /-- Whatever has been entered and left meanwhile, a guard that is dropped gives one level back. -/
  dropped : ∀ l : Lock, 0 < l.depthOf me → ∃ l' : Lock,
    l.closeGuard me = (.ok (), l') ∧ l'.depthOf me + 1 = l.depthOf me

theorem countsGuards (me : Thread) : CountsGuards me where
  given _ ho hlent := ⟨_, ho.openGuard_eq hlent⟩
  opened _ _ := depthOf_openGuard
  unopened _ _ _ := depthOf_openGuard_of_error
  resumed _ _ := depthOf_resume
  lent _ _ := depthOf_lend
  refused _ := lend_of_lent
  dropped _ := exists_closeGuard

/-- The thread stands as deep as before, and a lock that it could enter is exactly as before. -/
structure Restored (me : Thread) (l l' : Lock) : Prop where
  depthOf_eq : l'.depthOf me = l.depthOf me
  eq_of_open : l.Open me → l' = l

namespace Restored

theorem of_eq (h : l' = l) : Restored me l l' := ⟨by rw [h], fun _ => h⟩

theorem trans {l'' : Lock} (h : Restored me l l') (h' : Restored me l' l'') : Restored me l l'' :=
  ⟨h'.depthOf_eq.trans h.depthOf_eq, fun ho => by
    have hl := h.eq_of_open ho
    exact (h'.eq_of_open (hl ▸ ho)).trans hl⟩

end Restored

def enterOnce (me : Thread) (l : Lock) : Except Failure Unit × Lock :=
  match l.enter me with
  | (true, l) => (.ok (), l)
  | (false, l) => (.error .stuck, l)

def leaveOnce (me : Thread) (l : Lock) : Except Failure Unit × Lock :=
  match l.leave me with
  | .ok l => (.ok (), l)
  | .error b => (.error (.breach b), l)

/-- One way to enter a lock and the way to leave it again. -/
structure Brackets (me : Thread) (opens closes : Lock → Except Failure Unit × Lock) : Prop where
  refused : ∀ l l' f, opens l = (.error f, l') → Restored me l l'
  opened : ∀ l l', opens l = (.ok (), l') → l'.depthOf me = l.depthOf me + 1
  closed : ∀ l, 0 < l.depthOf me →
    ∃ l', closes l = (.ok (), l') ∧ l'.depthOf me + 1 = l.depthOf me
  /-- A lock that the thread could enter is left as it was before. -/
  undone : ∀ l l', l.Open me → opens l = (.ok (), l') → l'.Open me ∧ closes l' = (.ok (), l)

theorem brackets_guard (me : Thread) : Brackets me (openGuard me) (closeGuard me) where
  refused l l' f h := by
    refine ⟨depthOf_openGuard_of_error h, fun ho => ?_⟩
    cases hlent : l.lent with
    | true => cases (ho.openGuard_of_lent hlent).symm.trans h; rfl
    | false => cases (ho.openGuard_eq hlent).symm.trans h
  opened _ _ := depthOf_openGuard
  closed _ := exists_closeGuard
  undone l l' ho h := by
    cases hlent : l.lent with
    | true => cases (ho.openGuard_of_lent hlent).symm.trans h
    | false =>
      cases (ho.openGuard_eq hlent).symm.trans h
      exact ⟨open_entered true, ho.closeGuard_eq hlent⟩

theorem brackets_level (me : Thread) : Brackets me (enterOnce me) (leaveOnce me) where
  refused l l' f h := by
    unfold enterOnce at h
    split at h
    · cases h
    · next henter =>
      cases h
      refine ⟨depthOf_enter_of_false henter, fun ho => ?_⟩
      cases ho.enter_eq.symm.trans henter
  opened l l' h := by
    unfold enterOnce at h
    split at h
    · next henter =>
      cases h
      exact depthOf_enter henter
    · cases h
  closed l h := by
    obtain ⟨l', hleave, hdepth⟩ := exists_leave h
    exact ⟨l', by rw [leaveOnce, hleave], hdepth⟩
  undone l l' ho h := by
    rw [enterOnce, ho.enter_eq] at h
    cases h
    exact ⟨open_entered _, by rw [leaveOnce, ho.leave_entered]⟩

end Lock

namespace Guarded

open Lock (Restored)

variable {σ α β : Type} {me : Thread} {s : Guarded σ}

def bracket (opens closes : Lock → Except Failure Unit × Lock) (body : Op σ α) : Op σ α := fun s =>
  match opens s.lock with
  | (.error f, lock) => .error f { s with lock }
  | (.ok (), lock) =>
    match body { s with lock } with
    | .error f s => .error f { s with lock := (closes s.lock).2 }
    | .ok a s =>
      match closes s.lock with
      | (.error f, lock) => .error f { s with lock }
      | (.ok (), lock) => .ok a { s with lock }

/-- Enters the lock for as long as something is done, as a group of locks does. -/
def inside (me : Thread) (body : Op σ α) : Op σ α :=
  bracket (Lock.enterOnce me) (Lock.leaveOnce me) body

theorem beside_eq_inside (body : σ → α × σ) : beside me body = inside me fun s =>
    .ok (body s.contents).1 { s with contents := (body s.contents).2 } := by
  funext s
  simp only [beside, inside, bracket, Lock.enterOnce]
  rcases s.lock.enter me with ⟨_ | _, lock⟩
  · rfl
  · cases hleave : lock.leave me <;> simp only [Lock.leaveOnce, hleave]

def andThen (op : Op σ α) (next : Except Failure α → Op σ β) : Op σ β := fun s =>
  match op s with
  | .ok a s => next (.ok a) s
  | .error f s => next (.error f) s

/-- However deep the thread has entered the lock, and however the operation ends, it is as deep in the
lock as before. -/
def Restores (me : Thread) (op : Op σ α) : Prop :=
  ∀ s : Guarded σ, Restored me s.lock (left (op s)).lock

theorem Oblivious.restores {op : Op σ α} (h : Oblivious op) : Restores me op :=
  fun s => .of_eq (h.lock_left s)

theorem restores_get : Restores me (get : Op σ (Guarded σ)) := fun _ => .of_eq rfl

namespace Restores

theorem bind {op : Op σ α} {f : α → Op σ β} (h : Restores me op) (hf : ∀ a, Restores me (f a)) :
    Restores me (op >>= f) := by
  intro s
  have hop := h s
  show Restored me s.lock (left (EStateM.bind op f s)).lock
  simp only [EStateM.bind]
  cases hr : op s with
  | error e s' =>
    rw [hr] at hop
    exact hop
  | ok a s' =>
    rw [hr] at hop
    exact hop.trans (hf a s')

theorem andThen {op : Op σ α} {next : Except Failure α → Op σ β} (h : Restores me op)
    (hnext : ∀ r, Restores me (next r)) : Restores me (andThen op next) := by
  intro s
  have hop := h s
  unfold Guarded.andThen
  cases hr : op s with
  | ok a s' =>
    rw [hr] at hop
    exact hop.trans (hnext (.ok a) s')
  | error f s' =>
    rw [hr] at hop
    exact hop.trans (hnext (.error f) s')

theorem forM {ι : Type} {f : ι → Op σ Unit} (h : ∀ i, Restores me (f i)) (is : List ι) :
    Restores me (is.forM f) := by
  induction is with
  | nil => exact (oblivious_pure ()).restores
  | cons i is ih =>
    rw [List.forM_eq_forM, List.forM_cons]
    exact (h i).bind fun _ => ih

/-- The level that is entered is left however the body ends, if the body leaves the thread as deep as it
was. -/
theorem bracket {opens closes : Lock → Except Failure Unit × Lock} (hb : Lock.Brackets me opens closes)
    {body : Op σ α} (h : Restores me body) : Restores me (bracket opens closes body) := by
  intro s
  unfold Guarded.bracket
  split
  · next f lock hopen => exact hb.refused _ _ f hopen
  · next lock hopen =>
    have hbody := h { s with lock }
    have hdepth := hb.opened _ _ hopen
    have hpos : 0 < (left (body { s with lock })).lock.depthOf me := by
      rw [hbody.depthOf_eq, hdepth]
      exact Nat.succ_pos _
    obtain ⟨closed, hclose, hclosed⟩ := hb.closed _ hpos
    have hrestored : Restored me s.lock closed := by
      refine ⟨by rw [hbody.depthOf_eq, hdepth] at hclosed; omega, fun ho => ?_⟩
      obtain ⟨ho', hundone⟩ := hb.undone _ _ ho hopen
      rw [hbody.eq_of_open ho', hundone] at hclose
      cases hclose
      rfl
    cases hr : body { s with lock } with
    | ok a s' | error f s' =>
      rw [hr] at hclose
      simp only [left] at hclose
      simp only [hclose, left]
      exact hrestored

/-- The level of a guard is given back when the guard is dropped, and that of a guard which is refused
at once. -/
theorem within {body : Op σ α} (h : Restores me body) : Restores me (within me body) :=
  h.bracket (Lock.brackets_guard me)

theorem inside {body : Op σ α} (h : Restores me body) : Restores me (inside me body) :=
  h.bracket (Lock.brackets_level me)

end Restores

theorem restores_beside (body : σ → α × σ) : Restores me (beside me body) := by
  rw [beside_eq_inside]
  exact Restores.inside fun _ => .of_eq rfl

/-- While the thread has the contents, the operation asks for them again before it does anything. -/
def Barred (me : Thread) (op : Op σ α) : Prop := ∀ s : Guarded σ, s.lock.Open me →
  s.lock.lent = true → op s = .error (.breach (.nestedGuard s.lock.name)) s

theorem barred_within (body : Op σ α) : Barred me (within me body) := fun _ => within_of_lent

namespace Barred

theorem bind {op : Op σ α} (h : Barred me op) (f : α → Op σ β) : Barred me (op >>= f) := by
  intro s ho hlent
  show EStateM.bind op f s = _
  rw [EStateM.bind, h s ho hlent]

/-- What needs the contents itself cannot be done with the contents taken, and nothing has changed
then, whether or not they had been taken before. -/
theorem within_eq {op : Op σ α} (h : Barred me op) (ho : s.lock.Open me) :
    within me op s = .error (.breach (.nestedGuard s.lock.name)) s := by
  cases hlent : s.lock.lent with
  | true => exact within_of_lent ho hlent
  | false =>
    rw [Guarded.within, ho.openGuard_eq hlent]
    simp only [h { s with lock := s.lock.entered me true } (Lock.open_entered true) rfl,
      ho.closeGuard_eq hlent]
    rfl

end Barred

/-- What a thread does with a guarded store, as a tree: each node is one thing done, and its branches
are how the thread goes on after each outcome. What it hands to an operation to be called back is such
a tree again. -/
inductive Dealing (σ Q A : Type) : Type → Type 1
  | give {α : Type} (a : α) : Dealing σ Q A α
  | fail {α : Type} (f : Failure) : Dealing σ Q A α
  | look {α : Type} (next : Guarded σ → Dealing σ Q A α) : Dealing σ Q A α
  /-- Changes anything but the lock. -/
  | alter {α : Type} (f : Guarded σ → Guarded σ) (h : ∀ s, (f s).lock = s.lock)
    (next : Dealing σ Q A α) : Dealing σ Q A α
  | ask {α : Type} (q : Q) (next : Except Failure A → Dealing σ Q A α) : Dealing σ Q A α
  /-- Takes the contents from behind the lock for as long as something else is done. -/
  | take {α β : Type} (body : Dealing σ Q A β) (next : Except Failure β → Dealing σ Q A α) :
    Dealing σ Q A α
  /-- Enters the lock for as long as something else is done. -/
  | stay {α β : Type} (body : Dealing σ Q A β) (next : Except Failure β → Dealing σ Q A α) :
    Dealing σ Q A α

namespace Dealing

variable {Q A : Type} {serve : Q → Op σ A}

def run (me : Thread) (serve : Q → Op σ A) : {α : Type} → Dealing σ Q A α → Op σ α
  | _, give a => pure a
  | _, fail f => throw f
  | _, look next => do (next (← get)).run me serve
  | _, alter f _ next => do
    modify f
    next.run me serve
  | _, ask q next => andThen (serve q) fun r => (next r).run me serve
  | _, take body next => andThen (within me (body.run me serve)) fun r => (next r).run me serve
  | _, stay body next => andThen (inside me (body.run me serve)) fun r => (next r).run me serve

/-- Whatever is done, nested to any depth, if every request gives back what it enters. -/
theorem restores (hserve : ∀ q, Restores me (serve q)) (d : Dealing σ Q A α) :
    Restores me (d.run me serve) := by
  induction d with
  | give a => exact (oblivious_pure a).restores
  | fail f => exact (oblivious_throw f).restores
  | look next ih => exact restores_get.bind ih
  | alter f h next ih =>
    have hmodify : Restores me (modify f : Op σ Unit) := fun s => .of_eq (h s)
    exact hmodify.bind fun _ => ih
  | ask q next ih => exact (hserve q).andThen ih
  | take body next ihbody ih => exact ihbody.within.andThen ih
  | stay body next ihbody ih => exact ihbody.inside.andThen ih

end Dealing

end Guarded

end EntityStore
