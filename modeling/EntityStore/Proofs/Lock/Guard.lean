import EntityStore.Guarded

/-!
# Guards

A thread that owns a lock, or finds it free, enters it at once, and leaves it exactly as it was. So
an operation that takes the contents from behind such a lock amounts to what it does with them, and
one that finds the contents lent out does nothing.
-/
namespace EntityStore

namespace Lock

variable {l : Lock} {me : Thread}

/-- The thread owns the lock, or nobody does and nobody waits. -/
def Open (l : Lock) (me : Thread) : Prop :=
  (l.owner = some me ∧ 0 < l.depth) ∨ (l.owner = none ∧ l.depth = 0 ∧ l.gate = {})

/-- The lock after the thread has entered it, with the contents lent out or not. -/
def entered (l : Lock) (me : Thread) (lent : Bool) : Lock :=
  { l with
    gate := if l.isOwnedBy me then l.gate else { word := { held := true } }
    owner := some me
    depth := l.depth + 1
    lent }

theorem isOwnedBy_entered (lent : Bool) : (l.entered me lent).isOwnedBy me = true :=
  decide_eq_true rfl

theorem open_entered (lent : Bool) : (l.entered me lent).Open me := .inl ⟨rfl, Nat.succ_pos _⟩

theorem Open.enter_eq (h : l.Open me) : l.enter me = (true, l.entered me l.lent) := by
  rcases h with ⟨ho, -⟩ | ⟨ho, hd, hg⟩
  · have howned : l.isOwnedBy me = true := decide_eq_true ho
    rw [enter_of_owned howned]
    simp [entered, howned, ho]
  · have hnot : l.isOwnedBy me = false := by simp [isOwnedBy, ho]
    simp [enter, hnot, proceed, hg, Gate.settle, Gate.enough, Gate.step, entered, hd]

theorem Open.leave_entered (h : l.Open me) (lent : Bool) :
    (l.entered me lent).leave me = .ok { l with lent } := by
  rw [leave, isOwnedBy_entered]
  rcases h with ⟨ho, hd⟩ | ⟨ho, hd, hg⟩
  · have howned : l.isOwnedBy me = true := decide_eq_true ho
    have hdeep : 1 < l.depth + 1 := by omega
    simp [entered, howned, hdeep, ho]
  · have hnot : l.isOwnedBy me = false := by simp [isOwnedBy, ho]
    obtain ⟨name, spinLimit, gate, owner, depth, lent'⟩ := l
    simp only at ho hd hg
    subst ho hd hg
    simp [entered, hnot, Gate.settle, Gate.enough, Gate.step]

theorem with_lent_of_eq {lent : Bool} (h : l.lent = lent) : { l with lent } = l := by
  rw [← h]

theorem Open.openGuard_eq (h : l.Open me) (hlent : l.lent = false) :
    l.openGuard me = (.ok (), l.entered me true) := by
  simp [openGuard, h.enter_eq, lend, entered, hlent]

theorem Open.closeGuard_eq (h : l.Open me) (hlent : l.lent = false) :
    (l.entered me true).closeGuard me = (.ok (), l) := by
  have hleave : ({ l.entered me true with lent := false } : Lock).leave me = .ok l := by
    rw [← with_lent_of_eq hlent]
    exact h.leave_entered false
  rw [closeGuard, hleave]

/-- Contents that are lent out are not given again, and the lock stays as it is. -/
theorem Open.openGuard_of_lent (h : l.Open me) (hlent : l.lent = true) :
    l.openGuard me = (.error (.breach (.nestedGuard l.name)), l) := by
  have hleave := h.leave_entered l.lent
  rw [with_lent_of_eq rfl] at hleave
  have hlent' : (l.entered me l.lent).lent = true := hlent
  simp only [openGuard, h.enter_eq, lend, hlent', if_true, hleave]

end Lock

namespace Guarded

variable {σ α β : Type} {s : Guarded σ} {me : Thread}

@[simp] theorem contents?_bind (f : σ → Op σ α) : (contents? >>= f) s = f s.contents s := rfl

@[simp] theorem put_bind (c : σ) (f : Unit → Op σ α) :
    (put c >>= f) s = f () { s with contents := c } := rfl

def noting (n : Notice) (s : Guarded σ) : Guarded σ := { s with journal := s.journal.push n }

@[simp] theorem contents_noting (n : Notice) : (s.noting n).contents = s.contents := rfl

@[simp] theorem note_bind (n : Notice) (f : Unit → Op σ α) :
    ((note n : Op σ Unit) >>= f) s = f () (s.noting n) := rfl

@[simp] theorem pure_bind (a : α) (f : α → Op σ β) : ((pure a : Op σ α) >>= f) s = f a s := rfl

theorem bind_of_ok {op : Op σ α} {f : α → Op σ β} {a : α} {s' : Guarded σ} (h : op s = .ok a s') :
    (op >>= f) s = f a s' := by
  show EStateM.bind op f s = _
  rw [EStateM.bind, h]

def releasing {R : Type} [Record R] (owner : Owner) (r : R) (s : Guarded σ) : Guarded σ :=
  if s.connected then
    { s with
      handles := (s.handles.releaseOwned owner (Record.tableName R) (Record.owned r).ids).2
      journal := s.journal ++
        (s.handles.releaseOwned owner (Record.tableName R) (Record.owned r).ids).1.toArray }
  else s

theorem releaseOwned_bind {R : Type} [Record R] (owner : Owner) (r : R) (f : Unit → Op σ α) :
    ((releaseOwned owner r : Op σ Unit) >>= f) s = f () (s.releasing owner r) := rfl

@[simp] theorem contents_releasing {R : Type} [Record R] (owner : Owner) (r : R) :
    (s.releasing owner r).contents = s.contents := by
  unfold releasing
  split <;> rfl

@[simp] theorem lock_releasing {R : Type} [Record R] (owner : Owner) (r : R) :
    (s.releasing owner r).lock = s.lock := by
  unfold releasing
  split <;> rfl

def left : EStateM.Result Failure (Guarded σ) α → Guarded σ
  | .ok _ s => s
  | .error _ s => s

theorem left_bind_pure (op : Op σ α) (f : α → β) :
    left ((op >>= fun a => pure (f a)) s) = left (op s) := by
  show left (EStateM.bind op _ s) = _
  simp only [EStateM.bind]
  cases op s <;> rfl

/-- The outcome of an operation on the same store behind another lock. -/
def withLock (lock : Lock) : EStateM.Result Failure (Guarded σ) α →
    EStateM.Result Failure (Guarded σ) α
  | .ok a s => .ok a { s with lock }
  | .error f s => .error f { s with lock }

/-- An operation that leaves the lock as it finds it is done with the contents taken, and the lock
is as before. -/
theorem within_eq_withLock {body : Op σ α} (h : s.lock.Open me) (hlent : s.lock.lent = false)
    (hb : (left (body { s with lock := s.lock.entered me true })).lock = s.lock.entered me true) :
    within me body s = withLock s.lock (body { s with lock := s.lock.entered me true }) := by
  rw [within, h.openGuard_eq hlent]
  simp only
  cases hr : body { s with lock := s.lock.entered me true } with
  | ok a s' =>
    rw [hr] at hb
    simp only [left] at hb
    simp only [hb, h.closeGuard_eq hlent, withLock]
  | error f s' =>
    rw [hr] at hb
    simp only [left] at hb
    simp only [hb, h.closeGuard_eq hlent, withLock]

/-- The operation has nothing to do with the lock. -/
def Oblivious (op : Op σ α) : Prop := ∀ s lock, op { s with lock } = withLock lock (op s)

theorem oblivious_pure (a : α) : Oblivious (pure a : Op σ α) := fun _ _ => rfl

theorem oblivious_contents? : Oblivious (contents? : Op σ σ) := fun _ _ => rfl

theorem oblivious_put (c : σ) : Oblivious (put c) := fun _ _ => rfl

theorem oblivious_note (n : Notice) : Oblivious (note n : Op σ Unit) := fun _ _ => rfl

theorem oblivious_throw (f : Failure) : Oblivious (throw f : Op σ α) := fun _ _ => rfl

theorem oblivious_releaseOwned {R : Type} [Record R] (owner : Owner) (r : R) :
    Oblivious (releaseOwned owner r : Op σ Unit) := by
  intro s lock
  have h : ({ s with lock } : Guarded σ).releasing owner r =
      { s.releasing owner r with lock } := by
    unfold releasing
    split <;> rfl
  exact congrArg (EStateM.Result.ok ()) h

theorem Oblivious.bind {op : Op σ α} {f : α → Op σ β} (h : Oblivious op)
    (hf : ∀ a, Oblivious (f a)) : Oblivious (op >>= f) := by
  intro s lock
  show EStateM.bind op f _ = withLock lock (EStateM.bind op f s)
  simp only [EStateM.bind]
  rw [h s lock]
  cases op s with
  | ok a s => exact hf a s lock
  | error e s => rfl

theorem Oblivious.lock_left {op : Op σ α} (h : Oblivious op) (s : Guarded σ) :
    (left (op s)).lock = s.lock := by
  have hs : op s = withLock s.lock (op s) := h s s.lock
  rw [hs]
  cases op s <;> rfl

/-- An operation behind a lock that can be entered is what it does with the contents. -/
theorem within_eq {body : Op σ α} (hb : Oblivious body) (h : s.lock.Open me)
    (hlent : s.lock.lent = false) : within me body s = body s := by
  rw [within_eq_withLock h hlent (hb.lock_left _), hb]
  have hs : body s = withLock s.lock (body s) := hb s s.lock
  rw [hs]
  cases body s <;> rfl

/-- Nobody takes contents that are lent out. -/
theorem within_of_lent {body : Op σ α} (h : s.lock.Open me) (hlent : s.lock.lent = true) :
    within me body s = .error (.breach (.nestedGuard s.lock.name)) s := by
  rw [within, h.openGuard_of_lent hlent]

/-- What is done beside the contents leaves the lock as it was. -/
theorem beside_eq (body : σ → α × σ) (h : s.lock.Open me) :
    beside me body s = .ok (body s.contents).1 { s with contents := (body s.contents).2 } := by
  have hleave := h.leave_entered s.lock.lent
  rw [Lock.with_lent_of_eq rfl] at hleave
  rw [beside, h.enter_eq]
  simp only [hleave]

end Guarded

end EntityStore
