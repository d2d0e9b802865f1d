import EntityStore.Proofs.World.Passes

/-!
# Two runs side by side

Two operations are coupled by a relation between their states if from related states both succeed, or
both fail with faults, or both break, and related states are left. So are the calls of a store behind
two locks that it can be taken from, or from neither of which it can be taken.
-/
namespace EntityStore

open Run (left bind_of_ok bind_of_error ok_of_bind)

section Coupled

variable {σ τ υ σ' τ' α β γ δ : Type}

/-- Both outcomes are successes with related values, or both are failures that are caught, or both are
failures that pass through; and the states are related. -/
inductive Matched (P : σ → τ → Prop) (Q : α → β → Prop) :
    EStateM.Result Failure σ α → EStateM.Result Failure τ β → Prop
  | ok {a : α} {b : β} {s : σ} {t : τ} (hQ : Q a b) (hP : P s t) : Matched P Q (.ok a s) (.ok b t)
  | error {e e' : Failure} {s : σ} {t : τ} (he : e'.breaks = e.breaks) (hP : P s t) :
    Matched P Q (.error e s) (.error e' t)

/-- From related states the operations have outcomes that match. -/
def Coupled (P : σ → τ → Prop) (Q : α → β → Prop) (op : EStateM Failure σ α)
    (op' : EStateM Failure τ β) : Prop := ∀ s t, P s t → Matched P Q (op s) (op' t)

variable {P P' : σ → τ → Prop} {Q : α → β → Prop} {Q' : γ → δ → Prop}

namespace Matched

theorem left_right {r : EStateM.Result Failure σ α} {r' : EStateM.Result Failure τ β}
    (h : Matched P Q r r') : P (left r) (left r') := by
  cases h with
  | ok _ hP => exact hP
  | error _ hP => exact hP

/-- The outcomes are the same in other states. -/
theorem ending {r : EStateM.Result Failure σ α} {r' : EStateM.Result Failure τ β}
    {P' : σ' → τ' → Prop} (h : Matched P Q r r') {s : σ'} {t : τ'} (hP : P' s t) :
    Matched P' Q (Run.ending s r) (Run.ending t r') := by
  cases h with
  | ok hQ _ => exact .ok hQ hP
  | error he _ => exact .error he hP

/-- What comes after two outcomes that match need only match where these lead. -/
theorem bind {op : EStateM Failure σ α} {op' : EStateM Failure τ β} {f : α → EStateM Failure σ γ}
    {f' : β → EStateM Failure τ δ} {s : σ} {t : τ} (h : Matched P Q (op s) (op' t))
    (hf : ∀ a b s' t', op s = .ok a s' → op' t = .ok b t' → Q a b → P s' t' →
      Matched P Q' (f a s') (f' b t')) : Matched P Q' ((op >>= f) s) ((op' >>= f') t) := by
  generalize hr : op s = r at h
  generalize hr' : op' t = r' at h
  cases h with
  | ok hQ hP =>
    rw [bind_of_ok hr, bind_of_ok hr']
    exact hf _ _ _ _ hr hr' hQ hP
  | error he hP =>
    rw [bind_of_error hr, bind_of_error hr']
    exact .error he hP

end Matched

/-- If the one has succeeded, so has the other, with the same value and in a related state. -/
def Led (P : σ → τ → Prop) (r : EStateM.Result Failure σ α) (r' : EStateM.Result Failure τ α) : Prop :=
  ∀ a s, r = .ok a s → ∃ t, r' = .ok a t ∧ P s t

theorem Matched.led {r : EStateM.Result Failure σ α} {r' : EStateM.Result Failure τ α}
    (h : Matched P (· = ·) r r') : Led P r r' := by
  rintro a s rfl
  cases h with
  | ok hQ hP => exact ⟨_, hQ ▸ rfl, hP⟩

namespace Led

variable {r : EStateM.Result Failure σ α} {r' : EStateM.Result Failure τ α}

theorem of_ok (h : Led P r r') {a : α} {s : σ} (hr : r = .ok a s) : ∃ t, r' = .ok a t ∧ P s t :=
  h a s hr

/-- The outcomes are the same in other states. -/
theorem ending {R : σ' → τ' → Prop} (h : Led P r r') {s : σ'} {t : τ'}
    (hR : P (left r) (left r') → R s t) : Led R (Run.ending s r) (Run.ending t r') := by
  intro a s' hs
  cases r with
  | error => cases hs
  | ok a₀ s₀ =>
    obtain ⟨t₀, rfl, hP⟩ := h a₀ s₀ rfl
    cases hs
    exact ⟨t, rfl, hR hP⟩

/-- What comes after a success need only be so where it leads. -/
theorem bind {op : EStateM Failure σ α} {op' : EStateM Failure τ α} {f : α → EStateM Failure σ β}
    {f' : α → EStateM Failure τ β} {s : σ} {t : τ} (h : Led P (op s) (op' t))
    (hf : ∀ a s' t', op s = .ok a s' → P s' t' → Led P' (f a s') (f' a t')) :
    Led P' ((op >>= f) s) ((op' >>= f') t) := by
  intro b s'' hr
  obtain ⟨a, s', hop, hrest⟩ := ok_of_bind hr
  obtain ⟨t', hop', hP⟩ := h a s' hop
  obtain ⟨t'', hrest', hP'⟩ := hf a s' t' hop hP b s'' hrest
  exact ⟨t'', (bind_of_ok hop').trans hrest', hP'⟩

end Led

theorem coupled_pure {a : α} {b : β} (h : Q a b) : Coupled P Q (pure a) (pure b) :=
  fun _ _ hP => .ok h hP

theorem coupled_throw {e e' : Failure} (he : e'.breaks = e.breaks) :
    Coupled P Q (throw e : EStateM Failure σ α) (throw e' : EStateM Failure τ β) :=
  fun _ _ hP => .error he hP

theorem Coupled.bind {op : EStateM Failure σ α} {op' : EStateM Failure τ β}
    {f : α → EStateM Failure σ γ} {f' : β → EStateM Failure τ δ} (h : Coupled P Q op op')
    (hf : ∀ a b, Q a b → Coupled P Q' (f a) (f' b)) : Coupled P Q' (op >>= f) (op' >>= f') :=
  fun s t hP => (h s t hP).bind fun a b s' t' _ _ hQ hP' => hf a b hQ s' t' hP'

/-- The same may be done after two operations that give the same. -/
theorem Coupled.bind_eq {op : EStateM Failure σ α} {op' : EStateM Failure τ α}
    {f : α → EStateM Failure σ γ} {f' : α → EStateM Failure τ δ} (h : Coupled P (· = ·) op op')
    (hf : ∀ a, Coupled P Q' (f a) (f' a)) : Coupled P Q' (op >>= f) (op' >>= f') :=
  h.bind fun a b hab => by
    subst hab
    exact hf a

/-- What is done knowing the states. -/
theorem coupled_get_bind {f : σ → EStateM Failure σ α} {f' : τ → EStateM Failure τ β}
    (h : ∀ s t, P s t → Matched P Q (f s s) (f' t t)) : Coupled P Q (get >>= f) (get >>= f') := h

theorem coupled_modify {f : σ → σ} {f' : τ → τ} (hf : ∀ s t, P s t → P (f s) (f' t)) :
    Coupled P (· = ·) (modify f : EStateM Failure σ Unit) (modify f') :=
  fun s t hP => .ok rfl (hf s t hP)

theorem coupled_forM {xs : List α} {f : α → EStateM Failure σ Unit}
    {f' : α → EStateM Failure τ Unit} (hf : ∀ x, Coupled P (· = ·) (f x) (f' x)) :
    Coupled P (· = ·) (xs.forM f) (xs.forM f') := by
  induction xs with
  | nil => exact coupled_pure rfl
  | cons x xs ih => exact (hf x).bind_eq fun _ => ih

end Coupled

section Combined

variable {K α β : Type} [Schema K] {P : World K → World K → Prop} {Q : α → β → Prop}
variable {body : Run K α} {body' : Run K β} {after after' : Run K Unit}

inductive Told (Q : α → β → Prop) : Except Fault α → Except Fault β → Prop
  | ok {a : α} {b : β} (hQ : Q a b) : Told Q (.ok a) (.ok b)
  | error (f f' : Fault) : Told Q (.error f) (.error f')

theorem Coupled.attempt (h : Coupled P Q body body') :
    Coupled P (Told Q) (Run.attempt body) (Run.attempt body') := by
  intro u v huv
  have hmatched := h u v huv
  unfold Run.attempt
  cases hr : body u <;> cases hr' : body' v <;> rw [hr, hr'] at hmatched <;> cases hmatched
  · next hQ hP => exact .ok (.ok hQ) hP
  · next e _ e' _ he hP =>
    cases e <;> cases e' <;> first | exact .ok (.error _ _) hP | exact .error rfl hP | cases he

theorem Coupled.ensuring (h : Coupled P Q body body') (ha : Coupled P (· = ·) after after') :
    Coupled P Q (Run.ensuring body after) (Run.ensuring body' after') := by
  intro u v huv
  have hmatched := h u v huv
  unfold Run.ensuring
  cases hr : body u <;> cases hr' : body' v <;> rw [hr, hr'] at hmatched <;> cases hmatched
  · next u' _ v' hQ hP =>
    have hafter := ha u' v' hP
    dsimp only
    cases hs : after u' <;> cases hs' : after' v' <;> rw [hs, hs'] at hafter <;> cases hafter
    · next hP' => exact .ok hQ hP'
    · next he hP' => exact .error he hP'
  · next u' _ v' he hP =>
    have hafter := ha u' v' hP
    dsimp only
    cases hs : after u' <;> cases hs' : after' v' <;> rw [hs, hs'] at hafter <;> cases hafter
    · next hP' => exact .error he hP'
    · next hP' => exact .error he hP'

end Combined

namespace Guarded

variable {σ α β : Type} {me : Thread} {l l' : Lock} {Q : α → α → Prop} {s s' : Guarded σ}

structure Behind (l l' : Lock) (s s' : Guarded σ) : Prop where
  lock_eq : s.lock = l
  eq : s' = { s with lock := l' }

/-- It makes no difference to the operation behind which lock the store is, as long as the thread can
enter it and the contents are lent out or not. -/
def Deaf (me : Thread) (Q : α → α → Prop) (op : Op σ α) : Prop :=
  ∀ l l' : Lock, l.Open me → l'.Open me → l'.lent = l.lent → Coupled (Behind l l') Q op op

theorem Oblivious.deaf {op : Op σ α} (h : Oblivious op) : Deaf me (· = ·) op := by
  intro l l' _ _ _ s s' hs
  obtain ⟨hlock, rfl⟩ := hs
  have hleft := h.lock_left s
  rw [h s l']
  cases hr : op s <;> rw [hr] at hleft
  · exact .ok rfl ⟨hleft.trans hlock, rfl⟩
  · exact .error rfl ⟨hleft.trans hlock, rfl⟩

theorem deaf_pure {a : α} (h : Q a a) : Deaf me Q (pure a : Op σ α) := fun _ _ _ _ _ => coupled_pure h

theorem Deaf.bind {op : Op σ α} {f : α → Op σ β} {Q' : β → β → Prop} (h : Deaf me (· = ·) op)
    (hf : ∀ a, Deaf me Q' (f a)) : Deaf me Q' (op >>= f) :=
  fun l l' ho ho' hlent => (h l l' ho ho' hlent).bind_eq fun a => hf a l l' ho ho' hlent

theorem within_eq_of_left {body : Op σ α} (h : s.lock.Open me) (hlent : s.lock.lent = false)
    (hb : (Run.left (body { s with lock := s.lock.entered me true })).lock =
      s.lock.entered me true) :
    within me body s = withLock s.lock (body { s with lock := s.lock.entered me true }) := by
  apply within_eq_withLock h hlent
  cases hr : body { s with lock := s.lock.entered me true } <;> rw [hr] at hb <;> exact hb

/-- The store can be taken from behind both locks, or from neither. -/
theorem Deaf.within {body : Op σ α} (h : Deaf me Q body) : Deaf me Q (within me body) := by
  intro l l' ho ho' hlent s s' hs
  obtain ⟨rfl, rfl⟩ := hs
  cases hl : s.lock.lent with
  | true =>
    have hl' : l'.lent = true := hlent.trans hl
    rw [within_of_lent ho hl, within_of_lent (s := { s with lock := l' }) ho' hl']
    exact .error rfl ⟨rfl, rfl⟩
  | false =>
    have hl' : l'.lent = false := hlent.trans hl
    -- behind both locks the body finds the store lent out, and leaves the locks so
    have hbody := h _ _ (Lock.open_entered (l := s.lock) true) (Lock.open_entered (l := l') true) rfl
      { s with lock := s.lock.entered me true } { s with lock := l'.entered me true } ⟨rfl, rfl⟩
    rw [within_eq_of_left ho hl hbody.left_right.lock_eq,
      within_eq_of_left (s := { s with lock := l' }) ho' hl' (by rw [hbody.left_right.eq])]
    generalize body { s with lock := s.lock.entered me true } = r at hbody
    generalize body { s with lock := l'.entered me true } = r' at hbody
    cases hbody with
    | ok hQ hP =>
      obtain ⟨hlock, rfl⟩ := hP
      exact .ok hQ ⟨rfl, rfl⟩
    | error he hP =>
      obtain ⟨hlock, rfl⟩ := hP
      exact .error he ⟨rfl, rfl⟩

/-- It makes no difference what is done beside the contents. -/
theorem deaf_beside (body : σ → α × σ) : Deaf me (· = ·) (beside me body) := by
  intro l l' ho ho' _ s s' hs
  obtain ⟨rfl, rfl⟩ := hs
  rw [beside_eq body ho, beside_eq body (s := { s with lock := l' }) ho']
  exact .ok rfl ⟨rfl, rfl⟩

/-- What is given may depend on the lock if nobody asks for it. -/
theorem deaf_get_bind {f : Guarded σ → Op σ α} (hf : ∀ s s' : Guarded σ, ∀ l l' : Lock,
    Behind l l' s s' → Matched (Behind l l') Q (f s s) (f s' s')) : Deaf me Q (get >>= f) :=
  fun l l' _ _ _ s s' hs => hf s s' l l' hs

end Guarded

namespace Table

open Guarded

variable {R α : Type} [Record R] {me : Thread}

omit [Record R] in
theorem deaf_read (f : Table R → α) : Deaf me (· = ·) (read me f) :=
  (oblivious_contents?.bind fun _ => oblivious_pure _).deaf.within

omit [Record R] in
theorem deaf_change (f : Table R → α × Table R) : Deaf me (· = ·) (change me f) :=
  (oblivious_contents?.bind fun _ => (oblivious_put _).bind fun _ => oblivious_pure _).deaf.within

theorem deaf_populate (e : Entity) (r : R) : Deaf me (· = ·) (populate me e r) := by
  unfold populate
  split
  · exact (oblivious_throw _).deaf.bind fun _ => (oblivious_place e r).deaf.within
  · exact (oblivious_place e r).deaf.within

theorem deaf_populateAny (e : Entity) (o : Offer R) :
    Deaf me (· = ·) (populateAny me e o) := by
  cases o with
  | missing | foreign => exact (oblivious_throw _).deaf
  | record r => exact (deaf_populate e r).bind fun _ => deaf_pure rfl

theorem deaf_destroy (e : Entity) : Deaf me (· = ·) (destroy me e : Op (Table R) R) := by
  refine Deaf.within (Oblivious.deaf (oblivious_contents?.bind fun t => ?_))
  split
  · exact oblivious_takeOut e
  · exact oblivious_throw _

omit [Record R] in
theorem deaf_sortRows (m : Measure) (f : R → Int64) : Deaf me (· = ·) (sortRows me m f) := by
  refine Deaf.within (Oblivious.deaf (oblivious_contents?.bind fun t => ?_))
  split
  · exact oblivious_throw _
  · exact oblivious_put _

theorem deaf_takeSnapshot : Deaf me (· = ·) (takeSnapshot me : Op (Table R) Bool) := by
  refine Deaf.within (Oblivious.deaf (oblivious_contents?.bind fun t => ?_))
  dsimp only
  split
  · exact (oblivious_put _).bind fun _ => oblivious_pure _
  · exact (oblivious_note _).bind fun _ => (oblivious_put _).bind fun _ => oblivious_pure _

/-- A request does the same behind either lock; only what it tells of the lock may differ. -/
theorem deaf_serve (q : Request Entity R) : Deaf me (fun _ _ => True) (serve me q) := by
  have hread : ∀ {β : Type} (f : Table R → β) (g : β → Answer R),
      Deaf me (fun _ _ => True) (do return g (← read me f) : Op (Table R) (Answer R)) :=
    fun f g => (deaf_read f).bind fun _ => deaf_pure trivial
  cases q with
  | populate e r => exact (deaf_populate e r).bind fun _ => deaf_pure trivial
  | offer e o => exact (deaf_populateAny e o).bind fun _ => deaf_pure trivial
  | find e => exact hread _ .record
  | measure e f => exact hread _ .number
  | adjust e g f => exact (deaf_change _).bind fun _ => deaf_pure trivial
  | contains e => exact hread _ .found
  | destroy e => exact (deaf_destroy e).bind fun _ => deaf_pure trivial
  | discard e => exact (deaf_destroy e).bind fun _ => deaf_pure trivial
  | count => exact (deaf_read _).bind fun _ => (deaf_read _).bind fun _ => deaf_pure trivial
  | entities => exact hread _ .entities
  | rows => exact hread _ .rows
  | adjustAll g => exact (deaf_change _).bind fun _ => deaf_pure trivial
  | survey w least f => exact (deaf_read _).bind fun _ => deaf_pure trivial
  | sort m f => exact (deaf_sortRows m f).bind fun _ => deaf_pure trivial
  | takeSnapshot => exact deaf_takeSnapshot.bind fun _ => deaf_pure trivial
  | snapshotState =>
    exact (deaf_read _).bind fun _ => oblivious_contents?.deaf.bind fun _ => deaf_pure trivial
  | names => exact deaf_get_bind fun _ _ _ _ hs => .ok trivial hs
  | fields => exact deaf_pure trivial
  | inspect e g =>
    show Deaf me _ (lookAround me e g)
    refine Deaf.within (oblivious_contents?.deaf.bind fun t => (oblivious_put _).deaf.bind fun _ => ?_)
    exact deaf_get_bind fun _ _ _ _ hs => .ok trivial hs
  | nest => exact ((deaf_read _).bind fun _ => deaf_pure trivial).within
  | admitReader => exact (deaf_beside _).bind fun _ => deaf_pure trivial
  | dismissReader reader =>
    exact (oblivious_contents?.bind fun _ => oblivious_put _).deaf.bind fun _ => deaf_pure trivial
  | readCopy reader e =>
    refine oblivious_contents?.deaf.bind fun t => ?_
    split <;> exact deaf_pure trivial

end Table

namespace NamedTable

open Guarded

variable {R α : Type} [Record R] {me : Thread}

omit [Record R] in
theorem deaf_read (f : NamedTable R → α) : Deaf me (· = ·) (read me f) :=
  (oblivious_contents?.bind fun _ => oblivious_pure _).deaf.within

theorem deaf_serve (q : Request R) : Deaf me (fun _ _ => True) (serve me q) := by
  have hread : ∀ {β : Type} (f : NamedTable R → β) (g : β → Answer R),
      Deaf me (fun _ _ => True) (do return g (← read me f) : Op (NamedTable R) (Answer R)) :=
    fun f g => (deaf_read f).bind fun _ => deaf_pure trivial
  have hput : ∀ {β : Type} (c : NamedTable R) (b : β),
      Oblivious (do put c; return b : Op (NamedTable R) β) :=
    fun c b => (oblivious_put c).bind fun _ => oblivious_pure b
  cases q with
  | populate name r =>
    exact (oblivious_contents?.bind fun _ => hput _ _).deaf.within.bind fun _ => deaf_pure trivial
  | find name => exact hread _ .record
  | measure name f => exact hread _ .number
  | adjust name g f =>
    refine Deaf.bind ?_ fun _ => deaf_pure trivial
    exact (oblivious_contents?.bind fun _ => (oblivious_put _).bind fun _ =>
      oblivious_contents?.bind fun _ => oblivious_pure _).deaf.within
  | contains name => exact hread _ .flag
  | destroy name =>
    refine Deaf.bind (Deaf.bind (oblivious_contents?.bind fun _ => hput _ _).deaf.within
      fun found => ?_) fun _ => deaf_pure trivial
    cases found with
    | some r => exact ((oblivious_releaseOwned _ r).bind fun _ => oblivious_pure _).deaf
    | none => exact deaf_pure rfl
  | names => exact hread _ .names
  | count => exact (deaf_read _).bind fun _ => (deaf_read _).bind fun _ => deaf_pure trivial
  | titles => exact deaf_get_bind fun _ _ _ _ hs => .ok trivial hs
  | nest name =>
    refine Deaf.within (oblivious_contents?.deaf.bind fun t => ?_)
    split
    · exact (deaf_read _).bind fun _ => deaf_pure trivial
    · exact deaf_pure trivial

end NamedTable

end EntityStore
