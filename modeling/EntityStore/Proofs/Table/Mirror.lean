import EntityStore.Proofs.Table.Effect

/-!
# What readers see

Readers of a table see the records of the moment at which it was last frozen, as they were then,
except those that have left the table since. Records leave when they are destroyed or evicted;
nothing else takes a record from the readers, and while there are any, nothing shows them more.
-/
namespace EntityStore.Table

open Guarded

variable {R : Type} {t t' : Table R} {e : Entity}

/-- Readers lose sight of what leaves the table, and of nothing else. -/
def Mirrors (t t' : Table R) : Prop :=
  ∀ e, t'.copy.get? e =
    if (t.rows.get? e).isSome ∧ t'.rows.get? e = none then none else t.copy.get? e

theorem mirrors_of_keys (hcopy : t'.copy = t.copy)
    (hkeys : ∀ e, (t.rows.get? e).isSome = true → (t'.rows.get? e).isSome = true) :
    Mirrors t t' := by
  intro e
  rw [hcopy, if_neg]
  rintro ⟨hsome, hnone⟩
  have := hkeys e hsome
  rw [hnone] at this
  cases this

theorem Sound.mirrors_without (h : t.Sound) (e : Entity) : Mirrors t (t.without e) := by
  intro x
  rw [h.get?_without]
  simp only [Table.without, Packed.get?_without h.copy]
  by_cases hx : x = e
  · subst hx
    rw [Function.update_self, Function.update_self]
    split
    · rfl
    · next hnot =>
      cases hc : t.copy.get? x with
      | none => rfl
      | some r => exact absurd ⟨h.shown x (by rw [hc]; rfl), rfl⟩ hnot
  · rw [Function.update_of_ne hx, Function.update_of_ne hx, if_neg]
    rintro ⟨hsome, hnone⟩
    rw [hnone] at hsome
    cases hsome

/-- A place that is taken away makes way for another entity. -/
theorem Sound.mirrors_populated (h : t.Sound) (e : Entity) (r : R) :
    Mirrors t (t.populated e r) := by
  have hget := h.get?_populated e r
  have hupdate : ∀ x, (t.rows.get? x).isSome = true →
      (Function.update t.rows.get? e (some r) x).isSome = true := fun x hx => by
    by_cases hxe : x = e
    · simp [hxe]
    · rwa [Function.update_of_ne hxe]
  have hj := h.judged e
  cases hv : t.verdict e with
  | replace | accept =>
    rw [hv] at hget
    refine mirrors_of_keys (by rw [Table.populated, hv]; rfl) ?_
    rw [hget]
    exact hupdate
  | refuse =>
    rw [Table.populated, hv]
    exact mirrors_of_keys rfl fun _ hx => hx
  | evict o =>
    rw [hv] at hj hget
    simp only at hget
    cases hj with
    | evict he ho _ =>
      intro x
      have hcopy : (t.populated e r).copy = (t.without o).copy := by
        rw [Table.populated, hv]
        rfl
      rw [hcopy, h.mirrors_without o x, hget, h.get?_without]
      by_cases hxe : x = e
      · subst hxe
        simp [he]
      · rw [Function.update_of_ne hxe]

/-- A call of a table: a request, or a sort by any comparison. -/
inductive Call (R : Type)
  | request (q : Request Entity R)
  | sortBy (le : R → R → Bool)

namespace Call

def perform [Record R] (me : Thread) : Call R → Op (Table R) (Answer R)
  | request q => serve me q
  | sortBy le => do
    change me fun t => ((), t.sort le)
    return .nothing

def effect (t : Table R) : Call R → Table R
  | request q => q.effect t
  | sortBy le => t.sort le

/-- The call destroys the record of an entity, or places one that evicts it. -/
inductive Removes (e : Entity) : Call R → Prop
  | destroy : Removes e (request (.destroy e))
  | discard : Removes e (request (.discard e))
  | populate {e' : Entity} (r : R) (hv : e'.isVoid = false) (hi : Keyed.index e = Keyed.index e')
    (hn : e'.generation.isNewerThan e.generation = true) : Removes e (request (.populate e' r))
  | offer {e' : Entity} (r : R) (hv : e'.isVoid = false) (hi : Keyed.index e = Keyed.index e')
    (hn : e'.generation.isNewerThan e.generation = true) :
    Removes e (request (.offer e' (.record r)))

end Call

theorem Sound.call (h : t.Sound) (c : Call R) : (c.effect t).Sound := by
  cases c with
  | request q => exact h.effect q
  | sortBy le => exact h.sort le

theorem Sound.left_perform [Record R] {s : Guarded (Table R)} {me : Thread}
    (h : s.contents.Sound) (ho : s.lock.Open me) (hlent : s.lock.lent = false) (c : Call R) :
    (left (c.perform me s)).contents = c.effect s.contents ∧
      (left (c.perform me s)).lock = s.lock := by
  cases c with
  | request q => exact left_serve ho hlent h q
  | sortBy le =>
    simp only [Call.perform]
    rw [bind_of_ok (change_eq ho hlent _)]
    exact ⟨rfl, rfl⟩

/-- All entities that have a record keep one. -/
def Keeps (t t' : Table R) : Prop :=
  ∀ e, (t.rows.get? e).isSome = true → (t'.rows.get? e).isSome = true

theorem Sound.keeps_edit (h : t.Sound) (e : Entity) (f : R → R) : Keeps t (t.edit e f) := by
  intro x hx
  rw [h.get?_edit]
  split <;> simpa using hx

theorem Sound.keeps_editAll (h : t.Sound) (f : R → R) : Keeps t (t.editAll f) := by
  intro x hx
  rw [h.get?_editAll]
  simpa using hx

theorem Sound.keeps_sort (h : t.Sound) (le : R → R → Bool) : Keeps t (t.sort le) := by
  intro x hx
  rwa [h.get?_sort]

/-- A call places or removes records, or freezes the table, or each entity keeps its record and
readers see what they saw. -/
theorem Sound.effect_cases (h : t.Sound) (c : Call R) :
    (∃ e r, e.isVoid = false ∧ (c = .request (.populate e r) ∨ c = .request (.offer e (.record r))) ∧
      c.effect t = t.populated e r) ∨
    (∃ e, (c = .request (.destroy e) ∨ c = .request (.discard e)) ∧ c.effect t = t.without e) ∨
    (c = .request .takeSnapshot ∧ c.effect t = t.freeze.2) ∨
    ((c.effect t).copy = t.copy ∧ Keeps t (c.effect t)) := by
  have hself : Keeps t t := fun _ hx => hx
  have hpopulate : ∀ e r, c.effect t = (if e.isVoid then t else t.populated e r) →
      (c = .request (.populate e r) ∨ c = .request (.offer e (.record r))) →
      (∃ e r, e.isVoid = false ∧
        (c = .request (.populate e r) ∨ c = .request (.offer e (.record r))) ∧
        c.effect t = t.populated e r) ∨ ((c.effect t).copy = t.copy ∧ Keeps t (c.effect t)) := by
    intro e r heffect hc
    cases hv : e.isVoid with
    | false => exact .inl ⟨e, r, hv, hc, by rw [heffect, hv]; rfl⟩
    | true =>
      rw [hv, if_pos rfl] at heffect
      rw [heffect]
      exact .inr ⟨rfl, hself⟩
  cases c with
  | sortBy le => exact .inr (.inr (.inr ⟨rfl, h.keeps_sort le⟩))
  | request q =>
    cases q with
    | populate e r =>
      exact (hpopulate e r rfl (.inl rfl)).imp_right fun hr => .inr (.inr hr)
    | offer e o =>
      cases o with
      | record r => exact (hpopulate e r rfl (.inr rfl)).imp_right fun hr => .inr (.inr hr)
      | missing | foreign => exact .inr (.inr (.inr ⟨rfl, hself⟩))
    | adjust e g f => exact .inr (.inr (.inr ⟨rfl, h.keeps_edit e g⟩))
    | destroy e => exact .inr (.inl ⟨e, .inl rfl, rfl⟩)
    | discard e => exact .inr (.inl ⟨e, .inr rfl, rfl⟩)
    | adjustAll g => exact .inr (.inr (.inr ⟨rfl, h.keeps_editAll g⟩))
    | sort m f =>
      refine .inr (.inr (.inr ?_))
      simp only [Call.effect, Request.effect]
      split
      · exact ⟨rfl, h.keeps_sort _⟩
      · exact ⟨rfl, hself⟩
    | takeSnapshot => exact .inr (.inr (.inl ⟨rfl, rfl⟩))
    | inspect e g =>
      exact .inr (.inr (.inr ⟨rfl, fun x hx =>
        (h.editAll g).keeps_edit e g x (h.keeps_editAll g x hx)⟩))
    | _ => exact .inr (.inr (.inr ⟨rfl, hself⟩))

/-- Unless the table is frozen anew, what readers see only follows what leaves. -/
theorem Sound.mirrors_effect (h : t.Sound) (c : Call R)
    (hc : c = .request .takeSnapshot → t.readers ≠ []) : Mirrors t (c.effect t) := by
  obtain ⟨e, r, -, -, heffect⟩ | ⟨e, -, heffect⟩ | ⟨hfreeze, heffect⟩ | ⟨hcopy, hkeys⟩ :=
    h.effect_cases c
  · exact heffect ▸ h.mirrors_populated e r
  · exact heffect ▸ h.mirrors_without e
  · have hreaders : t.readers.isEmpty = false := by simpa using hc hfreeze
    have hself : t.freeze.2 = t := by simp [Table.freeze, hreaders]
    rw [heffect, hself]
    exact mirrors_of_keys rfl fun _ hx => hx
  · exact mirrors_of_keys hcopy hkeys

/-- A newer entity takes the place of one that has a record. -/
theorem Sound.get?_populated_of_newer (h : t.Sound) {e' : Entity} (r : R)
    (he : (t.rows.get? e).isSome = true) (hi : Keyed.index e = Keyed.index e')
    (hn : e'.generation.isNewerThan e.generation = true) :
    (t.populated e' r).rows.get? e = none := by
  obtain ⟨old, hold⟩ := Option.isSome_iff_exists.mp he
  have hself : e ≠ e' := by
    rintro rfl
    rw [Generation.isNewerThan_irrefl] at hn
    cases hn
  rw [h.get?_populated, h.verdict_of_newer hold hi hn]
  simp only
  rw [Function.update_of_ne hself, Function.update_self]

/-- Who loses its record to a newcomer is an older entity of the same index. -/
theorem Sound.newer_of_left (h : t.Sound) {e' : Entity} {r : R} (he : (t.rows.get? e).isSome = true)
    (hleft : (t.populated e' r).rows.get? e = none) :
    Keyed.index e = Keyed.index e' ∧ e'.generation.isNewerThan e.generation = true := by
  have hne : t.rows.get? e ≠ none := Option.isSome_iff_ne_none.mp he
  have hj := h.judged e'
  rw [h.get?_populated] at hleft
  cases hverdict : t.verdict e' with
  | replace | accept =>
    rw [hverdict] at hleft
    simp only [Function.update_apply] at hleft
    split at hleft
    · cases hleft
    · exact absurd hleft hne
  | refuse =>
    rw [hverdict] at hleft
    exact absurd hleft hne
  | evict o =>
    rw [hverdict] at hleft hj
    simp only [Function.update_apply] at hleft
    split at hleft
    · cases hleft
    · split at hleft
      · next heo =>
        subst heo
        cases hj with
        | evict _ _ hi hn => exact ⟨hi, hn⟩
      · exact absurd hleft hne

/-- Records leave only when they are destroyed or evicted. -/
theorem Sound.removes_of_left (h : t.Sound) {c : Call R} (he : (t.rows.get? e).isSome = true)
    (hc : (c.effect t).rows.get? e = none) : c.Removes e := by
  have hne : t.rows.get? e ≠ none := Option.isSome_iff_ne_none.mp he
  obtain ⟨e', r, hv, hcall, heffect⟩ | ⟨e', hcall, heffect⟩ | ⟨-, heffect⟩ | ⟨-, hkeys⟩ :=
    h.effect_cases c
  · rw [heffect] at hc
    obtain ⟨hi, hn⟩ := h.newer_of_left he hc
    rcases hcall with rfl | rfl
    · exact .populate r hv hi hn
    · exact .offer r hv hi hn
  · rw [heffect, h.get?_without, Function.update_apply] at hc
    split at hc
    · next hx =>
      subst hx
      rcases hcall with rfl | rfl
      · exact .destroy
      · exact .discard
    · exact absurd hc hne
  · have hrows : t.freeze.2.rows = t.rows := by
      unfold Table.freeze
      split <;> rfl
    rw [heffect, hrows] at hc
    exact absurd hc hne
  · exact absurd hc (Option.isSome_iff_ne_none.mp (hkeys e he))

/-- What is destroyed or evicted leaves. -/
theorem Sound.left_of_removes (h : t.Sound) {c : Call R} (he : (t.rows.get? e).isSome = true)
    (hc : c.Removes e) : (c.effect t).rows.get? e = none := by
  have hwithout : (t.without e).rows.get? e = none := by rw [h.get?_without, Function.update_self]
  cases hc with
  | destroy | discard => exact hwithout
  | populate r hv hi hn | offer r hv hi hn =>
    simp only [Call.effect, Request.effect]
    rw [if_neg (by simp [hv])]
    exact h.get?_populated_of_newer r he hi hn

variable [Record R]

omit [Record R] in
theorem readers_populated (t : Table R) (e : Entity) (r : R) :
    (t.populated e r).readers = t.readers := by
  unfold populated
  split <;> rfl

omit [Record R] in
/-- Readers come and go by requests of their own. -/
theorem Call.readers_effect (t : Table R) (c : Call R) : (c.effect t).readers =
    match c with
    | request .admitReader => t.admitted :: t.readers
    | request (.dismissReader reader) => t.readers.erase reader
    | _ => t.readers := by
  cases c with
  | sortBy le => rfl
  | request q =>
    cases q with
    | populate e r =>
      simp only [effect, Request.effect]
      split
      · rfl
      · exact readers_populated t e r
    | offer e o =>
      cases o with
      | record r =>
        simp only [effect, Request.effect]
        split
        · rfl
        · exact readers_populated t e r
      | missing | foreign => rfl
    | sort m f =>
      simp only [effect, Request.effect]
      split <;> rfl
    | takeSnapshot =>
      simp only [effect, Request.effect, freeze]
      split <;> rfl
    | _ => rfl

abbrev Outcome (R : Type) := EStateM.Result Failure (Guarded (Table R)) (Answer R)

/-- The call was answered by a new copy of the table. -/
def Call.froze : Call R → Outcome R → Bool
  | request .takeSnapshot, .ok (.flag true) _ => true
  | _, _ => false

/-- What is written down beside a table in use. -/
structure Ledger (R : Type) where
  /-- The records of the moment of the last copy, but for those that have left since. -/
  shown : Entity → Option R := fun _ => none
  /-- The readers admitted and not dismissed. -/
  guards : List Nat := []

def Ledger.after (l : Ledger R) (c : Call R) (before : Guarded (Table R)) (outcome : Outcome R) :
    Ledger R where
  shown :=
    if c.froze outcome then before.contents.rows.get?
    else fun e =>
      if (before.contents.rows.get? e).isSome ∧ (left outcome).contents.rows.get? e = none then none
      else l.shown e
  guards :=
    match c, outcome with
    | .request .admitReader, .ok (.reader n) _ => n :: l.guards
    | .request (.dismissReader n), .ok _ _ => l.guards.erase n
    | _, _ => l.guards

structure Sitting (R : Type) where
  state : Guarded (Table R)
  ledger : Ledger R := {}

namespace Sitting

def step (x : Sitting R) (c : Thread × Call R) : Sitting R :=
  ⟨left (c.2.perform c.1 x.state), x.ledger.after c.2 x.state (c.2.perform c.1 x.state)⟩

omit [Record R] in
def start (name : String) (spinLimit : Nat) (handles : HandleTable) (connected : Bool) :
    Sitting R := ⟨{ lock := { name, spinLimit }, contents := {}, handles, connected }, {}⟩

def run (x : Sitting R) (calls : List (Thread × Call R)) : Sitting R := calls.foldl step x

/-- The table is sound and free, and readers see what is written down. -/
structure Kept (x : Sitting R) : Prop where
  sound : x.state.contents.Sound
  free : ∀ me, x.state.lock.Open me
  unlent : x.state.lock.lent = false
  shown : ∀ e, x.state.contents.copy.get? e = x.ledger.shown e
  readers : x.state.contents.readers = x.ledger.guards

omit [Record R] in
theorem kept_start (name : String) (spinLimit : Nat) (handles : HandleTable) (connected : Bool) :
    (start name spinLimit handles connected : Sitting R).Kept :=
  ⟨sound_empty, fun _ => .inr ⟨rfl, rfl, rfl⟩, rfl, fun _ => rfl, rfl⟩

namespace Kept

variable {x : Sitting R}

theorem serve_takeSnapshot_eq (h : x.Kept) (me : Thread) : ∃ s,
    serve me .takeSnapshot x.state = .ok (.flag x.ledger.guards.isEmpty) s := by
  obtain ⟨journal, hs⟩ := takeSnapshot_eq (h.free me) h.unlent
  simp only [serve]
  rw [bind_of_ok hs, ← h.readers]
  exact ⟨_, rfl⟩

/-- A table is frozen anew exactly if that is asked for while there is no reader. -/
theorem froze_iff (h : x.Kept) (me : Thread) (c : Call R) :
    c.froze (c.perform me x.state) = true ↔
      c = .request .takeSnapshot ∧ x.state.contents.readers = [] := by
  constructor
  · intro hf
    cases c with
    | sortBy => cases hf
    | request q =>
      cases q with
      | takeSnapshot =>
        obtain ⟨s, hs⟩ := h.serve_takeSnapshot_eq me
        simp only [Call.perform, hs] at hf
        rw [h.readers]
        cases hguards : x.ledger.guards with
        | nil => exact ⟨rfl, rfl⟩
        | cons n ns =>
          rw [hguards] at hf
          cases hf
      | _ => cases hf
  · rintro ⟨rfl, hreaders⟩
    obtain ⟨s, hs⟩ := h.serve_takeSnapshot_eq me
    simp only [Call.perform, hs, ← h.readers, hreaders]
    rfl

/-- What readers see after a call is what is written down. -/
theorem shown_step (h : x.Kept) (c : Thread × Call R) (e : Entity) :
    (c.2.effect x.state.contents).copy.get? e = (x.step c).ledger.shown e := by
  have hcontents := (h.sound.left_perform (h.free c.1) h.unlent c.2).1
  simp only [Sitting.step, Ledger.after, hcontents]
  by_cases hf : c.2.froze (c.2.perform c.1 x.state) = true
  · obtain ⟨hc, hreaders⟩ := (h.froze_iff c.1 c.2).mp hf
    rw [if_pos hf, hc]
    simp only [Call.effect, Request.effect, freeze, hreaders]
    rfl
  · rw [if_neg hf, h.sound.mirrors_effect c.2 (fun hc hreaders => ?_) e, h.shown]
    exact hf ((h.froze_iff c.1 c.2).mpr ⟨hc, hreaders⟩)

theorem guards_step (h : x.Kept) (c : Thread × Call R) :
    (c.2.effect x.state.contents).readers = (x.step c).ledger.guards := by
  rw [Call.readers_effect, h.readers]
  obtain ⟨me, c⟩ := c
  cases c with
  | sortBy => rfl
  | request q =>
    cases q with
    | admitReader =>
      have ha : serve me .admitReader x.state = _ := bind_of_ok (beside_eq openReader (h.free me))
      simp only [Sitting.step, Ledger.after, Call.perform, ha]
      rfl
    | _ => rfl

theorem step (h : x.Kept) (c : Thread × Call R) : (x.step c).Kept := by
  obtain ⟨hcontents, hlock⟩ := h.sound.left_perform (h.free c.1) h.unlent c.2
  have hstate : (x.step c).state = left (c.2.perform c.1 x.state) := rfl
  refine ⟨?_, ?_, ?_, fun e => ?_, ?_⟩
  · rw [hstate, hcontents]
    exact h.sound.call c.2
  · rw [hstate, hlock]
    exact h.free
  · rw [hstate, hlock]
    exact h.unlent
  · rw [hstate, hcontents]
    exact h.shown_step c e
  · rw [hstate, hcontents]
    exact h.guards_step c

theorem run (h : x.Kept) (calls : List (Thread × Call R)) : (x.run calls).Kept := by
  induction calls generalizing x with
  | nil => exact h
  | cons c calls ih => exact ih (h.step c)

end Kept

/-- Readers see the table of the moment of the last copy, without what has left it. -/
structure Mirrored (x : Sitting R) : Prop where
  copy_eq : ∀ e, x.state.contents.copy.get? e = x.ledger.shown e
  rows_sound : x.state.contents.rows.Sound
  copy_sound : x.state.contents.copy.Sound
  has_record : ∀ e, (x.state.contents.copy.get? e).isSome = true →
    (x.state.contents.rows.get? e).isSome = true
  /-- The table is copied exactly if there is no reader. -/
  taken_iff : ∀ me, ∃ s, takeSnapshot me x.state = .ok x.ledger.guards.isEmpty s
  /-- While there are readers, they see no record that they did not see before. -/
  shrinks : x.ledger.guards ≠ [] → ∀ c e r,
    (x.step c).state.contents.copy.get? e = some r → x.state.contents.copy.get? e = some r
  /-- A record leaves if it is destroyed or evicted, and only then. -/
  removes : ∀ c e, (x.state.contents.rows.get? e).isSome = true →
    ((x.step c).state.contents.rows.get? e = none ↔ c.2.Removes e)

/-- Whatever is done with a table, readers see what they should. -/
theorem mirrored_run (name : String) (spinLimit : Nat) (handles : HandleTable) (connected : Bool)
    (calls : List (Thread × Call R)) :
    ((start name spinLimit handles connected).run calls).Mirrored := by
  have h := (kept_start (R := R) name spinLimit handles connected).run calls
  generalize (start name spinLimit handles connected : Sitting R).run calls = x at h
  refine ⟨h.shown, h.sound.rows, h.sound.copy, h.sound.shown, fun me => ?_, ?_, ?_⟩
  · obtain ⟨journal, hs⟩ := takeSnapshot_eq (h.free me) h.unlent
    exact ⟨_, h.readers ▸ hs⟩
  · intro hguards c e r hr
    have hcontents := (h.sound.left_perform (h.free c.1) h.unlent c.2).1
    have hmirrors := h.sound.mirrors_effect c.2 (fun _ => h.readers ▸ hguards) e
    rw [← hcontents] at hmirrors
    have hr' : (left (c.2.perform c.1 x.state)).contents.copy.get? e = some r := hr
    rw [hmirrors] at hr'
    split at hr'
    · cases hr'
    · exact hr'
  · intro c e he
    have hcontents := (h.sound.left_perform (h.free c.1) h.unlent c.2).1
    show (left (c.2.perform c.1 x.state)).contents.rows.get? e = none ↔ _
    rw [hcontents]
    exact ⟨h.sound.removes_of_left he, h.sound.left_of_removes he⟩

end Sitting

end EntityStore.Table
