import EntityStore.Proofs.World.Destroy
import EntityStore.Proofs.World.Queue

/-!
# The course of a life

What the journal tells of an entity: that it was minted, that observers were told of its creation, that
they were told of its destruction, and that it is gone. However operations end, it is minted first, its
creation is told of next if ever, and it is gone last; whether it lives can be read off that. Who has not
been left in the middle by an operation that was broken off has been told of once at most, each way.

All this rests on identifiers not being issued again, on observers that only record, and on nobody
destroying an entity that is still being created.
-/
namespace EntityStore

open Run (Upkeep)

variable {K : Type} [Schema K] [DecidableEq K] {w w' w'' : World K} {x e : Entity}

inductive Stage
  | minted
  /-- Observers are told of its creation. -/
  | created
  /-- Observers are told of its destruction. -/
  | ending
  | gone
  deriving DecidableEq, Repr

namespace Stage

def course (welcomed : Bool) (endings : Nat) (left : Bool) : List Stage :=
  .minted :: ((if welcomed then [.created] else []) ++ .replicate endings .ending ++
    if left then [.gone] else [])

/-- What is told of an entity whose creation and destruction nobody has broken off. -/
inductive Whole : List Stage → Prop
  | unborn : Whole []
  | undone : Whole [.minted, .gone]
  | living : Whole [.minted, .created]
  | destroyed : Whole [.minted, .created, .gone]
  | announced : Whole [.minted, .created, .ending, .gone]

/-- The entity is being created, or it is gone. -/
def Pending (l : List Stage) : Prop := l = [.minted] ∨ .gone ∈ l

/-- The creation was neither told of nor undone, or the destruction was told of more often than it
happened. -/
def BrokenOff (l : List Stage) : Prop :=
  (.minted ∈ l ∧ .created ∉ l ∧ l ≠ [.minted, .gone]) ∨ l.count .gone < l.count .ending

instance (l : List Stage) : Decidable (BrokenOff l) := inferInstanceAs (Decidable (_ ∨ _))

section Course

variable {b g : Bool} {n : Nat}

@[simp] theorem created_mem_course : .created ∈ course b n g ↔ b = true := by
  cases b <;> cases g <;> simp [course, List.mem_replicate]

@[simp] theorem gone_mem_course : .gone ∈ course b n g ↔ g = true := by
  cases b <;> cases g <;> simp [course, List.mem_replicate]

theorem course_append_ending : course b n false ++ [.ending] = course b (n + 1) false := by
  simp [course, List.replicate_succ']

theorem course_append_gone : course b n false ++ [.gone] = course b n true := by
  simp [course]

/-- What has not been broken off is whole. -/
theorem whole_course (h : ¬BrokenOff (course b n g)) : Whole (course b n g) := by
  have hcount : (course b n g).count .gone = g.toNat ∧ (course b n g).count .ending = n := by
    cases b <;> cases g <;> simp [course, List.count_replicate]
  have hle : n ≤ g.toNat := by
    by_contra hlt
    exact h (.inr (by omega))
  cases b with
  | true =>
    cases g with
    | false =>
      obtain rfl : n = 0 := Nat.le_zero.mp hle
      exact .living
    | true =>
      match n, hle with
      | 0, _ => exact .destroyed
      | 1, _ => exact .announced
  | false =>
    have hundone : course false n g = [.minted, .gone] := by
      by_contra hne
      exact h (.inl ⟨List.mem_cons_self, by simp, hne⟩)
    rw [hundone]
    exact .undone

end Course

theorem Whole.eq_of_not_gone {l : List Stage} (h : Whole l) (hl : l ≠ []) (hgone : .gone ∉ l) :
    l = [.minted, .created] := by
  cases h with
  | unborn => exact absurd rfl hl
  | living => rfl
  | undone | destroyed | announced => simp at hgone

end Stage

def Event.stage? {K : Type} [Schema K] (x : Entity) : Event K → Option Stage
  | .notice (.minted e _) => if e = x then some .minted else none
  | .notice (.fired (.entityCreated e)) => if e = x then some .created else none
  | .notice (.fired (.entityDestroyed e)) => if e = x then some .ending else none
  | .notice (.destroyed e) => if e = x then some .gone else none
  | _ => none

theorem Event.stage?_of_isAside {K : Type} [Schema K] {a : Event K} (h : a.isAside = true) :
    a.stage? x = none := by
  cases a with
  | notice n => cases n <;> first | rfl | cases h
  | _ => rfl

theorem Signal.stage?_of_entity? {K : Type} [Schema K] {s : Signal} (h : s.entity? = none) :
    (Event.notice (.fired s) : Event K).stage? x = none := by
  cases s <;> first | rfl | cases h

def Event.gone? {K : Type} [Schema K] : Event K → Option Entity
  | .notice (.destroyed e) => some e
  | _ => none

/-- The entity whose creation has come to its end: it is told of, or it is given up to undo it. -/
def Event.concluded? {K : Type} [Schema K] : Event K → Option Entity
  | .notice (.fired (.entityCreated e)) => some e
  | .notice (.cannotRollBack e _) => some e
  | _ => none

namespace World

/-- What the journal tells of an entity. -/
def life (w : World K) (x : Entity) : List Stage := w.events.toList.filterMap (Event.stage? x)

omit [DecidableEq K] in
theorem Told.life_eq {es : List (Event K)} (h : Told es w w') (x : Entity) :
    w'.life x = w.life x ++ es.filterMap (Event.stage? x) := by
  obtain ⟨new, hnew, rfl⟩ := h
  rw [life, hnew, Array.toList_append, List.filterMap_append, List.filterMap_filter, life]
  refine congrArg _ (List.filterMap_congr fun a _ => ?_)
  cases ha : a.isAside with
  | true => simp [Event.stage?_of_isAside ha]
  | false => simp

omit [DecidableEq K] in
theorem Told.life_eq_of_none {a : Event K} (h : Told [a] w w') (ha : a.stage? x = none) :
    w'.life x = w.life x := by
  rw [h.life_eq, List.filterMap_cons_none ha, List.filterMap_nil, List.append_nil]

omit [DecidableEq K] in
theorem Told.life_eq_of_some {a : Event K} {s : Stage} (h : Told [a] w w')
    (ha : a.stage? x = some s) : w'.life x = w.life x ++ [s] := by
  rw [h.life_eq, List.filterMap_cons_some ha, List.filterMap_nil]

/-- No observer has a script to run. -/
def Recording (w : World K) : Prop := ∀ o ∈ w.observers, ∀ s ∈ o.on, s.2 = []

/-- No entity was destroyed while it was still being created. -/
def Considerate (w : World K) : Prop :=
  w.events.toList.Pairwise fun a b => ∀ e ∈ a.gone?, e ∉ b.concluded?

omit [DecidableEq K] in
instance (w : World K) : Decidable w.Considerate :=
  inferInstanceAs (Decidable (w.events.toList.Pairwise fun a b => ∀ e ∈ a.gone?, e ∉ b.concluded?))

/-- What the course of lives rests on. -/
structure Orderly (w : World K) : Prop where
  unworn : w.Unworn
  recording : w.Recording
  considerate : w.Considerate

omit [DecidableEq K] in
theorem Orderly.onlyRecords (h : w.Orderly) : w.OnlyRecords := fun o ho => .inr (h.recording o ho)

omit [DecidableEq K] in
/-- A creation that has come to its end has not come to it with the entity gone. -/
theorem Considerate.not_gone {a : Event K} {more : Array (Event K)} (h : w'.Considerate)
    (hevents : w'.events = w.events.push a ++ more) (ha : x ∈ a.concluded?) : .gone ∉ w.life x := by
  intro hgone
  rw [Considerate, hevents, Array.toList_append, Array.toList_push, List.pairwise_append,
    List.pairwise_append] at h
  obtain ⟨b, hb, hstage⟩ := List.mem_filterMap.mp hgone
  refine h.1.2.2 b hb a List.mem_cons_self x ?_ ha
  cases b with
  | notice n =>
    cases n with
    | destroyed y =>
      simp only [Event.stage?] at hstage
      split at hstage
      · next hy => exact hy ▸ rfl
      · cases hstage
    | fired s => cases s <;> simp [Event.stage?] at hstage
    | minted y => simp [Event.stage?] at hstage
    | _ => cases hstage
  | _ => cases hstage

/-- The journal has gone on, and the observers have kept their scripts. -/
structure Onward (w w' : World K) : Prop where
  events_prefix : w.events.toList <+: w'.events.toList
  scripts_prefix : w.observers.map (·.on) <+: w'.observers.map (·.on)

namespace Onward

omit [DecidableEq K]

theorem of_calm (h : Calm w w') : Onward w w' := by
  obtain ⟨new, hnew, -⟩ := h.quiet
  exact ⟨⟨new.toList, by rw [hnew, Array.toList_append]⟩, h.scripts_prefix⟩

theorem of_told {es : List (Event K)} (h : Told es w w')
    (ho : w'.observers = w.observers := by rfl) : Onward w w' := by
  obtain ⟨new, hnew, -⟩ := h
  exact ⟨⟨new.toList, by rw [hnew, Array.toList_append]⟩, by rw [ho]⟩

theorem trans (h : Onward w w') (h' : Onward w' w'') : Onward w w'' :=
  ⟨h.events_prefix.trans h'.events_prefix, h.scripts_prefix.trans h'.scripts_prefix⟩

/-- What holds up to some time has held before. -/
theorem orderly (h : Onward w w') (ho : w'.Orderly) : w.Orderly where
  unworn i := (h.events_prefix.sublist.countP_le).trans_lt (ho.unworn i)
  recording o hmem s hs := by
    obtain ⟨o', hmem', hon⟩ := List.mem_map.mp
      (h.scripts_prefix.subset (List.mem_map_of_mem (f := Observer.on) hmem))
    exact ho.recording o' hmem' s (hon ▸ hs)
  considerate := ho.considerate.sublist h.events_prefix.sublist

end Onward

theorem upkeep_onward : Upkeep (K := K) (fun _ _ => True) fun _ => Onward where
  weaken h := h
  trans h h' := h.trans h'
  beside h := .of_calm h.aside.calm
  populated _ := trivial
  fired _ _ _ h := .of_calm h
  minted _ _ _ _ _ h := .of_calm h
  razed _ _ h := .of_calm h.calm
  marked _ _ _ _ _ h := .of_calm h
  ordered _ _ h := .of_calm h
  registered _ := ⟨List.prefix_rfl, List.prefix_rfl⟩
  tuned _ _ _ := ⟨List.prefix_rfl, List.prefix_rfl⟩
  adopted {w} s := .of_told (Turned.adopted w s).told (by rw [adopted_eq])
  switched {w} paused _ := .of_told (Turned.switched w paused).told (by rw [switched_eq])

/-- What is told of an entity is in order, and tells whether it lives. -/
def Lawful (w : World K) (x : Entity) : Prop :=
  (w.life x = [] ∧ w.isLive x = false) ∨
    ∃ b n g, w.life x = Stage.course b n g ∧ w.isLive x = !g

namespace Lawful

omit [DecidableEq K]

theorem of_eq (h : w.Lawful x) (hlife : w'.life x = w.life x) (hlive : w'.isLive x = w.isLive x) :
    w'.Lawful x := by
  rwa [Lawful, hlife, hlive]

/-- An entity lives if it was minted and is not gone. -/
theorem isLive_iff (h : w.Lawful x) : w.isLive x = true ↔ w.life x ≠ [] ∧ .gone ∉ w.life x := by
  obtain ⟨hlife, hlive⟩ | ⟨b, n, g, hlife, hlive⟩ := h
  · simp [hlife, hlive]
  · rw [hlife, hlive, Stage.gone_mem_course]
    cases g <;> simp [Stage.course]

theorem exists_course (h : w.Lawful x) (hlive : w.isLive x = true) :
    ∃ b n, w.life x = Stage.course b n false := by
  obtain ⟨-, hdead⟩ | ⟨b, n, g, hlife, hg⟩ := h
  · simp [hdead] at hlive
  · obtain rfl : g = false := by simpa [hlive] using hg
    exact ⟨b, n, hlife⟩

theorem whole (h : w.Lawful x) (hx : ¬Stage.BrokenOff (w.life x)) : Stage.Whole (w.life x) := by
  obtain ⟨hlife, -⟩ | ⟨b, n, g, hlife, -⟩ := h
  · rw [hlife]
    exact .unborn
  · rw [hlife] at hx ⊢
    exact Stage.whole_course hx

end Lawful

end World

end EntityStore
