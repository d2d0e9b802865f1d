import EntityStore.Proofs.Issuer.Fresh
import EntityStore.Proofs.World.Scripts

/-!
# The queue of destructions

An entity is marked when its destruction is asked for, and so it is asked for once. What is asked for
lines up in the queue, and leaves it from the front: while it is carried out it is in hand, and if it
fails it goes back to where it was. So what is in hand and what is queued stands in the order in which
it was asked for. Only an operation that is broken off drops what it has in hand.

That an entity is not asked for again later rests on its identifier not being issued again.
-/
namespace EntityStore

open Issuer (Ledger Kept)
open Run (Upkeep InHand)

variable {K : Type} [Schema K] [DecidableEq K] {w w' w'' : World K} {e : Entity}

def Event.returns {K : Type} [Schema K] (i : Nat) : Event K → Bool
  | .notice (.destroyed e) => e.ident.index == i
  | _ => false

theorem Event.returns_eq_false {K : Type} [Schema K] {a : Event K} (h : a.isAside = true) :
    a.returns i = false := by
  cases a with
  | notice n => cases n <;> first | rfl | cases h
  | _ => rfl

namespace World

/-- How often an identifier of an index has been taken back. -/
def returns (w : World K) (i : Nat) : Nat := w.events.toList.countP (Event.returns i)

/-- No index has come back so often that its generation has come around. -/
def Unworn (w : World K) : Prop := ∀ i, w.returns i < Issuer.mostReturns

omit [DecidableEq K] in
theorem Told.returns_eq {es : List (Event K)} (h : Told es w w') (i : Nat) :
    w'.returns i = w.returns i + es.countP (Event.returns i) := by
  obtain ⟨new, hnew, rfl⟩ := h
  rw [returns, hnew, Array.toList_append, List.countP_append, List.countP_filter, returns]
  congr 1
  refine List.countP_congr fun a _ => ?_
  cases ha : a.isAside with
  | true => simp [Event.returns_eq_false ha]
  | false => simp

omit [DecidableEq K] in
theorem unworn_of_size (h : w.events.size < Issuer.mostReturns) : w.Unworn :=
  fun _ => List.countP_le_length.trans_lt h

/-- An account of the identifiers of entities, none of which has been issued twice. -/
structure Counted (w : World K) (l : Ledger 32) : Prop where
  stocked : w.roster.arena.Stocked l
  kept : Kept l
  count_eq : ∀ i, l.returned.count i = w.returns i

namespace Counted

variable {l : Ledger 32}

omit [DecidableEq K] in
theorem start (settings : Settings) (plans : List (SystemId × Plan K)) :
    Counted { settings, plans : World K } {} :=
  ⟨.empty, .empty, fun _ => rfl⟩

omit [DecidableEq K] in
/-- The arena is as before, and nothing has been taken back. -/
theorem of_arena (h : w.Counted l) (harena : w'.roster.arena = w.roster.arena)
    (hreturns : ∀ i, w'.returns i = w.returns i) : w'.Counted l :=
  ⟨harena ▸ h.stocked, h.kept, fun i => (h.count_eq i).trans (hreturns i).symm⟩

omit [DecidableEq K] in
/-- An identifier that is issued next has not been issued before. -/
theorem not_handed (h : w.Counted l) (hi : w.roster.arena.issuer.next? = some e.ident) :
    e.ident ∉ l.handed := h.kept.not_handed_of_next? (h.stocked.issuer_eq ▸ hi)

theorem enrolled {info : EntityInfo} {a : ArchetypeId} (h : w.Counted l)
    (hi : w.roster.arena.issuer.next? = some e.ident)
    (hturned : Turned (w.roster.enrolled e info) [.notice (.minted e a)] w w') :
    w'.Counted (l.issued e.ident) := by
  refine ⟨?_, h.kept.issued (h.stocked.issuer_eq ▸ hi), fun i => ?_⟩
  · rw [hturned.roster_eq]
    exact h.stocked.stored hi info
  · exact (h.count_eq i).trans (hturned.told.returns_eq i).symm

theorem razed (h : w.Counted l) (he : w.isLive e = true)
    (hrazed : Razed e [.notice (.destroyed e)] w w') (hu : w'.Unworn) :
    w'.Counted (l.tookBack e.ident) := by
  have hsome := (h.stocked.contains_eq e.ident).symm.trans he
  obtain ⟨info, hinfo⟩ := Option.isSome_iff_exists.mp hsome
  have hout : e.ident ∈ l.out := (h.stocked.out_iff _).mpr hsome
  have hreturns : ∀ i, w'.returns i = w.returns i + if e.ident.index == i then 1 else 0 := fun i => by
    rw [hrazed.told.returns_eq, List.countP_singleton]
    rfl
  refine ⟨?_, h.kept.tookBack hout ?_, fun i => ?_⟩
  · rw [hrazed.roster_eq]
    exact h.stocked.without hinfo
  · have hlt := hu e.ident.index
    rwa [hreturns, if_pos (beq_self_eq_true _), ← h.count_eq] at hlt
  · rw [hreturns, ← h.count_eq]
    exact List.count_cons

theorem marked {notify : Bool} (h : w.Counted l)
    (hturned : Turned (w.roster.marking e notify) [] w w') : w'.Counted l := by
  refine ⟨?_, h.kept, fun i => (h.count_eq i).trans (hturned.told.returns_eq i).symm⟩
  rw [hturned.roster_eq]
  exact h.stocked.modify _ _

end Counted

/-- The destructions asked for, in the order in which they were asked for: every entity once, and among
those that live exactly the marked ones. What is in hand and what is queued stands in this order. -/
structure Asking (held asked : List Destruction) (w : World K) : Prop where
  counted : ∃ l, w.Counted l ∧ ∀ d ∈ asked, d.entity.ident ∈ l.handed
  nodup : (asked.map (·.entity)).Nodup
  lined : (held ++ w.roster.destructions).Sublist asked
  marked_iff : ∀ e info, w.info? e = some info →
    (info.marked = true ↔ e ∈ asked.map (·.entity))

namespace Asking

variable {held held' asked ds : List Destruction} {d : Destruction}

omit [DecidableEq K] in
/-- With another queue, which stands in order as well. -/
theorem relined (h : Asking held asked w) (hlined : (held' ++ ds).Sublist asked) :
    Asking held' asked (w.queued ds) := by
  obtain ⟨l, hl, hhanded⟩ := h.counted
  exact ⟨⟨l, hl.of_arena rfl fun _ => rfl, hhanded⟩, h.nodup, hlined, h.marked_iff⟩

omit [DecidableEq K] in
/-- What is in hand is dropped. -/
theorem drop (h : Asking (held ++ [d]) asked w) : Asking held asked w :=
  ⟨h.counted, h.nodup, ((List.sublist_append_left held [d]).append_right _).trans h.lined,
    h.marked_iff⟩

end Asking

/-- The entity is marked, but neither in hand nor queued. -/
def Forgotten (held : List Destruction) (w : World K) (e : Entity) : Prop :=
  (∃ info, w.info? e = some info ∧ info.marked = true) ∧
    e ∉ (held ++ w.roster.destructions).map (·.entity)

/-- Of the destructions queued before some are left, and behind them stand some of the new ones. -/
def Follows (new q q' : List Destruction) : Prop :=
  ∃ kept fresh, q' = kept ++ fresh ∧ kept.Sublist q ∧ fresh.Sublist new

section Follows

variable {new new' q q' q'' : List Destruction}

theorem Follows.of_sublist (h : q'.Sublist q) : Follows [] q q' :=
  ⟨q', [], (List.append_nil _).symm, h, .slnil⟩

theorem Follows.trans (h : Follows new q q') (h' : Follows new' q' q'') :
    Follows (new ++ new') q q'' := by
  obtain ⟨kept, fresh, rfl, hkept, hfresh⟩ := h
  obtain ⟨kept', fresh', rfl, hkept', hfresh'⟩ := h'
  obtain ⟨old, recent, rfl, hold, hrecent⟩ := List.sublist_append_iff.mp hkept'
  exact ⟨old, recent ++ fresh', List.append_assoc .., hold.trans hkept,
    (hrecent.trans hfresh).append hfresh'⟩

theorem Follows.weaken (h : Follows new q q') (hq : q.Sublist q'') : Follows new q'' q' := by
  obtain ⟨kept, fresh, rfl, hkept, hfresh⟩ := h
  exact ⟨kept, fresh, rfl, hkept.trans hq, hfresh⟩

/-- What was first is put back to the front. -/
theorem Follows.cons (h : Follows new q q') (d : Destruction) : Follows new (d :: q) (d :: q') := by
  obtain ⟨kept, fresh, rfl, hkept, hfresh⟩ := h
  exact ⟨d :: kept, fresh, rfl, hkept.cons_cons d, hfresh⟩

end Follows

/-- What an operation does to the queue while some destructions are in hand: whatever has been asked
for before, some more has been asked for, and nobody more is forgotten unless the operation broke. -/
structure Queues (held : List Destruction) (b : Bool) (w w' : World K) : Prop where
  returns_le : ∀ i, w.returns i ≤ w'.returns i
  asks : ∀ {asked}, w'.Unworn → Asking held asked w → ∃ new, Asking held (asked ++ new) w' ∧
    Follows new w.roster.destructions w'.roster.destructions
  forgets : b = false → ∀ e, Forgotten held w' e → Forgotten held w e

namespace Queues

variable {held asked : List Destruction} {b b' : Bool}

omit [DecidableEq K] in
/-- Nothing has been asked for, and the queue is as before. -/
theorem of_none (hreturns : ∀ i, w.returns i ≤ w'.returns i)
    (hqueue : w'.roster.destructions = w.roster.destructions)
    (hasks : ∀ {asked}, w'.Unworn → Asking held asked w → Asking held asked w')
    (hinfo : ∀ e info, w'.info? e = some info → info.marked = true → w.info? e = some info) :
    Queues held false w w' := by
  refine ⟨hreturns, fun {asked} hu hask => ⟨[], ?_, hqueue ▸ .of_sublist (.refl _)⟩,
    fun _ e => And.imp (Exists.imp fun info h => ⟨hinfo e info h.1 h.2, h.2⟩) ?_⟩
  · rw [List.append_nil]
    exact hasks hu hask
  · rw [hqueue]
    exact id

omit [DecidableEq K] in
/-- The arena and the queue are as before. -/
theorem of_arena (harena : w'.roster.arena = w.roster.arena)
    (hqueue : w'.roster.destructions = w.roster.destructions)
    (hreturns : ∀ i, w'.returns i = w.returns i) : Queues held false w w' := by
  have hinfo : ∀ x, w'.info? x = w.info? x := fun x => by rw [info?, harena, info?]
  refine of_none (fun i => (hreturns i).ge) hqueue (fun _ hask => ?_)
    fun e _ h _ => (hinfo e).symm.trans h
  obtain ⟨l, hl, hhanded⟩ := hask.counted
  refine ⟨⟨l, hl.of_arena harena hreturns, hhanded⟩, hask.nodup, hqueue ▸ hask.lined, ?_⟩
  simpa only [hinfo] using hask.marked_iff

omit [DecidableEq K] in
theorem trans (h : Queues held b w w') (h' : Queues held b' w' w'') :
    Queues held (b || b') w w'' := by
  refine ⟨fun i => (h.returns_le i).trans (h'.returns_le i), fun hu hask => ?_, fun hb e he => ?_⟩
  · obtain ⟨new, hask', hfollows⟩ := h.asks (fun i => (h'.returns_le i).trans_lt (hu i)) hask
    obtain ⟨new', hask'', hfollows'⟩ := h'.asks hu hask'
    refine ⟨new ++ new', ?_, hfollows.trans hfollows'⟩
    rw [← List.append_assoc]
    exact hask''
  · obtain ⟨hb, hb'⟩ := Bool.or_eq_false_iff.mp hb
    exact h.forgets hb e (h'.forgets hb' e he)

theorem enrolled {info : EntityInfo} {a : ArchetypeId} (hw : w.Fit)
    (hi : w.roster.arena.issuer.next? = some e.ident) (hinfo : info.marked = false)
    (h : Turned (w.roster.enrolled e info) [.notice (.minted e a)] w w') : Queues held false w w' := by
  have hqueue : w'.roster.destructions = w.roster.destructions := by rw [h.roster_eq]; rfl
  have hreturns : ∀ i, w'.returns i = w.returns i := h.told.returns_eq
  refine of_none (fun i => (hreturns i).ge) hqueue (fun _ hask => ?_) fun x y hy hmarked => ?_
  · obtain ⟨l, hl, hhanded⟩ := hask.counted
    refine ⟨⟨_, hl.enrolled hi h, fun d hd => List.mem_cons_of_mem _ (hhanded d hd)⟩, hask.nodup,
      hqueue ▸ hask.lined, fun x y hy => ?_⟩
    rw [h.info?_of_enrolled hw hi] at hy
    split at hy
    · next hx =>
      -- who comes now has not been asked for
      cases hy
      simp only [hinfo, Bool.false_eq_true, false_iff, hx]
      intro hmem
      obtain ⟨d, hd, rfl⟩ := List.mem_map.mp hmem
      exact hl.not_handed hi (hhanded d hd)
    · exact hask.marked_iff x y hy
  · rw [h.info?_of_enrolled hw hi] at hy
    split at hy
    · cases hy
      simp [hinfo] at hmarked
    · exact hy

theorem razed (hw : w.Fit) (he : w.isLive e = true)
    (h : Razed e [.notice (.destroyed e)] w w') : Queues held false w w' := by
  have hqueue : w'.roster.destructions = w.roster.destructions := by rw [h.roster_eq]; rfl
  have hinfo : ∀ x y, w'.info? x = some y → w.info? x = some y := fun x y hy => by
    rw [h.info?_eq hw] at hy
    split at hy
    · cases hy
    · exact hy
  refine of_none (fun i => (Nat.le_add_right _ _).trans_eq (h.told.returns_eq i).symm) hqueue
    (fun hu hask => ?_) fun x y hy _ => hinfo x y hy
  obtain ⟨l, hl, hhanded⟩ := hask.counted
  exact ⟨⟨_, hl.razed he h hu, hhanded⟩, hask.nodup, hqueue ▸ hask.lined, fun x y hy =>
    hask.marked_iff x y (hinfo x y hy)⟩

theorem marked {info : EntityInfo} {notify : Bool} (hw : w.Fit) (hinfo : w.info? e = some info)
    (hunmarked : info.marked = false) (h : Turned (w.roster.marking e notify) [] w w') :
    Queues held false w w' := by
  have hqueue : w'.roster.destructions = w.roster.destructions ++ [⟨e, notify⟩] := by
    rw [h.roster_eq]
    rfl
  refine ⟨fun i => (h.told.returns_eq i).ge, fun {asked} _ hask => ⟨[⟨e, notify⟩], ?_,
    _, _, hqueue, .refl _, .refl _⟩, fun _ x hx => ?_⟩
  · obtain ⟨l, hl, hhanded⟩ := hask.counted
    have hnew : e ∉ asked.map (·.entity) := fun hmem => by
      simp [(hask.marked_iff e info hinfo).mpr hmem] at hunmarked
    have hout : e.ident ∈ l.out := (hl.stocked.out_iff _).mpr (by
      rw [show w.roster.arena.get? e.ident = some info from hinfo]
      rfl)
    refine ⟨⟨l, hl.marked h, fun d hd => ?_⟩, ?_, ?_, fun x y hy => ?_⟩
    · rcases List.mem_append.mp hd with hd | hd
      · exact hhanded d hd
      · rw [List.mem_singleton.mp hd]
        exact hl.kept.handed_of_out _ hout
    · rw [List.map_append, List.map_singleton]
      exact hask.nodup.append (List.nodup_singleton _) (by simpa using hnew)
    · rw [hqueue, ← List.append_assoc]
      exact hask.lined.append (.refl _)
    · rw [h.info?_of_marking hw] at hy
      rw [List.map_append, List.mem_append, List.map_singleton, List.mem_singleton]
      split at hy
      · next hx =>
        obtain ⟨y', -, rfl⟩ := Option.map_eq_some_iff.mp hy
        simp [hx]
      · next hx => simp [hask.marked_iff x y hy, hx]
  · -- who is marked now is queued now
    obtain ⟨⟨y, hy, hm⟩, hout⟩ := hx
    rw [hqueue, ← List.append_assoc, List.map_append, List.mem_append, not_or] at hout
    have hxe : x ≠ e := by simpa using hout.2
    rw [h.info?_of_marking hw, if_neg hxe] at hy
    exact ⟨⟨y, hy, hm⟩, hout.1⟩

theorem upkeep (held : List Destruction) :
    Upkeep (K := K) (fun _ _ => True) (Queues held) where
  weaken h := ⟨h.returns_le, h.asks, fun hb => by cases hb⟩
  trans h h' := h.trans h'
  beside h := of_arena (by rw [h.roster_eq]) (by rw [h.roster_eq]) h.told.returns_eq
  populated _ := trivial
  fired s _ h _ := of_arena (by rw [h.roster_eq]) (by rw [h.roster_eq]) h.told.returns_eq
  minted hw _ hi hinfo h _ := enrolled hw hi hinfo h
  razed hw he h := razed hw he h
  marked hw _ hinfo hunmarked h _ := marked hw hinfo hunmarked h
  ordered cs h _ := of_arena (by rw [h.roster_eq]) (by rw [h.roster_eq]) h.told.returns_eq
  registered _ := of_arena rfl rfl fun _ => rfl
  tuned _ _ _ := of_arena rfl rfl fun _ => rfl
  adopted {w} s :=
    of_arena (by rw [adopted_eq]) (by rw [adopted_eq]) (Turned.adopted w s).told.returns_eq
  switched {w} paused _ :=
    of_arena (by rw [switched_eq]) (by rw [switched_eq]) (Turned.switched w paused).told.returns_eq

section InHand

variable {d : Destruction} {ds : List Destruction}

omit [DecidableEq K] in
/-- What has been asked for while the first of the queue was in hand. -/
theorem asks_taken (hd : w.roster.destructions = d :: ds)
    (h : Queues (held ++ [d]) b (w.queued ds) w') (hu : w'.Unworn) (hask : Asking held asked w) :
    ∃ new, Asking (held ++ [d]) (asked ++ new) w' ∧ Follows new ds w'.roster.destructions := by
  refine h.asks hu (hask.relined ?_)
  simpa [hd] using hask.lined

omit [DecidableEq K] in
/-- Who was not forgotten while the first of the queue was in hand was not before. -/
theorem forgets_taken (hd : w.roster.destructions = d :: ds)
    (h : Queues (held ++ [d]) false (w.queued ds) w') (hf : Forgotten (held ++ [d]) w' e) :
    Forgotten held w e := by
  obtain ⟨hinfo, hout⟩ := h.forgets rfl e hf
  refine ⟨hinfo, ?_⟩
  have hlist : held ++ [d] ++ (w.queued ds).roster.destructions = held ++ w.roster.destructions := by
    rw [hd, List.append_assoc]
    rfl
  rwa [hlist] at hout

omit [DecidableEq K] in
/-- While a destruction is carried out it is in hand. -/
theorem inHand : InHand (Queues (K := K)) fun held d => held ++ [d] where
  skipped {held w d ds} hd hdead := by
    refine ⟨fun _ => Nat.le_refl _, fun {asked} _ hask => ⟨[], ?_, ?_⟩, fun _ e hf => ?_⟩
    · have hlined := hask.lined
      rw [hd] at hlined
      rw [List.append_nil]
      exact hask.relined (((List.sublist_cons_self d ds).append_left held).trans hlined)
    · rw [hd]
      exact .of_sublist (List.sublist_cons_self d ds)
    · obtain ⟨⟨info, hinfo, hm⟩, hout⟩ := hf
      have hne : e ≠ d.entity := fun he => by
        cases ((he ▸ hdead : w.info? e = none).symm.trans hinfo)
      have hout' : e ∉ (held ++ ds).map (·.entity) := hout
      exact ⟨⟨info, hinfo, hm⟩, by simpa [hd, hne] using hout'⟩
  done {held w w' d ds} hd h hdead := by
    refine ⟨h.returns_le, fun hu hask => ?_, fun _ e hf => forgets_taken hd h ?_⟩
    · obtain ⟨new, hask', hfollows⟩ := asks_taken hd h hu hask
      exact ⟨new, hask'.drop, hd ▸ hfollows.weaken (List.sublist_cons_self d ds)⟩
    · obtain ⟨⟨info, hinfo, hm⟩, hout⟩ := hf
      have hne : e ≠ d.entity := fun he => by
        cases ((he ▸ hdead : w'.info? e = none).symm.trans hinfo)
      exact ⟨⟨info, hinfo, hm⟩, by simpa [hne] using hout⟩
  back {held w w' d ds} hd h := by
    have hlist : held ++ d :: w'.roster.destructions = held ++ [d] ++ w'.roster.destructions := by
      simp
    refine ⟨h.returns_le, fun hu hask => ?_, fun _ e hf => forgets_taken hd h ⟨hf.1, hlist ▸ hf.2⟩⟩
    obtain ⟨new, hask', hfollows⟩ := asks_taken hd h hu hask
    exact ⟨new, hask'.relined (hlist ▸ hask'.lined), hd ▸ hfollows.cons d⟩
  lost {held w w' d ds} hd h := by
    refine ⟨h.returns_le, fun hu hask => ?_, fun hb => by cases hb⟩
    obtain ⟨new, hask', hfollows⟩ := asks_taken hd h hu hask
    exact ⟨new, hask'.drop, hd ▸ hfollows.weaken (List.sublist_cons_self d ds)⟩

end InHand

end Queues

end World

end EntityStore
