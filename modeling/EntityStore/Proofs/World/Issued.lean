import EntityStore.Proofs.Issuer.Order
import EntityStore.Proofs.World.Idle
import EntityStore.Proofs.World.Queue
import Mathlib.Algebra.Group.Nat.Defs

/-!
# Who was ever minted

The journal tells who was minted. As long as no index has come back so often that its generation has
come around, nobody is minted twice, who was minted and lives no more never lives again, and who is minted
next is newer than all that were minted with that index before.
-/
namespace EntityStore

open Issuer (Ledger)
open Run (left Upkeep)

variable {K : Type} [Schema K] [DecidableEq K] {w w' w'' : World K} {x e : Entity}

/-- A generation is newer than those before it, if it is among the first half of all. -/
theorem Generation.isNewerThan_of_lt {g h : Generation} (hlt : h.toNat < g.toNat)
    (hg : g.toNat < 2 ^ 31) : g.isNewerThan h = true := by
  rw [isNewerThan_iff_ahead, ahead_eq]
  omega

namespace Issuer.Kept

variable {bits : Nat} {l : Ledger bits} {i j : Ident bits}

/-- The generation that is issued next counts the returns of its index. -/
theorem generation_of_next? (h : Kept l) (hi : l.issuer.next? = some i) :
    i.generation.toNat = l.returned.count i.index + 1 :=
  (h.issued hi).generation_eq ((h.issued hi).traced.current_of_out i List.mem_cons_self)

/-- What is issued next is ahead of all that was issued with its index. -/
theorem lt_of_next? (h : Kept l) (hi : l.issuer.next? = some i) (hj : j ∈ l.handed)
    (hij : j.index = i.index) : j.generation.toNat < i.generation.toNat := by
  have hissued := h.issued hi
  have hcurrent := hissued.traced.current_of_out i List.mem_cons_self
  obtain ⟨g, hg, hle⟩ := hissued.handed_le j (List.mem_cons_of_mem i hj)
  rw [hij] at hg
  obtain rfl := Option.some.inj (hg.symm.trans hcurrent)
  refine lt_of_le_of_ne hle fun heq => h.not_handed_of_next? hi ?_
  have hsame : j.generation = i.generation :=
    congrArg Generation.mk (UInt32.toNat_inj.mp heq)
  exact ident_ext hij hsame ▸ hj

end Issuer.Kept

def Event.minted? {K : Type} [Schema K] : Event K → Option Entity
  | .notice (.minted e _) => some e
  | _ => none

theorem Event.minted?_of_isAside {K : Type} [Schema K] {a : Event K} (h : a.isAside = true) :
    a.minted? = none := by
  cases a with
  | notice n => cases n <;> first | rfl | cases h
  | _ => rfl

namespace World

def issued (w : World K) : List Entity := w.events.toList.filterMap Event.minted?

omit [DecidableEq K] in
theorem Told.issued_eq {es : List (Event K)} (h : Told es w w') :
    w'.issued = w.issued ++ es.filterMap Event.minted? := by
  obtain ⟨new, hnew, rfl⟩ := h
  rw [issued, hnew, Array.toList_append, List.filterMap_append, List.filterMap_filter, issued]
  refine congrArg _ (List.filterMap_congr fun a _ => ?_)
  cases ha : a.isAside with
  | true => simp [Event.minted?_of_isAside ha]
  | false => simp

/-- The account of the identifiers is one of those that were minted. -/
def Tallied (w : World K) : Prop := ∃ l, w.Counted l ∧ l.handed = w.issued.reverse.map (·.ident)

omit [DecidableEq K] in
theorem mem_handed_iff {l : Ledger 32} (h : l.handed = w.issued.reverse.map (·.ident)) :
    x.ident ∈ l.handed ↔ x ∈ w.issued := by
  rw [h, List.mem_map_of_injective fun _ _ => Entity.ident_inj.mp, List.mem_reverse]

namespace Tallied

omit [DecidableEq K]

theorem start (settings : Settings) (plans : List (SystemId × Plan K)) :
    ({ settings, plans } : World K).Tallied :=
  ⟨_, .start settings plans, rfl⟩

/-- Nobody was minted, nobody left, and nothing has changed but what is kept of who lives. -/
theorem congr (h : w.Tallied) (hissued : w'.issued = w.issued)
    (hcounted : ∀ l, w.Counted l → w'.Counted l) : w'.Tallied := by
  obtain ⟨l, hl, hhanded⟩ := h
  exact ⟨l, hcounted l hl, hissued ▸ hhanded⟩

/-- Who is minted next was not minted before. -/
theorem not_issued (h : w.Tallied) (hi : w.roster.arena.issuer.next? = some e.ident) :
    e ∉ w.issued := by
  obtain ⟨l, hl, hhanded⟩ := h
  exact fun he => hl.not_handed hi ((mem_handed_iff hhanded).mpr he)

/-- Nobody was minted twice. -/
theorem nodup (h : w.Tallied) : w.issued.Nodup := by
  obtain ⟨l, hl, hhanded⟩ := h
  have hnodup := hl.kept.handed_nodup
  rw [hhanded] at hnodup
  exact List.nodup_reverse.mp (hnodup.of_map _)

/-- Who is minted next is newer than who was minted with the index before. -/
theorem isNewerThan (h : w.Tallied) (hi : w.roster.arena.issuer.next? = some e.ident)
    (hreturns : w.returns e.ident.index ≤ 2 ^ 31 - 2) (hx : x ∈ w.issued)
    (hindex : Keyed.index x = Keyed.index e) : e.generation.isNewerThan x.generation = true := by
  obtain ⟨l, hl, hhanded⟩ := h
  have hnext : l.issuer.next? = some e.ident := hl.stocked.issuer_eq ▸ hi
  refine Generation.isNewerThan_of_lt (hl.kept.lt_of_next? hnext ((mem_handed_iff hhanded).mpr hx) hindex) ?_
  have hgen := hl.kept.generation_of_next? hnext
  rw [hl.count_eq] at hgen
  show e.ident.generation.toNat < _
  omega

end Tallied

/-- What an operation does to the account of who was minted: nobody comes to live who was minted
before. -/
structure Tallies (w w' : World K) : Prop where
  returns_le : ∀ i, w.returns i ≤ w'.returns i
  issued_le : w.issued <+: w'.issued
  tallied : w'.Unworn → w.Tallied → w'.Tallied ∧ ∀ x ∈ w.issued, w'.isLive x = true → w.isLive x = true

namespace Tallies

omit [DecidableEq K] in
theorem unworn (h : Tallies w w') (hu : w'.Unworn) : w.Unworn := fun i =>
  (h.returns_le i).trans_lt (hu i)

omit [DecidableEq K] in
theorem refl (w : World K) : Tallies w w :=
  ⟨fun _ => le_rfl, List.prefix_rfl, fun _ ht => ⟨ht, fun _ _ => id⟩⟩

omit [DecidableEq K] in
theorem trans (h : Tallies w w') (h' : Tallies w' w'') : Tallies w w'' where
  returns_le i := (h.returns_le i).trans (h'.returns_le i)
  issued_le := h.issued_le.trans h'.issued_le
  tallied hu ht := by
    obtain ⟨ht', hlive⟩ := h.tallied (h'.unworn hu) ht
    obtain ⟨ht'', hlive'⟩ := h'.tallied hu ht'
    exact ⟨ht'', fun x hx hlives => hlive x hx (hlive' x (h.issued_le.subset hx) hlives)⟩

omit [DecidableEq K] in
/-- The same entities live, and nobody was minted and nobody has left. -/
theorem of_told {es : List (Event K)} (htold : Told es w w')
    (hissued : es.filterMap Event.minted? = []) (hreturns : ∀ i, w'.returns i = w.returns i)
    (hcounted : ∀ l, w.Counted l → w'.Counted l) (hlive : ∀ x, w'.isLive x = w.isLive x) :
    Tallies w w' := by
  have heq : w'.issued = w.issued := by rw [htold.issued_eq, hissued, List.append_nil]
  exact ⟨fun i => (hreturns i).ge, heq ▸ List.prefix_rfl, fun _ ht =>
    ⟨ht.congr heq hcounted, fun x _ hx => (hlive x).symm.trans hx⟩⟩

omit [DecidableEq K] in
/-- The arena is as before. -/
theorem of_arena {es : List (Event K)} (htold : Told es w w')
    (hissued : es.filterMap Event.minted? = []) (hreturned : ∀ i, es.countP (Event.returns i) = 0)
    (harena : w'.roster.arena = w.roster.arena) : Tallies w w' := by
  have hreturns : ∀ i, w'.returns i = w.returns i := fun i => by
    rw [htold.returns_eq, hreturned, Nat.add_zero]
  exact of_told htold hissued hreturns (fun l hl => hl.of_arena harena hreturns) fun x => by
    rw [isLive, harena, isLive]

omit [DecidableEq K] in
theorem of_fired {s : Signal} (htold : Told [.notice (.fired s)] w w')
    (harena : w'.roster.arena = w.roster.arena) : Tallies w w' :=
  of_arena htold rfl (fun _ => rfl) harena

theorem minted {info : EntityInfo} {a : ArchetypeId} (hw : w.Fit) (hw' : w'.Fit)
    (hi : w.roster.arena.issuer.next? = some e.ident)
    (h : Turned (w.roster.enrolled e info) [.notice (.minted e a)] w w') : Tallies w w' := by
  have hissued : w'.issued = w.issued ++ [e] := h.told.issued_eq
  refine ⟨fun i => (h.told.returns_eq i).ge, hissued ▸ List.prefix_append _ _, fun _ ht => ?_⟩
  have hnew := ht.not_issued hi
  obtain ⟨l, hl, hhanded⟩ := ht
  refine ⟨⟨_, hl.enrolled hi h, ?_⟩, fun x hx hlives => ?_⟩
  · rw [hissued, List.reverse_append, List.map_append, ← hhanded]
    rfl
  · have hne : x ≠ e := fun hxe => hnew (hxe ▸ hx)
    rw [hw'.isLive_eq, h.info?_of_enrolled hw hi, if_neg hne, ← hw.isLive_eq] at hlives
    exact hlives

theorem razed (hw : w.Fit) (he : w.isLive e = true)
    (h : Razed e [.notice (.destroyed e)] w w') : Tallies w w' := by
  have hissued : w'.issued = w.issued := h.told.issued_eq.trans (List.append_nil _)
  refine ⟨fun i => (Nat.le_add_right _ _).trans_eq (h.told.returns_eq i).symm,
    hissued ▸ List.prefix_rfl, fun hu ht => ⟨?_, fun x _ hlives => ?_⟩⟩
  · obtain ⟨l, hl, hhanded⟩ := ht
    exact ⟨_, hl.razed he h hu, hissued ▸ hhanded⟩
  · rw [h.isLive_eq hw, Bool.and_eq_true] at hlives
    exact hlives.1

theorem upkeep : Upkeep (K := K) (fun _ _ => True) fun _ => Tallies where
  weaken h := h
  trans h h' := h.trans h'
  beside h := of_arena h.told rfl (fun _ => rfl) (by rw [h.roster_eq])
  populated _ := trivial
  fired s _ h _ := of_fired h.told (by rw [h.roster_eq])
  minted hw hw' hi _ h _ := minted hw hw' hi h
  razed hw he h := razed hw he h
  marked hw hw' _ _ h _ := of_told h.told rfl h.told.returns_eq (fun _ hl => hl.marked h)
    (h.isLive_of_marking hw hw')
  ordered _ h _ := of_arena h.told rfl (fun _ => rfl) (by rw [h.roster_eq])
  registered _ := of_arena (.of_eq rfl) rfl (fun _ => rfl) rfl
  tuned _ _ _ := of_arena (.of_eq rfl) rfl (fun _ => rfl) rfl
  adopted {w} s := of_arena (Turned.adopted w s).told rfl (fun _ => rfl) (by rw [adopted_eq])
  switched {w} paused _ := of_fired (Turned.switched w paused).told (by rw [switched_eq])

end Tallies

end World

namespace Run

/-- Whatever a verb does, nobody comes to live by it who was minted before. -/
theorem tallies_verb (hw : w.Fit) (n turns : Nat) (self : Option Entity) (v : Verb K) :
    World.Tallies w (left (perform (runScript n) turns self v w)) :=
  (passes_verb (fun _ : Unit => World.Tallies.upkeep)
    (fun _ hrun _ => World.Tallies.upkeep.keeps_commitDestructions (hrun ()) fun _ _ =>
      .of_arena (.of_eq rfl) rfl (fun _ => rfl) rfl) () hw n turns self v).keeps

end Run

namespace World

theorem Reached.tallied (h : w.Reached) (hu : w.Unworn) : w.Tallied := by
  induction h with
  | start settings plans => exact .start settings plans
  | next h n turns v ih =>
    have htallies := Run.tallies_verb h.atRest.1 n turns none v
    exact (htallies.tallied hu (ih (htallies.unworn hu))).1

theorem Leads.tallies (h : w.Leads w') (hw : w.Reached) : Tallies w w' := by
  induction h with
  | refl => exact .refl w
  | next h n turns v ih => exact ih.trans (Run.tallies_verb (h.reached hw).atRest.1 n turns none v)

/-- Who was minted and lives no more never lives again. -/
theorem Leads.dead (h : w.Leads w') (hw : w.Reached) (hu : w'.Unworn) (hx : x ∈ w.issued)
    (hdead : w.isLive x = false) : w'.isLive x = false := by
  have htallies := h.tallies hw
  have hlive := (htallies.tallied hu (hw.tallied (htallies.unworn hu))).2 x hx
  cases hx' : w'.isLive x with
  | false => rfl
  | true => exact (hlive hx').symm.trans hdead

end World

end EntityStore
