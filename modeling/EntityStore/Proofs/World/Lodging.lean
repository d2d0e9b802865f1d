import EntityStore.Proofs.Table.Departures
import EntityStore.Proofs.World.Raze

/-!
# What the making of an entity does to the rest

An entity that is made has records placed and destroyed. To other entities nothing happens by that,
except that an older one of the same index, whose record stands where one is placed, loses it. The
handles that go are those of the records lost. Nobody comes or goes, and nothing is told.
-/
namespace EntityStore

namespace HandleTable

/-- The handles of which `P` holds are gone, and all others as they were. -/
def Frees (P : HandleId → Prop) (t t' : HandleTable) : Prop :=
  ∀ id, (P id → t'.entry? id = none) ∧ (¬P id → t'.entry? id = t.entry? id)

namespace Frees

variable {P Q : HandleId → Prop} {t t' t'' : HandleTable}

theorem refl (hP : ∀ id, ¬P id) : Frees P t t := fun id => ⟨fun h => absurd h (hP id), fun _ => rfl⟩

theorem congr (h : Frees P t t') (hPQ : ∀ id, Q id ↔ P id) : Frees Q t t' :=
  fun id => ⟨fun hq => (h id).1 ((hPQ id).mp hq), fun hq => (h id).2 fun hp => hq ((hPQ id).mpr hp)⟩

theorem trans (h : Frees P t t') (h' : Frees Q t' t'') : Frees (fun id => P id ∨ Q id) t t'' := by
  intro id
  refine ⟨fun hor => ?_, fun hnot => ?_⟩
  · by_cases hq : Q id
    · exact (h' id).1 hq
    · exact ((h' id).2 hq).trans ((h id).1 (hor.resolve_right hq))
  · obtain ⟨hp, hq⟩ := not_or.mp hnot
    exact ((h' id).2 hq).trans ((h id).2 hp)

theorem of_withoutAll (ht : t.Sound) {ids : List HandleId} (h : t' = t.withoutAll ids)
    (hids : ∀ id, id ∈ ids ↔ P id) : Frees P t t' := by
  intro id
  rw [h, ht.entry?_withoutAll]
  exact ⟨fun hp => if_pos ((hids id).mpr hp), fun hp => if_neg fun hid => hp ((hids id).mp hid)⟩

end Frees

end HandleTable

/-- New contents are nobody's. -/
theorem Bank.Extends.not_lendsOut {b b' : Bank} (h : b.Extends b') (hb : ∀ l, (b.get l).lent = false)
    (l : Nat) : (b'.get l).lent = false := by
  rw [h.lent]
  split
  · exact hb l
  · rfl

theorem Run.broke_bind_pure {σ α β : Type} (op : EStateM Failure σ α) (f : α → β) (s : σ) :
    broke ((op >>= fun a => pure (f a)) s) = broke (op s) := by
  cases hr : op s with
  | ok a t => rw [bind_of_ok hr]; rfl
  | error e t => rw [bind_of_error hr]; rfl

namespace Table

open Guarded

variable {R α : Type} [Record R] {me : Thread} {e : Entity} {op : Op (Table R) α}

/-- Behind whatever lock, the operation concerns an entity: of the records of others it takes at most
the one that has the index. The handles of the records that leave go with them. -/
structure Tends (e : Entity) (op : Op (Table R) α) : Prop where
  settles : ∀ s : Guarded (Table R), s.contents.Sound → s.handles.Sound → s.connected = true →
    Settles Sound lookup s (left (op s))
  others : ∀ s : Guarded (Table R), s.contents.Sound → ∀ x, x ≠ e →
    (left (op s)).contents.rows.get? x = s.contents.rows.get? x ∨
      (Keyed.index x = Keyed.index e ∧ (left (op s)).contents.rows.get? x = none)

omit [Record R] in
/-- Nobody but the entity and an older one of its index is concerned by what is placed for it. -/
theorem Sound.others_populated {t : Table R} (h : t.Sound) (r : R) {x : Entity} (hx : x ≠ e) :
    (t.populated e r).rows.get? x = t.rows.get? x ∨
      (Keyed.index x = Keyed.index e ∧ (t.populated e r).rows.get? x = none) := by
  rw [h.get?_populated]
  have hj := h.judged e
  cases hv : t.verdict e with
  | refuse => exact .inl rfl
  | replace | accept => exact .inl (Function.update_of_ne hx ..)
  | evict o =>
    rw [hv] at hj
    cases hj with
    | evict _ _ hi _ =>
      simp only [Function.update_of_ne hx]
      by_cases hxo : x = o
      · rw [hxo, Function.update_self]
        exact .inr ⟨hi, rfl⟩
      · exact .inl (Function.update_of_ne hxo ..)

theorem Tends.of_left {β : Type} {op' : Op (Table R) β} (h : Tends e op)
    (hleft : ∀ s, left (op' s) = left (op s)) : Tends e op' :=
  ⟨fun s hs hh hc => hleft s ▸ h.settles s hs hh hc, fun s hs => hleft s ▸ h.others s hs⟩

theorem tends_throw (f : Failure) : Tends e (throw f : Op (Table R) α) :=
  ⟨fun _ hs hh _ => .refl hh hs, fun _ _ _ _ => .inl rfl⟩

/-- Whether or not a record that is offered gets a place, what holds of the contents either way holds. -/
theorem contents_left_populate {P : Table R → Prop} {s : Guarded (Table R)} (hs : s.contents.Sound)
    (me : Thread) (r : R) (hp : P s.contents) (hplaced : P (s.contents.populated e r)) :
    P (left (populate me e r s)).contents := by
  cases hvoid : e.isVoid with
  | true =>
    rw [populate_of_void hvoid]
    exact hp
  | false =>
    unfold populate
    rw [hvoid, if_neg Bool.false_ne_true]
    have hcontents : (left (place e r s)).contents = s.contents.populated e r :=
      contents_left_place hs e r
    exact contents_left_within (oblivious_place e r) hp (hcontents ▸ hplaced)

theorem tends_populate (me : Thread) (r : R) : Tends e (populate me e r) :=
  ⟨fun _ hs hh hc => settles_populate hs hh hc e r, fun s hs x hx =>
    contents_left_populate (P := fun t => t.rows.get? x = s.contents.rows.get? x ∨
      (Keyed.index x = Keyed.index e ∧ t.rows.get? x = none)) hs me r (.inl rfl)
      (hs.others_populated r hx)⟩

theorem tends_destroy (me : Thread) : Tends e (destroy me e : Op (Table R) R) := by
  refine ⟨fun s hs hh hc => settles_destroy hs hh hc e, fun s hs x hx => .inl ?_⟩
  refine contents_left_within (P := fun t => t.rows.get? x = s.contents.rows.get? x)
    (oblivious_discharge e) rfl ?_
  rw [contents_left_discharge hs, hs.get?_without, Function.update_of_ne hx]

/-- Whoever has a record keeps one when something is placed for him. -/
theorem isSome_left_populate {s : Guarded (Table R)} (hs : s.contents.Sound) (r : R)
    (he : (s.contents.rows.get? e).isSome = true) :
    ((left (populate me e r s)).contents.rows.get? e).isSome = true := by
  refine contents_left_populate (P := fun t => (t.rows.get? e).isSome = true) hs me r he ?_
  rw [hs.get?_populated]
  cases s.contents.verdict e with
  | refuse => exact he
  | replace | accept | evict => simp

inductive Request.Concerns {E R : Type} (e : E) : Request E R → Prop
  | populate (r : R) : Concerns e (.populate e r)
  | offer (o : Offer R) : Concerns e (.offer e o)
  | destroy : Concerns e (.destroy e)
  | discard : Concerns e (.discard e)

omit [Record R] in
theorem Request.Concerns.mapEntity {E E' : Type} {x : E} {q : Request E R} (hq : q.Concerns x)
    (f : E → E') : (q.mapEntity f).Concerns (f x) := by
  cases hq with
  | populate r => exact .populate r
  | offer o => exact .offer o
  | destroy => exact .destroy
  | discard => exact .discard

section Serve

variable {q : Request Entity R}

omit [Record R] in
theorem Request.Concerns.places?_eq (hq : q.Concerns e) {x : Entity} (hx : q.places? = some x) :
    x = e := by
  cases hq with
  | populate => exact (Option.some.inj hx).symm
  | offer o =>
    cases o with
    | missing | foreign => cases hx
    | record => exact (Option.some.inj hx).symm
  | destroy | discard => cases hx

theorem tends_serve (hq : q.Concerns e) : Tends e (serve me q) := by
  cases hq with
  | populate r => exact (tends_populate me r).of_left fun _ => left_bind_pure ..
  | offer o =>
    have hany : Tends e (populateAny me e o) := by
      cases o with
      | missing | foreign => exact tends_throw _
      | record r => exact (tends_populate me r).of_left fun _ => left_bind_pure ..
    exact hany.of_left fun _ => left_bind_pure ..
  | destroy => exact (tends_destroy me).of_left fun _ => left_bind_pure ..
  | discard => exact (tends_destroy me).of_left fun _ => left_bind_pure ..

theorem broke_populate {s : Guarded (Table R)} (hs : s.contents.Sound) (ho : s.lock.Open me)
    (hlent : s.lock.lent = false) (r : R) : Run.broke (populate me e r s) = false := by
  obtain ⟨-, s', hok, -⟩ | ⟨-, -, s', hok⟩ := hs.populate_cases ho hlent e r <;> rw [hok] <;> rfl

theorem broke_destroy {s : Guarded (Table R)} (hs : s.contents.Sound) (ho : s.lock.Open me)
    (hlent : s.lock.lent = false) : Run.broke (destroy me e s) = false := by
  cases hr : s.contents.rows.get? e with
  | none => rw [destroy_of_none ho hlent hs hr]; rfl
  | some r => rw [destroy_eq ho hlent hs hr]; rfl

/-- A table that can be taken refuses by a fault. -/
theorem broke_serve (hq : q.Concerns e) {s : Guarded (Table R)} (hs : s.contents.Sound)
    (ho : s.lock.Open me) (hlent : s.lock.lent = false) : Run.broke (serve me q s) = false := by
  cases hq with
  | populate r => exact (Run.broke_bind_pure ..).trans (broke_populate hs ho hlent r)
  | offer o =>
    refine (Run.broke_bind_pure ..).trans ?_
    cases o with
    | missing | foreign => rfl
    | record r => exact (Run.broke_bind_pure ..).trans (broke_populate hs ho hlent r)
  | destroy => exact (Run.broke_bind_pure ..).trans (broke_destroy hs ho hlent)
  | discard => exact (Run.broke_bind_pure ..).trans (broke_destroy hs ho hlent)

end Serve

end Table

open Run (left bind_of_ok bind_of_error)
open World (caller)

variable {K α : Type} [Schema K] [DecidableEq K] {w w' w'' : World K} {k : K} {e : Entity}
variable {gone gone' : List ((k : K) × Schema.Row k)} {new new' : List (Creation K)}

namespace World

/-- The record that an entity had in the table of a kind and has no more. -/
def losses (e : Entity) (k : K) (w w' : World K) : List ((k : K) × Schema.Row k) :=
  match w.record? k e, w'.record? k e with
  | some r, none => [⟨k, r⟩]
  | _, _ => []

theorem losses_of_kept (h : (w.record? k e).isSome = true → (w'.record? k e).isSome = true) :
    losses e k w w' = [] := by
  unfold losses
  split
  · next hr hnone =>
    rw [hr, hnone] at h
    cases h rfl
  · rfl

theorem mem_losses {d : (k : K) × Schema.Row k} : d ∈ losses e k w w' ↔
    ∃ r, d = ⟨k, r⟩ ∧ w.record? k e = some r ∧ w'.record? k e = none := by
  unfold losses
  split
  · next r hr hnone => simp [hr, hnone]
  · next hnot =>
    simp only [List.not_mem_nil, false_iff]
    rintro ⟨r, -, hr, hnone⟩
    exact hnot r hr hnone

/-- Empty tables may have come to be, and nothing else has happened. -/
structure Prepared (w w' : World K) : Prop where
  fit : w'.Fit
  locks : w.bank.Extends w'.bank
  roster_eq : w'.roster = w.roster
  observers_eq : w'.observers = w.observers
  archetypes_eq : w'.archetypes = w.archetypes
  components_eq : w'.components = w.components
  handles_eq : w'.handles = w.handles
  aside : Aside w w'
  record?_eq : ∀ k x, w'.record? k x = w.record? k x

namespace Prepared

theorem refl (hw : w.Fit) : Prepared w w :=
  ⟨hw, .refl _, rfl, rfl, rfl, rfl, rfl, .of_eq rfl, fun _ _ => rfl⟩

theorem trans (h : Prepared w w') (h' : Prepared w' w'') : Prepared w w'' where
  fit := h'.fit
  locks := h.locks.trans h'.locks
  roster_eq := h'.roster_eq.trans h.roster_eq
  observers_eq := h'.observers_eq.trans h.observers_eq
  archetypes_eq := h'.archetypes_eq.trans h.archetypes_eq
  components_eq := h'.components_eq.trans h.components_eq
  handles_eq := h'.handles_eq.trans h.handles_eq
  aside := h.aside.trans h'.aside
  record?_eq k x := (h'.record?_eq k x).trans (h.record?_eq k x)

theorem furnished (hw : w.Fit) (hk : w.tables.find? k = none) : Prepared w (w.furnished k) :=
  ⟨hw.furnished hk, Bank.extends_add w.bank rfl, rfl, rfl, rfl, rfl, rfl,
    (beside_furnished (S := fun _ => False) hk).aside, fun j x => record?_furnished hk j x⟩

end Prepared

/-- The table of a kind is found, or it is refused. -/
theorem prepared_of_component (hw : w.Fit) (k : K) :
    (w.components.contains k = false ∧
      Run.component k w = .error (.fault (.componentNotFound (Schema.typeName k))) w) ∨
      ∃ d u, Run.component k w = .ok d u ∧ u.tables.find? k = some d ∧ Prepared w u := by
  cases hd : w.tables.find? k with
  | some d => exact .inr ⟨d, w, Run.component_of_find? hd, hd, .refl hw⟩
  | none =>
    cases hk : w.components.contains k with
    | false => exact .inl ⟨rfl, Run.component_of_unregistered hd hk⟩
    | true => exact .inr ⟨_, _, Run.component_of_registered hd hk, Catalog.find?_push_self hd,
        .furnished hw hd⟩

/-- A handle of a record that was lost: of certain records of the entity, or of the records of others
that are gone. -/
def Owes (e : Entity) (gone : List ((k : K) × Schema.Row k)) (w w' : World K) (id : HandleId) : Prop :=
  (∃ d ∈ gone, id ∈ (Record.owned d.2).ids) ∨ ∃ k x r, x ≠ e ∧ w.record? k x = some r ∧
    w'.record? k x = none ∧ id ∈ (Record.owned r).ids

/-- What the making of an entity has done to a world, when certain records of the entity have been lost
and certain creations queued. -/
structure Lodged (e : Entity) (gone : List ((k : K) × Schema.Row k)) (new : List (Creation K))
    (w w' : World K) : Prop where
  fit : w'.Fit
  locks : w.bank.Extends w'.bank
  arena_eq : w'.roster.arena = w.roster.arena
  destructions_eq : w'.roster.destructions = w.roster.destructions
  creations_eq : w'.roster.creations = w.roster.creations ++ new
  observers_eq : w'.observers = w.observers
  archetypes_eq : w'.archetypes = w.archetypes
  components_eq : w'.components = w.components
  aside : Aside w w'
  /-- Of the records of others at most those are gone whose entities have the index. -/
  others : ∀ k x, x ≠ e → w'.record? k x = w.record? k x ∨
    (Keyed.index x = Keyed.index e ∧ w'.record? k x = none)
  handles : w.handles.Frees (Owes e gone w w') w'.handles

namespace Lodged

/-- The tables are as before, and so is all else that matters. -/
theorem of_tables (hw : w'.Fit) (hlocks : w.bank.Extends w'.bank)
    (harena : w'.roster.arena = w.roster.arena)
    (hdestructions : w'.roster.destructions = w.roster.destructions)
    (hcreations : w'.roster.creations = w.roster.creations ++ new)
    (hobservers : w'.observers = w.observers) (harchetypes : w'.archetypes = w.archetypes)
    (hcomponents : w'.components = w.components) (haside : Aside w w')
    (hrecords : ∀ k x, w'.record? k x = w.record? k x) (hhandles : w'.handles = w.handles) :
    Lodged e [] new w w' := by
  refine ⟨hw, hlocks, harena, hdestructions, hcreations, hobservers, harchetypes, hcomponents, haside,
    fun k x _ => .inl (hrecords k x), hhandles ▸ .refl fun id => ?_⟩
  rintro (⟨d, hd, -⟩ | ⟨k, x, r, -, hr, hnone, -⟩)
  · cases hd
  · rw [hrecords, hr] at hnone
    cases hnone

theorem refl (hw : w.Fit) : Lodged e [] [] w w :=
  .of_tables hw (.refl _) rfl rfl (List.append_nil _).symm rfl rfl rfl (.of_eq rfl) (fun _ _ => rfl) rfl

theorem of_prepared (h : Prepared w w') : Lodged e [] [] w w' :=
  .of_tables h.fit h.locks (by rw [h.roster_eq]) (by rw [h.roster_eq])
    (by rw [h.roster_eq, List.append_nil]) h.observers_eq h.archetypes_eq h.components_eq h.aside
    h.record?_eq h.handles_eq

theorem owes_iff (h : Lodged e gone new w w') (h' : Lodged e gone' new' w' w'') (id : HandleId) :
    Owes e (gone ++ gone') w w'' id ↔ Owes e gone w w' id ∨ Owes e gone' w' w'' id := by
  constructor
  · rintro (⟨d, hd, hid⟩ | ⟨k, x, r, hx, hr, hnone, hid⟩)
    · exact (List.mem_append.mp hd).imp (fun hd => .inl ⟨d, hd, hid⟩) fun hd => .inl ⟨d, hd, hid⟩
    · rcases h.others k x hx with hsame | ⟨-, hgone⟩
      · exact .inr (.inr ⟨k, x, r, hx, hsame.trans hr, hnone, hid⟩)
      · exact .inl (.inr ⟨k, x, r, hx, hr, hgone, hid⟩)
  · rintro ((⟨d, hd, hid⟩ | ⟨k, x, r, hx, hr, hnone, hid⟩) | (⟨d, hd, hid⟩ | ⟨k, x, r, hx, hr, hnone, hid⟩))
    · exact .inl ⟨d, List.mem_append_left _ hd, hid⟩
    · refine .inr ⟨k, x, r, hx, hr, ?_, hid⟩
      exact (h'.others k x hx).elim (fun hsame => hsame.trans hnone) And.right
    · exact .inl ⟨d, List.mem_append_right _ hd, hid⟩
    · refine .inr ⟨k, x, r, hx, ?_, hnone, hid⟩
      rcases h.others k x hx with hsame | ⟨-, hgone⟩
      · exact hsame.symm.trans hr
      · cases hgone.symm.trans hr

theorem trans (h : Lodged e gone new w w') (h' : Lodged e gone' new' w' w'') :
    Lodged e (gone ++ gone') (new ++ new') w w'' where
  fit := h'.fit
  locks := h.locks.trans h'.locks
  arena_eq := h'.arena_eq.trans h.arena_eq
  destructions_eq := h'.destructions_eq.trans h.destructions_eq
  creations_eq := by rw [h'.creations_eq, h.creations_eq, List.append_assoc]
  observers_eq := h'.observers_eq.trans h.observers_eq
  archetypes_eq := h'.archetypes_eq.trans h.archetypes_eq
  components_eq := h'.components_eq.trans h.components_eq
  aside := h.aside.trans h'.aside
  others k x hx := by
    rcases h'.others k x hx with hsame | hgone
    · exact (h.others k x hx).imp hsame.trans fun hgone => ⟨hgone.1, hsame.trans hgone.2⟩
    · exact .inr hgone
  handles := (h.handles.trans h'.handles).congr (h.owes_iff h')

theorem isLive_eq (h : Lodged e gone new w w') (x : Entity) : w'.isLive x = w.isLive x := by
  rw [isLive, h.arena_eq, isLive]

theorem info?_eq (h : Lodged e gone new w w') (x : Entity) : w'.info? x = w.info? x := by
  rw [info?, h.arena_eq, info?]

/-- Records of other indices are as they were. -/
theorem record?_eq (h : Lodged e gone new w w') {x : Entity} (hx : Keyed.index x ≠ Keyed.index e) :
    w'.record? k x = w.record? k x :=
  (h.others k x fun hxe => hx (congrArg Keyed.index hxe)).resolve_right fun hgone => hx hgone.1

/-- It makes no difference which locks are held. -/
theorem withBank {bank bank' : Bank} (h : Lodged e gone new (w.withBank bank) w')
    (hfit : (w'.withBank bank').Fit) (hlocks : w.bank.Extends bank') :
    Lodged e gone new w (w'.withBank bank') where
  fit := hfit
  locks := hlocks
  arena_eq := h.arena_eq
  destructions_eq := h.destructions_eq
  creations_eq := h.creations_eq
  observers_eq := h.observers_eq
  archetypes_eq := h.archetypes_eq
  components_eq := h.components_eq
  aside := by
    have hbank : Aside w (w.withBank bank) := .of_eq rfl
    exact hbank.trans (h.aside.trans (.of_eq rfl))
  others := h.others
  handles := h.handles

/-- Nobody has the contents of a table if nobody had those of one before. -/
theorem not_lendsOut (h : Lodged e gone new w w') (hw : ∀ l, (w.bank.get l).lent = false) (l : Nat) :
    (w'.bank.get l).lent = false := h.locks.not_lendsOut hw l

section Desk

variable {d : Desk (Table (Schema.Row k))} {op : Guarded.Op (Table (Schema.Row k)) α}

/-- What is owed after a table was put back is what the records in it owned that are gone. -/
theorem owes_putBack_iff (g : Guarded (Table (Schema.Row k))) (id : HandleId) :
    Owes e (losses e k w (w.putBack d g)) w (w.putBack d g) id ↔
      ∃ x r, w.record? k x = some r ∧ (w.putBack d g).record? k x = none ∧
        id ∈ (Record.owned r).ids := by
  constructor
  · rintro (⟨d', hd', hid⟩ | ⟨j, x, r, hx, hr, hnone, hid⟩)
    · obtain ⟨r, rfl, hr, hnone⟩ := mem_losses.mp hd'
      exact ⟨e, r, hr, hnone, hid⟩
    · by_cases hj : j = k
      · subst hj
        exact ⟨x, r, hr, hnone, hid⟩
      · rw [record?_putBack_ne hj, hr] at hnone
        cases hnone
  · rintro ⟨x, r, hr, hnone, hid⟩
    by_cases hx : x = e
    · subst hx
      exact .inl ⟨⟨k, r⟩, mem_losses.mpr ⟨r, rfl, hr, hnone⟩, hid⟩
    · exact .inr ⟨k, x, r, hx, hr, hnone, hid⟩

theorem of_putBack (hw : w.Fit) (hd : w.tables.find? k = some d) (hop : Table.Tends e op)
    (hneat : Run.Stocks (· = e) op) :
    Lodged e (losses e k w (w.putBack d (Guarded.left (op (w.atDesk d))))) [] w
      (w.putBack d (Guarded.left (op (w.atDesk d)))) := by
  have hg : w.Stays d (· = e) (Guarded.left (op (w.atDesk d))) :=
    hneat _ (fun _ => .inr) _ (hw.enterable _) ⟨hw.tables k d hd, fun _ => .inl⟩
  have hsettles := hop.settles (w.atDesk d) (hw.tables k d hd) hw.handles rfl
  have hothers := hop.others (w.atDesk d) (hw.tables k d hd)
  generalize Guarded.left (op (w.atDesk d)) = g at hg hsettles hothers
  have hbefore : ∀ x, (w.atDesk d).contents.rows.get? x = w.record? k x := fun x =>
    (record?_of_find? hd x).symm
  have hafter : ∀ x, g.contents.rows.get? x = (w.putBack d g).record? k x := fun x =>
    (record?_putBack hd g x).symm
  simp only [hbefore, hafter] at hothers
  refine ⟨hw.putBack hg, .of_eq (bank_afterDesk hg), rfl, rfl, (List.append_nil _).symm, rfl, rfl, rfl,
    (beside_putBack hd hg).aside, fun j x hx => ?_, ?_⟩
  · by_cases hj : j = k
    · subst hj
      exact hothers x hx
    · exact .inl (record?_putBack_ne hj d g x)
  · refine HandleTable.Frees.congr (fun id => ⟨?_, fun hnot => ?_⟩) (owes_putBack_iff g)
    · rintro ⟨x, r, hr, hnone, hid⟩
      exact hsettles.gone x r ((hbefore x).trans hr) ((hafter x).trans hnone) id hid
    · exact hsettles.kept id fun x r hr hnone hid =>
        hnot ⟨x, r, (hbefore x).symm.trans hr, (hafter x).symm.trans hnone, hid⟩

/-- What is done for an entity with the table of a kind. -/
theorem of_onTable (hw : w.Fit) (hop : Table.Tends e op) (hneat : Run.Stocks (· = e) op) :
    Lodged e (losses e k w (left (Run.onTable k op w))) [] w (left (Run.onTable k op w)) := by
  obtain ⟨-, hc⟩ | ⟨d, u, hc, hd, hu⟩ := prepared_of_component hw k
  · rw [Run.onTable, bind_of_error hc]
    show Lodged e (losses e k w w) [] w w
    rw [losses_of_kept id]
    exact .refl hw
  · rw [Run.onTable, bind_of_ok hc, Run.left_atDesk]
    have hlosses : ∀ v, losses e k u v = losses e k w v := fun v => by
      rw [losses, losses, hu.record?_eq]
    have hstep := of_putBack hu.fit hd hop hneat
    rw [hlosses] at hstep
    exact (Lodged.of_prepared hu).trans hstep

end Desk

end Lodged

end World

namespace Run

variable {op : Guarded.Op (Table (Schema.Row k)) α}

/-- The tables of other kinds are as they were. -/
theorem record?_onTable_ne (hw : w.Fit) {j : K} (hj : j ≠ k) (x : Entity) :
    (left (onTable k op w)).record? j x = w.record? j x := by
  obtain ⟨-, hc⟩ | ⟨d, u, hc, -, hu⟩ := World.prepared_of_component hw k
  · rw [onTable, bind_of_error hc]
    rfl
  · rw [onTable, bind_of_ok hc, left_atDesk]
    exact (World.record?_putBack_ne hj d _ x).trans (hu.record?_eq j x)

theorem isSome_record?_onTable (hw : w.Fit) {x : Entity}
    (hop : ∀ s : Guarded (Table (Schema.Row k)), s.contents.Sound →
      (s.contents.rows.get? x).isSome = true →
      ((Guarded.left (op s)).contents.rows.get? x).isSome = true)
    (hx : (w.record? k x).isSome = true) :
    ((left (onTable k op w)).record? k x).isSome = true := by
  obtain ⟨-, hc⟩ | ⟨d, u, hc, hd, hu⟩ := World.prepared_of_component hw k
  · rw [onTable, bind_of_error hc]
    exact hx
  · rw [onTable, bind_of_ok hc, left_atDesk]
    show ((u.putBack d _).record? k x).isSome = true
    rw [World.record?_putBack hd]
    rw [← hu.record?_eq, World.record?_of_find? hd] at hx
    exact hop (u.atDesk d) (hu.fit.tables k d hd) hx

/-- Contents that nobody has can be taken. -/
theorem broke_onTable (hw : w.Fit) (hlent : ∀ l, (w.bank.get l).lent = false)
    (hop : ∀ s : Guarded (Table (Schema.Row k)), s.contents.Sound → s.lock.Open caller →
      s.lock.lent = false → broke (op s) = false) : broke (onTable k op w) = false := by
  obtain ⟨-, hc⟩ | ⟨d, u, hc, hd, hu⟩ := World.prepared_of_component hw k
  · rw [onTable, bind_of_error hc]
    rfl
  · rw [onTable, bind_of_ok hc]
    have hbroke := hop (u.atDesk d) (hu.fit.tables k d hd) (hu.fit.enterable _)
      (hu.locks.not_lendsOut hlent d.lock)
    cases hr : op (u.atDesk d) with
    | ok a g => rw [atDesk_of_ok hr]; rfl
    | error f g =>
      rw [hr] at hbroke
      rw [atDesk_of_error hr]
      exact hbroke

end Run

end EntityStore
