import EntityStore.Proofs.World.Settling
import EntityStore.Proofs.World.Signals
import EntityStore.Proofs.World.Undoing

/-!
# Creating an entity

An entity that is created starts with the default records of its archetype, whatever stands in the
tables: at its index there can be records of older entities only, as long as records are placed only for
who was minted and no index has come back too often. Those make room where a default record is placed,
and are left alone in other tables.
-/
namespace EntityStore

open Run (left bind_of_ok bind_of_error ok_of_bind)
open World (caller Lodged)

variable {K : Type} [Schema K] [DecidableEq K] {w w' m u : World K} {x e : Entity} {k : K}
variable {id : ArchetypeId} {ds : List ((k : K) × Schema.Row k)}

/-- Of the defaults of a kind the last one given is the one there is. -/
theorem Archetype.lookup_ofList (name : String) (ds : List ((k : K) × Schema.Row k)) (k : K) :
    Catalog.lookup k (ofList name ds).defaults.reverse = Catalog.lookup k ds.reverse := by
  induction ds using List.reverseRecOn with
  | nil => rfl
  | append_singleton ds d ih =>
    have hlast : (ofList name (ds ++ [d])).defaults =
        (ofList name ds).defaults.filter (·.1 ≠ d.1) ++ [d] := List.foldl_append ..
    rw [hlast, List.reverse_append, List.reverse_append, List.reverse_singleton,
      List.singleton_append, List.singleton_append, ← List.filter_reverse]
    by_cases hd : d.1 = k
    · subst hd
      exact (Catalog.lookup_cons_self ..).trans (Catalog.lookup_cons_self ..).symm
    · rw [Catalog.lookup_cons_ne hd, Catalog.lookup_cons_ne hd, Catalog.lookup_filter_ne hd, ih]

namespace World

/-- Whoever else has a record at the index of an entity is older. -/
def Newest (w : World K) (e : Entity) : Prop := ∀ k x, (w.record? k x).isSome = true → x ≠ e →
  Keyed.index x = Keyed.index e → e.generation.isNewerThan x.generation = true

theorem Newest.lodged {gone : List ((k : K) × Schema.Row k)} {new : List (Creation K)}
    (h : w.Newest e) (hl : Lodged e gone new w w') : w'.Newest e := by
  intro k x hx hne
  rcases hl.others k x hne with hsame | ⟨-, hnone⟩
  · exact h k x (hsame ▸ hx) hne
  · rw [hnone] at hx
    cases hx

/-- Only who was minted has records. -/
def Genuine (w : World K) : Prop := ∀ k x, (w.record? k x).isSome = true → x ∈ w.issued

/-- Of all entities of an index one at most has a record of a kind. -/
theorem Fit.record?_unique (hw : w.Fit) {r r' : Schema.Row k} (hx : w.record? k x = some r)
    (he : w.record? k e = some r') (hindex : Keyed.index x = Keyed.index e) : x = e := by
  obtain ⟨d, hd, hx⟩ := Option.bind_eq_some_iff.mp hx
  rw [record?_of_find? hd] at he
  have hsound := (hw.tables k d hd).rows
  have hcell := (Packed.get?_eq_some_iff hsound).mp hx
  rw [hindex, (Packed.get?_eq_some_iff hsound).mp he] at hcell
  cases hcell
  rfl

end World

namespace Run

/-- What comes after is the same if it follows on the same. -/
theorem bind_congr {σ α β : Type} {op op' : EStateM Failure σ α} {f : α → EStateM Failure σ β}
    {s t : σ} (h : op s = op' t) : (op >>= f) s = (op' >>= f) t := by
  show EStateM.bind op f s = EStateM.bind op' f t
  rw [EStateM.bind, EStateM.bind, h]

section Furnish

variable (hlent : ∀ l, (w.bank.get l).lent = false) (hvoid : e.isVoid = false)
include hlent hvoid

/-- A record is placed for who is newest. -/
theorem onTable_populate_of_newest (hw : w.Fit) (hnew : w.Newest e)
    (hk : w.components.contains k = true) (r : Schema.Row k) :
    ∃ a u, onTable k (Table.populate caller e r) w = .ok a u := by
  obtain ⟨hunknown, -⟩ | ⟨d, u, hc, hd, hu⟩ := World.prepared_of_component hw k
  · cases hk.symm.trans hunknown
  · have hsound := hu.fit.tables k d hd
    have hverdict : ∀ o, d.contents.verdict e ≠ .refuse o := by
      intro o hv
      have hj := hsound.judged e
      rw [hv] at hj
      cases hj with
      | refuse hnone ho hindex hnot =>
        have hne : o ≠ e := fun hoe => by
          rw [hoe, hnone] at ho
          cases ho
        rw [← World.record?_of_find? hd, hu.record?_eq] at ho
        rw [hnew k o (ho ▸ rfl) hne hindex] at hnot
        cases hnot
    obtain ⟨hvoid' | ⟨o, ho⟩, -⟩ | ⟨-, -, g, hok⟩ := Table.Sound.populate_cases (s := u.atDesk d)
      hsound (hu.fit.enterable _) (hu.locks.not_lendsOut hlent d.lock) e r
    · cases hvoid.symm.trans hvoid'
    · exact absurd ho (hverdict o)
    · rw [onTable, bind_of_ok hc]
      exact ⟨_, _, atDesk_of_ok hok⟩

/-- Who is newest is given all default records, if the kinds of all of them are registered. -/
theorem furnishEntity_of_newest (hw : w.Fit) (hnew : w.Newest e)
    (hregistered : ∀ d ∈ ds, w.components.contains d.1 = true) :
    ∃ u, furnishEntity e ds w = .ok () u := by
  induction ds generalizing w with
  | nil => exact ⟨w, rfl⟩
  | cons d ds ih =>
    obtain ⟨a, v, hplace⟩ := onTable_populate_of_newest hlent hvoid hw hnew
      (hregistered d List.mem_cons_self) d.2
    have hplaced : Lodges e [] [] w (onTable d.1 (Table.populate caller e d.2) w) :=
      lodges_place hw d.2
    rw [hplace] at hplaced
    have hlodged : Lodged e [] [] w v := hplaced.lodged
    obtain ⟨u, hrest⟩ := ih (hlodged.not_lendsOut hlent) hlodged.fit (hnew.lodged hlodged) fun d' hd' =>
      (congrArg (·.contains d'.1) hlodged.components_eq).trans
        (hregistered d' (List.mem_cons_of_mem d hd'))
    exact ⟨u, (bind_of_ok hplace).trans hrest⟩

omit hlent hvoid

theorem lodged_of_furnishEntity (hw : w.Fit) (h : furnishEntity e ds w = .ok () u) :
    Lodged e [] [] w u := by
  have hfurnish := lodges_furnishEntity (e := e) hw ds
  rw [h] at hfurnish
  exact hfurnish.lodged

/-- Of each kind the last default record is there, or else what was there before. -/
theorem record?_furnishEntity (hw : w.Fit) (h : furnishEntity e ds w = .ok () u) (k : K) :
    u.record? k e = (Catalog.lookup k ds.reverse).or (w.record? k e) := by
  induction ds generalizing w with
  | nil =>
    cases h
    rfl
  | cons d ds ih =>
    obtain ⟨a, v, hplace, hrest⟩ := ok_of_bind h
    obtain ⟨hv, hplaced, hothers⟩ := record?_of_populate hw hplace
    rw [ih hv hrest, List.reverse_cons, Catalog.lookup_append, Option.or_assoc]
    by_cases hd : d.1 = k
    · subst hd
      rw [hplaced, Catalog.lookup_cons_self, Option.some_or]
    · rw [hothers k (Ne.symm hd), Catalog.lookup_cons_ne hd]
      rfl

/-- Tables of other kinds are as they were. -/
theorem record?_furnishEntity_ne (hw : w.Fit) (hk : k ∉ ds.map (·.1)) (x : Entity) :
    (left (furnishEntity e ds w)).record? k x = w.record? k x := by
  induction ds generalizing w with
  | nil => rfl
  | cons d ds ih =>
    rw [List.map_cons, List.mem_cons, not_or] at hk
    have hplaced : (left (onTable d.1 (Table.populate caller e d.2) w)).record? k x = w.record? k x :=
      record?_onTable_ne hw hk.1 x
    have hfit := (lodges_place (e := e) hw d.2).fit
    rw [furnishEntity]
    cases hr : onTable d.1 (Table.populate caller e d.2) w with
    | ok a v =>
      rw [hr] at hplaced hfit
      rw [bind_of_ok hr]
      exact (ih hfit hk.2).trans hplaced
    | error f v =>
      rw [hr] at hplaced
      rw [bind_of_error hr]
      exact hplaced

end Furnish

end Run

namespace World

variable {a : Archetype K}

omit [DecidableEq K] in
/-- Who is minted next is nobody's stand-in. -/
theorem Tallied.isVoid_eq (h : w.Tallied) (hi : w.roster.arena.issuer.next? = some e.ident) :
    e.isVoid = false := by
  obtain ⟨l, hl, -⟩ := h
  have hgen := hl.kept.generation_of_next? (hl.stocked.issuer_eq ▸ hi)
  refine decide_eq_false fun hvoid => ?_
  rw [hvoid] at hgen
  exact Nat.succ_ne_zero _ hgen.symm

/-- An entity has come with the default records of its archetype, and with no others. -/
structure Welcomed (id : ArchetypeId) (a : Archetype K) (e : Entity) (w u : World K) : Prop where
  unborn : e ∉ w.issued
  issued_eq : u.issued = w.issued ++ [e]
  info?_eq : ∀ x, u.info? x = if x = e then some (w.newcomer id) else w.info? x
  /-- Of each kind it has the last default record. -/
  record?_self : ∀ k, u.record? k e = Catalog.lookup k a.defaults.reverse
  /-- Others have lost the records for which those were placed. -/
  record?_eq : ∀ k x, x ≠ e → u.record? k x =
    if Keyed.index x = Keyed.index e ∧ k ∈ a.defaults.map (·.1) then none else w.record? k x
  handles : w.handles.Frees (fun i => ∃ k x r, Keyed.index x = Keyed.index e ∧
    k ∈ a.defaults.map (·.1) ∧ w.record? k x = some r ∧ i ∈ (Record.owned r).ids) u.handles

/-- That observers who only record are told makes no difference. -/
theorem Welcomed.fired {s : Signal} (h : Welcomed id a e w m)
    (hwritten : Written [.notice (.fired s)] m u) : Welcomed id a e w u := by
  have hissued : u.issued = m.issued := hwritten.told.issued_eq.trans (List.append_nil _)
  obtain ⟨hunborn, hissued', hinfo, hself, hrecords, hhandles⟩ := h
  rw [hwritten.eq] at hissued ⊢
  exact ⟨hunborn, hissued.trans hissued', hinfo, hself, hrecords, hhandles⟩

section Create

variable (hw : w.Fit) (ht : w.Tallied) (hgenuine : w.Genuine)
variable (hi : w.roster.arena.issuer.next? = some e.ident)
include hw ht hgenuine hi

omit hw in
/-- Nobody who has yet to be minted has a record. -/
theorem Genuine.record?_of_next? (k : K) : w.record? k e = none := by
  by_contra hsome
  exact ht.not_issued hi (hgenuine k e (Option.isSome_iff_ne_none.mpr hsome))

section Furnished

variable (hm : Run.furnishEntity e a.defaults (w.minted id e) = .ok () m)
include hm

/-- An entity that has just been minted has its default records when it is furnished with them. -/
theorem record?_self_of_furnished (k : K) :
    m.record? k e = Catalog.lookup k a.defaults.reverse := by
  rw [Run.record?_furnishEntity (hw.minted id hi) hm, (w.turned_minted id e).record?_eq,
    hgenuine.record?_of_next? ht hi, Option.or_none]

/-- Where it has a default record, it has taken the place. Elsewhere nothing has happened to others. -/
theorem record?_eq_of_furnished (k : K) (hx : x ≠ e) : m.record? k x =
    if Keyed.index x = Keyed.index e ∧ k ∈ a.defaults.map (·.1) then none else w.record? k x := by
  have hfit := hw.minted id hi
  have hlodged : Lodged e [] [] (w.minted id e) m := Run.lodged_of_furnishEntity hfit hm
  split
  · next hmade =>
    by_contra hsome
    obtain ⟨r, hr⟩ := Option.ne_none_iff_exists'.mp hsome
    have hplaced : Catalog.lookup k a.defaults.reverse ≠ none := fun hnone =>
      Catalog.lookup_eq_none_iff.mp hnone (by simpa using hmade.2)
    obtain ⟨r', hr'⟩ := Option.ne_none_iff_exists'.mp hplaced
    have hself := record?_self_of_furnished hw ht hgenuine hi hm k
    exact hx (hlodged.fit.record?_unique hr (hself.trans hr') hmade.1)
  · next hleft =>
    rw [← (w.turned_minted id e).record?_eq]
    by_cases hk : k ∈ a.defaults.map (·.1)
    · exact hlodged.record?_eq fun hindex => hleft ⟨hindex, hk⟩
    · have hsame := Run.record?_furnishEntity_ne (e := e) hfit hk x
      rwa [hm] at hsame

/-- Just the handles of the records are gone whose place was taken. -/
theorem frees_of_furnished : w.handles.Frees (fun i => ∃ k x r, Keyed.index x = Keyed.index e ∧
    k ∈ a.defaults.map (·.1) ∧ w.record? k x = some r ∧ i ∈ (Record.owned r).ids) m.handles := by
  have hturned := w.turned_minted id e
  have hlodged : Lodged e [] [] (w.minted id e) m := Run.lodged_of_furnishEntity (hw.minted id hi) hm
  refine hlodged.handles.congr fun i => ⟨?_, ?_⟩
  · rintro ⟨k, x, r, hindex, hk, hr, hid⟩
    have hx : x ≠ e := fun hxe => by
      rw [hxe, hgenuine.record?_of_next? ht hi] at hr
      cases hr
    refine .inr ⟨k, x, r, hx, (hturned.record?_eq k x).trans hr, ?_, hid⟩
    rw [record?_eq_of_furnished hw ht hgenuine hi hm k hx, if_pos ⟨hindex, hk⟩]
  · rintro (⟨d, hd, -⟩ | ⟨k, x, r, hx, hr, hnone, hid⟩)
    · cases hd
    · rw [hturned.record?_eq] at hr
      rw [record?_eq_of_furnished hw ht hgenuine hi hm k hx] at hnone
      split at hnone
      · next hmade => exact ⟨k, x, r, hmade.1, hmade.2, hr, hid⟩
      · rw [hr] at hnone
        cases hnone

/-- Furnished with its default records, an entity that has just been minted is welcome. -/
theorem welcomed_of_furnished : Welcomed id a e w m := by
  have hturned := w.turned_minted id e
  have hlodged : Lodged e [] [] (w.minted id e) m := Run.lodged_of_furnishEntity (hw.minted id hi) hm
  have hissue : m.issued = w.issued ++ [e] := (hturned.told.trans hlodged.aside.told).issued_eq
  refine ⟨ht.not_issued hi, hissue, fun x => ?_, record?_self_of_furnished hw ht hgenuine hi hm,
    fun k x => record?_eq_of_furnished hw ht hgenuine hi hm k,
    frees_of_furnished hw ht hgenuine hi hm⟩
  rw [hlodged.info?_eq, hturned.info?_of_enrolled hw hi]

end Furnished

end Create

/-- In every world that verbs have led to, if records were placed only for who was minted and no index
has come back too often, an entity of an archetype all of whose kinds are registered is created, unless
the identifiers are used up: nobody was ever minted as it; when observers are told of it, it has just the
last default record of each kind, and of all other records and handles just those records are gone that
stood at its index where a default record was placed, and the handles that they owned. If observers only
record, this is what is left. -/
theorem newcomers_welcomed {a : Archetype K} (hw : w.Reached) (hgenuine : w.Genuine)
    (hreturns : ∀ i, w.returns i ≤ 2 ^ 31 - 2) (ha : w.archetypes.find? id = some a)
    (hregistered : ∀ d ∈ a.defaults, w.components.contains d.1 = true)
    (hi : w.roster.arena.issuer.next? = some e.ident) (n : Nat) :
    ∃ m, Welcomed id a e w m ∧
      Run.create (Run.runScript (n + 1)) id [] w =
        (do Run.fire (Run.runScript (n + 1)) (.entityCreated e); return e : Run K Entity) m ∧
      (w.OnlyRecords →
        ∃ u, Run.create (Run.runScript (n + 1)) id [] w = .ok e u ∧ Welcomed id a e w u) ∧
      ∀ name ds, a = .ofList name ds → ∀ k, m.record? k e = Catalog.lookup k ds.reverse := by
  obtain ⟨hfit, hlent⟩ := hw.atRest
  have hunworn : w.Unworn := fun i => (hreturns i).trans_lt (by decide)
  have ht := hw.tallied hunworn
  have hnew : (w.minted id e).Newest e := fun k x hx hne hindex => by
    rw [(w.turned_minted id e).record?_eq] at hx
    exact ht.isNewerThan hi (hreturns _) (hgenuine k x hx) hindex
  obtain ⟨m, hm⟩ := Run.furnishEntity_of_newest (w := w.minted id e) hlent (ht.isVoid_eq hi)
    (hfit.minted id hi) hnew hregistered
  have hwelcomed : Welcomed id a e w m := welcomed_of_furnished hfit ht hgenuine hi hm
  have hpopulate : Run.populate (Run.runScript (n + 1)) a e [] (w.minted id e) = .ok () m := by
    rw [Run.populate, bind_of_ok hm]
    rfl
  have hcreate : Run.create (Run.runScript (n + 1)) id [] w =
      (do Run.fire (Run.runScript (n + 1)) (.entityCreated e); return e : Run K Entity) m := by
    rw [Run.create_of_next? hfit ha hi]
    exact Run.bind_congr (Run.conclude_of_ok hpopulate)
  refine ⟨m, hwelcomed, hcreate, fun ho => ?_, ?_⟩
  · have hobservers : m.observers = w.observers :=
      (Run.lodged_of_furnishEntity (hfit.minted id hi) hm).observers_eq
    have hrecords : m.OnlyRecords := fun o hmem => ho o (hobservers ▸ hmem)
    exact ⟨_, hcreate.trans (bind_of_ok (Run.fire_of_onlyRecords hrecords _)),
      hwelcomed.fired (m.written_fired rfl)⟩
  · rintro name ds rfl k
    rw [hwelcomed.record?_self, Archetype.lookup_ofList]

/-- What genuine worlds can be told by. -/
theorem genuine_of_rows (hw : w.Fit) (h : (w.tables.entries.all fun t =>
    t.2.contents.rows.rows.all fun row => decide (row.1 ∈ w.issued)) = true) : w.Genuine := by
  intro k x hx
  obtain ⟨r, hr⟩ := Option.isSome_iff_exists.mp hx
  obtain ⟨d, hd, hx⟩ := Option.bind_eq_some_iff.mp hr
  obtain ⟨slot, hrow, -⟩ := (hw.tables k d hd).rows.exists_row hx
  have hall := List.all_eq_true.mp h _ (Catalog.mem_entries_of_find? hd)
  exact of_decide_eq_true (Array.all_eq_true'.mp hall _ (Array.mem_of_getElem? hrow))

omit [DecidableEq K] in
theorem returns_le_of_size {n : Nat} (h : w.events.size ≤ n) (i : Nat) : w.returns i ≤ n :=
  List.countP_le_length.trans h

/-- An entity was destroyed, and records were placed for it after that. The one that is created next at
its index gets its default records, of which two were given for one kind, and takes the place of the old
one's record where one of its own is placed, with the handle; the other record is left. -/
theorem newcomers_welcomed_evicting :
    let _ := Sample.schema ""
    let old : Entity := ⟨⟨0, ⟨1⟩, by decide⟩⟩
    let e : Entity := ⟨⟨0, ⟨2⟩, by decide⟩⟩
    let handle : HandleId := ⟨⟨0, ⟨1⟩, by decide⟩⟩
    ∃ w u : World Sample.Kind, w.Reached ∧ w.OnlyRecords ∧ w.Genuine ∧
      (w.record? .sprite old).isSome = true ∧ (w.record? .marker old).isSome = true ∧
      (w.handles.entry? handle).isSome = true ∧
      Run.create (Run.runScript 1) 1 [] w = .ok e u ∧ e ∉ w.issued ∧
      (u.record? .pos e).map (Sample.key .pos) = some 2 ∧ u.record? .marker e = none ∧
      u.record? .sprite old = none ∧ u.record? .marker old = w.record? .marker old ∧
      u.handles.entry? handle = none := by
  intro _ old e handle
  let defaults : List ((k : Sample.Kind) × Schema.Row k) :=
    [⟨.pos, ⟨1, 1⟩⟩, ⟨.sprite, ⟨handle, none, 1⟩⟩, ⟨.pos, ⟨2, 2⟩⟩]
  obtain ⟨w, h, hspent, hrows, hsize, hfound, hnext, hold, hmarker, hhandle⟩ :
      ∃ w : World Sample.Kind, w.Reached ∧ w.observers.all (·.left == 0) = true ∧
        (w.tables.entries.all fun t =>
          t.2.contents.rows.rows.all fun row => decide (row.1 ∈ w.issued)) = true ∧
        w.events.size ≤ 2 ^ 31 - 2 ∧
        (w.archetypes.find? 1).any (fun a => decide (a.defaults.map (·.1) = [.sprite, .pos]) &&
          decide ((Catalog.lookup .pos a.defaults.reverse).map (Sample.key .pos) = some 2) &&
          a.defaults.all (w.components.contains ·.1)) = true ∧
        w.roster.arena.issuer.next? = some e.ident ∧
        (w.record? .sprite old).any (fun r => decide (handle ∈ (Record.owned r).ids)) = true ∧
        (w.record? .marker old).isSome = true ∧ (w.handles.entry? handle).isSome = true := by
    have h : Reached ({} : World Sample.Kind) := .start {} []
    have h := h.next 1 1 (.registerComponent .pos)
    have h := h.next 1 1 (.registerComponent .sprite)
    have h := h.next 1 1 (.registerComponent .marker)
    have h := h.next 1 1 (.registerArchetype 0 "unit" [])
    have h := h.next 1 1 (.registerArchetype 1 "hero" defaults)
    have h := h.next 1 1 (.handle (.add 0 .unit) true)
    have h := h.next 1 1 (.create 0 [])
    have h := h.next 1 1 (.destroy (.known old) true)
    have h := h.next 1 1 (.table .sprite (.populate (.known old) ⟨handle, none, 0⟩))
    have h := h.next 1 1 (.table .marker (.populate (.known old) ()))
    have h := h.next 1 1 (.subscribe "observer" 0 [])
    exact ⟨_, h, by decide +kernel, by decide +kernel, by decide +kernel, by decide +kernel,
      by decide +kernel, by decide +kernel, by decide +kernel, by decide +kernel⟩
  obtain ⟨a, ha, hchecks⟩ := (Option.any_eq_true ..).mp hfound
  simp only [Bool.and_eq_true, decide_eq_true_eq, List.all_eq_true] at hchecks
  obtain ⟨⟨hkinds, hlast⟩, hregistered⟩ := hchecks
  obtain ⟨r, hr, hid⟩ := (Option.any_eq_true ..).mp hold
  have ho := onlyRecords_of_spent hspent
  have hgenuine := genuine_of_rows h.atRest.1 hrows
  obtain ⟨-, -, -, hcreated, -⟩ := newcomers_welcomed h hgenuine (returns_le_of_size hsize) ha
    hregistered hnext 0
  obtain ⟨u, hcreate, hwelcomed⟩ := hcreated ho
  have hne : old ≠ e := by decide
  have hmade : .sprite ∈ a.defaults.map (·.1) := hkinds ▸ by decide
  have hunmade : Sample.Kind.marker ∉ a.defaults.map (·.1) := hkinds ▸ by decide
  refine ⟨w, u, h, ho, hgenuine, hr ▸ rfl, hmarker, hhandle, hcreate, hwelcomed.unborn, ?_, ?_, ?_, ?_,
    (hwelcomed.handles handle).1 ⟨.sprite, old, r, rfl, hmade, hr, of_decide_eq_true hid⟩⟩
  · rw [hwelcomed.record?_self, hlast]
  · rw [hwelcomed.record?_self, Catalog.lookup_eq_none_iff]
    simpa using hunmade
  · rw [hwelcomed.record?_eq _ _ hne, if_pos ⟨rfl, hmade⟩]
  · rw [hwelcomed.record?_eq _ _ hne, if_neg fun h => hunmade h.2]

/-- An observer that is told of an entity destroys its only record: the entity is created without it. -/
theorem newcomers_robbed :
    let _ := Sample.schema ""
    let e : Entity := ⟨⟨0, ⟨1⟩, by decide⟩⟩
    ∃ (w u : World Sample.Kind) (a : Archetype Sample.Kind), w.Reached ∧ w.Genuine ∧
      (∀ i, w.returns i ≤ 2 ^ 31 - 2) ∧ w.archetypes.find? 1 = some a ∧
      (∀ d ∈ a.defaults, w.components.contains d.1 = true) ∧
      w.roster.arena.issuer.next? = some e.ident ∧
      Run.create (Run.runScript 2) 1 [] w = .ok e u ∧
      .pos ∈ a.defaults.map (·.1) ∧ u.record? .pos e = none := by
  intro _ e
  let robbing : Script Sample.Kind := [⟨"destroy", .table .pos (.destroy .itself), false⟩]
  obtain ⟨w, h, hrows, hsize, hfound, hnext, hrobbed⟩ : ∃ w : World Sample.Kind, w.Reached ∧
      (w.tables.entries.all fun t =>
        t.2.contents.rows.rows.all fun row => decide (row.1 ∈ w.issued)) = true ∧
      w.events.size ≤ 2 ^ 31 - 2 ∧
      (w.archetypes.find? 1).any (fun a => decide (.pos ∈ a.defaults.map (·.1)) &&
        a.defaults.all (w.components.contains ·.1)) = true ∧
      w.roster.arena.issuer.next? = some e.ident ∧
      Run.yields (fun x u => decide (x = e) && (u.record? .pos e).isNone)
        (Run.create (Run.runScript 2) 1 [] w) = true := by
    have h : Reached ({} : World Sample.Kind) := .start {} []
    have h := h.next 1 1 (.registerComponent .pos)
    have h := h.next 1 1 (.registerArchetype 1 "point" [⟨.pos, ⟨0, 0⟩⟩])
    have h := h.next 1 1 (.subscribe "robber" 1 [(.entityCreated, robbing)])
    exact ⟨_, h, by decide +kernel, by decide +kernel, by decide +kernel, by decide +kernel,
      by decide +kernel⟩
  obtain ⟨a, ha, hchecks⟩ := (Option.any_eq_true ..).mp hfound
  simp only [Bool.and_eq_true, decide_eq_true_eq, List.all_eq_true] at hchecks
  obtain ⟨x, u, hcreate, hgone⟩ := Run.exists_of_yields hrobbed
  simp only [Bool.and_eq_true, decide_eq_true_eq, Option.isNone_iff_eq_none] at hgone
  obtain ⟨rfl, hgone⟩ := hgone
  exact ⟨w, u, a, h, genuine_of_rows h.atRest.1 hrows, returns_le_of_size hsize, ha, hchecks.2, hnext,
    hcreate, hchecks.1, hgone⟩

end World

end EntityStore
