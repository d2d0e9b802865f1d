import EntityStore.Proofs.World.Pending

/-!
# Carrying out queued creations

A creation that is queued has the tables of its archetype come to be before its entity does, and places
the records while the locks of all tables are held. Both make no difference to what comes of it.
-/
namespace EntityStore

open Run (left bind_of_ok KeepsFit mild_top ok_of_bind)
open World (caller Alike Twins)

variable {K α : Type} [Schema K] [DecidableEq K] {u v w w₁ w₂ : World K} {x y : Office K}
variable {k j : K} {e : Entity} {cs : List (Creation K)}

namespace World

section PutBack

variable {d : Desk (Table (Schema.Row k))} {g : Guarded (Table (Schema.Row k))}

omit [DecidableEq K] in
/-- A lock is as it was when there is a new one. -/
theorem get_furnished {l : Nat} (hl : l < w.bank.size) :
    (w.furnished j).bank.get l = w.bank.get l :=
  (Bank.get_add ..).trans (if_neg (Nat.ne_of_lt hl))

/-- A table comes to be after another one has been put back, or before. -/
theorem alike_furnished_putBack (hj : j ≠ k) (hlock : d.lock < w.bank.size)
    (hg : g.lock = w.bank.get d.lock) :
    Alike ((w.putBack d g).furnished j) ((w.furnished j).putBack d g) := by
  have hbank : ((w.putBack d g).furnished j).bank = (w.furnished j).bank := by
    show ((w.bank.set d.lock g.lock).add _).2 = _
    rw [hg, Bank.set_get]
    rfl
  have hbank' : ((w.furnished j).putBack d g).bank = (w.furnished j).bank := by
    show (w.furnished j).bank.set d.lock g.lock = _
    rw [hg, ← get_furnished hlock, Bank.set_get]
  refine ⟨?_, ?_, fun l => ?_, ?_⟩
  · simp [putBack, furnished, announced, locked, afterDesk, Catalog.update_push_ne hj]
  · rw [hbank, hbank']
  · rw [hbank, hbank']
  · simp [triggers, putBack, furnished, announced, locked, afterDesk, Event.isTrigger]

end PutBack

end World

namespace Run

section Prepare

variable {op : Guarded.Op (Table (Schema.Row k)) α} {a : α}

/-- Where an operation has led a world that is its own twin. -/
theorem twins_of_ok {op : Run K α} (hop : Coupled (Twins x x) (· = ·) op op) (h : Twins x x w w)
    (hok : op w = .ok a w₁) : Twins x x w₁ w₁ := by
  obtain ⟨w', hok', hleft⟩ := (hop w w h).led.of_ok hok
  rw [hok] at hok'
  cases hok'
  exact hleft

/-- A table can come to be before something is done with another one instead of after it. -/
theorem component_before (h : Twins x x w w) {d : Desk (Table (Schema.Row k))}
    (hd : w.tables.find? k = some d) (hdeaf : Guarded.Deaf caller (· = ·) op)
    (hneat : Stocks (fun _ => True) op) (hok : onTable k op w = .ok a w₁)
    {d₁ : Desk (Table (Schema.Row j))} (hj : component j w₁ = .ok d₁ w₂) :
    ∃ dj v v', component j w = .ok dj v ∧ v.tables.find? k = some d ∧ Twins x x v v ∧
      onTable k op v = .ok a v' ∧ Twins x x w₂ v' := by
  have hw₁ := twins_of_ok (coupled_onTable hdeaf hneat) h hok
  obtain ⟨g, hop, rfl, hlock⟩ := onTable_eq_of_ok h.fit hd hneat hok
  have hw₂ := twins_of_ok (coupled_component j) hw₁ hj
  cases hdj : w.tables.find? j with
  | some dj =>
    have hkeys : j ∈ (w.putBack d g).tables.keys := by
      show j ∈ (w.tables.update k _).keys
      rw [Catalog.keys_update]
      exact List.mem_map_of_mem (Catalog.mem_entries_of_find? hdj)
    obtain ⟨d', hd'⟩ := Catalog.exists_find?_of_mem hkeys
    rw [component_of_find? hd'] at hj
    cases hj
    exact ⟨dj, w, _, component_of_find? hdj, hd, h, hok, hw₁⟩
  | none =>
    have hjk : j ≠ k := by
      rintro rfl
      rw [hdj] at hd
      cases hd
    have hnone : (w.putBack d g).tables.find? j = none := (Catalog.find?_update_ne hjk _).trans hdj
    cases hc : w.components.contains j with
    | false =>
      rw [component_of_unregistered hnone hc] at hj
      cases hj
    | true =>
      rw [component_of_registered hnone hc] at hj
      cases hj
      have hlt : d.lock < w.bank.size := h.fit.lock_lt _ (Catalog.mem_entries_of_find? hd)
      have hv := component_of_registered hdj hc
      have hd' : (w.furnished j).tables.find? k = some d :=
        (Catalog.find?_push_ne (Ne.symm hjk)).trans hd
      have hop' : op ((w.furnished j).atDesk d) = .ok a g := by
        rw [World.atDesk, World.get_furnished hlt]
        exact hop
      have hok' : onTable k op (w.furnished j) = .ok a ((w.furnished j).putBack d g) := by
        rw [onTable, bind_of_ok (component_of_find? hd')]
        exact atDesk_of_ok hop'
      have hv₁ := twins_of_ok (coupled_component j) h hv
      have hv₂ := twins_of_ok (coupled_onTable hdeaf hneat) hv₁ hok'
      exact ⟨_, _, _, hv, hd', hv₁, hok', World.alike_furnished_putBack hjk hlt hlock, hw₂.fit,
        hv₂.fit, hw₂.onlyRecords, hw₂.office_eq, hv₂.office_eq⟩

theorem coupled_prepare (ds : List ((k : K) × Schema.Row k)) :
    Coupled (Twins x y) (· = ·) (prepare ds) (prepare ds) := by
  induction ds with
  | nil => exact coupled_pure rfl
  | cons d ds ih => exact (coupled_component d.1).bind_eq fun _ => ih

/-- Tables can come to be before something is done with another one instead of after it. -/
theorem prepare_before (ds : List ((k : K) × Schema.Row k)) (h : Twins x x w w)
    {d : Desk (Table (Schema.Row k))} (hd : w.tables.find? k = some d)
    (hdeaf : Guarded.Deaf caller (· = ·) op) (hneat : Stocks (fun _ => True) op)
    (hok : onTable k op w = .ok a w₁) (hprepare : prepare ds w₁ = .ok () w₂) :
    ∃ v v', prepare ds w = .ok () v ∧ onTable k op v = .ok a v' ∧ Twins x x w₂ v' := by
  induction ds generalizing w w₁ w₂ d with
  | nil =>
    cases hprepare
    exact ⟨w, w₁, rfl, hok, twins_of_ok (coupled_onTable hdeaf hneat) h hok⟩
  | cons t ds ih =>
    obtain ⟨d₁, w₁', hj, hrest⟩ := ok_of_bind hprepare
    obtain ⟨dj, v, v', hv, hd', hvv, hok', h'⟩ := component_before h hd hdeaf hneat hok hj
    obtain ⟨w₂', hrest', h₂⟩ := (coupled_prepare ds _ _ h').led.of_ok hrest
    obtain ⟨v₁, v₂, hprepare', hlast, hv₂⟩ := ih hvv hd' hok' hrest'
    exact ⟨v₁, v₂, (bind_of_ok hv).trans hprepare', hlast, h₂.trans hv₂⟩

end Prepare

theorem coupled_furnishEntity (e : Entity) (ds : List ((k : K) × Schema.Row k)) :
    Coupled (Twins x y) (· = ·) (furnishEntity e ds) (furnishEntity e ds) := by
  induction ds with
  | nil => exact coupled_pure rfl
  | cons d ds ih =>
    exact (coupled_onTable (Table.deaf_populate e d.2) fun A hA =>
      Table.neat_populate (hA e trivial) d.2).bind_eq fun _ => ih

/-- The tables for some records may all come to be before the first of them is stored. -/
theorem led_furnishEntity (h : Twins x y u v) (e : Entity) (ds : List ((k : K) × Schema.Row k)) :
    Led (Twins x y) (furnishEntity e ds u) ((prepare ds >>= fun _ => furnishEntity e ds) v) := by
  induction ds generalizing u v with
  | nil => exact (coupled_pure rfl u v h).led
  | cons d ds ih =>
    intro _ u' hok
    let op : Guarded.Op (Table (Schema.Row d.1)) _ := Table.populate caller e d.2
    have hdeaf : Guarded.Deaf caller (· = ·) op := Table.deaf_populate e d.2
    have hneat : Stocks (fun _ => True) op := fun A hA => Table.neat_populate (hA e trivial) d.2
    -- the first record is stored on both sides, and for the others the tables come to be before
    obtain ⟨r, u₁, hplace, hrest⟩ := ok_of_bind hok
    obtain ⟨v₁, hplace', h₁⟩ := (coupled_onTable hdeaf hneat u v h).led.of_ok hplace
    obtain ⟨v', hboth, h'⟩ := (ih h₁).of_ok hrest
    obtain ⟨_, v₂, hprepare, hfurnish⟩ := ok_of_bind hboth
    -- so they can come to be before the first record is stored, too
    obtain ⟨d', v₀, hv₀, hdesk⟩ := ok_of_bind hplace'
    have hfind := find?_of_component hv₀
    have hplace₀ : onTable d.1 op v₀ = .ok r v₁ := by
      rw [onTable, bind_of_ok (component_of_find? hfind)]
      exact hdesk
    have htwins := twins_of_ok (coupled_component d.1) (h.symm.trans h) hv₀
    obtain ⟨p, p', hp, hp', hpp⟩ := prepare_before ds htwins hfind hdeaf hneat hplace₀ hprepare
    obtain ⟨v'', hlast, hlate⟩ := (coupled_furnishEntity e ds _ _ hpp).led.of_ok hfurnish
    have hall : prepare (d :: ds) v = .ok () p := (bind_of_ok hv₀).trans hp
    have hstored : furnishEntity e (d :: ds) p = .ok () v'' := (bind_of_ok hp').trans hlast
    exact ⟨v'', (bind_of_ok hall).trans hstored, h'.trans hlate⟩

end Run

def Office.ordered (x : Office K) (cs : List (Creation K)) : Office K :=
  { x with roster := { x.roster with creations := cs } }

namespace World

theorem Twins.ordered (h : Twins x y u v) (cs : List (Creation K)) : Twins x (y.ordered cs) u
    { v with roster := { v.roster with creations := cs } } := by
  refine ⟨h.alike.withRosters u.roster _ u.readings v.readings, h.fit,
    h.fit'.congr rfl rfl rfl rfl, h.onlyRecords, h.office_eq, ?_⟩
  rw [← h.office_eq']
  rfl

theorem Twins.minted (hw : w.Fit) (ho : w.OnlyRecords) (a : ArchetypeId)
    (hi : w.roster.arena.issuer.next? = some e.ident) :
    Twins (w.minted a e).office w.office (w.minted a e) w := by
  refine ⟨⟨rfl, rfl, fun _ => rfl, ?_⟩, hw.minted a hi, hw, ho, rfl, rfl⟩
  have hnotices := Event.filter_isTrigger_of_isLocal (K := K)
    (Arena.isLocal_insertNotices w.roster.arena)
  simp only [triggers, World.minted, awaiting, Array.toList_push, Array.toList_append,
    List.filter_append, hnotices]
  simp [Event.isTrigger]

omit [DecidableEq K] in
/-- An entity comes whatever creations are still to come. -/
theorem office_minted (h : v.office = u.office.ordered cs) (a : ArchetypeId) (e : Entity) :
    (v.minted a e).office = (u.minted a e).office.ordered cs := by
  have hsettings : v.settings = u.settings := congrArg Office.settings h
  have hroster : v.roster = { u.roster with creations := cs } := congrArg Office.roster h
  have hreadings : v.readings = u.readings := congrArg Office.readings h
  have harchetypes : v.archetypes = u.archetypes := congrArg Office.archetypes h
  have hcomponents : v.components = u.components := congrArg Office.components h
  simp [office, World.minted, awaiting, newcomer, Office.ordered, Roster.enrolled, hsettings,
    hroster, hreadings, harchetypes, hcomponents]

end World

namespace Run

section Create

variable {run : Runner K} {id : ArchetypeId} {init : Script K}

/-- What a creation that has succeeded has done. -/
theorem create_of_ok (hu : u.Fit) (h : create run id init u = .ok e v) : ∃ a w,
    archetype id u = .ok a u ∧ u.roster.arena.issuer.next? = some e.ident ∧
      populate run a e init (u.minted id e) = .ok () w ∧ fire run (.entityCreated e) w = .ok () v := by
  obtain ⟨a, u', harchetype, hrest⟩ := ok_of_bind h
  obtain rfl := archetype_of_ok harchetype
  obtain ⟨e', u₁, henrol, h⟩ := ok_of_bind hrest
  obtain ⟨hnext, rfl⟩ := enrol_of_ok hu henrol
  obtain ⟨r, w, hpopulate, h⟩ := ok_of_bind h
  cases r with
  | error f =>
    obtain ⟨_, _, -, h⟩ := ok_of_bind h
    cases h
  | ok _ =>
    obtain ⟨_, v', hfire, h⟩ := ok_of_bind h
    cases h
    exact ⟨a, w, harchetype, hnext, ok_of_attempt hpopulate, hfire⟩

theorem coupled_populate (n : Nat) (a : Archetype K) (e : Entity) (hinit : Script.Stores init) :
    Coupled (Twins x y) (· = ·) (populate (runScript n) a e init) (populate (runScript n) a e init) :=
  (coupled_furnishEntity e a.defaults).bind_eq fun _ => coupled_runScript n (some e) hinit

theorem keepsFit_populate (n : Nat) (a : Archetype K) (e : Entity) (init : Script K) :
    KeepsFit (populate (runScript n) a e init) := fun _ hw =>
  (passes_furnishEntity mild_top hw trivial a.defaults).bind mild_top fun _ w' _ hw' =>
    keepsFit_runScript n (some e) init w' hw'

/-- An entity that has been given its records and initialised where it came first is so as well where
the tables come to be first and all locks are held, and twins are left. -/
theorem led_populate (n : Nat) {a : Archetype K} (hinit : Script.Stores init)
    (h : Twins u.office (u.office.ordered cs) u v)
    (hnext : u.roster.arena.issuer.next? = some e.ident)
    (hok : populate (runScript n) a e init (u.minted id e) = .ok () w) :
    ∃ v₁ v', prepare a.defaults v = .ok () v₁ ∧ v₁.Fit ∧
      v₁.roster.arena.issuer.next? = some e.ident ∧
      withAllTables (LockedRun.lift (populate (runScript n) a e init)) (v₁.minted id e) = .ok () v' ∧
      Twins (u.minted id e).office ((u.minted id e).office.ordered cs) w v' := by
  obtain ⟨_, u₁, hfurnish, hrun⟩ := ok_of_bind hok
  -- the tables come to be while the entity does not live yet
  have hminted := World.Twins.minted h.fit h.onlyRecords id hnext
  obtain ⟨v₂, hboth, h₂⟩ := (led_furnishEntity (hminted.trans h) e a.defaults).of_ok hfurnish
  obtain ⟨_, v₁, hprepare, hfurnish'⟩ := ok_of_bind hboth
  have h₁ := twins_of_ok (coupled_prepare a.defaults) (h.symm.trans h) hprepare
  have hroster₁ : v₁.roster = { u.roster with creations := cs } := congrArg Office.roster h₁.office_eq
  have hnext' : v₁.roster.arena.issuer.next? = some e.ident := by
    rw [hroster₁]
    exact hnext
  -- then it comes and is given its records, which it could have been before
  let v₃ := v₁.minted id e
  have h₃ : Twins (u.office.ordered cs) ((u.minted id e).office.ordered cs) v₁ v₃ := by
    rw [← h₁.office_eq, ← World.office_minted h₁.office_eq id e]
    exact (World.Twins.minted h₁.fit h₁.onlyRecords id hnext').symm
  obtain ⟨v₄, hfurnish₃, h₄⟩ := (coupled_furnishEntity e a.defaults v₁ v₃ h₃).led.of_ok hfurnish'
  obtain ⟨v₅, hrun', h₅⟩ := (coupled_runScript n (some e) hinit u₁ v₄ (h₂.trans h₄)).led.of_ok hrun
  have hpopulate : populate (runScript n) a e init v₃ = .ok () v₅ := (bind_of_ok hfurnish₃).trans hrun'
  -- and it makes no difference that all locks are held
  obtain ⟨v', hlocked, h'⟩ := (led_withAllTables (h₃.symm.trans h₃)
    (fun v' h' => (coupled_populate n a e hinit v₃ v' h').led)
    (keepsFit_populate n a e init)).of_ok hpopulate
  exact ⟨v₁, v', hprepare, h₁.fit, hnext', hlocked, h₅.trans h'⟩

/-- What creates an entity at once carries out a queued creation, and leaves twins. -/
theorem led_create (n : Nat) (hinit : Script.Stores init)
    (h : Twins u.office (u.office.ordered cs) u v) (hok : create (runScript n) id init u = .ok e w) :
    ∃ v', commitCreation (runScript n) ⟨id, init⟩ v = .ok () v' ∧
      Twins w.office (w.office.ordered cs) w v' ∧ w.roster.creations = u.roster.creations ∧
      w.roster.destructions = u.roster.destructions := by
  obtain ⟨a, u₁, harchetype, hnext, hpopulate, hfire⟩ := create_of_ok h.fit hok
  obtain ⟨v₀, harchetype', -⟩ := (coupled_archetype id u v h).led.of_ok harchetype
  obtain rfl := archetype_of_ok harchetype'
  obtain ⟨v₁, v₂, hprepare, hfit, hnext', hlocked, h₂⟩ := led_populate n hinit h hnext hpopulate
  obtain ⟨v', hfire', h'⟩ :=
    (coupled_fire (runScript n) (runScript n) _ u₁ v₂ h₂).led.of_ok hfire
  have hroster : w.roster = (u.minted id e).roster := congrArg Office.roster h'.office_eq
  refine ⟨v', ?_, h'.office_eq.symm ▸ h', by rw [hroster]; rfl, by rw [hroster]; rfl⟩
  refine (bind_of_ok harchetype').trans ((bind_of_ok hprepare).trans ?_)
  refine (bind_of_ok (enrol_of_some hfit id hnext')).trans ?_
  exact (bind_of_ok (attempt_of_ok hlocked)).trans hfire'

/-- What creates some entities at once commits their creations, and leaves twins. -/
theorem commitCreations_ordered (n : Nat) {turns : Nat} (count : Nat)
    (hinit : ∀ c ∈ cs, Script.Stores c.init) (h : Twins u.office (u.office.ordered cs) u v)
    (hturns : cs.length < turns)
    (hok : (cs.forM fun c => do let _ ← create (runScript n) c.archetype c.init) u = .ok () w) :
    ∃ v', commitCreations (runScript n) turns count v = .ok (count + cs.length) v' ∧
      Twins w.office (w.office.ordered []) w v' ∧ w.roster.creations = u.roster.creations ∧
      w.roster.destructions = u.roster.destructions := by
  induction cs generalizing u v turns count with
  | nil =>
    obtain ⟨turns, rfl⟩ := Nat.exists_eq_succ_of_ne_zero (Nat.ne_of_gt hturns)
    have hnil : v.roster.creations = [] := congrArg (·.roster.creations) h.office_eq'
    cases hok
    rw [commitCreations, get_bind, hnil]
    dsimp only
    split
    · exact ⟨_, rfl, h.noted rfl, rfl, rfl⟩
    · exact ⟨v, rfl, h, rfl, rfl⟩
  | cons c cs ih =>
    obtain ⟨turns, rfl⟩ := Nat.exists_eq_succ_of_ne_zero (Nat.ne_zero_of_lt hturns)
    have hcons : v.roster.creations = c :: cs := congrArg (·.roster.creations) h.office_eq'
    obtain ⟨_, u₁, hfirst, hrest⟩ := ok_of_bind hok
    obtain ⟨e, _, hcreate, hret⟩ := ok_of_bind hfirst
    cases hret
    obtain ⟨v₁, hcommit, h₁, hcreations, hdestructions⟩ :=
      led_create n (hinit c List.mem_cons_self) (h.ordered cs) hcreate
    obtain ⟨v', hlater, h', hcreations', hdestructions'⟩ := ih _
      (fun c' hc' => hinit c' (List.mem_cons_of_mem c hc')) h₁ (Nat.lt_of_succ_lt_succ hturns) hrest
    refine ⟨v', ?_, h', hcreations'.trans hcreations, hdestructions'.trans hdestructions⟩
    rw [commitCreations, get_bind, hcons]
    refine ((set_bind _ _).trans (bind_of_ok hcommit)).trans ?_
    rw [hlater, List.length_cons, Nat.add_right_comm, Nat.add_assoc]

end Create

end Run

end EntityStore
