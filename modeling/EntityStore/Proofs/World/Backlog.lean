import EntityStore.Proofs.World.Settling
import EntityStore.Proofs.World.Undoing
import EntityStore.Sample

/-!
# Working off the queue of creations

A queued creation is taken from the front of the queue before it is attempted, and not put back. What its
initialisation queues joins the end. So whatever fails, every creation is attempted once, in the order of
the queue, and commits come to an end, because a script queues only what is written in it.

This is so while observers only record. One that commits creations itself takes them from the commit that
it is told by, which then counts fewer.
-/
namespace EntityStore

open Run (left runScript populate undertaken prefix_undertaken undertaken_of_locked prepare conclude
  commitCreation commitCreations bind_of_ok bind_of_error)
open World (Lodged Prepared Retracted Written Told)

variable {K : Type} [Schema K] {c : Creation K} {new cs ds : List (Creation K)}

section Brood

mutual

/-- How many creations come of a verb: the one that it queues, and those that come of that. -/
def Verb.offspring : Verb K → Nat
  | .queueCreation _ init => 1 + Script.offspring init
  | _ => 0

def Action.offspring : Action (Verb K) → Nat
  | ⟨_, v, _⟩ => v.offspring

def Script.offspring : List (Action (Verb K)) → Nat
  | [] => 0
  | a :: rest => a.offspring + Script.offspring rest

end

/-- How many attempts a queue can lead to: one for each creation, and those for what comes of it. -/
def brood : List (Creation K) → Nat
  | [] => 0
  | c :: cs => 1 + Script.offspring c.init + brood cs

@[simp] theorem brood_nil : brood ([] : List (Creation K)) = 0 := rfl

@[simp] theorem brood_cons (c : Creation K) (cs : List (Creation K)) :
    brood (c :: cs) = 1 + Script.offspring c.init + brood cs := rfl

@[simp] theorem brood_append (cs ds : List (Creation K)) :
    brood (cs ++ ds) = brood cs + brood ds := by
  induction cs with
  | nil => simp
  | cons c cs ih =>
    rw [List.cons_append, brood_cons, brood_cons, ih]
    exact (Nat.add_assoc ..).symm

theorem brood_le_of_sublist (h : cs.Sublist ds) : brood cs ≤ brood ds := by
  induction h with
  | slnil => rfl
  | cons c _ ih => exact ih.trans (Nat.le_add_left ..)
  | cons_cons c _ ih => exact Nat.add_le_add_left ih _

theorem brood_orders (s : Script K) : brood s.orders = Script.offspring s := by
  induction s with
  | nil => rfl
  | cons a rest ih =>
    have hverb : brood a.verb.orders = a.offspring := by
      obtain ⟨_, v, _⟩ := a
      cases v <;> rfl
    rw [Script.orders, List.flatMap_cons, brood_append, hverb, Script.offspring]
    exact congrArg _ ih

/-- What attempted creations queue is what comes of them, not counting themselves. -/
theorem brood_flatMap_orders (tried : List (Creation K)) :
    brood (tried.flatMap (·.init.orders)) + tried.length = brood tried := by
  induction tried with
  | nil => rfl
  | cons c tried ih =>
    rw [List.flatMap_cons, brood_append, brood_orders, brood_cons, List.length_cons, ← ih]
    omega

end Brood

variable [DecidableEq K] {v w m u : World K} {e : Entity} {n turns : Nat}

/-- The initialisation keeps to the records of its own entity, or fails, or queues creations that do no
more. -/
def Creation.Founds (c : Creation K) : Prop := ∀ a ∈ c.init, a.verb.Founds

omit [DecidableEq K] in
/-- So do the creations that it queues. -/
theorem Creation.Founds.of_mem_orders {d : Creation K} (h : c.Founds) (hd : d ∈ c.init.orders) :
    d.Founds := by
  obtain ⟨a, ha, hd⟩ := List.mem_flatMap.mp hd
  have hverb := h a ha
  generalize a.verb = verb at hverb hd
  cases hverb with
  | minds hminds =>
    rw [hminds.orders_eq] at hd
    cases hd
  | queueCreation id hinit =>
    obtain rfl := List.mem_singleton.mp hd
    exact hinit

namespace World

def ordered (w : World K) (cs : List (Creation K)) : World K :=
  { w with roster := { w.roster with creations := cs } }

/-- Nothing is in the way of creating entities: no contents are lent out, and observers only record. -/
structure AtEase (w : World K) : Prop where
  fit : w.Fit
  unlent : ∀ l, (w.bank.get l).lent = false
  onlyRecords : w.OnlyRecords

namespace AtEase

theorem ordered (h : w.AtEase) (cs : List (Creation K)) : (w.ordered cs).AtEase :=
  ⟨h.fit.congr rfl rfl rfl rfl, h.unlent, h.onlyRecords⟩

theorem prepared (h : w.AtEase) (hp : Prepared w u) : u.AtEase :=
  ⟨hp.fit, hp.locks.not_lendsOut h.unlent, fun o ho => h.onlyRecords o (hp.observers_eq ▸ ho)⟩

theorem minted (h : w.AtEase) (id : ArchetypeId) (hi : w.roster.arena.issuer.next? = some e.ident) :
    (w.minted id e).AtEase := ⟨h.fit.minted id hi, h.unlent, h.onlyRecords⟩

theorem lodged {gone : List ((k : K) × Schema.Row k)} (h : w.AtEase) (hl : Lodged e gone new w u) :
    u.AtEase :=
  ⟨hl.fit, hl.not_lendsOut h.unlent, fun o ho => h.onlyRecords o (hl.observers_eq ▸ ho)⟩

theorem written {es : List (Event K)} (h : w.AtEase) (hwritten : Written es w u) : u.AtEase := by
  rw [hwritten.eq]
  exact ⟨h.fit.congr rfl rfl rfl rfl, h.unlent, h.onlyRecords⟩

theorem razed {es : List (Event K)} (h : w.AtEase) (hr : Razed e es w u) : u.AtEase :=
  ⟨hr.fit, hr.bank_eq ▸ h.unlent, fun o ho => h.onlyRecords o (hr.observers_eq ▸ ho)⟩

end AtEase

theorem prepared_awaiting (hw : w.Fit) : Prepared w w.awaiting :=
  ⟨hw.congr rfl rfl rfl rfl, .refl _, rfl, rfl, rfl, rfl, rfl, w.aside_awaiting, fun _ _ => rfl⟩

/-- It makes no difference which tables there were before. -/
theorem Retracted.prepared {id : ArchetypeId} {gone : List ((k : K) × Schema.Row k)}
    (h : Retracted e id gone new v m u) (hp : Prepared w v) : Retracted e id gone new w m u := by
  have hinfo : ∀ x, v.info? x = w.info? x := fun x => by rw [info?, hp.roster_eq, info?]
  have hlive : ∀ x, v.isLive x = w.isLive x := fun x => by rw [isLive, hp.roster_eq, isLive]
  have howes : ∀ i, Owes e gone w u i ↔ Owes e gone v u i := fun i => by
    simp only [Owes, hp.record?_eq]
  exact {
    fit := h.fit
    info?_eq := fun x => (h.info?_eq x).trans (hinfo x)
    isLive_eq := fun x => (h.isLive_eq x).trans (hlive x)
    destructions_eq := h.destructions_eq.trans (by rw [hp.roster_eq])
    creations_eq := h.creations_eq.trans (by rw [hp.roster_eq])
    told := hp.aside.told.trans h.told
    record?_self := h.record?_self
    record?_eq := fun k x hx => (h.record?_eq k x hx).trans (hp.record?_eq k x)
    others := fun k x hx => hp.record?_eq k x ▸ h.others k x hx
    handles := hp.handles_eq ▸ h.handles.congr fun i => or_congr_right (howes i)
    next?_eq := h.next?_eq }

/-- A queued creation has been carried out for an entity, and has queued certain others. -/
structure Carried (n : Nat) (c : Creation K) (e : Entity) (new : List (Creation K))
    (w u : World K) : Prop where
  next?_eq : w.roster.arena.issuer.next? = some e.ident
  /-- The entity was given its records, and after that nothing has happened but that observers were told
  of it. -/
  made : ∃ a v m, w.archetypes.find? c.archetype = some a ∧ prepare a.defaults w = .ok () v ∧
    Run.withAllTables (LockedRun.lift (populate (runScript (n + 1)) a e c.init))
      (v.minted c.archetype e) = .ok () m ∧ Written [.notice (.fired (.entityCreated e))] m u
  told : Told [.notice (.minted e c.archetype), .notice (.fired (.entityCreated e))] w u
  info?_self : ∃ info, u.info? e = some info ∧ info.archetype = c.archetype ∧ info.marked = false
  info?_eq : ∀ x, x ≠ e → u.info? x = w.info? x
  record?_eq : ∀ k x, Keyed.index x ≠ Keyed.index e → u.record? k x = w.record? k x
  destructions_eq : u.roster.destructions = w.roster.destructions
  creations_eq : u.roster.creations = w.roster.creations ++ new
  /-- All that is written in the initialisation was queued, but for archetypes that are not known. -/
  new_eq : new = w.accepted c.init.orders

theorem Carried.sublist (h : Carried n c e new w u) : new.Sublist c.init.orders :=
  h.new_eq ▸ List.filter_sublist

/-- Made up and told of, an entity has been created. -/
theorem Carried.of_lodged {gone : List ((k : K) × Schema.Row k)} (hp : Prepared w v)
    (hi : v.roster.arena.issuer.next? = some e.ident)
    (h : Lodged e gone new (v.minted c.archetype e) m)
    (hwritten : Written [.notice (.fired (.entityCreated e))] m u)
    (hnew : new = w.accepted c.init.orders)
    (hmade : ∃ a v m, w.archetypes.find? c.archetype = some a ∧ prepare a.defaults w = .ok () v ∧
      Run.withAllTables (LockedRun.lift (populate (runScript (n + 1)) a e c.init))
        (v.minted c.archetype e) = .ok () m ∧ Written [.notice (.fired (.entityCreated e))] m u) :
    Carried n c e new w u := by
  have hturned := v.turned_minted c.archetype e
  have hroster : u.roster = m.roster := by rw [hwritten.eq]
  have hinfo : ∀ x, u.info? x = if x = e then some (v.newcomer c.archetype) else w.info? x := by
    intro x
    rw [info?, hroster, ← info?, h.info?_eq, hturned.info?_of_enrolled hp.fit hi, info?, info?,
      hp.roster_eq]
  refine ⟨hp.roster_eq ▸ hi, hmade,
    ((hp.aside.told.trans hturned.told).trans h.aside.told).trans hwritten.told,
    ⟨_, (hinfo e).trans (if_pos rfl), rfl, rfl⟩, fun x hx => (hinfo x).trans (if_neg hx),
    fun k x hx => ?_, ?_, ?_, hnew⟩
  · have hlater : u.record? k x = m.record? k x := by rw [hwritten.eq]; rfl
    rw [hlater, h.record?_eq hx, hturned.record?_eq, hp.record?_eq]
  · rw [hroster, h.destructions_eq, ← hp.roster_eq]
    rfl
  · rw [hroster, h.creations_eq, ← hp.roster_eq]
    rfl

/-- A queued creation has failed with a fault, and has queued certain others before that. Either no
entity was minted, and at most tables have come to be; or it could not be given its records or be
initialised, and its creation has been undone. What the steps queued that were done before that stays
queued. -/
inductive Dropped (n : Nat) (c : Creation K) (w : World K) :
    Fault → List (Creation K) → World K → Prop
  | unknown (hfound : w.archetypes.find? c.archetype = none) :
    Dropped n c w (.archetypeNotFound c.archetype) [] w
  | unregistered {u : World K} {a : Archetype K} {d : (k : K) × Schema.Row k}
    (hfound : w.archetypes.find? c.archetype = some a) (hd : d ∈ a.defaults)
    (hk : w.components.contains d.1 = false) (h : Prepared w u) :
    Dropped n c w (.componentNotFound (Schema.typeName d.1)) [] u
  | exhausted {u : World K} (hnext : w.roster.arena.issuer.next? = none) (h : Prepared w u) :
    Dropped n c w (.entitiesExhausted w.roster.arena.issuer.gauge) [] u
  | undone {f : Fault} {new : List (Creation K)} {v m u : World K} {a : Archetype K} {e : Entity}
    {gone : List ((k : K) × Schema.Row k)} (hfound : w.archetypes.find? c.archetype = some a)
    (hprepare : prepare a.defaults w = .ok () v)
    (hnext : w.roster.arena.issuer.next? = some e.ident)
    (hm : Run.withAllTables (LockedRun.lift (populate (runScript (n + 1)) a e c.init))
      (v.minted c.archetype e) = .error (.fault f) m)
    (h : Retracted e c.archetype gone new w m u)
    (hnew : new = w.accepted (undertaken n a e c.init (v.minted c.archetype e).taken.2).orders) :
    Dropped n c w f new u

theorem Dropped.queue {f : Fault} (h : Dropped n c w f new u) :
    u.roster.creations = w.roster.creations ++ new ∧ new.Sublist c.init.orders := by
  cases h with
  | unknown => exact ⟨(List.append_nil _).symm, List.nil_sublist _⟩
  | unregistered _ _ _ h | exhausted _ h =>
    exact ⟨by rw [h.roster_eq, List.append_nil], List.nil_sublist _⟩
  | undone _ _ _ _ h hnew =>
    refine ⟨h.creations_eq, hnew ▸ List.filter_sublist.trans ?_⟩
    exact ((prefix_undertaken ..).flatMap _).sublist

inductive Attempted (n : Nat) (c : Creation K) (w : World K) :
    EStateM.Result Failure (World K) Unit → Prop
  | carried {e : Entity} {new : List (Creation K)} {u : World K} (h : Carried n c e new w u)
    (hu : u.AtEase) : Attempted n c w (.ok () u)
  | dropped {f : Fault} {new : List (Creation K)} {u : World K} (h : Dropped n c w f new u)
    (hu : u.AtEase) : Attempted n c w (.error (.fault f) u)

end World

namespace Run

/-- The tables of some kinds come to be, up to the first kind that is not registered. -/
theorem prepare_cases (hw : w.Fit) (ds : List ((k : K) × Schema.Row k)) :
    ∃ u, Prepared w u ∧ (prepare ds w = .ok () u ∨ ∃ d ∈ ds, w.components.contains d.1 = false ∧
      prepare ds w = .error (.fault (.componentNotFound (Schema.typeName d.1))) u) := by
  induction ds generalizing w with
  | nil => exact ⟨w, .refl hw, .inl rfl⟩
  | cons d ds ih =>
    obtain ⟨hk, hc⟩ | ⟨desk, v, hc, -, hv⟩ := World.prepared_of_component hw d.1
    · exact ⟨w, .refl hw, .inr ⟨d, List.mem_cons_self, hk, bind_of_error hc⟩⟩
    · obtain ⟨u, hu, hok | ⟨d', hd', hk, hfail⟩⟩ := ih hv.fit
      · exact ⟨u, hv.trans hu, .inl ((bind_of_ok hc).trans hok)⟩
      · exact ⟨u, hv.trans hu, .inr ⟨d', List.mem_cons_of_mem d hd', hv.components_eq ▸ hk,
          (bind_of_ok hc).trans hfail⟩⟩

section Creation

variable {run : Runner K} {a : Archetype K}

/-- With its tables there and an identifier left, a queued creation makes an entity up and tells of it, or
undoes it. -/
theorem commitCreation_of_minted (hfound : w.archetypes.find? c.archetype = some a)
    (hprepare : prepare a.defaults w = .ok () v) (hv : v.Fit)
    (hi : v.roster.arena.issuer.next? = some e.ident) : commitCreation run c w =
      conclude run e (withAllTables (LockedRun.lift (populate run a e c.init)))
        (v.minted c.archetype e) := by
  have hbring : bring run c.archetype
      (fun e => withAllTables (LockedRun.lift (populate run a e c.init))) v =
        (conclude run e (withAllTables (LockedRun.lift (populate run a e c.init))) >>=
          fun _ => pure e) (v.minted c.archetype e) := bind_of_ok (enrol_of_some hv _ hi)
  rw [commitCreation_eq, bind_of_ok (archetype_of_find? hfound), bind_of_ok hprepare]
  cases hr : conclude run e (withAllTables (LockedRun.lift (populate run a e c.init)))
      (v.minted c.archetype e) with
  | ok x u => exact bind_of_ok (hbring.trans (bind_of_ok hr))
  | error g u => exact bind_of_error (hbring.trans (bind_of_error hr))

/-- An entity that has been minted for a queued creation is made up, or its creation is undone. -/
theorem attempted_of_minted (n : Nat) (hw : w.AtEase) (hc : c.Founds)
    (hfound : w.archetypes.find? c.archetype = some a) (hv : Prepared w v)
    (hprepare : prepare a.defaults w = .ok () v)
    (hi : v.roster.arena.issuer.next? = some e.ident) :
    World.Attempted n c w (commitCreation (runScript (n + 1)) c w) := by
  have hease := (hw.prepared hv).minted c.archetype hi
  have hlodges := lodges_populate_locked (e := e) n a hc hease.fit
  have hlodged := hlodges.lodged
  rw [commitCreation_of_minted hfound hprepare hv.fit hi]
  cases hbody : withAllTables (LockedRun.lift (populate (runScript (n + 1)) a e c.init))
      (v.minted c.archetype e) with
  | ok x m =>
    rw [hbody] at hlodged
    have hm : m.AtEase := hease.lodged hlodged
    have hfired := m.written_fired (s := .entityCreated e) rfl
    rw [conclude_of_ok hbody, fire_of_onlyRecords hm.onlyRecords]
    rw [undertaken_of_locked n a hc hease.fit hbody] at hlodged
    have hnew : (v.minted c.archetype e).accepted c.init.orders = w.accepted c.init.orders :=
      World.accepted_congr hv.archetypes_eq _
    exact .carried (.of_lodged hv hi hlodged hfired hnew ⟨a, v, m, hfound, hprepare, hbody, hfired⟩)
      (hm.written hfired)
  | error g m =>
    rw [hbody] at hlodges hlodged
    cases g with
    | fault f =>
      obtain ⟨u, hundone, hrazed⟩ := conclude_of_unmade (runScript (n + 1)) hease.unlent hlodged
        (isLive_of_enrol hv.fit (enrol_of_some hv.fit _ hi)) hbody
      rw [hundone]
      exact .dropped (.undone hfound hprepare (hv.roster_eq ▸ hi) hbody
        ((hlodged.retracted hv.fit hi hrazed).prepared hv) (World.accepted_congr hv.archetypes_eq _)) ((hease.lodged hlodged).razed hrazed)
    | _ => cases hlodges.unbroken hease.unlent

/-- A queued creation is carried out, or it fails without a trace. -/
theorem attempted_commitCreation (n : Nat) (hw : w.AtEase) (hc : c.Founds) :
    World.Attempted n c w (commitCreation (runScript (n + 1)) c w) := by
  cases hfound : w.archetypes.find? c.archetype with
  | none =>
    have hfail : archetype c.archetype w = .error (.fault (.archetypeNotFound c.archetype)) w := by
      rw [archetype, get_bind, hfound]
      rfl
    rw [commitCreation_eq, bind_of_error hfail]
    exact .dropped (.unknown hfound) hw
  | some a =>
    obtain ⟨v, hv, hprepare | ⟨d, hd, hk, hfail⟩⟩ := prepare_cases hw.fit a.defaults
    · cases hi : v.roster.arena.issuer.next? with
      | none =>
        have hawaiting := hv.trans (World.prepared_awaiting hv.fit)
        have hfail : commitCreation (runScript (n + 1)) c w =
            .error (.fault (.entitiesExhausted v.roster.arena.issuer.gauge)) v.awaiting := by
          rw [commitCreation_eq, bind_of_ok (archetype_of_find? hfound), bind_of_ok hprepare]
          exact bind_of_error (bind_of_error (enrol_of_none hv.fit _ hi))
        rw [hfail, hv.roster_eq]
        exact .dropped (.exhausted (hv.roster_eq ▸ hi) hawaiting) (hw.prepared hawaiting)
      | some i => exact attempted_of_minted (e := ⟨i⟩) n hw hc hfound hv hprepare hi
    · rw [commitCreation_eq, bind_of_ok (archetype_of_find? hfound), bind_of_error hfail]
      exact .dropped (.unregistered hfound hd hk hv) (hw.prepared hv)

end Creation

section Commit

variable {run : Runner K}

/-- A commit that finds the queue empty at last writes how many entities were created, if any. -/
theorem commitCreations_nil (count : Nat) (h : w.roster.creations = []) :
    ∃ u, commitCreations run (turns + 1) count w = .ok count u ∧ Written [] w u := by
  rw [commitCreations, get_bind, h]
  show ∃ u, (if 0 < count then do
    note (.committedCreations count)
    return count
  else return count : Run K Nat) w = .ok count u ∧ Written [] w u
  split
  · exact ⟨_, rfl, rfl, .of_push rfl rfl, .of_push rfl rfl⟩
  · exact ⟨w, rfl, .refl w⟩

theorem commitCreations_cons (count : Nat) (h : w.roster.creations = c :: cs) :
    commitCreations run (turns + 1) count w =
      (commitCreation run c >>= fun _ => commitCreations run turns (count + 1)) (w.ordered cs) := by
  rw [commitCreations, get_bind, h]
  rfl

/-- The creations that a commit attempts, in order. -/
def attempts (run : Runner K) : (turns : Nat) → World K → List (Creation K)
  | 0, _ => []
  | turns + 1, w =>
    match w.roster.creations with
    | [] => []
    | c :: cs => c :: match commitCreation run c (w.ordered cs) with
      | .ok _ v => attempts run turns v
      | .error .. => []

theorem attempts_nil (h : w.roster.creations = []) : attempts run turns w = [] := by
  cases turns with
  | zero => rfl
  | succ turns => rw [attempts, h]

theorem attempts_of_ok (h : w.roster.creations = c :: cs)
    (hr : commitCreation run c (w.ordered cs) = .ok () v) :
    attempts run (turns + 1) w = c :: attempts run turns v := by
  rw [attempts, h]
  simp only [hr]

theorem attempts_of_error {f : Failure} (h : w.roster.creations = c :: cs)
    (hr : commitCreation run c (w.ordered cs) = .error f v) : attempts run (turns + 1) w = [c] := by
  rw [attempts, h]
  simp only [hr]

theorem length_attempts_pos (run : Runner K) (h : w.roster.creations = c :: cs) (hturns : 0 < turns) :
    0 < (attempts run turns w).length := by
  obtain ⟨turns, rfl⟩ := Nat.exists_eq_succ_of_ne_zero hturns.ne'
  rw [attempts, h]
  exact Nat.succ_pos _

def commitRounds (run : Runner K) (turns : Nat) : (rounds : Nat) → World K → World K
  | 0, w => w
  | rounds + 1, w => commitRounds run turns rounds (left (commitCreations run turns 0 w))

def attemptRounds (run : Runner K) (turns : Nat) : (rounds : Nat) → World K → List (Creation K)
  | 0, _ => []
  | rounds + 1, w =>
    attempts run turns w ++ attemptRounds run turns rounds (left (commitCreations run turns 0 w))

end Commit

end Run

namespace World

/-- Queued creations are taken from the front of the queue one after the other, and each is carried out
for an entity. -/
inductive WorkedOff (n : Nat) : World K → List (Creation K × Entity) → World K → Prop
  | nil (w : World K) : WorkedOff n w [] w
  | cons {w v u : World K} {c : Creation K} {cs new : List (Creation K)} {e : Entity}
    {done : List (Creation K × Entity)} (hqueue : w.roster.creations = c :: cs)
    (hcommit : commitCreation (runScript (n + 1)) c (w.ordered cs) = .ok () v)
    (h : Carried n c e new (w.ordered cs) v) (hrest : WorkedOff n v done u) :
    WorkedOff n w ((c, e) :: done) u

/-- How a commit of creations ends that has counted some before, with the creations that it has
attempted: all are carried out and their number is given, or all before one that fails, whose fault is
given. -/
inductive Upshot (n count : Nat) (w : World K) :
    List (Creation K) → EStateM.Result Failure (World K) Nat → Prop
  | emptied {done : List (Creation K × Entity)} {v u : World K} (h : WorkedOff n w done v)
    (hempty : v.roster.creations = []) (hu : Written [] v u) :
    Upshot n count w (done.map (·.1)) (.ok (count + done.length) u)
  | failed {done : List (Creation K × Entity)} {v u : World K} {c : Creation K}
    {rest new : List (Creation K)} {f : Fault} (h : WorkedOff n w done v)
    (hqueue : v.roster.creations = c :: rest)
    (hcommit : commitCreation (runScript (n + 1)) c (v.ordered rest) = .error (.fault f) u)
    (hdropped : Dropped n c (v.ordered rest) f new u) :
    Upshot n count w (done.map (·.1) ++ [c]) (.error (.fault f) u)

/-- One creation more has been carried out before. -/
theorem Upshot.cons {count : Nat} {tried : List (Creation K)}
    {r : EStateM.Result Failure (World K) Nat} (hqueue : w.roster.creations = c :: cs)
    (hcommit : commitCreation (runScript (n + 1)) c (w.ordered cs) = .ok () v)
    (hcarried : Carried n c e new (w.ordered cs) v) (h : Upshot n (count + 1) v tried r) :
    Upshot n count w (c :: tried) r := by
  cases h with
  | @emptied done v' u hdone hempty hu =>
    rw [Nat.add_right_comm, Nat.add_assoc]
    exact .emptied (.cons hqueue hcommit hcarried hdone) hempty hu
  | failed hdone hnext hfail hdropped =>
    exact .failed (.cons hqueue hcommit hcarried hdone) hnext hfail hdropped

structure Ready (w : World K) : Prop extends w.AtEase where
  founds : ∀ c ∈ w.roster.creations, c.Founds

/-- What has been attempted is gone from the front of the queue, and what it has queued stands at its
end. -/
theorem WorkedOff.queue {done : List (Creation K × Entity)} (h : WorkedOff n w done u) :
    ∃ new, new.Sublist ((done.map (·.1)).flatMap (·.init.orders)) ∧
      w.roster.creations ++ new = done.map (·.1) ++ u.roster.creations := by
  induction h with
  | nil w => exact ⟨[], .refl _, List.append_nil _⟩
  | @cons w v u c cs new e done hqueue _ h hrest ih =>
    obtain ⟨later, hlater, heq⟩ := ih
    refine ⟨new ++ later, h.sublist.append hlater, ?_⟩
    rw [hqueue, List.map_cons, List.cons_append, List.cons_append, ← heq, h.creations_eq,
      List.append_assoc]
    rfl

theorem Upshot.queue {count : Nat} {tried : List (Creation K)}
    {r : EStateM.Result Failure (World K) Nat} (h : Upshot n count w tried r) :
    ∃ new, new.Sublist (tried.flatMap (·.init.orders)) ∧
      w.roster.creations ++ new = tried ++ (left r).roster.creations := by
  cases h with
  | @emptied done v u h hempty hu =>
    obtain ⟨new, hnew, heq⟩ := h.queue
    refine ⟨new, hnew, heq.trans ?_⟩
    show _ = done.map (·.1) ++ u.roster.creations
    rw [hu.eq]
  | @failed done v u c rest new f h hqueue _ hdropped =>
    obtain ⟨earlier, hearlier, heq⟩ := h.queue
    obtain ⟨hcreations, hnew⟩ := hdropped.queue
    refine ⟨earlier ++ new, ?_, ?_⟩
    · rw [List.flatMap_append, List.flatMap_singleton]
      exact hearlier.append hnew
    · show _ = done.map (·.1) ++ [c] ++ u.roster.creations
      rw [← List.append_assoc, heq, hqueue, hcreations, List.append_assoc, List.append_assoc]
      rfl

/-- What a commit leaves can lead to fewer attempts, by as many as there were. -/
theorem Upshot.brood_le {count : Nat} {tried : List (Creation K)}
    {r : EStateM.Result Failure (World K) Nat} (h : Upshot n count w tried r) :
    brood (left r).roster.creations + tried.length ≤ brood w.roster.creations := by
  obtain ⟨new, hnew, heq⟩ := h.queue
  have hbrood := congrArg brood heq
  have hqueued := brood_le_of_sublist hnew
  have htried := brood_flatMap_orders tried
  rw [brood_append, brood_append] at hbrood
  omega

/-- Other creations that come of queued ones are ready as well. -/
theorem Ready.next (h : w.Ready) (hqueue : w.roster.creations = c :: cs) (hu : u.AtEase)
    (hcreations : u.roster.creations = cs ++ new) (hnew : new.Sublist c.init.orders) : u.Ready := by
  refine ⟨hu, fun d hd => ?_⟩
  rw [hcreations] at hd
  rcases List.mem_append.mp hd with hd | hd
  · exact h.founds d (hqueue ▸ List.mem_cons_of_mem c hd)
  · exact (h.founds c (hqueue ▸ List.mem_cons_self)).of_mem_orders (hnew.subset hd)

theorem Ready.written {es : List (Event K)} (h : w.Ready) (hwritten : Written es w u) : u.Ready := by
  refine ⟨h.toAtEase.written hwritten, fun c hc => h.founds c ?_⟩
  rw [hwritten.eq] at hc
  exact hc

end World

namespace Run

section Upshots

variable {run : Runner K}

/-- A commit whose turns suffice for all that can come of the queue comes to an end. -/
theorem upshot_commitCreations (n : Nat) {turns : Nat} (count : Nat) (hw : w.Ready)
    (hturns : brood w.roster.creations < turns) :
    World.Upshot n count w (attempts (runScript (n + 1)) turns w)
        (commitCreations (runScript (n + 1)) turns count w) ∧
      (left (commitCreations (runScript (n + 1)) turns count w)).Ready := by
  induction turns generalizing w count with
  | zero => exact absurd hturns (Nat.not_lt_zero _)
  | succ turns ih =>
    cases hqueue : w.roster.creations with
    | nil =>
      obtain ⟨u, hcommit, hwritten⟩ := commitCreations_nil count hqueue
      rw [attempts_nil hqueue, hcommit]
      exact ⟨.emptied (.nil w) hqueue hwritten, hw.written hwritten⟩
    | cons c cs =>
      have hattempted := attempted_commitCreation n (hw.toAtEase.ordered cs)
        (hw.founds c (hqueue ▸ List.mem_cons_self))
      rw [commitCreations_cons count hqueue]
      cases hr : commitCreation (runScript (n + 1)) c (w.ordered cs) with
      | ok x v =>
        rw [hr] at hattempted
        cases hattempted with
        | carried h hv =>
          have hready : v.Ready := hw.next hqueue hv h.creations_eq h.sublist
          have hless : brood v.roster.creations < turns := by
            have hnew := brood_le_of_sublist h.sublist
            rw [brood_orders] at hnew
            rw [hqueue, brood_cons] at hturns
            rw [h.creations_eq, brood_append]
            show brood cs + _ < turns
            omega
          obtain ⟨hupshot, hleft⟩ := ih (count + 1) hready hless
          rw [bind_of_ok hr, attempts_of_ok hqueue hr]
          exact ⟨hupshot.cons hqueue hr h, hleft⟩
      | error g v =>
        rw [hr] at hattempted
        cases hattempted with
        | dropped h hv =>
          rw [bind_of_error hr, attempts_of_error hqueue hr]
          exact ⟨.failed (.nil w) hqueue hr h, hw.next hqueue hv h.queue.1 h.queue.2⟩

/-- Over some commits everything queued is attempted once and in order, or still waits. -/
theorem queue_commitRounds (n : Nat) {turns : Nat} (hw : w.Ready)
    (hturns : brood w.roster.creations < turns) (rounds : Nat) :
    ∃ new, new.Sublist ((attemptRounds (runScript (n + 1)) turns rounds w).flatMap (·.init.orders)) ∧
      w.roster.creations ++ new = attemptRounds (runScript (n + 1)) turns rounds w ++
        (commitRounds (runScript (n + 1)) turns rounds w).roster.creations := by
  induction rounds generalizing w with
  | zero => exact ⟨[], .refl _, List.append_nil _⟩
  | succ rounds ih =>
    obtain ⟨hupshot, hleft⟩ := upshot_commitCreations n 0 hw hturns
    obtain ⟨new, hnew, heq⟩ := hupshot.queue
    obtain ⟨later, hlater, heq'⟩ :=
      ih hleft (((Nat.le_add_right ..).trans hupshot.brood_le).trans_lt hturns)
    refine ⟨new ++ later, ?_, ?_⟩
    · rw [attemptRounds, List.flatMap_append]
      exact hnew.append hlater
    · rw [← List.append_assoc, heq, List.append_assoc, heq', ← List.append_assoc]
      rfl

/-- As many commits as attempts can come of the queue empty it. -/
theorem commitRounds_empty (n : Nat) {turns rounds : Nat} (hw : w.Ready)
    (hturns : brood w.roster.creations < turns) (hrounds : brood w.roster.creations ≤ rounds) :
    (commitRounds (runScript (n + 1)) turns rounds w).roster.creations = [] := by
  induction rounds generalizing w with
  | zero =>
    cases hqueue : w.roster.creations with
    | nil => exact hqueue
    | cons c cs =>
      rw [hqueue, brood_cons] at hrounds
      omega
  | succ rounds ih =>
    obtain ⟨hupshot, hleft⟩ := upshot_commitCreations n 0 hw hturns
    have hle := hupshot.brood_le
    refine ih hleft (by omega) ?_
    cases hqueue : w.roster.creations with
    | nil =>
      rw [hqueue, brood_nil] at hle
      omega
    | cons c cs =>
      have hone := length_attempts_pos (runScript (n + 1)) hqueue (Nat.zero_lt_of_lt hturns)
      omega

end Upshots

end Run

namespace World

/-- In every world that verbs have led to, with observers that only record, a commit of creations whose
initialisations keep to the records of their entities, fail or queue more of the same comes to an end, if
its turns suffice for all that can come of the queue. It carries them out from the front of the queue, each
followed by its signal, until the queue is empty, and gives their number; or it ends with the fault of the
first one that fails, which leaves no entity, no record and no signal behind, and what stood behind it in
the queue stands there still. Over any number of commits whatever was in the queue or joined it is
attempted once and in order, or waits; and enough commits empty it. -/
theorem creations_in_order {turns : Nat} (hw : w.Reached) (ho : w.OnlyRecords)
    (hfounds : ∀ c ∈ w.roster.creations, c.Founds) (hturns : brood w.roster.creations < turns) (n : Nat) :
    Upshot n 0 w (Run.attempts (runScript (n + 1)) turns w)
        (commitCreations (runScript (n + 1)) turns 0 w) ∧
      (∀ rounds, ∃ new,
        new.Sublist ((Run.attemptRounds (runScript (n + 1)) turns rounds w).flatMap (·.init.orders)) ∧
        w.roster.creations ++ new = Run.attemptRounds (runScript (n + 1)) turns rounds w ++
          (Run.commitRounds (runScript (n + 1)) turns rounds w).roster.creations) ∧
      ∀ rounds, brood w.roster.creations ≤ rounds →
        (Run.commitRounds (runScript (n + 1)) turns rounds w).roster.creations = [] := by
  obtain ⟨hfit, hlent⟩ := hw.atRest
  have hready : w.Ready := ⟨⟨hfit, hlent, ho⟩, hfounds⟩
  exact ⟨(Run.upshot_commitCreations n 0 hready hturns).1, Run.queue_commitRounds n hready hturns,
    fun _ => Run.commitRounds_empty n hready hturns⟩

section Queueing

theorem Reached.unqueued (h : w.Reached) (hempty : w.roster.creations.isEmpty = true) :
    w.Reached ∧ ∀ c ∈ w.roster.creations, c.Founds := by
  refine ⟨h, fun c hc => ?_⟩
  rw [List.isEmpty_iff.mp hempty] at hc
  cases hc

/-- One creation more is queued. -/
theorem Reached.queueing (h : w.Reached ∧ ∀ c ∈ w.roster.creations, c.Founds) (id : ArchetypeId)
    {init : Script K} (hinit : ∀ a ∈ init, a.verb.Founds) (n turns : Nat) :
    (left (Run.perform (runScript n) turns none (.queueCreation id init) w)).Reached ∧
      ∀ c ∈ (left (Run.perform (runScript n) turns none (.queueCreation id init) w)).roster.creations,
        c.Founds := by
  refine ⟨h.1.next n turns _, fun c hc => ?_⟩
  rw [Run.perform, Run.left_bind_pure, Run.queueCreation, Run.get_bind] at hc
  cases hknown : w.archetypes.contains id with
  | false =>
    rw [hknown] at hc
    exact h.2 c hc
  | true =>
    rw [hknown] at hc
    rcases List.mem_append.mp (hc : c ∈ w.roster.creations ++ [⟨id, init⟩]) with hc | hc
    · exact h.2 c hc
    · exact List.mem_singleton.mp hc ▸ hinit

end Queueing

/-- Of three creations the first queues a fourth one and the second fails after it has placed a record:
the third and the fourth are left, and the next commit creates them. -/
theorem creations_in_order_stopped :
    let _ := Sample.schema ""
    ∃ w u : World Sample.Kind, w.Reached ∧ w.OnlyRecords ∧
      w.roster.creations.map (·.archetype) = [1, 2, 1] ∧ brood w.roster.creations = 4 ∧
      Upshot 0 0 w (Run.attempts (runScript 1) 5 w) (.error (.fault (.systemNotFound "")) u) ∧
      (Run.attempts (runScript 1) 5 w).map (·.archetype) = [1, 2] ∧
      u.roster.creations.map (·.archetype) = [1, 3] ∧ u.population = 1 ∧
      (Run.attemptRounds (runScript 1) 5 4 w).map (·.archetype) = [1, 2, 1, 3] ∧
      (Run.commitRounds (runScript 1) 5 4 w).population = 3 ∧
      (Run.commitRounds (runScript 1) 5 4 w).roster.creations = [] := by
  intro _
  let queueing : Script Sample.Kind := [⟨"queue", .queueCreation 3 [], false⟩]
  let failing : Script Sample.Kind := [⟨"populate", .table .pos (.populate .itself ⟨1, 1⟩), false⟩,
    ⟨"fail", .fail (.systemNotFound ""), false⟩]
  have hqueueing : ∀ a ∈ queueing, a.verb.Founds := fun a ha =>
    List.mem_singleton.mp ha ▸ .queueCreation 3 fun b hb => by cases hb
  have hnothing : ∀ a ∈ ([] : Script Sample.Kind), a.verb.Founds := fun a ha => by cases ha
  have hfailing : ∀ a ∈ failing, a.verb.Founds := by
    intro a ha
    simp only [failing, List.mem_cons, List.not_mem_nil, or_false] at ha
    obtain rfl | rfl := ha
    · exact .minds (.table _ (.populate _))
    · exact .minds (.fail _)
  obtain ⟨w, ⟨h, hfounds⟩, hspent, hqueue, hbrood, htried, hall, hthree, hcommit⟩ :
      ∃ w : World Sample.Kind, (w.Reached ∧ ∀ c ∈ w.roster.creations, c.Founds) ∧
        w.observers.all (·.left == 0) = true ∧
        w.roster.creations.map (·.archetype) = [1, 2, 1] ∧ brood w.roster.creations = 4 ∧
        (Run.attempts (runScript 1) 5 w).map (·.archetype) = [1, 2] ∧
        (Run.attemptRounds (runScript 1) 5 4 w).map (·.archetype) = [1, 2, 1, 3] ∧
        (Run.commitRounds (runScript 1) 5 4 w).population = 3 ∧
        Run.fails (fun f u => decide (f = .systemNotFound "" ∧
          u.roster.creations.map (·.archetype) = [1, 3] ∧ u.population = 1))
          (commitCreations (runScript 1) 5 0 w) = true := by
    have h : Reached ({} : World Sample.Kind) := .start {} []
    have h := h.next 1 1 (.registerComponent .pos)
    have h := h.next 1 1 (.registerArchetype 1 "point" [⟨.pos, ⟨0, 0⟩⟩])
    have h := h.next 1 1 (.registerArchetype 2 "broken" [⟨.pos, ⟨0, 0⟩⟩])
    have h := h.next 1 1 (.registerArchetype 3 "late" [])
    have h := h.next 1 1 (.subscribe "observer" 0 [])
    have h := h.unqueued (by decide +kernel)
    have h := Reached.queueing h 1 hqueueing 1 1
    have h := Reached.queueing h 2 hfailing 1 1
    have h := Reached.queueing h 1 hnothing 1 1
    exact ⟨_, h, by decide +kernel, by decide +kernel, by decide +kernel, by decide +kernel,
      by decide +kernel, by decide +kernel, by decide +kernel⟩
  obtain ⟨hupshot, -, hempties⟩ :=
    creations_in_order h (onlyRecords_of_spent hspent) hfounds (hbrood ▸ by decide : _ < 5) 0
  obtain ⟨f, u, hr, hleft⟩ := Run.exists_of_fails hcommit
  obtain ⟨rfl, hwaiting, hone⟩ := of_decide_eq_true hleft
  exact ⟨w, u, h, onlyRecords_of_spent hspent, hqueue, hbrood, hr ▸ hupshot, htried, hwaiting, hone,
    hall, hthree, hempties 4 hbrood.le⟩

/-- An observer that is told of the first creation commits the second one: both entities are created, and
the commit counts one. -/
theorem creations_miscounted :
    let _ := Sample.schema ""
    ∃ w u : World Sample.Kind, w.Reached ∧ (∀ c ∈ w.roster.creations, c.Founds) ∧
      w.roster.creations.length = 2 ∧ w.population = 0 ∧
      commitCreations (runScript 3) 3 0 w = .ok 1 u ∧ u.roster.creations = [] ∧ u.population = 2 := by
  intro _
  let meddling : Script Sample.Kind := [⟨"commit", .commitCreations, false⟩]
  have hnothing : ∀ a ∈ ([] : Script Sample.Kind), a.verb.Founds := fun a ha => by cases ha
  obtain ⟨w, ⟨h, hfounds⟩, htwo, hnobody, hcommit⟩ : ∃ w : World Sample.Kind,
      (w.Reached ∧ ∀ c ∈ w.roster.creations, c.Founds) ∧ w.roster.creations.length = 2 ∧
        w.population = 0 ∧ Run.yields (fun number u => decide (number = 1) &&
          u.roster.creations.isEmpty && decide (u.population = 2))
          (commitCreations (runScript 3) 3 0 w) = true := by
    have h : Reached ({} : World Sample.Kind) := .start {} []
    have h := h.next 1 1 (.registerArchetype 1 "unit" [])
    have h := h.next 1 1 (.subscribe "meddler" 1 [(.entityCreated, meddling)])
    have h := h.unqueued (by decide +kernel)
    have h := Reached.queueing h 1 hnothing 1 1
    have h := Reached.queueing h 1 hnothing 1 1
    exact ⟨_, h, by decide +kernel, by decide +kernel, by decide +kernel⟩
  obtain ⟨number, u, hr, hleft⟩ := Run.exists_of_yields hcommit
  simp only [Bool.and_eq_true, decide_eq_true_eq, List.isEmpty_iff] at hleft
  obtain ⟨⟨rfl, hempty⟩, hboth⟩ := hleft
  exact ⟨w, u, h, hfounds, htwo, hnobody, hr, hempty, hboth⟩

end World

end EntityStore
