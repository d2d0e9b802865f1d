import EntityStore.Proofs.World.Storing

/-!
# What waits in the queues

Queueing does nothing but to mark the entities that are to go. So a world in which destructions and
creations wait is a twin of the one in which they do not, and the commit of the destructions does what
destroying the entities does, one after the other.
-/
namespace EntityStore

open Run (bind_of_ok KeepsFit mild_top)
open World (Twins)

variable {K : Type} [Schema K] {r : Roster K} {l : Issuer.Ledger 32} {e : Entity} {d : Destruction}
variable {ds : List Destruction} {cs : List (Creation K)} {notify : Bool}

section Asked

variable (asked : List (Destruction ⊕ Creation K)) (d : Destruction) (c : Creation K)

def destructionsOf : List Destruction := asked.filterMap Sum.getLeft?

def creationsOf : List (Creation K) := asked.filterMap Sum.getRight?

@[simp] theorem destructionsOf_inl : destructionsOf (.inl d :: asked) = d :: destructionsOf asked := rfl

@[simp] theorem destructionsOf_inr : destructionsOf (.inr c :: asked) = destructionsOf asked := rfl

@[simp] theorem creationsOf_inl : creationsOf (.inl d :: asked) = creationsOf asked := rfl

@[simp] theorem creationsOf_inr : creationsOf (.inr c :: asked) = c :: creationsOf asked := rfl

end Asked

/-- The bookkeeping of an entity when destructions are queued. -/
def EntityInfo.pending (ds : List Destruction) (e : Entity) (info : EntityInfo) : EntityInfo :=
  { info with marked := info.marked || decide (e ∈ ds.map (·.entity)) }

namespace Roster

/-- The roster with other queues, its entities marked if their destruction is queued. -/
def pending (r : Roster K) (ds : List Destruction) (cs : List (Creation K)) : Roster K where
  arena := r.arena.rewritten fun i => EntityInfo.pending ds ⟨i⟩
  destructions := ds
  creations := cs

theorem pending_nil (r : Roster K) (cs : List (Creation K)) :
    r.pending [] cs = { r with destructions := [], creations := cs } := by
  have hnobody : (fun (i : Ident 32) info => EntityInfo.pending [] ⟨i⟩ info) = fun _ info => info := by
    funext i info
    simp [EntityInfo.pending]
  rw [pending, hnobody, Arena.rewritten_self]

theorem stocked_pending (h : r.arena.Stocked l) : (r.pending ds cs).arena.Stocked l := h.rewritten _

theorem get?_pending (h : r.arena.Stocked l) (e : Entity) :
    (r.pending ds cs).arena.get? e.ident = (r.arena.get? e.ident).map (EntityInfo.pending ds e) :=
  h.get?_rewritten _ e.ident

theorem contains_pending (h : r.arena.Stocked l) (e : Entity) :
    (r.pending ds cs).arena.contains e.ident = r.arena.contains e.ident := by
  rw [(stocked_pending h).contains_eq, get?_pending h, h.contains_eq, Option.isSome_map]

/-- Who is marked as well is queued behind the others. -/
theorem marking_pending (h : r.arena.Stocked l) :
    (r.pending ds cs).marking e notify = r.pending (ds ++ [⟨e, notify⟩]) cs := by
  have harena : (r.pending ds cs).arena.modify e.ident (fun info => { info with marked := true }) =
      (r.pending (ds ++ [⟨e, notify⟩]) cs).arena := by
    rw [(stocked_pending h).modify_eq, pending, Arena.rewritten_rewritten, pending]
    congr 1
    funext i info
    by_cases hi : i = e.ident
    · subst hi
      simp [EntityInfo.pending]
    · have hne : (⟨i⟩ : Entity) ≠ e := fun he => hi (congrArg Entity.ident he)
      simp [EntityInfo.pending, hi, hne]
  rw [marking, harena]
  rfl

/-- Once the first one is gone the others wait. -/
theorem without_pending {info : EntityInfo} (h : r.arena.Stocked l)
    (he : r.arena.get? d.entity.ident = some info) :
    ({ r.pending (d :: ds) cs with destructions := ds } : Roster K).without d.entity =
      (r.without d.entity).pending ds cs := by
  have harena : (r.pending (d :: ds) cs).arena.without d.entity.ident =
      ((r.without d.entity).pending ds cs).arena := by
    rw [pending, Arena.without_rewritten, pending]
    refine (h.without he).rewritten_congr fun i v hv => ?_
    rw [h.get?_without, Function.update_apply] at hv
    split at hv
    · cases hv
    · next hi =>
      have hne : (⟨i⟩ : Entity) ≠ d.entity := fun he => hi (congrArg Entity.ident he)
      simp [EntityInfo.pending, hne]
  rw [without, harena]
  rfl

end Roster

variable [DecidableEq K] {u v w : World K} {x y : Office K}

namespace World

def pending (w : World K) (ds : List Destruction) (cs : List (Creation K)) : World K :=
  { w with roster := w.roster.pending ds cs }

theorem Fit.pending (hw : w.Fit) (ds : List Destruction) (cs : List (Creation K)) :
    (w.pending ds cs).Fit := by
  obtain ⟨l, hl⟩ := hw.roster
  exact ⟨hw.enterable, hw.lock_lt, hw.keys_nodup, hw.tables, ⟨l, Roster.stocked_pending hl⟩,
    hw.handles⟩

omit [DecidableEq K] in
/-- Who is not destroyed lives and is not marked. -/
theorem info?_of_not_isDestroyed (h : w.isDestroyed e = false) :
    ∃ info, w.info? e = some info ∧ info.marked = false := by
  unfold isDestroyed at h
  cases hinfo : w.info? e with
  | none => simp [hinfo] at h
  | some info => exact ⟨info, rfl, by simpa [hinfo] using h⟩

end World

namespace Run

def enqueue : Destruction ⊕ Creation K → Run K Unit
  | .inl d => queueDestruction d.entity d.notify
  | .inr c => queueCreation c.archetype c.init

theorem queueDestruction_pending (hw : w.Fit) (he : w.isDestroyed d.entity = false)
    (hnew : d.entity ∉ ds.map (·.entity)) :
    queueDestruction d.entity d.notify (w.pending ds cs) = .ok () (w.pending (ds ++ [d]) cs) := by
  obtain ⟨l, hl⟩ := hw.roster
  obtain ⟨info, hinfo, hmarked⟩ := World.info?_of_not_isDestroyed he
  have hget : (w.roster.pending ds cs).arena.get? d.entity.ident = some info := by
    have hinfo' : w.roster.arena.get? d.entity.ident = some info := hinfo
    rw [Roster.get?_pending hl, hinfo', Option.map_some, EntityInfo.pending, decide_eq_false hnew,
      Bool.or_false]
  have hmark : (w.pending ds cs).roster.mark d.entity d.notify =
      .ok (true, w.roster.pending (ds ++ [d]) cs) := by
    rw [← Roster.marking_pending hl]
    show (w.roster.pending ds cs).mark _ _ = _
    rw [Roster.mark, hget]
    simp only [hmarked, Bool.false_eq_true, if_false]
    rfl
  rw [queueDestruction, get_bind, hmark]
  rfl

omit [DecidableEq K] in
theorem queueCreation_pending [DecidableEq K] {c : Creation K}
    (hc : w.archetypes.contains c.archetype = true) :
    queueCreation c.archetype c.init (w.pending ds cs) = .ok () (w.pending ds (cs ++ [c])) := by
  have hc' : (w.pending ds cs).archetypes.contains c.archetype = true := hc
  rw [queueCreation, get_bind, hc']
  rfl

/-- Whatever is queued waits in the order of its queue. -/
theorem enqueue_all (hw : w.Fit) {asked : List (Destruction ⊕ Creation K)}
    (hD : ∀ d ∈ destructionsOf asked, w.isDestroyed d.entity = false)
    (hC : ∀ c ∈ creationsOf asked, w.archetypes.contains c.archetype = true)
    (hnodup : ((ds ++ destructionsOf asked).map (·.entity)).Nodup) :
    asked.forM enqueue (w.pending ds cs) =
      .ok () (w.pending (ds ++ destructionsOf asked) (cs ++ creationsOf asked)) := by
  induction asked generalizing ds cs with
  | nil =>
    show EStateM.Result.ok () (w.pending ds cs) = .ok () (w.pending (ds ++ []) (cs ++ []))
    rw [List.append_nil, List.append_nil]
  | cons a asked ih =>
    cases a with
    | inl d =>
      have hnew : d.entity ∉ ds.map (·.entity) := by
        rw [List.map_append, List.nodup_append] at hnodup
        exact fun hmem => hnodup.2.2 _ hmem _ List.mem_cons_self rfl
      have hqueued : queueDestruction d.entity d.notify (w.pending ds cs) = _ :=
        queueDestruction_pending hw (hD d List.mem_cons_self) hnew
      refine (bind_of_ok hqueued).trans ?_
      rw [destructionsOf_inl, List.append_cons ds d (destructionsOf asked)] at hnodup ⊢
      exact ih (fun d' hd' => hD d' (List.mem_cons_of_mem d hd')) hC hnodup
    | inr c =>
      have hqueued : queueCreation c.archetype c.init (w.pending ds cs) = _ :=
        queueCreation_pending (hC c List.mem_cons_self)
      refine (bind_of_ok hqueued).trans ?_
      rw [creationsOf_inr, List.append_cons cs c (creationsOf asked)]
      exact ih hD (fun c' hc' => hC c' (List.mem_cons_of_mem c hc')) hnodup

end Run

def Office.without (x : Office K) (e : Entity) : Office K := { x with roster := x.roster.without e }

def Office.pending (x : Office K) (ds : List Destruction) (cs : List (Creation K)) : Office K :=
  { x with roster := x.roster.pending ds cs }

def Office.queued (x : Office K) (ds : List Destruction) : Office K :=
  { x with roster := { x.roster with destructions := ds } }

omit [DecidableEq K] in
theorem Office.without_pending {info : EntityInfo} (h : x.roster.arena.Stocked l)
    (he : x.roster.arena.get? d.entity.ident = some info) :
    ((x.pending (d :: ds) cs).queued ds).without d.entity = (x.without d.entity).pending ds cs :=
  congrArg (fun roster => { x with roster }) (Roster.without_pending h he)

namespace World.Twins

/-- Who waits in the queues makes no difference to tables and handles. -/
theorem pending (hw : w.Fit) (ho : w.OnlyRecords) (ds : List Destruction) (cs : List (Creation K)) :
    Twins w.office (w.office.pending ds cs) w (w.pending ds cs) :=
  ⟨⟨rfl, rfl, fun _ => rfl, rfl⟩, hw, hw.pending ds cs, ho, rfl, rfl⟩

theorem isLive_eq (h : Twins x y u v) (e : Entity) :
    u.isLive e = x.roster.arena.contains e.ident := by
  rw [← h.office_eq]
  rfl

theorem freed (h : Twins x y u v) (e : Entity) :
    Twins (x.without e) (y.without e) (u.freed e) (v.freed e) := by
  have hleft := h.alike.withRosters (u.roster.without e) (v.roster.without e) u.readings v.readings
  refine ⟨hleft.written ?_, h.fit.freed e, h.fit'.freed e, h.onlyRecords, ?_, ?_⟩
  · rw [Event.filter_isTrigger_of_isLocal (Arena.isLocal_removeNotices _ _),
      Event.filter_isTrigger_of_isLocal (Arena.isLocal_removeNotices _ _)]
  · show u.office.without e = x.without e
    rw [h.office_eq]
  · show v.office.without e = y.without e
    rw [h.office_eq']

theorem queued (h : Twins x y u v) (ds : List Destruction) :
    Twins x (y.queued ds) u (v.queued ds) := by
  refine ⟨h.alike.withRosters u.roster _ u.readings v.readings, h.fit, h.fit'.queued ds,
    h.onlyRecords, h.office_eq, ?_⟩
  rw [← h.office_eq']
  rfl

/-- One side tells of something that is not a signal. -/
theorem noted (h : Twins x y u v) {n : Notice} (hn : (Event.notice n : Event K).isTrigger = false) :
    Twins x y u { v with events := v.events.push (.notice n) } := by
  have hwritten : Twins x y { u with events := u.events ++ #[] }
      { v with events := v.events ++ #[.notice n] } := h.written (by simp [hn])
  rwa [Array.append_empty, ← Array.push_eq_append] at hwritten

end World.Twins

def Office.withoutAll (x : Office K) (ds : List Destruction) : Office K :=
  ds.foldl (fun x d => x.without d.entity) x

namespace Run

theorem coupled_clearEntity (e : Entity) (ks : List K) :
    Coupled (Twins x y) (· = ·) (clearEntity e ks) (clearEntity e ks) := by
  induction ks with
  | nil => exact coupled_pure rfl
  | cons k ks ih =>
    refine (coupled_onTable (Table.deaf_read _) fun A _ => Table.neat_read _).bind_eq fun found => ?_
    cases found with
    | true =>
      exact (coupled_onTable (Table.deaf_destroy e) fun A _ => Table.neat_destroy e).bind_eq
        fun _ => ih
    | false => exact ih

theorem keepsFit_clearEntity_free (e : Entity) (ks : List K) :
    KeepsFit (clearEntity e ks >>= fun _ => free e) := by
  intro w hw
  refine (keeps_clearEntity mild_top e ks w hw).bind mild_top fun _ v _ hv => ?_
  cases he : v.isLive e with
  | true =>
    rw [free_of_live hv he]
    exact ⟨hv.freed e, .refl _, trivial⟩
  | false =>
    rw [free_of_dead hv he]
    exact .stay mild_top hv rfl

/-- If an entity that lives in both can be taken out of one twin, it can be taken out of the other. -/
theorem led_raze (h : Twins x y u v) (hx : x.roster.arena.contains e.ident = true)
    (hy : y.roster.arena.contains e.ident = true) :
    Led (Twins (x.without e) (y.without e)) (raze e u) (raze e v) := by
  unfold raze
  simp only [get_bind, ← LockedRun.lift_bind]
  rw [h.alike.tables_eq]
  refine (led_withAllTables_both h (fun u' v' h' => ?_) (keepsFit_clearEntity_free e _)
    (keepsFit_clearEntity_free e _)).bind fun _ _ _ _ h' => (coupled_note _ _ _ h').led
  refine (coupled_clearEntity e _ _ _ h').led.bind fun _ u' v' _ h' => ?_
  rw [free_of_live h'.fit ((h'.isLive_eq e).trans hx),
    free_of_live h'.fit' ((h'.symm.isLive_eq e).trans hy)]
  exact (Matched.ok rfl (h'.freed e)).led

theorem led_destroy (run run' : Runner K) (h : Twins x y u v)
    (hx : x.roster.arena.contains e.ident = true) (hy : y.roster.arena.contains e.ident = true)
    (notify : Bool) :
    Led (Twins (x.without e) (y.without e)) (destroy run e notify u) (destroy run' e notify v) := by
  have hu : u.isLive e = true := (h.isLive_eq e).trans hx
  have hv : v.isLive e = true := (h.symm.isLive_eq e).trans hy
  rw [destroy_eq, destroy_eq, get_bind, get_bind, hu, hv]
  cases notify with
  | true => exact ((coupled_fire run run' _ u v h).led).bind fun _ _ _ _ h' => led_raze h' hx hy
  | false => exact led_raze h hx hy

/-- Destroying some entities at once and committing their destructions both succeed, and leave twins. -/
theorem commitDestructions_pending (run run' : Runner K) {turns : Nat} (count : Nat)
    (h : Twins x (x.pending ds cs) u v) (hlends : ∀ k, ¬u.LendsOut k)
    (hlive : ∀ d ∈ ds, u.isLive d.entity = true) (hnodup : (ds.map (·.entity)).Nodup)
    (hturns : ds.length < turns) :
    ∃ u' v', (ds.forM fun d => destroy run d.entity d.notify) u = .ok () u' ∧
      commitDestructions run' turns count v = .ok (count + ds.length) v' ∧
      Twins (x.withoutAll ds) ((x.withoutAll ds).pending [] cs) u' v' := by
  induction ds generalizing x u v turns count with
  | nil =>
    obtain ⟨turns, rfl⟩ := Nat.exists_eq_succ_of_ne_zero (Nat.ne_of_gt hturns)
    have hd : v.roster.destructions = [] := congrArg (·.roster.destructions) h.office_eq'
    rw [commitDestructions_nil hd]
    split
    · exact ⟨u, _, rfl, rfl, h.noted rfl⟩
    · exact ⟨u, v, rfl, rfl, h⟩
  | cons d ds ih =>
    obtain ⟨turns, rfl⟩ := Nat.exists_eq_succ_of_ne_zero (Nat.ne_zero_of_lt hturns)
    obtain ⟨hnew, hnodup'⟩ := List.nodup_cons.mp hnodup
    obtain ⟨l, hl⟩ := h.fit.roster
    obtain rfl := h.office_eq
    have hu : u.isLive d.entity = true := hlive d List.mem_cons_self
    have hy : (u.roster.pending (d :: ds) cs).arena.contains d.entity.ident = true :=
      (Roster.contains_pending hl d.entity).trans hu
    have hv : v.isLive d.entity = true := (h.symm.isLive_eq d.entity).trans hy
    have hd : v.roster.destructions = d :: ds := congrArg (·.roster.destructions) h.office_eq'
    -- the first one is destroyed on both sides
    obtain ⟨u₁, hok, hrazed⟩ : ∃ u₁, destroy run d.entity d.notify u = .ok () u₁ ∧
        World.Razed d.entity (World.obituary d.entity d.notify) u u₁ :=
      destroy_of_onlyRecords h.fit hlends h.onlyRecords hu d.notify
    obtain ⟨v₁, hok', h₁⟩ := (led_destroy run run' (h.queued ds) hu hy d.notify).of_ok hok
    obtain ⟨info, hinfo⟩ := h.fit.exists_info? hu
    rw [Office.without_pending (x := u.office) hl hinfo] at h₁
    have hlive' : ∀ d' ∈ ds, u₁.isLive d'.entity = true := fun d' hd' => by
      have hne : d'.entity ≠ d.entity := fun he => hnew (List.mem_map.mpr ⟨d', hd', he⟩)
      rw [hrazed.isLive_eq h.fit, hlive d' (List.mem_cons_of_mem d hd'), decide_eq_true hne]
      rfl
    obtain ⟨u', v', hdirect, hlater, h'⟩ := ih _ h₁
      (fun k hk => hlends k ((hrazed.lendsOut_iff k).mp hk)) hlive' hnodup' (Nat.lt_of_succ_lt_succ hturns)
    refine ⟨u', v', (bind_of_ok hok).trans hdirect, ?_, h'⟩
    rw [commitDestructions_of_ok hd hv hok', hlater, List.length_cons, Nat.add_right_comm,
      Nat.add_assoc]

end Run

end EntityStore
