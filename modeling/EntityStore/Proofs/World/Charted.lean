import EntityStore.Proofs.World.Stages

/-!
# Keeping track of lives

Every operation keeps what is told of entities in order. An operation that was not broken off leaves
nobody in the middle: who was told of as it should be is so afterwards, and who is being created by
somebody else is not told of as created. An entity that is created is told of as such at the end if all
went well, and else it is destroyed again without a signal.
-/
namespace EntityStore

open Run (left Keeps Passes Tending Moving)

variable {K α : Type} [Schema K] [DecidableEq K] {v w w' w'' : World K} {x e : Entity}

namespace World

/-- Everything told of entities is in order, and told of such only as have been issued. -/
def Charted (w : World K) : Prop :=
  ∃ l, w.Counted l ∧ ∀ x, w.Lawful x ∧ (w.life x ≠ [] → x.ident ∈ l.handed)

namespace Charted

omit [DecidableEq K] in
theorem start (settings : Settings) (plans : List (SystemId × Plan K)) :
    ({ settings, plans } : World K).Charted :=
  ⟨_, .start settings plans, fun _ => ⟨.inl ⟨rfl, rfl⟩, fun h => absurd rfl h⟩⟩

omit [DecidableEq K] in
theorem lawful (h : w.Charted) (x : Entity) : w.Lawful x := by
  obtain ⟨l, -, hl⟩ := h
  exact (hl x).1

omit [DecidableEq K] in
/-- Nothing has been told of an entity that comes now. -/
theorem unborn (h : w.Charted) (hi : w.roster.arena.issuer.next? = some e.ident) :
    w.life e = [] := by
  obtain ⟨l, hcounted, hl⟩ := h
  by_contra hne
  exact hcounted.not_handed hi ((hl e).2 hne)

omit [DecidableEq K] in
/-- Nothing has been told, and the same entities live. -/
theorem silent (h : w.Charted) (hlife : ∀ x, w'.life x = w.life x)
    (hlive : ∀ x, w'.isLive x = w.isLive x) (hcounted : ∀ l, w.Counted l → w'.Counted l) :
    w'.Charted := by
  obtain ⟨l, hl, hlaw⟩ := h
  refine ⟨l, hcounted l hl, fun x => ⟨(hlaw x).1.of_eq (hlife x) (hlive x), fun hne => ?_⟩⟩
  exact (hlaw x).2 (hlife x ▸ hne)

theorem beside {T : Entity → Prop} (h : w.Charted) (hb : Beside T w w') : w'.Charted :=
  h.silent (fun x => (hb.told.life_eq x).trans (List.append_nil _)) hb.isLive_eq fun _ hl =>
    hl.of_arena (by rw [hb.roster_eq]) hb.told.returns_eq

theorem minted (h : w.Charted) (hw : w.Fit) (hi : w.roster.arena.issuer.next? = some e.ident)
    (a : ArchetypeId) : (w.minted a e).Charted := by
  have hunborn := h.unborn hi
  obtain ⟨l, hl, hlaw⟩ := h
  have hturned := w.turned_minted a e
  refine ⟨_, hl.enrolled hi hturned, fun x => ?_⟩
  have hlive : (w.minted a e).isLive x = if x = e then true else w.isLive x := by
    rw [(hw.minted a hi).isLive_eq, hturned.info?_of_enrolled hw hi, hw.isLive_eq]
    split <;> rfl
  by_cases hx : x = e
  · subst hx
    have hlife : (w.minted a x).life x = [.minted] := by
      rw [hturned.told.life_eq_of_some (if_pos rfl), hunborn]
      rfl
    rw [if_pos rfl] at hlive
    exact ⟨.inr ⟨false, 0, false, hlife, hlive⟩, fun _ => List.mem_cons_self⟩
  · have hsame : (w.minted a e).life x = w.life x :=
      hturned.told.life_eq_of_none (if_neg (Ne.symm hx))
    rw [if_neg hx] at hlive
    exact ⟨(hlaw x).1.of_eq hsame hlive, fun hne => List.mem_cons_of_mem _ ((hlaw x).2 (hsame ▸ hne))⟩

omit [DecidableEq K] in
/-- Observers have been told of an entity, and nothing else has changed. -/
theorem signalled {s : Signal} (h : w.Charted) (hs : s.entity? = some e)
    (hwritten : Written [.notice (.fired s)] w w') (hlaw : w'.Lawful e)
    (hissued : w.life e ≠ []) : w'.Charted := by
  obtain ⟨l, hl, hlaws⟩ := h
  have hroster : w'.roster = w.roster := by rw [hwritten.eq]
  refine ⟨l, hl.of_arena (by rw [hroster]) hwritten.told.returns_eq, fun x => ?_⟩
  by_cases hx : x = e
  · subst hx
    exact ⟨hlaw, fun _ => (hlaws x).2 hissued⟩
  · have hsame : w'.life x = w.life x := by
      refine hwritten.told.life_eq_of_none ?_
      cases s <;> cases hs <;> simp [Event.stage?, Ne.symm hx]
    refine ⟨(hlaws x).1.of_eq hsame ?_, fun hne => (hlaws x).2 (hsame ▸ hne)⟩
    rw [isLive, hroster, isLive]

omit [DecidableEq K] in
theorem created (h : w.Charted) (hlife : w.life e = [.minted])
    (hwritten : Written [.notice (.fired (.entityCreated e))] w w') :
    w'.Charted ∧ w'.life e = [.minted, .created] := by
  have hlife' : w'.life e = [.minted, .created] := by
    rw [hwritten.told.life_eq_of_some (if_pos rfl), hlife]
    rfl
  have hlive : w'.isLive e = w.isLive e := by rw [hwritten.eq]; rfl
  have hlives : w.isLive e = true := (h.lawful e).isLive_iff.mpr (by simp [hlife])
  exact ⟨h.signalled rfl hwritten (.inr ⟨true, 0, false, hlife', hlive.trans hlives⟩) (by simp [hlife]),
    hlife'⟩

omit [DecidableEq K] in
/-- What is told before an entity is destroyed, if it is told of at all. -/
theorem announced {notify : Bool} (h : w.Charted) (he : w.isLive e = true)
    (hwritten : Written (if notify then [.notice (.fired (.entityDestroyed e))] else []) w w') :
    w'.Charted ∧ w'.life e = w.life e ++ if notify then [.ending] else [] := by
  have hlive : ∀ x, w'.isLive x = w.isLive x := fun x => by rw [hwritten.eq]; rfl
  cases notify with
  | false =>
    have hlife : ∀ x, w'.life x = w.life x := fun x =>
      (hwritten.told.life_eq x).trans (List.append_nil _)
    refine ⟨h.silent hlife hlive fun l hl => ?_, (hlife e).trans (List.append_nil _).symm⟩
    exact hl.of_arena (by rw [hwritten.eq]) hwritten.told.returns_eq
  | true =>
    have hlife : w'.life e = w.life e ++ [.ending] :=
      hwritten.told.life_eq_of_some (if_pos rfl)
    obtain ⟨b, n, hcourse⟩ := (h.lawful e).exists_course he
    refine ⟨h.signalled rfl hwritten (.inr ⟨b, n + 1, false, ?_, (hlive e).trans he⟩) ?_, hlife⟩
    · rw [hlife, hcourse, Stage.course_append_ending]
    · rw [hcourse]
      exact List.cons_ne_nil _ _

theorem razed (h : w.Charted) (hw : w.Fit) (he : w.isLive e = true)
    (hrazed : Razed e [.notice (.destroyed e)] w w') (hu : w'.Unworn) :
    w'.Charted ∧ w'.life e = w.life e ++ [.gone] := by
  have hlife : w'.life e = w.life e ++ [.gone] :=
    hrazed.told.life_eq_of_some (if_pos rfl)
  obtain ⟨b, n, hcourse⟩ := (h.lawful e).exists_course he
  obtain ⟨l, hl, hlaw⟩ := h
  refine ⟨⟨_, hl.razed he hrazed hu, fun x => ?_⟩, hlife⟩
  have hlive := hrazed.isLive_eq hw x
  by_cases hx : x = e
  · subst hx
    refine ⟨.inr ⟨b, n, true, ?_, by simpa using hlive⟩, fun _ => (hlaw x).2 (by simp [hcourse,
      Stage.course])⟩
    rw [hlife, hcourse, Stage.course_append_gone]
  · have hsame : w'.life x = w.life x :=
      hrazed.told.life_eq_of_none (if_neg (Ne.symm hx))
    refine ⟨(hlaw x).1.of_eq hsame (by simpa [hx] using hlive), fun hne => ?_⟩
    exact (hlaw x).2 (hsame ▸ hne)

end Charted

/-- Who was told of as it should be is so afterwards, and who was being created or gone is so. -/
structure Fares (x : Entity) (w w' : World K) : Prop where
  whole : Stage.Whole (w.life x) → Stage.Whole (w'.life x)
  pending : Stage.Pending (w.life x) → Stage.Pending (w'.life x)

namespace Fares

omit [DecidableEq K]

theorem of_eq (h : w'.life x = w.life x) : Fares x w w' := ⟨by rw [h]; exact id, by rw [h]; exact id⟩

theorem trans (h : Fares x w w') (h' : Fares x w' w'') : Fares x w w'' :=
  ⟨h'.whole ∘ h.whole, h'.pending ∘ h.pending⟩

/-- With an entity that is destroyed it is as it should be if it was so before, and if it was being
created it is gone. With others nothing changes. -/
theorem of_obituary {notify : Bool} (hc : w.Charted) (he : w.isLive e = true)
    (htold : Told (obituary e notify) w w') : Fares x w w' := by
  by_cases hx : x = e
  · subst hx
    have hlife : w'.life x = w.life x ++ if notify then [.ending, .gone] else [.gone] := by
      rw [htold.life_eq]
      cases notify <;> simp [obituary, Event.stage?]
    obtain ⟨hborn, hgone⟩ := (hc.lawful x).isLive_iff.mp he
    refine ⟨fun hwhole => ?_, fun _ => .inr ?_⟩
    · rw [hlife, hwhole.eq_of_not_gone hborn hgone]
      cases notify with
      | false => exact .destroyed
      | true => exact .announced
    · rw [hlife]
      cases notify <;> simp
  · refine .of_eq ?_
    rw [htold.life_eq]
    cases notify <;> simp [obituary, Event.stage?, Ne.symm hx]

end Fares

/-- An entity has been made up, as far as that went: it is still being created. -/
structure MadeUp (e : Entity) (w w' : World K) : Prop where
  fit : w'.Fit
  charted : w'.Charted
  fares : ∀ x, Fares x w w'
  life_eq : w'.life e = [.minted]

theorem MadeUp.isLive_eq (h : MadeUp e w w') : w'.isLive e = true :=
  (h.charted.lawful e).isLive_iff.mpr (by simp [h.life_eq])

/-- What an operation does to what is told of entities. -/
structure Charts (b : Bool) (w w' : World K) : Prop where
  onward : Onward w w'
  charted : w'.Orderly → w.Charted → w'.Charted ∧ (b = false → ∀ x, Fares x w w')

namespace Charts

omit [DecidableEq K] in
theorem of_silent (hon : Onward w w') (hlife : ∀ x, w'.life x = w.life x)
    (hlive : ∀ x, w'.isLive x = w.isLive x) (hcounted : ∀ l, w.Counted l → w'.Counted l) :
    Charts false w w' :=
  ⟨hon, fun _ hc => ⟨hc.silent hlife hlive hcounted, fun _ x => .of_eq (hlife x)⟩⟩

omit [DecidableEq K] in
/-- The arena is as before, and nothing has been told of entities. -/
theorem of_arena {es : List (Event K)} (hon : Onward w w') (htold : Told es w w')
    (harena : w'.roster.arena = w.roster.arena) (hes : ∀ x, es.filterMap (Event.stage? x) = [])
    (hreturns : ∀ i, w'.returns i = w.returns i) : Charts false w w' := by
  refine of_silent hon (fun x => ?_) (fun x => ?_) fun l hl => hl.of_arena harena hreturns
  · rw [htold.life_eq, hes, List.append_nil]
  · rw [isLive, harena, isLive]

omit [DecidableEq K] in
theorem of_nothing (hon : Onward w w') (htold : Told [] w w')
    (harena : w'.roster.arena = w.roster.arena) : Charts false w w' :=
  of_arena hon htold harena (fun _ => rfl) htold.returns_eq

omit [DecidableEq K] in
/-- A signal that is not about an entity. -/
theorem of_fired {s : Signal} (hon : Onward w w') (htold : Told [.notice (.fired s)] w w')
    (harena : w'.roster.arena = w.roster.arena) (hs : s.entity? = none) : Charts false w w' :=
  of_arena hon htold harena
    (fun x => by rw [List.filterMap_cons_none (Signal.stage?_of_entity? hs), List.filterMap_nil])
    htold.returns_eq

theorem tending : Tending (K := K) (fun _ _ => True) Charts where
  weaken h := ⟨h.onward, fun ho hc => ⟨(h.charted ho hc).1, fun hb => by cases hb⟩⟩
  trans {b b' u v w} h h' := by
    refine ⟨h.onward.trans h'.onward, fun ho hc => ?_⟩
    obtain ⟨hv, hfares⟩ := h.charted (h'.onward.orderly ho) hc
    obtain ⟨hw, hfares'⟩ := h'.charted ho hv
    refine ⟨hw, fun hb x => ?_⟩
    obtain ⟨hb, hb'⟩ := Bool.or_eq_false_iff.mp hb
    exact (hfares hb x).trans (hfares' hb' x)
  beside h := of_nothing (.of_calm h.aside.calm) h.told (by rw [h.roster_eq])
  noted s _ hs h hcalm := of_fired (.of_calm hcalm) h.told (by rw [h.roster_eq]) hs
  marked hw hw' _ _ h hcalm :=
    of_silent (.of_calm hcalm) (fun x => (h.told.life_eq x).trans (List.append_nil _))
      (h.isLive_of_marking hw hw') fun _ hl => hl.marked h
  ordered cs h hcalm := of_nothing (.of_calm hcalm) h.told (by rw [h.roster_eq])
  registered hc := of_nothing (upkeep_onward.registered hc) (.of_eq rfl) rfl
  tuned s f hf := of_nothing (upkeep_onward.tuned s f hf) (.of_eq rfl) rfl
  adopted {w} s := of_nothing (upkeep_onward.adopted s) (Turned.adopted w s).told (by rw [adopted_eq])
  switched {w} paused hp := of_fired (upkeep_onward.switched paused hp) (Turned.switched w paused).told
    (by rw [switched_eq]) (by cases paused <;> rfl)

end Charts

end World

namespace Run

variable {run : Runner K} {id : ArchetypeId} {notify : Bool}

def undo (run : Runner K) (e : Entity) (f : Fault) : Run K Unit := rollBack run e >>= fun _ => fail f

theorem undo_of_ok {f : Fault} (h : rollBack run e w = .ok () w') :
    undo run e f w = .error (.fault f) w' := bind_of_ok h

theorem undo_of_error {f : Fault} {g : Failure} (h : rollBack run e w = .error g w') :
    undo run e f w = .error g w' := bind_of_error h

section Outcomes

variable {body : Run K Unit}

theorem conclude_of_ok (h : body v = .ok () w) :
    conclude run e body v = fire run (.entityCreated e) w := bind_of_ok (attempt_of_ok h)

theorem conclude_of_fault {f : Fault} (h : body v = .error (.fault f) w) :
    conclude run e body v = undo run e f w := bind_of_ok (attempt_of_fault h)

theorem conclude_of_breaks {f : Failure} (h : body v = .error f w) (hf : f.breaks = true) :
    conclude run e body v = .error f w := bind_of_error (attempt_of_breaks h hf)

end Outcomes

variable (hrun : ∀ self script, Keeps World.Charts (run self script))

include hrun

theorem keeps_onward (self : Option Entity) (script : Script K) :
    Keeps (fun _ => World.Onward) (run self script) :=
  (hrun self script).mono fun _ _ _ h => h.onward

theorem keeps_destroy_charts (e : Entity) (notify : Bool) : Keeps World.Charts (destroy run e notify) := by
  intro w hw
  have honward := World.upkeep_onward.keeps_destroy (keeps_onward hrun) e notify w hw
  refine ⟨honward.fit, honward.locks, honward.keeps, fun ho hc => ?_⟩
  cases he : w.isLive e with
  | false =>
    rw [destroy_of_dead he]
    exact ⟨hc, fun _ x => .of_eq rfl⟩
  | true =>
    have hrecords := (honward.keeps.orderly ho).onlyRecords
    obtain ⟨v, hwritten, heq, hraze⟩ := destroy_cases run hw hrecords he notify
    have hcv := (hc.announced he hwritten).1
    rw [heq] at ho ⊢
    have hv : v.Fit := by
      rw [hwritten.eq]
      exact hw.congr rfl rfl rfl rfl
    have hev : v.isLive e = true := by
      rw [hwritten.eq]
      exact he
    rcases hraze with ⟨w', hok, hrazed⟩ | ⟨f, w', herr, hbeside, hbreaks, -⟩
    · rw [hok] at ho ⊢
      refine ⟨(hcv.razed hv hev hrazed ho.unworn).1, fun _ x => ?_⟩
      exact .of_obituary hc he (hwritten.razed hrazed).told
    · rw [herr] at ho ⊢
      exact ⟨hcv.beside hbeside, fun hb => by cases hbreaks.symm.trans hb⟩

theorem keeps_undo_onward (e : Entity) (f : Fault) :
    Keeps (fun _ => World.Onward) (undo run e f) :=
  (World.upkeep_onward.keeps_rollBack (keeps_onward hrun) e).bind World.upkeep_onward.toMild fun _ =>
    keeps_fail World.upkeep_onward.toMild f

section Conclude

variable (hc : v.Charted) (hlife : v.life e = [.minted])

include hc hlife

/-- Of an entity that was made and that nobody destroyed meanwhile observers are told, and nothing else
happens. -/
theorem fire_of_made (hbody : Passes World.Charts v (.ok () m))
    (ho : (left (fire run (.entityCreated e) m)).Orderly) :
    World.MadeUp e v m ∧ ∃ u, fire run (.entityCreated e) m = .ok () u ∧
      World.Written [.notice (.fired (.entityCreated e))] m u := by
  have hfit : m.Fit := hbody.fit
  have honward : World.Onward m (left (fire run (.entityCreated e) m)) :=
    (World.upkeep_onward.toCandid.keeps_fire (keeps_onward hrun) (.entityCreated e) rfl m hfit).keeps
  have hm := honward.orderly ho
  obtain ⟨hcm, hfares⟩ : m.Charted ∧ ∀ x, World.Fares x v m :=
    (hbody.keeps.charted hm hc).imp_right fun h => h rfl
  have hfire : fire run (.entityCreated e) m = _ := fire_of_onlyRecords hm.onlyRecords _
  rw [hfire] at ho ⊢
  have hgone : .gone ∉ m.life e := ho.considerate.not_gone rfl rfl
  have hminted := ((hfares e).pending (.inl hlife)).resolve_right hgone
  exact ⟨⟨hfit, hcm, hfares, hminted⟩, _, rfl, m.written_fired rfl⟩

/-- An entity that could not be made and that nobody destroyed meanwhile is destroyed without a signal,
unless that is broken off. -/
theorem undo_of_unmade {f : Fault}
    (hbody : Passes (α := Unit) World.Charts v (.error (.fault f) m))
    (ho : (left (undo run e f m)).Orderly) :
    (World.MadeUp e v m ∧ ∃ u, undo run e f m = .error (.fault f) u ∧
        World.Razed e [.notice (.destroyed e)] m u) ∨
      ∃ g u, undo run e f m = .error g u ∧ g.breaks = true ∧ u.Charted := by
  have hfit : m.Fit := hbody.fit
  have honward : World.Onward m (left (undo run e f m)) := (keeps_undo_onward hrun e f m hfit).keeps
  have hm := honward.orderly ho
  obtain ⟨hcm, hfares⟩ : m.Charted ∧ ∀ x, World.Fares x v m :=
    (hbody.keeps.charted hm hc).imp_right fun h => h rfl
  have hlives := (hcm.lawful e).isLive_iff
  have hpending := (hfares e).pending (.inl hlife)
  rcases rollBack_cases run hfit hm.onlyRecords e with
    ⟨hdead, hback⟩ | ⟨he, ⟨u, hback, hrazed⟩ | ⟨g, u, hback, hg, hbeside⟩⟩
  · -- it would have been given up to undo the creation of an entity that was destroyed before
    rw [undo_of_ok hback] at ho
    have hgone : .gone ∈ m.life e := hpending.resolve_left fun hminted => by
      cases hdead.symm.trans (hlives.mpr (by simp [hminted]))
    exact absurd hgone (ho.considerate.not_gone Array.append_empty.symm rfl)
  · have hminted := hpending.resolve_right (hlives.mp he).2
    exact .inl ⟨⟨hfit, hcm, hfares, hminted⟩, u, undo_of_ok hback, hrazed⟩
  · exact .inr ⟨g, u, undo_of_error hback, hg, hcm.beside hbeside⟩

/-- How the making of an entity that nobody destroys meanwhile ends: observers are told of the entity
and nothing else happens, or it is destroyed again without a signal, or all is broken off. -/
theorem conclude_cases {body : Run K Unit} (hbody : Passes World.Charts v (body v))
    (ho : (left (conclude run e body v)).Orderly) :
    (∃ m u, body v = .ok () m ∧ conclude run e body v = .ok () u ∧ World.MadeUp e v m ∧
        World.Written [.notice (.fired (.entityCreated e))] m u) ∨
      (∃ f m u, body v = .error (.fault f) m ∧ conclude run e body v = .error (.fault f) u ∧
        World.MadeUp e v m ∧ World.Razed e [.notice (.destroyed e)] m u) ∨
      ∃ f u, conclude run e body v = .error f u ∧ f.breaks = true ∧ u.Charted := by
  cases hr : body v with
  | ok a m =>
    rw [conclude_of_ok hr] at ho ⊢
    obtain ⟨hmade, u, hfire, hwritten⟩ := fire_of_made hrun hc hlife (hr ▸ hbody) ho
    exact .inl ⟨m, u, rfl, hfire, hmade, hwritten⟩
  | error f m =>
    cases hbreaks : f.breaks with
    | true =>
      rw [hr] at hbody
      rw [conclude_of_breaks hr hbreaks] at ho ⊢
      exact .inr (.inr ⟨f, m, rfl, hbreaks, (hbody.keeps.charted ho hc).1⟩)
    | false =>
      cases f with
      | fault f =>
        rw [conclude_of_fault hr] at ho ⊢
        obtain ⟨hmade, u, hundo, hrazed⟩ | hbroken := undo_of_unmade hrun hc hlife (hr ▸ hbody) ho
        · exact .inr (.inl ⟨f, m, u, rfl, hundo, hmade, hrazed⟩)
        · exact .inr (.inr hbroken)
      | _ => cases hbreaks

end Conclude

section Bring

variable {body : Entity → Run K Unit} (hw : w.Fit)
variable (hbody : ∀ e v, enrol id w = .ok e v → v.Fit → v.isLive e = true →
  Passes World.Charts v (body e v))

include hw hbody

/-- How an entity comes: there is no identifier left for it, or it is minted and made up as well as
that goes. -/
theorem bring_cases (ho : (left (bring run id body w)).Orderly) (hc : w.Charted) :
    (∃ f u, bring run id body w = .error (.fault f) u ∧ World.Aloof w u) ∨
      ∃ e, w.roster.arena.issuer.next? = some e.ident ∧
        ((∃ m u, body e (w.minted id e) = .ok () m ∧ bring run id body w = .ok e u ∧
            World.MadeUp e (w.minted id e) m ∧
            World.Written [.notice (.fired (.entityCreated e))] m u) ∨
          (∃ f m u, body e (w.minted id e) = .error (.fault f) m ∧
            bring run id body w = .error (.fault f) u ∧ World.MadeUp e (w.minted id e) m ∧
            World.Razed e [.notice (.destroyed e)] m u) ∨
          ∃ f u, bring run id body w = .error f u ∧ f.breaks = true ∧ u.Charted) := by
  cases hr : enrol id w with
  | error f v =>
    obtain ⟨e, info, v', hok, -⟩ | ⟨f', v', herr, haloof⟩ := enrol_cases hw id
    · cases hr.symm.trans hok
    · exact .inl ⟨f', v', bind_of_error herr, haloof⟩
  | ok e v =>
    have hlive := isLive_of_enrol hw hr
    obtain ⟨hnext, rfl⟩ := enrol_of_ok hw hr
    have hbring : bring run id body w =
        (conclude run e (body e) >>= fun _ => pure e) (w.minted id e) := bind_of_ok hr
    have hlife : (w.minted id e).life e = [.minted] := by
      rw [(w.turned_minted id e).told.life_eq_of_some (if_pos rfl), hc.unborn hnext]
      rfl
    rw [hbring, left_bind_pure] at ho
    refine .inr ⟨e, hnext, ?_⟩
    rw [hbring]
    rcases conclude_cases hrun (hc.minted hw hnext id) hlife
      (hbody e _ hr (hw.minted id hnext) hlive) ho with ⟨m, u, hmade, hok, hm⟩ | ⟨f, m, u, hmade, herr, hm⟩ | ⟨f, u, herr, hu⟩
    · exact .inl ⟨m, u, hmade, bind_of_ok hok, hm⟩
    · exact .inr (.inl ⟨f, m, u, hmade, bind_of_error herr, hm⟩)
    · exact .inr (.inr ⟨f, u, bind_of_error herr, hu⟩)

/-- With an entity that has been brought it is as it should be, and with all others as with those that
are brought meanwhile. -/
theorem passes_bring_charts : Passes World.Charts w (bring run id body w) := by
  have honward : Passes (fun _ => World.Onward) w (bring run id body w) :=
    World.upkeep_onward.passes_bring (keeps_onward hrun) hw fun e v hr hv he =>
      (hbody e v hr hv he).mono fun _ _ _ h => h.onward
  refine ⟨honward.fit, honward.locks, honward.keeps, fun ho hc => ?_⟩
  rcases bring_cases hrun hw hbody ho hc with ⟨f, u, herr, haloof⟩ | ⟨e, hnext, hcases⟩
  · rw [herr] at ho ⊢
    obtain ⟨hcu, hfares⟩ := (World.Charts.tending.beside haloof.beside).charted ho hc
    exact ⟨hcu, fun _ => hfares rfl⟩
  · have hminted : ∀ x, x ≠ e → World.Fares x w (w.minted id e) := fun x hx =>
      .of_eq ((w.turned_minted id e).told.life_eq_of_none (if_neg (Ne.symm hx)))
    have hothers : ∀ {m u}, World.MadeUp e (w.minted id e) m → (∀ x, x ≠ e → u.life x = m.life x) →
        Stage.Whole (u.life e) → ∀ x, World.Fares x w u := by
      intro m u hm hu hwhole x
      by_cases hx : x = e
      · subst hx
        refine ⟨fun _ => hwhole, fun hpending => ?_⟩
        simp [Stage.Pending, hc.unborn hnext] at hpending
      · exact (hminted x hx).trans ((hm.fares x).trans (.of_eq (hu x hx)))
    rcases hcases with ⟨m, u, -, hok, hm, hwritten⟩ | ⟨f, m, u, -, herr, hm, hrazed⟩ |
      ⟨f, u, herr, hbreaks, hcu⟩
    · rw [hok] at ho ⊢
      obtain ⟨hcu, hlife⟩ := hm.charted.created hm.life_eq hwritten
      refine ⟨hcu, fun _ => hothers hm (fun x hx => ?_) (hlife ▸ .living)⟩
      exact hwritten.told.life_eq_of_none (if_neg (Ne.symm hx))
    · rw [herr] at ho ⊢
      obtain ⟨hcu, hlife⟩ := hm.charted.razed hm.fit hm.isLive_eq hrazed ho.unworn
      rw [hm.life_eq] at hlife
      refine ⟨hcu, fun _ => hothers hm (fun x hx => ?_) (hlife ▸ .undone)⟩
      exact hrazed.told.life_eq_of_none (if_neg (Ne.symm hx))
    · rw [herr]
      exact ⟨hcu, fun hb => by cases hbreaks.symm.trans hb⟩

end Bring

theorem moving_charts : Moving World.Charts run where
  create := keeps_create_of (passes_bring_charts hrun) (fun _ => trivial) hrun
    World.Charts.tending.toMild
  destroy := keeps_destroy_charts hrun
  commitDestructions := keeps_commitDestructions World.Charts.tending.toMild hrun
    (keeps_destroy_charts hrun) fun _ _ => .of_nothing ⟨List.prefix_rfl, List.prefix_rfl⟩ (.of_eq rfl) rfl
  commitCreations := keeps_commitCreations World.Charts.tending.toMild
    (fun _ => .of_nothing ⟨List.prefix_rfl, List.prefix_rfl⟩ (.of_eq rfl) rfl)
    (keeps_commitCreation_of (passes_bring_charts hrun) (fun _ => trivial) hrun
      World.Charts.tending.toMild)

omit hrun

theorem keeps_runScript_charts (n : Nat) (self : Option Entity) (script : Script K) :
    Keeps World.Charts (runScript n self script) :=
  Moving.keeps_runScript (fun _ : Unit => World.Charts.tending)
    (fun _ hrun _ => moving_charts (hrun ())) n () self script

theorem passes_verb_charts (hw : w.Fit) (n turns : Nat) (self : Option Entity) (v : Verb K) :
    Passes World.Charts w (perform (runScript n) turns self v w) :=
  Moving.passes_verb (fun _ : Unit => World.Charts.tending)
    (fun _ hrun _ => moving_charts (hrun ())) () hw n turns self v

end Run

end EntityStore
