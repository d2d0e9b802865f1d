import EntityStore.Proofs.World.Scripts

/-!
# Destroying entities

Between two verbs, and with observers that only record, destroying an entity fails exactly if it does
not live, and then nothing has changed; else the entity is gone with its records and the handles that
these owned, and everything else is as it was. As entities leave the world in no other way, and come
into it without records, no record outlives its entity as long as nobody places one for an entity that
does not live.
-/
namespace EntityStore

open Run (left)

variable {K α : Type} [Schema K] [DecidableEq K] {w w' w'' : World K} {k : K} {e : Entity}

namespace World

/-- No observer has a script left to run. -/
def OnlyRecords (w : World K) : Prop := ∀ o ∈ w.observers, o.left = 0 ∨ ∀ s ∈ o.on, s.2 = []

/-- The journal has grown, and nothing else has changed. -/
structure Written (es : List (Event K)) (w w' : World K) : Prop where
  eq : w' = { w with events := w'.events }
  told : Told es w w'
  calm : Calm w w'

omit [DecidableEq K] in
theorem Written.refl (w : World K) : Written [] w w := ⟨rfl, .of_eq rfl, .of_eq rfl⟩

omit [DecidableEq K] in
theorem Written.trans {es es' : List (Event K)} (h : Written es w w') (h' : Written es' w' w'') :
    Written (es ++ es') w w'' := by
  refine ⟨h'.eq.trans ?_, h.told.trans h'.told, h.calm.trans h'.calm⟩
  rw [h.eq]

/-- The world in which it has been given up to undo a creation. -/
def stranded (w : World K) (e : Entity) (f : Fault) : World K :=
  { w with events := w.events.push (.notice (.cannotRollBack e f)) }

theorem Written.beside {T : Entity → Prop} (h : Written [] w w') : Beside T w w' := by
  refine ⟨by rw [h.eq], ⟨h.told, h.calm⟩, fun k e hr => .inl ?_⟩
  rw [h.eq] at hr
  exact hr

end World

/-- What is written when observers that only record hear a signal. -/
def Signal.heardBy (s : Signal) (observers : List (Observer K)) : Array (Event K) :=
  (observers.map fun o => .observed o.name s).toArray

omit [DecidableEq K] in
theorem Signal.heardBy_append (s : Signal) (os os' : List (Observer K)) :
    s.heardBy (os ++ os') = s.heardBy os ++ s.heardBy os' := by simp [heardBy]

omit [DecidableEq K] in
/-- An observer that hears a signal tells nothing else. -/
theorem Signal.isPlain_heardBy (s : Signal) (os : List (Observer K)) :
    ∀ e ∈ s.heardBy os, e.isPlain = true := by
  intro e he
  obtain ⟨o, -, rfl⟩ := List.mem_map.mp (List.mem_toArray.mp he)
  rfl

namespace Run

variable {run : Runner K} {s : Signal}

omit [DecidableEq K] in
theorem tell_of_onlyRecords (ho : w.OnlyRecords) (observer : Nat) : tell run s observer w =
    .ok () { w with events := w.events ++ s.heardBy w.observers[observer]?.toList } := by
  rw [tell, get_bind]
  cases hget : w.observers[observer]? with
  | none =>
    show EStateM.Result.ok () w = .ok () { w with events := w.events ++ #[] }
    rw [Array.append_empty]
  | some o =>
    have hevents : w.events ++ s.heardBy [o] = w.events.push (.observed o.name s) :=
      Array.push_eq_append.symm
    rw [Option.toList_some, hevents]
    dsimp only
    refine (bind_of_ok rfl).trans ?_
    cases hscript : o.on.lookup s.topic with
    | none => rfl
    | some script =>
      cases script with
      | nil => rfl
      | cons a script =>
        obtain ⟨before, after, hon, -⟩ := List.lookup_eq_some_iff.mp hscript
        have hleft : o.left = 0 := (ho o (List.mem_of_getElem? hget)).resolve_right fun hnone => by
          simpa using hnone (s.topic, a :: script) (by simp [hon])
        dsimp only
        rw [if_pos hleft]
        rfl

omit [DecidableEq K] in
theorem tellFrom_of_onlyRecords (ho : w.OnlyRecords) (count first : Nat) :
    tellFrom run s count first w =
      .ok () { w with events := w.events ++ s.heardBy ((w.observers.drop first).take count) } := by
  induction count generalizing w first with
  | zero =>
    show EStateM.Result.ok () w = .ok () { w with events := w.events ++ #[] }
    rw [Array.append_empty]
  | succ count ih =>
    have hnext : (w.observers.drop first).take (count + 1) =
        w.observers[first]?.toList ++ (w.observers.drop (first + 1)).take count := by
      rw [← List.head?_drop, ← List.tail_drop]
      cases w.observers.drop first <;> simp
    rw [hnext, Signal.heardBy_append, ← Array.append_assoc]
    let v : World K := { w with events := w.events ++ s.heardBy w.observers[first]?.toList }
    have hov : v.OnlyRecords := ho
    exact (bind_of_ok (tell_of_onlyRecords ho first)).trans (ih hov (first + 1))

omit [DecidableEq K] in
/-- The signal is told of, every observer hears it, and that is all. -/
theorem fire_of_onlyRecords (ho : w.OnlyRecords) (s : Signal) : fire run s w =
    .ok () { w with events := w.events.push (.notice (.fired s)) ++ s.heardBy w.observers } := by
  let v : World K := { w with events := w.events.push (.notice (.fired s)) }
  have hov : v.OnlyRecords := ho
  have htell : tellFrom run s w.observers.length 0 v = _ := tellFrom_of_onlyRecords hov _ 0
  rw [List.drop_zero, List.take_length] at htell
  exact htell

end Run

namespace World

omit [DecidableEq K] in
theorem written_fired (w : World K) {s : Signal} (hs : s.isQuiet = true) :
    Written [.notice (.fired s)] w
      { w with events := w.events.push (.notice (.fired s)) ++ s.heardBy w.observers } := by
  let v : World K := { w with events := w.events.push (.notice (.fired s)) }
  have hv : Written [.notice (.fired s)] w v := ⟨rfl, .of_push_told rfl rfl, .of_push rfl hs⟩
  have hheard : Aside v { v with events := v.events ++ s.heardBy w.observers } :=
    .of_plain rfl (s.isPlain_heardBy w.observers)
  exact hv.trans ⟨rfl, hheard.told, hheard.calm⟩

end World

namespace World

/-- What is told of the destruction of an entity. -/
def obituary (e : Entity) (notify : Bool) : List (Event K) :=
  (if notify then [.notice (.fired (.entityDestroyed e))] else []) ++ [.notice (.destroyed e)]

theorem Written.razed {es es' : List (Event K)} (h : Written es w w') (h' : Razed e es' w' w'') :
    Razed e (es ++ es') w w'' := by
  have heq := h.eq
  have htold := h.told.trans h'.told
  have hcalm := h.calm.trans h'.calm
  generalize w'.events = new at heq
  subst heq
  exact ⟨h'.fit, h'.bank_eq, h'.roster_eq, h'.observers_eq, h'.keys_eq, h'.lendsOut_iff, htold, hcalm,
    h'.record?_eq, h'.handles_eq⟩

namespace Razed

variable {es : List (Event K)}

theorem population_eq (hw : w.Fit) (h : Razed e es w w') (he : w.isLive e = true) :
    w'.population + 1 = w.population := by
  obtain ⟨l, hl⟩ := hw.roster
  obtain ⟨info, hinfo⟩ := hw.exists_info? he
  rw [population, h.roster_eq]
  exact hl.size_without hinfo

/-- Somebody's handle: one that a record of the entity owns. -/
theorem entry?_eq (hw : w.Fit) (h : Razed e es w w') (id : HandleId) :
    ((∃ k r, w.record? k e = some r ∧ id ∈ (Record.owned r).ids) →
      HandleTable.entry? w'.handles id = none) ∧
    ((¬∃ k r, w.record? k e = some r ∧ id ∈ (Record.owned r).ids) →
      HandleTable.entry? w'.handles id = HandleTable.entry? w.handles id) := by
  obtain ⟨ids, hids, howned⟩ := h.handles_eq
  rw [hids, hw.handles.entry?_withoutAll, ← howned]
  exact ⟨fun hid => if_pos hid, fun hid => if_neg hid⟩

end Razed

end World

namespace Run

variable {run : Runner K}

theorem destroy_of_dead (he : w.isLive e = false) (notify : Bool) :
    destroy run e notify w = .error (.fault (.recordNotFound e Fault.registryName)) w := by
  rw [destroy_eq, get_bind, he]
  rfl

variable (run) in
/-- With observers that only record, an entity that lives is razed, unless the contents of a table are
lent out. That breaks it off after the observers have been told. -/
theorem destroy_cases (hw : w.Fit) (ho : w.OnlyRecords) (he : w.isLive e = true) (notify : Bool) :
    ∃ v, World.Written (if notify then [.notice (.fired (.entityDestroyed e))] else []) w v ∧
      destroy run e notify w = raze e v ∧
      ((∃ w', raze e v = .ok () w' ∧ World.Razed e [.notice (.destroyed e)] v w') ∨
        ∃ f w', raze e v = .error f w' ∧ World.Beside (fun _ => False) v w' ∧ f.breaks = true ∧
          ∃ k, w.LendsOut k) := by
  obtain ⟨v, hraze, hv⟩ : ∃ v, destroy run e notify w = raze e v ∧ World.Written
      (if notify then [.notice (.fired (.entityDestroyed e))] else []) w v := by
    rw [destroy_eq, get_bind, he]
    cases notify with
    | true =>
      exact ⟨_, bind_of_ok (fire_of_onlyRecords ho _), w.written_fired rfl⟩
    | false => exact ⟨w, rfl, .refl w⟩
  refine ⟨v, hv, hraze, ?_⟩
  obtain ⟨new, rfl⟩ : ∃ new, v = { w with events := new } := ⟨_, hv.eq⟩
  have hfit : ({ w with events := new } : World K).Fit := hw.congr rfl rfl rfl rfl
  rcases raze_cases hfit e with
    ⟨w', hok, -, hrazed⟩ | ⟨f, w', herr, -, -, hbeside, hdead | ⟨hbreaks, hlends⟩⟩
  · exact .inl ⟨w', hok, hrazed⟩
  · exact absurd (he.symm.trans hdead) (by decide)
  · exact .inr ⟨f, w', herr, hbeside, hbreaks, hlends⟩

variable (run) in
/-- An entity whose creation failed is razed without a signal, unless it has been destroyed before or the
contents of a table are lent out. -/
theorem rollBack_cases (hw : w.Fit) (ho : w.OnlyRecords) (e : Entity) :
    (w.isLive e = false ∧ rollBack run e w =
        .ok () (w.stranded e (.recordNotFound e Fault.registryName))) ∨
      w.isLive e = true ∧ ((∃ w', rollBack run e w = .ok () w' ∧
          World.Razed e [.notice (.destroyed e)] w w') ∨
        ∃ f w', rollBack run e w = .error f w' ∧ f.breaks = true ∧
          World.Beside (fun _ => False) w w') := by
  cases he : w.isLive e with
  | false => exact .inl ⟨rfl, bind_of_ok (attempt_of_fault (destroy_of_dead he false))⟩
  | true =>
    obtain ⟨v, hwritten, heq, ⟨w', hok, hrazed⟩ | ⟨f, w', herr, hbeside, hbreaks, -⟩⟩ :=
      destroy_cases run hw ho he false
    · refine .inr ⟨rfl, .inl ⟨w', ?_, hwritten.razed hrazed⟩⟩
      exact bind_of_ok (attempt_of_ok (heq.trans hok))
    · refine .inr ⟨rfl, .inr ⟨f, w', ?_, hbreaks, hwritten.beside.trans hbeside⟩⟩
      exact bind_of_error (attempt_of_breaks (heq.trans herr) hbreaks)

/-- An entity that lives is razed, if observers only record and no contents are lent out. -/
theorem destroy_of_onlyRecords (hw : w.Fit) (hlends : ∀ k, ¬w.LendsOut k) (ho : w.OnlyRecords)
    (he : w.isLive e = true) (notify : Bool) :
    ∃ w', destroy run e notify w = .ok () w' ∧ World.Razed e (World.obituary e notify) w w' := by
  obtain ⟨v, hv, hraze, ⟨w', hok, hrazed⟩ | ⟨f, w', -, -, -, k, hk⟩⟩ :=
    destroy_cases run hw ho he notify
  · exact ⟨w', hraze.trans hok, hv.razed hrazed⟩
  · exact absurd hk (hlends k)

end Run

end EntityStore
