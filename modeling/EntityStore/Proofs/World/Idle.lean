import EntityStore.Proofs.World.Steady
import EntityStore.Proofs.World.Ticks
import EntityStore.Sample

/-!
# Paused worlds

While the systems are paused, neither a tick nor a request to run one system runs any. Only a factory
that is called to look up a system can have the systems resumed before it is decided what to run; this
is signalled like any other resumption.
-/
namespace EntityStore

open Run (left Mild Examined Judged Keeps)

variable {K : Type} [Schema K] {w w' w'' : World K} {s : SystemId}

namespace World

/-- What has been signalled meanwhile begins with a resumption. -/
def Resumed (w w' : World K) : Prop := ∃ rest, w'.signals = w.signals ++ false :: rest

theorem Resumed.of_signals_eq (hs : w'.signals = w.signals) (h : Resumed w' w'') :
    Resumed w w'' := by
  obtain ⟨rest, hrest⟩ := h
  exact ⟨rest, hs ▸ hrest⟩

theorem Resumed.mono (h : Resumed w w') (hi : Informed w' w'') : Resumed w w'' := by
  obtain ⟨rest, hrest⟩ := h
  obtain ⟨new, hnew, -⟩ := hi
  exact ⟨rest ++ new, by rw [hnew, hrest, List.append_assoc, List.cons_append]⟩

/-- A paused world stays so unless the systems are resumed. -/
theorem Steady.paused_or_resumed (h : w.Steady) (h' : w'.Steady) (hi : Informed w w')
    (hpaused : w.paused = true) :
    (w'.paused = true ∧ w'.signals = w.signals) ∨ Resumed w w' := by
  obtain ⟨new, hnew, -⟩ := hi
  cases new with
  | nil =>
    rw [List.append_nil] at hnew
    refine .inl ⟨?_, hnew⟩
    rw [h'.signals.flag_eq, hnew, ← h.signals.flag_eq, hpaused]
  | cons b rest =>
    -- the signals so far are odd in number, so that the next one is a resumption
    have hodd : (w.signals.length % 2 == 1) = true := h.signals.flag_eq.symm.trans hpaused
    have hnext : w'.signals[w.signals.length]? = some b := by simp [hnew]
    rw [h'.signals.eq] at hnext
    have hb : b = false := by
      obtain ⟨i, hi, rfl⟩ : ∃ i, i = w.signals.length ∧ (i % 2 == 0) = b := by
        simpa [List.getElem?_range, hnew] using hnext
      simp_all
    exact .inr ⟨rest, hb ▸ hnew⟩

theorem exists_find?_adopted (w : World K) (s : SystemId) :
    ∃ i, (w.adopted s).instances.find? s = some i := by
  refine Catalog.exists_find?_of_mem (V := fun _ => Instance) ?_
  rw [adopted, keys_paced]
  show s ∈ (w.instances.findOrInsert s {}).2.keys
  unfold Catalog.findOrInsert
  cases hs : w.instances.find? s with
  | none => simp
  | some i =>
    by_contra hkeys
    rw [Catalog.find?_eq_none_iff.mpr hkeys] at hs
    cases hs

/-- A system that exists in a paused world is paused. -/
theorem Steady.paused_of_mem (h : w.Steady) (hpaused : w.paused = true)
    (hs : ∃ i, w.instances.find? s = some i) : (w.instanceAt s).paused = true := by
  obtain ⟨i, hi⟩ := hs
  rw [instanceAt, hi, ← hpaused]
  exact (h.follows s i hi).1

end World

namespace Run

open World (Paces Resumed)

variable {run : Runner K} {tracer : Tracer}

/-- A system that has been looked up exists. -/
theorem exists_of_system (h : system run s w = .ok () w') :
    ∃ i, w'.instances.find? s = some i := by
  cases hc : w.instances.contains s with
  | true =>
    rw [system_of_contains hc] at h
    cases h
    exact Option.isSome_iff_exists.mp hc
  | false =>
    rw [system_of_not_contains hc] at h
    obtain ⟨i, v, -, hv⟩ := ok_of_bind h
    cases hv
    exact v.exists_find?_adopted s

variable [DecidableEq K] (hrun : ∀ self script, Keeps Paces (run self script))

include hrun

/-- A system has been looked up, and asked whether it wants to run. -/
theorem paces_lookup {u v : World K} {b : Bool} (hs : system run s w = .ok () u)
    (hwants : Judged run s u b v) (hw : w.Fit) : v.Fit ∧ Paces false w u ∧ Paces false u v := by
  obtain ⟨hfit, hlookup⟩ := (upkeep_paces.keeps_system hrun s w hw).of_ok hs
  obtain ⟨hfit', hexamined⟩ :=
    (upkeep_paces.keeps_isRunnable hrun s u hfit).of_ok (isRunnable_iff.mpr hwants)
  exact ⟨hfit', hlookup, hexamined⟩

/-- A system has been looked up and is passed over. -/
theorem paces_skip {u v : World K} (hs : system run s w = .ok () u)
    (hwants : Judged run s u false v) (hw : w.Fit) (tracer : Tracer) :
    (v.traced tracer (.skip (v.plan s).name)).Fit ∧
      Paces false w (v.traced tracer (.skip (v.plan s).name)) := by
  have hI : Mild (fun _ _ => True) Paces := upkeep_paces.toMild (K := K)
  obtain ⟨hfit, hlookup, hexamined⟩ := paces_lookup hrun hs hwants hw
  exact ⟨World.fit_traced hfit .., hI.trans hlookup (hI.trans hexamined fun hv =>
    hv.calm (World.aside_traced ..).calm)⟩

/-- Systems stay in step while they are examined. -/
theorem Examined.paces {l : List (SystemId × Bool)} (h : Examined run tracer w l w')
    (hw : w.Fit) : w'.Fit ∧ Paces false w w' := by
  have hI : Mild (fun _ _ => True) Paces := upkeep_paces.toMild (K := K)
  induction h with
  | done w => exact ⟨hw, hI.refl false w⟩
  | wanting hs hwants h ih =>
    obtain ⟨hfit, hlookup, hexamined⟩ := paces_lookup hrun hs hwants hw
    obtain ⟨hfit', hrest⟩ := ih hfit
    exact ⟨hfit', hI.trans hlookup (hI.trans hexamined hrest)⟩
  | skipped hs hwants h ih =>
    obtain ⟨hfit, hskip⟩ := paces_skip hrun hs hwants hw tracer
    obtain ⟨hfit', hrest⟩ := ih hfit
    exact ⟨hfit', hI.trans hskip hrest⟩

/-- In a paused world nothing that is examined wants to run unless the systems are resumed. -/
theorem Examined.idle {l : List (SystemId × Bool)} (h : Examined run tracer w l w')
    (hw : w.Fit) (hsteady : w.Steady) (hpaused : w.paused = true) :
    (∀ x ∈ l, x.2 = false) ∨ Resumed w w' := by
  induction h with
  | done w => exact .inl (by simp)
  | @wanting w u v w' s l hs hwants h ih =>
    obtain ⟨hfit, hlookup, hexamined⟩ := paces_lookup hrun hs hwants hw
    obtain ⟨hu, hinformed⟩ := hlookup hsteady
    obtain ⟨hstill, -⟩ | hresumed := hsteady.paused_or_resumed hu hinformed hpaused
    · cases (hwants.of_paused (hu.paused_of_mem hstill (exists_of_system hs))).1
    · obtain ⟨hv, hinformed'⟩ := hexamined hu
      exact .inr ((hresumed.mono hinformed').mono ((h.paces hrun hfit).2 hv).2)
  | @skipped w u v w' s l hs hwants h ih =>
    obtain ⟨hfit, hskip⟩ := paces_skip hrun hs hwants hw tracer
    obtain ⟨hv, hinformed⟩ := hskip hsteady
    obtain ⟨hstill, hsignals⟩ | hresumed := hsteady.paused_or_resumed hv hinformed hpaused
    · refine (ih hfit hv hstill).imp (fun hnone x hx => ?_) (Resumed.of_signals_eq hsignals)
      obtain rfl | hx := List.mem_cons.mp hx
      · rfl
      · exact hnone x hx
    · exact .inr (hresumed.mono ((h.paces hrun hfit).2 hv).2)

/-- A tick of a paused world runs no system unless the systems are resumed while they are
examined. -/
theorem tick_of_paused (hw : w.Fit) (hsteady : w.Steady) (hpaused : w.paused = true) (turns : Nat)
    (tracer : Tracer) : tick run turns tracer w = idleTick run turns tracer w ∨
      Resumed w (left (sortOut run tracer w.systems.keys (w.traced tracer .startTick))) := by
  let v := w.traced tracer .startTick
  have hcalm : World.Calm w v := (w.aside_traced tracer .startTick).calm
  cases hsort : sortOut run tracer w.systems.keys v with
  | error e u =>
    refine .inl (tick_eq_idleTick fun rs u' hrs => ?_)
    rw [hsort] at hrs
    cases hrs
  | ok rs u =>
    obtain ⟨l, hl, -, rfl⟩ := examined_of_sortOut hsort
    have hflag : v.paused = true := hpaused
    obtain hnone | hresumed := hl.idle hrun (World.fit_traced hw ..) (hsteady.calm hcalm).1 hflag
    · refine .inl (tick_eq_idleTick fun rs u' hrs => ?_)
      rw [hsort] at hrs
      cases hrs
      rw [List.filter_eq_nil_iff.mpr fun x hx => by simp [hnone x hx], List.map_nil]
    · exact .inr (hresumed.of_signals_eq (hcalm.drawn_eq pausesOnly_signal?))

/-- A system that is asked to run in a paused world does not unless the systems are resumed while it
is looked up. -/
theorem runSystem_of_paused (hw : w.Fit) (hsteady : w.Steady) (hpaused : w.paused = true)
    (s : SystemId) : runSystem run s w = (do system run s; return false : Run K Bool) w ∨
      Resumed w (left (system run s w)) := by
  cases hs : system run s w with
  | error e u => exact .inl ((bind_of_error hs).trans (bind_of_error hs).symm)
  | ok x u =>
    obtain ⟨hu, hinformed⟩ := ((upkeep_paces.keeps_system hrun s w hw).of_ok hs).2 hsteady
    obtain ⟨hstill, -⟩ | hresumed := hsteady.paused_or_resumed hu hinformed hpaused
    · have hflag := hu.paused_of_mem hstill (exists_of_system hs)
      have hinstance : (instanceOf s : Run K Instance) u = .ok (u.instanceAt s) u := rfl
      left
      rw [runSystem, bind_of_ok hs, bind_of_ok hs, bind_of_ok hinstance, if_pos hflag]
    · exact .inr hresumed

end Run

namespace World

variable [DecidableEq K]

inductive Leads : World K → World K → Prop
  | refl (w : World K) : Leads w w
  | next {u w : World K} (h : Leads u w) (n turns : Nat) (v : Verb K) :
    Leads u (left (Run.perform (Run.runScript n) turns none v w))

theorem Leads.reached (h : w.Leads w') (hw : w.Reached) : w'.Reached := by
  induction h with
  | refl => exact hw
  | next _ n turns v ih => exact ih.next n turns v

theorem Leads.informed (h : w.Leads w') (hw : w.Reached) : Informed w w' := by
  induction h with
  | refl => exact .of_eq rfl fun _ _ => id
  | @next w' h n turns v ih =>
    have hw' := h.reached hw
    exact ih.trans ((paces_perform hw'.atRest.1 n turns none v).keeps hw'.steady).2

omit [DecidableEq K] in
/-- A system that has heard of nothing has never been paused since it exists. -/
theorem Informed.never_paused (h : w.Steady) (hi : Informed w w') {i i' : Instance}
    (hs : w.instances.find? s = some i) (hs' : w'.instances.find? s = some i')
    (hnone : i'.heard = []) : w.paused = false := by
  obtain ⟨new, -, hheard⟩ := hi
  obtain ⟨i'', hs'', heq⟩ := hheard s i hs
  obtain rfl : i' = i'' := Option.some.inj (hs'.symm.trans hs'')
  have hbefore : i.heard = [] := (List.append_eq_nil_iff.mp (heq.symm.trans hnone)).1
  have hflag := (h.follows s i hs).2.flag_eq
  rw [hbefore] at hflag
  exact hflag

/-- In every world that verbs have led to, systems, signals and hints follow the pause flag, and
wherever verbs lead from there, the systems have heard of what was signalled meanwhile; so those that
have heard of nothing never were paused. To set the flag to what it is does nothing; to change it gives
it to all systems and signals it once before an observer is told. While the systems are paused, no
request and no tick runs any, unless they are resumed while systems are looked up. -/
theorem pausing_reaches_systems :
    (∀ w : World K, w.Reached → w.Steady ∧ ∀ w' : World K, w.Leads w' → Informed w w' ∧
      ∀ s i i', w.instances.find? s = some i → w'.instances.find? s = some i' → i'.heard = [] →
        w.paused = false) ∧
    (∀ w : World K, w.Steady → ∀ (run : Runner K) (paused : Bool),
      (w.paused = paused → Run.setPaused run paused w = .ok () w) ∧
      (w.paused ≠ paused → ∃ v : World K, v.Steady ∧ v.paused = paused ∧ Heard [paused] w v ∧
        Run.setPaused run paused w =
          Run.tellFrom run (.ofPause paused) v.observers.length 0 v)) ∧
    ∀ w : World K, w.Reached → w.paused = true → ∀ n : Nat,
      (∀ s, Run.runSystem (Run.runScript n) s w =
          (do Run.system (Run.runScript n) s; return false : Run K Bool) w ∨
        Resumed w (left (Run.system (Run.runScript n) s w))) ∧
      ∀ turns tracer, Run.tick (Run.runScript n) turns tracer w =
          Run.idleTick (Run.runScript n) turns tracer w ∨
        Resumed w (left (Run.sortOut (Run.runScript n) tracer w.systems.keys
          (w.traced tracer .startTick))) := by
  refine ⟨fun w hw => ⟨hw.steady, fun w' hleads => ⟨hleads.informed hw, fun s i i' hs hs' =>
    (hleads.informed hw).never_paused hw.steady hs hs'⟩⟩, fun w hw run paused =>
    ⟨Run.setPaused_of_eq, fun hne => ?_⟩, fun w hw hpaused n => ⟨?_, ?_⟩⟩
  · obtain ⟨hsteady, hheard⟩ := hw.switched hne
    have hflag : (w.switched paused).paused = paused := by rw [switched_eq]
    exact ⟨w.switched paused, hsteady, hflag, hheard, Run.setPaused_of_ne hne⟩
  · exact Run.runSystem_of_paused (keeps_runScript_paces n) hw.atRest.1 hw.steady hpaused
  · exact Run.tick_of_paused (keeps_runScript_paces n) hw.atRest.1 hw.steady hpaused

/-- A system that listens, and that came to be while the systems were paused for the first time; they
are paused again when the world ticks. -/
theorem pausing_reaches_systems_listener :
    let _ := Sample.schema ""
    ∃ w : World Sample.Kind, w.Reached ∧ w.paused = true ∧
      w.hearings "listener" = [true, false, true] ∧ w.signals = [true, false, true] ∧
      w.turbos = [false, true, false] ∧
      Run.tick (Run.runScript 1) 1 [] w = Run.idleTick (Run.runScript 1) 1 [] w := by
  intro _
  let plan : Plan Sample.Kind := { name := "listener", hearsPauses := true }
  obtain ⟨w, h, hpaused, hsignals, hhears, hheard, hturbo, hlistens, hafter⟩ :
      ∃ w : World Sample.Kind, w.Reached ∧ w.paused = true ∧ w.signals = [true, false, true] ∧
        (w.plan "listener").hearsPauses = true ∧
        (w.instanceAt "listener").heard = [true, false, true] ∧
        w.settings.turboOnPause = true ∧ w.settings.hostListens = true ∧
        (left (Run.sortOut (Run.runScript 1) [] w.systems.keys (w.traced [] .startTick))).signals =
          [true, false, true] := by
    have h : Reached (K := Sample.Kind)
        { settings := { turboOnPause := true, hostListens := true }
          plans := [("listener", plan)] } := .start _ _
    have h := h.next 1 1 (.registerSystem "listener" false)
    have h := h.next 1 1 (.setPaused true)
    have h := h.next 1 1 (.showSystem "listener")
    have h := h.next 1 1 (.setPaused false)
    have h := h.next 1 1 (.setPaused true)
    exact ⟨_, h, by decide +kernel, by decide +kernel, by decide +kernel, by decide +kernel,
      by decide +kernel, by decide +kernel, by decide +kernel⟩
  obtain ⟨hfollow, -, hidle⟩ := pausing_reaches_systems (K := Sample.Kind)
  have hsteady : w.Steady := (hfollow w h).1
  refine ⟨w, h, hpaused, ?_, hsignals, ?_, ?_⟩
  · rw [hsteady.hearings_eq, if_pos hhears, hheard]
  · rw [hsteady.turbos_eq, hturbo, hlistens, hsignals]
    rfl
  · apply ((hidle w h hpaused 1).2 1 []).resolve_right
    rintro ⟨rest, hrest⟩
    rw [hafter, hsignals] at hrest
    cases hrest

/-- A factory that resumes the systems, called by a tick that started while they were paused: the
system that it makes is run by that tick. -/
theorem tick_runs_resumed :
    let _ := Sample.schema ""
    ∃ w : World Sample.Kind, w.Reached ∧ w.paused = true ∧
      ∃ stats w', Run.tick (Run.runScript 1) 1 [] w = .ok stats w' ∧ stats.run = 1 := by
  intro _
  let plan : Plan Sample.Kind :=
    { name := "waker", factory := [[{ label := "wake", verb := .setPaused false }]] }
  obtain ⟨w, h, hpaused, hran⟩ : ∃ w : World Sample.Kind, w.Reached ∧ w.paused = true ∧
      (match Run.tick (Run.runScript 1) 1 [] w with
        | .ok stats _ => stats.run == 1
        | .error .. => false) = true := by
    have h : Reached ({ plans := [("waker", plan)] } : World Sample.Kind) := .start _ _
    have h := h.next 1 1 (.registerSystem "waker" true)
    have h := h.next 1 1 (.setPaused true)
    exact ⟨_, h, by decide +kernel, by decide +kernel⟩
  refine ⟨w, h, hpaused, ?_⟩
  cases htick : Run.tick (Run.runScript 1) 1 [] w with
  | ok stats w' =>
    rw [htick] at hran
    exact ⟨stats, w', rfl, beq_iff_eq.mp hran⟩
  | error e w' =>
    rw [htick] at hran
    cases hran

end World

end EntityStore
