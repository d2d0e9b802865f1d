import EntityStore.Proofs.World.Scripts

/-!
# Systems in step with the world

Every system that exists has the pause flag of the world, and has heard of each change since it came
to be, beginning with a pause. Whatever is done, this holds of every world: the flag is given to all
systems at once, and a system that comes to be takes it over before anything else can happen. Each
change is signalled once, and hinted to the host once if hints are asked for.
-/
namespace EntityStore

/-- True, false, true and so on, and the flag is what comes last. -/
structure Alternating (flag : Bool) (bs : List Bool) : Prop where
  eq : bs = (List.range bs.length).map fun i => i % 2 == 0
  last : bs.getLast?.getD false = flag

namespace Alternating

variable {flag : Bool} {bs : List Bool}

theorem nil : Alternating false [] := ⟨rfl, rfl⟩

theorem once : Alternating true [true] := ⟨rfl, rfl⟩

/-- The flag tells how many there are, up to an even number. -/
theorem flag_eq (h : Alternating flag bs) : flag = (bs.length % 2 == 1) := by
  rw [← h.last, h.eq]
  cases hn : bs.length with
  | zero => rfl
  | succ n =>
    simp only [List.getLast?_map, List.length_map, List.length_range, List.getLast?_range,
      Nat.succ_ne_zero, if_false]
    rw [Bool.eq_iff_iff]
    simp
    omega

theorem flip (h : Alternating flag bs) {flag' : Bool} (hne : flag ≠ flag') :
    Alternating flag' (bs ++ [flag']) := by
  have hflag : flag' = (bs.length % 2 == 0) := by
    have hparity : (bs.length % 2 == 0) = !(bs.length % 2 == 1) := by
      rcases Nat.mod_two_eq_zero_or_one bs.length with h0 | h1 <;> simp [*]
    rw [hparity, ← h.flag_eq]
    cases flag <;> cases flag' <;> simp at hne ⊢
  refine ⟨?_, by simp⟩
  rw [List.length_append, List.length_singleton, List.range_succ, List.map_append, ← h.eq, hflag]
  rfl

end Alternating

open Run (Upkeep)

variable {K : Type} [Schema K] {w w' w'' : World K}

section Events

def Event.signal? : Event K → Option Bool
  | .notice (.fired .systemsPaused) => some true
  | .notice (.fired .systemsResumed) => some false
  | _ => none

/-- What the event hints to a host that listens. -/
def Event.turbo? : Event K → Option Bool
  | .turbo on => some on
  | _ => none

def Event.ignored? : Event K → Option Bool
  | .notice (.turboIgnored on) => some on
  | _ => none

def Event.heard? (s : SystemId) : Event K → Option Bool
  | .pauseHeard s' paused => if s' = s then some paused else none
  | _ => none

/-- What is read off the event concerns only the pausing of systems. -/
def PausesOnly (f : Event K → Option Bool) : Prop := ∀ e, e.isQuiet = true → f e = none

theorem pausesOnly_signal? : PausesOnly (Event.signal? (K := K)) := by
  intro e he
  cases e with
  | notice n =>
    cases n with
    | fired s => cases s <;> first | rfl | cases he
    | _ => rfl
  | _ => rfl

theorem pausesOnly_turbo? : PausesOnly (Event.turbo? (K := K)) := by
  intro e he
  cases e <;> first | rfl | cases he

theorem pausesOnly_ignored? : PausesOnly (Event.ignored? (K := K)) := by
  intro e he
  cases e with
  | notice n => cases n <;> first | rfl | cases he
  | _ => rfl

theorem pausesOnly_heard? (s : SystemId) : PausesOnly (Event.heard? (K := K) s) := by
  intro e he
  cases e <;> first | rfl | cases he

end Events

def Instance.hear (i : Instance) (paused : Bool) : Instance :=
  if i.paused = paused then i else { i with paused, heard := i.heard ++ [paused] }

namespace World

/-- What has happened, as far as `f` reads it off. -/
def drawn (w : World K) (f : Event K → Option Bool) : List Bool := w.events.toList.filterMap f

def signals (w : World K) : List Bool := w.drawn Event.signal?

def turbos (w : World K) : List Bool := w.drawn Event.turbo?

def ignored (w : World K) : List Bool := w.drawn Event.ignored?

def hearings (w : World K) (s : SystemId) : List Bool := w.drawn (Event.heard? s)

theorem Calm.drawn_eq (h : Calm w w') {f : Event K → Option Bool} (hf : PausesOnly f) :
    w'.drawn f = w.drawn f := by
  obtain ⟨new, hnew, hquiet⟩ := h.quiet
  have hnone : new.toList.filterMap f = [] :=
    List.filterMap_eq_nil_iff.mpr fun e he => hf e (hquiet e (Array.mem_toList_iff.mp he))
  rw [drawn, hnew, Array.toList_append, List.filterMap_append, hnone, List.append_nil, drawn]

section Paced

variable {s : SystemId} {paused : Bool}

theorem find?_paced (w : World K) (s : SystemId) (paused : Bool) (x : SystemId) :
    (w.paced s paused).instances.find? x =
      if x = s then (w.instances.find? s).map (·.hear paused) else w.instances.find? x := by
  unfold paced
  split
  · next heq =>
    -- there is no such system, or it has heard of this already
    by_cases hx : x = s
    · rw [if_pos hx, hx]
      cases hi : w.instances.find? s with
      | none => rfl
      | some i =>
        rw [instanceAt, hi] at heq
        simp [Instance.hear, show i.paused = paused from heq]
    · rw [if_neg hx]
  · next hne =>
    by_cases hx : x = s
    · subst hx
      rw [if_pos rfl]
      refine (Catalog.find?_update_self _).trans ?_
      cases hi : w.instances.find? x with
      | none => rfl
      | some i =>
        rw [instanceAt, hi] at hne
        simp [Instance.hear, show ¬i.paused = paused from hne]
    · rw [if_neg hx]
      exact Catalog.find?_update_ne hx _

/-- A system hears of what changes its flag, and nothing else is told. -/
theorem drawn_paced (w : World K) (s : SystemId) (paused : Bool) (f : Event K → Option Bool) :
    (w.paced s paused).drawn f = w.drawn f ++
      if (w.instanceAt s).paused ≠ paused ∧ (w.plan s).hearsPauses = true then
        (f (.pauseHeard s paused)).toList else [] := by
  unfold paced
  split
  · next heq => simp [heq]
  · next hne =>
    cases hears : (w.plan s).hearsPauses with
    | false => simp [drawn]
    | true =>
      simp only [hne, ne_eq, not_false_iff, and_self, if_true, drawn, Array.toList_push,
        List.filterMap_append]
      cases hf : f (.pauseHeard s paused) <;> simp [hf]

theorem drawn_paced_of_none (w : World K) (s : SystemId) (paused : Bool)
    {f : Event K → Option Bool} (hf : f (.pauseHeard s paused) = none) :
    (w.paced s paused).drawn f = w.drawn f := by
  simp [drawn_paced, hf]

theorem plan_paced (w : World K) (s : SystemId) (paused : Bool) (x : SystemId) :
    (w.paced s paused).plan x = w.plan x := by
  rw [paced_eq]
  rfl

/-- All systems hear of it that have not done so. -/
theorem pacedAll_spec {ss : List SystemId} (hnodup : ss.Nodup)
    (hss : ∀ s ∈ ss, (w.instanceAt s).paused ≠ paused) :
    (∀ x, (w.pacedAll paused ss).instances.find? x =
      if x ∈ ss then (w.instances.find? x).map (·.hear paused) else w.instances.find? x) ∧
    (w.pacedAll paused ss).instances.keys = w.instances.keys ∧
    (∀ f : Event K → Option Bool, (∀ s, f (.pauseHeard s paused) = none) →
      (w.pacedAll paused ss).drawn f = w.drawn f) ∧
    ∀ x, (w.pacedAll paused ss).hearings x = w.hearings x ++
      if x ∈ ss ∧ (w.plan x).hearsPauses = true then [paused] else [] := by
  induction ss generalizing w with
  | nil => exact ⟨fun _ => rfl, rfl, fun _ _ => rfl, fun _ => (List.append_nil _).symm⟩
  | cons s ss ih =>
    obtain ⟨hnew, hnodup'⟩ := List.nodup_cons.mp hnodup
    have hs := hss s List.mem_cons_self
    have hother : ∀ x ∈ ss, x ≠ s := fun x hx he => hnew (he ▸ hx)
    obtain ⟨hfind, hkeys, hdrawn, hhear⟩ := ih (w := w.paced s paused) hnodup' fun x hx => by
      rw [instanceAt, find?_paced, if_neg (hother x hx)]
      exact hss x (List.mem_cons_of_mem _ hx)
    refine ⟨fun x => ?_, hkeys.trans (keys_paced w s paused), fun f hf => ?_, fun x => ?_⟩
    · refine (hfind x).trans ?_
      rw [find?_paced]
      by_cases hx : x = s
      · subst hx
        simp [hnew]
      · simp [hx]
    · exact (hdrawn f hf).trans (drawn_paced_of_none w s paused (hf s))
    · refine (hhear x).trans ?_
      rw [hearings, drawn_paced, plan_paced, List.append_assoc, hearings]
      congr 1
      by_cases hx : x = s
      · subst hx
        cases hears : (w.plan x).hearsPauses <;> simp [hnew, hs, Event.heard?]
      · cases hears : (w.plan s).hearsPauses <;> simp [hx, Ne.symm hx, Event.heard?]

theorem drawn_switched (w : World K) (paused : Bool) (f : Event K → Option Bool) :
    (w.switched paused).drawn f =
      (pacedAll { w with paused } paused w.instances.keys).drawn f ++
        (w.settings.announces paused).filterMap f := by
  simp only [drawn, switched, Array.toList_append, List.filterMap_append]

theorem filterMap_announces (settings : Settings) (paused : Bool) :
    (settings.announces paused : List (Event K)).filterMap Event.signal? = [paused] ∧
    (settings.announces paused : List (Event K)).filterMap Event.turbo? =
      (if settings.turboOnPause && settings.hostListens then [!paused] else []) ∧
    (settings.announces paused : List (Event K)).filterMap Event.ignored? =
      (if settings.turboOnPause && !settings.hostListens then [!paused] else []) ∧
    ∀ s, (settings.announces paused : List (Event K)).filterMap (Event.heard? s) = [] := by
  unfold Settings.announces Settings.hints
  cases settings.turboOnPause <;> cases settings.hostListens <;> cases paused <;>
    exact ⟨rfl, rfl, rfl, fun _ => rfl⟩

end Paced

/-- Systems, signals and hints follow the pause flag of the world. -/
structure Steady (w : World K) : Prop where
  registered_nodup : w.systems.keys.Nodup
  instances_nodup : w.instances.keys.Nodup
  /-- A system has the flag of the world, and what it has heard leads there. -/
  follows : ∀ s i, w.instances.find? s = some i → i.paused = w.paused ∧ Alternating w.paused i.heard
  /-- What a system has heard it has been told, if it listens. -/
  hearings_eq : ∀ s, w.hearings s =
    if (w.plan s).hearsPauses then (w.instanceAt s).heard else []
  signals : Alternating w.paused w.signals
  /-- Each signal is hinted, on for a resumption and off for a pause, if hints are asked for. -/
  turbos_eq : w.turbos =
    if w.settings.turboOnPause && w.settings.hostListens then w.signals.map (!·) else []
  ignored_eq : w.ignored =
    if w.settings.turboOnPause && !w.settings.hostListens then w.signals.map (!·) else []

/-- Just this has been signalled meanwhile, and the systems that existed have heard of it and of
nothing else. -/
structure Heard (new : List Bool) (w w' : World K) : Prop where
  signals_eq : w'.signals = w.signals ++ new
  heard_eq : ∀ s i, w.instances.find? s = some i →
    ∃ i', w'.instances.find? s = some i' ∧ i'.heard = i.heard ++ new

def Informed (w w' : World K) : Prop := ∃ new, Heard new w w'

theorem Informed.of_eq (hsignals : w'.signals = w.signals)
    (hfind : ∀ s i, w.instances.find? s = some i → w'.instances.find? s = some i) :
    Informed w w' :=
  ⟨[], hsignals.trans (List.append_nil _).symm, fun s i hi =>
    ⟨i, hfind s i hi, (List.append_nil _).symm⟩⟩

theorem Informed.trans (h : Informed w w') (h' : Informed w' w'') : Informed w w'' := by
  obtain ⟨new, hnew, hheard⟩ := h
  obtain ⟨new', hnew', hheard'⟩ := h'
  refine ⟨new ++ new', by rw [hnew', hnew, List.append_assoc], fun s i hi => ?_⟩
  obtain ⟨i', hi', heq⟩ := hheard s i hi
  obtain ⟨i'', hi'', heq'⟩ := hheard' s i' hi'
  exact ⟨i'', hi'', by rw [heq', heq, List.append_assoc]⟩

/-- A steady world stays steady, and its systems informed. -/
def Paces (_ : Bool) (w w' : World K) : Prop := w.Steady → w'.Steady ∧ Informed w w'

namespace Steady

theorem start (settings : Settings) (plans : List (SystemId × Plan K)) :
    ({ settings, plans } : World K).Steady where
  registered_nodup := .nil
  instances_nodup := .nil
  follows s i hi := by cases hi
  hearings_eq s := by split <;> rfl
  signals := .nil
  turbos_eq := by split <;> rfl
  ignored_eq := by split <;> rfl

/-- Nothing has happened that concerns systems. -/
theorem calm (h : w.Steady) (hc : Calm w w') : w'.Steady ∧ Informed w w' := by
  have hsettings : w'.settings = w.settings := congrArg Tuning.settings hc.tuning_eq
  have hplans : w'.plans = w.plans := congrArg Tuning.plans hc.tuning_eq
  have hpaused : w'.paused = w.paused := congrArg Tuning.paused hc.tuning_eq
  have hinstances : w'.instances = w.instances := congrArg Tuning.instances hc.tuning_eq
  have hregistered : w'.systems.keys = w.systems.keys := congrArg Tuning.registered hc.tuning_eq
  have hsignals : w'.signals = w.signals := hc.drawn_eq pausesOnly_signal?
  refine ⟨⟨hregistered ▸ h.registered_nodup, hinstances ▸ h.instances_nodup, ?_, fun s => ?_, ?_,
    ?_, ?_⟩, .of_eq hsignals fun s i hi => hinstances ▸ hi⟩
  · rw [hinstances, hpaused]
    exact h.follows
  · have hhearings : w'.hearings s = w.hearings s := hc.drawn_eq (pausesOnly_heard? s)
    rw [hhearings, plan, hplans, instanceAt, hinstances]
    exact h.hearings_eq s
  · rw [hsignals, hpaused]
    exact h.signals
  · rw [turbos, hc.drawn_eq pausesOnly_turbo?, hsettings, hsignals]
    exact h.turbos_eq
  · rw [ignored, hc.drawn_eq pausesOnly_ignored?, hsettings, hsignals]
    exact h.ignored_eq

theorem registered (h : w.Steady) {s : SystemId} {r : Registration}
    {c : Catalog SystemId fun _ => Registration} (hc : w.systems.insertNew? s r = some c) :
    ({ w with systems := c } : World K).Steady := by
  have hnew : w.systems.find? s = none ∧ c = w.systems.push s r := by
    unfold Catalog.insertNew? Catalog.contains at hc
    cases hfind : w.systems.find? s with
    | none =>
      rw [hfind] at hc
      exact ⟨rfl, (Option.some.inj hc).symm⟩
    | some r' =>
      rw [hfind] at hc
      cases hc
  refine ⟨?_, h.instances_nodup, h.follows, h.hearings_eq, h.signals, h.turbos_eq, h.ignored_eq⟩
  rw [hnew.2, Catalog.keys_push]
  exact h.registered_nodup.append (List.nodup_singleton s)
    (List.disjoint_singleton.mpr (Catalog.find?_eq_none_iff.mp hnew.1))

/-- Something has become of one system that it does not hear of. -/
theorem tuned (h : w.Steady) (s : SystemId) {f : Instance → Instance}
    (hf : ∀ i, (f i).paused = i.paused ∧ (f i).heard = i.heard) :
    (w.tuned s f).Steady ∧ Informed w (w.tuned s f) := by
  have hfind : ∀ x, ((w.tuned s f).instances.find? x) =
      (w.instances.find? x).map (if x = s then f else id) := by
    intro x
    by_cases hx : x = s
    · subst hx
      rw [if_pos rfl]
      exact Catalog.find?_update_self _
    · rw [if_neg hx, Option.map_id]
      exact Catalog.find?_update_ne hx _
  have hsame : ∀ x i, (((if x = s then f else id) i).paused = i.paused) ∧
      (((if x = s then f else id) i).heard = i.heard) := by
    intro x i
    split
    · exact hf i
    · exact ⟨rfl, rfl⟩
  refine ⟨⟨h.registered_nodup, ?_, fun x i hi => ?_, fun x => ?_, h.signals, h.turbos_eq,
    h.ignored_eq⟩, [], (List.append_nil _).symm, fun x i hi =>
      ⟨(if x = s then f else id) i, ?_, ?_⟩⟩
  · exact (Catalog.keys_update w.instances s f).symm ▸ h.instances_nodup
  · rw [hfind] at hi
    obtain ⟨i', hi', rfl⟩ := Option.map_eq_some_iff.mp hi
    rw [(hsame x i').1, (hsame x i').2]
    exact h.follows x i' hi'
  · refine (h.hearings_eq x).trans ?_
    have hheard : ((w.tuned s f).instanceAt x).heard = (w.instanceAt x).heard := by
      rw [instanceAt, hfind, instanceAt]
      cases w.instances.find? x with
      | none => rfl
      | some i => exact (hsame x i).2
    rw [hheard]
    rfl
  · rw [hfind, hi]
    rfl
  · rw [(hsame x i).2, List.append_nil]

/-- A system that comes to be takes over the flag. -/
theorem adopted (h : w.Steady) (s : SystemId) :
    (w.adopted s).Steady ∧ Informed w (w.adopted s) := by
  cases hs : w.instances.find? s with
  | some i =>
    have hadopted : w.adopted s = w := by
      have hold : (w.instances.findOrInsert s {}).2 = w.instances := by
        simp only [Catalog.findOrInsert, hs]
      have hflag : (w.instanceAt s).paused = w.paused := by
        rw [instanceAt, hs]
        exact (h.follows s i hs).1
      rw [World.adopted, hold]
      exact if_pos hflag
    rw [hadopted]
    exact ⟨h, .of_eq rfl fun _ _ => id⟩
  | none =>
    let v : World K := { w with instances := w.instances.push s {} }
    have hadopted : w.adopted s = v.paced s w.paused := by
      rw [World.adopted, Catalog.findOrInsert, hs]
    have hvs : v.instances.find? s = some {} := Catalog.find?_push_self hs
    have hvx : ∀ x, x ≠ s → v.instances.find? x = w.instances.find? x := fun x hx =>
      Catalog.find?_push_ne hx
    -- it hears of nothing but that the world is paused
    have hnew : ({} : Instance).hear w.paused =
        { paused := w.paused, heard := if w.paused then [true] else [] } := by
      cases w.paused <;> rfl
    have hfind : ∀ x, (w.adopted s).instances.find? x =
        if x = s then some (({} : Instance).hear w.paused) else w.instances.find? x := by
      intro x
      rw [hadopted, find?_paced]
      split
      · rw [hvs]
        rfl
      · next hx => exact hvx x hx
    have hpaused : (w.adopted s).paused = w.paused := by rw [adopted_eq]
    have hsettings : (w.adopted s).settings = w.settings := by rw [adopted_eq]
    have hdrawn : ∀ f : Event K → Option Bool, f (.pauseHeard s w.paused) = none →
        (w.adopted s).drawn f = w.drawn f := fun f hf => by
      rw [hadopted]
      exact drawn_paced_of_none v s w.paused hf
    have hsignals : (w.adopted s).signals = w.signals := hdrawn _ rfl
    refine ⟨⟨?_, ?_, fun x i hi => ?_, fun x => ?_, ?_, ?_, ?_⟩, .of_eq hsignals fun x i hi => ?_⟩
    · rw [adopted_eq]
      exact h.registered_nodup
    · rw [hadopted, keys_paced, show v.instances.keys = _ from Catalog.keys_push ..]
      exact h.instances_nodup.append (List.nodup_singleton s)
        (List.disjoint_singleton.mpr (Catalog.find?_eq_none_iff.mp hs))
    · rw [hpaused]
      rw [hfind] at hi
      split at hi
      · cases hi
        rw [hnew]
        refine ⟨rfl, ?_⟩
        cases w.paused with
        | true => exact .once
        | false => exact .nil
      · exact h.follows x i hi
    · have hplan : (w.adopted s).plan x = w.plan x := by
        rw [adopted_eq]
        rfl
      rw [hplan, instanceAt, hfind]
      by_cases hx : x = s
      · subst hx
        have hbefore : w.hearings x = [] := by
          rw [h.hearings_eq, instanceAt, hs]
          exact ite_self _
        have hnow : (v.paced x w.paused).hearings x = w.hearings x ++ _ := drawn_paced v x w.paused _
        have hv : v.instanceAt x = {} := by rw [instanceAt, hvs]; rfl
        have hvplan : v.plan x = w.plan x := rfl
        rw [hadopted, hnow, hbefore, hv, hvplan, if_pos rfl, hnew]
        cases hears : (w.plan x).hearsPauses <;> cases hp : w.paused <;> simp [Event.heard?]
      · have hother : (w.adopted s).hearings x = w.hearings x :=
          hdrawn _ (if_neg (Ne.symm hx))
        rw [hother, if_neg hx]
        exact h.hearings_eq x
    · rw [hsignals, hpaused]
      exact h.signals
    · rw [turbos, hdrawn _ rfl, hsettings, hsignals]
      exact h.turbos_eq
    · rw [ignored, hdrawn _ rfl, hsettings, hsignals]
      exact h.ignored_eq
    · rw [hfind]
      split
      · next hx =>
        subst hx
        rw [hs] at hi
        cases hi
      · exact hi

/-- All systems are told that they are paused, or that they are resumed. -/
theorem switched (h : w.Steady) {paused : Bool} (hne : w.paused ≠ paused) :
    (w.switched paused).Steady ∧ Heard [paused] w (w.switched paused) := by
  have hflags : ∀ s ∈ w.instances.keys, (instanceAt { w with paused } s).paused ≠ paused := by
    intro s hs
    obtain ⟨i, hi⟩ := Catalog.exists_find?_of_mem hs
    have hinstance : instanceAt { w with paused } s = i := by
      rw [instanceAt, hi]
      rfl
    rw [hinstance, (h.follows s i hi).1]
    exact hne
  obtain ⟨hfound, hkeys, hheld, hheard⟩ :=
    pacedAll_spec (w := { w with paused }) h.instances_nodup hflags
  have hfind : ∀ x, (w.switched paused).instances.find? x =
      (w.instances.find? x).map (·.hear paused) := by
    intro x
    refine (hfound x).trans ?_
    split
    · rfl
    · next hx =>
      have hnone : w.instances.find? x = none := Catalog.find?_eq_none_iff.mpr hx
      rw [hnone]
      rfl
  have hhear : ∀ x i, w.instances.find? x = some i →
      i.hear paused = { i with paused, heard := i.heard ++ [paused] } := fun x i hi =>
    if_neg ((h.follows x i hi).1 ▸ hne)
  obtain ⟨hsignal, hturbo, hignored, hquiet⟩ := filterMap_announces (K := K) w.settings paused
  have hpaused : (w.switched paused).paused = paused := by rw [switched_eq]
  have hsettings : (w.switched paused).settings = w.settings := by rw [switched_eq]
  have hdrawn : ∀ f : Event K → Option Bool, (∀ s, f (.pauseHeard s paused) = none) →
      (w.switched paused).drawn f = w.drawn f ++ (w.settings.announces paused).filterMap f :=
    fun f hf => by
      rw [drawn_switched, hheld f hf]
      rfl
  have hsignals : (w.switched paused).signals = w.signals ++ [paused] := by
    rw [World.signals, hdrawn _ fun _ => rfl, hsignal, World.signals]
  refine ⟨⟨?_, ?_, fun x i hi => ?_, fun x => ?_, ?_, ?_, ?_⟩, hsignals, fun x i hi => ?_⟩
  · rw [switched_eq]
    exact h.registered_nodup
  · exact hkeys ▸ h.instances_nodup
  · rw [hpaused]
    rw [hfind] at hi
    obtain ⟨i', hi', rfl⟩ := Option.map_eq_some_iff.mp hi
    rw [hhear x i' hi']
    exact ⟨rfl, (h.follows x i' hi').2.flip hne⟩
  · have hplan : (w.switched paused).plan x = w.plan x := by
      rw [switched_eq]
      rfl
    have htold : (w.switched paused).hearings x = w.hearings x ++
        if x ∈ w.instances.keys ∧ (w.plan x).hearsPauses = true then [paused] else [] := by
      rw [hearings, drawn_switched, hquiet, List.append_nil]
      exact hheard x
    rw [htold, h.hearings_eq, hplan, instanceAt, instanceAt, hfind]
    cases hi : w.instances.find? x with
    | none =>
      have hx : x ∉ w.instances.keys := Catalog.find?_eq_none_iff.mp hi
      simp [hx]
    | some i =>
      have hx : x ∈ w.instances.keys := by
        by_contra hx
        rw [Catalog.find?_eq_none_iff.mpr hx] at hi
        cases hi
      cases (w.plan x).hearsPauses <;> simp [hx, hhear x i hi]
  · rw [hsignals, hpaused]
    exact h.signals.flip hne
  · rw [turbos, hdrawn _ fun _ => rfl, hturbo, hsettings, hsignals, ← turbos, h.turbos_eq]
    split <;> simp
  · rw [ignored, hdrawn _ fun _ => rfl, hignored, hsettings, hsignals, ← ignored, h.ignored_eq]
    split <;> simp
  · exact ⟨i.hear paused, by rw [hfind, hi]; rfl, by rw [hhear x i hi]⟩

end Steady

end World

theorem Run.upkeep_paces [DecidableEq K] :
    Upkeep (K := K) (fun _ _ => True) World.Paces where
  weaken h := h
  trans h h' hw := by
    obtain ⟨hv, hinformed⟩ := h hw
    exact ⟨(h' hv).1, hinformed.trans (h' hv).2⟩
  beside h hw := hw.calm h.aside.calm
  populated _ := trivial
  fired _ _ _ h hw := hw.calm h
  minted _ _ _ _ _ h hw := hw.calm h
  razed _ _ h hw := hw.calm h.calm
  marked _ _ _ _ _ h hw := hw.calm h
  ordered _ _ h hw := hw.calm h
  registered h hw := ⟨hw.registered h, .of_eq rfl fun _ _ => id⟩
  tuned s _ hf hw := hw.tuned s hf
  adopted s hw := hw.adopted s
  switched _ hne hw := ⟨(hw.switched hne).1, _, (hw.switched hne).2⟩

namespace World

variable [DecidableEq K]

theorem paces_perform (hw : w.Fit) (n turns : Nat) (self : Option Entity) (v : Verb K) :
    Run.Passes Paces w (Run.perform (Run.runScript n) turns self v w) :=
  Run.passes_verb (ι := Unit) (fun _ => Run.upkeep_paces)
    (fun _ hrun _ => Run.upkeep_paces.keeps_commitDestructions (hrun ()) fun _ _ hw =>
      hw.calm (.of_eq rfl)) () hw n turns self v

theorem keeps_runScript_paces (n : Nat) (self : Option Entity) (script : Script K) :
    Run.Keeps Paces (Run.runScript n self script) :=
  Run.keeps_runScript (ι := Unit) (fun _ => Run.upkeep_paces)
    (fun _ hrun _ => Run.upkeep_paces.keeps_commitDestructions (hrun ()) fun _ _ hw =>
      hw.calm (.of_eq rfl)) n () self script

theorem Reached.steady (h : w.Reached) : w.Steady := by
  induction h with
  | start settings plans => exact .start settings plans
  | next hw n turns v ih => exact ((paces_perform hw.atRest.1 n turns none v).keeps ih).1

end World

end EntityStore
