import EntityStore.Proofs.World.Stores

/-!
# What pausing does

The pause flag of a system is set by writing down that the system heard of it, and only if that
changes the flag. A system takes over the flag of the world as soon as it exists; and when the flag of
the world changes, all systems are told before anybody else is.
-/
namespace EntityStore

variable {K : Type} [Schema K] {w : World K} {s : SystemId} {paused : Bool}

def Signal.ofPause (paused : Bool) : Signal := if paused then .systemsPaused else .systemsResumed

def Settings.hints (settings : Settings) (paused : Bool) : List (Event K) :=
  if settings.turboOnPause then
    [if settings.hostListens then .turbo !paused else .notice (.turboIgnored !paused)]
  else []

/-- What is told when the systems have been paused or resumed, the signal last. -/
def Settings.announces (settings : Settings) (paused : Bool) : List (Event K) :=
  .notice (if paused then .pausedAll else .resumedAll) ::
    (settings.hints paused ++ [.notice (.fired (.ofPause paused))])

namespace World

def instanceAt (w : World K) (s : SystemId) : Instance := (w.instances.find? s).getD {}

abbrev withSystems (w : World K) (instances : Catalog SystemId fun _ => Instance)
    (events : Array (Event K)) : World K := { w with instances, events }

theorem withSystems_of_eq {v : World K} {c c' : Catalog SystemId fun _ => Instance}
    {es es' : Array (Event K)} (h : v = w.withSystems c es) :
    v.withSystems c' es' = w.withSystems c' es' := by
  rw [h]

def tuned (w : World K) (s : SystemId) (f : Instance → Instance) : World K :=
  { w with instances := w.instances.update s f }

/-- The world in which a system has heard whether it is paused, if it was not so before. -/
def paced (w : World K) (s : SystemId) (paused : Bool) : World K :=
  if (w.instanceAt s).paused = paused then w
  else
    { w.tuned s fun i => { i with paused, heard := i.heard ++ [paused] } with
      events := if (w.plan s).hearsPauses then w.events.push (.pauseHeard s paused) else w.events }

theorem paced_eq (w : World K) (s : SystemId) (paused : Bool) :
    w.paced s paused = w.withSystems (w.paced s paused).instances (w.paced s paused).events := by
  unfold paced
  split <;> rfl

theorem keys_paced (w : World K) (s : SystemId) (paused : Bool) :
    (w.paced s paused).instances.keys = w.instances.keys := by
  unfold paced
  split
  · rfl
  · exact Catalog.keys_update ..

/-- The world in which a system exists, and has heard whether it is paused. -/
def adopted (w : World K) (s : SystemId) : World K :=
  { w with instances := (w.instances.findOrInsert s {}).2 }.paced s w.paused

theorem adopted_eq (w : World K) (s : SystemId) :
    w.adopted s = w.withSystems (w.adopted s).instances (w.adopted s).events :=
  withSystems_of_eq (paced_eq { w with instances := _ } s w.paused)

theorem mem_keys_adopted {x : SystemId} (h : x ∈ (w.adopted s).instances.keys) :
    x = s ∨ x ∈ w.instances.keys := by
  rw [adopted, keys_paced, Catalog.findOrInsert] at h
  cases hs : w.instances.find? s with
  | none =>
    rw [hs] at h
    simpa [or_comm] using h
  | some i =>
    rw [hs] at h
    exact .inr h

def pacedAll (w : World K) (paused : Bool) (ss : List SystemId) : World K :=
  ss.foldl (fun w s => w.paced s paused) w

theorem pacedAll_eq (w : World K) (paused : Bool) (ss : List SystemId) : w.pacedAll paused ss =
    w.withSystems (w.pacedAll paused ss).instances (w.pacedAll paused ss).events := by
  induction ss generalizing w with
  | nil => rfl
  | cons s ss ih => exact (ih (w.paced s paused)).trans (withSystems_of_eq (paced_eq w s paused))

/-- The world in which the systems have been paused or resumed, before any observer has been told. -/
def switched (w : World K) (paused : Bool) : World K :=
  let v := { w with paused }.pacedAll paused w.instances.keys
  { v with events := v.events ++ (w.settings.announces paused).toArray }

theorem switched_eq (w : World K) (paused : Bool) : w.switched paused =
    { w with paused }.withSystems (w.switched paused).instances (w.switched paused).events := by
  have h := pacedAll_eq { w with paused } paused w.instances.keys
  exact withSystems_of_eq h

theorem told_paced (w : World K) (s : SystemId) (paused : Bool) :
    Told [] w (w.paced s paused) := by
  unfold paced
  split
  · exact .of_eq rfl
  · split
    · exact .of_push rfl rfl
    · exact .of_eq rfl

theorem told_pacedAll (w : World K) (paused : Bool) (ss : List SystemId) :
    Told [] w (w.pacedAll paused ss) := by
  induction ss generalizing w with
  | nil => exact .of_eq rfl
  | cons s ss ih => exact (told_paced w s paused).trans (ih _)

theorem told_switched (w : World K) (paused : Bool) :
    Told [.notice (.fired (.ofPause paused))] w (w.switched paused) := by
  have hpaced : Told [] w (pacedAll { w with paused } paused w.instances.keys) :=
    told_pacedAll { w with paused } paused w.instances.keys
  have hhints : ∀ e ∈ w.settings.hints paused, (e : Event K).isAside = true := by
    intro e he
    unfold Settings.hints at he
    split at he
    · rw [List.mem_singleton.mp he]
      split <;> rfl
    · cases he
  refine hpaced.trans ⟨_, rfl, ?_⟩
  show ((w.settings.announces paused).filter _) = _
  rw [Settings.announces, List.filter_cons_of_neg (by cases paused <;> simp [Event.isAside]),
    List.filter_append,
    List.filter_eq_nil_iff.mpr fun e he => by simp [hhints e he]]
  rfl

end World

namespace Run

variable {run : Runner K}

theorem editInstance_eq (f : Instance → Instance) :
    editInstance s f w = .ok () (w.tuned s f) := rfl

theorem setPausedOf_eq : setPausedOf s paused w = .ok () (w.paced s paused) := by
  have hinstance : (instanceOf s : Run K Instance) w = .ok (w.instanceAt s) w := rfl
  rw [setPausedOf, bind_of_ok hinstance, World.paced]
  split
  · rfl
  · refine (bind_of_ok (editInstance_eq _)).trans ?_
    have hplan : ∀ f, (w.tuned s f).plan s = w.plan s := fun _ => rfl
    simp only [get_bind, hplan]
    split <;> rfl

def Yields {α : Type} (a : α) (op : Run K α) : Prop := ∀ w b w', op w = .ok b w' → b = a

theorem yields_pure {α : Type} (a : α) : Yields a (pure a : Run K α) := fun _ _ _ h => by
  cases h
  rfl

theorem Yields.bind {α β : Type} {a : α} (op : Run K β) {f : β → Run K α}
    (hf : ∀ b, Yields a (f b)) : Yields a (op >>= f) := by
  intro w b w' h
  obtain ⟨x, v, -, hv⟩ := ok_of_bind h
  exact hf x v b w' hv

/-- A system that is built is a new one. -/
theorem yields_build (s : SystemId) : Yields {} (build run s) := by
  refine .bind get fun w => ?_
  cases w.systems.find? s with
  | none => exact fun _ _ _ h => by cases h
  | some r =>
    have hnew : Yields ({} : Instance) (do
        note (.systemInstantiated (w.plan s).name)
        return {} : Run K Instance) := .bind _ fun _ => yields_pure _
    dsimp only
    split
    · refine .bind _ fun _ => ?_
      cases (w.plan s).factory[r.calls]? with
      | none => exact hnew
      | some script => exact .bind _ fun _ => .bind _ fun _ => hnew
    · exact hnew

theorem system_of_contains (h : w.instances.contains s = true) : system run s w = .ok () w := by
  rw [system, get_bind, if_pos h]
  rfl

/-- A system comes to be, unless its own factory has had it come to be already. -/
theorem system_of_not_contains (h : w.instances.contains s = false) :
    system run s w = (build run s >>= fun _ => modify (·.adopted s)) w := by
  have hfind : w.instances.find? s = none := by
    simpa [Catalog.contains] using h
  have hmissing : (instancesView.read w).find? s = none := hfind
  rw [system, get_bind, if_neg (by simp [h])]
  simp only [Catalog.getOrCreate, bind_assoc, get_bind, hmissing]
  refine bind_congr_right fun i v hi => ?_
  rw [yields_build s w i v hi]
  exact setPausedOf_eq

theorem forM_setPausedOf (ss : List SystemId) :
    ss.forM (setPausedOf · paused) w = .ok () (w.pacedAll paused ss) := by
  induction ss generalizing w with
  | nil => rfl
  | cons s ss ih => exact (bind_of_ok setPausedOf_eq).trans ih

theorem setPaused_of_eq (h : w.paused = paused) : setPaused run paused w = .ok () w := by
  rw [setPaused, get_bind, if_pos h]
  rfl

theorem setPaused_of_ne (h : w.paused ≠ paused) : setPaused run paused w =
    tellFrom run (.ofPause paused) (w.switched paused).observers.length 0 (w.switched paused) := by
  let v := World.pacedAll { w with paused } paused w.instances.keys
  have hsettings : v.settings = w.settings := by
    show (World.pacedAll { w with paused } paused w.instances.keys).settings = _
    rw [World.pacedAll_eq]
  have hset : (modify fun w : World K => { w with paused } : Run K Unit) w =
      .ok () { w with paused } := rfl
  have hall : w.instances.keys.forM (setPausedOf · paused) { w with paused } = .ok () v :=
    forM_setPausedOf _
  -- what is left is to write down the notice, the hint and the signal
  have hfire : ∀ u : World K, fire run (.ofPause paused) u = tellFrom run (.ofPause paused)
      u.observers.length 0 { u with events := u.events.push (.notice (.fired (.ofPause paused))) } :=
    fun _ => rfl
  have hlast : ∀ es : Array (Event K), es.toList = v.events.toList ++ w.settings.announces paused →
      { v with events := es } = w.switched paused := fun es hes => by
    have harray : es = v.events ++ (w.settings.announces paused).toArray :=
      Array.toList_inj.mp (by simpa using hes)
    exact harray ▸ rfl
  rw [setPaused, get_bind, if_neg h]
  refine (bind_of_ok hset).trans ?_
  refine (bind_of_ok hall).trans ?_
  refine (bind_of_ok rfl).trans ?_
  rw [get_bind]
  show (if v.settings.turboOnPause = true then _ else _ : Run K Unit) _ = _
  rw [hsettings]
  simp only [Settings.announces, Settings.hints] at hlast
  cases hturbo : w.settings.turboOnPause with
  | false =>
    rw [hturbo] at hlast
    exact (hfire _).trans (congrArg _ (hlast _ (by simp)))
  | true =>
    rw [hturbo] at hlast
    cases hhost : w.settings.hostListens with
    | false =>
      rw [hhost] at hlast
      exact (bind_of_ok rfl).trans ((hfire _).trans (congrArg _ (hlast _ (by simp))))
    | true =>
      rw [hhost] at hlast
      exact (bind_of_ok rfl).trans ((hfire _).trans (congrArg _ (hlast _ (by simp))))

end Run

end EntityStore
