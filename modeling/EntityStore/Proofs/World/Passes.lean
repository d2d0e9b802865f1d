import EntityStore.Proofs.Catalog.Entries
import EntityStore.Proofs.Lock.Solo
import EntityStore.Proofs.Table.Neat
import EntityStore.World.Perform

/-!
# What operations keep

Whatever an operation of a world runs and however it ends, it finds the world fit and leaves it so:
every lock of the world can be entered and is given back as it was, tables and handles are in order,
and what is out of the roster is gone. Beside that an operation may be asked to keep any relation
between the world before and the world after it that puts up with the rest.
-/
namespace EntityStore

namespace Bank

variable {b b' b'' : Bank}

/-- All locks are as before; there may be new ones, whose contents nobody has. -/
structure Extends (b b' : Bank) : Prop where
  size_le : b.size ≤ b'.size
  get_eq : ∀ l < b.size, b'.get l = b.get l
  fresh : ∀ l, b.size ≤ l → (b'.get l).lent = false

theorem Extends.refl (b : Bank) : b.Extends b :=
  ⟨Nat.le_refl _, fun _ _ => rfl, fun l hl => by rw [get_of_size_le hl]; rfl⟩

theorem Extends.of_eq (h : b' = b) : b.Extends b' := h ▸ .refl b

theorem Extends.trans (h : b.Extends b') (h' : b'.Extends b'') : b.Extends b'' := by
  refine ⟨h.size_le.trans h'.size_le, fun l hl =>
    (h'.get_eq l (hl.trans_le h.size_le)).trans (h.get_eq l hl), fun l hl => ?_⟩
  rcases Nat.lt_or_ge l b'.size with hlt | hge
  · rw [h'.get_eq l hlt]
    exact h.fresh l hl
  · exact h'.fresh l hge

theorem Extends.lent (h : b.Extends b') (l : Nat) :
    (b'.get l).lent = if l < b.size then (b.get l).lent else false := by
  split
  · next hl => rw [h.get_eq l hl]
  · next hl => exact h.fresh l (Nat.le_of_not_lt hl)

/-- Without a new lock, the bank is as before. -/
theorem Extends.eq_of_size (h : b.Extends b') (hsize : b'.size = b.size) : b' = b :=
  ext_get hsize h.get_eq

theorem get_add (b : Bank) (lock : Lock) (l : Nat) :
    (b.add lock).2.get l = if l = b.size then lock else b.get l := by
  simp only [add, get, Array.getD_eq_getD_getElem?, Array.getElem?_push, size]
  split <;> rfl

theorem extends_add (b : Bank) {lock : Lock} (hlent : lock.lent = false) :
    b.Extends (b.add lock).2 := by
  refine ⟨by simp [add, size], fun l hl => ?_, fun l hl => ?_⟩
  · rw [get_add, if_neg (Nat.ne_of_lt hl)]
  · rw [get_add]
    split
    · exact hlent
    · rw [get_of_size_le hl]
      rfl

end Bank

/-- The event tells nothing of what becomes of entities. -/
def Event.isAside {K : Type} [Schema K] : Event K → Bool
  | .notice (.destroyed _) | .notice (.fired _) | .notice (.minted ..) => false
  | _ => true

def Signal.isQuiet : Signal → Bool
  | .systemsPaused | .systemsResumed => false
  | _ => true

def Event.isQuiet {K : Type} [Schema K] : Event K → Bool
  | .pauseHeard .. | .turbo _ | .notice (.turboIgnored _) => false
  | .notice (.fired s) => s.isQuiet
  | _ => true

def Event.isPlain {K : Type} [Schema K] (e : Event K) : Bool := e.isAside && e.isQuiet

theorem Event.isPlain_of_isLocal {K : Type} [Schema K] {n : Notice} (h : n.isLocal = true) :
    (Event.notice n : Event K).isPlain = true := by
  cases n <;> first | rfl | cases h

/-- What the systems of a world go by. How often their factories were called is no part of it. -/
structure Tuning (K : Type) [Schema K] where
  settings : Settings
  plans : List (SystemId × Plan K)
  paused : Bool
  instances : Catalog SystemId fun _ => Instance
  registered : List SystemId

namespace World

variable {K : Type} [Schema K] [DecidableEq K] {w w' w'' : World K}

/-- What every operation relies on. -/
structure Fit (w : World K) : Prop where
  /-- Every lock is free or the caller's own. -/
  enterable : ∀ l, (w.bank.get l).Open caller
  lock_lt : ∀ t ∈ w.tables.entries, t.2.lock < w.bank.size
  keys_nodup : w.tables.keys.Nodup
  tables : ∀ k d, w.tables.find? k = some d → d.contents.Sound
  roster : ∃ l, w.roster.arena.Stocked l
  handles : w.handles.Sound

theorem fit_start (settings : Settings) (plans : List (SystemId × Plan K)) :
    ({ settings, plans } : World K).Fit where
  enterable l := by
    rw [Bank.get_of_size_le (Nat.zero_le l)]
    exact .inr ⟨rfl, rfl, rfl⟩
  lock_lt t h := by cases h
  keys_nodup := .nil
  tables k d h := by cases h
  roster := ⟨_, .empty⟩
  handles := HandleTable.sound_empty

/-- Nothing else is relied on than locks, tables, who lives and handles. -/
theorem Fit.congr (hw : w.Fit) (hbank : w'.bank = w.bank) (htables : w'.tables = w.tables)
    (harena : w'.roster.arena = w.roster.arena) (hhandles : w'.handles = w.handles) : w'.Fit := by
  obtain ⟨henterable, hlock, hkeys, htables', hroster, hhandles'⟩ := hw
  rw [← hbank] at henterable hlock
  rw [← htables] at hlock hkeys htables'
  rw [← harena] at hroster
  rw [← hhandles] at hhandles'
  exact ⟨henterable, hlock, hkeys, htables', hroster, hhandles'⟩

def tuning (w : World K) : Tuning K :=
  ⟨w.settings, w.plans, w.paused, w.instances, w.systems.keys⟩

/-- What has been told meanwhile of what becomes of entities. -/
def Told (es : List (Event K)) (w w' : World K) : Prop :=
  ∃ new : Array (Event K), w'.events = w.events ++ new ∧ new.toList.filter (!·.isAside) = es

namespace Told

variable {es es' : List (Event K)}

omit [DecidableEq K]

theorem of_eq (h : w'.events = w.events) : Told [] w w' := ⟨#[], by rw [h, Array.append_empty], rfl⟩

theorem of_aside {new : Array (Event K)} (h : w'.events = w.events ++ new)
    (hnew : ∀ e ∈ new, e.isAside = true) : Told [] w w' :=
  ⟨new, h, List.filter_eq_nil_iff.mpr fun e he => by simp [hnew e (Array.mem_toList_iff.mp he)]⟩

theorem of_push {e : Event K} (h : w'.events = w.events.push e) (he : e.isAside = true) :
    Told [] w w' := of_aside (h.trans Array.push_eq_append) (by simpa using he)

theorem of_push_told {e : Event K} (h : w'.events = w.events.push e) (he : e.isAside = false) :
    Told [e] w w' := ⟨#[e], h.trans Array.push_eq_append, by simp [he]⟩

theorem trans (h : Told es w w') (h' : Told es' w' w'') : Told (es ++ es') w w'' := by
  obtain ⟨new, hnew, rfl⟩ := h
  obtain ⟨new', hnew', rfl⟩ := h'
  exact ⟨new ++ new', by rw [hnew', hnew, Array.append_assoc], by simp⟩

end Told

/-- Nothing has happened to the systems, and nothing of that has been told. The observers have kept their
scripts; there may be new ones. -/
structure Calm (w w' : World K) : Prop where
  tuning_eq : w'.tuning = w.tuning
  quiet : ∃ new : Array (Event K), w'.events = w.events ++ new ∧ ∀ e ∈ new, e.isQuiet = true
  scripts_prefix : w.observers.map (·.on) <+: w'.observers.map (·.on)

namespace Calm

omit [DecidableEq K]

theorem of_eq (h : w'.events = w.events) (ht : w'.tuning = w.tuning := by rfl)
    (ho : w.observers.map (·.on) <+: w'.observers.map (·.on) := by exact List.prefix_rfl) :
    Calm w w' :=
  ⟨ht, ⟨#[], by rw [h, Array.append_empty], by simp⟩, ho⟩

theorem of_push {e : Event K} (h : w'.events = w.events.push e) (he : e.isQuiet = true)
    (ht : w'.tuning = w.tuning := by rfl)
    (ho : w.observers.map (·.on) <+: w'.observers.map (·.on) := by exact List.prefix_rfl) :
    Calm w w' :=
  ⟨ht, ⟨#[e], h.trans Array.push_eq_append, by simpa using he⟩, ho⟩

theorem trans (h : Calm w w') (h' : Calm w' w'') : Calm w w'' := by
  obtain ⟨new, hnew, hquiet⟩ := h.quiet
  obtain ⟨new', hnew', hquiet'⟩ := h'.quiet
  refine ⟨h'.tuning_eq.trans h.tuning_eq, ⟨new ++ new', ?_, fun e he => ?_⟩,
    h.scripts_prefix.trans h'.scripts_prefix⟩
  · rw [hnew', hnew, Array.append_assoc]
  · exact (Array.mem_append.mp he).elim (hquiet e) (hquiet' e)

end Calm

/-- Nothing has happened to entities or to systems that would have been told, nor has it. -/
structure Aside (w w' : World K) : Prop where
  told : Told [] w w'
  calm : Calm w w'

namespace Aside

omit [DecidableEq K]

theorem of_eq (h : w'.events = w.events) (ht : w'.tuning = w.tuning := by rfl)
    (ho : w.observers.map (·.on) <+: w'.observers.map (·.on) := by exact List.prefix_rfl) :
    Aside w w' :=
  ⟨.of_eq h, .of_eq h ht ho⟩

theorem of_plain {new : Array (Event K)} (h : w'.events = w.events ++ new)
    (hnew : ∀ e ∈ new, e.isPlain = true) (ht : w'.tuning = w.tuning := by rfl)
    (ho : w.observers.map (·.on) <+: w'.observers.map (·.on) := by exact List.prefix_rfl) :
    Aside w w' :=
  ⟨.of_aside h fun e he => (Bool.and_eq_true_iff.mp (hnew e he)).1,
    ht, ⟨new, h, fun e he => (Bool.and_eq_true_iff.mp (hnew e he)).2⟩, ho⟩

/-- Nothing but local notices has been written. -/
theorem of_local {ns : List Notice} (h : w'.events = w.events ++ (ns.map Event.notice).toArray)
    (hns : ∀ n ∈ ns, n.isLocal = true) (ht : w'.tuning = w.tuning := by rfl)
    (ho : w.observers.map (·.on) <+: w'.observers.map (·.on) := by exact List.prefix_rfl) :
    Aside w w' := by
  refine of_plain h (fun e he => ?_) ht ho
  obtain ⟨n, hn, rfl⟩ := List.mem_map.mp (List.mem_toArray.mp he)
  exact Event.isPlain_of_isLocal (hns n hn)

theorem of_push {e : Event K} (h : w'.events = w.events.push e) (he : e.isPlain = true)
    (ht : w'.tuning = w.tuning := by rfl)
    (ho : w.observers.map (·.on) <+: w'.observers.map (·.on) := by exact List.prefix_rfl) :
    Aside w w' :=
  of_plain (h.trans Array.push_eq_append) (by simpa using he) ht ho

theorem trans (h : Aside w w') (h' : Aside w' w'') : Aside w w'' :=
  ⟨h.told.trans h'.told, h.calm.trans h'.calm⟩

end Aside

/-- No entity has come or gone, and only entities of which `T` holds have come to have records. -/
structure Beside (T : Entity → Prop) (w w' : World K) : Prop where
  roster_eq : w'.roster = w.roster
  aside : Aside w w'
  records : ∀ k e, (w'.record? k e).isSome = true → (w.record? k e).isSome = true ∨ T e

namespace Beside

variable {T T' : Entity → Prop}

theorem mono (h : Beside T w w') (hT : ∀ e, T e → T' e) : Beside T' w w' :=
  ⟨h.roster_eq, h.aside, fun k e he => (h.records k e he).imp_right (hT e)⟩

theorem refl (w : World K) : Beside T w w := ⟨rfl, .of_eq rfl, fun _ _ => .inl⟩

theorem trans (h : Beside T w w') (h' : Beside T w' w'') : Beside T w w'' :=
  ⟨h'.roster_eq.trans h.roster_eq, h.aside.trans h'.aside, fun k e he =>
    (h'.records k e he).elim (h.records k e) .inr⟩

theorem told (h : Beside T w w') : Told [] w w' := h.aside.told

theorem isLive_eq (h : Beside T w w') (e : Entity) : w'.isLive e = w.isLive e := by
  rw [isLive, h.roster_eq, isLive]

end Beside

/-- The world differs in none of what operations rely on. -/
structure Aloof (w w' : World K) : Prop where
  bank_eq : w'.bank = w.bank
  handles_eq : w'.handles = w.handles
  roster_eq : w'.roster = w.roster
  tables_eq : w'.tables = w.tables
  aside : Aside w w'

namespace Aloof

theorem fit (h : Aloof w w') (hw : w.Fit) : w'.Fit where
  enterable := h.bank_eq ▸ hw.enterable
  lock_lt := h.bank_eq ▸ h.tables_eq ▸ hw.lock_lt
  keys_nodup := h.tables_eq ▸ hw.keys_nodup
  tables := h.tables_eq ▸ hw.tables
  roster := h.roster_eq ▸ hw.roster
  handles := h.handles_eq ▸ hw.handles

omit [DecidableEq K] in
theorem told (h : Aloof w w') : Told [] w w' := h.aside.told

theorem beside {T : Entity → Prop} (h : Aloof w w') : Beside T w w' :=
  ⟨h.roster_eq, h.aside, fun k e he => .inl (by rwa [record?, h.tables_eq] at he)⟩

end Aloof

end World

/-- Whether the failure passes through everything. -/
def Failure.breaks : Failure → Bool
  | .fault _ => false
  | _ => true

namespace Run

def left {σ α : Type} : EStateM.Result Failure σ α → σ
  | .ok _ s => s
  | .error _ s => s

def broke {σ α : Type} : EStateM.Result Failure σ α → Bool
  | .ok _ _ => false
  | .error e _ => e.breaks

def ending {σ τ α : Type} (s : τ) : EStateM.Result Failure σ α → EStateM.Result Failure τ α
  | .ok a _ => .ok a s
  | .error e _ => .error e s

section Ending

variable {σ τ α : Type} (s : τ) (r : EStateM.Result Failure σ α)

@[simp] theorem left_ending : left (ending s r) = s := by cases r <;> rfl

@[simp] theorem ending_left : ending (left r) r = r := by cases r <;> rfl

@[simp] theorem broke_ending : broke (ending s r) = broke r := by cases r <;> rfl

end Ending

section Bind

variable {σ α β : Type} {op : EStateM Failure σ α} {f : α → EStateM Failure σ β} {s s' : σ}

theorem bind_of_ok {a : α} (h : op s = .ok a s') : (op >>= f) s = f a s' := by
  show EStateM.bind op f s = _
  rw [EStateM.bind, h]

theorem bind_of_error {e : Failure} (h : op s = .error e s') : (op >>= f) s = .error e s' := by
  show EStateM.bind op f s = _
  rw [EStateM.bind, h]

/-- What has succeeded has done so part by part. -/
theorem ok_of_bind {b : β} (h : (op >>= f) s = .ok b s') :
    ∃ a t, op s = .ok a t ∧ f a t = .ok b s' := by
  cases hr : op s with
  | ok a t => exact ⟨a, t, rfl, (bind_of_ok hr).symm.trans h⟩
  | error e t => cases (bind_of_error hr).symm.trans h

/-- What has failed has failed in one of its parts. -/
theorem error_of_bind {e : Failure} (h : (op >>= f) s = .error e s') :
    op s = .error e s' ∨ ∃ a t, op s = .ok a t ∧ f a t = .error e s' := by
  cases hr : op s with
  | ok a t => exact .inr ⟨a, t, rfl, (bind_of_ok hr).symm.trans h⟩
  | error e' t =>
    cases (bind_of_error hr).symm.trans h
    exact .inl rfl

theorem left_bind_pure (op : EStateM Failure σ α) (f : α → β) (s : σ) :
    left ((op >>= fun a => pure (f a)) s) = left (op s) := by
  cases hr : op s with
  | ok a t => rw [bind_of_ok hr]; rfl
  | error e t => rw [bind_of_error hr]; rfl

/-- What comes before need only agree there. -/
theorem bind_congr_left {op' : EStateM Failure σ α} (h : op s = op' s) :
    (op >>= f) s = (op' >>= f) s := by
  cases hr : op' s with
  | ok a s' => rw [bind_of_ok hr, bind_of_ok (h.trans hr)]
  | error e s' => rw [bind_of_error hr, bind_of_error (h.trans hr)]

/-- What comes after need only agree where it is come to. -/
theorem bind_congr_right {g : α → EStateM Failure σ β}
    (h : ∀ a s', op s = .ok a s' → f a s' = g a s') : (op >>= f) s = (op >>= g) s := by
  cases hr : op s with
  | ok a s' => rw [bind_of_ok hr, bind_of_ok hr, h a s' hr]
  | error e s' => rw [bind_of_error hr, bind_of_error hr]

end Bind

section Attempt

variable {K α : Type} [Schema K] {body : Run K α} {w w' : World K}

theorem attempt_of_ok {a : α} (h : body w = .ok a w') : attempt body w = .ok (.ok a) w' := by
  rw [attempt, h]

theorem attempt_of_fault {f : Fault} (h : body w = .error (.fault f) w') :
    attempt body w = .ok (.error f) w' := by
  rw [attempt, h]

theorem attempt_of_breaks {e : Failure} (h : body w = .error e w') (he : e.breaks = true) :
    attempt body w = .error e w' := by
  rw [attempt, h]
  cases e with
  | fault f => cases he
  | _ => rfl

theorem ok_of_attempt {a : α} (h : attempt body w = .ok (.ok a) w') : body w = .ok a w' := by
  cases hr : body w with
  | ok b v =>
    rw [attempt_of_ok hr] at h
    cases h
    rfl
  | error e v =>
    cases e with
    | fault f => cases (attempt_of_fault hr).symm.trans h
    | _ => cases (attempt_of_breaks hr rfl).symm.trans h

theorem fault_of_attempt {f : Fault} (h : attempt body w = .ok (.error f) w') :
    body w = .error (.fault f) w' := by
  unfold attempt at h
  split at h <;> cases h
  assumption

theorem left_attempt (body : Run K α) (w : World K) : left (attempt body w) = left (body w) := by
  cases hr : body w with
  | ok a w' => rw [attempt_of_ok hr]; rfl
  | error e w' =>
    cases e with
    | fault f => rw [attempt_of_fault hr]; rfl
    | _ => rw [attempt_of_breaks hr rfl]; rfl

theorem broke_attempt (body : Run K α) (w : World K) : broke (attempt body w) = broke (body w) := by
  cases hr : body w with
  | ok a w' => rw [attempt_of_ok hr]; rfl
  | error e w' =>
    cases e with
    | fault f => rw [attempt_of_fault hr]; rfl
    | _ => rw [attempt_of_breaks hr rfl]; rfl

end Attempt

section Ensuring

variable {K α : Type} [Schema K] {body : Run K α} {after : Run K Unit} {w w' : World K}

/-- What has to be done in any case is done, and the outcome is that of the body. -/
theorem ensuring_of_ok (h : after (left (body w)) = .ok () w') :
    ensuring body after w = ending w' (body w) := by
  rw [ensuring]
  cases hr : body w <;> rw [hr, left] at h <;> simp only [h, ending]

theorem left_ensuring (body : Run K α) (after : Run K Unit) (w : World K) :
    left (ensuring body after w) = left (after (left (body w))) := by
  rw [ensuring]
  cases body w <;> simp only [left] <;> cases after _ <;> rfl

theorem broke_ensuring (h : broke (after (left (body w))) = false) :
    broke (ensuring body after w) = broke (body w) := by
  rw [ensuring]
  cases hr : body w <;> rw [hr, left] at h <;> simp only
  · cases ha : after _ <;> rw [ha] at h <;> first | rfl | exact h
  · cases after _ <;> rfl

end Ensuring

variable {K α β : Type} [Schema K] [DecidableEq K] {w w' : World K}
variable {T : Roster K → Entity → Prop} {I : Bool → World K → World K → Prop}

/-- A relation between the world before and after an operation, told whether the operation broke,
that puts up with all that does not concern entities and with new records of entities of which `T`
holds. -/
structure Mild (T : Roster K → Entity → Prop) (I : Bool → World K → World K → Prop) : Prop where
  weaken : ∀ {w w'}, I false w w' → I true w w'
  trans : ∀ {b b' u v w}, I b u v → I b' v w → I (b || b') u w
  beside : ∀ {w w'}, World.Beside (T w.roster) w w' → I false w w'

namespace Mild

theorem any (h : Mild T I) (b : Bool) (hw : I false w w') : I b w w' := by
  cases b with
  | false => exact hw
  | true => exact h.weaken hw

theorem refl (h : Mild T I) (b : Bool) (w : World K) : I b w w := h.any b (h.beside (.refl w))

theorem follow (h : Mild T I) {b : Bool} {u v w : World K} (huv : I false u v) (hvw : I b v w) :
    I b u w := h.trans huv hvw

/-- Nothing that concerns entities needs to be kept track of. -/
theorem top : Mild T (fun _ (_ _ : World K) => True) :=
  ⟨fun _ => trivial, fun _ _ => trivial, fun _ => trivial⟩

/-- It can be kept track of just what is put up with. -/
theorem beside_self {S : Entity → Prop} :
    Mild (fun _ => S) fun _ (w w' : World K) => World.Beside S w w' :=
  ⟨id, .trans, id⟩

/-- The roster besides can be kept track of. -/
theorem and_roster (h : Mild T I) :
    Mild T fun b w w' => I b w w' ∧ (b = false → w'.roster = w.roster) := by
  refine ⟨fun hw => ⟨h.weaken hw.1, fun hb => by cases hb⟩, fun {b b' u v w} huv hvw =>
    ⟨h.trans huv.1 hvw.1, fun hb => ?_⟩, fun hw => ⟨h.beside hw, fun _ => hw.roster_eq⟩⟩
  obtain ⟨hb, hb'⟩ := Bool.or_eq_false_iff.mp hb
  exact (hvw.2 hb').trans (huv.2 hb)

end Mild

/-- The outcome is a fit world, with all locks as they were, that is related to the one before. -/
structure Passes (I : Bool → World K → World K → Prop) (w : World K)
    (r : EStateM.Result Failure (World K) α) : Prop where
  fit : (left r).Fit
  locks : w.bank.Extends (left r).bank
  keeps : I (broke r) w (left r)

def Keeps (I : Bool → World K → World K → Prop) (op : Run K α) : Prop :=
  ∀ w : World K, w.Fit → Passes I w (op w)

namespace Passes

/-- The outcome is the same world. -/
theorem stay (hI : Mild T I) (hw : w.Fit) {r : EStateM.Result Failure (World K) α}
    (hr : left r = w) : Passes I w r :=
  ⟨hr ▸ hw, .of_eq (hr ▸ rfl), hr ▸ hI.refl _ _⟩

/-- The outcome is a world that does not differ in what operations rely on. -/
theorem aloof (hI : Mild T I) (hw : w.Fit) {r : EStateM.Result Failure (World K) α}
    (hr : World.Aloof w (left r)) : Passes I w r :=
  ⟨hr.fit hw, .of_eq hr.bank_eq, hI.any _ (hI.beside hr.beside)⟩

theorem mono {I' : Bool → World K → World K → Prop} {r : EStateM.Result Failure (World K) α}
    (h : Passes I w r) (hII : ∀ b w w', I b w w' → I' b w w') : Passes I' w r :=
  ⟨h.fit, h.locks, hII _ _ _ h.keeps⟩

/-- What comes after the part that passed. -/
theorem after (hI : Mild T I) {u v : World K} (hlocks : u.bank.Extends v.bank) (huv : I false u v)
    {r : EStateM.Result Failure (World K) α} (h : Passes I v r) : Passes I u r :=
  ⟨h.fit, hlocks.trans h.locks, hI.follow huv h.keeps⟩

theorem bind (hI : Mild T I) {op : Run K α} {f : α → Run K β} (h : Passes I w (op w))
    (hf : ∀ a w', op w = .ok a w' → w'.Fit → Passes I w' (f a w')) :
    Passes I w ((op >>= f) w) := by
  cases hr : op w with
  | ok a w' =>
    rw [hr] at h
    rw [bind_of_ok hr]
    exact (hf a w' hr h.fit).after hI h.locks h.keeps
  | error e w' =>
    rw [hr] at h
    rw [bind_of_error hr]
    exact ⟨h.fit, h.locks, h.keeps⟩

/-- What holds where a success has led. -/
theorem of_ok {r : EStateM.Result Failure (World K) α} (h : Passes I w r) {a : α}
    (hr : r = .ok a w') : w'.Fit ∧ I false w w' := by
  subst hr
  exact ⟨h.fit, h.keeps⟩

/-- What holds where a failure has led. -/
theorem of_error {r : EStateM.Result Failure (World K) α} (h : Passes I w r) {e : Failure}
    (hr : r = .error e w') : I e.breaks w w' := by
  subst hr
  exact h.keeps

theorem attempt {body : Run K α} (h : Passes I w (body w)) :
    Passes I w (attempt body w) := by
  refine ⟨?_, ?_, ?_⟩
  · rw [left_attempt]
    exact h.fit
  · rw [left_attempt]
    exact h.locks
  · rw [left_attempt, broke_attempt]
    exact h.keeps

/-- What has to be done in any case does not break. -/
theorem ensuring (hI : Mild T I) {body : Run K α} {after : Run K Unit} (h : Passes I w (body w))
    (ha : ∀ w', left (body w) = w' → w'.Fit →
      Passes I w' (after w') ∧ broke (after w') = false) :
    Passes I w (ensuring body after w) := by
  obtain ⟨hafter, hbroke⟩ := ha _ rfl h.fit
  have hkeeps := hI.trans h.keeps hafter.keeps
  rw [hbroke, Bool.or_false] at hkeeps
  refine ⟨?_, ?_, ?_⟩
  · rw [left_ensuring]
    exact hafter.fit
  · rw [left_ensuring]
    exact h.locks.trans hafter.locks
  · rw [left_ensuring, broke_ensuring hbroke]
    exact hkeeps

end Passes

section Keeps

theorem keeps_pure (hI : Mild T I) (a : α) : Keeps I (pure a : Run K α) :=
  fun _ hw => .stay hI hw rfl

theorem keeps_throw (hI : Mild T I) (e : Failure) : Keeps I (throw e : Run K α) :=
  fun _ hw => .stay hI hw rfl

theorem keeps_fail (hI : Mild T I) (f : Fault) : Keeps I (fail f : Run K α) := keeps_throw hI _

theorem Keeps.mono {I' : Bool → World K → World K → Prop} {op : Run K α} (h : Keeps I op)
    (hII : ∀ b w w', I b w w' → I' b w w') : Keeps I' op := fun w hw => (h w hw).mono hII

theorem Keeps.bind (hI : Mild T I) {op : Run K α} {f : α → Run K β} (h : Keeps I op)
    (hf : ∀ a, Keeps I (f a)) : Keeps I (op >>= f) :=
  fun w hw => (h w hw).bind hI fun a w' _ hw' => hf a w' hw'

/-- What is done knowing the world. -/
theorem keeps_get_bind {f : World K → Run K α} (hf : ∀ w : World K, w.Fit → Passes I w (f w w)) :
    Keeps I (get >>= f) := hf

theorem Keeps.attempt {body : Run K α} (h : Keeps I body) : Keeps I (attempt body) :=
  fun w hw => (h w hw).attempt

theorem keeps_modify (hI : Mild T I) {f : World K → World K} (hf : ∀ w, World.Aloof w (f w)) :
    Keeps I (modify f : Run K Unit) := fun w hw => .aloof hI hw (hf w)

theorem keeps_emit (hI : Mild T I) {e : Event K} (he : e.isPlain = true) : Keeps I (emit e) :=
  keeps_modify hI fun _ => ⟨rfl, rfl, rfl, rfl, .of_push rfl he⟩

theorem keeps_note (hI : Mild T I) {n : Notice} (hn : (Event.notice n : Event K).isPlain = true) :
    Keeps I (note n : Run K Unit) := keeps_emit hI hn

theorem keeps_noteAll (hI : Mild T I) {ns : List Notice} (hn : ∀ n ∈ ns, n.isLocal = true) :
    Keeps I (noteAll ns : Run K Unit) :=
  keeps_modify hI fun _ => ⟨rfl, rfl, rfl, rfl, .of_local rfl hn⟩

theorem keeps_orFail (hI : Mild T I) (r : Except Fault α) : Keeps I (orFail r : Run K α) := by
  cases r with
  | ok a => exact keeps_pure hI a
  | error f => exact keeps_fail hI f

theorem keeps_orThrow (hI : Mild T I) (r : Except Failure α) :
    Keeps I (orThrow r : Run K α) := by
  cases r with
  | ok a => exact keeps_pure hI a
  | error e => exact keeps_throw hI e

theorem keeps_forM (hI : Mild T I) {xs : List β} {f : β → Run K Unit} (hf : ∀ x, Keeps I (f x)) :
    Keeps I (xs.forM f) := by
  induction xs with
  | nil => exact keeps_pure hI ()
  | cons x xs ih => exact (hf x).bind hI fun _ => ih

end Keeps

end Run

end EntityStore
