import EntityStore.Proofs.Catalog.Entries

/-!
# Creations that use their catalog

The value of a key is created on first use, and its creation may itself enter values and ask for
others, under the same key or another, to any depth. Each time a value comes to be entered it is
offered to the catalog: it stays if it is the first under its key and is dropped otherwise. So the
catalog is told by what it was before and by the offers in their order, whichever call made them.
-/
namespace EntityStore.Catalog

variable {σ ε α K : Type} {V : K → Type} [DecidableEq K]

def left : EStateM.Result ε σ α → σ
  | .ok _ s => s
  | .error _ s => s

section Offers

variable {c : Catalog K V} {k : K} {v : V k} {offers : List ((k : K) × V k)}

def takeIn (c : Catalog K V) (offer : (k : K) × V k) : Catalog K V :=
  (c.findOrInsert offer.1 offer.2).2

def takeAll (c : Catalog K V) (offers : List ((k : K) × V k)) : Catalog K V := offers.foldl takeIn c

theorem takeAll_append (c : Catalog K V) (offers offers' : List ((k : K) × V k)) :
    c.takeAll (offers ++ offers') = (c.takeAll offers).takeAll offers' := List.foldl_append

theorem takeIn_of_mem (h : k ∈ c.keys) (v : V k) : c.takeIn ⟨k, v⟩ = c := by
  obtain ⟨found, hfound⟩ := exists_find?_of_mem h
  simp only [takeIn, findOrInsert, hfound]

theorem takeIn_of_not_mem (h : k ∉ c.keys) (v : V k) : c.takeIn ⟨k, v⟩ = c.push k v := by
  simp only [takeIn, findOrInsert, find?_eq_none_iff.mpr h]

theorem prefix_takeIn (c : Catalog K V) (offer : (k : K) × V k) :
    c.entries <+: (c.takeIn offer).entries := by
  by_cases h : offer.1 ∈ c.keys
  · have hsame : c.takeIn offer = c := takeIn_of_mem h offer.2
    exact hsame.symm ▸ List.prefix_rfl
  · rw [takeIn_of_not_mem h]
    exact List.prefix_append ..

/-- Entries keep their key, their value and their place. -/
theorem prefix_takeAll (c : Catalog K V) (offers : List ((k : K) × V k)) :
    c.entries <+: (c.takeAll offers).entries := by
  induction offers generalizing c with
  | nil => exact List.prefix_rfl
  | cons offer offers ih => exact (prefix_takeIn c offer).trans (ih _)

/-- Keys stand in the order in which they were first offered. -/
theorem keys_takeAll (c : Catalog K V) (offers : List ((k : K) × V k)) : (c.takeAll offers).keys =
    c.keys ++ ((offers.map (·.1)).removeAll c.keys).eraseDups := by
  induction offers generalizing c with
  | nil => simp [takeAll, List.removeAll]
  | cons offer offers ih =>
    have hstep : c.takeAll (offer :: offers) = (c.takeIn offer).takeAll offers := rfl
    rw [hstep, ih, List.map_cons, List.cons_removeAll]
    by_cases h : offer.1 ∈ c.keys
    · rw [takeIn_of_mem h, if_neg (by simpa using h)]
    · have hothers : (offers.map (·.1)).removeAll (c.keys ++ [offer.1]) =
          ((offers.map (·.1)).removeAll c.keys).filter fun k => !k == offer.1 := by
        simp only [List.removeAll, List.filter_filter, List.elem_eq_contains, List.contains_append]
        refine List.filter_congr fun k _ => ?_
        simp [Bool.and_comm, Bool.beq_eq_decide_eq]
      rw [takeIn_of_not_mem h, keys_push, hothers, if_pos (by simpa using h), List.eraseDups_cons,
        List.append_assoc]
      rfl

theorem find?_takeIn (c : Catalog K V) (offer : (k : K) × V k) (k : K) :
    (c.takeIn offer).find? k = (c.find? k).or (lookup k [offer]) := by
  by_cases h : offer.1 ∈ c.keys
  · rw [takeIn_of_mem h]
    by_cases hk : offer.1 = k
    · obtain ⟨v, hv⟩ := exists_find?_of_mem (hk ▸ h)
      rw [hv, Option.some_or]
    · have hnone : lookup k [offer] = none := by simp [lookup, hk]
      rw [hnone, Option.or_none]
  · rw [takeIn_of_not_mem h]
    exact lookup_append c.entries [offer]

/-- Under every key stands the first value that was offered for it. -/
theorem find?_takeAll (c : Catalog K V) (offers : List ((k : K) × V k)) (k : K) :
    (c.takeAll offers).find? k = (c.find? k).or (lookup k offers) := by
  induction offers generalizing c with
  | nil => rw [lookup, Option.or_none]; rfl
  | cons offer offers ih =>
    have hstep : c.takeAll (offer :: offers) = (c.takeIn offer).takeAll offers := rfl
    rw [hstep, ih, find?_takeIn, Option.or_assoc, ← lookup_append]
    rfl

theorem mem_keys_takeAll (offers : List ((k : K) × V k)) :
    k ∈ (c.takeAll offers).keys ↔ k ∈ c.keys ∨ k ∈ offers.map (·.1) := by
  rw [keys_takeAll, List.mem_append, List.mem_eraseDups, List.removeAll, List.mem_filter]
  by_cases h : k ∈ c.keys <;> simp [h]

theorem findOrInsert_fst (c : Catalog K V) (k : K) (v : V k) :
    (c.findOrInsert k v).1 = (c.find? k).getD v := by
  unfold findOrInsert
  cases c.find? k <;> rfl

/-- What is given is what is found from then on. -/
theorem find?_findOrInsert (c : Catalog K V) (k : K) (v : V k) :
    (c.findOrInsert k v).2.find? k = some (c.findOrInsert k v).1 := by
  unfold findOrInsert
  cases h : c.find? k with
  | some found => exact h
  | none => exact find?_push_self h

theorem find?_takeAll_of_find? (h : c.find? k = some v) (offers : List ((k : K) × V k)) :
    (c.takeAll offers).find? k = some v := by
  rw [find?_takeAll, h, Option.some_or]

end Offers

/-- What is written through the view is what is read through it. -/
def View.Lawful (view : View σ K V) : Prop := ∀ c s, view.read (view.write c s) = c

def enter (view : View σ K V) (k : K) (v : V k) : EStateM ε σ Bool := fun s =>
  match (view.read s).insertNew? k v with
  | some c => .ok true (view.write c s)
  | none => .ok false s

/-- The creation of the value of a key, as a tree: each node is one use of the catalog, or of what
else there is, and its branches are how the creation goes on after each answer. -/
inductive Creation (view : View σ K V) (ε : Type) : K → Type
  | give {k : K} (v : V k) : Creation view ε k
  | fail {k : K} (e : ε) : Creation view ε k
  /-- Looks at the catalog and at all else. -/
  | look {k : K} (next : σ → Creation view ε k) : Creation view ε k
  /-- Changes what else there is. -/
  | alter {k : K} (f : σ → σ) (h : ∀ s, view.read (f s) = view.read s)
    (next : Creation view ε k) : Creation view ε k
  /-- Enters a value, and goes on knowing whether its key was new. -/
  | enter {k : K} (j : K) (v : V j) (next : Bool → Creation view ε k) : Creation view ε k
  /-- Asks for the value of a key, and goes on with it or with the fault of its creation. -/
  | ask {k : K} (j : K) (create : Creation view ε j)
    (next : Except ε (V j) → Creation view ε k) : Creation view ε k

def attempt (op : EStateM ε σ α) : EStateM ε σ (Except ε α) := fun s =>
  match op s with
  | .ok a s => .ok (.ok a) s
  | .error e s => .ok (.error e) s

namespace Creation

variable {view : View σ K V} {k : K}

def run : {k : K} → Creation view ε k → EStateM ε σ (V k)
  | _, give v => pure v
  | _, fail e => throw e
  | _, look next => do (next (← get)).run
  | _, alter f _ next => do
    modify f
    next.run
  | _, enter j v next => do (next (← Catalog.enter view j v)).run
  | _, ask j create next => do (next (← attempt (getOrCreate view j create.run))).run

end Creation

/-- The values offered when the value of a key is asked for: those of its creation, if it comes to
that, and then its own. -/
def offersOf (view : View σ K V) (k : K) (create : EStateM ε σ (V k))
    (offers : σ → List ((k : K) × V k)) (s : σ) : List ((k : K) × V k) :=
  if (view.read s).contains k then [] else
    offers s ++ match create s with
      | .ok v _ => [⟨k, v⟩]
      | .error _ _ => []

namespace Creation

variable {view : View σ K V} {k : K}

/-- The values that a creation offers in a state, the first one first. -/
def offers : {k : K} → Creation view ε k → σ → List ((k : K) × V k)
  | _, give _, _ => []
  | _, fail _, _ => []
  | _, look next, s => (next s).offers s
  | _, alter f _ next, s => next.offers (f s)
  | _, enter j v next, s =>
    ⟨j, v⟩ :: match Catalog.enter (ε := ε) view j v s with
      | .ok b s => (next b).offers s
      | .error _ _ => []
  | _, ask j create next, s =>
    offersOf view j create.run create.offers s ++
      match attempt (getOrCreate view j create.run) s with
      | .ok a s => (next a).offers s
      | .error _ _ => []

end Creation

/-! What a call can come to. -/

section Calls

variable {view : View σ K V} {k : K} {v : V k} {s s' : σ} {create : EStateM ε σ (V k)}

theorem enter_of_mem (h : k ∈ (view.read s).keys) :
    (enter view k v : EStateM ε σ Bool) s = .ok false s := by
  simp only [enter, insertNew?_eq_none_iff.mpr h]

theorem enter_of_not_mem (h : k ∉ (view.read s).keys) :
    (enter view k v : EStateM ε σ Bool) s = .ok true (view.write ((view.read s).push k v) s) := by
  simp [enter, insertNew?, contains, find?_eq_none_iff.mpr h]

theorem get_bind {β : Type} (f : σ → EStateM ε σ β) : (get >>= f) s = f s s := rfl

theorem getOrCreate_of_find? (h : (view.read s).find? k = some v) :
    getOrCreate view k create s = .ok v s := by
  simp only [getOrCreate, get_bind, h]
  rfl

theorem getOrCreate_of_error (h : (view.read s).find? k = none) {e : ε}
    (hc : create s = .error e s') : getOrCreate view k create s = .error e s' := by
  simp only [getOrCreate, get_bind, h]
  show EStateM.bind _ _ s = _
  rw [EStateM.bind, hc]

theorem getOrCreate_of_ok (h : (view.read s).find? k = none) (hc : create s = .ok v s') :
    getOrCreate view k create s = .ok ((view.read s').findOrInsert k v).1
      (view.write ((view.read s').findOrInsert k v).2 s') := by
  simp only [getOrCreate, get_bind, h]
  show EStateM.bind _ _ s = _
  rw [EStateM.bind, hc]
  rfl

/-- If the creation does to the catalog what its offers do, so does the call that needed it. -/
theorem read_left_getOrCreate (hv : view.Lawful) {offers : σ → List ((k : K) × V k)}
    (hc : view.read (left (create s)) = (view.read s).takeAll (offers s)) :
    view.read (left (getOrCreate view k create s)) =
      (view.read s).takeAll (offersOf view k create offers s) := by
  unfold offersOf contains
  cases hf : (view.read s).find? k with
  | some v => rw [getOrCreate_of_find? hf]; rfl
  | none =>
    rw [if_neg (by simp)]
    cases hr : create s with
    | error e s' =>
      rw [hr] at hc
      rw [getOrCreate_of_error hf hr, List.append_nil, ← hc]
    | ok v s' =>
      rw [hr] at hc
      rw [getOrCreate_of_ok hf hr, takeAll_append, ← hc]
      exact hv ..

theorem left_attempt (op : EStateM ε σ α) (s : σ) :
    ∃ a, attempt op s = .ok a (left (op s)) := by
  unfold attempt
  cases op s with
  | ok a s' => exact ⟨.ok a, rfl⟩
  | error e s' => exact ⟨.error e, rfl⟩

end Calls

namespace Creation

variable {view : View σ K V} {k : K}

/-- Whatever a creation does and however it ends, it does to the catalog what its offers do. -/
theorem read_left_run (hv : view.Lawful) (create : Creation view ε k) (s : σ) :
    view.read (left (create.run s)) = (view.read s).takeAll (create.offers s) := by
  induction create generalizing s with
  | give v | fail e => rfl
  | look next ih => exact ih s s
  | alter f h next ih =>
    have hstep := ih (f s)
    rw [h] at hstep
    exact hstep
  | enter j v next ih =>
    by_cases hj : j ∈ (view.read s).keys
    · have henter := enter_of_mem (ε := ε) (v := v) hj
      have hrun : (enter j v next).run s = (next false).run s := by
        show EStateM.bind _ _ s = _
        rw [EStateM.bind, henter]
      rw [hrun, ih, offers, henter, takeAll, takeAll, List.foldl_cons, takeIn_of_mem hj]
    · have henter := enter_of_not_mem (ε := ε) (v := v) hj
      have hrun : (enter j v next).run s =
          (next true).run (view.write ((view.read s).push j v) s) := by
        show EStateM.bind _ _ s = _
        rw [EStateM.bind, henter]
      rw [hrun, ih, offers, henter, takeAll, takeAll, List.foldl_cons, takeIn_of_not_mem hj, hv]
  | ask j create next ihc ih =>
    obtain ⟨a, ha⟩ := left_attempt (getOrCreate view j create.run) s
    have hrun : (ask j create next).run s =
        (next a).run (left (getOrCreate view j create.run s)) := by
      show EStateM.bind _ _ s = _
      rw [EStateM.bind, ha]
    rw [hrun, ih, offers, ha, read_left_getOrCreate hv (ihc s), takeAll_append]

end Creation

/-- How the value of a key comes to be in a catalog whose creations use it themselves. -/
structure Honours (view : View σ K V) (k : K) (create : Creation view ε k) (s : σ) : Prop where
  /-- Entries that are there keep key, value and place. -/
  kept : (view.read s).entries <+:
    (view.read (left (getOrCreate view k create.run s))).entries
  /-- The new keys stand behind them in the order in which they were first offered. -/
  keys_eq : (view.read (left (getOrCreate view k create.run s))).keys = (view.read s).keys ++
    (((offersOf view k create.run create.offers s).map (·.1)).removeAll
      (view.read s).keys).eraseDups
  /-- Under every key stands the value that was there, or else the first that was offered. -/
  find?_eq : ∀ j, (view.read (left (getOrCreate view k create.run s))).find? j =
    ((view.read s).find? j).or (lookup j (offersOf view k create.run create.offers s))
  /-- A value that is there is given without being created. -/
  found : ∀ v, (view.read s).find? k = some v → getOrCreate view k create.run s = .ok v s
  /-- The first value offered meanwhile is given, even if the creation comes to another one. -/
  created : ∀ v s', (view.read s).find? k = none → create.run s = .ok v s' →
    ∃ s', getOrCreate view k create.run s = .ok ((lookup k (create.offers s)).getD v) s'
  /-- The value that is given is the one that is stored, then and after whatever comes next. -/
  given : ∀ v s', getOrCreate view k create.run s = .ok v s' →
    (view.read s').find? k = some v ∧ ∀ (j : K) (later : Creation view ε j),
      (view.read (left (later.run s'))).find? k = some v
  /-- Nothing fails but a creation that was needed. -/
  failed : ∀ e s', getOrCreate view k create.run s = .error e s' ↔
    (view.read s).find? k = none ∧ create.run s = .error e s'
  /-- After a failure the key is there only if the creation has entered it meanwhile. -/
  unfinished : ∀ e s', getOrCreate view k create.run s = .error e s' →
    (k ∈ (view.read s').keys ↔ k ∈ (create.offers s).map (·.1))
  /-- A value is entered exactly if its key is not there. -/
  entered : ∀ j v, (enter view j v : EStateM ε σ Bool) s =
    if j ∈ (view.read s).keys then .ok false s
    else .ok true (view.write ((view.read s).push j v) s)

section

variable {view : View σ K V} {k : K} {create : Creation view ε k} {s s' : σ} {v : V k}

/-- The value that is given is found. -/
theorem find?_of_getOrCreate_ok (hv : view.Lawful)
    (h : getOrCreate view k create.run s = .ok v s') : (view.read s').find? k = some v := by
  cases hf : (view.read s).find? k with
  | some found =>
    rw [getOrCreate_of_find? hf] at h
    cases h
    exact hf
  | none =>
    cases hr : create.run s with
    | error e s₁ => cases (getOrCreate_of_error hf hr).symm.trans h
    | ok created s₁ =>
      rw [getOrCreate_of_ok hf hr] at h
      cases h
      rw [hv]
      exact find?_findOrInsert ..

theorem getOrCreate_eq_error_iff {e : ε} : getOrCreate view k create.run s = .error e s' ↔
    (view.read s).find? k = none ∧ create.run s = .error e s' := by
  refine ⟨fun h => ?_, fun ⟨hf, hr⟩ => getOrCreate_of_error hf hr⟩
  cases hf : (view.read s).find? k with
  | some found => cases (getOrCreate_of_find? hf).symm.trans h
  | none =>
    cases hr : create.run s with
    | error e s₁ => exact ⟨rfl, (getOrCreate_of_error hf hr).symm.trans h⟩
    | ok created s₁ => cases (getOrCreate_of_ok hf hr).symm.trans h

end

/-- Whatever the creation of a value enters and asks for meanwhile, under its own key or others, entries
stay what and where they are, keys stand in the order in which they were first entered, and under each
key stands the value entered first, which is the one that is given from then on. -/
theorem first_entered_stays {view : View σ K V} (hv : view.Lawful) (k : K)
    (create : Creation view ε k) (s : σ) : Honours view k create s := by
  have hread := read_left_getOrCreate hv (create.read_left_run hv s)
  refine ⟨?_, ?_, fun j => ?_, fun v => getOrCreate_of_find?, fun v s' hf hr => ?_,
    fun v s' h => ⟨find?_of_getOrCreate_ok hv h, fun j later => ?_⟩,
    fun e s' => getOrCreate_eq_error_iff, fun e s' h => ?_, fun j v => ?_⟩
  · rw [hread]
    exact prefix_takeAll ..
  · rw [hread, keys_takeAll]
  · rw [hread, find?_takeAll]
  · have hcreated := create.read_left_run hv s
    rw [hr, left] at hcreated
    rw [getOrCreate_of_ok hf hr, findOrInsert_fst, hcreated, find?_takeAll, hf, Option.none_or]
    exact ⟨_, rfl⟩
  · rw [later.read_left_run hv]
    exact find?_takeAll_of_find? (find?_of_getOrCreate_ok hv h) _
  · obtain ⟨hf, hr⟩ := getOrCreate_eq_error_iff.mp h
    have hfailed := create.read_left_run hv s
    rw [hr, left] at hfailed
    rw [hfailed, mem_keys_takeAll]
    exact or_iff_right (find?_eq_none_iff.mp hf)
  · split
    · next hj => exact enter_of_mem hj
    · next hj => exact enter_of_not_mem hj

/-- The creation asks for another key, whose creation enters the first one and fails. What it comes to
itself is too late. -/
theorem first_entered_stays_nested :
    let view : View (Catalog Nat fun _ => String) Nat fun _ => String := .self
    let create : Creation view Unit 0 :=
      .ask 1 (.enter 0 "early" fun _ => .fail ()) fun _ => .enter 0 "again" fun isNew =>
        .enter 2 (toString isNew) fun _ => .give "late"
    view.Lawful ∧ getOrCreate view 0 create.run ⟨[]⟩ = .ok "early" ⟨[⟨0, "early"⟩, ⟨2, "false"⟩]⟩ ∧
      Honours view 0 create ⟨[]⟩ :=
  ⟨fun _ _ => rfl, rfl, first_entered_stays (fun _ _ => rfl) 0 _ _⟩

end EntityStore.Catalog
