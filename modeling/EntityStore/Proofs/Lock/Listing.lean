import EntityStore.Proofs.Lock.Change
import Mathlib.Algebra.Order.BigOperators.Group.List
import Mathlib.Algebra.Order.Group.Nat
import Mathlib.Data.List.SplitBy

/-!
# The members of a new group

A group is founded on a list of locks to be controlled or left alone, in any order and with any
repetition. Sorting the list, putting the items of each lock together and joining them gives the
same members as enlisting one item after the other: one for each lock named, in ascending order, so
that halving finds a lock among them whenever it was named.
-/
namespace EntityStore.LockGroup

variable {name : Nat → String} {items items' : List (Nat × Bool)} {g g' : List (Nat × Bool)}
  {i j : Nat × Bool}

def named (name : Nat → String) (items : List (Nat × Bool)) : List (Nat × String × Bool) :=
  items.map fun i => (i.1, name i.1, i.2)

theorem exists_mem_named {l : Nat} :
    (∃ i ∈ named name items, i.1 = l) ↔ l ∈ items.map (·.1) := by
  rw [← List.mem_map, named, List.map_map]
  rfl

theorem forall_mem_named {l : Nat} :
    (∀ i ∈ named name items, i.1 = l → i.2.2 = true) ↔ (l, false) ∉ items := by
  simp only [named, List.forall_mem_map]
  constructor
  · intro h hl
    cases h _ hl rfl
  · rintro h ⟨_, c⟩ hi rfl
    by_contra hc
    exact h (Bool.eq_false_iff.mpr hc ▸ hi)

theorem lt_of_mem_named {n : Nat} (h : ∀ i ∈ items, i.1 < n) : ∀ i ∈ named name items, i.1 < n := by
  simpa only [named, List.forall_mem_map] using h

/-- The members tell of the items: there is one for each lock, controlled unless the lock was ever
to be left alone. -/
structure Lists (name : Nat → String) (items : List (Nat × Bool)) (ms : List Member) : Prop where
  ascending : ms.Pairwise (·.lock < ·.lock)
  mem_iff : ∀ l, l ∈ ms.map (·.lock) ↔ l ∈ items.map (·.1)
  name_eq : ∀ m ∈ ms, m.name = name m.lock
  controlled_iff : ∀ m ∈ ms, m.controlled = true ↔ (m.lock, false) ∉ items

namespace Lists

variable {ms ms' : List Member}

/-- Neither the order of the items nor how often they are named matters. -/
theorem of_mem_iff (h : Lists name items ms) (hitems : ∀ i, i ∈ items' ↔ i ∈ items) :
    Lists name items' ms where
  ascending := h.ascending
  mem_iff l := by
    rw [h.mem_iff]
    simp [hitems]
  name_eq := h.name_eq
  controlled_iff m hm := by rw [h.controlled_iff m hm, hitems]

theorem nodup (h : Lists name items ms) : (ms.map (·.lock)).Nodup :=
  (List.pairwise_map.mpr h.ascending).imp Nat.ne_of_lt

theorem subset (h : Lists name items ms) (h' : Lists name items ms')
    (hms : ∀ m ∈ ms, m.held = false) (hms' : ∀ m ∈ ms', m.held = false) : ms ⊆ ms' := by
  intro m hm
  have hlock := (h'.mem_iff m.lock).mpr ((h.mem_iff m.lock).mp (List.mem_map_of_mem hm))
  obtain ⟨m', hm', hl⟩ := List.mem_map.mp hlock
  have hname : m'.name = m.name := by
    rw [h'.name_eq m' hm', hl, ← h.name_eq m hm]
  have hcontrolled : m'.controlled = m.controlled := by
    rw [Bool.eq_iff_iff, h.controlled_iff m hm, h'.controlled_iff m' hm', hl]
  have hheld : m'.held = m.held := (hms' m' hm').trans (hms m hm).symm
  have heq : m' = m := by
    cases m
    cases m'
    simp_all
  exact heq ▸ hm'

/-- The items determine the members as long as none is held. -/
theorem unique (h : Lists name items ms) (h' : Lists name items ms')
    (hms : ∀ m ∈ ms, m.held = false) (hms' : ∀ m ∈ ms', m.held = false) : ms = ms' := by
  have hperm : ms.Perm ms' := by
    rw [List.perm_ext_iff_of_nodup h.nodup.of_map h'.nodup.of_map]
    exact fun m => ⟨fun hm => h.subset h' hms hms' hm, fun hm => h'.subset h hms' hms hm⟩
  apply hperm.eq_of_pairwise _ h.ascending h'.ascending
  intro a b _ _ hab hba
  exact absurd hab (Nat.lt_asymm hba)

/-- No call on the group changes what it lists. -/
theorem result {g : LockGroup} (h : Lists name items g.members) (c : Change) :
    Lists name items (c.result g).members where
  ascending := List.pairwise_map.mpr h.ascending
  mem_iff l := by
    rw [← h.mem_iff, Change.result, List.map_map]
    rfl
  name_eq := by simpa [Change.result] using h.name_eq
  controlled_iff := by simpa [Change.result] using h.controlled_iff

theorem results {g : LockGroup} (h : Lists name items g.members) (cs : List Change) :
    Lists name items (cs.foldl (fun g c => c.result g) g).members := by
  induction cs generalizing g with
  | nil => exact h
  | cons c cs ih => exact ih (h.result c)

end Lists

/-- A member that nothing has been entered for. -/
structure Fresh (name : Nat → String) (m : Member) : Prop where
  name_eq : m.name = name m.lock
  held_eq : m.held = false

theorem fresh_of_mem_enlist {l : Nat} {c : Bool} {ms : List Member} (h : ∀ m ∈ ms, Fresh name m) :
    ∀ m ∈ enlist l (name l) c ms, Fresh name m := by
  induction ms with
  | nil => exact List.forall_mem_singleton.mpr ⟨rfl, rfl⟩
  | cons m ms ih =>
    obtain ⟨hm, hms⟩ := List.forall_mem_cons.mp h
    simp only [enlist]
    split
    · exact List.forall_mem_cons.mpr ⟨⟨rfl, rfl⟩, h⟩
    · split
      · exact List.forall_mem_cons.mpr ⟨⟨hm.name_eq, hm.held_eq⟩, hms⟩
      · exact List.forall_mem_cons.mpr ⟨hm, ih hms⟩

theorem fresh_of_mem_ofList (items : List (Nat × Bool)) :
    ∀ m ∈ (ofList (named name items)).members, Fresh name m := by
  induction items with
  | nil => exact List.forall_mem_nil _
  | cons i items ih => exact fresh_of_mem_enlist ih

/-- Every list names locks of some bank. -/
theorem exists_lt (items : List (Nat × Bool)) : ∃ n, ∀ i ∈ items, i.1 < n := by
  refine ⟨(items.map (·.1)).sum + 1, fun i hi => ?_⟩
  exact Nat.lt_succ_of_le (List.le_sum_of_mem (List.mem_map_of_mem hi))

/-- Enlisting the items one after the other makes the members that tell of them. -/
theorem lists_ofList (name : Nat → String) (items : List (Nat × Bool)) :
    Lists name items (ofList (named name items)).members := by
  obtain ⟨n, hlt⟩ := exists_lt items
  have hnamed : ∀ i ∈ named name items, i.1 < n := lt_of_mem_named hlt
  have hformed := (formed_ofList (fun _ => 0) hnamed).1
  constructor
  case ascending => exact hformed.ascending
  case mem_iff =>
    intro l
    have hl := isSome_find?_ofList hnamed l
    rw [exists_mem_named] at hl
    rw [← hl, find?, List.find?_isSome]
    simp
  case name_eq => exact fun m hm => (fresh_of_mem_ofList items m hm).name_eq
  case controlled_iff =>
    intro m hm
    rw [controlled_of_find?_ofList hnamed (hformed.find?_eq hm), forall_mem_named]

/-- The group controls the locks that were added and never to be left alone. -/
theorem controls_named (l : Nat) :
    (ofList (named name items)).controls l = true ↔ (l, true) ∈ items ∧ (l, false) ∉ items := by
  obtain ⟨n, hlt⟩ := exists_lt items
  rw [controls_ofList (lt_of_mem_named hlt), exists_mem_named, forall_mem_named, List.mem_map]
  apply and_congr_left
  intro hno
  constructor
  · rintro ⟨⟨_, c⟩, hi, rfl⟩
    cases c with
    | false => exact absurd hi hno
    | true => exact hi
  · exact fun hi => ⟨_, hi, rfl⟩

section Runs

/-- The items in the order of their locks, those of each lock together. -/
def runs (items : List (Nat × Bool)) : List (List (Nat × Bool)) :=
  (items.mergeSort fun i j => i.1 ≤ j.1).splitBy fun i j => i.1 == j.1

theorem mem_runs : (∃ g ∈ runs items, i ∈ g) ↔ i ∈ items := by
  rw [← List.mem_flatten, runs, List.flatten_splitBy, List.mem_mergeSort]

theorem ne_nil_of_mem_runs (hg : g ∈ runs items) : g ≠ [] := List.ne_nil_of_mem_splitBy hg

/-- The items of a run are all of one lock. -/
theorem lock_eq_of_mem_run (hg : g ∈ runs items) (hi : i ∈ g) (hj : j ∈ g) : i.1 = j.1 := by
  have hchain : (g.map (·.1)).IsChain (· = ·) := by
    rw [List.isChain_map]
    exact (List.isChain_of_mem_splitBy hg).imp fun i j h => by simpa using h
  exact hchain.pairwise.forall_of_forall (fun _ _ => rfl) (List.mem_map_of_mem hi)
    (List.mem_map_of_mem hj)

theorem pairwise_flatten_runs (items : List (Nat × Bool)) :
    (runs items).flatten.Pairwise fun i j => i.1 ≤ j.1 := by
  have htrans : ∀ i j k : Nat × Bool, decide (i.1 ≤ j.1) = true → decide (j.1 ≤ k.1) = true →
      decide (i.1 ≤ k.1) = true := by
    simp only [decide_eq_true_eq]
    omega
  have htotal : ∀ i j : Nat × Bool, (decide (i.1 ≤ j.1) || decide (j.1 ≤ i.1)) = true := by
    simp only [Bool.or_eq_true, decide_eq_true_eq]
    omega
  rw [runs, List.flatten_splitBy]
  simpa only [decide_eq_true_eq] using List.pairwise_mergeSort htrans htotal items

/-- All that is in a run comes before all that is in a later one. -/
theorem pairwise_runs (items : List (Nat × Bool)) :
    (runs items).Pairwise fun g g' => ∀ i ∈ g, ∀ j ∈ g', i.1 < j.1 := by
  have hle := (List.pairwise_flatten.mp (pairwise_flatten_runs items)).2
  have hends := List.isChain_getLast_head_splitBy (fun i j : Nat × Bool => i.1 == j.1)
    (items.mergeSort fun i j => i.1 ≤ j.1)
  -- that no run is empty makes the relation transitive
  have hchain : (runs items).IsChain fun g g' => g' ≠ [] ∧ ∀ i ∈ g, ∀ j ∈ g', i.1 < j.1 := by
    rw [List.isChain_iff_getElem]
    intro k hk
    obtain ⟨hlast, hhead, hne⟩ := List.isChain_iff_getElem.mp hends k hk
    refine ⟨hhead, fun i hi j hj => ?_⟩
    apply Nat.lt_of_le_of_ne
    · exact List.pairwise_iff_getElem.mp hle k (k + 1) (by omega) hk (by omega) i hi j hj
    · rw [lock_eq_of_mem_run (List.getElem_mem _) hi (List.getLast_mem hlast),
        lock_eq_of_mem_run (List.getElem_mem _) hj (List.head_mem hhead)]
      simpa using hne
  have : IsTrans (List (Nat × Bool)) fun g g' => g' ≠ [] ∧ ∀ i ∈ g, ∀ j ∈ g', i.1 < j.1 := by
    constructor
    rintro g g' g'' ⟨hne, h⟩ ⟨hne', h'⟩
    refine ⟨hne', fun i hi j hj => ?_⟩
    obtain ⟨k, hk⟩ := List.exists_mem_of_ne_nil g' hne
    exact Nat.lt_trans (h i hi k hk) (h' k hk j hj)
  exact hchain.pairwise.imp And.right

/-- There is one run for each lock. -/
theorem run_eq_of_lock_eq (hg : g ∈ runs items) (hg' : g' ∈ runs items) (hi : i ∈ g) (hj : j ∈ g')
    (h : i.1 = j.1) : g = g' := by
  have : Std.Symm fun g g' : List (Nat × Bool) => ∀ i ∈ g, ∀ j ∈ g', i.1 ≠ j.1 :=
    ⟨fun _ _ h j hj i hi => (h i hi j hj).symm⟩
  have hother : (runs items).Pairwise fun g g' => ∀ i ∈ g, ∀ j ∈ g', i.1 ≠ j.1 :=
    (pairwise_runs items).imp fun h i hi j hj => Nat.ne_of_lt (h i hi j hj)
  by_contra hne
  exact hother.forall hg hg' hne i hi j hj h

/-- The member that the items of one lock make. -/
def merge (name : Nat → String) (g : List (Nat × Bool)) (hg : g ≠ []) : Member where
  lock := (g.head hg).1
  name := name (g.head hg).1
  controlled := g.tail.foldl (fun c i => c && i.2) (g.head hg).2

theorem foldl_and (g : List (Nat × Bool)) (c : Bool) :
    g.foldl (fun c i => c && i.2) c = (c && g.all (·.2)) := by
  induction g generalizing c with
  | nil => simp
  | cons i g ih => rw [List.foldl_cons, ih, List.all_cons, Bool.and_assoc]

theorem controlled_merge (hg : g ≠ []) : (merge name g hg).controlled = g.all (·.2) := by
  have hcons : g.all (·.2) = ((g.head hg) :: g.tail).all (·.2) := by rw [List.cons_head_tail]
  rw [hcons, List.all_cons, ← foldl_and, merge]

def gathered (name : Nat → String) (items : List (Nat × Bool)) : List Member :=
  (runs items).pmap (merge name) fun _ => ne_nil_of_mem_runs

theorem lists_gathered (name : Nat → String) (items : List (Nat × Bool)) :
    Lists name items (gathered name items) where
  ascending := by
    apply (pairwise_runs items).pmap
    intro g hg g' hg' h
    exact h _ (List.head_mem hg) _ (List.head_mem hg')
  mem_iff l := by
    rw [List.mem_map, List.mem_map]
    constructor
    · rintro ⟨m, hm, rfl⟩
      obtain ⟨g, hg, rfl⟩ := List.mem_pmap.mp hm
      exact ⟨_, mem_runs.mp ⟨g, hg, List.head_mem _⟩, rfl⟩
    · rintro ⟨i, hi, rfl⟩
      obtain ⟨g, hg, hi⟩ := mem_runs.mpr hi
      refine ⟨_, List.mem_pmap.mpr ⟨g, hg, rfl⟩, ?_⟩
      exact lock_eq_of_mem_run hg (List.head_mem _) hi
  name_eq m hm := by
    obtain ⟨g, hg, rfl⟩ := List.mem_pmap.mp hm
    rfl
  controlled_iff m hm := by
    obtain ⟨g, hg, rfl⟩ := List.mem_pmap.mp hm
    have hne := ne_nil_of_mem_runs hg
    have hhead := List.head_mem hne
    rw [controlled_merge, List.all_eq_true, ← mem_runs]
    constructor
    · rintro hall ⟨g', hg', hi⟩
      obtain rfl := run_eq_of_lock_eq hg hg' hhead hi rfl
      cases hall _ hi
    · intro hno i hi
      by_contra hcontrolled
      have hlock : (g.head hne).1 = i.1 := lock_eq_of_mem_run hg hhead hi
      have hfalse : i = ((g.head hne).1, false) :=
        Prod.ext hlock.symm (Bool.eq_false_iff.mpr hcontrolled)
      exact hno ⟨g, hg, hfalse ▸ hi⟩

/-- Sorting the items and joining those of each lock comes to the same as enlisting them. -/
theorem gathered_eq (name : Nat → String) (items : List (Nat × Bool)) :
    gathered name items = (ofList (named name items)).members := by
  apply (lists_gathered name items).unique (lists_ofList name items)
  · intro m hm
    obtain ⟨g, hg, rfl⟩ := List.mem_pmap.mp hm
    rfl
  · exact fun m hm => (fresh_of_mem_ofList items m hm).held_eq

theorem ofList_congr (h : ∀ i, i ∈ items' ↔ i ∈ items) :
    ofList (named name items') = ofList (named name items) := by
  apply congrArg LockGroup.mk
  apply (lists_ofList name items').unique ((lists_ofList name items).of_mem_iff h)
  · exact fun m hm => (fresh_of_mem_ofList items' m hm).held_eq
  · exact fun m hm => (fresh_of_mem_ofList items m hm).held_eq

end Runs

section Search

variable {ms : List Member} {l left right k : Nat} {m : Member}

/-- Looks for a lock among the members from `left` on and before `right`, where the middle one tells
which half to leave out. -/
def search (ms : List Member) (l left right : Nat) : Option Nat :=
  if left < right then
    let mid := left + (right - left) / 2
    match ms[mid]? with
    | none => none
    | some m =>
      if m.lock < l then search ms l (mid + 1) right
      else if l < m.lock then search ms l left mid
      else some mid
  else none
termination_by right - left

def position? (ms : List Member) (l : Nat) : Option Nat := search ms l 0 ms.length

theorem lock_of_search (h : search ms l left right = some k) :
    ∃ m, ms[k]? = some m ∧ m.lock = l := by
  fun_induction search ms l left right with
  | case1 => cases h
  | case2 left right _ mid m hm hlt ih => exact ih h
  | case3 left right _ mid m hm _ hlt ih => exact ih h
  | case4 left right _ mid m hm hge hle =>
    rw [← Option.some.inj h]
    exact ⟨m, hm, Nat.le_antisymm (Nat.not_lt.mp hle) (Nat.not_lt.mp hge)⟩
  | case5 => cases h

theorem lock_lt_iff (hms : ms.Pairwise (·.lock < ·.lock)) {i j : Nat} {a b : Member}
    (ha : ms[i]? = some a) (hb : ms[j]? = some b) : a.lock < b.lock ↔ i < j := by
  obtain ⟨hi, rfl⟩ := List.getElem?_eq_some_iff.mp ha
  obtain ⟨hj, rfl⟩ := List.getElem?_eq_some_iff.mp hb
  have hlt := List.pairwise_iff_getElem.mp hms
  refine ⟨fun h => ?_, hlt i j hi hj⟩
  rcases Nat.lt_trichotomy i j with hij | rfl | hji
  · exact hij
  · exact absurd h (Nat.lt_irrefl _)
  · exact absurd h (Nat.lt_asymm (hlt j i hj hi hji))

/-- In ascending order no half that is left out has the lock. -/
theorem search_of_lock (hms : ms.Pairwise (·.lock < ·.lock)) (hm : ms[k]? = some m)
    (hleft : left ≤ k) (hright : k < right) (hlen : right ≤ ms.length) :
    search ms m.lock left right = some k := by
  fun_induction search ms m.lock left right with
  | case1 left right h mid hnone =>
    have := List.getElem?_eq_none_iff.mp hnone
    omega
  | case2 left right _ mid a ha hlt ih =>
    exact ih ((lock_lt_iff hms ha hm).mp hlt) hright hlen
  | case3 left right _ mid a ha _ hlt ih =>
    exact ih hleft ((lock_lt_iff hms hm ha).mp hlt) (by omega)
  | case4 left right _ mid a ha hge hle =>
    rw [lock_lt_iff hms ha hm] at hge
    rw [lock_lt_iff hms hm ha] at hle
    exact congrArg some (Nat.le_antisymm (Nat.not_lt.mp hle) (Nat.not_lt.mp hge))
  | case5 => omega

theorem position?_eq_some_iff (hms : ms.Pairwise (·.lock < ·.lock)) :
    position? ms l = some k ↔ ∃ m, ms[k]? = some m ∧ m.lock = l := by
  constructor
  · exact lock_of_search
  · rintro ⟨m, hm, rfl⟩
    obtain ⟨hk, -⟩ := List.getElem?_eq_some_iff.mp hm
    exact search_of_lock hms hm (Nat.zero_le k) hk (Nat.le_refl _)

/-- Every lock that was named, and no other, is found by halving. -/
structure Located (items : List (Nat × Bool)) (g : LockGroup) : Prop where
  isSome_iff : ∀ l, (position? g.members l).isSome = true ↔ l ∈ items.map (·.1)
  find?_eq : ∀ l, g.find? l = (position? g.members l).bind fun k => g.members[k]?
  mem_iff : ∀ (ls : List Nat) (k : Nat), k ∈ ls.filterMap (position? g.members) ↔
    ∃ m, g.members[k]? = some m ∧ m.lock ∈ ls

theorem Lists.located {g : LockGroup} (h : Lists name items g.members) : Located items g := by
  have hposition {l k : Nat} := position?_eq_some_iff h.ascending (l := l) (k := k)
  constructor
  case isSome_iff =>
    intro l
    rw [Option.isSome_iff_exists, ← h.mem_iff, List.mem_map]
    simp only [hposition, List.mem_iff_getElem?]
    tauto
  case find?_eq =>
    intro l
    cases hf : g.find? l with
    | none =>
      have hnone : position? g.members l = none := by
        rw [Option.eq_none_iff_forall_ne_some]
        intro k hk
        obtain ⟨m, hm, hl⟩ := hposition.mp hk
        exact List.find?_eq_none.mp hf m (List.mem_of_getElem? hm) (by simpa using hl)
      rw [hnone, Option.bind_none]
    | some m =>
      obtain ⟨k, hk⟩ := List.mem_iff_getElem?.mp (List.mem_of_find?_eq_some hf)
      rw [hposition.mpr ⟨m, hk, lock_of_find? hf⟩, Option.bind_some, hk]
  case mem_iff =>
    intro ls k
    simp only [List.mem_filterMap, hposition]
    constructor
    · rintro ⟨l, hl, m, hm, rfl⟩
      exact ⟨m, hm, hl⟩
    · rintro ⟨m, hm, hl⟩
      exact ⟨_, hl, m, hm, rfl⟩

end Search

end EntityStore.LockGroup
