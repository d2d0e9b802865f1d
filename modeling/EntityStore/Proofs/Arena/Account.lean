import EntityStore.Arena
import EntityStore.Proofs.Issuer.Fresh
import EntityStore.Proofs.Packed.Contents

/-!
# The account of an arena

A holder of identifiers can tell from the answers of an arena alone what it has been handed, what
of it is still outside, and which value each identifier has. An arena that is given only
identifiers of its own, none of whose indices comes around, answers as this account says: no value
outlives its identifier, and an index that is reissued never meets a row of its former holder.
-/
namespace EntityStore.Arena

open Issuer (Kept mostReturns)

inductive Call (bits : Nat) (α : Type)
  | reserve
  | giveBack (i : Ident bits)
  /-- Stores a value that may mention its identifier; a value that is inserted does not. -/
  | emplace (build : Ident bits → α)
  | add (i : Ident bits) (v : α)
  /-- Removes a value, whether or not the caller wants to have it. -/
  | remove (i : Ident bits)
  | sort (le : α → α → Bool)
  /-- What sorting by a comparison that is no order does. -/
  | rearrange (order : Array Nat)
  | modify (i : Ident bits) (f : α → α)
  | put (i : Ident bits) (v : α)
  | rewrite (f : Ident bits → α → α)

inductive Reply (bits : Nat) (α : Type)
  | issued (i : Ident bits)
  | stored (slot : Nat)
  | removed (slot : Nat) (v : α)
  | done

variable {bits : Nat} {α : Type}

namespace Call

def idents : Call bits α → List (Ident bits)
  | giveBack i | add i _ | remove i | modify i _ | put i _ => [i]
  | reserve | emplace _ | sort _ | rearrange _ | rewrite _ => []

def perform (a : Arena bits α) : Call bits α → Except Failure (Reply bits α) × Arena bits α
  | reserve =>
    match a.reserve with
    | .ok (i, b) => (.ok (.issued i), b)
    | .error f => (.error (.fault f), a)
  | giveBack i =>
    match a.giveBack i with
    | .ok b => (.ok .done, b)
    | .error f => (.error (.fault f), a)
  | emplace build =>
    let (answer, b) := a.emplace build
    (answer.map .issued, b)
  | add i v =>
    match a.add i v with
    | .ok (slot, b) => (.ok (.stored slot), b)
    | .error f => (.error (.fault f), a)
  | remove i =>
    let (answer, b) := a.remove i
    (answer.map fun (slot, v) => .removed slot v, b)
  | sort le => (.ok .done, a.sort le)
  | rearrange order =>
    (.ok .done,
      if Packed.IsOrder a.store.rows.size order then { a with store := a.store.rearrange order }
      else a)
  | modify i f => (.ok .done, a.modify i f)
  | put i v =>
    match a.put i v with
    | .ok b => (.ok .done, b)
    | .error f => (.error (.breach f), a)
  | rewrite f => (.ok .done, { a with store := a.store.mapRows f })

end Call

/-- An arena with the account of its identifiers and values. -/
structure Book (bits : Nat) (α : Type) where
  arena : Arena bits α := {}
  /-- Every identifier handed out, the newest first. -/
  handed : List (Ident bits) := []
  /-- The identifiers handed out and not given back since, neither by themselves nor with a
  value. -/
  out : List (Ident bits) := []
  /-- The index of every identifier that came back. -/
  returned : List Nat := []
  /-- The value stored under each identifier, as it was written last. -/
  stored : Ident bits → Option α := fun _ => none

namespace Book

def ledger (b : Book bits α) : Issuer.Ledger bits :=
  ⟨b.arena.issuer, b.handed, b.out, b.returned⟩

def hand (b : Book bits α) (i : Ident bits) : Book bits α :=
  { b with handed := i :: b.handed, out := i :: b.out }

def takeBack (b : Book bits α) (i : Ident bits) : Book bits α :=
  { b with out := b.out.filter (· ≠ i), returned := i.index :: b.returned }

def write (b : Book bits α) (i : Ident bits) (v : Option α) : Book bits α :=
  { b with stored := Function.update b.stored i v }

def note (b : Book bits α) : Call bits α → Reply bits α → Book bits α
  | .reserve, .issued i => b.hand i
  | .giveBack i, _ => b.takeBack i
  | .emplace build, .issued i => (b.hand i).write i (some (build i))
  | .add i v, _ => b.write i (some v)
  | .remove i, _ => (b.takeBack i).write i none
  | .modify i f, _ => b.write i ((b.stored i).map f)
  | .put i v, _ => b.write i (some v)
  | .rewrite f, _ => { b with stored := fun i => (b.stored i).map (f i) }
  | _, _ => b

def after (b : Book bits α) (c : Call bits α) : Book bits α :=
  match c.perform b.arena with
  | (.ok r, arena) => { b.note c r with arena }
  | (.error _, arena) => { b with arena }

def run (calls : List (Call bits α)) : Book bits α := calls.foldl after {}

/-- Every identifier that the calls are given was handed out before. -/
def Own (b : Book bits α) : List (Call bits α) → Prop
  | [] => True
  | c :: calls => (∀ i ∈ c.idents, i ∈ b.handed) ∧ (b.after c).Own calls

instance decidableOwn : (b : Book bits α) → (calls : List (Call bits α)) → Decidable (b.Own calls)
  | _, [] => .isTrue trivial
  | b, c :: calls =>
    have := decidableOwn (b.after c) calls
    inferInstanceAs (Decidable ((∀ i ∈ c.idents, i ∈ b.handed) ∧ (b.after c).Own calls))

end Book

/-- The arena answers as the account says. -/
structure Upheld (b : Book bits α) : Prop where
  handed_nodup : b.handed.Nodup
  current : ∀ i ∈ b.arena.store.keys, b.arena.issuer.isCurrent i = true
  get : ∀ i, b.arena.get? i = b.stored i
  contains : ∀ i, b.arena.contains i = (b.stored i).isSome
  /-- A value can be stored under a fresh identifier whenever there is one. -/
  emplace : ∀ build, (b.arena.emplace build).1 = match b.arena.issuer.next? with
    | none => .error (.fault (.identsExhausted b.arena.issuer.gauge))
    | some i => .ok i
  add : ∀ i ∈ b.handed, ∀ v, (b.arena.add i v).map (·.1) =
    if (b.stored i).isSome then .error (.added i)
    else if i ∈ b.out then .ok b.arena.size
    else .error (.invalid i)
  giveBack : ∀ i ∈ b.handed, (b.arena.giveBack i).map (fun _ => ()) =
    if (b.stored i).isSome then .error (.added i)
    else if i ∈ b.out then .ok ()
    else .error (.invalid i)
  remove : ∀ i, (b.arena.remove i).1.map (·.2) = match b.stored i with
    | some v => .ok v
    | none => .error (.fault (.invalid i))
  /-- A call fails for a reason other than an identifier that is stored and not current, and then
  changes nothing. -/
  failed : ∀ c : Call bits α, (∀ i ∈ c.idents, i ∈ b.handed) → ∀ f,
    (c.perform b.arena).1 = .error f → f ≠ .breach .notCurrent ∧ (c.perform b.arena).2 = b.arena

theorem emplace_of_none {a : Arena bits α} (hi : a.issuer.next? = none) (build : Ident bits → α) :
    a.emplace build = (.error (.fault (.identsExhausted a.issuer.gauge)), a) := by
  obtain ⟨issuer, store⟩ := a
  simp_all [emplace]

theorem emplace_of_isFree {a : Arena bits α} {i : Ident bits} (hi : a.issuer.next? = some i)
    (hf : a.store.isFree i = true) (build : Ident bits → α) :
    a.emplace build = (.ok i, ⟨a.issuer.advance, a.store.push i (build i)⟩) := by
  obtain ⟨issuer, store⟩ := a
  simp_all [emplace]

/-- Issuer and store agree: an identifier that has a value is outside. -/
structure Joint (b : Book bits α) : Prop where
  kept : Kept b.ledger
  sound : b.arena.store.Sound
  get?_eq : b.arena.store.get? = b.stored
  out_of_stored : ∀ {i : Ident bits} {v : α}, b.stored i = some v → i ∈ b.out

namespace Joint

variable {b : Book bits α} {i : Ident bits} {v : α}

theorem empty : Joint ({} : Book bits α) :=
  ⟨.empty, Packed.sound_empty, rfl, fun h => absurd h (Option.some_ne_none _).symm⟩

theorem contains_eq (h : Joint b) (i : Ident bits) :
    b.arena.contains i = (b.stored i).isSome := by
  rw [contains, Packed.contains_eq_isSome h.sound, h.get?_eq]

/-- A row is stored under an identifier that is outside. -/
theorem out_of_cell (h : Joint b) {n : Nat} {row : Ident bits × α}
    (hc : b.arena.store.cell n = some row) : row.1 ∈ b.out ∧ row.1.index = n := by
  have hn : row.1.index = n := (h.sound.cell_eq_some_iff.mp hc).2
  refine ⟨h.out_of_stored (v := row.2) ?_, hn⟩
  rw [← h.get?_eq, Packed.get?_eq_some_iff h.sound]
  exact (congrArg b.arena.store.cell hn).trans hc

/-- The index of an identifier outside is free in the store unless the identifier itself has a
value. -/
theorem isFree_of_out (h : Joint b) (hi : i ∈ b.out) (hs : b.stored i = none) :
    b.arena.store.isFree i = true := by
  rw [← Packed.cell_eq_none_iff h.sound]
  by_contra hne
  obtain ⟨row, hrow⟩ := Option.ne_none_iff_exists'.mp hne
  obtain ⟨hout, hindex⟩ := h.out_of_cell hrow
  obtain rfl := h.kept.traced.eq_of_index_eq hout hi hindex
  rw [← h.get?_eq] at hs
  rw [(Packed.get?_eq_some_iff h.sound).mpr hrow] at hs
  cases hs

/-- The index of an identifier that is issued next is free in the store. -/
theorem isFree_of_next? (h : Joint b) (hi : b.arena.issuer.next? = some i) :
    b.arena.store.isFree i = true := by
  rw [← Packed.cell_eq_none_iff h.sound]
  by_contra hne
  obtain ⟨row, hrow⟩ := Option.ne_none_iff_exists'.mp hne
  obtain ⟨hout, hindex⟩ := h.out_of_cell hrow
  exact h.kept.index_ne_of_next? hi _ hout hindex

theorem stored_eq_none_of_next? (h : Joint b) (hi : b.arena.issuer.next? = some i) :
    b.stored i = none := by
  by_contra hne
  obtain ⟨v, hv⟩ := Option.ne_none_iff_exists'.mp hne
  exact h.kept.index_ne_of_next? hi i (h.out_of_stored hv) rfl

theorem emplace_eq (h : Joint b) (build : Ident bits → α) :
    b.arena.emplace build = match b.arena.issuer.next? with
      | none => (.error (.fault (.identsExhausted b.arena.issuer.gauge)), b.arena)
      | some i => (.ok i, ⟨b.arena.issuer.advance, b.arena.store.push i (build i)⟩) := by
  cases hi : b.arena.issuer.next? with
  | none => exact emplace_of_none hi build
  | some i => exact emplace_of_isFree hi (h.isFree_of_next? hi) build

theorem add_eq (h : Joint b) (hi : i ∈ b.handed) (v : α) :
    b.arena.add i v =
      if (b.stored i).isSome then .error (.added i)
      else if i ∈ b.out then
        .ok (b.arena.size, { b.arena with store := b.arena.store.push i v })
      else .error (.invalid i) := by
  rw [add, h.contains_eq]
  by_cases hs : (b.stored i).isSome
  · simp [hs]
  · have hcur : b.arena.issuer.isCurrent i = true ↔ i ∈ b.out := h.kept.isCurrent_iff hi
    by_cases ho : i ∈ b.out
    · have hfree := h.isFree_of_out ho (Option.not_isSome_iff_eq_none.mp hs)
      simp [hs, ho, hcur.mpr ho, Packed.insert, hfree, size]
    · have hnot : b.arena.issuer.isCurrent i = false := by
        rw [← Bool.not_eq_true, hcur]
        exact ho
      simp [hs, ho, hnot]

theorem giveBack_eq (h : Joint b) (hi : i ∈ b.handed) :
    b.arena.giveBack i =
      if (b.stored i).isSome then .error (.added i)
      else if i ∈ b.out then .ok { b.arena with issuer := b.arena.issuer.recycle i }
      else .error (.invalid i) := by
  rw [giveBack, h.contains_eq, Issuer.giveBack]
  have hacc : b.arena.issuer.accepts i = true ↔ i ∈ b.out := h.kept.accepts_iff hi
  by_cases ho : i ∈ b.out
  · simp [ho, hacc.mpr ho]
  · have hnot : b.arena.issuer.accepts i = false := by
      rw [← Bool.not_eq_true, hacc]
      exact ho
    simp [ho, hnot]

/-- A value that is stored is removed from its slot and its identifier comes back. -/
theorem remove_of_stored (h : Joint b) (hv : b.stored i = some v) :
    ∃ slot, b.arena.store.rows[slot]? = some (i, v) ∧
      b.arena.remove i =
        (.ok (slot, v), ⟨b.arena.issuer.recycle i, b.arena.store.vacate i slot⟩) := by
  rw [← h.get?_eq] at hv
  obtain ⟨slot, hrow, hr, -⟩ := h.sound.exists_row hv
  have ho : i ∈ b.out := h.out_of_stored (h.get?_eq ▸ hv)
  have hacc : b.arena.issuer.accepts i = true :=
    (h.kept.accepts_iff (h.kept.handed_of_out i ho)).mpr ho
  refine ⟨slot, hrow, ?_⟩
  simp [remove, hr, hacc]

theorem remove_of_not_stored (h : Joint b) (hv : b.stored i = none) :
    b.arena.remove i = (.error (.fault (.invalid i)), b.arena) := by
  rw [← h.get?_eq] at hv
  simp [remove, Packed.row?, h.sound.slotOf?_eq_none hv]

/-- The invariant when only values change. -/
theorem of_store (h : Joint b) {store : Packed (Ident bits) α} (hs : store.Sound)
    {stored : Ident bits → Option α} (hg : store.get? = stored)
    (ho : ∀ i v, stored i = some v → i ∈ b.out) :
    Joint { b with arena := { b.arena with store }, stored } :=
  ⟨h.kept, hs, hg, fun {i v} => ho i v⟩

theorem of_reordered (h : Joint b) {store : Packed (Ident bits) α}
    (hs : Packed.Reordered b.arena.store store) :
    Joint { b with arena := { b.arena with store } } :=
  h.of_store hs.sound ((hs.get?_eq h.sound).trans h.get?_eq) fun _ _ => h.out_of_stored

theorem out_of_update (h : Joint b) {w : Option α} (hw : ∀ v, w = some v → i ∈ b.out) :
    ∀ j v, Function.update b.stored i w j = some v → j ∈ b.out := by
  intro j v hj
  by_cases hji : j = i
  · rw [hji, Function.update_self] at hj
    exact hji ▸ hw v hj
  · rw [Function.update_of_ne hji] at hj
    exact h.out_of_stored hj

/-- Writing to a value in place. -/
theorem modified (h : Joint b) (i : Ident bits) (f : α → α) :
    Joint { b with
      arena := b.arena.modify i f
      stored := Function.update b.stored i ((b.stored i).map f) } := by
  apply h.of_store (h.sound.modify i f)
  · ext j
    rw [Packed.get?_modify h.sound, h.get?_eq]
    by_cases hj : j = i
    · rw [if_pos hj, hj, Function.update_self]
    · rw [if_neg hj, Function.update_of_ne hj]
  · apply h.out_of_update
    intro v hv
    obtain ⟨w, hw, -⟩ := Option.map_eq_some_iff.mp hv
    exact h.out_of_stored hw

theorem rewritten (h : Joint b) (f : Ident bits → α → α) :
    Joint { b with
      arena := { b.arena with store := b.arena.store.mapRows f }
      stored := fun i => (b.stored i).map (f i) } := by
  apply h.of_store (h.sound.mapRows f)
  · ext j
    rw [Packed.get?_mapRows h.sound, h.get?_eq]
  · intro j v hj
    obtain ⟨w, hw, -⟩ := Option.map_eq_some_iff.mp hj
    exact h.out_of_stored hw

/-- Storing a value under an identifier that is outside and has none. -/
theorem added (h : Joint b) (hi : i ∈ b.out) (hs : b.stored i = none) (v : α) :
    Joint { b with
      arena := { b.arena with store := b.arena.store.push i v }
      stored := Function.update b.stored i (some v) } := by
  have hfree := h.isFree_of_out hi hs
  refine h.of_store (h.sound.push hfree v) ?_ (h.out_of_update fun _ _ => hi)
  rw [Packed.get?_push h.sound hfree, h.get?_eq]

/-- Handing out an identifier. -/
theorem issued (h : Joint b) (hi : b.arena.issuer.next? = some i) :
    Joint { b.hand i with arena := { b.arena with issuer := b.arena.issuer.advance } } :=
  ⟨h.kept.issued hi, h.sound, h.get?_eq, fun hv => List.mem_cons_of_mem _ (h.out_of_stored hv)⟩

/-- Taking back an identifier that has no value. -/
theorem tookBack (h : Joint b) (hi : i ∈ b.out) (hs : b.stored i = none)
    (hb : b.returned.count i.index + 1 < mostReturns) :
    Joint { b.takeBack i with arena := { b.arena with issuer := b.arena.issuer.recycle i } } := by
  refine ⟨h.kept.tookBack hi hb, h.sound, h.get?_eq, fun {j w} (hj : b.stored j = some w) => ?_⟩
  refine List.mem_filter.mpr ⟨h.out_of_stored hj, ?_⟩
  simp only [decide_eq_true_eq]
  rintro rfl
  rw [hs] at hj
  cases hj

/-- Taking back an identifier together with its value. -/
theorem removed (h : Joint b) (hi : i ∈ b.out) {slot : Nat}
    (hrow : b.arena.store.rows[slot]? = some (i, v))
    (hb : b.returned.count i.index + 1 < mostReturns) :
    Joint { (b.takeBack i).write i none with
      arena := ⟨b.arena.issuer.recycle i, b.arena.store.vacate i slot⟩ } := by
  have hvacated : Joint { b with
      arena := { b.arena with store := b.arena.store.vacate i slot }
      stored := Function.update b.stored i none } := by
    refine h.of_store (h.sound.vacate hrow) ?_ (h.out_of_update fun _ hv => absurd hv (by simp))
    rw [Packed.get?_vacate h.sound hrow, h.get?_eq]
  exact hvacated.tookBack hi (Function.update_self ..) hb

/-- One step: a call that is given only identifiers handed out before either fails and changes
nothing, or leaves an arena that the account is true of. -/
theorem perform (h : Joint b) (c : Call bits α) (hown : ∀ i ∈ c.idents, i ∈ b.handed) :
    (∃ f, c.perform b.arena = (.error f, b.arena) ∧ f ≠ .breach .notCurrent) ∨
    ∃ r arena, c.perform b.arena = (.ok r, arena) ∧
      ((∀ n, (b.note c r).returned.count n < mostReturns) →
        Joint { b.note c r with arena }) := by
  cases c with
  | reserve =>
    simp only [Call.perform, reserve, Issuer.issue]
    cases hi : b.arena.issuer.next? with
    | none => exact .inl ⟨_, rfl, by simp⟩
    | some i => exact .inr ⟨_, _, rfl, fun _ => h.issued hi⟩
  | giveBack i =>
    have hi : i ∈ b.handed := hown i List.mem_cons_self
    simp only [Call.perform, h.giveBack_eq hi]
    by_cases hs : (b.stored i).isSome
    · exact .inl ⟨_, by rw [if_pos hs], by simp⟩
    · by_cases ho : i ∈ b.out
      · refine .inr ⟨.done, _, by rw [if_neg hs, if_pos ho], fun hb => ?_⟩
        have hcount := hb i.index
        rw [Book.note, Book.takeBack, List.count_cons_self] at hcount
        exact h.tookBack ho (Option.not_isSome_iff_eq_none.mp hs) hcount
      · exact .inl ⟨_, by rw [if_neg hs, if_neg ho], by simp⟩
  | emplace build =>
    simp only [Call.perform, h.emplace_eq]
    cases hi : b.arena.issuer.next? with
    | none => exact .inl ⟨_, rfl, by simp⟩
    | some i =>
      refine .inr ⟨.issued i, _, rfl, fun _ => ?_⟩
      exact (h.issued hi).added List.mem_cons_self (h.stored_eq_none_of_next? hi) (build i)
  | add i v =>
    have hi : i ∈ b.handed := hown i List.mem_cons_self
    simp only [Call.perform, h.add_eq hi]
    by_cases hs : (b.stored i).isSome
    · exact .inl ⟨_, by rw [if_pos hs], by simp⟩
    · by_cases ho : i ∈ b.out
      · refine .inr ⟨_, _, by rw [if_neg hs, if_pos ho], fun _ => ?_⟩
        exact h.added ho (Option.not_isSome_iff_eq_none.mp hs) v
      · exact .inl ⟨_, by rw [if_neg hs, if_neg ho], by simp⟩
  | remove i =>
    simp only [Call.perform]
    cases hv : b.stored i with
    | none => exact .inl ⟨_, by rw [h.remove_of_not_stored hv]; rfl, by simp⟩
    | some v =>
      obtain ⟨slot, hrow, hr⟩ := h.remove_of_stored hv
      refine .inr ⟨.removed slot v, _, by rw [hr]; rfl, fun hb => ?_⟩
      have hcount := hb i.index
      rw [Book.note, Book.write, Book.takeBack, List.count_cons_self] at hcount
      exact h.removed (h.out_of_stored hv) hrow hcount
  | sort le =>
    refine .inr ⟨.done, _, rfl, fun _ => h.of_reordered ?_⟩
    exact (Packed.rearrange_spec h.sound (Packed.isOrder_sortedSlots le)).2.1
  | rearrange order =>
    refine .inr ⟨.done, _, rfl, fun _ => ?_⟩
    split
    · next ho => exact h.of_reordered (Packed.rearrange_spec h.sound ho).2.1
    · exact h
  | modify i f => exact .inr ⟨.done, _, rfl, fun _ => h.modified i f⟩
  | put i v =>
    simp only [Call.perform, put, h.contains_eq]
    cases hv : b.stored i with
    | none => exact .inl ⟨_, rfl, by simp⟩
    | some w =>
      refine .inr ⟨.done, _, rfl, fun _ => ?_⟩
      have hm := h.modified i fun _ => v
      rw [hv] at hm
      exact hm
  | rewrite f => exact .inr ⟨.done, _, rfl, fun _ => h.rewritten f⟩

theorem after (h : Joint b) {c : Call bits α} (hown : ∀ i ∈ c.idents, i ∈ b.handed)
    (hb : ∀ n, (b.after c).returned.count n < mostReturns) : Joint (b.after c) := by
  rw [Book.after] at hb ⊢
  rcases h.perform c hown with ⟨f, hf, -⟩ | ⟨r, arena, hr, hj⟩
  · rw [hf]
    exact h
  · rw [hr] at hb ⊢
    exact hj hb

theorem upheld (h : Joint b) : Upheld b where
  handed_nodup := h.kept.handed_nodup
  current i hi := by
    obtain ⟨row, hrow, rfl⟩ := List.mem_map.mp hi
    have hcell := h.sound.cell_eq_some_iff.mpr ⟨Array.mem_toList_iff.mp hrow, rfl⟩
    have ho := (h.out_of_cell hcell).1
    exact (h.kept.isCurrent_iff (h.kept.handed_of_out _ ho)).mpr ho
  get i := congrFun h.get?_eq i
  contains := h.contains_eq
  emplace build := by
    rw [h.emplace_eq]
    cases b.arena.issuer.next? <;> rfl
  add i hi v := by
    rw [h.add_eq hi]
    split
    · rfl
    · split <;> rfl
  giveBack i hi := by
    rw [h.giveBack_eq hi]
    split
    · rfl
    · split <;> rfl
  remove i := by
    cases hv : b.stored i with
    | none =>
      rw [h.remove_of_not_stored hv]
      rfl
    | some v =>
      obtain ⟨slot, -, hr⟩ := h.remove_of_stored hv
      rw [hr]
      rfl
  failed c hown f hf := by
    rcases h.perform c hown with ⟨g, hg, hne⟩ | ⟨r, arena, hr, -⟩
    · rw [hg] at hf ⊢
      cases hf
      exact ⟨hne, rfl⟩
    · rw [hr] at hf
      cases hf

end Joint

/-- What came back stays in the account. -/
theorem Book.returned_suffix (calls : List (Call bits α)) (b : Book bits α) :
    b.returned <:+ (calls.foldl Book.after b).returned := by
  induction calls generalizing b with
  | nil => exact List.suffix_rfl
  | cons c calls ih =>
    refine List.IsSuffix.trans ?_ (ih _)
    rw [Book.after]
    split
    · next r arena _ => cases c <;> cases r <;> simp [note, hand, takeBack, write]
    · exact List.suffix_rfl

/-- After any calls that are given only identifiers handed out by the arena, as long as no index
has come around, the arena answers as the account says. -/
theorem upheld_run (calls : List (Call bits α)) (hown : ({} : Book bits α).Own calls)
    (hb : ∀ n, (Book.run calls).returned.count n < mostReturns) : Upheld (Book.run calls) := by
  suffices hl : ∀ b : Book bits α, Joint b → b.Own calls →
      (∀ n, (calls.foldl Book.after b).returned.count n < mostReturns) →
      Joint (calls.foldl Book.after b) from (hl _ .empty hown hb).upheld
  clear hown hb
  induction calls with
  | nil => exact fun _ h _ _ => h
  | cons c calls ih =>
    intro b h hown hb
    refine ih _ (h.after hown.1 fun n => ?_) hown.2 hb
    exact ((Book.returned_suffix calls _).sublist.count_le n).trans_lt (hb n)

/-- One identifier is reserved and used, and the index of another is reissued while a copy of it
is still tried. -/
theorem upheld_run_reissued :
    Upheld (Book.run
      [.reserve, .emplace Ident.index, .add ⟨0, .first, by decide⟩ 5,
        .remove ⟨1, .first, by decide⟩, .emplace Ident.index,
        .add ⟨1, .first, by decide⟩ 6, .giveBack ⟨1, .first, by decide⟩,
        .remove ⟨1, .first, by decide⟩] : Book 8 Nat) := by
  apply upheld_run _ (by decide)
  intro n
  apply List.count_le_length.trans_lt
  decide

end EntityStore.Arena
