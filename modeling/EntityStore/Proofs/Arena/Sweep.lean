import EntityStore.Arena.Series
import EntityStore.Proofs.Arena.Housed
import EntityStore.Proofs.Issuer.Order

/-!
# Removing values while walking the slots

A walk along the slots that removes some of the values stays where it removed one, because the last
value has come there. What it has passed and what it has yet to examine are at every moment the rows
before and behind its slot, so it comes to an end and examines every row of the start once.
-/
namespace EntityStore.Arena

open Issuer (mostReturns)

variable {bits : Nat} {α : Type}

/-- The walk from a slot on that examines the rows `seen` and leaves `b`. It takes the identifier in
the slot, removes its value if `p` says so and goes on in the slot that the removal gives, or else
in the next, until a slot holds nothing. Nothing bounds its length. -/
inductive Sweeps (p : α → Bool) :
    (slot : Nat) → Arena bits α → (seen : List (Ident bits × α)) → (b : Arena bits α) → Prop
  | stop {slot a} (vacant : a.identAt? slot = none) : Sweeps p slot a [] a
  | pass {slot a i v seen b} (there : a.identAt? slot = some i) (fetched : a.fetch i = .ok v)
      (stays : p v = false) (rest : Sweeps p (slot + 1) a seen b) :
      Sweeps p slot a ((i, v) :: seen) b
  | take {slot a i v next c seen b} (there : a.identAt? slot = some i)
      (fetched : a.fetch i = .ok v) (leaves : p v = true)
      (removed : a.remove i = (.ok (next, v), c)) (rest : Sweeps p next c seen b) :
      Sweeps p slot a ((i, v) :: seen) b

/-- Every value of the arena is found, and its identifier can be taken back. -/
structure Seated (a : Arena bits α) : Prop where
  sound : a.store.Sound
  accepts : ∀ row ∈ a.toList, a.issuer.accepts row.1 = true

theorem Housed.seated {b : Book bits α} (h : Housed b) : Seated b.arena := by
  refine ⟨h.sound, fun row hrow => (h.traced.accepts_iff row.1).mpr (.inl ?_)⟩
  exact h.out_of_get? (h.sound.mem_toList_iff.mp hrow)

namespace Seated

variable {a : Arena bits α} {i : Ident bits} {v : α} {before after : List (Ident bits × α)}

theorem get?_eq_some_iff (h : Seated a) : a.get? i = some v ↔ (i, v) ∈ a.toList :=
  h.sound.mem_toList_iff.symm

theorem identAt?_eq (hl : a.toList = before ++ (i, v) :: after) :
    a.identAt? before.length = some i := by
  have hrows : a.store.rows = (before ++ (i, v) :: after).toArray := by
    rw [← hl, toList, Packed.toList]
  simp [identAt?, Packed.keyAt?, hrows]

theorem fetch_eq (h : Seated a) (hl : a.toList = before ++ (i, v) :: after) :
    a.fetch i = .ok v := by
  have hv : a.get? i = some v := h.get?_eq_some_iff.mpr (by simp [hl])
  rw [fetch, hv]

/-- One removal: the slot stays behind the rows passed, and the rows behind it are those that were
behind the row removed. -/
theorem remove_eq (h : Seated a) (hl : a.toList = before ++ (i, v) :: after) :
    ∃ c after', a.remove i = (.ok (before.length, v), c) ∧ c.toList = before ++ after' ∧
      after'.Perm after ∧ Seated c := by
  have hrow : a.store.rows[before.length]? = some (i, v) := by
    rw [← Array.getElem?_toList, ← Packed.toList, ← toList, hl]
    simp
  have hr := (Packed.row?_eq_some_iff h.sound).mpr hrow
  have hacc : a.issuer.accepts i = true := h.accepts (i, v) (by simp [hl])
  have hsound := h.sound.vacate hrow
  obtain ⟨after', hl', hperm⟩ := Packed.toList_vacate (k := i) hl
  refine ⟨⟨a.issuer.recycle i, a.store.vacate i before.length⟩, after', ?_, hl', hperm, hsound, ?_⟩
  · simp [remove, hr, hacc]
  · intro row hrow'
    -- no row of the index is left, so those that are have their generation as before
    have hget : (a.store.vacate i before.length).get? row.1 = some row.2 :=
      hsound.mem_toList_iff.mp hrow'
    have hcell := (Packed.get?_eq_some_iff hsound).mp hget
    rw [Packed.cell_vacate h.sound hrow] at hcell
    have hne : row.1.index ≠ i.index := by
      intro (he : Keyed.index row.1 = Keyed.index i)
      rw [he, Function.update_self] at hcell
      cases hcell
    have hstays : row ∈ a.toList := by
      have hmem : row ∈ before ++ after' := hl' ▸ hrow'
      rw [hl]
      rcases List.mem_append.mp hmem with hm | hm
      · exact List.mem_append_left _ hm
      · exact List.mem_append_right _ (List.mem_cons_of_mem _ (hperm.mem_iff.mp hm))
    have hrest := h.accepts row hstays
    rw [Issuer.accepts_iff] at hrest ⊢
    rw [Issuer.recycle, Array.getElem?_setIfInBounds_ne hne.symm, hrest]

/-- The walk from behind some rows examines the others, each once, and leaves those passed in their
slots and of the others the ones that stay. -/
theorem exists_sweeps (p : α → Bool) (before after : List (Ident bits × α)) (h : Seated a)
    (hl : a.toList = before ++ after) :
    ∃ seen b kept, Sweeps p before.length a seen b ∧ seen.Perm after ∧
      b.toList = before ++ kept ∧ kept.Perm (after.filter fun row => !p row.2) ∧ Seated b := by
  induction hn : after.length generalizing a before after with
  | zero =>
    obtain rfl := List.length_eq_zero_iff.mp hn
    have hvacant : a.identAt? before.length = none := by
      have hrows : a.store.rows = before.toArray := by
        rw [← List.append_nil before, ← hl, toList, Packed.toList]
      simp [identAt?, Packed.keyAt?, hrows]
    exact ⟨[], a, [], .stop hvacant, .refl _, hl, .refl _, h⟩
  | succ n ih =>
    obtain ⟨⟨i, v⟩, after, rfl⟩ := List.exists_cons_of_length_eq_add_one hn
    have hthere := identAt?_eq hl
    have hfetched := h.fetch_eq hl
    cases hp : p v with
    | false =>
      obtain ⟨seen, b, kept, hsweeps, hseen, hb, hkept, hseated⟩ :=
        ih (before ++ [(i, v)]) after h (by simpa using hl) (by simpa using hn)
      rw [List.length_append] at hsweeps
      refine ⟨(i, v) :: seen, b, (i, v) :: kept, .pass hthere hfetched hp hsweeps,
        hseen.cons _, by simpa using hb, ?_, hseated⟩
      rw [List.filter_cons_of_pos (by simp [hp])]
      exact hkept.cons _
    | true =>
      obtain ⟨c, after', hremoved, hc, hperm, hcs⟩ := h.remove_eq hl
      obtain ⟨seen, b, kept, hsweeps, hseen, hb, hkept, hseated⟩ :=
        ih before after' hcs hc (hperm.length_eq.trans (by simpa using hn))
      refine ⟨(i, v) :: seen, b, kept, .take hthere hfetched hp hremoved hsweeps,
        (hseen.trans hperm).cons _, hb, ?_, hseated⟩
      rw [List.filter_cons_of_neg (by simp [hp])]
      exact hkept.trans (hperm.filter _)

end Seated

namespace Sweeps

variable {p : α → Bool} {a b : Arena bits α} {slot : Nat} {seen : List (Ident bits × α)}

/-- There is no more than one walk. -/
theorem unique (h : Sweeps p slot a seen b) {seen' : List (Ident bits × α)} {b' : Arena bits α}
    (h' : Sweeps p slot a seen' b') : seen' = seen ∧ b' = b := by
  induction h generalizing seen' b' with
  | stop vacant => cases h' <;> simp_all
  | pass there fetched stays rest ih =>
    cases h' with
    | stop vacant => simp_all
    | pass there' fetched' stays' rest' =>
      obtain rfl := Option.some.inj (there.symm.trans there')
      obtain rfl := Except.ok.inj (fetched.symm.trans fetched')
      obtain ⟨rfl, rfl⟩ := ih rest'
      exact ⟨rfl, rfl⟩
    | take there' fetched' leaves' removed' rest' =>
      obtain rfl := Option.some.inj (there.symm.trans there')
      obtain rfl := Except.ok.inj (fetched.symm.trans fetched')
      simp_all
  | take there fetched leaves removed rest ih =>
    cases h' with
    | stop vacant => simp_all
    | pass there' fetched' stays' rest' =>
      obtain rfl := Option.some.inj (there.symm.trans there')
      obtain rfl := Except.ok.inj (fetched.symm.trans fetched')
      simp_all
    | take there' fetched' leaves' removed' rest' =>
      obtain rfl := Option.some.inj (there.symm.trans there')
      obtain rfl := Except.ok.inj (fetched.symm.trans fetched')
      rw [removed] at removed'
      cases removed'
      obtain ⟨rfl, rfl⟩ := ih rest'
      exact ⟨rfl, rfl⟩

/-- A sweep that may take as many steps as the walk has rows to examine is the walk. -/
theorem sweepFrom_eq (h : Sweeps p slot a seen b) {steps : Nat} (hs : seen.length ≤ steps) :
    (sweepFrom (fun v => .ok (p v)) steps slot a).answer =
        .ok ((seen.filter (p ·.2)).map (·.1)) ∧
      (sweepFrom (fun v => .ok (p v)) steps slot a).store = b := by
  induction h generalizing steps with
  | stop vacant => cases steps <;> simp [sweepFrom, vacant]
  | pass there fetched stays rest ih =>
    cases steps with
    | zero => cases hs
    | succ steps =>
      obtain ⟨hanswer, hstore⟩ := ih (Nat.le_of_succ_le_succ hs)
      simp only [sweepFrom, there, fetched, bind, Except.bind, stays]
      exact ⟨by simpa [stays] using hanswer, hstore⟩
  | take there fetched leaves removed rest ih =>
    cases steps with
    | zero => cases hs
    | succ steps =>
      obtain ⟨hanswer, hstore⟩ := ih (Nat.le_of_succ_le_succ hs)
      simp only [sweepFrom, there, fetched, bind, Except.bind, leaves, removed, Series.precededBy,
        hanswer]
      exact ⟨by simp [leaves, Except.map], hstore⟩

end Sweeps

/-- What a walk has done that examined every value once and removed those that satisfy `p`. -/
structure Swept (p : α → Bool) (a : Arena bits α) (seen : List (Ident bits × α))
    (b : Arena bits α) : Prop where
  seen_nodup : (seen.map (·.1)).Nodup
  seen_iff : ∀ i v, (i, v) ∈ seen ↔ a.get? i = some v
  /-- What satisfies `p` is gone, and all else has its value. -/
  get?_eq : ∀ i, b.get? i = (a.get? i).filter fun v => !p v
  contains_iff : ∀ i, b.contains i = true ↔ ∃ v, a.get? i = some v ∧ p v = false

/-- An arena that was given only what was in hand can be swept: the walk from the first slot ends,
and has then examined every value once and removed exactly those that satisfy `p`, in the order in
which it examined them. -/
theorem exists_swept (calls : List (Call bits α)) (h : ({} : Book bits α).InHand calls)
    (p : α → Bool) :
    ∃ seen b, (∀ seen' b', Sweeps p 0 (Book.run calls).arena seen' b' ↔ seen' = seen ∧ b' = b) ∧
      Swept p (Book.run calls).arena seen b ∧
      ((Book.run calls).arena.sweep fun v => .ok (p v)).answer =
        .ok ((seen.filter (p ·.2)).map (·.1)) ∧
      ((Book.run calls).arena.sweep fun v => .ok (p v)).store = b := by
  have ha := (housed_run calls h).seated
  generalize (Book.run calls).arena = a at ha
  obtain ⟨seen, b, kept, hsweeps, hseen, hb, hkept, hseated⟩ :=
    ha.exists_sweeps p [] a.toList rfl
  have hget : ∀ i, b.get? i = (a.get? i).filter fun v => !p v := by
    intro i
    ext v
    rw [hseated.get?_eq_some_iff, hb, List.nil_append, hkept.mem_iff, List.mem_filter,
      ← ha.get?_eq_some_iff, Option.filter_eq_some_iff]
  refine ⟨seen, b, fun seen' b' => ⟨hsweeps.unique, ?_⟩, ⟨?_, ?_, hget, ?_⟩, ?_⟩
  · rintro ⟨rfl, rfl⟩
    exact hsweeps
  · rw [(hseen.map _).nodup_iff]
    exact ha.sound.keys_nodup
  · intro i v
    rw [hseen.mem_iff, ha.get?_eq_some_iff]
  · intro i
    rw [contains, Packed.contains_eq_isSome hseated.sound, Option.isSome_iff_exists]
    have hi := hget i
    rw [get?] at hi
    rw [hi]
    simp [Option.filter_eq_some_iff]
  · apply hsweeps.sweepFrom_eq
    rw [hseen.length_eq]
    exact Nat.le_refl _

/-- As long as no index has come around, an arena that is given only identifiers that it handed out
can be swept. -/
theorem sweep_removes (calls : List (Call bits α)) (hown : ({} : Book bits α).Own calls)
    (hb : ∀ n, (Book.run calls).returned.count n < mostReturns) (p : α → Bool) :
    ∃ seen b, (∀ seen' b', Sweeps p 0 (Book.run calls).arena seen' b' ↔ seen' = seen ∧ b' = b) ∧
      Swept p (Book.run calls).arena seen b ∧
      ((Book.run calls).arena.sweep fun v => .ok (p v)).answer =
        .ok ((seen.filter (p ·.2)).map (·.1)) ∧
      ((Book.run calls).arena.sweep fun v => .ok (p v)).store = b :=
  exists_swept calls (Book.Own.inHand .empty hown hb) p

/-- A walk that removes in its first slot twice and then once on the way, in an arena that has
reissued an index of which a copy was still tried. -/
theorem sweep_removes_even :
    let ident (n : Fin 256) (g : Generation) : Ident 8 := ⟨n, g, n.isLt⟩
    let calls : List (Call 8 Nat) := [.emplace fun _ => 4, .emplace fun _ => 6, .reserve,
      .emplace fun _ => 5, .add (ident 2 .first) 8, .remove (ident 0 .first), .emplace fun _ => 7,
      .remove (ident 0 .first), .emplace fun _ => 10]
    let even (v : Nat) : Bool := v % 2 = 0
    ({} : Book 8 Nat).Own calls ∧ (∀ n, (Book.run calls).returned.count n < mostReturns) ∧
      ∃ seen b, Sweeps even 0 (Book.run calls).arena seen b ∧
        (seen.map (·.1)).Nodup ∧ (ident 4 .first, 10) ∈ seen ∧ (ident 0 ⟨2⟩, 7) ∈ seen ∧
        b.get? (ident 4 .first) = none ∧ b.get? (ident 0 ⟨2⟩) = some 7 ∧
        b.contains (ident 2 .first) = false := by
  intro ident calls even
  have hown : ({} : Book 8 Nat).Own calls := by decide +kernel
  have hb : ∀ n, (Book.run calls).returned.count n < mostReturns := by
    intro n
    apply List.count_le_length.trans_lt
    decide +kernel
  obtain ⟨seen, b, hwalk, hswept, -⟩ := sweep_removes calls hown hb even
  refine ⟨hown, hb, seen, b, (hwalk seen b).mpr ⟨rfl, rfl⟩, hswept.seen_nodup, ?_, ?_, ?_, ?_, ?_⟩
  · rw [hswept.seen_iff]
    decide +kernel
  · rw [hswept.seen_iff]
    decide +kernel
  · rw [hswept.get?_eq]
    decide +kernel
  · rw [hswept.get?_eq]
    decide +kernel
  · rw [← Bool.not_eq_true, hswept.contains_iff]
    have hget : (Book.run calls).arena.get? (ident 2 .first) = some 8 := by decide +kernel
    simp [hget, even]

section Around

def firstIdent (g : Generation) : Ident 8 := ⟨0, g, by decide⟩

/-- Takes the first index and gives it back, so many times, at first with a given generation. -/
def rounds : (n : Nat) → Generation → List (Call 8 Nat)
  | 0, _ => []
  | n + 1, g => .reserve :: .giveBack (firstIdent g) :: rounds n g.next

/-- Takes the first index and gives it back, so many times and once, and then gives it back under the
identifier that it had at first. Two values are stored after that. -/
def around (n : Nat) : List (Call 8 Nat) :=
  (.reserve :: .giveBack (firstIdent .first) :: rounds n Generation.first.next) ++
    [.giveBack (firstIdent .first), .emplace fun _ => 4, .emplace fun _ => 6]

theorem Book.own_append {b : Book bits α} {calls calls' : List (Call bits α)} :
    b.Own (calls ++ calls') ↔ b.Own calls ∧ (calls.foldl Book.after b).Own calls' := by
  induction calls generalizing b with
  | nil => simp [Book.Own]
  | cons c calls ih => simp [Book.Own, ih, and_assoc]

theorem Book.arena_after (b : Book bits α) (c : Call bits α) :
    (b.after c).arena = (c.perform b.arena).2 := by
  unfold Book.after
  split <;> next h => rw [h]

/-- An empty arena whose first index, the only one, waits with a generation. -/
def waiting (g : Generation) : Arena 8 Nat := ⟨⟨1, #[g], [⟨0, by decide⟩]⟩, {}⟩

variable {b : Book 8 Nat}

/-- The arena while its first index is outside. -/
def lent (g : Generation) : Arena 8 Nat := ⟨⟨1, #[g], []⟩, {}⟩

theorem reserve_waiting (g : Generation) :
    Call.perform (waiting g) .reserve = (.ok (.issued (firstIdent g)), lent g) := rfl

theorem giveBack_lent (g : Generation) :
    Call.perform (lent g) (.giveBack (firstIdent g)) = (.ok .done, waiting g.next) := by
  have haccepts : (lent g).issuer.accepts (firstIdent g) = true := by
    simp [Issuer.accepts, lent, firstIdent]
  have hgiveBack : (lent g).giveBack (firstIdent g) = .ok (waiting g.next) := by
    have hvacant : (lent g).contains (firstIdent g) = false := rfl
    rw [giveBack, hvacant, if_neg Bool.false_ne_true, Issuer.giveBack, if_pos haccepts]
    rfl
  rw [Call.perform, hgiveBack]

/-- One round: the index waits with the next generation. -/
theorem after_round {g : Generation} (h : b.arena = waiting g) :
    (b.after .reserve).after (.giveBack (firstIdent g)) =
      { (b.hand (firstIdent g)).takeBack (firstIdent g) with arena := waiting g.next } := by
  have hreserve : b.after .reserve = { b.hand (firstIdent g) with arena := lent g } := by
    rw [Book.after, h, reserve_waiting]
    rfl
  rw [hreserve, Book.after]
  dsimp only
  rw [giveBack_lent]
  rfl

theorem own_rounds (n : Nat) {g : Generation} (h : b.arena = waiting g) :
    b.Own (rounds n g) ∧ ((rounds n g).foldl Book.after b).arena = waiting (Generation.next^[n] g) ∧
      b.handed ⊆ ((rounds n g).foldl Book.after b).handed := by
  induction n generalizing b g with
  | zero => exact ⟨trivial, h, fun _ => id⟩
  | succ n ih =>
    have hround := after_round h
    obtain ⟨hown, harena, hhanded⟩ := ih (congrArg Book.arena hround)
    have hreserved : (b.after .reserve).handed = firstIdent g :: b.handed := by
      rw [Book.after, h, reserve_waiting]
      rfl
    refine ⟨⟨List.forall_mem_nil _, fun i hi => ?_, hown⟩, harena, ?_⟩
    · rw [List.mem_singleton.mp hi, hreserved]
      exact List.mem_cons_self
    · refine List.Subset.trans ?_ hhanded
      rw [hround]
      exact List.subset_cons_self ..

theorem iterate_next_around {n : Nat} (hn : n + 2 = 2 ^ 32) :
    Generation.next^[n] Generation.first.next = .first := by
  have hnat := Generation.toNat_iterate_next (g := Generation.first.next) (by decide) n
  have hone : Generation.first.next.toNat = 2 := rfl
  have hfirst : (Generation.next^[n] Generation.first.next).toNat = 1 := by
    rw [hnat, hone]
    omega
  exact congrArg Generation.mk (UInt32.toNat_inj.mp hfirst)

/-- The arena in which the second of two values has taken the identifier of the first. -/
def robbed : Arena 8 Nat :=
  (Call.perform (Call.perform (Call.perform (waiting .first) (.giveBack (firstIdent .first))).2
    (.emplace fun _ => 4)).2 (.emplace fun _ => 6)).2

theorem run_around {n : Nat} (hn : n + 2 = 2 ^ 32) :
    ({} : Book 8 Nat).Own (around n) ∧ (Book.run (around n)).arena = robbed := by
  let b := ((({} : Book 8 Nat).after .reserve).after (.giveBack (firstIdent .first)))
  have harena : b.arena = waiting Generation.first.next := rfl
  obtain ⟨hown, hwaiting, hhanded⟩ := own_rounds n harena
  rw [iterate_next_around hn] at hwaiting
  have hfirst : firstIdent .first ∈ b.handed := List.mem_singleton.mpr rfl
  refine ⟨Book.own_append.mpr ⟨⟨List.forall_mem_nil _, ?_, hown⟩, ?_, List.forall_mem_nil _,
    List.forall_mem_nil _, trivial⟩, ?_⟩
  · exact fun i hi => List.mem_singleton.mpr (List.mem_singleton.mp hi)
  · intro i hi
    rw [List.mem_singleton.mp hi]
    exact hhanded hfirst
  · rw [Book.run, around, List.foldl_append]
    simp only [List.foldl_cons, List.foldl_nil, Book.arena_after]
    rw [hwaiting]
    rfl

/-- When the generations have come around, the identifier that was handed out first is accepted while
it waits. Then two values are to be stored under the same identifier: the second one takes it from the
first, which cannot be removed any more, so that there is no walk and a sweep breaks. -/
theorem sweep_breaks_around :
    let calls := around (2 ^ 32 - 2)
    let even (v : Nat) : Bool := v % 2 = 0
    ({} : Book 8 Nat).Own calls ∧ (Book.run calls).arena.get? (firstIdent ⟨2⟩) = some 4 ∧
      (∀ seen b, ¬Sweeps even 0 (Book.run calls).arena seen b) ∧
      ((Book.run calls).arena.sweep fun v => .ok (even v)).answer = .error (.breach .notCurrent) := by
  intro calls even
  obtain ⟨hown, harena⟩ := run_around (n := 2 ^ 32 - 2) (by decide)
  refine ⟨hown, ?_⟩
  show (Book.run (around _)).arena.get? _ = _ ∧ (∀ seen b, ¬Sweeps even 0 (Book.run (around _)).arena
    seen b) ∧ ((Book.run (around _)).arena.sweep _).answer = _
  rw [harena]
  have hthere : robbed.identAt? 0 = some (firstIdent ⟨2⟩) := by decide
  have hfetch : robbed.fetch (firstIdent ⟨2⟩) = .ok 4 := rfl
  have hremove : (robbed.remove (firstIdent ⟨2⟩)).1 = .error (.breach .notCurrent) := rfl
  refine ⟨by decide, fun seen b h => ?_, by decide⟩
  cases h with
  | stop vacant => cases hthere.symm.trans vacant
  | pass there fetched stays rest =>
    obtain rfl := Option.some.inj (hthere.symm.trans there)
    obtain rfl := Except.ok.inj (hfetch.symm.trans fetched)
    cases stays
  | take there fetched leaves removed rest =>
    obtain rfl := Option.some.inj (hthere.symm.trans there)
    rw [removed] at hremove
    cases hremove

end Around

end EntityStore.Arena
