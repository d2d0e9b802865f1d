import EntityStore.Proofs.Lock.Listing
import EntityStore.Proofs.Lock.Stint

/-!
# Founding a group

A thread founds a group on locks that it adds or leaves alone, as often and in whatever order it
likes, and acquires it, while others do what they do. It is then one level deeper in each lock that
was added and never to be left alone, however deep it was before, and no deeper in any other.
-/
namespace EntityStore.LockGroup.Nest

open Routine

variable {me : Thread} {s s' : Nest} {name : Nat → String} {items : List (Nat × Bool)}

def found (s : Nest) (name : Nat → String) (items : List (Nat × Bool)) : Nest :=
  { s with books.groups := s.books.groups ++ [⟨named name items, ofList (named name items)⟩] }

theorem step_found (hdoing : s.doing = none) (h : ∀ i ∈ items, i.1 < s.crowd.bank.size) :
    s.Step me (s.found name items) :=
  .found (named name items) (lt_of_mem_named h) hdoing

theorem get?_found : (s.found name items).books.groups[s.books.groups.length]? =
    some ⟨named name items, ofList (named name items)⟩ := by
  simp [found]

/-- Apart from the new group the thread has entered what it had entered before. -/
theorem elsewhere_found :
    (s.found name items).books.elsewhere s.books.groups.length = s.books.total := by
  ext l
  simp [found, Books.elsewhere, Books.total, List.eraseIdx_append_of_length_le]

/-- What the thread has come to in `s'`, where it has acquired the group. -/
structure Acquired (me : Thread) (s : Nest) (name : Nat → String) (items : List (Nat × Bool))
    (s' : Nest) : Prop where
  members : ∃ o, s'.books.groups[s.books.groups.length]? = some o ∧
    Lists name items o.group.members ∧ ∀ m ∈ o.group.members, m.held = m.controlled
  depth_eq : ∀ l, s'.depth me l =
    s.depth me l + if (l, true) ∈ items ∧ (l, false) ∉ items then 1 else 0

theorem Done.acquired (hs : s.Accounted me) (hdoing : s.doing = none)
    (hdone : Done me (s.found name items) s' s.books.groups.length .enterAll
      ⟨named name items, ofList (named name items)⟩) :
    Acquired me s name items s' where
  members := by
    refine ⟨_, hdone.get?_eq, (lists_ofList name items).result _, fun m hm => ?_⟩
    obtain ⟨m, -, rfl⟩ := List.mem_map.mp hm
    rfl
  depth_eq l := by
    rw [hdone.depth_eq, elsewhere_found, hs.total_eq hdoing, Change.holds]
    by_cases hl : (l, true) ∈ items ∧ (l, false) ∉ items
    · rw [if_pos hl, (controls_named l).mpr hl]
      rfl
    · rw [if_neg hl, Bool.eq_false_iff.mpr (mt (controls_named l).mp hl)]
      rfl

/-- The group has one member for each lock that is named, in ascending order, controlled unless the
lock was ever to be left alone: sorting and joining the items gives the same as enlisting them, and
neither their order nor their repetition matters. Then and after any calls, halving finds a lock
among the members if it was named. Acquiring the group never ends in a breach, does end if nobody
else has a lock that it controls, and makes the thread one level deeper in just these. -/
theorem founded_as_listed (name : Nat → String) (items : List (Nat × Bool)) :
    gathered name items = (ofList (named name items)).members ∧
    (∀ items', (∀ i, i ∈ items' ↔ i ∈ items) →
      ofList (named name items') = ofList (named name items)) ∧
    (∀ cs : List Change,
      let g := cs.foldl (fun g c => c.result g) (ofList (named name items))
      Lists name items g.members ∧ Located items g) ∧
    ∀ (me : Thread) (s : Nest), s.Reachable me → s.doing = none →
      (∀ i ∈ items, i.1 < s.crowd.bank.size) →
        let acquire := Task.change s.books.groups.length .enterAll
        s.Step me (s.found name items) ∧
        ((∀ l, (l, true) ∈ items → (l, false) ∉ items → (s.crowd.bank.get l).Available me) →
          ∃ s', Performs me acquire (s.found name items) s') ∧
        (∀ mid, Underway me acquire (s.found name items) mid →
          mid.doing ≠ some (acquire, .before (.done none))) ∧
        ∀ s', Performs me acquire (s.found name items) s' → Acquired me s name items s' := by
  refine ⟨gathered_eq name items, fun _ h => ofList_congr h, fun cs => ?_, ?_⟩
  · have hlists := (lists_ofList name items).results cs
    exact ⟨hlists, hlists.located⟩
  · intro me s hs hdoing h acquire
    have hstep : s.Step me (s.found name items) := step_found hdoing h
    have hfound := hs.step hstep
    refine ⟨hstep, fun ha => ?_, fun mid hmid => hmid.unbroken hfound, fun s' hs' => ?_⟩
    · apply exists_performs hfound hdoing get?_found
      intro l hl
      obtain ⟨hadded, hnever⟩ := (controls_named l).mp hl
      exact ha l hadded hnever
    · exact (hs'.done hfound get?_found).acquired (accounted hs) hdoing

/-- A thread that has entered the second of three locks adds this one twice, and the third one both
as added and as to be left alone. -/
theorem founded_as_listed_mixed : ∃ s s' : Nest, ∃ items : List (Nat × Bool),
    items = [(1, true), (2, true), (0, true), (2, false), (1, true)] ∧
    s.Reachable 0 ∧ s.doing = none ∧ (∀ i ∈ items, i.1 < s.crowd.bank.size) ∧
    (gathered toString items).map (·.lock) = [0, 1, 2] ∧
    (position? (ofList (named toString items)).members 2).isSome = true ∧
    ofList (named toString [(0, true), (1, true), (2, false), (2, true)]) =
      ofList (named toString items) ∧
    Performs 0 (.change 0 .enterAll) (s.found toString items) s' ∧
    s'.depth 0 0 = s.depth 0 0 + 1 ∧ s'.depth 0 1 = s.depth 0 1 + 1 ∧
    s'.depth 0 2 = s.depth 0 2 := by
  have h : Reachable 0
      { crowd := { bank := ⟨#[{ name := "a" }, { name := "b" }, { name := "c" }]⟩ } } :=
    .start (by decide)
  have h := h.perform rfl (.enter 1) (Nat.succ_lt_succ Nat.two_pos) rfl
  obtain ⟨hgathered, hsame, hcalls, hacquires⟩ :=
    founded_as_listed toString [(1, true), (2, true), (0, true), (2, false), (1, true)]
  obtain ⟨hstep, -, -, hacquired⟩ := hacquires 0 _ h rfl (by decide)
  obtain ⟨hperforms, -⟩ := (h.step hstep).performs rfl (.change 0 .enterAll) trivial rfl
  have hdepth := (hacquired _ hperforms).depth_eq
  refine ⟨_, _, _, rfl, h, rfl, by decide, ?_, ?_, ?_, hperforms, hdepth 0, hdepth 1, hdepth 2⟩
  · rw [hgathered]
    rfl
  · exact ((hcalls []).2.isSome_iff 2).mpr (by decide)
  · exact hsame _ (by grind)

end EntityStore.LockGroup.Nest
