import EntityStore.Proofs.Lock.Stint

/-!
# Windows

For the time of a window a group is without some of its locks; then it is acquired again as a whole.
Whatever the thread and others do meanwhile, in the end the group holds every lock that it controls:
those that it held before the window, and also those that it had left before. So a window restores
the group that it was opened on only if this held all that it controls.
-/
namespace EntityStore.LockGroup.Nest

open Routine

variable {me : Thread} {s : Nest} {i : Nat} {o : Owned}

/-- The group `i` of `s` while a window is open in which it is without the locks `ls`. -/
structure Lacking (me : Thread) (s : Nest) (i : Nat) (o : Owned) (ls : List Nat) (opened : Nest) :
    Prop where
  group : ∃ o', opened.books.groups[i]? = some o' ∧ ∀ l,
    o'.group.controls l = o.group.controls l ∧ o'.group.holds l = (o.group.holds l && l ∉ ls)
  depth_eq : ∀ l, opened.depth me l =
    s.books.elsewhere i l + (o.group.holds l && l ∉ ls : Bool).toNat

/-- The group `i` of `s` after a window that ended in `closed`, from `closing` on, where it was the
group `j` of the thread. -/
structure Regained (me : Thread) (s : Nest) (i : Nat) (o : Owned) (closing : Nest) (j : Nat)
    (closed : Nest) : Prop where
  group : ∃ o', closed.books.groups[j]? = some o' ∧
    (∀ l, o'.group.controls l = o.group.controls l ∧ o'.group.holds l = o.group.controls l) ∧
    ((∀ l, o'.group.holds l = o.group.holds l) ↔
      ∀ l, o.group.controls l = true → o.group.holds l = true)
  depth_eq : ∀ l, closed.depth me l =
    closing.books.elsewhere j l + (o.group.controls l).toNat
  /-- A lock that was held, or is none of the group's, is as deep as before. -/
  kept : ∀ l, closing.books.elsewhere j l = s.books.elsewhere i l →
    o.group.holds l = true ∨ o.group.controls l = false → closed.depth me l = s.depth me l
  /-- A lock that the group controls and had left is one level deeper than before. -/
  gained : ∀ l, closing.books.elsewhere j l = s.books.elsewhere i l →
    o.group.holds l = false → o.group.controls l = true →
      closed.depth me l = s.depth me l + 1

theorem Done.lacking {ls : List Nat} {opened : Nest}
    (h : Done me s opened i (.leaveOnly ls) o) : Lacking me s i o ls opened := by
  refine ⟨⟨_, h.get?_eq, fun l => ⟨?_, ?_⟩⟩, h.depth_eq⟩
  · exact Change.controls_result _
  · exact Change.holds_result _

/-- What a window leaves behind is told by what the group controls, which the window does not
change. -/
theorem Done.regained {closing closed : Nest} {j : Nat} {o₁ : Owned}
    (hs : s.Accounted me) (hidle : s.doing = none) (hi : s.books.groups[i]? = some o)
    (hcontrols : ∀ l, o₁.group.controls l = o.group.controls l)
    (h : Done me closing closed j .endWindow o₁) :
    Regained me s i o closing j closed := by
  have hdepth := hs.depth_eq hidle i o hi
  have hheld := hs.controls_of_holds o (List.mem_of_getElem? hi)
  have hclosed : ∀ l, closed.depth me l =
      closing.books.elsewhere j l + (o.group.controls l).toNat := by
    intro l
    rw [h.depth_eq, ← hcontrols]
    rfl
  have hresult : ∀ l, (Change.endWindow.result o₁.group).holds l = o.group.controls l := by
    intro l
    rw [Change.holds_result, ← hcontrols]
    rfl
  refine ⟨⟨_, h.get?_eq, fun l => ⟨?_, hresult l⟩, ?_⟩, hclosed, ?_, ?_⟩
  · rw [Change.controls_result, hcontrols]
  · simp only [hresult]
    constructor
    · exact fun hall l hl => (hall l).symm.trans hl
    · intro hall l
      rw [Bool.eq_iff_iff]
      exact ⟨hall l, hheld l⟩
  · intro l he hl
    have hsame : o.group.controls l = o.group.holds l := by
      rcases hl with hl | hl
      · rw [hl, hheld l hl]
      · have hnot := mt (hheld l) (by simp [hl])
        rw [hl, Bool.eq_false_iff.mpr hnot]
    rw [hclosed, hdepth, he, hsame]
  · intro l he hl hc
    rw [hclosed, hdepth, he, hl, hc]
    rfl

/-- A window can always be opened, and the group is then without the locks named. Whatever happens
next, as long as the group is left alone, the window ends without a breach, and it does end if
nobody else has a lock of the group. In the end the group holds all that it controls. -/
theorem window_regains_whole (hs : s.Reachable me) (hidle : s.doing = none)
    (hi : s.books.groups[i]? = some o) (ls : List Nat) :
    (∃ opened, Performs me (.change i (.leaveOnly ls)) s opened) ∧
    ∀ opened, Performs me (.change i (.leaveOnly ls)) s opened → Lacking me s i o ls opened ∧
      ∀ closing j, Relation.ReflTransGen (Step me) opened closing → closing.doing = none →
        closing.books.groups[j]? = opened.books.groups[i]? →
        ((∀ l, o.group.controls l = true → (closing.crowd.bank.get l).Available me) →
          ∃ closed, Performs me (.change j .endWindow) closing closed) ∧
        (∀ mid, Underway me (.change j .endWindow) closing mid →
          mid.doing ≠ some (.change j .endWindow, .before (.done none))) ∧
        ∀ closed, Performs me (.change j .endWindow) closing closed →
          Regained me s i o closing j closed := by
  refine ⟨exists_performs hs hidle hi fun l hl => ?_, fun opened hopens => ?_⟩
  · cases hl
  have hopened := hopens.done hs hi
  refine ⟨hopened.lacking, fun closing j hbetween hclosing hj => ?_⟩
  have hreachable := hopened.reachable.steps hbetween
  rw [hopened.get?_eq] at hj
  have hcontrols : ∀ l, ((Change.leaveOnly ls).result o.group).controls l = o.group.controls l :=
    fun l => Change.controls_result _
  refine ⟨fun ha => ?_, fun mid hmid => hmid.unbroken hreachable, fun closed hcloses => ?_⟩
  · apply exists_performs hreachable hclosing hj
    intro l hl
    exact ha l ((hcontrols l).symm.trans hl)
  · exact (hcloses.done hreachable hj).regained (accounted hs) hidle hi hcontrols

/-- A group that had left one of its locks and was told to leave another alone, which the thread has
entered directly. While the window is open, the group founded before it is given up. -/
theorem window_regains_whole_nested : ∃ s opened closing closed : Nest, ∃ o : Owned,
    s.Reachable 0 ∧ s.doing = none ∧ s.books.groups[1]? = some o ∧
      Performs 0 (.change 1 (.leaveOnly [2])) s opened ∧ opened.Step 0 closing ∧
      Performs 0 (.change 0 .endWindow) closing closed ∧ Regained 0 s 1 o closing 0 closed ∧
      closed.depth 0 0 = s.depth 0 0 ∧ closed.depth 0 1 = s.depth 0 1 + 1 ∧
      closed.depth 0 2 = s.depth 0 2 := by
  have h : Reachable 0
      { crowd := { bank := ⟨#[{ name := "a" }, { name := "b" }, { name := "c" }]⟩ } } :=
    .start (by decide)
  have h := h.perform rfl (.enter 0) (Nat.zero_lt_succ 2) rfl
  have h := h.step (.found [] (by decide) rfl)
  have h := h.step (.found [(2, "c", true), (0, "a", false), (1, "b", true)] (by decide) rfl)
  have h := h.perform rfl (.change 1 .enterAll) trivial rfl
  have h := h.perform rfl (.change 1 (.leaveOnly [1])) trivial rfl
  obtain ⟨hopens, hopened⟩ := h.performs rfl (.change 1 (.leaveOnly [2])) trivial rfl
  have hclosing := hopened.step (.forget (i := 0) rfl (fun _ => rfl) rfl)
  obtain ⟨hcloses, -⟩ := hclosing.performs rfl (.change 0 .endWindow) trivial rfl
  have hwindow := ((window_regains_whole h rfl rfl [2]).2 _ hopens).2 _ 0
    (.single (.forget (i := 0) rfl (fun _ => rfl) rfl)) rfl rfl
  have hregained := hwindow.2.2 _ hcloses
  exact ⟨_, _, _, _, _, h, rfl, rfl, hopens, .forget (i := 0) rfl (fun _ => rfl) rfl, hcloses,
    hregained, hregained.kept 0 rfl (.inr rfl), hregained.gained 1 rfl rfl rfl,
    hregained.kept 2 rfl (.inl rfl)⟩

/-- A window does not restore a group that had left one of its locks before: two new locks, of which
the first is left and the second is let go for a window. -/
theorem window_regains_lock_left : ¬∀ (s opened closed : Nest) (i : Nat) (o : Owned)
    (ls : List Nat), s.Reachable 0 → s.doing = none → s.books.groups[i]? = some o →
    Performs 0 (.change i (.leaveOnly ls)) s opened →
    Performs 0 (.change i .endWindow) opened closed →
    ∃ o', closed.books.groups[i]? = some o' ∧
      ∀ l, o'.group.holds l = o.group.holds l ∧ closed.depth 0 l = s.depth 0 l := by
  intro hall
  have h : Reachable 0 { crowd := { bank := ⟨#[{ name := "a" }, { name := "b" }]⟩ } } :=
    .start (by decide)
  have h := h.step (.found [(0, "a", true), (1, "b", true)] (by decide) rfl)
  have h := h.perform rfl (.change 0 .enterAll) trivial rfl
  have h := h.perform rfl (.change 0 (.leaveOnly [0])) trivial rfl
  obtain ⟨hopens, hopened⟩ := h.performs rfl (.change 0 (.leaveOnly [1])) trivial rfl
  obtain ⟨hcloses, -⟩ := hopened.performs rfl (.change 0 .endWindow) trivial rfl
  obtain ⟨o', ho', hsame⟩ := hall _ _ _ 0 _ [1] h rfl rfl hopens hcloses
  cases ho'
  exact absurd (hsame 0).1 (by decide)

end EntityStore.LockGroup.Nest
