import EntityStore.Lock.Contention
import Mathlib.Data.List.DropRight
import Mathlib.Data.List.Nodup
import Mathlib.Tactic.TFAE

/-!
# Reports of contention

What is reported of the waits for one lock, told by the waits alone. A row is a run of slow waits that
begins at the start, after a wait that was not slow, or after a report. The wait that makes a row long
enough is reported, together with the slow waits that came before it since the last report, as many as
are kept. These need not be of the row: a wait that is not slow ends the row, but the slow waits before
it are still kept.
-/
namespace EntityStore.Lock

namespace Watch

/-- How many slow waits in a row are reported. -/
def limit (w : Watch) : Nat := max 1 w.consecutive

def room (w : Watch) : Nat := max 1 w.chain

theorem limit_pos (w : Watch) : 0 < w.limit := Nat.le_max_left ..

theorem room_pos (w : Watch) : 0 < w.room := Nat.le_max_left ..

end Watch

namespace Contention

variable {w : Watch} {ws : List Wait} {c : Contention} {x : Wait} {r : List Wait} {k m n p : Nat}

def after (w : Watch) (ws : List Wait) : Contention := ws.foldl (fun c x => (c.record w x).2) {}

/-- What is reported at the end of the wait number `n`. -/
def report? (w : Watch) (ws : List Wait) (n : Nat) : Option (List Wait) :=
  ws[n]?.bind fun x => ((after w (ws.take n)).record w x).1

def SlowAt (w : Watch) (ws : List Wait) (n : Nat) : Prop := ∃ x ∈ ws[n]?, w.threshold ≤ x.nanos

instance : Decidable (SlowAt w ws n) := inferInstanceAs (Decidable (∃ x ∈ ws[n]?, _))

/-- The waits from `m` up to `n`, this one not included, are a row that was not reported yet. -/
structure Row (w : Watch) (ws : List Wait) (m n : Nat) : Prop where
  le : m ≤ n
  slow : ∀ k, m ≤ k → k < n → SlowAt w ws k
  unreported : ∀ k, m ≤ k → k < n → report? w ws k = none
  begins : m = 0 ∨ ¬SlowAt w ws (m - 1) ∨ (report? w ws (m - 1)).isSome

/-- The slow waits before `n` since the last report. -/
def pending (w : Watch) (ws : List Wait) (n : Nat) : List Nat :=
  (List.range n).filter fun k => SlowAt w ws k ∧ ∀ j < n, k ≤ j → report? w ws j = none

/-- The waits that a report at `n` is about. -/
def sampled (w : Watch) (ws : List Wait) (n : Nat) : List Nat :=
  (pending w ws n ++ [n]).rtake w.room

theorem slowAt_iff (hx : ws[n]? = some x) : SlowAt w ws n ↔ w.threshold ≤ x.nanos := by
  simp [SlowAt, hx]

theorem report?_eq (hx : ws[n]? = some x) :
    report? w ws n = ((after w (ws.take n)).record w x).1 := by
  simp [report?, hx]

theorem after_take_succ (hx : ws[n]? = some x) :
    after w (ws.take (n + 1)) = ((after w (ws.take n)).record w x).2 := by
  simp [after, List.take_add_one, hx]

theorem record_fast (c : Contention) (h : x.nanos < w.threshold) :
    c.record w x = (none, { c with streak := 0 }) := if_pos h

theorem record_slow (c : Contention) (h : w.threshold ≤ x.nanos) : c.record w x =
    if c.streak + 1 < w.limit then (none, ⟨keep w c.chain x, c.streak + 1⟩)
    else (some (keep w c.chain x), {}) := by
  have hlimit : c.streak + 1 < w.consecutive ↔ c.streak + 1 < w.limit := by
    simp only [Watch.limit]
    omega
  simp only [record, if_neg (Nat.not_lt.mpr h), hlimit]

/-- Of the waits kept and one more, those are kept that there is room for. -/
theorem keep_eq {chain : List Wait} (h : chain.length ≤ w.room) (x : Wait) :
    keep w chain x = (chain ++ [x]).rtake w.room := by
  have hroom : max w.chain 1 = w.room := Nat.max_comm ..
  simp only [keep, hroom, List.rtake, List.length_append, List.length_singleton]
  split
  · next hfull =>
    have hone : chain.length + 1 - w.room = 1 := by omega
    rw [hone, List.drop_append_of_le_length (w.room_pos.trans_le hfull), List.drop_one]
  · next hspace =>
    have hzero : chain.length + 1 - w.room = 0 := by omega
    rw [hzero, List.drop_zero]

theorem length_rtake {α : Type} (l : List α) (n : Nat) :
    (l.rtake n).length = min n l.length := by
  simp only [List.rtake, List.length_drop]
  omega

theorem map_rtake {α β : Type} (f : α → β) (l : List α) (n : Nat) :
    (l.rtake n).map f = (l.map f).rtake n := by
  simp [List.rtake, List.map_drop]

/-- What has no room now has none later. -/
theorem rtake_rtake_append_singleton {α : Type} (l : List α) (a : α) (n : Nat) :
    (l.rtake n ++ [a]).rtake n = (l ++ [a]).rtake n := by
  cases n with
  | zero => simp
  | succ n =>
    rw [List.rtake_concat_succ, List.rtake_concat_succ]
    simp only [List.rtake_eq_reverse_take_reverse, List.reverse_reverse, List.take_take]
    simp

theorem pending_of_reported (h : (report? w ws n).isSome) : pending w ws (n + 1) = [] := by
  apply List.filter_eq_nil_iff.mpr
  simp only [List.mem_range, decide_eq_true_eq, not_and]
  intro k hk _ hnone
  rw [hnone n (Nat.lt_succ_self n) (by omega)] at h
  cases h

theorem pending_of_unreported (h : report? w ws n = none) :
    pending w ws (n + 1) = pending w ws n ++ if SlowAt w ws n then [n] else [] := by
  have hbefore : ∀ k, (∀ j < n + 1, k ≤ j → report? w ws j = none) ↔
      ∀ j < n, k ≤ j → report? w ws j = none := by
    intro k
    refine ⟨fun hall j hj => hall j (Nat.lt_succ_of_lt hj), fun hall j hj hkj => ?_⟩
    rcases Nat.lt_succ_iff_lt_or_eq.mp hj with hj | rfl
    · exact hall j hj hkj
    · exact h
  have hlast : ∀ j < n, n ≤ j → report? w ws j = none := fun j hj hnj => absurd hj (by omega)
  simp only [pending, List.range_succ, List.filter_append, hbefore]
  congr 1
  by_cases hslow : SlowAt w ws n
  · simpa [hslow] using hlast
  · simp [hslow]

theorem mem_pending_iff : p ∈ pending w ws n ↔
    p < n ∧ SlowAt w ws p ∧ ∀ j < n, p ≤ j → report? w ws j = none := by
  simp [pending]

/-- There is one row that leads up to a wait. -/
theorem Row.unique {m' : Nat} (h : Row w ws m n) (h' : Row w ws m' n) : m = m' := by
  suffices hle : ∀ {a b}, Row w ws a n → Row w ws b n → b ≤ a from
    Nat.le_antisymm (hle h' h) (hle h h')
  intro a b ha hb
  by_contra hlt
  -- the wait before the later beginning is in the other row
  rcases hb.begins with hzero | hfast | hreported
  · omega
  · exact hfast (ha.slow _ (by omega) (by have := hb.le; omega))
  · rw [ha.unreported _ (by omega) (by have := hb.le; omega)] at hreported
    cases hreported

/-- A row begins anew after a wait that was not slow, or was reported. -/
theorem Row.anew (h : ¬SlowAt w ws n ∨ (report? w ws n).isSome) : Row w ws (n + 1) (n + 1) :=
  ⟨Nat.le_refl _, fun k hk hk' => absurd hk (by omega), fun k hk hk' => absurd hk (by omega),
    .inr (by simpa using h)⟩

theorem Row.longer (h : Row w ws m n) (hslow : SlowAt w ws n) (hnone : report? w ws n = none) :
    Row w ws m (n + 1) := by
  refine ⟨Nat.le_succ_of_le h.le, fun k hk hkn => ?_, fun k hk hkn => ?_, h.begins⟩ <;>
    rcases Nat.lt_succ_iff_lt_or_eq.mp hkn with hkn | rfl
  · exact h.slow k hk hkn
  · exact hslow
  · exact h.unreported k hk hkn
  · exact hnone

/-- What is remembered after `n` waits: how long the row is that they end in, and the slow waits
since the last report. -/
structure Tracks (w : Watch) (ws : List Wait) (n : Nat) (c : Contention) : Prop where
  row : Row w ws (n - c.streak) n
  le : c.streak ≤ n
  lt : c.streak < w.limit
  chain : c.chain.map some = ((pending w ws n).rtake w.room).map (ws[·]?)

theorem Tracks.start : Tracks w ws 0 {} :=
  ⟨⟨Nat.le_refl _, nofun, nofun, .inl rfl⟩, Nat.le_refl _, w.limit_pos, by simp [pending]⟩

theorem Tracks.keep (h : Tracks w ws n c) (hx : ws[n]? = some x) :
    (keep w c.chain x).map some = (sampled w ws n).map (ws[·]?) := by
  have hlen : c.chain.length ≤ w.room := by
    rw [← List.length_map (f := some), h.chain, List.length_map]
    exact (length_rtake ..).trans_le (Nat.min_le_left ..)
  rw [keep_eq hlen, map_rtake, List.map_append, h.chain, map_rtake, List.map_singleton, ← hx,
    rtake_rtake_append_singleton, sampled, map_rtake, List.map_append]
  rfl

/-- A wait is reported exactly if it makes its row long enough. -/
theorem Tracks.step (h : Tracks w ws n c) (hc : c = after w (ws.take n)) (hx : ws[n]? = some x) :
    Tracks w ws (n + 1) (c.record w x).2 ∧
      ((report? w ws n).isSome ↔ SlowAt w ws n ∧ c.streak + 1 = w.limit) ∧
      ∀ r, report? w ws n = some r → r.map some = (sampled w ws n).map (ws[·]?) := by
  have hreport : report? w ws n = (c.record w x).1 := hc ▸ report?_eq hx
  have hslow : SlowAt w ws n ↔ w.threshold ≤ x.nanos := slowAt_iff hx
  rcases Nat.lt_or_ge x.nanos w.threshold with hfast | hge
  · have hnot : ¬SlowAt w ws n := by rw [hslow]; omega
    rw [record_fast c hfast] at hreport ⊢
    refine ⟨⟨.anew (.inl hnot), Nat.zero_le _, w.limit_pos, ?_⟩, by simp [hreport, hnot],
      by simp [hreport]⟩
    rw [pending_of_unreported hreport, if_neg hnot, List.append_nil]
    exact h.chain
  · have hyes := hslow.mpr hge
    have hle := h.lt
    rw [record_slow c hge] at hreport ⊢
    split at hreport
    · next hshort =>
      rw [if_pos hshort]
      refine ⟨⟨?_, Nat.succ_le_succ h.le, hshort, ?_⟩, ?_, by simp [hreport]⟩
      · rw [Nat.add_sub_add_right]
        exact h.row.longer hyes hreport
      · rw [h.keep hx, pending_of_unreported hreport, if_pos hyes]
        rfl
      · simp only [hreport, Option.isSome_none, Bool.false_eq_true, false_iff]
        omega
    · next hlong =>
      rw [if_neg hlong]
      have hsome : (report? w ws n).isSome := by simp [hreport]
      refine ⟨⟨.anew (.inr hsome), Nat.zero_le _, w.limit_pos, ?_⟩, ?_, fun r hr => ?_⟩
      · rw [pending_of_reported hsome]
        simp
      · simp only [hsome, hyes, true_and, true_iff]
        omega
      · obtain rfl := Option.some.inj (hreport.symm.trans hr)
        exact h.keep hx

theorem tracks_after (w : Watch) {ws : List Wait} {n : Nat} (hn : n ≤ ws.length) :
    Tracks w ws n (after w (ws.take n)) := by
  induction n with
  | zero => exact .start
  | succ n ih =>
    have hx : ws[n]? = some ws[n] := List.getElem?_eq_getElem hn
    rw [after_take_succ hx]
    exact ((ih (Nat.le_of_succ_le hn)).step rfl hx).1

theorem exists_row (w : Watch) (hn : n ≤ ws.length) : ∃ m, Row w ws m n :=
  ⟨_, (tracks_after w hn).row⟩

/-- A row is too short to be reported, and the next wait is reported exactly if it makes it long
enough. -/
theorem Row.isSome_iff (h : Row w ws m n) (hn : n < ws.length) : n - m < w.limit ∧
    ((report? w ws n).isSome ↔ SlowAt w ws n ∧ n - m + 1 = w.limit) := by
  have htracks := tracks_after w (Nat.le_of_lt hn)
  rw [h.unique htracks.row, Nat.sub_sub_self htracks.le]
  exact ⟨htracks.lt, (htracks.step rfl (List.getElem?_eq_getElem hn)).2.1⟩

theorem lt_of_reported (h : report? w ws n = some r) : n < ws.length := by
  by_contra hge
  simp [report?, List.getElem?_eq_none (Nat.not_lt.mp hge)] at h

theorem map_some_reported (h : report? w ws n = some r) :
    r.map some = (sampled w ws n).map (ws[·]?) := by
  have hn := lt_of_reported h
  exact ((tracks_after w hn.le).step rfl (List.getElem?_eq_getElem hn)).2.2 r h

/-- What is pending before a wait ends in the row that leads up to it. -/
theorem Row.exists_pending (h : Row w ws m n) :
    ∃ earlier, pending w ws n = earlier ++ List.range' m (n - m) ∧ ∀ p ∈ earlier, p < m := by
  have hsplit : List.range n = List.range m ++ List.range' m (n - m) := by
    rw [List.range'_eq_map_range, ← List.range_add, Nat.add_sub_cancel' h.le]
  have hrow : ∀ k ∈ List.range' m (n - m), SlowAt w ws k ∧
      ∀ j < n, k ≤ j → report? w ws j = none := by
    intro k hk
    rw [List.mem_range'_1] at hk
    exact ⟨h.slow k hk.1 (by omega), fun j hj hkj => h.unreported j (by omega) hj⟩
  refine ⟨_, by rw [pending, hsplit, List.filter_append,
    List.filter_eq_self.mpr fun k hk => decide_eq_true (hrow k hk)], fun p hp => ?_⟩
  exact List.mem_range.mp (List.mem_filter.mp hp).1

/-- The samples are the row with the triggering wait, after what is left of the slow waits that came
before the row. -/
theorem Row.exists_sampled (h : Row w ws m n) : ∃ earlier,
    pending w ws n = earlier ++ List.range' m (n - m) ∧ (∀ p ∈ earlier, p < m) ∧
      sampled w ws n = (earlier ++ List.range' m (n - m + 1)).rtake w.room := by
  obtain ⟨earlier, heq, hlt⟩ := h.exists_pending
  refine ⟨earlier, heq, hlt, ?_⟩
  rw [sampled, heq, List.append_assoc, List.range'_1_concat, Nat.add_sub_cancel' h.le]

theorem mem_sampled (h : p ∈ sampled w ws n) : p ∈ pending w ws n ∨ p = n := by
  simpa using List.mem_of_mem_drop h

theorem pairwise_sampled : (sampled w ws n).Pairwise (· < ·) := by
  refine List.Pairwise.sublist (List.drop_sublist ..) (List.pairwise_append.mpr ⟨?_, ?_, ?_⟩)
  · exact List.pairwise_lt_range.filter _
  · exact List.pairwise_singleton ..
  · intro p hp q hq
    rw [List.mem_singleton] at hq
    exact hq ▸ (mem_pending_iff.mp hp).1

theorem getLast?_sampled : (sampled w ws n).getLast? = some n := by
  rw [sampled, ← Nat.sub_add_cancel w.room_pos, List.rtake_concat_succ, List.getLast?_concat]

/-- What was sampled earlier is not sampled again. -/
theorem disjoint_sampled (hk : k < n) (hreport : (report? w ws k).isSome) :
    (sampled w ws k).Disjoint (sampled w ws n) := by
  intro p hp hp'
  have hle : p ≤ k := (mem_sampled hp).elim (fun h => (mem_pending_iff.mp h).1.le) (·.le)
  rcases mem_sampled hp' with hp' | rfl
  · rw [(mem_pending_iff.mp hp').2.2 k hk hle] at hreport
    cases hreport
  · omega

/-- What the wait number `n` publishes. -/
structure Published (w : Watch) (ws : List Wait) (n : Nat) : Prop where
  exists_row : ∃ m, Row w ws m n
  lt : ∀ m, Row w ws m n → n - m < w.limit
  /-- A report is published when the row has grown long enough. -/
  isSome_iff : ∀ m, Row w ws m n →
    ((report? w ws n).isSome ↔ SlowAt w ws n ∧ n - m + 1 = w.limit)
  /-- The report has the waits that are sampled. -/
  samples : ∀ r, report? w ws n = some r → r.map some = (sampled w ws n).map (ws[·]?)
  slow : (report? w ws n).isSome → ∀ p ∈ sampled w ws n, SlowAt w ws p
  pairwise : (sampled w ws n).Pairwise (· < ·)
  getLast : (sampled w ws n).getLast? = some n
  length_le : (sampled w ws n).length ≤ w.room
  le_length : (report? w ws n).isSome → min w.limit w.room ≤ (sampled w ws n).length
  /-- No wait is in two reports. -/
  disjoint : ∀ k < n, (report? w ws k).isSome → (sampled w ws k).Disjoint (sampled w ws n)

/-- A report comes when a row is long enough and not before. It ends with the wait that made the row
long enough, in the order of the waits, and no wait is reported twice. -/
theorem publishes_run (w : Watch) (ws : List Wait) {n : Nat} (hn : n < ws.length) :
    Published w ws n := by
  obtain ⟨m, hrow⟩ := exists_row w hn.le
  refine ⟨⟨m, hrow⟩, fun _ h => (h.isSome_iff hn).1, fun _ h => (h.isSome_iff hn).2,
    fun _ => map_some_reported, fun hreport p hp => ?_, pairwise_sampled, getLast?_sampled, ?_,
    fun hreport => ?_, fun k hk => disjoint_sampled hk⟩
  · rcases mem_sampled hp with hp | rfl
    · exact (mem_pending_iff.mp hp).2.1
    · exact ((hrow.isSome_iff hn).2.mp hreport).1
  · exact (length_rtake ..).trans_le (Nat.min_le_left ..)
  · obtain ⟨earlier, -, -, heq⟩ := hrow.exists_sampled
    have hlen := ((hrow.isSome_iff hn).2.mp hreport).2
    rw [heq, hlen, length_rtake, List.length_append, List.length_range']
    omega

/-- The second report is about a wait before the one that was not slow, which the row it ends does not
have. -/
theorem publishes_run_again :
    let w : Watch := { threshold := 5, consecutive := 2, chain := 3 }
    let ws : List Wait := [⟨none, 9⟩, ⟨some 1, 5⟩, ⟨some 2, 7⟩, ⟨some 1, 4⟩, ⟨none, 6⟩, ⟨some 3, 8⟩]
    (report? w ws 1).isSome ∧ report? w ws 5 = some [⟨some 2, 7⟩, ⟨none, 6⟩, ⟨some 3, 8⟩] ∧
      5 < ws.length ∧ Published w ws 5 :=
  ⟨by decide, by decide, by decide, publishes_run _ _ (by decide)⟩

/-- No wait that was not slow came after one of some waits and before the wait number `n`. -/
def Unbroken (w : Watch) (ws : List Wait) (n : Nat) (ps : List Nat) : Prop :=
  ∀ p ∈ ps, ∀ k, p < k → k < n → SlowAt w ws k

/-- Of the waits that may be reported, those of the row are the ones that nothing separates from the
report. -/
theorem Row.unbroken_iff (h : Row w ws m n) {ps : List Nat}
    (hps : ∀ p ∈ ps, p ∈ pending w ws n ∨ p = n) : Unbroken w ws n ps ↔ ∀ p ∈ ps, m ≤ p := by
  have hle := h.le
  refine ⟨fun hall p hp => ?_, fun hall p hp k hpk hkn => h.slow k ((hall p hp).trans hpk.le) hkn⟩
  by_contra hlt
  have hpending := mem_pending_iff.mp ((hps p hp).resolve_right (by omega))
  -- whatever the row begins after lies between the wait and the report
  rcases h.begins with hzero | hfast | hreported
  · omega
  · rcases Nat.eq_or_lt_of_le (show p ≤ m - 1 by omega) with rfl | hlt
    · exact hfast hpending.2.1
    · exact hfast (hall p hp _ hlt (by omega))
  · rw [hpending.2.2 (m - 1) (by omega) (by omega)] at hreported
    cases hreported

theorem forall_mem_append_iff {earlier later : List Nat} (h : ∀ p ∈ earlier, p < m)
    (h' : ∀ p ∈ later, m ≤ p) : (∀ p ∈ earlier ++ later, m ≤ p) ↔ earlier = [] := by
  refine ⟨fun hall => List.eq_nil_iff_forall_not_mem.mpr fun p hp => ?_, ?_⟩
  · exact absurd (hall p (List.mem_append_left _ hp)) (Nat.not_le.mpr (h p hp))
  · rintro rfl p hp
    exact h' p hp

/-- A report is about one row exactly if it has no more samples than make a row long enough. It has
more if there is room for more and a slow wait since the last report came before the row. -/
theorem unbroken_tfae (hr : report? w ws n = some r) :
    r.map some = (sampled w ws n).map (ws[·]?) ∧
      [Unbroken w ws n (sampled w ws n), r.length ≤ w.limit,
        w.room ≤ w.limit ∨ Unbroken w ws n (pending w ws n)].TFAE := by
  have hn := lt_of_reported hr
  have hmap := map_some_reported hr
  obtain ⟨m, hrow⟩ := exists_row w hn.le
  have hlen := ((hrow.isSome_iff hn).2.mp (Option.isSome_of_eq_some hr)).2
  obtain ⟨earlier, hpending, hearlier, hsampled⟩ := hrow.exists_sampled
  have hlater : ∀ l, ∀ p ∈ List.range' m l, m ≤ p := fun l p hp => (List.mem_range'_1.mp hp).1
  rw [hlen] at hsampled
  have hlength : r.length = min w.room (earlier.length + w.limit) := by
    rw [← List.length_map (f := some), hmap, List.length_map, hsampled, length_rtake,
      List.length_append, List.length_range']
  have hall : Unbroken w ws n (pending w ws n) ↔ earlier.length = 0 := by
    rw [hrow.unbroken_iff fun _ => .inl, hpending, forall_mem_append_iff hearlier (hlater _),
      List.length_eq_zero_iff]
  -- the samples leave out the oldest of the earlier waits
  have hsome : Unbroken w ws n (sampled w ws n) ↔
      earlier.length ≤ earlier.length + w.limit - w.room := by
    rw [hrow.unbroken_iff fun _ => mem_sampled, hsampled, List.rtake, List.drop_append,
      forall_mem_append_iff (fun p hp => hearlier p (List.mem_of_mem_drop hp))
        (fun p hp => hlater _ p (List.mem_of_mem_drop hp)),
      List.drop_eq_nil_iff, List.length_append, List.length_range']
  refine ⟨hmap, ?_⟩
  rw [hsome, hlength, hall]
  tfae_have 1 ↔ 2 := by omega
  tfae_have 2 ↔ 3 := by omega
  tfae_finish

/-- The wait that was not slow came between, but there is no room for the one before it. -/
theorem unbroken_tfae_full :
    let w : Watch := { threshold := 5, consecutive := 2, chain := 2 }
    let ws : List Wait := [⟨some 1, 9⟩, ⟨none, 4⟩, ⟨some 2, 7⟩, ⟨some 3, 6⟩]
    let r : List Wait := [⟨some 2, 7⟩, ⟨some 3, 6⟩]
    report? w ws 3 = some r ∧ r.map some = (sampled w ws 3).map (ws[·]?) ∧
      [Unbroken w ws 3 (sampled w ws 3), r.length ≤ w.limit,
        w.room ≤ w.limit ∨ Unbroken w ws 3 (pending w ws 3)].TFAE :=
  ⟨by decide, unbroken_tfae (by decide)⟩

/-- With more room, a report of two slow waits in a row has three samples, the first of them from
before a wait that was not slow. -/
theorem not_unbroken_reported : ¬∀ (w : Watch) (ws : List Wait) (n : Nat) (r : List Wait),
    report? w ws n = some r →
      ∀ x ∈ r, ∃ p ≤ n, ws[p]? = some x ∧ ∀ k, p ≤ k → k ≤ n → SlowAt w ws k := by
  intro hall
  obtain ⟨p, hpn, hp, hslow⟩ := hall { threshold := 5, consecutive := 2, chain := 16 }
    [⟨some 1, 9⟩, ⟨none, 4⟩, ⟨some 2, 7⟩, ⟨some 3, 6⟩] 3
    [⟨some 1, 9⟩, ⟨some 2, 7⟩, ⟨some 3, 6⟩] (by decide) ⟨some 1, 9⟩ (by decide)
  rcases (show p = 0 ∨ p = 1 ∨ p = 2 ∨ p = 3 by omega) with rfl | rfl | rfl | rfl
  · exact absurd (hslow 1 (by decide) (by decide)) (by decide)
  all_goals exact absurd hp (by decide)

end Contention

end EntityStore.Lock
