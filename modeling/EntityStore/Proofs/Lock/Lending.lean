import EntityStore.Proofs.Lock.Change
import EntityStore.Proofs.Lock.Ownership

/-!
# Lending contents

The contents behind a lock are lent out just as long as a guard is kept on it, to one guard at a
time: calls on locks neither lend them nor give them back, whoever is refused them changes nothing
about that, and a guard gives back its own. A routine whose calls are on locks of a bank goes on in
the bank, whether it is answered or sleeps.
-/
namespace EntityStore

namespace Lock

variable {l : Lock} {me : Thread}

theorem lent_of_leave {l' : Lock} (h : l.leave me = .ok l') : l'.lent = l.lent := by
  cases Passage.leave h <;> rfl

theorem lent_lend (me : Thread) (l : Lock) : (l.lend me).2.lent = true := by
  unfold lend
  split
  · next hlent =>
    split
    · next l' h => exact (lent_of_leave h).trans hlent
    · exact hlent
  · rfl

theorem lent_closeGuard (me : Thread) (l : Lock) : (l.closeGuard me).2.lent = false := by
  unfold closeGuard
  split
  · next l' h => exact lent_of_leave h
  · rfl

theorem lend_eq_ok_iff : (l.lend me).1 = .ok () ↔ l.lent = false := by
  unfold lend
  split
  · next hlent => split <;> simp [hlent]
  · next hlent => simpa using hlent

theorem Sound.lend (h : l.Sound) : (l.lend me).2.Sound := by
  unfold Lock.lend
  split
  · split
    · next l' hleave => exact (Passage.leave hleave).sound h
    · exact h
  · exact h

theorem Sound.closeGuard (h : l.Sound) : (l.closeGuard me).2.Sound := by
  unfold Lock.closeGuard
  split
  · next l' hleave =>
    have h' : ({ l with lent := false } : Lock).Sound := h
    exact (Passage.leave hleave).sound h'
  · exact h

end Lock

namespace Bank

variable {b b' b'' : Bank} {l k : Nat} {L : Lock} {me : Thread}

/-- Calls on locks have led from one bank to the other, and nothing has been lent or given back. -/
structure Passes (b b' : Bank) : Prop where
  size_eq : b'.size = b.size
  lent_eq : ∀ l, (b'.get l).lent = (b.get l).lent
  sound : (∀ l, (b.get l).Sound) → ∀ l, (b'.get l).Sound

theorem Passes.refl (b : Bank) : b.Passes b := ⟨rfl, fun _ => rfl, id⟩

theorem Passes.trans (h : b.Passes b') (h' : b'.Passes b'') : b.Passes b'' :=
  ⟨h'.size_eq.trans h.size_eq, fun l => (h'.lent_eq l).trans (h.lent_eq l), h'.sound ∘ h.sound⟩

theorem set_of_size_le (h : b.size ≤ l) : b.set l L = b := by
  have hl : ¬l < b.locks.size := Nat.not_lt.mpr h
  rw [set, Array.setIfInBounds, dif_neg hl]

theorem lent_set (hl : l < b.size) :
    ((b.set l L).get k).lent = if k = l then L.lent else (b.get k).lent := by
  split
  · next hk => rw [hk, get_set_self hl]
  · next hk => rw [get_set_ne L (Ne.symm hk)]

theorem lent_on {α : Type} {call : Lock → α × Lock} (hl : l < b.size) :
    ((b.on l call).2.get k).lent = if k = l then (call (b.get l)).2.lent else (b.get k).lent :=
  lent_set hl

theorem sound_set (h : ∀ l, (b.get l).Sound) (hL : L.Sound) (k : Nat) :
    ((b.set l L).get k).Sound := by
  by_cases hk : k = l
  · subst hk
    by_cases hlt : k < b.size
    · rwa [get_set_self hlt]
    · rw [set_of_size_le (Nat.le_of_not_lt hlt)]
      exact h k
  · rw [get_set_ne L (Ne.symm hk)]
    exact h k

theorem lt_size_of_lent (h : (b.get l).lent = true) : l < b.size := by
  by_contra hge
  rw [get_of_size_le (Nat.le_of_not_lt hge)] at h
  cases h

theorem Passes.of_passage {deed : Lock.Deed} (h : (b.get l).Passage me deed L) :
    b.Passes (b.set l L) where
  size_eq := b.size_set l L
  lent_eq k := by
    by_cases hl : l < b.size
    · rw [lent_set hl]
      split
      · next hk => cases h <;> rw [hk]
      · rfl
    · rw [set_of_size_le (Nat.le_of_not_lt hl)]
  sound hb := sound_set hb (h.sound (hb l))

theorem Passes.of_on {call : Lock → Bool × Lock} {ok : Bool}
    (hcall : ∀ L : Lock, L.Passage me (if (call L).1 then .took else .nothing) (call L).2)
    (h : b.on l call = (ok, b')) : b.Passes b' := by
  obtain rfl : b.set l (call (b.get l)).2 = b' := congrArg Prod.snd h
  exact .of_passage (hcall _)

/-- The contents behind a lock are lent out just when a guard is kept on it or it is one of some
extra locks, and never twice. Guards are known by their keys. -/
structure Lends {Key : Type} (b : Bank) (guards : List (Key × Nat)) (extra : List Nat) : Prop where
  sound : ∀ l, (b.get l).Sound
  keys : (guards.map (·.1)).Nodup
  locks : (extra ++ guards.map (·.2)).Nodup
  lent_iff : ∀ l, (b.get l).lent = true ↔ l ∈ extra ++ guards.map (·.2)

namespace Lends

variable {Key : Type} {guards guards' : List (Key × Nat)} {extra extra' : List Nat}

theorem passes (h : b.Lends guards extra) (hb : b.Passes b') : b'.Lends guards extra :=
  ⟨hb.sound h.sound, h.keys, h.locks, fun l => by rw [hb.lent_eq]; exact h.lent_iff l⟩

theorem lend (h : b.Lends guards extra) (hl : l < b.size)
    (heq : b.on l (Lock.lend me) = (.ok (), b')) : b'.Lends guards (l :: extra) := by
  have hlent := Lock.lend_eq_ok_iff.mp (congrArg Prod.fst heq)
  obtain rfl : (b.on l (Lock.lend me)).2 = b' := congrArg Prod.snd heq
  refine ⟨sound_set h.sound (h.sound l).lend, h.keys, List.nodup_cons.mpr ⟨fun hin => ?_,
    h.locks⟩, fun k => ?_⟩
  · simp [(h.lent_iff l).mpr hin] at hlent
  · rw [lent_on hl, List.cons_append, List.mem_cons, ← h.lent_iff k]
    split
    · next hk => simp [hk, Lock.lent_lend]
    · next hk => simp [hk]

/-- Who is refused the contents leaves them with whoever has them. -/
theorem refuse {f : Failure} (h : b.Lends guards extra)
    (heq : b.on l (Lock.lend me) = (.error f, b')) : b'.Lends guards extra := by
  have hlent : (b.get l).lent = true := by
    by_contra hne
    have hok : (Lock.lend me (b.get l)).1 = .ok () := Lock.lend_eq_ok_iff.mpr (by simpa using hne)
    rw [show (Lock.lend me (b.get l)).1 = .error f from congrArg Prod.fst heq] at hok
    cases hok
  obtain rfl : (b.on l (Lock.lend me)).2 = b' := congrArg Prod.snd heq
  refine ⟨sound_set h.sound (h.sound l).lend, h.keys, h.locks, fun k => ?_⟩
  rw [lent_on (lt_size_of_lent hlent), ← h.lent_iff k]
  split
  · next hk => simp [hk, Lock.lent_lend, hlent]
  · rfl

/-- The contents of one lock are given back. -/
theorem close (h : b.Lends guards extra) (hl : l ∈ extra ++ guards.map (·.2))
    (hsub : guards'.Sublist guards) (hlocks : (extra' ++ guards'.map (·.2)).Nodup)
    (hmem : ∀ k, k ∈ extra' ++ guards'.map (·.2) ↔ k ∈ extra ++ guards.map (·.2) ∧ k ≠ l)
    (me : Thread) : (b.on l (Lock.closeGuard me)).2.Lends guards' extra' := by
  refine ⟨sound_set h.sound (h.sound l).closeGuard, h.keys.sublist (hsub.map _), hlocks,
    fun k => ?_⟩
  rw [lent_on (lt_size_of_lent ((h.lent_iff l).mpr hl)), hmem, ← h.lent_iff k]
  split
  · next hk => simp [hk, Lock.lent_closeGuard]
  · next hk => simp [hk]

/-- What is not lent to a guard is given back. -/
theorem give_back (h : b.Lends guards (l :: extra)) (me : Thread) :
    (b.on l (Lock.closeGuard me)).2.Lends guards extra := by
  obtain ⟨hnotin, hlocks⟩ := List.nodup_cons.mp h.locks
  refine h.close (List.mem_append_left _ List.mem_cons_self) (List.Sublist.refl _) hlocks
    (fun k => ⟨fun hk => ⟨List.mem_cons_of_mem _ hk, ?_⟩, fun hk => ?_⟩) me
  · rintro rfl
    exact hnotin hk
  · exact (List.mem_cons.mp hk.1).resolve_left hk.2

/-- One guard is given back, and no other. -/
theorem forget [DecidableEq Key] {key : Key} (h : b.Lends guards extra) (hin : (key, l) ∈ guards)
    (me : Thread) : (b.on l (Lock.closeGuard me)).2.Lends (guards.filter (·.1 ≠ key)) extra := by
  obtain ⟨-, hlocks, hdisjoint⟩ := List.nodup_append'.mp h.locks
  -- the keys tell the guards apart, and so do the locks
  have hiff : ∀ g ∈ guards, g.1 = key ↔ g.2 = l := fun g hg =>
    ⟨fun hk => congrArg Prod.snd (List.inj_on_of_nodup_map h.keys hg hin hk),
      fun hk => congrArg Prod.fst (List.inj_on_of_nodup_map hlocks hg hin hk)⟩
  have hsub : (guards.filter (·.1 ≠ key)).Sublist guards := List.filter_sublist
  have hl : l ∈ guards.map (·.2) := List.mem_map_of_mem hin
  refine h.close (List.mem_append_right _ hl) hsub (h.locks.sublist ((hsub.map _).append_left _))
    (fun k => ?_) me
  have hextra : k ∈ extra → k ≠ l := fun hk he => hdisjoint (he ▸ hk) hl
  simp only [List.mem_append, List.mem_map, List.mem_filter, decide_not, Bool.not_eq_eq_eq_not,
    Bool.not_true, decide_eq_false_iff_not]
  constructor
  · rintro (hk | ⟨g, ⟨hg, hne⟩, rfl⟩)
    · exact ⟨.inl hk, hextra hk⟩
    · exact ⟨.inr ⟨g, hg, rfl⟩, fun he => hne ((hiff g hg).mpr he)⟩
  · rintro ⟨hk | ⟨g, hg, rfl⟩, hne⟩
    · exact .inl hk
    · exact .inr ⟨g, ⟨hg, fun he => hne ((hiff g hg).mp he)⟩, rfl⟩

theorem keep {key : Key} (h : b.Lends guards [l]) (hfresh : key ∉ guards.map (·.1)) :
    b.Lends ((key, l) :: guards) [] :=
  ⟨h.sound, List.nodup_cons.mpr ⟨hfresh, h.keys⟩, h.locks, h.lent_iff⟩

end Lends

end Bank

namespace Routine

variable {α : Type} {enters leaves : Nat → Prop} {post : α → Prop}

theorem advance_passes (me : Thread) (r : Routine α) (b : Bank) :
    b.Passes (r.advance me b).2.1 := by
  induction r generalizing b with
  | done a => exact .refl b
  | enter l next ih =>
    simp only [advance]
    split
    · next b' h => exact (Bank.Passes.of_on (.enter me) h).trans (ih b')
    · next b' h => exact .of_on (.enter me) h
  | tryEnter l next ih => exact (Bank.Passes.of_on (.tryEnter me) rfl).trans (ih _ _)
  | leave l next ih =>
    simp only [advance]
    split
    · next lock h => exact (Bank.Passes.of_passage (.leave h)).trans (ih true _)
    · exact ih false b
  | note n next ih => exact ih b

def Standing.Confined (enters leaves : Nat → Prop) (post : α → Prop) : Standing α → Prop
  | finished a => post a
  | waiting l _ next => enters l ∧ next.Confined enters leaves post

theorem Confined.advance {r : Routine α} (h : r.Confined enters leaves post) (me : Thread)
    (b : Bank) : (r.advance me b).1.Confined enters leaves post := by
  induction r generalizing b with
  | done a => exact h
  | enter l next ih =>
    simp only [Routine.advance]
    split
    · exact ih h.2 _
    · exact h
  | tryEnter l next ih => exact ih _ (h.2 _) _
  | leave l next ih =>
    simp only [Routine.advance]
    split
    · exact ih true (h.2 true) _
    · exact ih false (h.2 false) _
  | note n next ih => exact ih h b

end Routine

namespace LockGroup

def Within (n : Nat) (g : LockGroup) : Prop := ∀ m ∈ g.members, m.lock < n

variable {n : Nat} {g : LockGroup}

theorem Within.of_drawn {g' : LockGroup} (h : g.Within n) (hd : Drawn g'.members g.members) :
    g'.Within n := by
  intro m hm
  obtain ⟨k, hk, hl, -⟩ := hd m hm
  exact hl ▸ h k hk

/-- A call on a group whose locks are in the bank stays in the bank. -/
theorem Within.confined (h : g.Within n) (c : Change) :
    (c.call g).Confined (· < n) (· < n) fun r => r.1.Within n := by
  have hleave : ∀ chosen, (g.leaveWhere chosen).Confined (· < n) (· < n) fun r => r.1.Within n :=
    fun chosen => (confined_leaveWhere fun m hm _ _ => h m hm).mono fun _ hd => h.of_drawn hd
  have henter : ∀ chosen, (g.enterWhere chosen).Confined (· < n) (· < n) fun r => r.1.Within n :=
    fun chosen => (confined_enterWhere fun m hm _ _ => ⟨h m hm, h m hm⟩).mono
      fun _ hd => h.of_drawn hd
  cases c with
  | leaveOnly ls => exact hleave _
  | release => exact hleave _
  | enterOnly ls => exact henter _
  | enterAll => exact henter _
  | endWindow =>
    exact (confined_endWindow fun m hm _ => ⟨h m hm, h m hm⟩).mono fun _ hd => h.of_drawn hd

end LockGroup

end EntityStore
