import EntityStore.Proofs.World.Stores

/-!
# While the locks of all tables are held

A group that has entered locks of the world stands over locks that are as they were, and deeper only
by what the group holds of them. So whatever is done meanwhile, and whichever locks the group leaves
and enters again, it is never refused one, and in the end every lock is as it was before.
-/
namespace EntityStore

open LockGroup (Formed Change weight)
open Run (left broke ending Mild)
open World (caller)

variable {K α β : Type} [Schema K] [DecidableEq K] {w : World K} {g : LockGroup} {b : Bank}
variable {T : Roster K → Entity → Prop} {I : Bool → World K → World K → Prop}
variable {s s' : LockGroup × World K}

/-- A group of a fit world whose locks, but for what the group holds, are those of a bank that `b`
has grown into. -/
structure Under (b : Bank) (s : LockGroup × World K) : Prop where
  fit : s.2.Fit
  formed : Formed s.2.bank.size s.1.members
  rests : ∃ c : Bank, b.Extends c ∧ (∀ l, (c.get l).Open caller) ∧
    c.Deepened caller s.1.weight s.2.bank

namespace World

abbrev withBank (w : World K) (bank : Bank) : World K := { w with bank }

theorem Fit.withBank (h : w.Fit) {bank : Bank} (ho : ∀ l, (bank.get l).Open caller)
    (hsize : w.bank.size ≤ bank.size) : (w.withBank bank).Fit :=
  ⟨ho, fun t ht => (h.lock_lt t ht).trans_le hsize, h.keys_nodup, h.tables, h.roster, h.handles⟩

theorem beside_withBank {S : Entity → Prop} (bank : Bank) : Beside S w (w.withBank bank) :=
  ⟨rfl, .of_eq rfl, fun _ _ => .inl⟩

end World

namespace Under

/-- The group of all tables, which holds nothing yet. -/
theorem start (hw : w.Fit) : Under w.bank (w.tableGroup, w) := by
  obtain ⟨hformed, hdepths⟩ : Formed w.bank.size w.tableGroup.members ∧
      w.tableGroup.weight = fun _ => 0 := by
    refine LockGroup.formed_ofList _ fun i hi => ?_
    obtain ⟨t, ht, rfl⟩ := List.mem_map.mp hi
    exact hw.lock_lt t ht
  refine ⟨hw, hformed, w.bank, .refl _, hw.enterable, ?_⟩
  rw [hdepths]
  exact .refl ..

/-- Told to enter and leave locks, the group does so. -/
theorem advance (h : Under b s) (c : Change) : ∃ bank : Bank,
    (c.call s.1).advance caller s.2.bank = (.finished (c.result s.1, none), bank, []) ∧
      bank.size = s.2.bank.size ∧ Under b (c.result s.1, s.2.withBank bank) := by
  obtain ⟨base, hbase, ho, hdeep⟩ := h.rests
  obtain ⟨bank, hadvance, hformed, hdeep'⟩ :=
    c.advance_open ho (hdeep.size_eq ▸ h.formed) hdeep
  have hsize : bank.size = s.2.bank.size := hdeep'.size_eq.trans hdeep.size_eq.symm
  refine ⟨bank, hadvance, hsize, ?_, hdeep'.size_eq ▸ hformed, base, hbase, ho, hdeep'⟩
  refine h.fit.withBank (fun l => ?_) hsize.ge
  rw [hdeep'.get_eq]
  exact (ho l).deepened _

/-- What is done meanwhile may add locks. -/
theorem extend (h : Under b s) {w' : World K} (hfit : w'.Fit) (hlocks : s.2.bank.Extends w'.bank) :
    Under b (s.1, w') := by
  obtain ⟨base, hbase, ho, hdeep⟩ := h.rests
  have hsize : base.size ≤ w'.bank.size := hdeep.size_eq.symm.trans_le hlocks.size_le
  have hweight : ∀ l, base.size ≤ l → s.1.weight l = 0 := fun l hl => by
    by_contra hne
    exact absurd (hdeep.lt_size l (Nat.pos_of_ne_zero hne)) (Nat.not_lt.mpr hl)
  -- the new locks stand on themselves
  let base' : Bank := ⟨w'.bank.locks.mapIdx fun l lock => if l < base.size then base.get l else lock⟩
  have hget : ∀ l, base'.get l = if l < base.size then base.get l else w'.bank.get l := fun l => by
    rcases Nat.lt_or_ge l w'.bank.size with hl | hl
    · have hl' : l < w'.bank.locks.size := hl
      simp [base', Bank.get, Array.getD_eq_getD_getElem?, hl']
    · rw [Bank.get_of_size_le hl, if_neg (by omega), Bank.get_of_size_le]
      simpa [base', Bank.size] using hl
  have hsize' : base'.size = w'.bank.size := by simp [base', Bank.size]
  refine ⟨hfit, ⟨h.formed.ascending, fun m hm => (h.formed.lt m hm).trans_le hlocks.size_le,
    h.formed.controlled⟩, base', hbase.trans ⟨hsize.trans_eq hsize'.symm, ?_, ?_⟩, ?_, ?_⟩
  · intro l hl
    rw [hget, if_pos hl]
  · intro l hl
    rw [hget, if_neg (Nat.not_lt.mpr hl)]
    exact hlocks.fresh l (hdeep.size_eq.trans_le hl)
  · intro l
    rw [hget]
    split
    · exact ho l
    · exact hfit.enterable l
  · refine ⟨hsize'.symm, fun l => ?_, fun l hl => (hdeep.lt_size l hl).trans_le (by omega)⟩
    rw [hget]
    split
    · next hl => rw [hlocks.get_eq l (hl.trans_eq hdeep.size_eq.symm), hdeep.get_eq]
    · next hl =>
      rw [hweight l (Nat.le_of_not_lt hl)]
      rfl

/-- Locks that are entered lend out what they lent out before, and new ones nothing. -/
theorem lent (h : Under b s) (l : Nat) :
    (s.2.bank.get l).lent = if l < b.size then (b.get l).lent else false := by
  obtain ⟨base, hbase, -, hdeep⟩ := h.rests
  rw [hdeep.get_eq, Lock.lent_deepened, hbase.lent]

theorem lent_eq (h : Under b s) {l : Nat} (hl : l < b.size) :
    (s.2.bank.get l).lent = (b.get l).lent := (h.lent l).trans (if_pos hl)

end Under

namespace LockedRun

/-- The outcome is a fit world with the group still over locks that are as they were, and the world
is related to the one before. -/
structure Passes (I : Bool → World K → World K → Prop) (b : Bank) (s : LockGroup × World K)
    (r : EStateM.Result Failure (LockGroup × World K) α) : Prop where
  under : Under b (left r)
  keeps : I (broke r) s.2 (left r).2

/-- From every such state the outcome is as it should be. -/
def Keeps (I : Bool → World K → World K → Prop) (op : LockedRun K α) : Prop :=
  ∀ b s, Under b s → Passes I b s (op s)

section Lift

variable {op : Run K α} {w' : World K}

omit [DecidableEq K]

theorem lift_of_ok {a : α} (h : op s.2 = .ok a w') : lift op s = .ok a (s.1, w') := by
  rw [lift, h]

theorem lift_of_error {e : Failure} (h : op s.2 = .error e w') :
    lift op s = .error e (s.1, w') := by
  rw [lift, h]

theorem lift_bind (op : Run K α) (f : α → Run K β) :
    lift (op >>= f) = lift op >>= fun a => lift (f a) := by
  funext s
  cases hr : op s.2 with
  | ok a w' =>
    rw [Run.bind_of_ok (lift_of_ok hr)]
    simp only [lift, Run.bind_of_ok hr]
  | error e w' =>
    rw [Run.bind_of_error (lift_of_error hr), lift_of_error (Run.bind_of_error hr)]

end Lift

theorem passes_lift (hs : Under b s) {op : Run K α} (h : Run.Passes I s.2 (op s.2)) :
    Passes I b s (lift op s) := by
  have hunder := hs.extend h.fit h.locks
  rw [lift]
  cases hr : op s.2 <;> rw [hr] at h hunder <;> exact ⟨hunder, h.keeps⟩

theorem keeps_lift {op : Run K α} (h : Run.Keeps I op) : Keeps I (lift op) :=
  fun _ _ hs => passes_lift hs (h _ hs.fit)

omit [DecidableEq K] in
theorem call_of_finished {c : LockGroup → LockGroup.Call} {bank : Bank}
    (h : (c s.1).advance caller s.2.bank = (.finished (g, none), bank, [])) :
    call c s = .ok () (g, s.2.withBank bank) := by
  simp only [call, h, List.map_nil, Array.append_empty]

theorem call_eq (hs : Under b s) (c : Change) : ∃ bank : Bank,
    call (fun g => c.call g) s = .ok () (c.result s.1, s.2.withBank bank) ∧
      bank.size = s.2.bank.size ∧ Under b (c.result s.1, s.2.withBank bank) := by
  obtain ⟨bank, hadvance, hsize, hunder⟩ := hs.advance c
  exact ⟨bank, call_of_finished hadvance, hsize, hunder⟩

theorem keeps_call (hI : Mild T I) (c : Change) : Keeps I (call fun g => c.call g) := by
  intro b s hs
  obtain ⟨bank, hcall, -, hunder⟩ := call_eq hs c
  rw [hcall]
  exact ⟨hunder, hI.beside (World.beside_withBank bank)⟩

theorem keeps_pure (hI : Mild T I) (a : α) : Keeps I (pure a : LockedRun K α) :=
  fun _ _ hs => ⟨hs, hI.refl _ _⟩

/-- What is done knowing the group and the world. -/
theorem keeps_get_bind {f : LockGroup × World K → LockedRun K α} (hf : ∀ s, Keeps I (f s)) :
    Keeps I (get >>= f) := fun b s hs => hf s b s hs

theorem Passes.bind (hI : Mild T I) {op : LockedRun K α} {f : α → LockedRun K β}
    (h : Passes I b s (op s))
    (hf : ∀ a s', op s = .ok a s' → Under b s' → Passes I b s' (f a s')) :
    Passes I b s ((op >>= f) s) := by
  cases hr : op s with
  | ok a s' =>
    rw [hr] at h
    rw [Run.bind_of_ok hr]
    have hnext := hf a s' hr h.under
    exact ⟨hnext.under, hI.follow h.keeps hnext.keeps⟩
  | error e s' =>
    rw [hr] at h
    rw [Run.bind_of_error hr]
    exact ⟨h.under, h.keeps⟩

theorem Keeps.bind (hI : Mild T I) {op : LockedRun K α} {f : α → LockedRun K β} (h : Keeps I op)
    (hf : ∀ a, Keeps I (f a)) : Keeps I (op >>= f) :=
  fun b s hs => (h b s hs).bind hI fun a s' _ hs' => hf a b s' hs'

omit [DecidableEq K] in
/-- What has to be done in any case is done, and the outcome is that of the body. -/
theorem ensuring_of_ok {body : LockedRun K α} {after : LockedRun K Unit}
    (h : after (left (body s)) = .ok () s') : ensuring body after s = ending s' (body s) := by
  rw [ensuring]
  cases hr : body s <;> rw [hr, left] at h <;> simp only [h, ending]

/-- Whatever the body comes to, the group then enters and leaves locks as it is told. -/
theorem Keeps.ensuring_call (hI : Mild T I) {body : LockedRun K α} (h : Keeps I body) (c : Change) :
    Keeps I (ensuring body (call fun g => c.call g)) := by
  intro b s hs
  have hbody := h b s hs
  obtain ⟨bank, hcall, -, hunder⟩ := call_eq hbody.under c
  rw [ensuring_of_ok hcall]
  refine ⟨(Run.left_ending ..).symm ▸ hunder, ?_⟩
  have hkeeps := hI.trans hbody.keeps (hI.beside (World.beside_withBank bank))
  rw [Bool.or_false] at hkeeps
  rw [Run.broke_ending, Run.left_ending]
  exact hkeeps

end LockedRun

namespace World

/-- The group of all tables with every lock entered. -/
def taken (w : World K) : LockGroup × World K :=
  left (LockedRun.call (·.enterAll) (w.tableGroup, w))

/-- Every lock can be entered, and nothing else of the world is changed by that. -/
theorem Fit.taken (hw : w.Fit) :
    LockedRun.call (·.enterAll) (w.tableGroup, w) = .ok () w.taken ∧ Under w.bank w.taken ∧
      w.taken.2 = w.withBank w.taken.2.bank ∧ w.taken.2.bank.size = w.bank.size := by
  obtain ⟨bank, hcall, hsize, hunder⟩ := LockedRun.call_eq (Under.start hw) .enterAll
  have htaken : w.taken = (Change.enterAll.result w.tableGroup, w.withBank bank) :=
    congrArg left hcall
  rw [htaken]
  exact ⟨hcall, hunder, rfl, hsize⟩

end World

namespace Run

/-- With all locks taken the body is run, and then every lock is as it was before. -/
theorem withAllTables_eq (hw : w.Fit) {body : LockedRun K α}
    (hbody : Under w.bank (left (body w.taken))) : ∃ bank : Bank,
    withAllTables body w = ending ((left (body w.taken)).2.withBank bank) (body w.taken) ∧
      w.bank.Extends bank ∧ (∀ l, (bank.get l).Open caller) ∧
      bank.size = (left (body w.taken)).2.bank.size := by
  obtain ⟨htake, -⟩ := hw.taken
  obtain ⟨bank, hrelease, hsize, hunder⟩ := LockedRun.call_eq hbody .release
  obtain ⟨base, hbase, ho, hdeep⟩ := hunder.rests
  have hnone : LockGroup.weight (Change.release.result (left (body w.taken)).1) = fun _ => 0 := by
    funext l
    rw [weight, hunder.formed.depths_eq, Nat.zero_add]
    exact congrArg Bool.toNat Change.release.holds_result
  rw [hnone] at hdeep
  obtain rfl := hdeep.eq
  refine ⟨bank, ?_, hbase, ho, hsize⟩
  have hensure : body.ensuring (LockedRun.call (·.release)) w.taken = _ :=
    LockedRun.ensuring_of_ok hrelease
  rw [withAllTables, bind_of_ok htake, hensure]
  cases body w.taken <;> rfl

/-- What has succeeded with all locks taken has led to the world that is left, but for the locks. -/
theorem withAllTables_of_ok (hw : w.Fit) {op : Run K α}
    (hop : Under w.bank (left (LockedRun.lift op w.taken))) {a : α} (h : withAllTables (LockedRun.lift op) w = .ok a w') :
    ∃ u bank, op w.taken.2 = .ok a u ∧ w' = u.withBank bank := by
  obtain ⟨bank, heq, -⟩ := withAllTables_eq hw hop
  rw [heq] at h
  cases hr : op w.taken.2 with
  | ok b u =>
    rw [LockedRun.lift_of_ok hr] at h
    cases h
    exact ⟨u, bank, rfl, rfl⟩
  | error e u =>
    rw [LockedRun.lift_of_error hr] at h
    cases h

theorem passes_withAllTables (hI : Mild T I) (hw : w.Fit) {body : LockedRun K α}
    (hb : LockedRun.Passes I w.bank w.taken (body w.taken)) : Passes I w (withAllTables body w) := by
  obtain ⟨-, hunder, hsame, -⟩ := hw.taken
  obtain ⟨bank, heq, hlocks, ho, hsize⟩ := withAllTables_eq hw hb.under
  rw [heq]
  refine ⟨?_, ?_, ?_⟩
  · rw [left_ending]
    exact hb.under.fit.withBank ho hsize.ge
  · rw [left_ending]
    exact hlocks
  · rw [left_ending, broke_ending]
    have hbefore : I false w w.taken.2 := by
      rw [hsame]
      exact hI.beside (World.beside_withBank _)
    have hkeeps := hI.trans (hI.follow hbefore hb.keeps)
      (hI.beside (World.beside_withBank bank))
    rwa [Bool.or_false] at hkeeps

end Run

end EntityStore
