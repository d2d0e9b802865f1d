import EntityStore.NamedTable
import EntityStore.Proofs.Handle.Lives
import EntityStore.Proofs.Table.Departures
import EntityStore.Sample

/-!
# Handles and the records that own them

Tables of both sorts share one handle table. Over any calls a handle goes only because it is released
or because a record that visits it leaves, and with a record that leaves all go that it visits,
whether other records visit them or not.
-/
namespace EntityStore

namespace HandleTable.Sound

variable {t t' : HandleTable} {id : HandleId}

theorem live_add (h : t.Sound) (kind : Nat) (target : Target)
    (hlive : (t.entry? id).isSome = true) :
    (HandleTable.entry? (t.add kind target).2 id).isSome = true := by
  obtain ⟨l, h⟩ := h
  rw [add_eq h]
  cases hi : t.arena.issuer.next? with
  | none => exact hlive
  | some i =>
    show ((t.arena.stored i _).get? id.ident).isSome = true
    rw [h.get?_stored hi, Function.update_apply]
    split
    · rfl
    · exact hlive

theorem live_update (h : t.Sound) {x : HandleId} {kind : Nat} {target previous : Target}
    (hu : t.update x kind target = .ok (previous, t')) (hlive : (t.entry? id).isSome = true) :
    (HandleTable.entry? t' id).isSome = true := by
  obtain ⟨l, h⟩ := h
  unfold update at hu
  split at hu
  · cases hu
    show ((t.arena.modify x.ident _).get? id.ident).isSome = true
    rw [h.get?_modify]
    split
    · rw [Option.isSome_map]
      exact hlive
    · exact hlive
  · cases hu

/-- A handle stays live until it is released. -/
theorem live_serve (h : t.Sound) {q : HandleRequest} (hq : q ≠ .release id)
    (hlive : (t.entry? id).isSome = true) : ((t.serve q).table.entry? id).isSome = true := by
  cases q with
  | add kind target => exact h.live_add kind target hlive
  | update x kind target =>
    simp only [HandleTable.serve]
    split
    · next hu => exact h.live_update hu hlive
    · exact hlive
  | release x =>
    show (HandleTable.entry? (t.release x).2 id).isSome = true
    rw [release_snd, h.entry?_without, if_neg fun hid => hq (by rw [hid])]
    exact hlive
  | _ => exact hlive

end HandleTable.Sound

namespace NamedTable

section Contents

variable {R : Type} (t : NamedTable R) (name x : String)

theorem find?_erase : (t.erase name).find? x = if x = name then none else t.find? x := by
  obtain ⟨entries⟩ := t
  induction entries with
  | nil => simp [erase, find?]
  | cons entry entries ih =>
    simp only [erase, find?] at ih ⊢
    by_cases hentry : entry.1 = name
    · rw [List.filter_cons_of_neg (by simp [hentry]), ih, List.lookup_cons]
      by_cases hx : x = name
      · simp [hx]
      · have hne : (x == entry.1) = false := by simpa [hentry] using hx
        simp [hx, hne]
    · rw [List.filter_cons_of_pos (by simp [hentry]), List.lookup_cons, List.lookup_cons, ih]
      by_cases hx : x = entry.1
      · simp [hx, hentry]
      · have hne : (x == entry.1) = false := by simpa using hx
        simp [hne]

theorem find?_edit (f : R → R) :
    (t.edit name f).find? x = if x = name then (t.find? x).map f else t.find? x := by
  obtain ⟨entries⟩ := t
  induction entries with
  | nil => simp [edit, find?]
  | cons entry entries ih =>
    simp only [edit, find?] at ih ⊢
    rw [List.map_cons, List.lookup_cons, List.lookup_cons, ih]
    by_cases hentry : entry.1 = name
    · by_cases hx : x = name
      · simp [hentry, hx]
      · have hne : (x == name) = false := by simpa using hx
        simp [hentry, hx, hne]
    · by_cases hx : x = entry.1
      · simp [hx, hentry]
      · have hne : (x == entry.1) = false := by simpa using hx
        simp [hentry, hne]

theorem find?_insert (r : R) :
    (t.insert name r).find? x = if x = name then some r else t.find? x := by
  unfold insert
  split
  · next hc =>
    rw [find?_edit]
    by_cases hx : x = name
    · obtain ⟨previous, hprevious⟩ := Option.isSome_iff_exists.mp hc
      simp [hx, hprevious]
    · simp [hx]
  · next hc =>
    have hnone : t.find? name = none := by simpa [contains] using hc
    show List.lookup x (t.entries ++ [(name, r)]) = _
    rw [List.lookup_append]
    by_cases hx : x = name
    · subst hx
      rw [show List.lookup x t.entries = none from hnone]
      simp
    · have hne : (x == name) = false := by simpa using hx
      simp [List.lookup_cons, hx, hne, find?]

end Contents

open Guarded

variable {R α : Type} [Record R] {s : Guarded (NamedTable R)} {me : Thread} {name : String}

def Request.destroyed? : Request R → Option String
  | .destroy name => some name
  | _ => none

/-- Every name that had a record has one. -/
def Keeps (t t' : NamedTable R) : Prop :=
  ∀ x, (t.find? x).isSome = true → (t'.find? x).isSome = true

variable {t t₀ : NamedTable R}

omit [Record R] in
theorem Keeps.insert (h : Keeps t₀ t) (name : String) (r : R) : Keeps t₀ (t.insert name r) := by
  intro x hx
  rw [find?_insert]
  split
  · rfl
  · exact h x hx

omit [Record R] in
theorem Keeps.edit (h : Keeps t₀ t) (name : String) (f : R → R) : Keeps t₀ (t.edit name f) := by
  intro x hx
  rw [find?_edit]
  split
  · simpa using h x hx
  · exact h x hx

omit [Record R] in
theorem withholds_read {P : NamedTable R → Prop} (f : NamedTable R → α) :
    Withholds P (read me f) :=
  (withholds_contents?_bind fun _ _ => withholds_pure _).within

/-- A request that does not destroy a record leaves the handles alone, and takes no record from any
name. -/
theorem withholds_serve (t₀ : NamedTable R) (me : Thread) {q : Request R}
    (hq : q.destroyed? = none) : Withholds (Keeps t₀) (serve me q) := by
  cases q with
  | destroy name => cases hq
  | populate name r =>
    exact (withholds_contents?_bind fun _ ht => (withholds_put (ht.insert name r)).bind fun _ =>
      withholds_pure _).within.bind fun _ => withholds_pure _
  | find | measure | contains | names =>
    exact (withholds_read _).bind fun _ => withholds_pure _
  | adjust name g f =>
    refine Withholds.bind ?_ fun _ => withholds_pure _
    exact (withholds_contents?_bind fun _ ht => (withholds_put (ht.edit name g)).bind fun _ =>
      withholds_contents?_bind fun _ _ => withholds_pure _).within
  | count =>
    exact (withholds_read _).bind fun _ => (withholds_read _).bind fun _ => withholds_pure _
  | titles => exact withholds_get.bind fun _ => withholds_pure _
  | nest name =>
    refine (withholds_contents?_bind fun t _ => ?_).within
    split
    · exact (withholds_read _).bind fun _ => withholds_pure _
    · exact withholds_pure _

/-- What is done to take the record of a name once the table is taken. -/
def takeOff (name : String) : Op (NamedTable R) (Option R) := do
  let t ← contents?
  put (t.erase name)
  return t.find? name

omit [Record R] in
theorem oblivious_takeOff (name : String) :
    Oblivious (takeOff name : Op (NamedTable R) (Option R)) :=
  oblivious_contents?.bind fun _ => (oblivious_put _).bind fun _ => oblivious_pure _

/-- A record is destroyed by taking it, and then releasing its handles. -/
theorem destroy_eq_bind (me : Thread) (name : String) :
    (destroy me name : Op (NamedTable R) (Option R)) = (within me (takeOff name) >>= fun found => do
      match found with
      | some r => Guarded.releaseOwned (.name name) r
      | none => pure ()
      return found) := rfl

/-- A record that is destroyed takes its handles with it, if the lock lets it go. -/
theorem destroy_cases (me : Thread) (name : String) (s : Guarded (NamedTable R)) :
    (∃ f lock, destroy me name s = .error f { s with lock }) ∨
    (∃ lock, s.contents.find? name = none ∧
      destroy me name s = .ok none { s with lock, contents := s.contents.erase name }) ∨
    ∃ lock r, s.contents.find? name = some r ∧ destroy me name s = .ok (some r)
      (({ s with lock, contents := s.contents.erase name } : Guarded (NamedTable R)).releasing
        (.name name) r) := by
  rw [destroy_eq_bind]
  obtain ⟨f, lock, hr⟩ | ⟨lock, hr⟩ := within_cases (oblivious_takeOff name) me s
  · refine .inl ⟨f, lock, ?_⟩
    show EStateM.bind _ _ s = _
    rw [EStateM.bind, hr]
  · rw [bind_of_ok hr]
    cases hfind : s.contents.find? name with
    | none => exact .inr (.inl ⟨lock, rfl, rfl⟩)
    | some r => exact .inr (.inr ⟨lock, r, rfl, rfl⟩)

theorem destroy_of_find? (ho : s.lock.Open me) (hlent : s.lock.lent = false) {r : R}
    (hr : s.contents.find? name = some r) : destroy me name s = .ok (some r)
      (({ s with contents := s.contents.erase name } : Guarded (NamedTable R)).releasing
        (.name name) r) := by
  have hok : within me (takeOff name) s =
      .ok (some r) { s with contents := s.contents.erase name } := by
    rw [within_eq (oblivious_takeOff name) ho hlent, ← hr]
    rfl
  rw [destroy_eq_bind, bind_of_ok hok]
  rfl

theorem settles_destroy (hs : s.handles.Sound) (hc : s.connected = true) (name : String) :
    Settles (fun _ => True) find? s (left (destroy me name s)) := by
  have hothers : ∀ x, x ≠ name → (s.contents.find? x).isSome = true →
      ((s.contents.erase name).find? x).isSome = true := fun x hx hsome => by
    rwa [find?_erase, if_neg hx]
  obtain ⟨f, lock, hr⟩ | ⟨lock, hnone, hr⟩ | ⟨lock, r, hfind, hr⟩ := destroy_cases me name s
  · rw [hr]
    exact .of_kept hs trivial (fun _ => id) rfl
  · rw [hr]
    refine .of_kept hs trivial (fun x hx => hothers x (fun hxn => ?_) hx) rfl
    rw [hxn, hnone] at hx
    cases hx
  · rw [hr]
    refine .of_removed hs trivial hfind ?_ (fun x hx hsome => ?_)
      (handles_releasing (s := { s with lock, contents := s.contents.erase name }) hc _ r)
    · simp [left, find?_erase]
    · simpa [left] using hothers x hx hsome

/-- Whatever request is made and whatever lock it finds, the handles that go are those of the records
that leave. -/
theorem settles_serve (hs : s.handles.Sound) (hc : s.connected = true) (q : Request R) :
    Settles (fun _ => True) find? s (left (serve me q s)) := by
  cases hq : q.destroyed? with
  | none =>
    obtain ⟨hkeeps, hhandles⟩ := withholds_serve s.contents me hq s fun _ => id
    exact .of_kept hs trivial hkeeps hhandles
  | some name =>
    cases q with
    | destroy name' =>
      have hleft : left (serve me (.destroy name') s) = left (destroy me name' s) :=
        left_bind_pure _ _
      rw [hleft]
      exact settles_destroy hs hc name'
    | _ => cases hq

end NamedTable

/-- Tables of both sorts, one of each for every kind, that are connected to one handle table. -/
structure Estate (K : Type) [Schema K] where
  handles : HandleTable := {}
  tables : (k : K) → Table (Schema.Row k) := fun _ => {}
  named : (k : K) → NamedTable (Schema.Row k) := fun _ => {}

namespace Estate

open Guarded (left Settles)

variable {K : Type} [Schema K] {id : HandleId}

/-- A call, with the lock as the call of a table finds it. -/
inductive Call (K : Type) [Schema K]
  | table (k : K) (me : Thread) (lock : Lock) (c : Table.Call (Schema.Row k))
  | named (k : K) (me : Thread) (lock : Lock) (q : NamedTable.Request (Schema.Row k))
  | handles (q : HandleRequest)

def atTable (x : Estate K) (k : K) (lock : Lock) : Guarded (Table (Schema.Row k)) :=
  { lock, contents := x.tables k, handles := x.handles, connected := true }

def atNamed (x : Estate K) (k : K) (lock : Lock) : Guarded (NamedTable (Schema.Row k)) :=
  { lock, contents := x.named k, handles := x.handles, connected := true }

/-- A record that visits the handle has left its table. -/
inductive Lost (x x' : Estate K) (id : HandleId) : Prop
  | table (k : K) (e : Entity) (r : Schema.Row k) (before : (x.tables k).rows.get? e = some r)
    (after : (x'.tables k).rows.get? e = none) (visited : id ∈ (Record.owned r).ids)
  | named (k : K) (name : String) (r : Schema.Row k) (before : (x.named k).find? name = some r)
    (after : (x'.named k).find? name = none) (visited : id ∈ (Record.owned r).ids)

section After

variable [DecidableEq K]

def after (x : Estate K) : Call K → Estate K
  | .table k me lock c =>
    let g := left (c.perform me (x.atTable k lock))
    { x with handles := g.handles, tables := Function.update x.tables k g.contents }
  | .named k me lock q =>
    let g := left (NamedTable.serve me q (x.atNamed k lock))
    { x with handles := g.handles, named := Function.update x.named k g.contents }
  | .handles q => { x with handles := (x.handles.serve q).table }

def run (calls : List (Call K)) : Estate K := calls.foldl after {}

theorem run_append (past rest : List (Call K)) : run (past ++ rest) = rest.foldl after (run past) :=
  List.foldl_append

structure Sound (x : Estate K) : Prop where
  tables : ∀ k, (x.tables k).Sound
  handles : x.handles.Sound

variable {x : Estate K}

omit [DecidableEq K] in
theorem Sound.settles_table (h : x.Sound) (k : K) (me : Thread) (lock : Lock)
    (c : Table.Call (Schema.Row k)) : Settles Table.Sound Table.lookup (x.atTable k lock)
      (left (c.perform me (x.atTable k lock))) :=
  Table.settles_perform (h.tables k) h.handles rfl c

omit [DecidableEq K] in
theorem Sound.settles_named (h : x.Sound) (k : K) (me : Thread) (lock : Lock)
    (q : NamedTable.Request (Schema.Row k)) : Settles (fun _ => True) NamedTable.find?
      (x.atNamed k lock) (left (NamedTable.serve me q (x.atNamed k lock))) :=
  NamedTable.settles_serve h.handles rfl q

theorem Sound.after (h : x.Sound) (c : Call K) : (x.after c).Sound := by
  cases c with
  | table k me lock c =>
    refine ⟨fun j => ?_, (h.settles_table k me lock c).handles⟩
    by_cases hj : j = k
    · subst hj
      simpa [Estate.after] using (h.settles_table j me lock c).contents
    · simpa [Estate.after, Function.update_of_ne hj] using h.tables j
  | named k me lock q => exact ⟨h.tables, (h.settles_named k me lock q).handles⟩
  | handles q => exact ⟨h.tables, h.handles.serve q⟩

theorem sound_run (calls : List (Call K)) : (run calls).Sound := by
  have hstart : ({} : Estate K).Sound := ⟨fun _ => Table.sound_empty, HandleTable.sound_empty⟩
  suffices h : ∀ x : Estate K, x.Sound → (calls.foldl Estate.after x).Sound from h _ hstart
  induction calls with
  | nil => exact fun _ h => h
  | cons c calls ih => exact fun x h => ih _ (h.after c)

/-- A record that leaves takes its handles with it. -/
theorem Sound.entry?_of_lost (h : x.Sound) {c : Call K} (hl : Lost x (x.after c) id) :
    (x.after c).handles.entry? id = none := by
  cases c with
  | handles q =>
    cases hl with
    | table k e r hbefore hafter =>
      cases hbefore.symm.trans hafter
    | named k name r hbefore hafter => cases hbefore.symm.trans hafter
  | table k me lock c =>
    cases hl with
    | named j name r hbefore hafter => cases hbefore.symm.trans hafter
    | table j e r hbefore hafter hvisited =>
      by_cases hj : j = k
      · subst hj
        simp only [Estate.after, Function.update_self] at hafter
        exact (h.settles_table j me lock c).gone e r hbefore hafter id hvisited
      · simp only [Estate.after, Function.update_of_ne hj] at hafter
        cases hbefore.symm.trans hafter
  | named k me lock q =>
    cases hl with
    | table j e r hbefore hafter => cases hbefore.symm.trans hafter
    | named j name r hbefore hafter hvisited =>
      by_cases hj : j = k
      · subst hj
        simp only [Estate.after, Function.update_self] at hafter
        exact (h.settles_named j me lock q).gone name r hbefore hafter id hvisited
      · simp only [Estate.after, Function.update_of_ne hj] at hafter
        cases hbefore.symm.trans hafter

/-- A call of a table leaves all other handles as they were. -/
theorem Sound.entry?_of_not_lost (h : x.Sound) {c : Call K} (hc : ∀ q, c ≠ .handles q)
    (hl : ¬Lost x (x.after c) id) : (x.after c).handles.entry? id = x.handles.entry? id := by
  cases c with
  | handles q => exact absurd rfl (hc q)
  | table k me lock c =>
    exact (h.settles_table k me lock c).kept id fun e r hbefore hafter hvisited =>
      hl (.table k e r hbefore (by simpa [Estate.after] using hafter) hvisited)
  | named k me lock q =>
    exact (h.settles_named k me lock q).kept id fun name r hbefore hafter hvisited =>
      hl (.named k name r hbefore (by simpa [Estate.after] using hafter) hvisited)

/-- A handle goes because it is released, or because a record that visits it leaves. -/
theorem Sound.goes (h : x.Sound) {c : Call K} (hlive : (x.handles.entry? id).isSome = true)
    (hdead : (x.after c).handles.entry? id = none) :
    c = .handles (.release id) ∨ Lost x (x.after c) id := by
  by_contra hnot
  obtain ⟨hrelease, hlost⟩ := not_or.mp hnot
  have hkept : ((x.after c).handles.entry? id).isSome = true := by
    cases c with
    | handles q => exact h.handles.live_serve (fun hq => hrelease (by rw [hq])) hlive
    | table | named =>
      rw [h.entry?_of_not_lost (by simp) hlost]
      exact hlive
  rw [hdead] at hkept
  cases hkept

/-- A handle that is live at first and dead at last goes in between. -/
theorem exists_goes (past rest : List (Call K))
    (hlive : ((run past).handles.entry? id).isSome = true)
    (hdead : (run (past ++ rest)).handles.entry? id = none) :
    ∃ before c after, rest = before ++ c :: after ∧
      ((run (past ++ before)).handles.entry? id).isSome = true ∧
      ((run (past ++ before)).after c).handles.entry? id = none := by
  induction rest generalizing past with
  | nil =>
    rw [List.append_nil] at hdead
    rw [hdead] at hlive
    cases hlive
  | cons c rest ih =>
    cases hnext : ((run past).after c).handles.entry? id with
    | none =>
      refine ⟨[], c, rest, rfl, ?_, ?_⟩
      · rwa [List.append_nil]
      · rwa [List.append_nil]
    | some entry =>
      have hrun : run (past ++ [c]) = (run past).after c := run_append past [c]
      obtain ⟨before, c', after, rfl, hbefore, hafter⟩ := ih (past ++ [c])
        (by rw [hrun, hnext]; rfl) (by rwa [List.append_assoc])
      refine ⟨c :: before, c', after, rfl, ?_, ?_⟩
      · rwa [List.append_assoc] at hbefore
      · rwa [List.append_assoc] at hafter

/-- What becomes of the handles of a record that is destroyed, evicted or replaced behind a lock that
lets it. -/
structure Faithful (x : Estate K) : Prop where
  /-- The record is gone, whatever has become of the handles that it visits. -/
  destroyed : ∀ k me (lock : Lock) (c : Table.Call (Schema.Row k)) e r, lock.Open me →
    lock.lent = false → c.destroyed? = some e → (x.tables k).rows.get? e = some r →
    ∃ a g, c.perform me (x.atTable k lock) = .ok a g ∧
      g.contents.rows.get? = Function.update (x.tables k).rows.get? e none ∧
      ∀ id, g.handles.entry? id =
        if id ∈ (Record.owned r).ids then none else x.handles.entry? id
  /-- The record of an older entity makes way. -/
  evicted : ∀ k me (lock : Lock) (c : Table.Call (Schema.Row k)) e r o old, lock.Open me →
    lock.lent = false → c.placed? = some (e, r) → e.isVoid = false →
    (x.tables k).rows.get? o = some old → Keyed.index o = Keyed.index e →
    e.generation.isNewerThan o.generation = true → ∃ a g,
      c.perform me (x.atTable k lock) = .ok a g ∧ g.contents.rows.get? =
        Function.update (Function.update (x.tables k).rows.get? o none) e (some r) ∧
      ∀ id, g.handles.entry? id =
        if id ∈ (Record.owned old).ids then none else x.handles.entry? id
  /-- The handles of a record that is replaced stay. -/
  replaced : ∀ k me (lock : Lock) (c : Table.Call (Schema.Row k)) e r old, lock.Open me →
    lock.lent = false → c.placed? = some (e, r) → e.isVoid = false →
    (x.tables k).rows.get? e = some old → ∃ a g, c.perform me (x.atTable k lock) = .ok a g ∧
      g.contents.rows.get? = Function.update (x.tables k).rows.get? e (some r) ∧
      g.handles = x.handles
  destroyed_named : ∀ k me (lock : Lock) name (r : Schema.Row k), lock.Open me →
    lock.lent = false → (x.named k).find? name = some r →
    ∃ g, NamedTable.destroy me name (x.atNamed k lock) = .ok (some r) g ∧
      (∀ n, g.contents.find? n = if n = name then none else (x.named k).find? n) ∧
      ∀ id, g.handles.entry? id =
        if id ∈ (Record.owned r).ids then none else x.handles.entry? id
  replaced_named : ∀ k me (lock : Lock) name (r : Schema.Row k), lock.Open me →
    lock.lent = false → ∃ g,
      NamedTable.populate me name r (x.atNamed k lock) = .ok ((x.named k).find? name) g ∧
      (∀ n, g.contents.find? n = if n = name then some r else (x.named k).find? n) ∧
      g.handles = x.handles
  /-- With a record that leaves by whatever call, behind whatever lock, its handles go. -/
  lost : ∀ c id, Lost x (x.after c) id → (x.after c).handles.entry? id = none
  /-- No call of a table does anything to another handle. -/
  kept : ∀ c id, (∀ q, c ≠ .handles q) → ¬Lost x (x.after c) id →
    (x.after c).handles.entry? id = x.handles.entry? id

theorem Sound.faithful (h : x.Sound) : x.Faithful where
  destroyed k me lock c e r ho hlent hc hr := by
    obtain ⟨f, hf⟩ := Table.perform_of_destroyed? hc me
    have hok := Table.destroy_eq (s := x.atTable k lock) ho hlent (h.tables k) hr
    rw [hf, Guarded.bind_of_ok hok]
    refine ⟨_, _, rfl, (h.tables k).get?_without e, ?_⟩
    exact Guarded.entry?_releasing (s := x.atTable k lock) h.handles rfl (.entity e) r
  evicted k me lock c e r o old ho hlent hc hvoid hold hi hn := by
    obtain ⟨f, hf⟩ := Table.perform_of_placed? hc me
    have hv := (h.tables k).verdict_of_newer hold hi hn
    have hget := (h.tables k).get?_populated e r
    rw [hv] at hget
    have hok := (Table.populate_eq_place (s := x.atTable k lock) hvoid ho hlent (r := r)).trans
      (Table.place_of_evict (h.tables k) hv hold)
    rw [hf, Guarded.bind_of_ok hok]
    refine ⟨_, _, rfl, hget, ?_⟩
    exact Guarded.entry?_releasing (s := (x.atTable k lock).noting _) h.handles rfl (.entity o) old
  replaced k me lock c e r old ho hlent hc hvoid hold := by
    obtain ⟨f, hf⟩ := Table.perform_of_placed? hc me
    have hv : (x.tables k).verdict e = .replace old := by rw [Table.verdict, hold]
    have hget := (h.tables k).get?_populated e r
    rw [hv] at hget
    have hok := (Table.populate_eq_place (s := x.atTable k lock) hvoid ho hlent (r := r)).trans
      (Table.place_of_replace hv)
    rw [hf, Guarded.bind_of_ok hok]
    exact ⟨_, _, rfl, hget, rfl⟩
  destroyed_named k me lock name r ho hlent hr := by
    let erased : Guarded (NamedTable (Schema.Row k)) :=
      { x.atNamed k lock with contents := (x.named k).erase name }
    have hcontents : (erased.releasing (.name name) r).contents = (x.named k).erase name :=
      Guarded.contents_releasing ..
    refine ⟨_, NamedTable.destroy_of_find? (s := x.atNamed k lock) ho hlent hr, fun n => ?_,
      Guarded.entry?_releasing (s := erased) h.handles rfl (.name name) r⟩
    exact (congrArg (NamedTable.find? · n) hcontents).trans (NamedTable.find?_erase (x.named k) name n)
  replaced_named k me lock name r ho hlent := by
    refine ⟨{ x.atNamed k lock with contents := (x.named k).insert name r }, ?_,
      fun n => NamedTable.find?_insert .., rfl⟩
    exact Guarded.within_eq (Guarded.oblivious_contents?.bind fun _ =>
      (Guarded.oblivious_put _).bind fun _ => Guarded.oblivious_pure _) ho hlent
  lost _ _ hl := h.entry?_of_lost hl
  kept _ _ hc hl := h.entry?_of_not_lost hc hl

/-- Over any calls, behind whatever locks, the handles that a record visits go with it when it leaves,
those of a record that is replaced stay, and a handle goes only by being released or with a record
that visits it. -/
theorem handles_follow_records (calls : List (Call K)) : (run calls).Faithful ∧
    ∀ past rest id, calls = past ++ rest → ((run past).handles.entry? id).isSome = true →
      (run calls).handles.entry? id = none → ∃ before c after, rest = before ++ c :: after ∧
        ((run (past ++ before)).handles.entry? id).isSome = true ∧
        ((run (past ++ before)).after c).handles.entry? id = none ∧
        (c = .handles (.release id) ∨
          Lost (run (past ++ before)) ((run (past ++ before)).after c) id) := by
  refine ⟨(sound_run calls).faithful, fun past rest id hcalls hlive hdead => ?_⟩
  rw [hcalls] at hdead
  obtain ⟨before, c, after, hrest, hbefore, hafter⟩ := exists_goes past rest hlive hdead
  exact ⟨before, c, after, hrest, hbefore, hafter, (sound_run _).goes hbefore hafter⟩

/-- The records of two tables visit one handle. It goes with the first that leaves, and the other
leaves all the same. -/
example :
    let _ := Sample.schema ""
    let shared : HandleId := ⟨⟨0, .first, by decide⟩⟩
    let own : HandleId := ⟨⟨1, .first, by decide⟩⟩
    let e : Entity := ⟨⟨0, .first, by decide⟩⟩
    let sprite : Sample.Sprite := ⟨shared, some shared, 0⟩
    let scene : Sample.Scene := ⟨[some shared, none], 0, (own, shared)⟩
    let calls : List (Call Sample.Kind) := [.handles (.add 1 (.word 7)), .handles (.add 2 .unit),
      .table .sprite 0 { name := "" } (.request (.populate e sprite)),
      .named .scene 0 { name := "" } (.populate "start" scene),
      .table .sprite 0 { name := "" } (.request (.destroy e))]
    (run calls).handles.kindOf? shared = none ∧ (run calls).handles.kindOf? own = some 2 ∧
      (run (calls ++ [.named .scene 0 { name := "" } (.destroy "start")])).handles.size = 0 := by
  decide +kernel

end After

end Estate

end EntityStore
