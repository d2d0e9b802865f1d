import EntityStore.Proofs.Handle.Owners
import EntityStore.Sample

/-!
# Names and when they came

A table by name lists its names in the order in which their records came: a name comes when a record
is stored under it while it has none, stays where it is for as long as the record is stored over or
changed, and stands at the end when it comes back after having been destroyed. With a record that is
destroyed the handles go that it visits; nothing else that is done with the table takes any.
-/
namespace EntityStore.NamedTable

open Guarded

variable {R α : Type}

section Contents

variable {t : NamedTable R} {name : String}

theorem mem_names_iff : name ∈ t.names ↔ (t.find? name).isSome = true := by
  obtain ⟨entries⟩ := t
  induction entries with
  | nil => simp [names, find?]
  | cons entry entries ih =>
    simp only [names, find?] at ih ⊢
    rw [List.map_cons, List.mem_cons, ih, List.lookup_cons]
    by_cases h : name = entry.1
    · simp [h]
    · have hne : (name == entry.1) = false := by simpa using h
      simp [h, hne]

/-- A name that is new goes to the end, and no other name moves. -/
theorem names_insert (t : NamedTable R) (name : String) (r : R) : (t.insert name r).names =
    if name ∈ t.names then t.names else t.names ++ [name] := by
  unfold insert contains
  by_cases h : name ∈ t.names
  · rw [if_pos h, if_pos (mem_names_iff.mp h), names_edit]
  · rw [if_neg h, if_neg fun hs => h (mem_names_iff.mpr hs)]
    exact List.map_append

end Contents

/-- A thread at a lock that it can enter, and behind which nobody has the contents. -/
structure Access where
  me : Thread
  lock : Lock
  enters : lock.Open me
  unlent : lock.lent = false

/-- What happens to a table and to the handles that it is connected to. -/
inductive Event (R : Type)
  | call (a : Access) (q : Request R)
  | handles (q : HandleRequest)

namespace Event

def stored? : Event R → Option String
  | call _ (.populate name _) => some name
  | _ => none

def destroyed? : Event R → Option String
  | call _ q => q.destroyed?
  | handles _ => none

/-- What becomes of the records by name. -/
def rewrite (records : String → Option R) : Event R → String → Option R
  | call _ (.populate name r) => Function.update records name (some r)
  | call _ (.adjust name change _) => Function.update records name ((records name).map change)
  | call _ (.destroy name) => Function.update records name none
  | _ => records

theorem destroyed?_of_stored? {e : Event R} {name : String} (h : e.stored? = some name) :
    e.destroyed? = none := by
  cases e with
  | handles q => cases h
  | call a q =>
    cases q with
    | populate => rfl
    | _ => cases h

end Event

section Came

variable {past : List (Event R)} {e : Event R} {name : String} {n : Nat}

/-- A record was stored under the name by the event of a number. -/
def StoredAt (past : List (Event R)) (name : String) (n : Nat) : Prop :=
  ∃ e, past[n]? = some e ∧ e.stored? = some name

def DestroyedAt (past : List (Event R)) (name : String) (n : Nat) : Prop :=
  ∃ e, past[n]? = some e ∧ e.destroyed? = some name

/-- The record of the name came with the event of a number: it was the first that stored one since the
name was last destroyed. -/
structure Came (past : List (Event R)) (name : String) (n : Nat) : Prop where
  stored : StoredAt past name n
  first : ∀ m < n, StoredAt past name m → ∃ l, m < l ∧ l < n ∧ DestroyedAt past name l
  lasting : ∀ l, n < l → ¬DestroyedAt past name l

/-- Whatever was stored under the name has been destroyed. -/
def Lacks (past : List (Event R)) (name : String) : Prop :=
  ∀ m, StoredAt past name m → ∃ l, m < l ∧ DestroyedAt past name l

theorem getElem?_concat_eq_some_iff {past : List α} {e x : α} :
    (past ++ [e])[n]? = some x ↔ past[n]? = some x ∨ n = past.length ∧ e = x := by
  rcases Nat.lt_trichotomy n past.length with h | h | h
  · rw [List.getElem?_append_left h]
    simp [Nat.ne_of_lt h]
  · subst h
    simp
  · rw [List.getElem?_eq_none (by simp; omega), List.getElem?_eq_none h.le]
    simp [Nat.ne_of_gt h]

theorem storedAt_concat : StoredAt (past ++ [e]) name n ↔
    StoredAt past name n ∨ n = past.length ∧ e.stored? = some name := by
  simp only [StoredAt, getElem?_concat_eq_some_iff, or_and_right, exists_or]
  simp

theorem destroyedAt_concat : DestroyedAt (past ++ [e]) name n ↔
    DestroyedAt past name n ∨ n = past.length ∧ e.destroyed? = some name := by
  simp only [DestroyedAt, getElem?_concat_eq_some_iff, or_and_right, exists_or]
  simp

theorem StoredAt.lt (h : StoredAt past name n) : n < past.length := by
  obtain ⟨e, he, -⟩ := h
  exact (List.getElem?_eq_some_iff.mp he).1

theorem DestroyedAt.lt (h : DestroyedAt past name n) : n < past.length := by
  obtain ⟨e, he, -⟩ := h
  exact (List.getElem?_eq_some_iff.mp he).1

/-- A record comes once. -/
theorem Came.unique {m : Nat} (h : Came past name n) (h' : Came past name m) : n = m := by
  rcases Nat.lt_trichotomy n m with hlt | heq | hgt
  · obtain ⟨l, hl, -, hd⟩ := h'.first n hlt h.stored
    exact absurd hd (h.lasting l hl)
  · exact heq
  · obtain ⟨l, hl, -, hd⟩ := h.first m hgt h'.stored
    exact absurd hd (h'.lasting l hl)

/-- An event that does not destroy the name leaves it where it came. -/
theorem Came.concat (h : Came past name n) (hd : e.destroyed? ≠ some name) :
    Came (past ++ [e]) name n where
  stored := storedAt_concat.mpr (.inl h.stored)
  first m hm hstored := by
    rcases storedAt_concat.mp hstored with hstored | ⟨rfl, -⟩
    · obtain ⟨l, hml, hln, hl⟩ := h.first m hm hstored
      exact ⟨l, hml, hln, destroyedAt_concat.mpr (.inl hl)⟩
    · exact absurd h.stored.lt (by omega)
  lasting l hl hdestroyed := by
    rcases destroyedAt_concat.mp hdestroyed with hdestroyed | ⟨-, hdestroyed⟩
    · exact h.lasting l hl hdestroyed
    · exact hd hdestroyed

/-- A record that stays came before the last event or with it. -/
theorem Came.of_concat (h : Came (past ++ [e]) name n) :
    e.destroyed? ≠ some name ∧ (Came past name n ∨ n = past.length ∧ e.stored? = some name) := by
  have hd : e.destroyed? ≠ some name := fun hd => by
    rcases storedAt_concat.mp h.stored with hstored | ⟨-, hstored⟩
    · exact h.lasting _ hstored.lt (destroyedAt_concat.mpr (.inr ⟨rfl, hd⟩))
    · rw [Event.destroyed?_of_stored? hstored] at hd
      cases hd
  refine ⟨hd, (storedAt_concat.mp h.stored).imp_left fun hstored => ⟨hstored, fun m hm hm' => ?_,
    fun l hl hl' => h.lasting l hl (destroyedAt_concat.mpr (.inl hl'))⟩⟩
  obtain ⟨l, hml, hln, hl⟩ := h.first m hm (storedAt_concat.mpr (.inl hm'))
  refine ⟨l, hml, hln, (destroyedAt_concat.mp hl).resolve_right fun hlast => ?_⟩
  exact hd hlast.2

/-- A name that is lacking comes with the record that is stored under it. -/
theorem Lacks.came (h : Lacks past name) (he : e.stored? = some name) :
    Came (past ++ [e]) name past.length where
  stored := storedAt_concat.mpr (.inr ⟨rfl, he⟩)
  first m hm hstored := by
    obtain ⟨l, hml, hl⟩ := h m ((storedAt_concat.mp hstored).resolve_right fun hlast =>
      Nat.ne_of_lt hm hlast.1)
    exact ⟨l, hml, hl.lt, destroyedAt_concat.mpr (.inl hl)⟩
  lasting l hl hdestroyed := by
    have := hdestroyed.lt
    simp at this
    omega

theorem lacks_of_destroyed? (he : e.destroyed? = some name) : Lacks (past ++ [e]) name := by
  intro m hm
  refine ⟨past.length, ?_, destroyedAt_concat.mpr (.inr ⟨rfl, he⟩)⟩
  refine ((storedAt_concat.mp hm).resolve_right fun hlast => ?_).lt
  rw [Event.destroyed?_of_stored? hlast.2] at he
  cases he

theorem Lacks.concat (h : Lacks past name) (he : e.stored? ≠ some name) :
    Lacks (past ++ [e]) name := by
  intro m hm
  obtain ⟨l, hml, hl⟩ := h m ((storedAt_concat.mp hm).resolve_right fun hlast => he hlast.2)
  exact ⟨l, hml, destroyedAt_concat.mpr (.inl hl)⟩

theorem came_concat_iff (he : e.stored? ≠ some name) :
    Came (past ++ [e]) name n ↔ e.destroyed? ≠ some name ∧ Came past name n :=
  ⟨fun h => h.of_concat.imp_right fun hcame => hcame.resolve_right fun hlast => he hlast.2,
    fun ⟨hd, h⟩ => h.concat hd⟩

/-- Storing over a record that is there does not make it come anew. -/
theorem came_concat_iff_of_came {m : Nat} (h : Came past name m) (he : e.stored? = some name) :
    Came (past ++ [e]) name n ↔ Came past name n := by
  have hd : e.destroyed? ≠ some name := by
    rw [Event.destroyed?_of_stored? he]
    simp
  refine ⟨fun h' => h'.of_concat.2.resolve_right fun hlast => ?_, fun h' => h'.concat hd⟩
  have hlt := h.stored.lt
  rw [(h.concat hd).unique h', hlast.1] at hlt
  exact Nat.lt_irrefl _ hlt

/-- The names are those with a record, in the order in which their records came. -/
structure Listed (past : List (Event R)) (names : List String) : Prop where
  nodup : names.Nodup
  mem_iff : ∀ name, name ∈ names ↔ ∃ n, Came past name n
  in_order : names.Pairwise fun a b => ∀ m n, Came past a m → Came past b n → m < n
  lacks : ∀ name, name ∉ names → Lacks past name

namespace Listed

variable {names : List String}

theorem start : Listed ([] : List (Event R)) [] where
  nodup := .nil
  mem_iff name := by
    refine ⟨fun h => absurd h List.not_mem_nil, fun ⟨n, h⟩ => ?_⟩
    exact absurd h.stored.lt (Nat.not_lt_zero n)
  in_order := .nil
  lacks _ _ n h := absurd h.lt (Nat.not_lt_zero n)

/-- The same names, with records that came when they came before. -/
theorem of_came_iff (h : Listed past names) (he : ∀ name, e.stored? = some name → name ∈ names)
    (hcame : ∀ name n, Came (past ++ [e]) name n ↔ Came past name n) :
    Listed (past ++ [e]) names where
  nodup := h.nodup
  mem_iff name := by simp only [hcame, h.mem_iff]
  in_order := by simpa only [hcame] using h.in_order
  lacks name hname := (h.lacks name hname).concat fun hs => hname (he name hs)

theorem stored (h : Listed past names) (he : e.stored? = some name) :
    Listed (past ++ [e]) (if name ∈ names then names else names ++ [name]) := by
  have hd : ∀ x, e.destroyed? ≠ some x := fun x => by
    rw [Event.destroyed?_of_stored? he]
    simp
  have hothers : ∀ x n, x ≠ name → (Came (past ++ [e]) x n ↔ Came past x n) := fun x n hx => by
    rw [came_concat_iff fun hs => hx (Option.some.inj (hs.symm.trans he)), and_iff_right (hd x)]
  split
  · next hname =>
    refine h.of_came_iff (fun x hx => Option.some.inj (he.symm.trans hx) ▸ hname) fun x n => ?_
    by_cases hx : x = name
    · obtain ⟨m, hm⟩ := (h.mem_iff name).mp hname
      rw [hx, came_concat_iff_of_came hm he]
    · exact hothers x n hx
  · next hname =>
    have hnew : Came (past ++ [e]) name past.length := (h.lacks name hname).came he
    have hne : ∀ x ∈ names, x ≠ name := fun x hx heq => hname (heq ▸ hx)
    refine ⟨?_, fun x => ?_, ?_, fun x hx => ?_⟩
    · rw [← List.concat_eq_append]
      exact h.nodup.concat hname
    · by_cases hx : x = name
      · subst hx
        simpa using ⟨_, hnew⟩
      · simp [hx, hothers x _ hx, h.mem_iff]
    · refine List.pairwise_append.mpr ⟨h.in_order.imp_of_mem fun {a b} ha hb hab m n hm hn => ?_,
        List.pairwise_singleton .., fun a ha b hb m n hm hn => ?_⟩
      · exact hab m n ((hothers a m (hne a ha)).mp hm) ((hothers b n (hne b hb)).mp hn)
      · obtain rfl := List.mem_singleton.mp hb
        rw [hn.unique hnew]
        exact ((hothers a m (hne a ha)).mp hm).stored.lt
    · simp only [List.mem_append, List.mem_singleton, not_or] at hx
      exact (h.lacks x hx.1).concat fun hs => hx.2 (Option.some.inj (hs.symm.trans he))

theorem destroyed (h : Listed past names) (he : e.destroyed? = some name) :
    Listed (past ++ [e]) (names.filter (· ≠ name)) := by
  have hs : ∀ x, e.stored? ≠ some x := fun x hx => by
    rw [Event.destroyed?_of_stored? hx] at he
    cases he
  have hcame : ∀ x n, Came (past ++ [e]) x n ↔ x ≠ name ∧ Came past x n := fun x n => by
    rw [came_concat_iff (hs x), he, Ne, Option.some.injEq, eq_comm]
  refine ⟨h.nodup.filter _, fun x => ?_, ?_, fun x hx => ?_⟩
  · simp only [hcame, List.mem_filter, h.mem_iff, decide_eq_true_eq, exists_and_left]
    exact and_comm
  · exact (h.in_order.imp fun hab m n hm hn =>
      hab m n ((hcame ..).mp hm).2 ((hcame ..).mp hn).2).filter _
  · by_cases hxn : x = name
    · exact lacks_of_destroyed? (hxn ▸ he)
    · have hnot : x ∉ names := fun hmem => hx (List.mem_filter.mpr ⟨hmem, by simpa using hxn⟩)
      exact (h.lacks x hnot).concat (hs x)

theorem other (h : Listed past names) (hs : e.stored? = none) (hd : e.destroyed? = none) :
    Listed (past ++ [e]) names := by
  refine h.of_came_iff (fun name he => ?_) fun name n => ?_
  · rw [hs] at he
    cases he
  · rw [came_concat_iff (by simp [hs]), hd]
    simp

end Listed

end Came

section Calls

variable [Record R] {t : NamedTable R} {s : Guarded (NamedTable R)} {me : Thread} {name : String}

def Request.effect (t : NamedTable R) : Request R → NamedTable R
  | .populate name r => t.insert name r
  | .adjust name change _ => t.edit name change
  | .destroy name => t.erase name
  | _ => t

variable (ho : s.lock.Open me) (hlent : s.lock.lent = false)
include ho hlent

omit [Record R] in
theorem read_eq (f : NamedTable R → α) : read me f s = .ok (f s.contents) s :=
  within_eq (oblivious_contents?.bind fun _ => oblivious_pure _) ho hlent

omit [Record R] in
theorem populate_eq (name : String) (r : R) : populate me name r s =
    .ok (s.contents.find? name) { s with contents := s.contents.insert name r } :=
  within_eq (oblivious_contents?.bind fun _ => (oblivious_put _).bind fun _ => oblivious_pure _)
    ho hlent

omit [Record R] in
/-- What is read off the record is read after the change. -/
theorem adjust_eq (name : String) (change : R → R) (f : R → α) : adjust me name change f s =
    .ok ((s.contents.find? name).map (f ∘ change))
      { s with contents := s.contents.edit name change } := by
  have hb : Oblivious (contents? >>= fun t : NamedTable R => put (t.edit name change) >>= fun _ =>
      contents? >>= fun t => pure ((t.find? name).map f)) :=
    oblivious_contents?.bind fun _ => (oblivious_put _).bind fun _ =>
      oblivious_contents?.bind fun _ => oblivious_pure _
  refine (within_eq hb ho hlent).trans ?_
  simp only [contents?_bind, put_bind, find?_edit, if_pos, Option.map_map]
  rfl

theorem destroy_of_none (hnone : s.contents.find? name = none) :
    destroy me name s = .ok none { s with contents := s.contents.erase name } := by
  have hok : within me (takeOff name) s =
      .ok none { s with contents := s.contents.erase name } := by
    rw [within_eq (oblivious_takeOff name) ho hlent, ← hnone]
    rfl
  rw [destroy_eq_bind, bind_of_ok hok]
  rfl

/-- However a request ends, the table is what the request makes of it. -/
theorem contents_left_serve (q : Request R) :
    (left (serve me q s)).contents = q.effect s.contents := by
  cases q with
  | populate name r =>
    simp only [serve, left_bind_pure, populate_eq ho hlent]
    rfl
  | adjust name change f =>
    simp only [serve, left_bind_pure, adjust_eq ho hlent]
    rfl
  | destroy name =>
    simp only [serve, left_bind_pure]
    cases hfind : s.contents.find? name with
    | none =>
      rw [destroy_of_none ho hlent hfind]
      rfl
    | some r =>
      rw [destroy_of_find? ho hlent hfind]
      exact contents_releasing ..
  | find | measure | contains | names =>
    simp only [serve, left_bind_pure, read_eq ho hlent]
    rfl
  | count =>
    simp only [serve]
    rw [bind_of_ok (read_eq ho hlent _), bind_of_ok (read_eq ho hlent _)]
    rfl
  | titles => rfl
  | nest name =>
    refine (Withholds.within (P := (· = s.contents)) (withholds_contents?_bind fun t _ => ?_) s
      rfl).1
    split
    · exact (withholds_read _).bind fun _ => withholds_pure _
    · exact withholds_pure _

end Calls

structure Shelf (R : Type) where
  table : NamedTable R := {}
  handles : HandleTable := {}

namespace Shelf

def behind (x : Shelf R) (lock : Lock) : Guarded (NamedTable R) :=
  { lock, contents := x.table, handles := x.handles, connected := true }

variable [Record R]

def after (x : Shelf R) : Event R → Shelf R
  | .call a q =>
    let g := left (serve a.me q (x.behind a.lock))
    ⟨g.contents, g.handles⟩
  | .handles q => { x with handles := (x.handles.serve q).table }

def run (past : List (Event R)) : Shelf R := past.foldl after {}

/-- The records by name, each as it was last written. -/
def written (past : List (Event R)) : String → Option R := past.foldl Event.rewrite fun _ => none

def visited (x : Shelf R) (name : String) : List HandleId :=
  ((x.table.find? name).map fun r => (Record.owned r).ids).getD []

theorem run_append_singleton (past : List (Event R)) (e : Event R) :
    run (past ++ [e]) = (run past).after e := by
  simp [run]

omit [Record R] in
theorem written_append_singleton (past : List (Event R)) (e : Event R) :
    written (past ++ [e]) = e.rewrite (written past) := by
  simp [written]

/-- The table is the one that what has happened makes. -/
structure Recorded (past : List (Event R)) (x : Shelf R) : Prop where
  listed : Listed past x.table.names
  find?_eq : x.table.find? = written past
  handles : x.handles.Sound

variable {past : List (Event R)} {x : Shelf R}

omit [Record R] in
theorem find?_effect (t : NamedTable R) (a : Access) (q : Request R) :
    (q.effect t).find? = (Event.call a q).rewrite t.find? := by
  funext x
  cases q with
  | populate name r =>
    simp only [Request.effect, Event.rewrite, find?_insert, Function.update_apply]
  | adjust name change f =>
    simp only [Request.effect, Event.rewrite, find?_edit, Function.update_apply]
    split
    · next hx => rw [hx]
    · rfl
  | destroy name =>
    simp only [Request.effect, Event.rewrite, find?_erase, Function.update_apply]
  | _ => rfl

omit [Record R] in
theorem listed_effect {t : NamedTable R} (h : Listed past t.names) (a : Access) (q : Request R) :
    Listed (past ++ [.call a q]) (q.effect t).names := by
  cases q with
  | populate name r =>
    show Listed _ (t.insert name r).names
    rw [names_insert]
    exact h.stored rfl
  | adjust name change f =>
    show Listed _ (t.edit name change).names
    rw [names_edit]
    exact h.other rfl rfl
  | destroy name =>
    show Listed _ (t.erase name).names
    rw [names_erase]
    exact h.destroyed rfl
  | _ => exact h.other rfl rfl

theorem Recorded.after (h : Recorded past x) (e : Event R) :
    Recorded (past ++ [e]) (x.after e) := by
  cases e with
  | handles q =>
    refine ⟨h.listed.other rfl rfl, ?_, h.handles.serve q⟩
    rw [written_append_singleton, ← h.find?_eq]
    rfl
  | call a q =>
    have htable : (x.after (.call a q)).table = q.effect x.table :=
      contents_left_serve (s := x.behind a.lock) a.enters a.unlent q
    refine ⟨?_, ?_, (settles_serve (s := x.behind a.lock) h.handles rfl q).handles⟩
    · rw [htable]
      exact listed_effect h.listed a q
    · rw [htable, written_append_singleton, ← h.find?_eq]
      exact find?_effect ..

theorem recorded_run (past : List (Event R)) : Recorded past (run past) := by
  induction past using List.reverseRecOn with
  | nil => exact ⟨.start, rfl, HandleTable.sound_empty⟩
  | append_singleton past e ih =>
    rw [run_append_singleton]
    exact ih.after e

/-- What calls answer, and what they do to the names and the handles. -/
structure Answers (x : Shelf R) : Prop where
  isSome_iff : ∀ name, (x.table.find? name).isSome = true ↔ name ∈ x.table.names
  /-- The record that was there is given. A name that had none goes to the end. -/
  populated : ∀ (a : Access) name r, ∃ t,
    populate a.me name r (x.behind a.lock) =
      .ok (x.table.find? name) { x.behind a.lock with contents := t } ∧
    t.names = if name ∈ x.table.names then x.table.names else x.table.names ++ [name]
  adjusted : ∀ (a : Access) name (change : R → R) (α : Type) (f : R → α), ∃ t,
    adjust a.me name change f (x.behind a.lock) =
      .ok ((x.table.find? name).map (f ∘ change)) { x.behind a.lock with contents := t } ∧
    t.names = x.table.names
  /-- The record is given. Of the live handles those go that it visits. -/
  destroyed : ∀ (a : Access) name, ∃ g,
    destroy a.me name (x.behind a.lock) = .ok (x.table.find? name) g ∧
    g.contents.names = x.table.names.filter (· ≠ name) ∧
    ∀ id, g.handles.entry? id = if id ∈ x.visited name then none else x.handles.entry? id
  consulted : ∀ (a : Access) (α : Type) (f : NamedTable R → α),
    read a.me f (x.behind a.lock) = .ok (f x.table) (x.behind a.lock)
  /-- Whatever else is asked for, behind whatever lock, takes no handle. -/
  withheld : ∀ me lock (q : Request R), q.destroyed? = none →
    (left (serve me q (x.behind lock))).handles = x.handles

theorem Recorded.answers (h : Recorded past x) : x.Answers where
  isSome_iff name := mem_names_iff.symm
  populated a name r :=
    ⟨_, populate_eq (s := x.behind a.lock) a.enters a.unlent name r, names_insert ..⟩
  adjusted a name change α f :=
    ⟨_, adjust_eq (s := x.behind a.lock) a.enters a.unlent name change f, names_edit ..⟩
  destroyed a name := by
    cases hfind : x.table.find? name with
    | none =>
      refine ⟨_, destroy_of_none (s := x.behind a.lock) a.enters a.unlent hfind,
        names_erase .., fun id => ?_⟩
      simp [visited, hfind, behind]
    | some r =>
      refine ⟨_, destroy_of_find? (s := x.behind a.lock) a.enters a.unlent hfind, ?_, fun id => ?_⟩
      · rw [contents_releasing]
        exact names_erase ..
      · simp only [visited, hfind, Option.map_some, Option.getD_some]
        exact entry?_releasing (s := { x.behind a.lock with contents := x.table.erase name })
          h.handles rfl (.name name) r id
  consulted a α f := read_eq (s := x.behind a.lock) a.enters a.unlent f
  withheld me lock q hq := (withholds_serve x.table me hq (x.behind lock) fun _ => id).2

/-- Whatever is stored, changed and destroyed by name, and whatever becomes of handles meanwhile, a
table has the names whose records came and stayed, in the order in which they came, each with what was
last written. -/
theorem names_in_order_of_coming (past : List (Event R)) :
    Listed past (run past).table.names ∧ (run past).table.find? = written past ∧
      (run past).Answers :=
  ⟨(recorded_run past).listed, (recorded_run past).find?_eq, (recorded_run past).answers⟩

/-- A name that comes back stands behind one that came meanwhile. -/
example :
    let _ := Sample.schema ""
    let a : Access := ⟨0, { name := "Pos" }, .inr ⟨rfl, rfl, rfl⟩, rfl⟩
    let store (name : String) : Event (Schema.Row Sample.Kind.pos) :=
      .call a (.populate name ⟨0, 0⟩)
    (run [store "sun", store "moon", store "sun", .call a (.destroy "sun"), store "sun"]).table.names =
      ["moon", "sun"] := by
  decide

end Shelf

end EntityStore.NamedTable
