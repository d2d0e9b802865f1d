import EntityStore.Proofs.Table.Mirror
import EntityStore.Proofs.Workforce.Words
import EntityStore.Sample

/-!
# Surveys of a table

The records of a table are gone through by a workforce, which is given them in ranges of slots. Every
worker finds a record in each of its slots, and whoever's turn it is, each entity that has a record
is met once, with its record.
-/
namespace EntityStore

open Workforce (Division Interleaves slice unword wordRanges?)

namespace Table

open Guarded (bind_of_ok)

variable {R : Type} [Record R]

namespace Sitting

def shares (x : Sitting R) (crew : Workforce) (least : Nat) : List (List (Entity × R)) :=
  (crew.ranges x.state.contents.rows.size least).map (slice x.state.contents.rows.toList)

/-- What a survey by a workforce comes to. -/
structure Surveyed (x : Sitting R) (me : Thread) (crew : Workforce) (least : Nat) : Prop where
  /-- The share of a range is what is in its slots, and none of them is empty. -/
  filled : ∀ r ∈ crew.ranges x.state.contents.rows.size least,
    (slice x.state.contents.rows.toList r).map some =
      (List.range' r.1 (r.2 - r.1)).map fun slot => x.state.contents.rows.rows[slot]?
  /-- Whoever's turn it is, no entity is met twice, and those met are those that have records. -/
  once : ∀ calls, Interleaves (x.shares crew least) calls → (calls.map Prod.fst).Nodup ∧
    ∀ e r, (e, r) ∈ calls ↔ x.state.contents.rows.get? e = some r
  interleaves : Interleaves (x.shares crew least) (x.state.contents.divided crew least)
  /-- A survey is answered, and the table is as before. -/
  served : ∀ f, ∃ ns, serve me (.survey crew least f) x.state = .ok (.numbers ns) x.state ∧
    ns.Perm ((x.state.contents.divided crew least).map fun row => (row.1, f row.2))

theorem Kept.surveyed {x : Sitting R} (h : x.Kept) (me : Thread) (crew : Workforce) (least : Nat) :
    x.Surveyed me crew least := by
  have hsize : x.state.contents.rows.size = x.state.contents.rows.toList.length := by
    simp [Packed.size, Packed.toList]
  have hwhole : (x.shares crew least).flatten.Perm x.state.contents.rows.toList := by
    rw [shares, hsize]
    exact Workforce.perm_slices crew 0 least _
  refine ⟨fun r hr => ?_, fun calls hcalls => ?_, ?_, fun f => ?_⟩
  · rw [Workforce.map_some_slice (hsize ▸ hr)]
    simp [Workforce.numbers, Packed.toList]
  · have hperm := hcalls.perm.trans hwhole
    refine ⟨(hperm.map Prod.fst).nodup_iff.mpr h.sound.rows.keys_nodup, fun e r => ?_⟩
    rw [hperm.mem_iff, h.sound.rows.mem_toList_iff]
  · rw [divided, List.flatMap_def]
    exact Workforce.interleaves_flatten _
  · simp only [serve]
    rw [bind_of_ok (read_eq (h.free me) h.unlent _)]
    exact ⟨_, rfl, List.mergeSort_perm ..⟩

/-- Threads are given ranges that divide what there is, computed without an overflow, and every
survey of a table, whatever has been done with it, meets each record once. -/
theorem surveyed_run :
    (∀ workers len least, 0 < workers →
      Division ((Workforce.threads workers).ranges len least) workers len least) ∧
    (∀ workers len least : UInt64, 0 < workers.toNat → workers.toNat < 2 ^ 63 →
      len.toNat < 2 ^ 63 → least.toNat < 2 ^ 63 → ∃ rs, wordRanges? workers len least = some rs ∧
        rs.map unword = (Workforce.threads workers.toNat).ranges len.toNat least.toNat) ∧
    ∀ name spinLimit handles connected (calls : List (Thread × Call R)) me crew least,
      ((start name spinLimit handles connected).run calls).Surveyed me crew least :=
  ⟨fun _ _ _ hw => Workforce.division_ranges hw .., fun _ _ _ hw hworkers hlen _ =>
    Workforce.wordRanges?_eq hw hworkers hlen, fun name spinLimit handles connected calls =>
    ((kept_start name spinLimit handles connected).run calls).surveyed⟩

/-- Three workers and ten items; and a table from which a newer entity has evicted an older one. -/
theorem surveyed_run_evicted :
    let _ := Sample.schema ""
    let older : Entity := ⟨⟨0, ⟨2⟩, by decide⟩⟩
    let newer : Entity := ⟨⟨0, ⟨5⟩, by decide⟩⟩
    let other : Entity := ⟨⟨3, ⟨1⟩, by decide⟩⟩
    let place (e : Entity) (n : Int64) : Thread × Call (Schema.Row Sample.Kind.pos) :=
      (0, .request (.populate e ⟨n, n⟩))
    let x := (start "Pos" 0 {} true).run [place older 1, place other 2, place newer 3]
    Division ((Workforce.threads 3).ranges 10 2) 3 10 2 ∧
      (∃ rs, wordRanges? 3 10 2 = some rs ∧ rs.map unword = [(0, 4), (4, 8), (8, 10)]) ∧
      x.Surveyed 1 (.threads 2) 1 ∧
      (x.shares (.threads 2) 1).map (·.map fun row => (row.1, Sample.key .pos row.2)) =
        [[(other, 2)], [(newer, 3)]] := by
  intro _ older newer other place x
  obtain ⟨hdivision, hwords, hsurveyed⟩ := surveyed_run (R := Schema.Row Sample.Kind.pos)
  refine ⟨hdivision 3 10 2 (by decide), ?_, hsurveyed "Pos" 0 {} true _ 1 (.threads 2) 1,
    by decide +kernel⟩
  exact hwords 3 10 2 (by decide) (by decide) (by decide) (by decide)

end Sitting

end Table

end EntityStore
