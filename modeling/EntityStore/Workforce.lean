/-!
# Workforces

A workforce divides a row of items among its workers. A range is the number of its first item
and the number after its last. How the items are divided, and in which order the workers get on, may
be different every time; what can be relied on is that every item is in one range.
-/
namespace EntityStore

def Workforce.numbers (range : Nat × Nat) : List Nat := List.range' range.1 (range.2 - range.1)

/-- Who does the work. `time` is how often there has been work before. -/
structure Workforce where
  /-- The number of threads, zero if the caller does everything. -/
  concurrency : Nat
  /-- The ranges of `len` items that the workers get. Up to `least` items need not be divided. -/
  division : (time len least : Nat) → List (Nat × Nat)
  /-- The numbers of the workers whose turn it is, one after the other. When nobody's turn is left,
  each of them comes to an end, the first one first. -/
  turns : (time : Nat) → List Nat
  /-- The ranges are disjoint and cover the items. -/
  divides (time len least : Nat) :
    ((division time len least).flatMap Workforce.numbers).Perm (List.range len)

namespace Workforce

def ranges (w : Workforce) (len least : Nat) : List (Nat × Nat) := w.division 0 len least

/-- The length of every range but the last when `len` items are divided among `workers`. -/
def chunk (workers len least : Nat) : Nat := max (max ((len + workers - 1) / workers) least) 1

/-- Cuts `len` items into ranges of length `chunk`; the last range may be shorter. -/
def cut (len chunk : Nat) : List (Nat × Nat) :=
  (List.range ((len + chunk - 1) / chunk)).map fun i => (i * chunk, min (i * chunk + chunk) len)

def slice {α : Type} (items : List α) (range : Nat × Nat) : List α :=
  (items.drop range.1).take (range.2 - range.1)

theorem chunk_pos (workers len least : Nat) : 0 < chunk workers len least := by
  simp only [chunk]; omega

/-- Up to as many items as a range may have, times the number of ranges. -/
theorem le_count_mul {c : Nat} (hc : 0 < c) (len : Nat) : len ≤ (len + c - 1) / c * c := by
  have hdiv := Nat.div_add_mod' (len + c - 1) c
  have hmod := Nat.mod_lt (len + c - 1) hc
  omega

theorem numbers_whole (len : Nat) : [(0, len)].flatMap numbers = List.range len := by
  simp [numbers, List.range_eq_range']

/-- Ranges of one length that start at its multiples have the numbers before the last of them. -/
theorem numbers_range (len c n : Nat) :
    ((List.range n).map fun i => (i * c, min (i * c + c) len)).flatMap numbers =
      List.range (min (n * c) len) := by
  induction n with
  | zero => simp
  | succ n ih =>
    rw [List.range_succ, List.map_append, List.flatMap_append, ih, Nat.succ_mul]
    simp only [List.map_cons, List.map_nil, List.flatMap_cons, List.flatMap_nil, List.append_nil,
      numbers, List.range_eq_range']
    by_cases hlen : n * c ≤ len
    · have hjoin := @List.range'_append 0 (n * c) (min (n * c + c) len - n * c) 1
      rw [Nat.one_mul, Nat.zero_add] at hjoin
      rw [Nat.min_eq_left hlen, hjoin]
      congr 1
      omega
    · have hend : min (n * c + c) len - n * c = 0 := by omega
      rw [hend, List.range'_zero, List.append_nil]
      congr 1
      omega

theorem numbers_cut {c : Nat} (hc : 0 < c) (len : Nat) :
    (cut len c).flatMap numbers = List.range len := by
  rw [cut, numbers_range, Nat.min_eq_right (le_count_mul hc len)]

/-- The caller alone, who takes all items as one range. -/
def caller : Workforce where
  concurrency := 0
  division _ len _ := if 0 < len then [(0, len)] else []
  turns _ := []
  divides _ len _ := by
    split
    · exact .of_eq (numbers_whole len)
    · next h => rw [Nat.eq_zero_of_not_pos h]; exact .refl _

/-- So many threads, and at least one. Up to `least` items are one range. -/
def threads (count : Nat) : Workforce where
  concurrency := max count 1
  division _ len least :=
    if len = 0 then []
    else if len ≤ least then [(0, len)]
    else cut len (chunk (max count 1) len least)
  turns _ := []
  divides _ len least := by
    split
    · next h => rw [h]; exact .refl _
    · split
      · exact .of_eq (numbers_whole len)
      · exact .of_eq (numbers_cut (chunk_pos ..) len)

theorem ranges_threads (count len least : Nat) : (threads count).ranges len least =
    if len = 0 then []
    else if len ≤ least then [(0, len)]
    else cut len (chunk (max count 1) len least) := rfl

end Workforce

end EntityStore
