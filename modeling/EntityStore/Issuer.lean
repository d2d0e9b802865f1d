import EntityStore.Fault

/-!
# Issuing identifiers

An issuer hands out identifiers of one width. Indices that came back are handed out again
before a fresh one is taken, the last to come back first; an index that comes back moves on to
the next generation, so that every copy issued before stops being current.
-/
namespace EntityStore

/-- The state of one id space. -/
structure Issuer (bits : Nat) where
  /-- The next index never issued. -/
  gauge : Nat := 0
  /-- The current generation of each issued index. -/
  generations : Array Generation := #[]
  /-- The indices waiting to be reissued, the next one first. -/
  free : List (Fin (indices bits)) := []

namespace Issuer

variable {bits : Nat}

instance : Inhabited (Issuer bits) := ⟨{}⟩

/-- The number of distinct indices ever issued. -/
def issued (m : Issuer bits) : Nat := m.gauge

def recyclable (m : Issuer bits) : Nat := m.free.length

/-- The number of identifiers issued and not given back. There is none when more were given back
than issued. -/
def outstanding (m : Issuer bits) : Except Breach Nat :=
  if m.free.length ≤ m.gauge then .ok (m.gauge - m.free.length) else .error .overdrawn

def recycled? (m : Issuer bits) : Option (Ident bits) :=
  match m.free with
  | [] => none
  | i :: _ => some ⟨i, m.generations.getD i .unissued, i.isLt⟩

/-- The identifier that is issued next: the index given back last, or else a fresh one, if any is
left. -/
def next? (m : Issuer bits) : Option (Ident bits) :=
  match m.recycled? with
  | some i => some i
  | none => Ident.ofNat? bits m.gauge .first

def advance : Issuer bits → Issuer bits
  | ⟨gauge, generations, []⟩ => ⟨gauge + 1, generations.push .first, []⟩
  | ⟨gauge, generations, _ :: free⟩ => ⟨gauge, generations, free⟩

def issue (m : Issuer bits) : Except Fault (Ident bits × Issuer bits) :=
  match m.next? with
  | none => .error (.identsExhausted m.gauge)
  | some i => .ok (i, m.advance)

/-- Whether the identifier can be given back: only its generation is compared. -/
def accepts (m : Issuer bits) (i : Ident bits) : Bool :=
  m.generations[i.index]? = some i.generation

def recycle (m : Issuer bits) (i : Ident bits) : Issuer bits :=
  { m with
    generations := m.generations.setIfInBounds i.index i.generation.next
    free := ⟨i.index, i.index_lt⟩ :: m.free }

def giveBack (m : Issuer bits) (i : Ident bits) : Except Fault (Issuer bits) :=
  if m.accepts i then .ok (m.recycle i) else .error (.invalid i)

/-- Whether the identifier carries the current generation of an issued index. -/
def isCurrent (m : Issuer bits) (i : Ident bits) : Bool := m.accepts i && !i.isVoid

end Issuer

end EntityStore
