import EntityStore.Generation

/-!
# Identifiers

An identifier is an index of a given width together with the generation the index had when it
was issued. Once the index is recycled, copies of the old identifier name nothing.
Entities and handles are identifiers of 32 bits in id spaces of their own.
-/
namespace EntityStore

def indices (bits : Nat) : Nat := Nat.pow 2 bits

theorem indices_pos (bits : Nat) : 0 < indices bits := Nat.two_pow_pos bits

/-- An index of a width and the generation it was issued at. -/
structure Ident (bits : Nat) where
  index : Nat
  generation : Generation
  index_lt : index < indices bits
  deriving DecidableEq, Repr

namespace Ident

variable {bits : Nat}

def ofNat? (bits index : Nat) (generation : Generation) : Option (Ident bits) :=
  if h : index < indices bits then some ⟨index, generation, h⟩ else none

def maxIndex (bits : Nat) : Nat := indices bits - 1

/-- The identifier that names nothing: the largest index, never issued. -/
def void (bits : Nat) : Ident bits :=
  ⟨maxIndex bits, .unissued, Nat.sub_lt (indices_pos bits) Nat.one_pos⟩

instance : Inhabited (Ident bits) := ⟨void bits⟩

/-- Whether the identifier can name nothing, whatever its index. -/
def isVoid (i : Ident bits) : Bool := i.generation = .unissued

def compare (a b : Ident bits) : Ordering :=
  (Ord.compare a.index b.index).then (a.generation.compare b.generation)

/-- The index and the generation, as `3v1`. -/
def text (i : Ident bits) : String := s!"{i.index}v{i.generation.text}"

/-- The index and the generation inside a label; an identifier never issued shows as invalid. -/
def labelled (label : String) (i : Ident bits) : String :=
  if i.isVoid then s!"{label}(INVALID)" else s!"{label}({i.text})"

def display (i : Ident bits) : String := i.labelled "Cookie"

end Ident

/-- What rows of a packed store are addressed by: an index, shared by all generations of it. -/
class Keyed (K : Type) where
  index : K → Nat
  generation : K → Generation

instance {bits : Nat} : Keyed (Ident bits) := ⟨Ident.index, Ident.generation⟩

structure Entity where
  ident : Ident 32
  deriving DecidableEq, Repr, Inhabited

namespace Entity

instance : Keyed Entity := ⟨fun e => e.ident.index, fun e => e.ident.generation⟩

def void : Entity := ⟨.void 32⟩

def generation (e : Entity) : Generation := e.ident.generation

def isVoid (e : Entity) : Bool := e.ident.isVoid

def text (e : Entity) : String := e.ident.text

def display (e : Entity) : String := e.ident.labelled "Entity"

end Entity

structure HandleId where
  ident : Ident 32
  deriving DecidableEq, Repr, Inhabited

namespace HandleId

instance : Keyed HandleId := ⟨fun h => h.ident.index, fun h => h.ident.generation⟩

def void : HandleId := ⟨.void 32⟩

def text (h : HandleId) : String := h.ident.text

/-- Unlike an entity, a handle that was never issued shows its parts. -/
def display (h : HandleId) : String := s!"HandleId({h.ident.text})"

end HandleId

end EntityStore
