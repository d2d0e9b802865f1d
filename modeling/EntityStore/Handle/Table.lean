import EntityStore.Arena.Notices

/-!
# The handle table

A handle names a resource outside of the store: a target of some type, filed under a kind. A
lookup names the kind it expects, so that a handle of one kind is never mistaken for another.
-/
namespace EntityStore

inductive Target
  | word (n : UInt32)
  | int (n : Int64)
  | text (s : String)
  | unit
  deriving DecidableEq

inductive TargetType
  | word | int | text | unit
  deriving DecidableEq, Repr

def Target.type : Target → TargetType
  | word _ => .word
  | int _ => .int
  | text _ => .text
  | unit => .unit

structure HandleEntry where
  kind : Nat
  target : Target
  deriving DecidableEq

structure HandleTable where
  arena : Arena 32 HandleEntry := {}

namespace HandleTable

instance : Inhabited HandleTable := ⟨{}⟩

def size (t : HandleTable) : Nat := t.arena.size

def isEmpty (t : HandleTable) : Bool := t.arena.isEmpty

def contains (t : HandleTable) (id : HandleId) : Bool := t.arena.contains id.ident

def entry? (t : HandleTable) (id : HandleId) : Option HandleEntry := t.arena.get? id.ident

def kindOf? (t : HandleTable) (id : HandleId) : Option Nat := (t.entry? id).map (·.kind)

def resolve (t : HandleTable) (id : HandleId) (kind : Nat) : Except Fault Target :=
  match t.entry? id with
  | some e => if e.kind = kind then .ok e.target else .error (.deadHandle id)
  | none => .error (.deadHandle id)

/-- The target of a handle of the given kind, if it also has the given type. -/
def resolveAs (t : HandleTable) (id : HandleId) (kind : Nat) (type : TargetType) :
    Except Fault Target :=
  match t.resolve id kind with
  | .ok target => if target.type = type then .ok target else .error (.deadHandle id)
  | .error f => .error f

def add (t : HandleTable) (kind : Nat) (target : Target) :
    Except Failure HandleId × HandleTable :=
  match t.arena.insert ⟨kind, target⟩ with
  | (.ok i, arena) => (.ok ⟨i⟩, ⟨arena⟩)
  | (.error (.fault (.identsExhausted n)), arena) =>
    (.error (.fault (.handlesExhausted n)), ⟨arena⟩)
  | (.error f, arena) => (.error f, ⟨arena⟩)

def update (t : HandleTable) (id : HandleId) (kind : Nat) (target : Target) :
    Except Fault (Target × HandleTable) :=
  match t.resolve id kind with
  | .ok previous =>
    .ok (previous, ⟨t.arena.modify id.ident fun e => { e with target }⟩)
  | .error f => .error f

def release (t : HandleTable) (id : HandleId) : Except Failure Target × HandleTable :=
  match t.arena.remove id.ident with
  | (.ok (_, e), arena) => (.ok e.target, ⟨arena⟩)
  | (.error (.fault _), arena) => (.error (.fault (.deadHandle id)), ⟨arena⟩)
  | (.error f, arena) => (.error f, ⟨arena⟩)

def addNotices (t : HandleTable) (kind : Nat) : List Notice :=
  t.arena.insertNotices ++
    match (t.add kind .unit).1 with
    | .ok id => [.handleAdded id kind]
    | .error _ => []

def releaseNotices (t : HandleTable) (id : HandleId) : List Notice :=
  t.arena.removeNotices id.ident ++
    match (t.release id).1 with
    | .ok _ => [.handleReleased id]
    | .error _ => []

/-- Releases the handles that a record owned, in order. One that is dead already is noticed and
passed over. -/
def releaseOwned (owner : Owner) (table : String) :
    (ids : List HandleId) → HandleTable → List Notice × HandleTable
  | [], t => ([], t)
  | id :: ids, t =>
    let (result, t') := t.release id
    let notices := match result with
      | .ok _ => t.releaseNotices id
      | .error (.fault f) => t.releaseNotices id ++ [.cannotRelease id owner table f]
      | .error _ => t.releaseNotices id
    let (rest, t'') := releaseOwned owner table ids t'
    (notices ++ rest, t'')

@[simp] theorem releaseOwned_nil (owner : Owner) (table : String) (t : HandleTable) :
    releaseOwned owner table [] t = ([], t) := rfl

end HandleTable

end EntityStore
