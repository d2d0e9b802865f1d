import EntityStore.Ident

/-!
# Faults and breaches

A fault is a refusal that the caller can handle: it says what was asked for and why it cannot
be done. A breach is the violation of a rule the caller had to keep; it ends everything up to
the outermost call. Both are causes; the wording is in `Fault.message` and `Breach.message`.
-/
namespace EntityStore

inductive Registrand
  | archetype (id : Nat)
  | component (typeName : String)
  | sharedComponent (typeName : String)
  | system (typeName : String)
  | other (what : String)
  deriving DecidableEq, Repr

def Registrand.text : Registrand → String
  | archetype id => s!"archetype ArchetypeId({id})"
  | component name => s!"component table {name}"
  | sharedComponent name => s!"shared component table {name}"
  | system name => s!"system {name}"
  | other what => what

/-- Why a value does not fit the table it was offered to. -/
inductive Misfit
  | missing
  | mismatch
  | other (reason : String)
  deriving DecidableEq, Repr

def Misfit.text : Misfit → String
  | missing => "missing value"
  | mismatch => "record type mismatch"
  | other reason => reason

/-- A refusal that the caller can handle. -/
inductive Fault
  /-- Every index of the width is outstanding. -/
  | identsExhausted (issued : Nat)
  | entitiesExhausted (issued : Nat)
  | handlesExhausted (issued : Nat)
  | componentNotFound (name : String)
  | systemNotFound (name : String)
  | archetypeNotFound (id : Nat)
  /-- The identifier is not live in the store it was used with. -/
  | identInvalid (index : Nat) (generation : Generation)
  /-- The handle is not live, or of another kind or type than asked for. -/
  | handleInvalid (index : Nat) (generation : Generation)
  /-- The entity has no record in the table, or is not in the registry of entities. -/
  | recordNotFound (entity : Entity) (table : String)
  | alreadyExists (what : Registrand)
  /-- The index of the identifier is taken in the store. -/
  | alreadyAdded (index : Nat) (generation : Generation)
  | invalidData (table : String) (misfit : Misfit)
  deriving DecidableEq, Repr

namespace Fault

def invalid {K : Type} [Keyed K] (key : K) : Fault :=
  identInvalid (Keyed.index key) (Keyed.generation key)

def added {K : Type} [Keyed K] (key : K) : Fault :=
  alreadyAdded (Keyed.index key) (Keyed.generation key)

def deadHandle (id : HandleId) : Fault :=
  handleInvalid (Keyed.index id) (Keyed.generation id)

/-- The name that stands for the registry of entities where a table's name is expected. -/
def registryName : String := "entities"

def message : Fault → String
  | identsExhausted n => s!"cookies exhausted after issuing {n} indices"
  | entitiesExhausted n => s!"entity ids exhausted after issuing {n} ids"
  | handlesExhausted n => s!"handle ids exhausted after issuing {n} ids"
  | componentNotFound name => s!"component table {name} is not registered"
  | systemNotFound name => s!"system {name} is not registered"
  | archetypeNotFound id => s!"archetype {id} is not registered"
  | identInvalid i g => s!"cookie {i}v{g.text} is not live"
  | handleInvalid i g => s!"handle {i}v{g.text} is not a live handle of the requested kind"
  | recordNotFound e table => s!"{e.display} has no record in {table}"
  | alreadyExists what => s!"{what.text} is already registered"
  | alreadyAdded i g => s!"cookie {i}v{g.text} is already added"
  | invalidData table misfit => s!"invalid data for table {table}: {misfit.text}"

end Fault

/-- A rule that the caller broke. -/
inductive Breach
  /-- An identifier was used to index an arena in which it is not live. -/
  | notLive (ident : String)
  /-- A lock was released by a thread that does not hold it. -/
  | notHolder (lock : String)
  /-- The contents behind a lock were asked for while the same thread has them. -/
  | nestedGuard (lock : String)
  /-- A slot or a lock was named that there is not. -/
  | outOfBounds
  /-- A row was to be stored under an index that no reverse index can cover. -/
  | beyondReach
  /-- An identifier that a store holds turned out not to be current. -/
  | notCurrent
  /-- More indices wait to be reissued than were ever issued. -/
  | overdrawn
  /-- A remainder was asked for that does not exist. -/
  | noRemainder
  deriving DecidableEq, Repr

def Breach.message? : Breach → Option String
  | notLive ident => some s!"{ident} is not live in this jar"
  | notHolder lock => some s!"table lock {lock} is released by a thread that does not hold it"
  | nestedGuard lock => some
      (s!"table {lock} is already borrowed by this thread; " ++
        "nested table guards are not supported")
  | _ => none

/-- Why a call did not answer. -/
inductive Failure
  | fault (f : Fault)
  | breach (b : Breach)
  /-- Calls were nested deeper, or a queue drained longer, than the allowance of the run. -/
  | exhausted
  /-- The only thread there is waits for a lock that nobody will release. -/
  | stuck
  deriving DecidableEq, Repr

end EntityStore
