import EntityStore.Handle.References

/-!
# Records

What a store has to know about the types of the records that it keeps.
-/
namespace EntityStore

structure Field where
  /-- The name of the field, or its position. -/
  name : String
  /-- The type of the field as it is declared. -/
  type : String
  /-- The size of the field in bytes. -/
  size : Nat
  deriving DecidableEq, Repr

/-- A type of records. -/
class Record (R : Type) where
  /-- The name of the tables that keep such records. Two types may share one. -/
  tableName : String
  fields : List Field
  /-- The handles that a record owns: they are released when the record is destroyed. -/
  owned : R → References

/-- The record types of a world, one for each kind. -/
class Schema (K : Type) where
  Row : K → Type
  /-- The name of the record type. Unlike that of its table, it is its own. -/
  typeName : K → String
  record : (k : K) → Record (Row k)

instance {K : Type} [Schema K] {k : K} : Record (Schema.Row k) := Schema.record k

def Schema.tableName {K : Type} [Schema K] (k : K) : String := Record.tableName (Schema.Row k)

end EntityStore
