import EntityStore.Ident

/-!
# Handles owned by a record

The handles that a value owns, nested in options and lists as they are in the value. They are
visited in order, once for every place they stand in.
-/
namespace EntityStore

/-- A value seen as the places in which it may own a handle. -/
inductive References
  | one (h : HandleId)
  | absent
  | present (r : References)
  | many (rs : List References)
  deriving Repr

namespace References

mutual

/-- The handles of a value, in the order in which they are visited. -/
def ids : References → List HandleId
  | one h => [h]
  | absent => []
  | present r => r.ids
  | many rs => idsOfAll rs

def idsOfAll : List References → List HandleId
  | [] => []
  | r :: rs => r.ids ++ idsOfAll rs

end

instance : Inhabited References := ⟨absent⟩

end References

end EntityStore
