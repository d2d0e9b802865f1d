import EntityStore.Arena
import EntityStore.Journal

/-!
# Notices of an arena

What an arena writes to the journal when a call is about to change it: an index that is issued
again, and a value that leaves.
-/
namespace EntityStore

/-- Issuing is noticed only when an index is used again. -/
def Issuer.issueNotices {bits : Nat} (m : Issuer bits) : List Notice :=
  match m.recycled? with
  | some i => [.reissued i.index i.generation]
  | none => []

namespace Arena

variable {bits : Nat} {α : Type}

def insertNotices (a : Arena bits α) : List Notice := a.issuer.issueNotices

def removeNotices (a : Arena bits α) (i : Ident bits) : List Notice :=
  match a.slotOf? i with
  | some slot => if a.issuer.isCurrent i then [.removed i.display slot] else []
  | none => []

end Arena

end EntityStore
