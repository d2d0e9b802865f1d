import EntityStore.Handle.Table

/-!
# Requests to the handle table

Each call of the handle table as data, with its answer, its notices, and the signal that a
successful update gives.
-/
namespace EntityStore

inductive HandleRequest
  | add (kind : Nat) (target : Target)
  | update (id : HandleId) (kind : Nat) (target : Target)
  | release (id : HandleId)
  | resolve (id : HandleId) (kind : Nat)
  | resolveAs (id : HandleId) (kind : Nat) (type : TargetType)
  | kindOf (id : HandleId)
  | contains (id : HandleId)
  | count

inductive HandleAnswer
  | handle (id : HandleId)
  /-- The target that a handle has, or had before the call. -/
  | target (t : Target)
  /-- A target of the type that was asked for. -/
  | typed (t : Target)
  | kind (kind : Option Nat)
  | live (b : Bool)
  | count (size : Nat) (isEmpty : Bool)

structure HandleEffect where
  answer : Except Failure HandleAnswer
  table : HandleTable
  notices : List Notice := []
  signal : Option Signal := none

def HandleTable.serve (t : HandleTable) : HandleRequest → HandleEffect
  | .add kind target =>
    let (result, t') := t.add kind target
    { answer := result.map .handle, table := t', notices := t.addNotices kind }
  | .update id kind target =>
    match t.update id kind target with
    | .ok (previous, t') =>
      { answer := .ok (.target previous), table := t', signal := some (.handleUpdated id) }
    | .error f => { answer := .error (.fault f), table := t }
  | .release id =>
    let (result, t') := t.release id
    { answer := result.map .target, table := t', notices := t.releaseNotices id }
  | .resolve id kind =>
    { answer := ((t.resolve id kind).map .target).mapError .fault, table := t }
  | .resolveAs id kind type =>
    { answer := ((t.resolveAs id kind type).map .typed).mapError .fault, table := t }
  | .kindOf id => { answer := .ok (.kind (t.kindOf? id)), table := t }
  | .contains id => { answer := .ok (.live (t.contains id)), table := t }
  | .count => { answer := .ok (.count t.size t.isEmpty), table := t }

end EntityStore
