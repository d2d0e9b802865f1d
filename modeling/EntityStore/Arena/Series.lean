import EntityStore.Arena.Notices

/-!
# Series of calls

Calls that are repeated until one of them fails. What was done before the failure stays done,
and the notices of all calls are kept in order.
-/
namespace EntityStore

/-- What a series of calls gives: its answer, the store afterwards, and the notices. -/
structure Series (σ α : Type) where
  answer : Except Failure α
  store : σ
  notices : List Notice := []

/-- The series with one more call before it, which gave `a`. -/
def Series.precededBy {σ α : Type} (a : α) (said : List Notice) (s : Series σ (List α)) :
    Series σ (List α) :=
  { s with answer := s.answer.map (a :: ·), notices := said ++ s.notices }

namespace Issuer

variable {bits : Nat}

def issueMany : (n : Nat) → Issuer bits → Series (Issuer bits) (List (Ident bits))
  | 0, m => { answer := .ok [], store := m }
  | n + 1, m =>
    let said := m.issueNotices
    match m.next? with
    | none => { answer := .error (.fault (.identsExhausted m.gauge)), store := m }
    | some i => (issueMany n m.advance).precededBy i said

def giveBackMany : (idents : List (Ident bits)) → Issuer bits → Series (Issuer bits) Unit
  | [], m => { answer := .ok (), store := m }
  | i :: rest, m =>
    if m.accepts i then giveBackMany rest (m.recycle i)
    else { answer := .error (.fault (.invalid i)), store := m }

end Issuer

namespace Arena

variable {bits : Nat} {α : Type}

def insertMany : (vs : List α) → Arena bits α → Series (Arena bits α) (List (Ident bits))
  | [], a => { answer := .ok [], store := a }
  | v :: vs, a =>
    let said := a.insertNotices
    match a.insert v with
    | (.error f, a) => { answer := .error f, store := a, notices := said }
    | (.ok i, a) => (insertMany vs a).precededBy i said

/-- Walks the slots from `slot` on, removes every value that satisfies `p`, and stays at a slot
whose value was removed, because another one moved there. Each step ends the turn of one value,
so as many steps as there are values suffice. -/
def sweepFrom (p : α → Except Breach Bool) :
    (steps slot : Nat) → Arena bits α → Series (Arena bits α) (List (Ident bits))
  | 0, _, a => { answer := .ok [], store := a }
  | steps + 1, slot, a =>
    match a.identAt? slot with
    | none => { answer := .ok [], store := a }
    | some i =>
      match a.fetch i >>= p with
      | .error b => { answer := .error (.breach b), store := a }
      | .ok false => sweepFrom p steps (slot + 1) a
      | .ok true =>
        match a.remove i with
        | (.error f, a) => { answer := .error f, store := a }
        | (.ok (slot, _), a) => (sweepFrom p steps slot a).precededBy i [.removed i.display slot]

/-- Removes every value that satisfies `p`, and gives their identifiers in the order of removal.
A value of which `p` cannot be told ends the walk. -/
def sweep (a : Arena bits α) (p : α → Except Breach Bool) :
    Series (Arena bits α) (List (Ident bits)) :=
  sweepFrom p a.size 0 a

end Arena

end EntityStore
