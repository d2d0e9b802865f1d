import EntityStore.Signal

/-!
# Audiences

Observers in the order in which they subscribed. A signal reaches those who were there when it
was given; an observer that subscribes while it is being delivered hears the next one.
-/
namespace EntityStore

/-- An observer that brings another one along each time it hears a signal, until its number of
recruits is used up. -/
structure Recruiter where
  name : String
  recruits : Nat
  deriving DecidableEq, Repr

namespace Recruiter

def react : Recruiter → Recruiter × List Recruiter
  | ⟨name, 0⟩ => (⟨name, 0⟩, [])
  | ⟨name, n + 1⟩ => (⟨name, n⟩, [⟨name ++ "+", n⟩])

end Recruiter

structure Audience where
  members : List Recruiter := []

namespace Audience

def size (a : Audience) : Nat := a.members.length

def isEmpty (a : Audience) : Bool := a.members.isEmpty

def subscribe (a : Audience) (r : Recruiter) : Audience := ⟨a.members ++ [r]⟩

/-- Gives a signal. The names are those of the observers that heard it, in order. -/
def fire (a : Audience) : List String × Audience :=
  (a.members.map (·.name),
    ⟨a.members.map (·.react.1) ++ a.members.flatMap (·.react.2)⟩)

end Audience

end EntityStore
