import EntityStore.Ident

/-!
# Signals

What observers of a world are told.
-/
namespace EntityStore

inductive Signal
  | entityCreated (e : Entity)
  /-- The entity is about to be destroyed. -/
  | entityDestroyed (e : Entity)
  | handleUpdated (h : HandleId)
  | systemsPaused
  | systemsResumed
  deriving DecidableEq, Repr

/-- What a signal is about, apart from its subject. -/
inductive Topic
  | entityCreated | entityDestroyed | handleUpdated | systemsPaused | systemsResumed
  deriving DecidableEq, Repr

namespace Signal

def topic : Signal → Topic
  | entityCreated _ => .entityCreated
  | entityDestroyed _ => .entityDestroyed
  | handleUpdated _ => .handleUpdated
  | systemsPaused => .systemsPaused
  | systemsResumed => .systemsResumed

def entity? : Signal → Option Entity
  | entityCreated e => some e
  | entityDestroyed e => some e
  | _ => none

def text : Signal → String
  | entityCreated e => s!"EntityCreated({e.display})"
  | entityDestroyed e => s!"EntityDestroyed({e.display})"
  | handleUpdated h => s!"HandleUpdated({h.display})"
  | systemsPaused => "SystemsPaused"
  | systemsResumed => "SystemsResumed"

end Signal

end EntityStore
