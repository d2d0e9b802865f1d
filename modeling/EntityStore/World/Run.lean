import EntityStore.World.State

/-!
# Running on a world

Operations on a world keep what they did before they failed. A fault can be caught; a breach
passes through everything, but what has to be given back is given back on its way.

Operations that run scripts are given the way to run them, so that each is defined without
regard to what scripts can do.
-/
namespace EntityStore

abbrev Run (K : Type) [Schema K] := EStateM Failure (World K)

/-- A way to run a script, for an entity or for none. -/
abbrev Runner (K : Type) [Schema K] := Option Entity → Script K → Run K Unit

def World.caller : Thread := 0

namespace Run

variable {K α : Type} [Schema K]

def fail (f : Fault) : Run K α := throw (.fault f)

def attempt (body : Run K α) : Run K (Except Fault α) := fun w =>
  match body w with
  | .ok a w => .ok (.ok a) w
  | .error (.fault f) w => .ok (.error f) w
  | .error e w => .error e w

/-- Runs an operation and then another one, however the first one ended. -/
def ensuring (body : Run K α) (after : Run K Unit) : Run K α := fun w =>
  match body w with
  | .ok a w =>
    match after w with
    | .ok () w => .ok a w
    | .error e w => .error e w
  | .error e w =>
    match after w with
    | .ok () w => .error e w
    | .error _ w => .error e w

def orFail : Except Fault α → Run K α
  | .ok a => pure a
  | .error f => fail f

def orThrow : Except Failure α → Run K α
  | .ok a => pure a
  | .error e => throw e

def emit (e : Event K) : Run K Unit := modify fun w => { w with events := w.events.push e }

def note (n : Notice) : Run K Unit := emit (.notice n)

def noteAll (ns : List Notice) : Run K Unit :=
  modify fun w => { w with events := w.events ++ (ns.map Event.notice).toArray }

/-- Tells an observer of a signal. The fault of a script that it runs is dropped. -/
def tell (run : Runner K) (s : Signal) (observer : Nat) : Run K Unit := do
  match (← get).observers[observer]? with
  | none => return ()
  | some o =>
    emit (.observed o.name s)
    match o.on.lookup s.topic with
    | none | some [] => return ()
    | some script =>
      if o.left = 0 then return ()
      modify fun w =>
        { w with observers := w.observers.set observer { o with left := o.left - 1 } }
      let _ ← attempt (run s.entity? script)

def tellFrom (run : Runner K) (s : Signal) : (count first : Nat) → Run K Unit
  | 0, _ => return ()
  | count + 1, first => do
    tell run s first
    tellFrom run s count (first + 1)

/-- Gives a signal to the observers that are subscribed now. -/
def fire (run : Runner K) (s : Signal) : Run K Unit := do
  note (.fired s)
  tellFrom run s (← get).observers.length 0

def show? (moment : TraceEvent) : Tap → Run K Unit
  | .tagged tag => emit (.traced tag moment (moment.context? tag))
  | .journal => note (.traced .info moment)

def trace (tracer : Tracer) (moment : TraceEvent) : Run K Unit := tracer.forM (show? moment)

end Run

end EntityStore
