import EntityStore.Journal
import EntityStore.Lock.Bank

/-!
# Routines

What one thread does with the locks of a bank, as a tree: each node is one call, and its
branches are how the thread goes on after each answer. Other threads may come between any two
calls; `Routine.advance` runs a routine up to the point where the thread has to wait.
-/
namespace EntityStore

/-- Calls of one thread on the locks of a bank, ending in a value. -/
inductive Routine (α : Type)
  | done (a : α)
  /-- Enters a lock, waiting for it if need be. -/
  | enter (lock : Nat) (next : Routine α)
  /-- Enters a lock if that is possible at once, and goes on knowing whether it was. -/
  | tryEnter (lock : Nat) (next : Bool → Routine α)
  /-- Leaves a lock, and goes on knowing whether the thread held it. -/
  | leave (lock : Nat) (next : Bool → Routine α)
  /-- Writes to the journal. -/
  | note (n : Notice) (next : Routine α)

namespace Routine

variable {α β : Type}

def bind : Routine α → (α → Routine β) → Routine β
  | done a, f => f a
  | enter l next, f => enter l (next.bind f)
  | tryEnter l next, f => tryEnter l fun b => (next b).bind f
  | leave l next, f => leave l fun b => (next b).bind f
  | note n next, f => note n (next.bind f)

instance : Monad Routine where
  pure := done
  bind := bind

def take (lock : Nat) : Routine Unit := enter lock (done ())

def tryTake (lock : Nat) : Routine Bool := tryEnter lock done

/-- Leaves a lock. The answer is whether the thread held it. -/
def give (lock : Nat) : Routine Bool := leave lock done

def say (n : Notice) : Routine Unit := note n (done ())

inductive Standing (α : Type)
  | finished (a : α)
  /-- The thread sleeps in the queue of a lock. It knows who held the lock when it came, and
  how it goes on once it has entered. -/
  | waiting (lock : Nat) (holder : Option Thread) (next : Routine α)

/-- Runs a routine until it ends or the thread has to wait, with what it wrote. -/
def advance (me : Thread) : Routine α → Bank → Standing α × Bank × List Notice
  | done a, b => (.finished a, b, [])
  | enter l next, b =>
    match b.on l (Lock.enter me) with
    | (true, b) => next.advance me b
    | (false, b') => (.waiting l (b.get l).owner next, b', [])
  | tryEnter l next, b =>
    let (entered, b) := b.on l (Lock.tryEnter me)
    (next entered).advance me b
  | leave l next, b =>
    match (b.get l).leave me with
    | .ok lock => (next true).advance me (b.set l lock)
    | .error _ => (next false).advance me b
  | note n next, b =>
    let (standing, b, notices) := next.advance me b
    (standing, b, n :: notices)

theorem bind_assoc {γ : Type} (r : Routine α) (f : α → Routine β) (g : β → Routine γ) :
    (r.bind f).bind g = r.bind fun a => (f a).bind g := by
  induction r with
  | done a => rfl
  | enter l next ih => simp [bind, ih]
  | tryEnter l next ih => simp only [bind]; congr 1; funext b; exact ih b
  | leave l next ih => simp only [bind]; congr 1; funext b; exact ih b
  | note n next ih => simp [bind, ih]

end Routine

end EntityStore
