import LockedContainers.Threads.Latch

/-!
# Threads that start together

Worker threads wait at a latch until all have arrived; then a schedule says
whose request comes next. A request runs as a whole.
-/
namespace LockedContainers

/-- A thread's remaining requests and the answers it has had. -/
structure Worker (α β : Type) where
  pending : List α
  answers : List β := []
deriving DecidableEq, Repr

structure Race (α β : Type) where
  latch : Latch := {}
  workers : List (Worker α β)
deriving DecidableEq, Repr

namespace Race

variable {α β S ε : Type} (operation : α → EStateM ε S β)

/-- All threads wait, and the latch opens for the last of them. -/
def assemble (threads : List (List α)) : Race α β where
  latch := (threads.foldl (fun latch _ => Latch.arrive latch) {}).openAt threads.length
  workers := threads.map fun requests => { pending := requests }

/-- Thread `turn` makes its next request; nothing happens when it has none or may not start. -/
def step (race : Race α β) (turn : Nat) : EStateM ε S (Race α β) := do
  match race.latch.isOpen, race.workers[turn]? with
  | true, some ⟨request :: rest, answers⟩ =>
    let answer ← operation request
    return { race with workers := race.workers.set turn ⟨rest, answers ++ [answer]⟩ }
  | _, _ => return race

def run (race : Race α β) (schedule : List Nat) : EStateM ε S (Race α β) :=
  schedule.foldlM (step operation) race

/-- One thread after another. -/
def inTurn (threads : List (List α)) : List Nat :=
  threads.zipIdx.flatMap fun (requests, turn) => List.replicate requests.length turn

end Race
end LockedContainers
