import Std.Data.HashSet
import LockedContainers.History.Model

/-!
# The search for a legal order

An exhaustive search for an order of all events that respects real time and
that the model accepts. An event may come next when no event still to be
placed returned before it was invoked. Pairs of placed events and state that
were entered once are not entered again.
-/
namespace LockedContainers

inductive HistoryError
  | tooLong
deriving DecidableEq, Repr

def HistoryError.message : HistoryError → String
  | tooLong => "linearizability_checker: at most 64 events"

/-- Placed events as a bit set, with the state they lead to. -/
abbrev Visited (S : Type) [BEq S] [Hashable S] := Std.HashSet (UInt64 × S)

/-- A history under search; what was visited stays visited from one search to the next. -/
structure OrderSearch (S : Type) [BEq S] [Hashable S] where
  history : List Event
  model : Model S
  visited : Visited S := ∅

namespace OrderSearch

/-- The bit of the event at a position. -/
def bit (i : Nat) : UInt64 := 1 <<< UInt64.ofNat i

/-- Sets of placed events have so many bits. -/
def maxEvents : Nat := 64

/-- All events placed. Where they take every bit of the word there is no bit above theirs. -/
def full (history : List Event) : UInt64 :=
  if history.length = maxEvents then ~~~0 else bit history.length - 1

/-- Events that are not placed, with their positions. -/
def unplaced (history : List Event) (placed : UInt64) : List (Event × Nat) :=
  history.zipIdx.filter fun (_, i) => placed &&& bit i = 0

/-- Events that may come next. -/
def candidates (history : List Event) (placed : UInt64) : List (Event × Nat) :=
  let rest := unplaced history placed
  match (rest.map fun (e, _) => e.returned).min? with
  | none => []
  | some horizon => rest.filter fun (e, _) => e.invoked ≤ horizon

/-- Tries one after another and stops at the first success. -/
def tryEach {α V : Type} (attempt : α → V → Bool × V) : List α → V → Bool × V
  | [], v => (false, v)
  | a :: rest, v =>
    match attempt a v with
    | (true, v) => (true, v)
    | (false, v) => tryEach attempt rest v

variable {S : Type} [BEq S] [Hashable S]

/-- The first number counts the events still to be placed. -/
def explore (model : Model S) (history : List Event) :
    Nat → UInt64 → S → Visited S → Bool × Visited S
  | 0, placed, _, visited => (placed = full history, visited)
  | n + 1, placed, state, visited =>
    if placed = full history then (true, visited)
    else if visited.contains (placed, state) then (false, visited)
    else
      tryEach
        (fun (e, i) visited =>
          match model.step state e with
          | (true, next) => explore model history n (placed ||| bit i) next visited
          | (false, _) => (false, visited))
        (candidates history placed) (visited.insert (placed, state))

def make (history : List Event) (model : Model S) : Except HistoryError (OrderSearch S) :=
  if maxEvents < history.length then .error .tooLong else .ok { history, model }

/-- Whether a legal order is found. -/
def ask (search : OrderSearch S) : Bool × OrderSearch S :=
  let (found, visited) :=
    explore search.model search.history search.history.length 0 search.model.initial search.visited
  (found, { search with visited })

end OrderSearch

/-- Whether some order of the history is legal and respects real time. -/
def linearizable {S : Type} [BEq S] [Hashable S] (history : List Event) (model : Model S) :
    Except HistoryError Bool := do
  return (← OrderSearch.make history model).ask.1

end LockedContainers
