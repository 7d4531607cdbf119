import Mathlib.Logic.Function.Basic
import LockedContainers.Set.Request

/-!
# The nodes of a coupled set

The set at the grain of its locks and links. A thread holds at most two
adjacent nodes; it gives the first one up before it asks for the next. It
steps from one access to shared memory to the next, and an access to a node
that is not there, or a misuse of a lock, crashes it. A thread that is alone
carries out the operations of `CoupledSet`.
-/
namespace LockedContainers

variable {Thread T ε σ : Type}

structure Node (T : Type) where
  place : Place T
  /-- The address of the next node. -/
  next : Option Nat
deriving DecidableEq, Repr

/-- Whether a walk that stops at the node has been over the whole list. -/
def Node.isEnd : Node T → Bool
  | ⟨.tail, none⟩ => true
  | _ => false

structure NodeHeap (Thread T : Type) where
  head : Nat
  nodes : Nat → Option (Node T)
  /-- The thread that holds the node's lock. -/
  owner : Nat → Option Thread
  count : Nat

/-- A head linked to a tail. -/
def NodeHeap.empty : NodeHeap Thread T where
  head := 0
  nodes
    | 0 => some ⟨.head, some 1⟩
    | 1 => some ⟨.tail, none⟩
    | _ => none
  owner _ := none
  count := 0

inductive SearchKind
  | add
  | remove
  | contains
deriving DecidableEq, Repr

/-- An operation that traverses the list. -/
inductive Errand (T : Type)
  | search (kind : SearchKind) (key : T)
  | snapshot
  | audit (atRest : Bool)
deriving DecidableEq, Repr

def Errand.request : Errand T → SetRequest T
  | search .add key => .add key
  | search .remove key => .remove key
  | search .contains key => .contains key
  | snapshot => .snapshot
  | audit true => .audit
  | audit false => .auditLive

abbrev SetOutcome (T ε : Type) := Except ε (SetAnswer T)

/-- What is left to do once the locks are given up. -/
inductive Ending (T ε : Type)
  | settled (outcome : SetOutcome T ε)
  /-- An audit at rest that counted `seen` nodes and has to read the counter. -/
  | counting (seen : Nat)

/-- Where a thread stands in an operation, with the addresses that it has in hand. -/
inductive Phase (T ε : Type)
  /-- Before the lock of the head. -/
  | entering
  /-- Before the link of `pred`. -/
  | resting (pred : Nat)
  /-- Before the lock of `curr`. -/
  | waiting (pred curr : Nat)
  | visiting (pred curr : Nat)
  /-- Before `pred` is given up for `curr`. -/
  | passing (pred curr : Nat)
  /-- Before the test whether `curr` has the key. -/
  | located (pred curr : Nat) (kind : SearchKind) (key : T)
  | building (pred curr : Nat) (key : T)
  /-- Before the link to the new node. -/
  | splicing (pred curr node : Nat)
  /-- Before the counter goes up. -/
  | tallying (pred curr : Nat)
  /-- Before the link of `curr`, which has the key to be removed. -/
  | doomed (pred curr : Nat)
  /-- Before the link past `curr`. -/
  | cutting (pred curr : Nat) (next : Option Nat)
  /-- Before the counter goes down. -/
  | discounting (pred victim : Nat)
  | dropping (pred victim : Nat)
  | deleting (pred victim : Nat)
  | leaving (pred curr : Nat) (ending : Ending T ε)
  /-- Before the last lock is given up. -/
  | left (pred : Nat) (ending : Ending T ε)
  | comparing (seen : Nat)
  | returning (outcome : SetOutcome T ε)
  | crashed

structure Task (T ε : Type) where
  errand : Errand T
  copied : Array T := #[]
  /-- The key that an audit saw last, and how many it saw. -/
  audited : Option T × Nat := (none, 0)
  phase : Phase T ε := .entering

/-- A step of a task: what it makes of the heap, of the callbacks and of itself. -/
structure Act (Thread T ε σ : Type) where
  heap : NodeHeap Thread T
  outside : σ
  task : Task T ε
  /-- The outcome of the operation, in the step that settles it. -/
  decided : Option (SetOutcome T ε) := none

namespace Task

variable (cb : SetCallbacks T ε σ) (task : Task T ε)

def goTo (phase : Phase T ε) (heap : NodeHeap Thread T) (o : σ) : Option (Act Thread T ε σ) :=
  some { heap, outside := o, task := { task with phase } }

def crash (heap : NodeHeap Thread T) (o : σ) : Option (Act Thread T ε σ) :=
  task.goTo .crashed heap o

/-- Fixes the outcome while both nodes are held. -/
def settle (pred curr : Nat) (outcome : SetOutcome T ε) (heap : NodeHeap Thread T) (o : σ) :
    Option (Act Thread T ε σ) :=
  some { heap, outside := o, task := { task with phase := .leaving pred curr (.settled outcome) },
         decided := some outcome }

/-- Takes the lock of a node, when it is free. -/
def acquire [DecidableEq Thread] (t : Thread) (a : Nat) (phase : Phase T ε)
    (heap : NodeHeap Thread T) (o : σ) : Option (Act Thread T ε σ) :=
  match heap.nodes a, heap.owner a with
  | none, _ => task.crash heap o
  | some _, some _ => none
  | some _, none => task.goTo phase { heap with owner := Function.update heap.owner a (some t) } o

def release [DecidableEq Thread] (t : Thread) (a : Nat) (phase : Phase T ε)
    (heap : NodeHeap Thread T) (o : σ) : Option (Act Thread T ε σ) :=
  if (heap.nodes a).isSome ∧ heap.owner a = some t then
    task.goTo phase { heap with owner := Function.update heap.owner a none } o
  else task.crash heap o

/-- Writes a link, which settles an update. -/
def relink (a : Nat) (next : Option Nat) (phase : Phase T ε) (heap : NodeHeap Thread T) (o : σ) :
    Option (Act Thread T ε σ) :=
  match heap.nodes a with
  | none => task.crash heap o
  | some node =>
    some { heap := { heap with nodes := Function.update heap.nodes a (some { node with next }) }
           outside := o, task := { task with phase }, decided := some (.ok (.flag true)) }

/-- What a task makes of the node at `curr`: it goes on, stops there, or is settled. An audit whose
walk ends before the end of the list does not come to the counter. -/
def visit (pred curr : Nat) (node : Node T) : EStateM ε σ (Task T ε × Option (SetOutcome T ε)) :=
  let on : Task T ε := { task with phase := .passing pred curr }
  let settled (answer : SetAnswer T) : Task T ε × Option (SetOutcome T ε) :=
    ({ task with phase := .leaving pred curr (.settled (.ok answer)) }, some (.ok answer))
  match task.errand, node.place with
  | .search kind key, place => do
    if ← place.isBefore cb key then return (on, none)
    else return ({ task with phase := .located pred curr kind key }, none)
  | .snapshot, .at k => do
    let (copied, _) ← CoupledSet.copyNode cb task.copied k
    return ({ on with copied }, none)
  | .snapshot, _ => return settled (.keys task.copied.toList)
  | .audit _, .at k => do
    match ← CoupledSet.auditNode cb task.audited k with
    | (audited, true) => return ({ on with audited }, none)
    | (_, false) => return settled (.flag false)
  | .audit false, _ => return settled (.flag node.isEnd)
  | .audit true, _ =>
    if node.isEnd then
      return ({ task with phase := .leaving pred curr (.counting task.audited.2) }, none)
    else return settled (.flag false)

/-- What the equivalence test makes of a search. -/
def conclude (pred curr : Nat) (key : T) (heap : NodeHeap Thread T) (o : σ) :
    SearchKind → Bool → Option (Act Thread T ε σ)
  | .add, true => task.settle pred curr (.ok (.flag false)) heap o
  | .add, false => task.goTo (.building pred curr key) heap o
  | .remove, true => task.goTo (.doomed pred curr) heap o
  | .remove, false => task.settle pred curr (.ok (.flag false)) heap o
  | .contains, same => task.settle pred curr (.ok (.flag same)) heap o

/-- The next step, when there is one; a new node comes to the address `fresh`. -/
def act [DecidableEq Thread] (t : Thread) (fresh : Nat) (heap : NodeHeap Thread T) (o : σ) :
    Option (Act Thread T ε σ) :=
  match task.phase with
  | .entering => task.acquire t heap.head (.resting heap.head) heap o
  | .resting pred =>
    match heap.nodes pred with
    | some ⟨_, some curr⟩ => task.goTo (.waiting pred curr) heap o
    | _ => task.crash heap o
  | .waiting pred curr => task.acquire t curr (.visiting pred curr) heap o
  | .visiting pred curr =>
    match heap.nodes curr with
    | none => task.crash heap o
    | some node =>
      match task.visit cb pred curr node o with
      | .ok (task, decided) o => some { heap, outside := o, task, decided }
      | .error e o => task.settle pred curr (.error e) heap o
  | .passing pred curr => task.release t pred (.resting curr) heap o
  | .located pred curr kind key =>
    match heap.nodes curr with
    | none => task.crash heap o
    | some node =>
      match node.place.isSame cb key o with
      | .ok same o => task.conclude pred curr key heap o kind same
      | .error e o => task.settle pred curr (.error e) heap o
  | .building pred curr key =>
    match heap.nodes fresh with
    | some _ => none
    | none =>
      task.goTo (.splicing pred curr fresh)
        { heap with nodes := Function.update heap.nodes fresh (some ⟨.at key, some curr⟩) } o
  | .splicing pred curr node => task.relink pred (some node) (.tallying pred curr) heap o
  | .tallying pred curr =>
    task.goTo (.leaving pred curr (.settled (.ok (.flag true))))
      { heap with count := heap.count + 1 } o
  | .doomed pred curr =>
    match heap.nodes curr with
    | none => task.crash heap o
    | some node => task.goTo (.cutting pred curr node.next) heap o
  | .cutting pred curr next => task.relink pred next (.discounting pred curr) heap o
  | .discounting pred victim =>
    task.goTo (.dropping pred victim) { heap with count := heap.count - 1 } o
  | .dropping pred victim => task.release t victim (.deleting pred victim) heap o
  | .deleting pred victim =>
    match heap.nodes victim, heap.owner victim with
    | some _, none =>
      task.goTo (.left pred (.settled (.ok (.flag true))))
        { heap with nodes := Function.update heap.nodes victim none } o
    | _, _ => task.crash heap o
  | .leaving pred curr ending => task.release t curr (.left pred ending) heap o
  | .left pred (.settled outcome) => task.release t pred (.returning outcome) heap o
  | .left pred (.counting seen) => task.release t pred (.comparing seen) heap o
  | .comparing seen =>
    let outcome : SetOutcome T ε := .ok (.flag (seen = heap.count))
    some { heap, outside := o, task := { task with phase := .returning outcome },
           decided := some outcome }
  | .returning _ => none
  | .crashed => none

end Task

namespace Task

variable [DecidableEq Thread] {task : Task T ε} {t : Thread} {a : Nat} {phase : Phase T ε}
  {heap : NodeHeap Thread T} {o : σ} {act : Act Thread T ε σ}

/-- The lock of a node that is there is taken when it is free. -/
theorem acquire_eq (hact : task.acquire t a phase heap o = some act)
    (exists' : heap.nodes a ≠ none) : heap.owner a = none ∧
      act = { heap := { heap with owner := Function.update heap.owner a (some t) }, outside := o
              task := { task with phase } } := by
  rw [acquire] at hact
  cases hnode : heap.nodes a with
  | none => exact absurd hnode exists'
  | some node =>
    cases hfree : heap.owner a with
    | some t' => simp [hnode, hfree] at hact
    | none =>
      simp only [hnode, hfree, goTo, Option.some.injEq] at hact
      exact ⟨rfl, hact.symm⟩

/-- A lock in the thread's hands is given up. -/
theorem release_eq (hact : task.release t a phase heap o = some act)
    (exists' : heap.nodes a ≠ none) (owner : heap.owner a = some t) :
    act = { heap := { heap with owner := Function.update heap.owner a none }, outside := o
            task := { task with phase } } := by
  rw [release, if_pos ⟨Option.isSome_iff_ne_none.2 exists', owner⟩, goTo,
    Option.some.injEq] at hact
  exact hact.symm

end Task

/-- A thread with the operation it is in, those after that, and those that have returned. -/
structure Caller (T ε : Type) where
  task : Option (Task T ε) := none
  pending : List (Errand T)
  returned : List (SetRequest T × SetOutcome T ε) := []

/-- A set shared by threads; the log has the operations in the order in which they were settled. -/
structure NodeRun (Thread T ε σ : Type) where
  heap : NodeHeap Thread T
  outside : σ
  callers : Thread → Caller T ε
  log : List (Thread × SetRequest T × SetOutcome T ε) := []

namespace NodeRun

def begin (outside : σ) (program : Thread → List (Errand T)) : NodeRun Thread T ε σ where
  heap := .empty
  outside
  callers t := { pending := program t }

/-- One step of a thread: it calls, takes a step of its operation, or returns. A thread that is not
called on, or whose lock is taken, does nothing. -/
def step [DecidableEq Thread] (cb : SetCallbacks T ε σ) (s : NodeRun Thread T ε σ)
    (turn : Thread × Nat) : NodeRun Thread T ε σ :=
  let caller := s.callers turn.1
  match caller with
  | ⟨none, [], _⟩ => s
  | ⟨none, errand :: pending, returned⟩ =>
    { s with callers := Function.update s.callers turn.1 ⟨some { errand }, pending, returned⟩ }
  | ⟨some task, pending, returned⟩ =>
    match task.phase with
    | .returning outcome =>
      { s with
        callers := Function.update s.callers turn.1
          ⟨none, pending, returned ++ [(task.errand.request, outcome)]⟩ }
    | _ =>
      match task.act cb turn.1 turn.2 s.heap s.outside with
      | none => s
      | some act =>
        { heap := act.heap
          outside := act.outside
          callers := Function.update s.callers turn.1 ⟨some act.task, pending, returned⟩
          log := s.log ++ act.decided.toList.map fun outcome =>
            (turn.1, task.errand.request, outcome) }

/-- A step within an operation. -/
theorem step_of_act [DecidableEq Thread] {cb : SetCallbacks T ε σ} {s : NodeRun Thread T ε σ}
    {t : Thread} {task : Task T ε} {pending : List (Errand T)}
    {returned : List (SetRequest T × SetOutcome T ε)} {fresh : Nat} {act : Act Thread T ε σ}
    (hcaller : s.callers t = ⟨some task, pending, returned⟩)
    (hact : task.act cb t fresh s.heap s.outside = some act) :
    step cb s (t, fresh) =
      { heap := act.heap, outside := act.outside
        callers := Function.update s.callers t ⟨some act.task, pending, returned⟩
        log := s.log ++ act.decided.toList.map fun outcome => (t, task.errand.request, outcome) } := by
  cases hphase : task.phase with
  | returning outcome => simp [Task.act, hphase] at hact
  | _ => simp only [step, hcaller, hphase, hact]

/-- What a thread can do in its turn: nothing, call, return, or take a step of its operation. -/
inductive Step [DecidableEq Thread] (cb : SetCallbacks T ε σ) (s : NodeRun Thread T ε σ) :
    Thread × Nat → NodeRun Thread T ε σ → Prop
  | still {turn : Thread × Nat} : Step cb s turn s
  | calls {t : Thread} {fresh : Nat} {errand : Errand T} {pending : List (Errand T)}
    {returned : List (SetRequest T × SetOutcome T ε)} :
    s.callers t = ⟨none, errand :: pending, returned⟩ →
      Step cb s (t, fresh)
        { s with callers := Function.update s.callers t ⟨some { errand }, pending, returned⟩ }
  | returns {t : Thread} {fresh : Nat} {task : Task T ε} {pending : List (Errand T)}
    {returned : List (SetRequest T × SetOutcome T ε)} {outcome : SetOutcome T ε} :
    s.callers t = ⟨some task, pending, returned⟩ → task.phase = .returning outcome →
      Step cb s (t, fresh)
        { s with
          callers := Function.update s.callers t
            ⟨none, pending, returned ++ [(task.errand.request, outcome)]⟩ }
  | acts {t : Thread} {fresh : Nat} {task : Task T ε} {pending : List (Errand T)}
    {returned : List (SetRequest T × SetOutcome T ε)} {act : Act Thread T ε σ} :
    s.callers t = ⟨some task, pending, returned⟩ →
      task.act cb t fresh s.heap s.outside = some act →
      Step cb s (t, fresh)
        { heap := act.heap, outside := act.outside
          callers := Function.update s.callers t ⟨some act.task, pending, returned⟩
          log := s.log ++ act.decided.toList.map fun outcome => (t, task.errand.request, outcome) }

theorem step_spec [DecidableEq Thread] (cb : SetCallbacks T ε σ) (s : NodeRun Thread T ε σ)
    (turn : Thread × Nat) : Step cb s turn (step cb s turn) := by
  obtain ⟨t, fresh⟩ := turn
  cases hcaller : s.callers t with
  | mk task pending returned =>
    cases task with
    | none =>
      cases pending with
      | nil =>
        simp only [step, hcaller]
        exact .still
      | cons errand pending =>
        simp only [step, hcaller]
        exact .calls hcaller
    | some task =>
      cases hphase : task.phase with
      | returning outcome =>
        simp only [step, hcaller, hphase]
        exact .returns hcaller hphase
      | _ =>
        cases hact : task.act cb t fresh s.heap s.outside with
        | none =>
          simp only [step, hcaller, hphase, hact]
          exact .still
        | some act =>
          rw [step_of_act hcaller hact]
          exact .acts hcaller hact

/-- A schedule says who comes next, and where a new node would be. -/
def run [DecidableEq Thread] (cb : SetCallbacks T ε σ) (s : NodeRun Thread T ε σ)
    (schedule : List (Thread × Nat)) : NodeRun Thread T ε σ :=
  schedule.foldl (step cb) s

end NodeRun
end LockedContainers
